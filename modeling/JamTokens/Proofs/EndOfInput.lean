import JamTokens.Proofs.Sessions

/-!
# The end of input is final

The end of input reaches a lexer on several ways: its feed is used up or closed
when the next lexeme is asked for, or a lookahead has met the end before and
has handed it back.  Whatever the session was, a call that reports the end
leaves the lexer at the end, and no request brings it away from there, though
the source might have more to give.
-/

set_option autoImplicit false

namespace JamTokens

/-- What a client asks of a lexer: a call, or a step of an iteration over the tokens. -/
inductive Request
  | call (c : Call)
  | next
  deriving DecidableEq, Repr

inductive Response
  | returned (result : Except LexError (Option Token))
  | stepped (item : Option (Except LexError Token))

namespace Request

def toCall : Request → Call
  | call c => c
  | next => .read

def respond : Request → Except LexError (Option Token) → Response
  | call _, result => .returned result
  | next, .ok token => .stepped (token.map .ok)
  | next, .error e => .stepped (some (.error e))

/-- The response at the end of input, where a flush succeeds and all else finds nothing. -/
def atEnd : Request → Response
  | call _ => .returned (.ok none)
  | next => .stepped none

theorem respond_eq_atEnd_iff (r : Request) (result : Except LexError (Option Token)) :
    r.respond result = r.atEnd ↔ result = .ok none := by
  cases r with
  | call c => exact Response.returned.injEq _ _ ▸ Iff.rfl
  | next =>
      rcases result with e | (_ | token)
      · simp [respond, atEnd]
      · simp [respond, atEnd]
      · simp [respond, atEnd]

end Request

namespace Lexer

def request (l : Lexer) : Request → Response × Lexer
  | .call c => (.returned (l.call c).1, (l.call c).2)
  | .next => (.stepped l.next.1, l.next.2)

def responses (l : Lexer) : List Request → List Response
  | [] => []
  | r :: requests => (l.request r).1 :: (l.request r).2.responses requests

def afterRequests (l : Lexer) : List Request → Lexer
  | [] => l
  | r :: requests => (l.request r).2.afterRequests requests

theorem request_eq (l : Lexer) (r : Request) :
    l.request r = (r.respond (l.call r.toCall).1, (l.call r.toCall).2) := by
  cases r with
  | call c => rfl
  | next =>
      rw [request, next, Request.toCall, call]
      rcases l.read with ⟨e | (_ | token), l'⟩
      · rfl
      · rfl
      · rfl

/-! ## On the way to the end -/

theorem settled_call {l : Lexer} (settled : l.scanner.Settled) (c : Call) :
    (l.call c).2.scanner.Settled := by
  cases c with
  | read =>
      cases peeked : l.peeked with
      | none => exact (l.read_fresh settled peeked).2.2.2.2
      | some next => simpa [call, read, peeked] using settled
  | peek =>
      cases peeked : l.peeked with
      | none => exact (l.peek_fresh settled peeked).2.2.2.2
      | some next => simpa [call, peek, peeked] using settled
  | flush =>
      apply Scanner.settled_of_returned_none
      exact l.flush_returned

theorem settled_afterRequests {l : Lexer} (settled : l.scanner.Settled) (requests : List Request) :
    (l.afterRequests requests).scanner.Settled := by
  induction requests generalizing l with
  | nil => exact settled
  | cons r requests ih =>
      apply ih
      rw [request_eq]
      exact settled_call settled r.toCall

theorem atEnd_of_call {l : Lexer} (settled : l.scanner.Settled) {c : Call} (pulls : c ≠ .flush)
    (nothing : (l.call c).1 = .ok none) : (l.call c).2.AtEnd := by
  cases peeked : l.peeked with
  | some next =>
      obtain ⟨token, start⟩ := next
      cases c with
      | flush => exact absurd rfl pulls
      | read => simp [call, read, peeked] at nothing
      | peek => simp [call, peek, peeked] at nothing
  | none =>
      have found := next_of_call_none peeked pulls nothing
      rcases called : l.scanner.next with ⟨result, s⟩
      rw [called] at found
      dsimp only at found
      subst found
      rw [call_of_next_end peeked called pulls]
      refine ⟨Scanner.next_end_ended settled called, ?_, peeked⟩
      intro lexeme start back
      rw [Scanner.returned_of_next called] at back
      cases back

theorem atEnd_of_request {l : Lexer} (settled : l.scanner.Settled) {r : Request}
    (pulls : r ≠ .call .flush) (ended : (l.request r).1 = r.atEnd) : (l.request r).2.AtEnd := by
  rw [request_eq, Request.respond_eq_atEnd_iff] at ended
  rw [request_eq]
  refine atEnd_of_call settled (fun drops => ?_) ended
  cases r with
  | call c => exact pulls (congrArg Request.call drops)
  | next => cases drops

/-! ## At the end -/

theorem Rests.trans {l l' l'' : Lexer} (h : l.Rests l') (h' : l'.Rests l'') : l.Rests l'' where
  atEnd := h'.atEnd
  cursor := h'.cursor.trans h.cursor
  symbols := h'.symbols.trans h.symbols
  position := h'.position.trans h.position

theorem request_atEnd {l : Lexer} (h : l.AtEnd) (r : Request) :
    (l.request r).1 = r.atEnd ∧ l.Rests (l.request r).2 := by
  obtain ⟨l', called, rests⟩ := call_atEnd h r.toCall
  rw [request_eq, called]
  exact ⟨(r.respond_eq_atEnd_iff _).mpr rfl, rests⟩

theorem requests_atEnd {l : Lexer} (h : l.AtEnd) (requests : List Request) :
    l.responses requests = requests.map Request.atEnd ∧ l.Rests (l.afterRequests requests) := by
  induction requests generalizing l with
  | nil => exact ⟨rfl, h, rfl, rfl, rfl⟩
  | cons r requests ih =>
      obtain ⟨response, rests⟩ := request_atEnd h r
      obtain ⟨responses, behind⟩ := ih rests.atEnd
      refine ⟨?_, rests.trans behind⟩
      rw [Lexer.responses, response, responses, List.map_cons]

/-- Once a read, a peek or a step of an iteration has reported the end of input, every request does,
and every flush succeeds, in whatever order they come.  None of them takes anything more of the feed,
however much there is, or changes the line, the position of the latest token or the symbols. -/
theorem end_is_final (source : Source) (requests : List Request) (last : Request) (l : Lexer)
    (pulls : last ≠ .call .flush)
    (ended : ((ofSource source).afterRequests requests).request last = (last.atEnd, l))
    (more : List Request) :
    l.responses more = more.map Request.atEnd ∧
      (l.afterRequests more).cursor.feed = l.cursor.feed ∧
      (l.afterRequests more).line = l.line ∧
      (l.afterRequests more).position = l.position ∧
      (l.afterRequests more).symbols = l.symbols := by
  have start : (ofSource source).scanner.Settled := Scanner.settled_ofFeed source.feed
  have atEnd := atEnd_of_request (settled_afterRequests start requests) pulls
    (congrArg Prod.fst ended)
  rw [ended] at atEnd
  obtain ⟨responses, rests⟩ := requests_atEnd atEnd more
  exact ⟨responses, congrArg Cursor.feed rests.cursor, congrArg (·.position.line) rests.cursor,
    rests.position, rests.symbols⟩

/-- The lookahead of the last character has met the end, and the source has more behind it. -/
theorem end_is_final_behind_lookahead :
    ∃ l : Lexer,
      Request.next ≠ .call .flush ∧
      ((ofSource [.byte 0x61, .byte 0x3C, .pause, .pause, .byte 0x62,
          .failure ⟨.brokenPipe, "gone"⟩]).afterRequests
            [.call .read, .call .peek, .next]).request .next = (Request.next.atEnd, l) ∧
      ∀ more,
        l.responses more = more.map Request.atEnd ∧
          (l.afterRequests more).cursor.feed = l.cursor.feed ∧
          (l.afterRequests more).line = l.line ∧
          (l.afterRequests more).position = l.position ∧
          (l.afterRequests more).symbols = l.symbols := by
  have feed :
      Source.feed [.byte 0x61, .byte 0x3C, .pause, .pause, .byte 0x62,
          .failure ⟨.brokenPipe, "gone"⟩] =
        [.refill none, .char 'a', .char '<', .close, .refill (some ⟨.brokenPipe, "gone"⟩),
          .char 'b'] := by
    decide +kernel
  have pulls : Request.next ≠ .call .flush := by decide
  obtain ⟨l, ended⟩ :
      ∃ l, ((ofSource [.byte 0x61, .byte 0x3C, .pause, .pause, .byte 0x62,
          .failure ⟨.brokenPipe, "gone"⟩]).afterRequests
            [.call .read, .call .peek, .next]).request .next = (Request.next.atEnd, l) := by
    rw [ofSource, feed]
    exact ⟨_, rfl⟩
  exact ⟨l, pulls, ended, end_is_final _ _ _ l pulls ended⟩

end Lexer

end JamTokens
