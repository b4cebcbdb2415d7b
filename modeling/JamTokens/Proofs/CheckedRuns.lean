import JamTokens.Proofs.EndOfInput
import JamTokens.Proofs.LineBuffers

/-!
# Runs of a lexer over a line buffer

A scanner and a lexer that read from a line buffer check what the buffer checks,
and also that no lexeme is handed back while another one is pending.  They loop
over the calls of the buffer, character by character.

No check fails in any run, also behind failures that come in the middle of a
line, a lexeme or a lookahead.  The responses are those of the lexer that reads
from the feed of the source.
-/

set_option autoImplicit false

namespace JamTokens

open CharClass

/-! ## Loops over the buffer -/

namespace LineBuffer

/-- Blanks are skipped one by one, a comment as a line. -/
def gapRound (_ : Unit) (b : LineBuffer) :
    Except Fault (Except Failure (Round Unit Unit) × LineBuffer) :=
  andThen b.current fun
    | none, b => .ok (.ok (.done ()), b)
    | some c, b =>
      if isBlank c then andThen b.advance fun _ b => .ok (.ok (.again ()), b)
      else if c = '/' then
        match b.peek 1 with
        | .error fault => .error fault
        | .ok next =>
          if next = some '/' then andThen b.skipLine fun _ b => .ok (.ok (.again ()), b)
          else .ok (.ok (.done ()), b)
      else .ok (.ok (.done ()), b)

def skipGap (b : LineBuffer) : Except Fault (Except Failure Unit × LineBuffer) :=
  loop gapRound () b

/-- The state is that of the lexeme, with the characters taken so far. -/
def stepRound {σ : Type} (step : σ → Char → Option σ) (state : σ × List Char) (b : LineBuffer) :
    Except Fault (Except Failure (Round (σ × List Char) (List Char)) × LineBuffer) :=
  andThen b.current fun
    | none, b => .ok (.ok (.done state.2), b)
    | some c, b =>
      match step state.1 c with
      | none => .ok (.ok (.done state.2), b)
      | some next => andThen b.advance fun _ b => .ok (.ok (.again (next, state.2 ++ [c])), b)

def takeSteps {σ : Type} (step : σ → Char → Option σ) (state : σ) (b : LineBuffer) :
    Except Fault (Except Failure (List Char) × LineBuffer) :=
  loop (stepRound step) (state, []) b

end LineBuffer

/-! ## What the loops do to a cursor -/

namespace Feed

/-- A comment is a line, with a gap behind it. -/
theorem takeGap_inComment (feed : Feed) :
    feed.takeGap true =
      match feed.takeLine with
      | ⟨taken, some f, rest⟩ => ⟨taken, some f, rest⟩
      | ⟨taken, none, rest⟩ =>
        ⟨taken ++ (rest.takeGap false).taken, (rest.takeGap false).failure,
          (rest.takeGap false).rest⟩ := by
  fun_induction takeLine feed with
  | case1 rest => rfl
  | case2 c rest other ih =>
      have open' : (c != '\n') = true := by simpa using other
      rw [takeGap, open', ih]
      rcases takeLine rest with ⟨taken, _ | f, behind⟩
      · rfl
      · rfl
  | case3 rest ih => exact ih
  | case4 f rest => rfl
  | case5 rest => rfl
  | case6 => rfl

end Feed

namespace Cursor

def skipGap (c : Cursor) : Except Failure Unit × Cursor :=
  match (c.feed.takeGap false).failure with
  | some f => (.error f, c.pass (c.feed.takeGap false))
  | none => (.ok (), c.pass (c.feed.takeGap false))

def takeSteps {σ : Type} (step : σ → Char → Option σ) (state : σ × List Char) (c : Cursor) :
    Except Failure (List Char) × Cursor :=
  match (c.feed.takeSteps step state.1).failure with
  | some f => (.error f, c.pass (c.feed.takeSteps step state.1))
  | none =>
    (.ok (state.2 ++ (c.feed.takeSteps step state.1).taken), c.pass (c.feed.takeSteps step state.1))

variable {c : Cursor} {ch : Char} {rest : Feed}

theorem skipGap_fill (filled : c.feed.fill = (none, rest)) :
    c.skipGap = skipGap { c with feed := rest } := by
  rw [skipGap, Feed.takeGap_fill false filled]
  rfl

theorem skipGap_of_blank {p : Position} (blank : isBlank ch = true) :
    skipGap ⟨.char ch :: rest, p⟩ = skipGap ⟨rest, p.step ch⟩ := by
  simp only [skipGap, Feed.takeGap, if_pos blank]
  rfl

theorem skipGap_of_comment {p : Position} (opens : rest.head? = some (.char '/')) :
    skipGap ⟨.char '/' :: rest, p⟩ =
      match skipLine ⟨.char '/' :: rest, p⟩ with
      | (.error f, c) => (.error f, c)
      | (.ok _, c) => c.skipGap := by
  have shut : isBlank '/' = false := by decide
  simp only [skipGap, skipLine, Feed.takeGap, Feed.takeLine, shut, opens, Feed.takeGap_inComment rest]
  rcases rest.takeLine with ⟨taken, _ | f, behind⟩
  · simp [Cursor.pass, Position.after_append]
  · simp [Cursor.pass]

theorem skipGap_of_other {p : Position} (solid : isBlank ch = false)
    (other : ¬ (ch = '/' ∧ rest.head? = some (.char '/'))) :
    skipGap ⟨.char ch :: rest, p⟩ = (.ok (), ⟨.char ch :: rest, p⟩) := by
  simp [skipGap, Feed.takeGap, solid, other, Cursor.pass]

theorem skipGap_of_failure {f : Failure} (filled : c.feed.fill = (some f, rest)) :
    c.skipGap = (.error f, { c with feed := rest }) := by
  have fails := Feed.take_of_failure (Feed.takeGap false) (fun _ => rfl) (fun _ _ => rfl) filled
  rw [skipGap, fails]
  rfl

theorem skipGap_of_nothing (filled : c.feed.fill = (none, rest)) (ended : rest.Ended) :
    c.skipGap = (.ok (), { c with feed := rest }) := by
  rw [skipGap, Feed.takeGap_fill false filled, Feed.takeGap_ended false ended]
  rfl

variable {σ : Type} {step : σ → Char → Option σ} {state : σ × List Char}

theorem takeSteps_of_failure {f : Failure} (filled : c.feed.fill = (some f, rest)) :
    c.takeSteps step state = (.error f, { c with feed := rest }) := by
  have fails := Feed.take_of_failure (Feed.takeSteps step state.1) (fun _ => rfl) (fun _ _ => rfl)
    filled
  rw [takeSteps, fails]
  rfl

theorem takeSteps_of_nothing (filled : c.feed.fill = (none, rest)) (ended : rest.Ended) :
    c.takeSteps step state = (.ok state.2, { c with feed := rest }) := by
  rw [takeSteps, Feed.takeSteps_fill step state.1 filled]
  rcases ended.eq with rfl | ⟨later, rfl⟩
  · simp [Feed.takeSteps, Cursor.pass]
  · simp [Feed.takeSteps, Cursor.pass]

theorem takeSteps_of_stop (filled : c.feed.fill = (none, .char ch :: rest))
    (stops : step state.1 ch = none) :
    c.takeSteps step state = (.ok state.2, { c with feed := .char ch :: rest }) := by
  rw [takeSteps, Feed.takeSteps_fill step state.1 filled]
  simp [Feed.takeSteps, stops, Cursor.pass]

theorem takeSteps_of_step {next : σ} (filled : c.feed.fill = (none, .char ch :: rest))
    (goes : step state.1 ch = some next) :
    c.takeSteps step state =
      takeSteps step (next, state.2 ++ [ch]) ⟨rest, c.position.step ch⟩ := by
  rw [takeSteps, Feed.takeSteps_fill step state.1 filled]
  simp [takeSteps, Feed.takeSteps, goes, Cursor.pass]

theorem peek_one (p : Position) : peek ⟨.char ch :: rest, p⟩ 1 = rest.buffered.head? := by
  rw [peek, Feed.buffered]
  exact List.getElem?_cons_succ.trans List.head?_eq_getElem?.symm

end Cursor

theorem Feed.head_buffered (feed : Feed) (c : Char) :
    feed.buffered.head? = some c ↔ feed.head? = some (.char c) := by
  match feed with
  | [] => simp [buffered]
  | .char d :: rest => simp [buffered]
  | .refill failure :: rest => simp [buffered]
  | .close :: rest => simp [buffered]

namespace LineBuffer

variable {b : LineBuffer} {c : Cursor}

theorem gapRound_meets (h : b.Shows c) :
    RoundMeets b (fun (_ : Unit) c => c.skipGap) c.skipGap (gapRound () b) := by
  obtain ⟨b', called, shows, draws⟩ := current_meets h
  have used := current_left called
  unfold gapRound
  cases c.feed.finds with
  | failure filled _ =>
      rw [show c.current = _ by rw [Cursor.current, filled]] at called shows draws
      rw [called, Cursor.skipGap_of_failure filled]
      exact .failed rfl rfl shows draws
  | nothing filled ended _ =>
      rw [Cursor.current_nothing filled ended] at called shows draws
      rw [called, Cursor.skipGap_of_nothing filled ended]
      exact .done rfl rfl shows draws
  | @char ch rest filled _ =>
      rw [Cursor.current_char filled] at called shows draws
      rw [called, Cursor.skipGap_fill filled]
      obtain ⟨b₁, advanced, shows₁, draws₁⟩ := advance_meets shows
      dsimp only [andThen]
      by_cases blank : isBlank ch = true
      · rw [if_pos blank, advanced, Cursor.skipGap_of_blank blank]
        have less := Nat.lt_of_lt_of_le ((advance_left advanced).2 ch rfl) used
        exact .again rfl less rfl shows₁ (draws.trans draws₁)
      rw [if_neg blank]
      by_cases slash : ch = '/'
      · subst slash
        rw [if_pos rfl, peek_meets shows, Cursor.peek_one]
        dsimp only
        by_cases opens : rest.buffered.head? = some '/'
        · obtain ⟨b₂, skipped, shows₂, draws₂⟩ := skipLine_meets shows
          have less := Nat.lt_of_lt_of_le ((skipLine_left skipped).2 '/' b₁ advanced) used
          rw [if_pos opens, skipped, Cursor.skipGap_of_comment ((rest.head_buffered '/').mp opens)]
          rcases line : Cursor.skipLine ⟨.char '/' :: rest, c.position⟩ with ⟨f | _, c'⟩ <;>
            rw [line] at shows₂ draws₂
          · exact .failed rfl rfl shows₂ (draws.trans draws₂)
          · exact .again rfl less rfl shows₂ (draws.trans draws₂)
        · rw [if_neg opens, Cursor.skipGap_of_other (by decide)
            fun both => opens ((rest.head_buffered '/').mpr both.2)]
          exact .done rfl rfl shows draws
      · rw [if_neg slash, Cursor.skipGap_of_other (by simpa using blank) fun both => slash both.1]
        exact .done rfl rfl shows draws

theorem skipGap_meets (h : b.Shows c) : b.Meets b.skipGap c.skipGap :=
  loop_meets gapRound (fun _ c => c.skipGap) (fun _ _ _ h => gapRound_meets h) () h

theorem stepRound_meets {σ : Type} (step : σ → Char → Option σ) (state : σ × List Char)
    (h : b.Shows c) :
    RoundMeets b (fun state c => c.takeSteps step state) (c.takeSteps step state)
      (stepRound step state b) := by
  obtain ⟨b', called, shows, draws⟩ := current_meets h
  have used := current_left called
  unfold stepRound
  cases c.feed.finds with
  | failure filled _ =>
      rw [show c.current = _ by rw [Cursor.current, filled]] at called shows draws
      rw [called, Cursor.takeSteps_of_failure filled]
      exact .failed rfl rfl shows draws
  | nothing filled ended _ =>
      rw [Cursor.current_nothing filled ended] at called shows draws
      rw [called, Cursor.takeSteps_of_nothing filled ended]
      exact .done rfl rfl shows draws
  | @char ch rest filled _ =>
      rw [Cursor.current_char filled] at called shows draws
      rw [called]
      dsimp only [andThen]
      cases goes : step state.1 ch with
      | none =>
          rw [Cursor.takeSteps_of_stop filled goes]
          exact .done rfl rfl shows draws
      | some next =>
          obtain ⟨b₁, advanced, shows₁, draws₁⟩ := advance_meets shows
          have less := Nat.lt_of_lt_of_le ((advance_left advanced).2 ch rfl) used
          rw [Cursor.takeSteps_of_step filled goes, advanced]
          exact .again rfl less rfl shows₁ (draws.trans draws₁)

theorem takeSteps_meets {σ : Type} (step : σ → Char → Option σ) (state : σ) (h : b.Shows c) :
    b.Meets (b.takeSteps step state) (c.takeSteps step (state, [])) :=
  loop_meets (stepRound step) (fun state c => c.takeSteps step state)
    (fun state _ _ h => stepRound_meets step state h) (state, []) h

end LineBuffer

/-! ## Scanners -/

structure BufferedScanner where
  buffer : LineBuffer
  returned : Option (Lexeme × Position)
  start : Position
  deriving DecidableEq, Repr

namespace BufferedScanner

def ofSource (source : Source) : BufferedScanner := ⟨.ofSource source, none, .start⟩

def calling {α β : Type} (s : BufferedScanner)
    (checked : Except Fault (Except Failure α × LineBuffer))
    (next : α → BufferedScanner → Except Fault (Except Failure β × BufferedScanner)) :
    Except Fault (Except Failure β × BufferedScanner) :=
  match checked with
  | .error fault => .error fault
  | .ok (.error f, b) => .ok (.error f, { s with buffer := b })
  | .ok (.ok value, b) => next value { s with buffer := b }

def word (s : BufferedScanner) : Except Fault (Except Failure Lexeme × BufferedScanner) :=
  s.calling (s.buffer.takeSteps Lexeme.wordStep ()) fun text s =>
    .ok (.ok (.word (String.ofList text)), s)

def number (s : BufferedScanner) : Except Fault (Except Failure Lexeme × BufferedScanner) :=
  s.calling (s.buffer.takeSteps Lexeme.numberStep false) fun text s =>
    .ok (.ok (.number (String.ofList text)), s)

def single (s : BufferedScanner) (c : Char) :
    Except Fault (Except Failure Lexeme × BufferedScanner) :=
  s.calling s.buffer.advance fun _ s => .ok (.ok (.char c), s)

def lexemeAt (s : BufferedScanner) (c : Char) :
    Except Fault (Except Failure Lexeme × BufferedScanner) :=
  if isWordStart c then s.word
  else if isDigit c then s.number
  else if c = '.' then
    match s.buffer.peek 1 with
    | .error fault => .error fault
    | .ok next => if next.any isDigit then s.number else s.single c
  else s.single c

def scan (s : BufferedScanner) : Except Fault (Except Failure Lexeme × BufferedScanner) :=
  let s := { s with start := s.buffer.position }
  s.calling s.buffer.current fun
    | none, s => .ok (.ok .endOfInput, s)
    | some c, s => s.lexemeAt c

def next (s : BufferedScanner) : Except Fault (Except Failure Lexeme × BufferedScanner) :=
  match s.returned with
  | some (lexeme, start) => .ok (.ok lexeme, { s with returned := none, start := start })
  | none => s.calling s.buffer.skipGap fun _ s => s.scan

/-- Hands a lexeme back.  It is a fault if another one is pending. -/
def handBack (s : BufferedScanner) (lexeme : Lexeme) : Except Fault BufferedScanner :=
  match s.returned with
  | some _ => .error .lexemePending
  | none => .ok { s with returned := some (lexeme, s.start) }

def flush (s : BufferedScanner) : Except Fault (Except Failure Unit × BufferedScanner) :=
  let s := { s with returned := none }
  s.calling s.buffer.skipLine fun _ s => .ok (.ok (), s)

structure Shows (s : BufferedScanner) (t : Scanner) : Prop where
  buffer : s.buffer.Shows t.cursor
  returned : s.returned = t.returned
  start : s.start = t.start

/-- The checked call returns what the plain one returns, and shows the same behind it. -/
def Meets {α : Type} (s : BufferedScanner)
    (checked : Except Fault (Except Failure α × BufferedScanner))
    (plain : Except Failure α × Scanner) : Prop :=
  ∃ s', checked = .ok (plain.1, s') ∧ s'.Shows plain.2 ∧ s.buffer.Draws s'.buffer !plain.1.isOk

variable {s : BufferedScanner} {t : Scanner}

theorem Meets.from {α : Type} {s s' : BufferedScanner}
    {checked : Except Fault (Except Failure α × BufferedScanner)}
    {plain : Except Failure α × Scanner} (h : s'.Meets checked plain)
    (draws : s.buffer.Draws s'.buffer false) : s.Meets checked plain := by
  obtain ⟨s'', called, shows, draws'⟩ := h
  exact ⟨s'', called, shows, draws.trans draws'⟩

theorem calling_meets {α β : Type} {checked : Except Fault (Except Failure α × LineBuffer)}
    {plain : Except Failure α × Cursor} (h : s.Shows t) (called : s.buffer.Meets checked plain)
    (make : α → β) :
    s.Meets (s.calling checked fun value s => .ok (.ok (make value), s))
      (plain.1.map make, { t with cursor := plain.2 }) := by
  obtain ⟨b, rfl, shows, draws⟩ := called
  rcases plain with ⟨f | value, c⟩
  · exact ⟨{ s with buffer := b }, rfl, ⟨shows, h.returned, h.start⟩, draws⟩
  · exact ⟨{ s with buffer := b }, rfl, ⟨shows, h.returned, h.start⟩, draws⟩

end BufferedScanner

theorem Scanner.finish_takeSteps {σ : Type} (t : Scanner) (make : String → Lexeme)
    (step : σ → Char → Option σ) (state : σ) :
    t.finish make (t.cursor.feed.takeSteps step state) =
      ((t.cursor.takeSteps step (state, [])).1.map fun text => make (String.ofList text),
        { t with cursor := (t.cursor.takeSteps step (state, [])).2 }) := by
  unfold finish Cursor.takeSteps
  cases (t.cursor.feed.takeSteps step state).failure with
  | some f => rfl
  | none => rfl

theorem Scanner.scan_of_char {t : Scanner} {c : Char} {rest : Feed}
    (atChar : t.cursor.feed = .char c :: rest) (placed : t.start = t.cursor.position) :
    t.scan =
      if isWordStart c then t.finish .word (t.cursor.feed.takeSteps Lexeme.wordStep ())
      else if startsNumber c rest then
        t.finish .number (t.cursor.feed.takeSteps Lexeme.numberStep false)
      else (.ok (.char c), { t with cursor := ⟨rest, t.cursor.position.step c⟩ }) := by
  obtain ⟨⟨feed, position⟩, returned, start⟩ := t
  dsimp only at atChar placed
  subst atChar placed
  rfl

namespace BufferedScanner

variable {s : BufferedScanner} {t : Scanner}

theorem lexemeAt_meets {c : Char} {rest : Feed} (h : s.Shows t)
    (atChar : t.cursor.feed = .char c :: rest) (placed : t.start = t.cursor.position) :
    s.Meets (s.lexemeAt c) t.scan := by
  have word := calling_meets h (LineBuffer.takeSteps_meets Lexeme.wordStep () h.buffer)
    fun text => Lexeme.word (String.ofList text)
  have number := calling_meets h (LineBuffer.takeSteps_meets Lexeme.numberStep false h.buffer)
    fun text => Lexeme.number (String.ofList text)
  have single := calling_meets h (LineBuffer.advance_meets h.buffer) fun _ => Lexeme.char c
  have advanced : t.cursor.advance = (.ok (some c), ⟨rest, t.cursor.position.step c⟩) :=
    Cursor.advance_char (by rw [atChar]; rfl)
  have next : s.buffer.peek 1 = .ok rest.buffered.head? := by
    rw [LineBuffer.peek_meets h.buffer, Cursor.peek, atChar]
    exact congrArg _ (Cursor.peek_one t.cursor.position)
  rw [advanced] at single
  rw [lexemeAt, Scanner.scan_of_char atChar placed, next]
  dsimp only
  by_cases starts : isWordStart c = true
  · rw [if_pos starts, if_pos starts, Scanner.finish_takeSteps]
    exact word
  rw [if_neg starts, if_neg starts, Scanner.startsNumber]
  by_cases digit : isDigit c = true
  · rw [if_pos digit, if_pos (by simp [digit]), Scanner.finish_takeSteps]
    exact number
  rw [if_neg digit]
  by_cases point : c = '.'
  · rw [if_pos point]
    by_cases follows : rest.buffered.head?.any isDigit = true
    · rw [if_pos follows, if_pos (by simp [point, follows]), Scanner.finish_takeSteps]
      exact number
    · rw [if_neg follows, if_neg (by simp [digit, follows])]
      exact single
  · rw [if_neg point, if_neg (by simp [digit, point])]
    exact single

theorem scan_meets (h : s.Shows t)
    (stops : (∃ c rest, t.cursor.feed = .char c :: rest) ∨ t.cursor.feed.Ended) :
    s.Meets s.scan t.scan := by
  obtain ⟨b, called, shows, draws⟩ := LineBuffer.current_meets h.buffer
  unfold scan
  dsimp only
  rcases stops with ⟨c, rest, atChar⟩ | ended
  · rw [Cursor.current_char (by rw [atChar]; rfl), ← atChar] at called shows draws
    have placed : Shows ⟨b, s.returned, s.buffer.position⟩ { t with start := t.cursor.position } :=
      ⟨shows, h.returned, h.buffer.position⟩
    rw [called]
    exact (lexemeAt_meets placed atChar rfl).from draws
  · rw [Cursor.current_nothing ended.fill ended] at called shows draws
    rw [called, Scanner.scan_ended ended]
    exact ⟨_, rfl, ⟨shows, h.returned, h.buffer.position⟩, draws⟩

theorem next_meets (h : s.Shows t) : s.Meets s.next t.next := by
  unfold next
  rw [h.returned]
  cases back : t.returned with
  | some back' =>
      obtain ⟨lexeme, start⟩ := back'
      rw [show t.next = _ by rw [Scanner.next, back]]
      exact ⟨_, rfl, ⟨h.buffer, rfl, rfl⟩, s.buffer.draws_refl⟩
  | none =>
      obtain ⟨b, called, shows, draws⟩ := LineBuffer.skipGap_meets h.buffer
      rw [called]
      unfold Cursor.skipGap at shows draws ⊢
      cases failed : (t.cursor.feed.takeGap false).failure with
      | some f =>
          rw [failed] at shows draws
          rw [Scanner.next_of_failed_gap back failed]
          exact ⟨_, rfl, ⟨shows, h.returned, h.start⟩, draws⟩
      | none =>
          rw [failed] at shows draws
          rw [Scanner.next_of_gap back failed]
          have skipped : Shows { s with buffer := b }
              { t with cursor := t.cursor.pass (t.cursor.feed.takeGap false) } :=
            ⟨shows, h.returned, h.start⟩
          exact (scan_meets skipped (Feed.takeGap_stops false t.cursor.feed failed)).from draws

theorem flush_meets (h : s.Shows t) : s.Meets s.flush t.flush := by
  have emptied : Shows { s with returned := none } { t with returned := none } :=
    ⟨h.buffer, rfl, h.start⟩
  have line := calling_meets emptied (LineBuffer.skipLine_meets h.buffer) id
  have same : t.flush =
      (t.cursor.skipLine.1.map id, { t with cursor := t.cursor.skipLine.2, returned := none }) := by
    unfold Scanner.flush
    rcases t.cursor.skipLine with ⟨f | _, c⟩
    · rfl
    · rfl
  rw [same]
  exact line

/-- A lexeme that has been read can be handed back, since reading leaves none pending. -/
theorem handBack_meets (h : s.Shows t) (free : t.returned = none) (lexeme : Lexeme) :
    ∃ s', s.handBack lexeme = .ok s' ∧ s'.Shows (t.handBack lexeme) ∧ s'.buffer = s.buffer := by
  rw [handBack, h.returned, free]
  exact ⟨_, rfl, ⟨h.buffer, congrArg (fun start => some (lexeme, start)) h.start, h.start⟩, rfl⟩

end BufferedScanner

/-! ## Lexers -/

structure BufferedLexer where
  scanner : BufferedScanner
  symbols : Symbols
  peeked : Option (Token × Position)
  position : Position
  deriving DecidableEq, Repr

namespace BufferedLexer

def ofSource (source : Source) : BufferedLexer := ⟨.ofSource source, .initial, none, .start⟩

def buffer (l : BufferedLexer) : LineBuffer := l.scanner.buffer

def pair (l : BufferedLexer) (c : Char) (pairing : Pairing) (start : Position) :
    Except Fault (Except LexError Token × BufferedLexer) :=
  match l.scanner.next with
  | .error fault => .error fault
  | .ok (.error f, s) => .ok (.error (.input f), { l with scanner := s })
  | .ok (.ok follower, s) =>
    if follower = .char '=' then .ok (.ok pairing.paired, { l with scanner := s })
    else
      (s.handBack follower).map fun s =>
        match pairing.single with
        | some token => (.ok token, { l with scanner := s })
        | none => (.error (Lexer.unpaired c follower start), { l with scanner := s })

def ofChar (l : BufferedLexer) (c : Char) (start : Position) :
    Except Fault (Except LexError Token × BufferedLexer) :=
  match Token.ofChar? c with
  | some token => .ok (.ok token, l)
  | none =>
    match Pairing.ofChar? c with
    | some pairing => l.pair c pairing start
    | none => .ok (.error (.illegalCharacter c start), l)

def ofLexeme (l : BufferedLexer) (lexeme : Lexeme) (start : Position) :
    Except Fault (Except LexError (Option Token) × BufferedLexer) :=
  match lexeme with
  | .endOfInput => .ok (.ok none, l)
  | .word text =>
    .ok (.ok (some (l.symbols.resolve text).1), { l with symbols := (l.symbols.resolve text).2 })
  | .number text =>
    match Literal.value? text.toList with
    | some value => .ok (.ok (some (.intConstant value)), l)
    | none => .ok (.error (.numericOverflow text start), l)
  | .char c => (l.ofChar c start).map fun (result, l) => (result.map some, l)

def assemble (l : BufferedLexer) :
    Except Fault (Except LexError (Option (Token × Position)) × BufferedLexer) :=
  match l.scanner.next with
  | .error fault => .error fault
  | .ok (.error f, s) => .ok (.error (.input f), { l with scanner := s })
  | .ok (.ok lexeme, s) =>
    (ofLexeme { l with scanner := s } lexeme s.start).map fun (result, l) =>
      (result.map (Option.map (·, s.start)), l)

def read (l : BufferedLexer) : Except Fault (Except LexError (Option Token) × BufferedLexer) :=
  match l.peeked with
  | some (token, start) => .ok (.ok (some token), { l with peeked := none, position := start })
  | none =>
    l.assemble.map fun
      | (.ok (some (token, start)), l) => (.ok (some token), { l with position := start })
      | (.ok none, l) => (.ok none, l)
      | (.error e, l) => (.error e, l)

def peek (l : BufferedLexer) : Except Fault (Except LexError (Option Token) × BufferedLexer) :=
  match l.peeked with
  | some (token, _) => .ok (.ok (some token), l)
  | none =>
    l.assemble.map fun
      | (.ok next, l) => (.ok (next.map (·.1)), { l with peeked := next })
      | (.error e, l) => (.error e, l)

def flush (l : BufferedLexer) : Except Fault (Except LexError Unit × BufferedLexer) :=
  l.scanner.flush.map fun
    | (.ok (), s) => (.ok (), { l with scanner := s, peeked := none })
    | (.error f, s) => (.error (.input f), { l with scanner := s, peeked := none })

def call (l : BufferedLexer) :
    Call → Except Fault (Except LexError (Option Token) × BufferedLexer)
  | .read => l.read
  | .peek => l.peek
  | .flush => l.flush.map fun (result, l) => (result.map fun _ => none, l)

def request (l : BufferedLexer) (r : Request) : Except Fault (Response × BufferedLexer) :=
  (l.call r.toCall).map fun (result, l) => (r.respond result, l)

def run (l : BufferedLexer) : List Request → Except Fault (List Response × BufferedLexer)
  | [] => .ok ([], l)
  | r :: requests =>
    match l.request r with
    | .error fault => .error fault
    | .ok (response, l) => (l.run requests).map fun (later, last) => (response :: later, last)

structure Shows (l : BufferedLexer) (t : Lexer) : Prop where
  scanner : l.scanner.Shows t.scanner
  symbols : l.symbols = t.symbols
  peeked : l.peeked = t.peeked
  position : l.position = t.position

end BufferedLexer

def LexError.failure? : LexError → Option Failure
  | input f => some f
  | _ => none

def LexError.inputFailure? {α : Type} : Except LexError α → Option Failure
  | .ok _ => none
  | .error e => e.failure?

namespace BufferedLexer

def Meets {α : Type} (l : BufferedLexer)
    (checked : Except Fault (Except LexError α × BufferedLexer)) (plain : Except LexError α × Lexer) :
    Prop :=
  ∃ l', checked = .ok (plain.1, l') ∧ l'.Shows plain.2 ∧
    l.buffer.Draws l'.buffer (LexError.inputFailure? plain.1).isSome

variable {l : BufferedLexer} {t : Lexer}

theorem ofSource_shows (source : Source) : (ofSource source).Shows (Lexer.ofSource source) :=
  ⟨⟨LineBuffer.ofSource_shows source, rfl, rfl⟩, rfl, rfl, rfl⟩

theorem Meets.from {α : Type} {l l' : BufferedLexer}
    {checked : Except Fault (Except LexError α × BufferedLexer)} {plain : Except LexError α × Lexer}
    (h : l'.Meets checked plain) (draws : l.buffer.Draws l'.buffer false) : l.Meets checked plain := by
  obtain ⟨l'', called, shows, draws'⟩ := h
  exact ⟨l'', called, shows, draws.trans draws'⟩

theorem meets_stay {α : Type} (h : l.Shows t) {result : Except LexError α}
    (lexical : LexError.inputFailure? result = none) : l.Meets (.ok (result, l)) (result, t) :=
  ⟨l, rfl, h, lexical ▸ l.buffer.draws_refl⟩

theorem Shows.with_scanner (h : l.Shows t) {s : BufferedScanner} {u : Scanner} (shows : s.Shows u) :
    Shows { l with scanner := s } { t with scanner := u } :=
  ⟨shows, h.symbols, h.peeked, h.position⟩

theorem pair_meets (h : l.Shows t) (c : Char) (pairing : Pairing) (start : Position) :
    l.Meets (l.pair c pairing start) (t.pair c pairing start) := by
  obtain ⟨s, called, shows, draws⟩ := BufferedScanner.next_meets h.scanner
  unfold pair Lexer.pair
  rw [called]
  rcases found : t.scanner.next with ⟨f | follower, u⟩ <;> rw [found] at shows draws
  · exact ⟨_, rfl, h.with_scanner shows, draws⟩
  · dsimp only
    by_cases equals : follower = .char '='
    · rw [if_pos equals, if_pos equals]
      exact ⟨_, rfl, h.with_scanner shows, draws⟩
    · obtain ⟨s', back, shows', same⟩ :=
        BufferedScanner.handBack_meets shows (Scanner.returned_of_next found) follower
      rw [if_neg equals, if_neg equals, back]
      have draws' : l.buffer.Draws s'.buffer false := same ▸ draws
      cases pairing.single with
      | some token => exact ⟨_, rfl, h.with_scanner shows', draws'⟩
      | none =>
          refine ⟨_, rfl, h.with_scanner shows', ?_⟩
          cases follower <;> exact draws'

theorem ofChar_meets (h : l.Shows t) (c : Char) (start : Position) :
    l.Meets (l.ofChar c start) (t.ofChar c start) := by
  unfold ofChar Lexer.ofChar
  cases Token.ofChar? c with
  | some token => exact meets_stay h rfl
  | none =>
      cases Pairing.ofChar? c with
      | some pairing => exact pair_meets h c pairing start
      | none => exact meets_stay h rfl

theorem ofLexeme_meets (h : l.Shows t) (lexeme : Lexeme) (start : Position) :
    l.Meets (l.ofLexeme lexeme start) (t.ofLexeme lexeme start) := by
  cases lexeme with
  | endOfInput => exact meets_stay h rfl
  | word text =>
      unfold ofLexeme Lexer.ofLexeme
      rw [h.symbols]
      exact ⟨_, rfl, ⟨h.scanner, rfl, h.peeked, h.position⟩, l.buffer.draws_refl⟩
  | number text =>
      unfold ofLexeme Lexer.ofLexeme
      dsimp only
      cases Literal.value? text.toList with
      | some value => exact meets_stay h rfl
      | none => exact meets_stay h rfl
  | char c =>
      obtain ⟨l', called, shows, draws⟩ := ofChar_meets h c start
      unfold ofLexeme Lexer.ofLexeme
      dsimp only
      rw [called]
      rcases made : t.ofChar c start with ⟨e | token, t'⟩ <;> rw [made] at shows draws
      · exact ⟨l', rfl, shows, draws⟩
      · exact ⟨l', rfl, shows, draws⟩

theorem assemble_meets (h : l.Shows t) : l.Meets l.assemble t.assemble := by
  obtain ⟨s, called, shows, draws⟩ := BufferedScanner.next_meets h.scanner
  unfold assemble Lexer.assemble
  rw [called]
  rcases found : t.scanner.next with ⟨f | lexeme, u⟩ <;> rw [found] at shows draws
  · exact ⟨_, rfl, h.with_scanner shows, draws⟩
  · obtain ⟨l', called', shows', draws'⟩ := ofLexeme_meets (h.with_scanner shows) lexeme u.start
    dsimp only
    rw [shows.start, called']
    rcases made : Lexer.ofLexeme { t with scanner := u } lexeme u.start with ⟨e | token, t'⟩ <;>
      rw [made] at shows' draws'
    · exact ⟨l', rfl, shows', LineBuffer.Draws.trans draws draws'⟩
    · exact ⟨l', rfl, shows', LineBuffer.Draws.trans draws draws'⟩

theorem read_meets (h : l.Shows t) : l.Meets l.read t.read := by
  unfold read Lexer.read
  rw [h.peeked]
  cases t.peeked with
  | some next =>
      exact ⟨_, rfl, ⟨h.scanner, h.symbols, rfl, rfl⟩, l.buffer.draws_refl⟩
  | none =>
      obtain ⟨l', called, shows, draws⟩ := assemble_meets h
      dsimp only
      rw [called]
      rcases made : t.assemble with ⟨e | (_ | ⟨token, start⟩), t'⟩ <;> rw [made] at shows draws
      · exact ⟨l', rfl, shows, draws⟩
      · exact ⟨l', rfl, shows, draws⟩
      · exact ⟨_, rfl, ⟨shows.scanner, shows.symbols, shows.peeked, rfl⟩, draws⟩

theorem peek_meets (h : l.Shows t) : l.Meets l.peek t.peek := by
  unfold peek Lexer.peek
  rw [h.peeked]
  cases t.peeked with
  | some next => exact meets_stay h rfl
  | none =>
      obtain ⟨l', called, shows, draws⟩ := assemble_meets h
      dsimp only
      rw [called]
      rcases made : t.assemble with ⟨e | next, t'⟩ <;> rw [made] at shows draws
      · exact ⟨l', rfl, shows, draws⟩
      · exact ⟨_, rfl, ⟨shows.scanner, shows.symbols, rfl, shows.position⟩, draws⟩

theorem flush_meets (h : l.Shows t) : l.Meets l.flush t.flush := by
  obtain ⟨s, called, shows, draws⟩ := BufferedScanner.flush_meets h.scanner
  unfold flush Lexer.flush
  rw [called]
  rcases found : t.scanner.flush with ⟨f | _, u⟩ <;> rw [found] at shows draws
  · exact ⟨_, rfl, ⟨shows, h.symbols, rfl, h.position⟩, draws⟩
  · exact ⟨_, rfl, ⟨shows, h.symbols, rfl, h.position⟩, draws⟩

theorem call_meets (h : l.Shows t) (c : Call) : l.Meets (l.call c) (t.call c) := by
  cases c with
  | read => exact read_meets h
  | peek => exact peek_meets h
  | flush =>
      obtain ⟨l', called, shows, draws⟩ := flush_meets h
      unfold call Lexer.call
      rw [called]
      rcases found : t.flush with ⟨e | _, t'⟩ <;> rw [found] at shows draws
      · exact ⟨l', rfl, shows, draws⟩
      · exact ⟨l', rfl, shows, draws⟩

theorem run_meets (h : l.Shows t) (requests : List Request) :
    ∃ l', l.run requests = .ok (t.responses requests, l') ∧ l'.Shows (t.afterRequests requests) := by
  induction requests generalizing l t with
  | nil => exact ⟨l, rfl, h⟩
  | cons r requests ih =>
      obtain ⟨l', called, shows, -⟩ := call_meets h r.toCall
      obtain ⟨last, later, behind⟩ := ih shows
      have asked : l.request r = .ok (r.respond (t.call r.toCall).1, l') := by
        rw [request, called]
        rfl
      refine ⟨last, ?_, ?_⟩
      · rw [run, asked, Lexer.responses, t.request_eq r]
        dsimp only
        rw [later]
        rfl
      · rw [Lexer.afterRequests, t.request_eq r]
        exact behind

/-- Whatever the source does, no check fails, neither in a sequence of queries of a cursor nor in
one of requests of a lexer.  The answers are those of the cursor and the lexer that read the feed of
the source, and the buffer is sound behind every such sequence. -/
theorem no_check_fails (source : Source) :
    (∀ queries, ∃ b, (LineBuffer.ofSource source).asks queries =
        .ok ((Cursor.ofSource source).asks queries, b) ∧ b.Sound) ∧
      ∀ requests, ∃ l, (ofSource source).run requests =
        .ok ((Lexer.ofSource source).responses requests, l) ∧ l.buffer.Sound := by
  constructor
  · exact LineBuffer.asks_meet (LineBuffer.ofSource_shows source)
  · intro requests
    obtain ⟨l, run, shows⟩ := run_meets (ofSource_shows source) requests
    exact ⟨l, run, shows.scanner.buffer.sound⟩

end BufferedLexer

end JamTokens
