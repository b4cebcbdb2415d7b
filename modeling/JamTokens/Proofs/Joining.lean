import JamTokens.Proofs.Sessions
import JamTokens.Proofs.TextFeeds
import Mathlib.Data.List.Basic

/-!
# Lexing line by line

While a lexer reads whole lines it does not matter what comes behind them: each
call returns the same, and leaves all that comes behind unread.  The one way to
look further is a character that looks for an equals sign and has no lexeme
behind it in these lines.

So what is read behind a text that ends with a line feed is read as if it stood
alone, by a lexer that has learnt the symbols of that text and counts on.
-/

set_option autoImplicit false

namespace JamTokens

open CharClass Grammar

/-! ## Feeds of whole lines -/

namespace Feed

/-- Characters and refills without failure, the last of them a line feed. -/
inductive WholeLines : Feed → Prop
  | nil : WholeLines []
  | refill {feed : Feed} : feed ≠ [] → WholeLines feed → WholeLines (.refill none :: feed)
  | char {c : Char} {feed : Feed} :
      (feed = [] → c = '\n') → WholeLines feed → WholeLines (.char c :: feed)

theorem WholeLines.tail {signal : Signal} {feed : Feed} (h : WholeLines (signal :: feed)) :
    WholeLines feed := by
  cases h with
  | refill _ behind => exact behind
  | char _ behind => exact behind

theorem WholeLines.of_suffix {feed whole : Feed} (h : WholeLines whole) (suffix : feed <:+ whole) :
    WholeLines feed := by
  obtain ⟨front, rfl⟩ := suffix
  induction front with
  | nil => exact h
  | cons signal front ih => exact ih h.tail

theorem WholeLines.last {c : Char} {feed : Feed} (h : WholeLines (.char c :: feed))
    (other : c ≠ '\n') : feed ≠ [] := by
  cases h with
  | char ends _ => exact fun bare => other (ends bare)

theorem wholeLines_line (line : List Char) {feed : Feed} (h : WholeLines feed) :
    WholeLines (ofText (line ++ ['\n']) ++ feed) := by
  induction line with
  | nil => exact .char (fun _ => rfl) h
  | cons c line ih => exact .char (fun bare => absurd bare (by simp)) ih

/-- Within whole lines a gap ends where it would anyway, or goes on behind them. -/
theorem takeGap_extend (more : Feed) (inComment : Bool) {feed : Feed} (h : feed.WholeLines)
    (closed : inComment = true → feed ≠ []) :
    (feed.takeGap inComment).failure = none ∧
      ((feed.takeGap inComment).rest ≠ [] →
        (feed ++ more).takeGap inComment =
          { feed.takeGap inComment with rest := (feed.takeGap inComment).rest ++ more }) ∧
      ((feed.takeGap inComment).rest = [] →
        (feed ++ more).takeGap inComment =
          { more.takeGap false with taken := feed.chars ++ (more.takeGap false).taken }) := by
  fun_induction takeGap inComment feed with
  | case1 c rest ih =>
      have line : (c != '\n') = true → rest ≠ [] := fun other => h.last (by simpa using other)
      obtain ⟨passed, stops, goesOn⟩ := ih h.tail line
      rw [List.cons_append, takeGap]
      exact ⟨passed, fun proper => congrArg (Run.cons c) (stops proper),
        fun bare => congrArg (Run.cons c) (goesOn bare)⟩
  | case2 c rest blank ih =>
      obtain ⟨passed, stops, goesOn⟩ := ih h.tail (by simp)
      rw [List.cons_append, takeGap, if_pos blank]
      exact ⟨passed, fun proper => congrArg (Run.cons c) (stops proper),
        fun bare => congrArg (Run.cons c) (goesOn bare)⟩
  | case3 c rest notBlank opens ih =>
      have proper : rest ≠ [] := by
        rintro rfl
        simp at opens
      obtain ⟨passed, stops, goesOn⟩ := ih h.tail fun _ => proper
      rw [List.cons_append, takeGap, if_neg notBlank, List.head?_append_of_ne_nil rest proper,
        if_pos opens]
      exact ⟨passed, fun proper => congrArg (Run.cons c) (stops proper),
        fun bare => congrArg (Run.cons c) (goesOn bare)⟩
  | case4 c rest notBlank notOpen =>
      have other : c ≠ '\n' := by
        rintro rfl
        exact notBlank (by decide)
      refine ⟨rfl, fun _ => ?_, fun bare => absurd bare (by simp)⟩
      rw [List.cons_append, takeGap, if_neg notBlank,
        List.head?_append_of_ne_nil rest (h.last other), if_neg notOpen]
  | case5 inComment rest ih =>
      cases h with
      | refill proper behind =>
          rw [List.cons_append, takeGap]
          exact ih behind fun _ => proper
  | case6 inComment f rest => cases h
  | case7 inComment rest => cases h
  | case8 inComment =>
      have outside : inComment = false := by
        cases inComment with
        | false => rfl
        | true => exact absurd rfl (closed rfl)
      subst outside
      exact ⟨rfl, fun proper => absurd rfl proper, fun _ => rfl⟩

theorem takeSteps_extend {σ : Type} (step : σ → Char → Option σ) (refuse : ∀ s, step s '\n' = none)
    (more : Feed) (state : σ) {feed : Feed} (h : feed.WholeLines) (proper : feed ≠ []) :
    (feed ++ more).takeSteps step state =
      { feed.takeSteps step state with rest := (feed.takeSteps step state).rest ++ more } := by
  fun_induction takeSteps step state feed with
  | case1 state c rest state' accept ih =>
      have other : c ≠ '\n' := by
        rintro rfl
        rw [refuse] at accept
        cases accept
      rw [List.cons_append, takeSteps, accept]
      exact congrArg (Run.cons c) (ih h.tail (h.last other))
  | case2 state c rest reject =>
      rw [List.cons_append, takeSteps, reject]
  | case3 state rest ih =>
      cases h with
      | refill behind_proper behind =>
          rw [List.cons_append, takeSteps]
          exact ih behind behind_proper
  | case4 state f rest => cases h
  | case5 state rest => cases h
  | case6 state => exact absurd rfl proper

end Feed

theorem Source.wholeLines_feed {text : List Char} (ends : EndsLine text) :
    (ofText text).feed.WholeLines := by
  induction text using lines_induction with
  | nil => exact .nil
  | lastLine line proper one => exact absurd ends.newline_mem one
  | line line rest one ih =>
      have behind : (ofText rest).feed.WholeLines := by
        by_cases bare : rest = []
        · rw [bare]
          exact .nil
        · rw [List.append_cons, endsLine_append _ bare] at ends
          exact ih ends
      rw [feed_line one]
      exact .refill (by simp [Feed.ofText]) (Feed.wholeLines_line line behind)

/-! ## Scanners of whole lines -/

namespace Scanner

def extend (more : Feed) (s : Scanner) : Scanner :=
  { s with cursor := ⟨s.cursor.feed ++ more, s.cursor.position⟩ }

theorem startsNumber_extend (more : Feed) {c : Char} {rest : Feed}
    (h : Feed.WholeLines (.char c :: rest)) :
    startsNumber c (rest ++ more) = startsNumber c rest := by
  cases rest with
  | nil =>
      cases h with
      | char ends _ =>
          rw [ends rfl]
          rfl
  | cons signal rest => cases signal <;> rfl

theorem finish_extend (more : Feed) (s : Scanner) (make : String → Lexeme) (run : Feed.Run) :
    (s.extend more).finish make { run with rest := run.rest ++ more } =
      ((s.finish make run).1, (s.finish make run).2.extend more) := by
  unfold finish
  cases run.failure with
  | some f => rfl
  | none => rfl

theorem scan_extend (more : Feed) {s : Scanner} {c : Char} {rest : Feed}
    (found : s.cursor.feed = .char c :: rest) (h : s.cursor.feed.WholeLines) :
    (s.extend more).scan = (s.scan.1, s.scan.2.extend more) := by
  have found' : (s.extend more).cursor.feed = .char c :: (rest ++ more) :=
    congrArg (· ++ more) found
  have proper : s.cursor.feed ≠ [] := by simp [found]
  have number := startsNumber_extend more (found ▸ h)
  cases word : isWordStart c with
  | true =>
      have run := Feed.takeSteps_extend Lexeme.wordStep (fun _ => rfl) more () h proper
      rw [scan_word found word, scan_word found' word, show (s.extend more).cursor.feed =
        s.cursor.feed ++ more from rfl, run]
      exact finish_extend more { s with start := s.cursor.position } .word _
  | false =>
      cases digits : startsNumber c rest with
      | true =>
          have run := Feed.takeSteps_extend Lexeme.numberStep
            (fun pointSeen => by cases pointSeen <;> rfl) more false h proper
          rw [scan_number found word digits, scan_number found' word (number.trans digits),
            show (s.extend more).cursor.feed = s.cursor.feed ++ more from rfl, run]
          exact finish_extend more { s with start := s.cursor.position } .number _
      | false =>
          rw [scan_char found word digits, scan_char found' word (number.trans digits)]
          rfl

/-- A call that returns a lexeme of the whole lines touches nothing behind them. -/
theorem next_extend (more : Feed) {s : Scanner} (h : s.cursor.feed.WholeLines)
    (proper : s.next.1 ≠ .ok .endOfInput) :
    (s.extend more).next = (s.next.1, s.next.2.extend more) := by
  cases found : s.returned with
  | some back =>
      obtain ⟨lexeme, start⟩ := back
      simp [next, extend, found]
  | none =>
      obtain ⟨passed, stops, -⟩ := Feed.takeGap_extend more false h (by simp)
      rw [next_of_gap found passed] at proper ⊢
      rcases Feed.takeGap_stops false s.cursor.feed passed with ⟨c, rest, atChar⟩ | ended
      · have gap := stops (by simp [atChar])
        have behind := h.of_suffix (Cursor.movesTo_pass (Feed.takeGap_of false s.cursor.feed)).suffix
        have gap' : (s.extend more).cursor.feed.takeGap false =
            { s.cursor.feed.takeGap false with
              rest := (s.cursor.feed.takeGap false).rest ++ more } := gap
        rw [next_of_gap (s := s.extend more) found (by rw [gap']; exact passed), gap']
        exact scan_extend more (s := { s with cursor := s.cursor.pass (s.cursor.feed.takeGap false) })
          atChar behind
      · exact absurd (congrArg Prod.fst (scan_ended (by exact ended))) proper

/-- Where the whole lines have no more lexemes, a call reads on behind them. -/
theorem next_extend_end (more : Feed) {s : Scanner} (h : s.cursor.feed.WholeLines)
    (fresh : s.returned = none) (atEnd : s.next.1 = .ok .endOfInput) :
    (s.extend more).next =
      next ⟨⟨more, s.cursor.position.after s.cursor.feed.chars⟩, none, s.start⟩ := by
  obtain ⟨passed, -, goesOn⟩ := Feed.takeGap_extend more false h (by simp)
  rw [next_of_gap fresh passed] at atEnd
  have gap : (s.extend more).cursor.feed.takeGap false =
      { more.takeGap false with taken := s.cursor.feed.chars ++ (more.takeGap false).taken } := by
    apply goesOn
    rcases Feed.takeGap_stops false s.cursor.feed passed with ⟨c, rest, atChar⟩ | ended
    · exact absurd atEnd (scan_char_ne_end atChar)
    · have behind := h.of_suffix (Cursor.movesTo_pass (Feed.takeGap_of false s.cursor.feed)).suffix
      rcases ended.eq with bare | ⟨rest, closed⟩
      · exact bare
      · simp only [Cursor.pass] at behind
        rw [closed] at behind
        cases behind
  have fresh' : (s.extend more).returned = none := fresh
  simp only [next, fresh', gap]
  simp [Cursor.pass, Position.after_append, extend, fresh]

end Scanner

/-! ## Lexers of whole lines -/

theorem Pairing.mem_of_ofChar? {c : Char} {pairing : Pairing} (h : ofChar? c = some pairing) :
    c ∈ ['<', '>', '!', ':'] := by
  unfold ofChar? at h
  split at h
  · decide
  · decide
  · decide
  · decide
  · cases h

namespace Lexer

def extend (more : Feed) (l : Lexer) : Lexer := { l with scanner := l.scanner.extend more }

/-- The last lexeme does not look for an equals sign. -/
def Unpaired (readings : List Reading) : Prop :=
  ∀ c start, readings.getLast? = some (.ok (.char c), start) → c ∉ ['<', '>', '!', ':']

theorem Unpaired.of_suffix {readings whole : List Reading} (h : Unpaired whole)
    (suffix : readings <:+ whole) : Unpaired readings := by
  obtain ⟨front, rfl⟩ := suffix
  intro c start last
  exact h c start (by rw [List.getLast?_append, last, Option.some_or])

/-- No end of input is kept for later. -/
def Open (s : Scanner) : Prop := ∀ start, s.returned ≠ some (.endOfInput, start)

theorem open_of_returned_none {s : Scanner} (h : s.returned = none) : Open s := by
  intro start found
  rw [h] at found
  cases found

structure InLines (l : Lexer) : Prop where
  lines : l.cursor.feed.WholeLines
  fresh : l.peeked = none
  unpaired : Unpaired l.scanner.readings
  stays : Open l.scanner

/-- The same outcome with more behind it, and still no end of input kept. -/
structure ExtendsTo {α : Type} (more : Feed) (plain whole : Except LexError α × Lexer) : Prop where
  outcome : whole = (plain.1, plain.2.extend more)
  stays : Open plain.2.scanner

theorem pair_extend (more : Feed) {l : Lexer} (c : Char) (pairing : Pairing) (start : Position)
    (lines : l.cursor.feed.WholeLines) (proper : l.scanner.next.1 ≠ .ok .endOfInput) :
    ExtendsTo more (l.pair c pairing start) ((l.extend more).pair c pairing start) := by
  have extended := Scanner.next_extend more lines proper
  unfold pair
  rw [show (l.extend more).scanner = l.scanner.extend more from rfl, extended]
  rcases called : l.scanner.next with ⟨f | follower, s⟩
  · exact ⟨rfl, open_of_returned_none (Scanner.returned_of_next called)⟩
  · rw [called] at proper
    dsimp only
    split
    · exact ⟨rfl, open_of_returned_none (Scanner.returned_of_next called)⟩
    · have back : Open (s.handBack follower) := by
        intro start found
        cases found
        exact proper rfl
      cases pairing.single with
      | some token => exact ⟨rfl, back⟩
      | none => exact ⟨rfl, back⟩

theorem ofChar_extend (more : Feed) {l : Lexer} (c : Char) (start : Position)
    (lines : l.cursor.feed.WholeLines) (stays : Open l.scanner)
    (proper : c ∈ ['<', '>', '!', ':'] → l.scanner.next.1 ≠ .ok .endOfInput) :
    ExtendsTo more (l.ofChar c start) ((l.extend more).ofChar c start) := by
  unfold ofChar
  cases Token.ofChar? c with
  | some token => exact ⟨rfl, stays⟩
  | none =>
      cases pairs : Pairing.ofChar? c with
      | some pairing =>
          exact pair_extend more c pairing start lines (proper (Pairing.mem_of_ofChar? pairs))
      | none => exact ⟨rfl, stays⟩

theorem ofLexeme_extend (more : Feed) {l : Lexer} (lexeme : Lexeme) (start : Position)
    (lines : l.cursor.feed.WholeLines) (stays : Open l.scanner)
    (proper : ∀ c, lexeme = .char c → c ∈ ['<', '>', '!', ':'] →
      l.scanner.next.1 ≠ .ok .endOfInput) :
    ExtendsTo more (l.ofLexeme lexeme start) ((l.extend more).ofLexeme lexeme start) := by
  cases lexeme with
  | endOfInput => exact ⟨rfl, stays⟩
  | word text => exact ⟨rfl, stays⟩
  | number text =>
      unfold ofLexeme
      dsimp only
      cases Literal.value? text.toList with
      | some value => exact ⟨rfl, stays⟩
      | none => exact ⟨rfl, stays⟩
  | char c =>
      obtain ⟨outcome, stays'⟩ := ofChar_extend more c start lines stays (proper c rfl)
      unfold ofLexeme
      dsimp only
      rw [outcome]
      rcases made : l.ofChar c start with ⟨e | token, l'⟩
      · rw [made] at stays'
        exact ⟨rfl, stays'⟩
      · rw [made] at stays'
        exact ⟨rfl, stays'⟩

/-- Behind the last lexeme that could look for an equals sign there is another one. -/
theorem InLines.next_proper {l : Lexer} (h : l.InLines) {s : Scanner} {c : Char}
    (called : l.scanner.next = (.ok (.char c), s)) (pairs : c ∈ ['<', '>', '!', ':']) :
    s.next.1 ≠ .ok .endOfInput := by
  intro atEnd
  rcases called' : s.next with ⟨result, s'⟩
  rw [called'] at atEnd
  dsimp only at atEnd
  subst atEnd
  have only : l.scanner.readings = [(.ok (.char c), s.start)] := by
    rw [Scanner.readings_of_ok called (by simp), Scanner.readings_of_end called']
  exact h.unpaired c s.start (by rw [only]; rfl) pairs

theorem assemble_extend (more : Feed) {l : Lexer} (h : l.InLines)
    (proper : l.scanner.next.1 ≠ .ok .endOfInput) :
    ExtendsTo more l.assemble (l.extend more).assemble := by
  have extended := Scanner.next_extend more h.lines proper
  have behind := h.lines.of_suffix l.scanner.next_moves.suffix
  unfold assemble
  rw [show (l.extend more).scanner = l.scanner.extend more from rfl, extended]
  rcases called : l.scanner.next with ⟨f | lexeme, s⟩
  · exact ⟨rfl, open_of_returned_none (Scanner.returned_of_next called)⟩
  · rw [called] at behind
    have stays := open_of_returned_none (Scanner.returned_of_next called)
    have made := ofLexeme_extend more (l := { l with scanner := s }) lexeme s.start behind stays
      fun c same pairs => h.next_proper (same ▸ called) pairs
    obtain ⟨outcome, stays'⟩ := made
    dsimp only
    have outcome' : ofLexeme { l.extend more with scanner := s.extend more } lexeme s.start =
        ((ofLexeme { l with scanner := s } lexeme s.start).1,
          (ofLexeme { l with scanner := s } lexeme s.start).2.extend more) := outcome
    rw [show (s.extend more).start = s.start from rfl, outcome']
    rcases made : ofLexeme { l with scanner := s } lexeme s.start with ⟨e | token, l'⟩
    · rw [made] at stays'
      exact ⟨rfl, stays'⟩
    · rw [made] at stays'
      exact ⟨rfl, stays'⟩

theorem InLines.settled {l : Lexer} (h : l.InLines) : l.scanner.Settled :=
  fun start found => absurd found (h.stays start)

theorem read_extend (more : Feed) {l : Lexer} (h : l.InLines) (proper : l.read.1 ≠ .ok none) :
    (l.extend more).read = (l.read.1, l.read.2.extend more) ∧ l.read.2.InLines := by
  have next_proper : l.scanner.next.1 ≠ .ok .endOfInput := fun atEnd =>
    proper (congrArg Prod.fst
      (call_of_next_end h.fresh (Prod.ext atEnd rfl) (c := .read) (by decide)))
  obtain ⟨outcome, stays⟩ := assemble_extend more h next_proper
  obtain ⟨-, left, -, fresh, -⟩ := l.read_fresh h.settled h.fresh
  have suffix : l.read.2.scanner.readings <:+ l.scanner.readings := by
    have used := l.pending.assemble_suffix
    rwa [← left] at used
  have lines := h.lines.of_suffix l.read_moves.suffix
  have unpaired := h.unpaired.of_suffix suffix
  have fresh' : (l.extend more).peeked = none := h.fresh
  have scanner : l.read.2.scanner = l.assemble.2.scanner := by
    unfold read
    rw [h.fresh]
    rcases l.assemble with ⟨e | (_ | ⟨token, start⟩), l'⟩ <;> rfl
  refine ⟨?_, lines, fresh, unpaired, scanner ▸ stays⟩
  simp only [read, fresh', h.fresh, outcome]
  rcases l.assemble with ⟨e | (_ | ⟨token, start⟩), l'⟩
  · rfl
  · rfl
  · rfl

theorem read_of_next {l : Lexer} {s : Scanner} (fresh : l.peeked = none)
    (h : l.scanner.next = s.next) : l.read = { l with scanner := s }.read := by
  simp only [read, assemble, fresh, h]

theorem items_congr {l l' : Lexer} (h : l.read = l'.read) :
    l.items .readOn = l'.items .readOn := by
  rcases called : l'.read with ⟨e | (_ | token), left⟩
  · rw [items_readOn_of_error called, items_readOn_of_error (h.trans called)]
  · rw [items_of_end .readOn called, items_of_end .readOn (h.trans called)]
  · rw [items_of_token .readOn called, items_of_token .readOn (h.trans called)]

/-- Behind the items of the whole lines come those of a lexer that stands behind these lines. -/
theorem items_extend (more : Feed) {l : Lexer} (h : l.InLines) :
    ∃ last : Lexer, last.cursor = ⟨more, l.cursor.position.after l.cursor.feed.chars⟩ ∧
      last.scanner.returned = none ∧ last.peeked = none ∧
      last.symbols = (l.items .readOn).2.symbols ∧
      (l.extend more).items .readOn =
        ((l.items .readOn).1 ++ (last.items .readOn).1, (last.items .readOn).2) ∧
      (l.extend more).afterCalls (List.replicate (l.items .readOn).1.length .read) =
        (l.afterCalls (List.replicate (l.items .readOn).1.length .read)).extend more := by
  generalize size : l.work = n
  induction n using Nat.strongRecOn generalizing l with
  | ind n ih =>
      have less := l.read_work_lt
      rcases called : l.read with ⟨outcome, l'⟩
      by_cases proper : outcome = .ok none
      · subst proper
        have atEnd :=
          next_of_call_none h.fresh (c := .read) (by decide) (congrArg Prod.fst called)
        have returned : l.scanner.returned = none := by
          cases found : l.scanner.returned with
          | none => rfl
          | some back =>
              obtain ⟨lexeme, start⟩ := back
              simp only [Scanner.next, found, Except.ok.injEq] at atEnd
              subst atEnd
              exact absurd found (h.stays start)
        have goesOn := Scanner.next_extend_end more h.lines returned atEnd
        have same := items_congr (read_of_next (l := l.extend more) h.fresh goesOn)
        have finished := called.symm.trans
          (call_of_next_end h.fresh (Prod.ext atEnd rfl) (c := .read) (by decide))
        have symbols : l.symbols = l'.symbols := by rw [(Prod.mk.inj finished).2]
        rw [items_of_end .readOn called]
        exact ⟨{ l with scanner :=
          ⟨⟨more, l.cursor.position.after l.cursor.feed.chars⟩, none, l.scanner.start⟩ },
          rfl, rfl, h.fresh, symbols, same, rfl⟩
      · obtain ⟨extended, h'⟩ := read_extend more h (by rw [called]; exact proper)
        have moved := l.read_moves.position_after
        rw [called] at extended h' less moved
        obtain ⟨last, cursor, returned, fresh, symbols, behind, reads⟩ :=
          ih _ (size ▸ less proper) h' rfl
        rw [moved] at cursor
        refine ⟨last, cursor, returned, fresh, ?_⟩
        rcases outcome with e | (_ | token)
        · rw [items_readOn_of_error called, items_readOn_of_error extended, behind]
          refine ⟨symbols, rfl, ?_⟩
          simp only [List.length_cons, List.replicate_succ, afterCalls, call, called, extended]
          exact reads
        · exact absurd rfl proper
        · rw [items_of_token .readOn called, items_of_token .readOn extended, behind]
          refine ⟨symbols, rfl, ?_⟩
          simp only [List.length_cons, List.replicate_succ, afterCalls, call, called, extended]
          exact reads

theorem inLines_ofText {text : List Char} (ends : EndsLine text)
    (unpaired : Unpaired (Scanner.ofSource (.ofText text)).readings) :
    (ofSource (.ofText text)).InLines :=
  ⟨Source.wholeLines_feed ends, rfl, unpaired, open_of_returned_none rfl⟩

/-- What is read of a source that begins with whole lines are the items of these lines and then the
items of the rest, as read by a lexer with the symbols learnt so far, counted from further down.
When the items of the lines have been read, nothing of the rest has been asked for. -/
theorem items_line_by_line (text : List Char) (rest : Source) (ends : EndsLine text)
    (unpaired : Unpaired (Scanner.ofSource (.ofText text)).readings) :
    let whole := ofSource (.ofText text ++ rest)
    let front := (ofSource (.ofText text)).items .readOn
    let back := (withSymbols rest.feed front.2.symbols).items .readOn
    (whole.items .readOn).1 = front.1 ++ back.1.map (Item.lower (text.count '\n')) ∧
      (whole.items .readOn).2.symbols = back.2.symbols ∧
      rest.feed <:+ (whole.afterCalls (List.replicate front.1.length .read)).cursor.feed := by
  intro whole front back
  have joined : whole = (ofSource (.ofText text)).extend rest.feed := by
    rw [show whole = ofFeed (Source.ofText text ++ rest).feed from rfl, Source.feed_append ends]
    rfl
  obtain ⟨last, cursor, returned, fresh, symbols, items, reads⟩ :=
    items_extend rest.feed (inLines_ofText ends unpaired)
  have position : last.cursor.position = ⟨1 + text.count '\n', 1⟩ := by
    rw [cursor]
    dsimp only
    rw [show (ofSource (.ofText text)).cursor.feed = (Source.ofText text).feed from rfl,
      Source.chars_feed, Position.after_endsLine ends]
    rfl
  have below : Below (text.count '\n') (withSymbols rest.feed front.2.symbols) last := by
    rw [← symbols]
    exact below_withSymbols (congrArg Cursor.feed cursor) position returned fresh
  obtain ⟨lowered, sameSymbols⟩ := below_items below
  rw [joined, items, reads, lowered]
  exact ⟨rfl, sameSymbols, List.suffix_append _ _⟩

/-- Two lines with an operator across them, before a line that is no text and a failing source. -/
theorem items_line_by_line_of_broken_rest :
    let text := ['a', '<', '\n', '=', '\n']
    let rest : Source := [.byte 0xFF, .byte 10, .failure ⟨.brokenPipe, "gone"⟩, .byte 0x61]
    let whole := ofSource (.ofText text ++ rest)
    let front := (ofSource (.ofText text)).items .readOn
    let back := (withSymbols rest.feed front.2.symbols).items .readOn
    EndsLine text ∧ Unpaired (Scanner.ofSource (.ofText text)).readings ∧
      (whole.items .readOn).1 = front.1 ++ back.1.map (Item.lower (text.count '\n')) ∧
      (whole.items .readOn).2.symbols = back.2.symbols ∧
      rest.feed <:+ (whole.afterCalls (List.replicate front.1.length .read)).cursor.feed := by
  intro text rest whole front back
  have ends : EndsLine text := rfl
  have unpaired : Unpaired (Scanner.ofSource (.ofText text)).readings := by
    have last : (Scanner.ofSource (.ofText text)).readings.getLast? =
        some (.ok (.char '='), ⟨2, 1⟩) := by decide +kernel
    intro c start found
    rw [last] at found
    cases found
    decide
  exact ⟨ends, unpaired, items_line_by_line text rest ends unpaired⟩

end Lexer

end JamTokens
