import JamTokens.Lexer.Items
import JamTokens.Proofs.Readings

/-!
# Items as a greedy reading of lexemes

What a lexer has yet to make items of is the readings of its scanner and the
symbols that it knows.  On these the making of a token is a matter of the first
reading or two: a character that pairs with an equals sign takes the second
reading along if that is one, and merely looks at it otherwise.

The lexer itself hands back a follower that it cannot use.  The main result is
that nothing of this can be seen: the items are those of the greedy reading.
-/

set_option autoImplicit false

namespace JamTokens

structure Pending where
  readings : List Reading
  symbols : Symbols

namespace Pending

/-! ## The greedy reading -/

def unaccompanied (c : Char) (pairing : Pairing) (start : Position) (follower : String) :
    Except LexError Token :=
  match pairing.single with
  | some token => .ok token
  | none => .error (.illegalOperatorSequence (String.singleton c ++ follower) start)

/-- A character that pairs, and what it leaves of the readings behind it. -/
def pair (c : Char) (pairing : Pairing) (start : Position) :
    List Reading → Except LexError Token × List Reading
  | [] => (unaccompanied c pairing start " at end of input", [])
  | (.error f, _) :: rest => (.error (.input f), rest)
  | (.ok follower, next) :: rest =>
    if follower = .char '=' then (.ok pairing.paired, rest)
    else (unaccompanied c pairing start follower.text, (.ok follower, next) :: rest)

def ofNumber (text : String) (start : Position) : Except LexError Token :=
  match Literal.value? text.toList with
  | some value => .ok (.intConstant value)
  | none => .error (.numericOverflow text start)

/-- Four characters look for an equals sign behind them, and two of these can do without. -/
def ofChar (c : Char) (start : Position) (rest : List Reading) :
    Except LexError Token × List Reading :=
  match c with
  | '<' => pair '<' ⟨.operator .lessThanEquals, some (.operator .lessThan)⟩ start rest
  | '>' => pair '>' ⟨.operator .greaterThanEquals, some (.operator .greaterThan)⟩ start rest
  | '!' => pair '!' ⟨.operator .notEquals, none⟩ start rest
  | ':' => pair ':' ⟨.keyword .bind, none⟩ start rest
  | '(' => (.ok (.punct .leftParen), rest)
  | ')' => (.ok (.punct .rightParen), rest)
  | '[' => (.ok (.punct .leftBrack), rest)
  | ']' => (.ok (.punct .rightBrack), rest)
  | ',' => (.ok (.punct .comma), rest)
  | ';' => (.ok (.punct .semiColon), rest)
  | '+' => (.ok (.operator .plus), rest)
  | '-' => (.ok (.operator .minus), rest)
  | '*' => (.ok (.operator .times), rest)
  | '/' => (.ok (.operator .divide), rest)
  | '~' => (.ok (.operator .not), rest)
  | '=' => (.ok (.operator .equals), rest)
  | '&' => (.ok (.operator .and), rest)
  | '|' => (.ok (.operator .or), rest)
  | c => (.error (.illegalCharacter c start), rest)

/-- What a lexeme makes of itself and of the readings behind it. -/
def ofLexeme (symbols : Symbols) (lexeme : Lexeme) (start : Position) (rest : List Reading) :
    Except LexError (Option Token) × Pending :=
  match lexeme with
  | .endOfInput => (.ok none, ⟨(.ok .endOfInput, start) :: rest, symbols⟩)
  | .word text => (.ok (some (symbols.resolve text).1), ⟨rest, (symbols.resolve text).2⟩)
  | .number text => ((ofNumber text start).map some, ⟨rest, symbols⟩)
  | .char c => ((ofChar c start rest).1.map some, ⟨(ofChar c start rest).2, symbols⟩)

/-- The next token with its start, or the next error; nothing if there are no readings left. -/
def assemble : Pending → Except LexError (Option (Token × Position)) × Pending
  | ⟨[], symbols⟩ => (.ok none, ⟨[], symbols⟩)
  | ⟨(.error f, _) :: rest, symbols⟩ => (.error (.input f), ⟨rest, symbols⟩)
  | ⟨(.ok lexeme, start) :: rest, symbols⟩ =>
    let (result, left) := ofLexeme symbols lexeme start rest
    (result.map (·.map (·, start)), left)

theorem pair_suffix (c : Char) (pairing : Pairing) (start : Position) (rest : List Reading) :
    (pair c pairing start rest).2 <:+ rest := by
  cases rest with
  | nil => exact List.suffix_refl _
  | cons reading rest =>
      obtain ⟨result, next⟩ := reading
      cases result with
      | error f => exact List.suffix_cons _ _
      | ok follower =>
          simp only [pair]
          split
          · exact List.suffix_cons _ _
          · exact List.suffix_refl _

theorem ofChar_eq_table (c : Char) (start : Position) (rest : List Reading) :
    ofChar c start rest =
      match Token.ofChar? c, Pairing.ofChar? c with
      | some token, _ => (.ok token, rest)
      | none, some pairing => pair c pairing start rest
      | none, none => (.error (.illegalCharacter c start), rest) := by
  unfold ofChar
  split
  case h_19 => simp only [Token.ofChar?, Pairing.ofChar?]
  all_goals rfl

theorem ofChar_suffix (c : Char) (start : Position) (rest : List Reading) :
    (ofChar c start rest).2 <:+ rest := by
  rw [ofChar_eq_table]
  split
  · exact List.suffix_refl _
  · exact pair_suffix c _ start rest
  · exact List.suffix_refl _

theorem ofLexeme_suffix (symbols : Symbols) (lexeme : Lexeme) (start : Position)
    (rest : List Reading) (more : lexeme ≠ .endOfInput) :
    (ofLexeme symbols lexeme start rest).2.readings <:+ rest := by
  cases lexeme with
  | endOfInput => exact absurd rfl more
  | word text => exact List.suffix_refl _
  | number text => exact List.suffix_refl _
  | char c => exact ofChar_suffix c start rest

theorem assemble_length (p : Pending) (more : p.assemble.1 ≠ .ok none) :
    p.assemble.2.readings.length < p.readings.length := by
  obtain ⟨readings, symbols⟩ := p
  cases readings with
  | nil => exact absurd rfl more
  | cons reading rest =>
      obtain ⟨result, start⟩ := reading
      cases result with
      | error f => exact Nat.lt_succ_self _
      | ok lexeme =>
          have proper : lexeme ≠ .endOfInput := by
            intro atEnd
            subst atEnd
            exact more rfl
          exact Nat.lt_succ_of_le (ofLexeme_suffix symbols lexeme start rest proper).length_le

theorem assemble_suffix (p : Pending) : p.assemble.2.readings <:+ p.readings := by
  obtain ⟨readings, symbols⟩ := p
  cases readings with
  | nil => exact List.suffix_refl _
  | cons reading rest =>
      obtain ⟨result, start⟩ := reading
      cases result with
      | error f => exact List.suffix_cons _ _
      | ok lexeme =>
          by_cases atEnd : lexeme = .endOfInput
          · subst atEnd
            exact List.suffix_refl _
          · have behind := ofLexeme_suffix symbols lexeme start rest atEnd
            exact behind.trans (List.suffix_cons _ _)

theorem ofLexeme_ne_none (symbols : Symbols) (lexeme : Lexeme) (start : Position)
    (rest : List Reading) (more : lexeme ≠ .endOfInput) :
    (ofLexeme symbols lexeme start rest).1 ≠ .ok none := by
  cases lexeme with
  | endOfInput => exact absurd rfl more
  | word text => exact fun h => nomatch h
  | number text =>
      unfold ofLexeme
      dsimp only
      cases ofNumber text start <;> exact fun h => nomatch h
  | char c =>
      unfold ofLexeme
      dsimp only
      cases (ofChar c start rest).1 <;> exact fun h => nomatch h

theorem assemble_ne_none (symbols : Symbols) (lexeme : Lexeme) (start : Position)
    (rest : List Reading) (more : lexeme ≠ .endOfInput) :
    (assemble ⟨(.ok lexeme, start) :: rest, symbols⟩).1 ≠ .ok none := by
  have proper := ofLexeme_ne_none symbols lexeme start rest more
  simp only [assemble]
  rcases made : (ofLexeme symbols lexeme start rest).1 with e | (_ | token)
  · exact fun h => nomatch h
  · exact absurd made proper
  · exact fun h => nomatch h

theorem assemble_end {p left : Pending} (h : p.assemble = (.ok none, left)) : left = p := by
  obtain ⟨readings, symbols⟩ := p
  cases readings with
  | nil =>
      cases h
      rfl
  | cons reading rest =>
      obtain ⟨result, start⟩ := reading
      cases result with
      | error f => cases h
      | ok lexeme =>
          by_cases atEnd : lexeme = .endOfInput
          · subst atEnd
            cases h
            rfl
          · exact absurd (congrArg Prod.fst h) (assemble_ne_none symbols lexeme start rest atEnd)

def items (p : Pending) : List Item × Symbols :=
  match _h : p.assemble with
  | (.ok none, left) => ([], left.symbols)
  | (.ok (some (token, start)), left) =>
    let (more, symbols) := items left
    (.token token start :: more, symbols)
  | (.error e, left) =>
    let (more, symbols) := items left
    (.error e :: more, symbols)
termination_by p.readings.length
decreasing_by
  all_goals
    have less := p.assemble_length (by simp [_h])
    rw [_h] at less
    exact less

theorem items_of_end {p left : Pending} (h : p.assemble = (.ok none, left)) :
    p.items = ([], left.symbols) := by
  rw [items]
  split <;> rename_i found <;> rw [h] at found <;> cases found
  rfl

theorem items_of_token {p left : Pending} {token : Token} {start : Position}
    (h : p.assemble = (.ok (some (token, start)), left)) :
    p.items = (.token token start :: left.items.1, left.items.2) := by
  rw [items]
  split <;> rename_i found <;> rw [h] at found <;> cases found
  rfl

theorem items_of_error {p left : Pending} {e : LexError} (h : p.assemble = (.error e, left)) :
    p.items = (.error e :: left.items.1, left.items.2) := by
  rw [items]
  split <;> rename_i found <;> rw [h] at found <;> cases found
  rfl

end Pending

/-! ## The lexer makes its items greedily -/

namespace Lexer

/-- What the lexer has yet to make items of. -/
def pending (l : Lexer) : Pending := ⟨l.scanner.readings, l.symbols⟩

theorem unpaired_endOfInput (c : Char) (start : Position) :
    unpaired c .endOfInput start =
      .illegalOperatorSequence (String.singleton c ++ " at end of input") start := rfl

theorem unpaired_lexeme (c : Char) (follower : Lexeme) (start : Position)
    (more : follower ≠ .endOfInput) :
    unpaired c follower start =
      .illegalOperatorSequence (String.singleton c ++ follower.text) start := by
  cases follower with
  | endOfInput => exact absurd rfl more
  | word text => rfl
  | number text => rfl
  | char d => rfl

/-- A follower that is no equals sign is handed back, and nothing is lost. -/
theorem pair_eq (l : Lexer) (c : Char) (pairing : Pairing) (start : Position)
    (settled : l.scanner.Settled) :
    ∃ s : Scanner, s.Settled ∧
      s.readings = (Pending.pair c pairing start l.scanner.readings).2 ∧
      l.pair c pairing start =
        ((Pending.pair c pairing start l.scanner.readings).1, { l with scanner := s }) := by
  rcases called : l.scanner.next with ⟨result, s⟩
  have nextSettled := Scanner.settled_of_next called
  cases result with
  | error f =>
      rw [Scanner.readings_of_error called]
      refine ⟨s, nextSettled, rfl, ?_⟩
      simp only [pair, called, Pending.pair]
  | ok follower =>
      have backReadings := Scanner.readings_handBack called
      have backSettled := Scanner.settled_handBack settled called
      by_cases equals : follower = .char '='
      · rw [Scanner.readings_of_ok called (by simp [equals])]
        refine ⟨s, nextSettled, ?_, ?_⟩
        · simp only [Pending.pair, if_pos equals]
        · simp only [pair, called, Pending.pair, if_pos equals]
      · refine ⟨s.handBack follower, backSettled, ?_, ?_⟩
        · rw [backReadings]
          by_cases atEnd : follower = .endOfInput
          · subst atEnd
            rw [Scanner.readings_of_end called]
            rfl
          · rw [Scanner.readings_of_ok called atEnd]
            simp only [Pending.pair, if_neg equals]
        · simp only [pair, called, if_neg equals]
          by_cases atEnd : follower = .endOfInput
          · subst atEnd
            rw [Scanner.readings_of_end called, unpaired_endOfInput]
            cases single : pairing.single <;> simp [Pending.pair, Pending.unaccompanied, single]
          · rw [Scanner.readings_of_ok called atEnd, unpaired_lexeme c follower start atEnd]
            simp only [Pending.pair, if_neg equals, Pending.unaccompanied]
            cases single : pairing.single <;> rfl

theorem ofChar_eq (l : Lexer) (c : Char) (start : Position) (settled : l.scanner.Settled) :
    ∃ s : Scanner, s.Settled ∧
      s.readings = (Pending.ofChar c start l.scanner.readings).2 ∧
      l.ofChar c start =
        ((Pending.ofChar c start l.scanner.readings).1, { l with scanner := s }) := by
  rw [Pending.ofChar_eq_table]
  unfold ofChar
  cases own : Token.ofChar? c with
  | some token => exact ⟨l.scanner, settled, rfl, rfl⟩
  | none =>
      cases pairs : Pairing.ofChar? c with
      | some pairing => exact l.pair_eq c pairing start settled
      | none => exact ⟨l.scanner, settled, rfl, rfl⟩

theorem ofLexeme_eq (l : Lexer) (lexeme : Lexeme) (start : Position)
    (settled : l.scanner.Settled) (more : lexeme ≠ .endOfInput) :
    ∃ s : Scanner, s.Settled ∧
      s.readings = (Pending.ofLexeme l.symbols lexeme start l.scanner.readings).2.readings ∧
      l.ofLexeme lexeme start =
        ((Pending.ofLexeme l.symbols lexeme start l.scanner.readings).1,
          { l with
            scanner := s
            symbols := (Pending.ofLexeme l.symbols lexeme start l.scanner.readings).2.symbols }) := by
  cases lexeme with
  | endOfInput => exact absurd rfl more
  | word text => exact ⟨l.scanner, settled, rfl, rfl⟩
  | number text =>
      refine ⟨l.scanner, settled, rfl, ?_⟩
      unfold ofLexeme Pending.ofLexeme Pending.ofNumber
      dsimp only
      cases Literal.value? text.toList <;> rfl
  | char c =>
      obtain ⟨s, sSettled, sReadings, made⟩ := l.ofChar_eq c start settled
      refine ⟨s, sSettled, sReadings, ?_⟩
      unfold ofLexeme Pending.ofLexeme
      simp only [made]
      cases (Pending.ofChar c start l.scanner.readings).1 <;> rfl

/-- The lexer takes from its readings what the greedy reading takes, and changes nothing else. -/
theorem assemble_eq (l : Lexer) (settled : l.scanner.Settled) :
    ∃ s : Scanner, s.Settled ∧ s.readings = l.pending.assemble.2.readings ∧
      l.assemble =
        (l.pending.assemble.1,
          { l with scanner := s, symbols := l.pending.assemble.2.symbols }) := by
  rcases called : l.scanner.next with ⟨result, s⟩
  have nextSettled := Scanner.settled_of_next called
  cases result with
  | error f =>
      rw [pending, Scanner.readings_of_error called]
      refine ⟨s, nextSettled, rfl, ?_⟩
      simp only [assemble, called, Pending.assemble]
  | ok lexeme =>
      by_cases atEnd : lexeme = .endOfInput
      · subst atEnd
        rw [pending, Scanner.readings_of_end called]
        refine ⟨s, nextSettled, Scanner.readings_next_end settled called, ?_⟩
        simp only [assemble, called, ofLexeme_endOfInput, Pending.assemble, Option.map_none]
      · obtain ⟨s', sSettled, sReadings, made⟩ :=
          ofLexeme_eq { l with scanner := s } lexeme s.start nextSettled atEnd
        rw [pending, Scanner.readings_of_ok called atEnd]
        refine ⟨s', sSettled, sReadings, ?_⟩
        simp only [assemble, called, made, Pending.assemble]
        cases (Pending.ofLexeme l.symbols lexeme s.start s.readings).1 <;> rfl

def positionAfter (before : Position) : Except LexError (Option (Token × Position)) → Position
  | .ok (some (_, start)) => start
  | _ => before

theorem read_fresh (l : Lexer) (settled : l.scanner.Settled) (fresh : l.peeked = none) :
    l.read.1 = l.pending.assemble.1.map (·.map (·.1)) ∧
      l.read.2.pending = l.pending.assemble.2 ∧
      l.read.2.position = positionAfter l.position l.pending.assemble.1 ∧
      l.read.2.peeked = none ∧ l.read.2.scanner.Settled := by
  obtain ⟨s, sSettled, sReadings, made⟩ := l.assemble_eq settled
  rcases taken : l.pending.assemble with ⟨result, left⟩
  rw [taken] at sReadings made
  have same : Pending.mk s.readings left.symbols = left := congrArg (Pending.mk · _) sReadings
  simp only [read, fresh, made]
  rcases result with e | (_ | ⟨token, start⟩)
  · exact ⟨rfl, same, rfl, rfl, sSettled⟩
  · exact ⟨rfl, same, rfl, rfl, sSettled⟩
  · exact ⟨rfl, same, rfl, rfl, sSettled⟩

theorem peek_fresh (l : Lexer) (settled : l.scanner.Settled) (fresh : l.peeked = none) :
    l.peek.1 = l.pending.assemble.1.map (·.map (·.1)) ∧
      l.peek.2.pending = l.pending.assemble.2 ∧
      l.peek.2.position = l.position ∧
      l.peek.2.peeked = l.pending.assemble.1.toOption.join ∧ l.peek.2.scanner.Settled := by
  obtain ⟨s, sSettled, sReadings, made⟩ := l.assemble_eq settled
  rcases taken : l.pending.assemble with ⟨result, left⟩
  rw [taken] at sReadings made
  have same : Pending.mk s.readings left.symbols = left := congrArg (Pending.mk · _) sReadings
  simp only [peek, fresh, made]
  rcases result with e | (_ | ⟨token, start⟩)
  · exact ⟨rfl, same, rfl, rfl, sSettled⟩
  · exact ⟨rfl, same, rfl, rfl, sSettled⟩
  · exact ⟨rfl, same, rfl, rfl, sSettled⟩

section

variable [Counting]

theorem items_of_end {l l' : Lexer} (policy : OnError) (h : l.read = (.ok none, l')) :
    l.items policy = ([], l') := by
  rw [items]
  split <;> rename_i found <;> rw [h] at found <;> cases found
  rfl

theorem items_of_token {l l' : Lexer} (policy : OnError) {token : Token}
    (h : l.read = (.ok (some token), l')) :
    l.items policy =
      (.token token l'.position :: (l'.items policy).1, (l'.items policy).2) := by
  rw [items]
  split <;> rename_i found <;> rw [h] at found <;> cases found
  rfl

theorem items_readOn_of_error {l l' : Lexer} {e : LexError} (h : l.read = (.error e, l')) :
    l.items .readOn = (.error e :: (l'.items .readOn).1, (l'.items .readOn).2) := by
  rw [items]
  split <;> rename_i found <;> rw [h] at found <;> cases found
  rfl

end

theorem items_readOn (l : Lexer) (settled : l.scanner.Settled) (fresh : l.peeked = none) :
    (l.items .readOn).1 = l.pending.items.1 ∧ (l.items .readOn).2.symbols = l.pending.items.2 := by
  generalize size : l.pending.readings.length = n
  induction n using Nat.strongRecOn generalizing l with
  | ind n ih =>
      obtain ⟨outcome, left, position, fresh', settled'⟩ := l.read_fresh settled fresh
      rcases called : l.read with ⟨result, l'⟩
      rw [called] at outcome left position fresh' settled'
      dsimp only at outcome left position fresh' settled'
      have less := l.pending.assemble_length
      rcases made : l.pending.assemble with ⟨next, rest⟩
      rw [made] at outcome left position less
      rcases next with e | (_ | ⟨token, start⟩)
      · subst outcome
        have fewer : l'.pending.readings.length < n := by
          rw [left, ← size]
          exact less (by simp)
        obtain ⟨sameItems, sameSymbols⟩ := ih _ fewer l' settled' fresh' rfl
        rw [items_readOn_of_error called, Pending.items_of_error made, sameItems, sameSymbols, left]
        exact ⟨rfl, rfl⟩
      · subst outcome
        rw [items_of_end .readOn called, Pending.items_of_end made]
        exact ⟨rfl, congrArg Pending.symbols left⟩
      · subst outcome
        have fewer : l'.pending.readings.length < n := by
          rw [left, ← size]
          exact less (by simp)
        obtain ⟨sameItems, sameSymbols⟩ := ih _ fewer l' settled' fresh' rfl
        rw [items_of_token .readOn called, Pending.items_of_token made, sameItems, sameSymbols,
          left, position]
        exact ⟨rfl, rfl⟩

/-- Handing back works like looking ahead: whatever the source does, the items of a lexer are
made greedily of all that a bare scanner reads from it. -/
theorem items_are_greedy (source : Source) :
    ((ofSource source).items .readOn).1 =
        (Pending.mk (Scanner.ofSource source).readings .initial).items.1 ∧
      ((ofSource source).items .readOn).2.symbols =
        (Pending.mk (Scanner.ofSource source).readings .initial).items.2 :=
  (ofSource source).items_readOn (Scanner.settled_ofFeed source.feed) rfl

end Lexer

end JamTokens
