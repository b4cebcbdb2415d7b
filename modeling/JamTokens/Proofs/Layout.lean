import JamTokens.Proofs.Spelling

/-!
# Layout does not matter

The same lexemes can be laid out in many ways: between two of them stands a gap,
which has to begin with a blank and may go on with any blanks and comments.  The
lexemes of such a text are the ones laid out, since each fits where a blank
follows it.  And apart from their places the items of a text are a matter of its
lexemes alone: what moves the places of the lexemes moves those of the items.

So an operator may be parted from its equals sign or its follower by any gap.
-/

set_option autoImplicit false

namespace JamTokens

open CharClass Grammar

/-! ## Blanks behind lexemes -/

namespace CharClass

theorem not_wordChar_of_isBlank {c : Char} (h : isBlank c = true) : isWordChar c = false := by
  rw [Bool.eq_false_iff]
  intro word
  rcases Bool.or_eq_true_iff.mp word with start | digit
  · exact absurd h (by simp [isBlank_of_isWordStart start])
  · exact absurd h (by simp [isBlank_of_isDigit digit])

theorem not_digit_of_isBlank {c : Char} (h : isBlank c = true) : isDigit c = false := by
  have other := not_wordChar_of_isBlank h
  rw [isWordChar, Bool.or_eq_false_iff] at other
  exact other.2

end CharClass

namespace Grammar

/-- A lexeme of the grammar, whatever stands behind it. -/
inductive IsLexeme : Lexeme → Prop
  | word {text : String} : IsWord text.toList → IsLexeme (.word text)
  | number {text : String} : IsNumber text.toList → IsLexeme (.number text)
  | char {c : Char} : isBlank c = false → isWordChar c = false → IsLexeme (.char c)

/-- A blank comes first, if anything does. -/
def Parted (rest : List Char) : Prop := ∀ c, rest.head? = some c → isBlank c = true

theorem parted_nil : Parted [] := fun _ first => nomatch first

theorem parted_blank {c : Char} (blank : isBlank c = true) (rest : List Char) :
    Parted (c :: rest) := by
  intro d first
  cases first
  exact blank

theorem IsLexeme.fits {lexeme : Lexeme} {rest : List Char} (h : IsLexeme lexeme)
    (parted : Parted rest) : Fits lexeme rest := by
  have other : ∀ d, isBlank d = false → rest.head? ≠ some d := by
    intro d visible first
    rw [parted d first] at visible
    cases visible
  cases h with
  | word valid => exact .word valid fun d first => not_wordChar_of_isBlank (parted d first)
  | number valid =>
      refine .number valid ?_ ?_
      · exact fun d first => not_digit_of_isBlank (parted d first)
      · exact fun _ => other '.' (by decide)
  | @char c visible single =>
      obtain ⟨start, digit⟩ := Bool.or_eq_false_iff.mp single
      refine .char visible start digit ?_ ?_
      · exact fun _ d first => not_digit_of_isBlank (parted d first)
      · exact fun _ => other '/' (by decide)

/-! ## Texts that hold some lexemes -/

/-- The text begins with the first of the lexemes and holds them all.  Only the last one may have
nothing behind it, and only behind the last one may a comment go on to the end. -/
inductive Holds : List Lexeme → List Char → Prop
  | nil : Holds [] []
  | last {lexeme : Lexeme} {gap : List Char} :
      IsLexeme lexeme → Gap gap [] → Parted gap → Holds [lexeme] (lexeme.text.toList ++ gap)
  | cons {lexeme next : Lexeme} {lexemes : List Lexeme} {c : Char} {gap text : List Char} :
      IsLexeme lexeme → isBlank c = true → Gap gap text → Holds (next :: lexemes) text →
      Holds (lexeme :: next :: lexemes) (lexeme.text.toList ++ (c :: gap ++ text))

def LaysOut (text : List Char) (lexemes : List Lexeme) : Prop :=
  ∃ gap body, text = gap ++ body ∧ Gap gap body ∧ Holds lexemes body

theorem Holds.cuts {lexemes : List Lexeme} {body : List Char} (h : Holds lexemes body)
    {gap : List Char} (valid : Gap gap body) : Cuts (gap ++ body) lexemes := by
  induction h generalizing gap with
  | nil =>
      intro before
      refine ⟨[], ?_, rfl⟩
      rw [List.append_nil]
      exact .done valid
  | @last lexeme gap' proper valid' parted =>
      have behind : Cuts gap' [] := fun _ => ⟨[], .done valid', rfl⟩
      rw [← List.append_assoc]
      exact cuts_cons (proper.fits parted) valid behind
  | @cons lexeme next lexemes c gap' text proper blank valid' _ ih =>
      have behind := ih (.blank blank valid')
      have fits : Fits lexeme (c :: gap' ++ text) := proper.fits (parted_blank blank (gap' ++ text))
      rw [← List.append_assoc]
      exact cuts_cons fits valid behind

theorem LaysOut.cuts {text : List Char} {lexemes : List Lexeme} (h : LaysOut text lexemes) :
    Cuts text lexemes := by
  obtain ⟨gap, body, rfl, valid, holds⟩ := h
  exact holds.cuts valid

end Grammar

/-! ## Moving places -/

section Moving

variable (move : Position → Position)

def LexError.moved : LexError → LexError
  | numericOverflow literal p => numericOverflow literal (move p)
  | illegalCharacter c p => illegalCharacter c (move p)
  | illegalOperatorSequence sequence p => illegalOperatorSequence sequence (move p)
  | input failure => input failure

def Item.moved : Item → Item
  | token t start => token t (move start)
  | error e => error (e.moved move)

def Reading.moved (reading : Reading) : Reading := (reading.1, move reading.2)

namespace Pending

def moved (p : Pending) : Pending := ⟨p.readings.map (Reading.moved move), p.symbols⟩

theorem unaccompanied_moved (c : Char) (pairing : Pairing) (start : Position) (follower : String) :
    unaccompanied c pairing (move start) follower =
      (unaccompanied c pairing start follower).mapError (LexError.moved move) := by
  unfold unaccompanied
  cases pairing.single with
  | some token => rfl
  | none => rfl

theorem pair_moved (c : Char) (pairing : Pairing) (start : Position) (rest : List Reading) :
    pair c pairing (move start) (rest.map (Reading.moved move)) =
      ((pair c pairing start rest).1.mapError (LexError.moved move),
        (pair c pairing start rest).2.map (Reading.moved move)) := by
  cases rest with
  | nil =>
      rw [List.map_nil, pair, unaccompanied_moved]
      rfl
  | cons reading rest =>
      obtain ⟨f | follower, next⟩ := reading
      · rfl
      · simp only [List.map_cons, Reading.moved, pair]
        by_cases equals : follower = .char '='
        · simp only [if_pos equals]
          rfl
        · simp only [if_neg equals, unaccompanied_moved]
          rfl

theorem ofChar_moved (c : Char) (start : Position) (rest : List Reading) :
    ofChar c (move start) (rest.map (Reading.moved move)) =
      ((ofChar c start rest).1.mapError (LexError.moved move),
        (ofChar c start rest).2.map (Reading.moved move)) := by
  rw [ofChar_eq_table, ofChar_eq_table]
  cases Token.ofChar? c with
  | some token => rfl
  | none =>
      cases Pairing.ofChar? c with
      | some pairing => exact pair_moved move c pairing start rest
      | none => rfl

theorem ofLexeme_moved (symbols : Symbols) (lexeme : Lexeme) (start : Position)
    (rest : List Reading) :
    ofLexeme symbols lexeme (move start) (rest.map (Reading.moved move)) =
      ((ofLexeme symbols lexeme start rest).1.mapError (LexError.moved move),
        (ofLexeme symbols lexeme start rest).2.moved move) := by
  cases lexeme with
  | endOfInput => rfl
  | word text => rfl
  | number text =>
      unfold ofLexeme ofNumber
      dsimp only
      cases Literal.value? text.toList with
      | some value => rfl
      | none => rfl
  | char c =>
      unfold ofLexeme
      dsimp only
      rw [ofChar_moved]
      cases (ofChar c start rest).1 with
      | ok token => rfl
      | error e => rfl

theorem assemble_moved (p : Pending) :
    (p.moved move).assemble =
      ((p.assemble.1.map (·.map fun next => (next.1, move next.2))).mapError (LexError.moved move),
        p.assemble.2.moved move) := by
  obtain ⟨readings, symbols⟩ := p
  cases readings with
  | nil => rfl
  | cons reading rest =>
      obtain ⟨f | lexeme, start⟩ := reading
      · rfl
      · have made := ofLexeme_moved move symbols lexeme start rest
        simp only [moved, List.map_cons, Reading.moved, assemble] at made ⊢
        rw [made]
        rcases (ofLexeme symbols lexeme start rest).1 with e | (_ | token)
        · rfl
        · rfl
        · rfl

theorem items_moved (p : Pending) :
    (p.moved move).items = (p.items.1.map (Item.moved move), p.items.2) := by
  fun_induction items p with
  | case1 p left made =>
      have made' : (p.moved move).assemble = (.ok none, left.moved move) := by
        rw [assemble_moved, made]
        rfl
      rw [items_of_end made']
      rfl
  | case2 p token start left made more symbols behind ih =>
      have made' : (p.moved move).assemble =
          (.ok (some (token, move start)), left.moved move) := by
        rw [assemble_moved, made]
        rfl
      rw [items_of_token made', ih, behind]
      rfl
  | case3 p e left made more symbols behind ih =>
      have made' : (p.moved move).assemble = (.error (e.moved move), left.moved move) := by
        rw [assemble_moved, made]
        rfl
      rw [items_of_error made', ih, behind]
      rfl

end Pending

end Moving

/-! ## Items without their places -/

def Item.unplaced (item : Item) : Item := item.moved fun _ => .start

/-- The items of readings and the symbols behind them, apart from places, are a matter of what is
read alone. -/
theorem Pending.items_of_same {p q : Pending}
    (readings : p.readings.map Prod.fst = q.readings.map Prod.fst) (symbols : p.symbols = q.symbols) :
    p.items.1.map Item.unplaced = q.items.1.map Item.unplaced ∧ p.items.2 = q.items.2 := by
  have shape : ∀ (r : Pending), r.moved (fun _ => .start) =
      ⟨(r.readings.map Prod.fst).map fun result => (result, .start), r.symbols⟩ := by
    intro r
    rw [moved, List.map_map]
    rfl
  have same : p.moved (fun _ => .start) = q.moved fun _ => .start := by
    rw [shape, shape, readings, symbols]
  have items := congrArg Pending.items same
  rw [items_moved, items_moved, Prod.mk.injEq] at items
  exact items

theorem Grammar.LaysOut.readings {text : List Char} {lexemes : List Lexeme} (h : LaysOut text lexemes) :
    (Scanner.ofSource (.ofText text)).readings.map Prod.fst = lexemes.map .ok := by
  obtain ⟨found, cut, same⟩ := h.cuts []
  rw [Scanner.readings_of_cut cut _ rfl rfl (Source.ofText_delivers text), ← same, List.map_map,
    List.map_map]
  rfl

/-- Two ways of laying out the same lexemes give the same items, apart from their places, and bind
the same symbols. -/
theorem items_of_layouts {lexemes : List Lexeme} {text other : List Char}
    (h : LaysOut text lexemes) (h' : LaysOut other lexemes) :
    ((Lexer.ofSource (.ofText text)).items .readOn).1.map Item.unplaced =
        ((Lexer.ofSource (.ofText other)).items .readOn).1.map Item.unplaced ∧
      ((Lexer.ofSource (.ofText text)).items .readOn).2.symbols =
        ((Lexer.ofSource (.ofText other)).items .readOn).2.symbols := by
  obtain ⟨items, symbols⟩ := Lexer.items_are_greedy (.ofText text)
  obtain ⟨items', symbols'⟩ := Lexer.items_are_greedy (.ofText other)
  rw [items, symbols, items', symbols']
  apply Pending.items_of_same
  · exact h.readings.trans h'.readings.symm
  · rfl

/-- The comment between the angle bracket and its equals sign holds another equals sign. -/
theorem items_of_layouts_commented :
    LaysOut ['<', ' ', '='] [.char '<', .char '='] ∧
      LaysOut ['/', '/', '\n', '<', '\n', '/', '/', '=', '\n', '=', ' ', '/', '/']
        [.char '<', .char '='] ∧
      ((Lexer.ofSource (.ofText ['<', ' ', '='])).items .readOn).1.map Item.unplaced =
          ((Lexer.ofSource (.ofText ['/', '/', '\n', '<', '\n', '/', '/', '=', '\n', '=', ' ', '/',
            '/'])).items .readOn).1.map Item.unplaced ∧
        ((Lexer.ofSource (.ofText ['<', ' ', '='])).items .readOn).2.symbols =
          ((Lexer.ofSource (.ofText ['/', '/', '\n', '<', '\n', '/', '/', '=', '\n', '=', ' ', '/',
            '/'])).items .readOn).2.symbols := by
  have less : IsLexeme (.char '<') := .char rfl rfl
  have equals : IsLexeme (.char '=') := .char rfl rfl
  have plain : LaysOut ['<', ' ', '='] [.char '<', .char '='] := by
    have last : Holds [.char '='] ['='] := @Holds.last _ [] equals (.nil []) parted_nil
    exact ⟨[], _, rfl, .nil _, @Holds.cons _ _ _ ' ' [] _ less rfl (.nil _) last⟩
  have commented : LaysOut ['/', '/', '\n', '<', '\n', '/', '/', '=', '\n', '=', ' ', '/', '/']
      [.char '<', .char '='] := by
    have ending : Gap [' ', '/', '/'] [] := .blank rfl (@Gap.lastComment [] List.not_mem_nil)
    have last : Holds [.char '='] ['=', ' ', '/', '/'] :=
      @Holds.last _ [' ', '/', '/'] equals ending (parted_blank rfl _)
    have between : Gap ['/', '/', '=', '\n'] ['=', ' ', '/', '/'] :=
      @Gap.comment ['='] [] _ (by decide) (.nil _)
    have holds : Holds [.char '<', .char '=']
        ['<', '\n', '/', '/', '=', '\n', '=', ' ', '/', '/'] :=
      @Holds.cons _ _ _ '\n' ['/', '/', '=', '\n'] _ less rfl between last
    exact ⟨['/', '/', '\n'], _, rfl, @Gap.comment [] [] _ List.not_mem_nil (.nil _), holds⟩
  exact ⟨plain, commented, items_of_layouts plain commented⟩

end JamTokens
