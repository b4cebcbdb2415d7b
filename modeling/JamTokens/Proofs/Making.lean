import JamTokens.Proofs.Assembly
import JamTokens.Proofs.Scanning

/-!
# Texts without an error

A text that is lexed without an error is a sequence of lexemes that make tokens,
one or two lexemes each.  How they do is a matter of the lexemes and the symbols
alone; positions play no part in it.
-/

set_option autoImplicit false

namespace JamTokens

open Grammar

/-- The first lexemes make a token and leave the others; the symbols before and behind it. -/
inductive Makes : Symbols → List Lexeme → Token → Symbols → List Lexeme → Prop
  | word (symbols : Symbols) (text : String) (rest : List Lexeme) :
      Makes symbols (.word text :: rest) (symbols.resolve text).1 (symbols.resolve text).2 rest
  | number {symbols : Symbols} {text : String} {value : Nat} {rest : List Lexeme} :
      Literal.value? text.toList = some value →
      Makes symbols (.number text :: rest) (.intConstant value) symbols rest
  | char {symbols : Symbols} {c : Char} {token : Token} {rest : List Lexeme} :
      Token.ofChar? c = some token → Makes symbols (.char c :: rest) token symbols rest
  | paired {symbols : Symbols} {c : Char} {pairing : Pairing} {rest : List Lexeme} :
      Pairing.ofChar? c = some pairing →
      Makes symbols (.char c :: .char '=' :: rest) pairing.paired symbols rest
  | single {symbols : Symbols} {c : Char} {pairing : Pairing} {token : Token} {rest : List Lexeme} :
      Pairing.ofChar? c = some pairing → pairing.single = some token →
      rest.head? ≠ some (.char '=') → Makes symbols (.char c :: rest) token symbols rest

/-- All the lexemes are used up, and these are the tokens that they make. -/
inductive MakesAll : Symbols → List Lexeme → List Token → Prop
  | nil (symbols : Symbols) : MakesAll symbols [] []
  | cons {symbols after : Symbols} {lexemes rest : List Lexeme} {token : Token}
      {tokens : List Token} :
      Makes symbols lexemes token after rest → MakesAll after rest tokens →
      MakesAll symbols lexemes (token :: tokens)

theorem Makes.suffix {symbols after : Symbols} {lexemes rest : List Lexeme} {token : Token}
    (h : Makes symbols lexemes token after rest) : rest <:+ lexemes := by
  cases h with
  | word text => exact List.suffix_cons _ _
  | number valued => exact List.suffix_cons _ _
  | char own => exact List.suffix_cons _ _
  | paired pairs => exact (List.suffix_cons _ _).trans (List.suffix_cons _ _)
  | single pairs single other => exact List.suffix_cons _ _

/-! ## Making tokens of the readings of a text -/

theorem Pairing.not_single {c : Char} {pairing : Pairing} (h : ofChar? c = some pairing) :
    Token.ofChar? c = none := by
  unfold ofChar? at h
  split at h <;> cases h <;> rfl

namespace Pending

abbrev readingsOf (found : List (Lexeme × Position)) : List Reading :=
  found.map fun next => (.ok next.1, next.2)

theorem ofChar_of_own {c : Char} {token : Token} (own : Token.ofChar? c = some token)
    (start : Position) (rest : List Reading) : ofChar c start rest = (.ok token, rest) := by
  simp [ofChar_eq_table, own]

theorem ofChar_of_pairs {c : Char} {pairing : Pairing} (pairs : Pairing.ofChar? c = some pairing)
    (start : Position) (rest : List Reading) :
    ofChar c start rest = pair c pairing start rest := by
  simp [ofChar_eq_table, pairs, Pairing.not_single pairs]

theorem pair_single {pairing : Pairing} {token : Token} (single : pairing.single = some token)
    {found : List (Lexeme × Position)} (other : (found.map Prod.fst).head? ≠ some (.char '='))
    (c : Char) (start : Position) :
    pair c pairing start (readingsOf found) = (.ok token, readingsOf found) := by
  cases found with
  | nil => simp [pair, unaccompanied, single]
  | cons follower found =>
      have proper : follower.1 ≠ .char '=' := by simpa using other
      simp [pair, unaccompanied, single, proper]

theorem assemble_cons {symbols : Symbols} {lexeme : Lexeme} {start : Position}
    {rest : List Reading} {token : Token} {left : Pending}
    (made : ofLexeme symbols lexeme start rest = (.ok (some token), left)) :
    assemble ⟨(.ok lexeme, start) :: rest, symbols⟩ = (.ok (some (token, start)), left) := by
  simp only [assemble, made]
  rfl

theorem ofLexeme_number {text : String} {value : Nat}
    (valued : Literal.value? text.toList = some value) (symbols : Symbols) (start : Position)
    (rest : List Reading) :
    ofLexeme symbols (.number text) start rest =
      (.ok (some (.intConstant value)), ⟨rest, symbols⟩) := by
  have made : ofNumber text start = .ok (.intConstant value) := by
    unfold ofNumber
    rw [valued]
  unfold ofLexeme
  dsimp only
  rw [made]
  rfl

theorem ofLexeme_char {c : Char} {start : Position} {rest left : List Reading} {token : Token}
    (made : ofChar c start rest = (.ok token, left)) (symbols : Symbols) :
    ofLexeme symbols (.char c) start rest = (.ok (some token), ⟨left, symbols⟩) := by
  simp only [ofLexeme, made]
  rfl

theorem assemble_of_makes {symbols after : Symbols} {found : List (Lexeme × Position)}
    {token : Token} {rest : List Lexeme}
    (h : Makes symbols (found.map Prod.fst) token after rest) :
    ∃ start left, left.map Prod.fst = rest ∧
      assemble ⟨readingsOf found, symbols⟩ = (.ok (some (token, start)), ⟨readingsOf left, after⟩) := by
  cases found with
  | nil => cases h
  | cons first found =>
      obtain ⟨lexeme, start⟩ := first
      refine ⟨start, ?_⟩
      generalize behind : found.map Prod.fst = lexemes at h
      rw [List.map_cons, behind] at h
      cases h with
      | word text => exact ⟨found, behind, rfl⟩
      | number valued => exact ⟨found, behind, assemble_cons (ofLexeme_number valued _ _ _)⟩
      | char own => exact ⟨found, behind, assemble_cons (ofLexeme_char (ofChar_of_own own _ _) _)⟩
      | paired pairs =>
          obtain ⟨follower, found, rfl, same, rfl⟩ := List.map_eq_cons_iff.mp behind
          refine ⟨found, rfl, assemble_cons (ofLexeme_char ?_ _)⟩
          rw [ofChar_of_pairs pairs]
          simp [pair, same]
      | single pairs single other =>
          rw [← behind] at other
          refine ⟨found, behind, assemble_cons (ofLexeme_char ?_ _)⟩
          rw [ofChar_of_pairs pairs]
          exact pair_single single other _ _

theorem assemble_made {symbols : Symbols} {lexeme : Lexeme} {start start' : Position}
    {rest : List Reading} {token : Token} {left : Pending}
    (h : assemble ⟨(.ok lexeme, start) :: rest, symbols⟩ = (.ok (some (token, start')), left)) :
    ofLexeme symbols lexeme start rest = (.ok (some token), left) := by
  simp only [assemble] at h
  rcases made : ofLexeme symbols lexeme start rest with ⟨e | (_ | other), left'⟩
  · rw [made] at h
    cases h
  · rw [made] at h
    cases h
  · rw [made] at h
    cases h
    rfl

theorem makes_of_pair {c : Char} {pairing : Pairing} (pairs : Pairing.ofChar? c = some pairing)
    {start : Position} {found : List (Lexeme × Position)} {token : Token} {left : List Reading}
    (h : pair c pairing start (readingsOf found) = (.ok token, left)) (symbols : Symbols) :
    ∃ behind, left = readingsOf behind ∧
      Makes symbols (.char c :: found.map Prod.fst) token symbols (behind.map Prod.fst) := by
  cases found with
  | nil =>
      simp only [readingsOf, List.map_nil, pair, unaccompanied] at h
      cases single : pairing.single with
      | none => simp [single] at h
      | some alone =>
          simp only [single] at h
          cases h
          exact ⟨[], rfl, .single pairs single (by simp)⟩
  | cons next found =>
      obtain ⟨follower, position⟩ := next
      simp only [readingsOf, List.map_cons, pair, unaccompanied] at h
      by_cases equals : follower = .char '='
      · subst equals
        rw [if_pos rfl] at h
        cases h
        exact ⟨found, rfl, .paired pairs⟩
      · rw [if_neg equals] at h
        cases single : pairing.single with
        | none => simp [single] at h
        | some alone =>
            simp only [single] at h
            cases h
            exact ⟨(follower, position) :: found, rfl, .single pairs single (by simpa using equals)⟩

theorem makes_of_ofChar {c : Char} {start : Position} {found : List (Lexeme × Position)}
    {token : Token} {left : List Reading}
    (h : ofChar c start (readingsOf found) = (.ok token, left)) (symbols : Symbols) :
    ∃ behind, left = readingsOf behind ∧
      Makes symbols (.char c :: found.map Prod.fst) token symbols (behind.map Prod.fst) := by
  cases own : Token.ofChar? c with
  | some alone =>
      rw [ofChar_of_own own] at h
      cases h
      exact ⟨found, rfl, .char own⟩
  | none =>
      cases pairs : Pairing.ofChar? c with
      | some pairing =>
          rw [ofChar_of_pairs pairs] at h
          exact makes_of_pair pairs h symbols
      | none => simp [ofChar_eq_table, own, pairs] at h

theorem makes_of_assemble {symbols : Symbols} {found : List (Lexeme × Position)} {token : Token}
    {start : Position} {left : Pending}
    (h : assemble ⟨readingsOf found, symbols⟩ = (.ok (some (token, start)), left)) :
    ∃ behind, left.readings = readingsOf behind ∧
      Makes symbols (found.map Prod.fst) token left.symbols (behind.map Prod.fst) := by
  cases found with
  | nil => cases h
  | cons first found =>
      obtain ⟨lexeme, start'⟩ := first
      have made := assemble_made h
      cases lexeme with
      | endOfInput => cases made
      | word text =>
          cases made
          exact ⟨found, rfl, .word symbols text _⟩
      | number text =>
          cases valued : Literal.value? text.toList with
          | some value =>
              rw [ofLexeme_number valued] at made
              cases made
              exact ⟨found, rfl, .number valued⟩
          | none =>
              have failed : ofNumber text start' = .error (.numericOverflow text start') := by
                unfold ofNumber
                rw [valued]
              have error := congrArg Prod.fst made
              simp only [ofLexeme, failed] at error
              cases error
      | char c =>
          rcases called : ofChar c start' (readingsOf found) with ⟨e | own, rest⟩
          · have error := congrArg Prod.fst made
            simp only [ofLexeme, called] at error
            cases error
          · rw [ofLexeme_char called] at made
            cases made
            exact makes_of_ofChar called symbols

end Pending

/-! ## Texts and their tokens -/

def Item.token? : Item → Option Token
  | token t _ => some t
  | error _ => none

/-- Lexing the text gives no error and exactly these tokens. -/
def Lexes (text : List Char) (tokens : List Token) : Prop :=
  ((Lexer.ofSource (.ofText text)).items .readOn).1.map Item.token? = tokens.map some

namespace Pending

theorem items_of_makesAll {symbols : Symbols} {lexemes : List Lexeme} {tokens : List Token}
    (h : MakesAll symbols lexemes tokens) {found : List (Lexeme × Position)}
    (same : found.map Prod.fst = lexemes) :
    (items ⟨readingsOf found, symbols⟩).1.map Item.token? = tokens.map some := by
  induction h generalizing found with
  | nil symbols =>
      obtain rfl := List.map_eq_nil_iff.mp same
      have ended : assemble ⟨readingsOf [], symbols⟩ = (.ok none, ⟨[], symbols⟩) := rfl
      rw [items_of_end ended]
      rfl
  | cons first _ ih =>
      subst same
      obtain ⟨start, left, behind, made⟩ := assemble_of_makes first
      rw [items_of_token made, List.map_cons, ih behind]
      rfl

theorem makesAll_of_items {symbols : Symbols} {found : List (Lexeme × Position)}
    {tokens : List Token} (proper : ∀ lexeme ∈ found.map Prod.fst, lexeme ≠ .endOfInput)
    (h : (items ⟨readingsOf found, symbols⟩).1.map Item.token? = tokens.map some) :
    MakesAll symbols (found.map Prod.fst) tokens := by
  induction tokens generalizing symbols found with
  | nil =>
      cases found with
      | nil => exact .nil symbols
      | cons first found =>
          obtain ⟨lexeme, start⟩ := first
          have more := assemble_ne_none symbols lexeme start (readingsOf found)
            (proper lexeme List.mem_cons_self)
          rcases made : assemble ⟨readingsOf ((lexeme, start) :: found), symbols⟩ with
            ⟨e | (_ | ⟨token, start'⟩), left⟩
          · rw [items_of_error made] at h
            cases h
          · exact absurd (congrArg Prod.fst made) more
          · rw [items_of_token made] at h
            cases h
  | cons token tokens ih =>
      rcases made : assemble ⟨readingsOf found, symbols⟩ with ⟨e | (_ | ⟨token', start⟩), left⟩
      · rw [items_of_error made] at h
        cases h
      · rw [items_of_end made] at h
        cases h
      · rw [items_of_token made, List.map_cons, List.map_cons, List.cons.injEq] at h
        obtain ⟨same, later⟩ := h
        cases same
        obtain ⟨behind, readings, makes⟩ := makes_of_assemble made
        obtain ⟨leftReadings, after⟩ := left
        subst readings
        refine .cons makes (ih ?_ later)
        exact fun lexeme member => proper lexeme (makes.suffix.subset member)

end Pending

/-- The texts that are lexed without an error are those whose lexemes make tokens. -/
theorem lexes_iff {text : List Char} {found : List (Lexeme × Position)} (cut : Cut [] text found)
    {tokens : List Token} : Lexes text tokens ↔ MakesAll .initial (found.map Prod.fst) tokens := by
  have readings : (Scanner.ofSource (.ofText text)).readings = Pending.readingsOf found :=
    Scanner.readings_of_cut cut _ rfl rfl (Source.ofText_delivers text)
  have proper : ∀ lexeme ∈ found.map Prod.fst, lexeme ≠ .endOfInput := by
    intro lexeme member
    obtain ⟨next, inside, rfl⟩ := List.mem_map.mp member
    exact cut.proper next inside
  rw [Lexes, (Lexer.items_are_greedy _).1, readings]
  exact ⟨Pending.makesAll_of_items proper, fun makes => Pending.items_of_makesAll makes rfl⟩

end JamTokens
