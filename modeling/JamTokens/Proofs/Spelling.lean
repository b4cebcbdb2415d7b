import JamTokens.Proofs.Constants
import JamTokens.Proofs.Interning
import JamTokens.Proofs.Making
import Mathlib.Data.List.Chain

/-!
# Tokens spelled out and read again

The texts of some tokens, with single blanks between them, are lexed as these
tokens again.  It takes tokens that each have a text to be read by, and no
equals sign behind an angle bracket: the two would be taken for one token
whatever blanks part them.

These are exactly the tokens that texts are lexed to.
-/

set_option autoImplicit false

namespace JamTokens

open CharClass Grammar

namespace Token

/-- The text of the token is read as this token.  An integer constant has 32 bits, and its sign
cannot be written. -/
def Spellable : Token → Prop
  | intConstant value => 0 ≤ value ∧ value ≤ Literal.greatest
  | identifier name =>
      IsWord name.spelling.toList ∧ reservedWords.lookup name.spelling = none
  | _ => True

/-- An angle bracket and an equals sign. -/
def Pairs (t u : Token) : Prop :=
  (t = .operator .lessThan ∨ t = .operator .greaterThan) ∧ u = .operator .equals

/-- The lexemes that the text of the token is cut into. -/
def lexemes (t : Token) : List Lexeme :=
  match t with
  | intConstant _ => [.number t.text]
  | operator _ | punct _ | keyword .bind => t.text.toList.map .char
  | _ => [.word t.text]

end Token

structure Printable (tokens : List Token) : Prop where
  spellable : ∀ t ∈ tokens, t.Spellable
  apart : tokens.IsChain fun t u => ¬ t.Pairs u

def spell (tokens : List Token) : List Char :=
  (String.intercalate " " (tokens.map Token.text)).toList

/-! ## The lexemes of a spelled text -/

def Cuts (text : List Char) (lexemes : List Lexeme) : Prop :=
  ∀ before, ∃ found, Cut before text found ∧ found.map Prod.fst = lexemes

theorem cuts_nil : Cuts [] [] := fun _ => ⟨[], .done (.nil []), rfl⟩

theorem cuts_cons {gap rest : List Char} {lexeme : Lexeme} {lexemes : List Lexeme}
    (fits : Fits lexeme rest) (valid : Gap gap (lexeme.text.toList ++ rest))
    (behind : Cuts rest lexemes) :
    Cuts (gap ++ lexeme.text.toList ++ rest) (lexeme :: lexemes) := by
  intro before
  obtain ⟨found, cut, same⟩ := behind (before ++ gap ++ lexeme.text.toList)
  exact ⟨_, .lexeme valid fits cut, by rw [List.map_cons, same]⟩

/-- A blank follows, if anything does. -/
def Apart (rest : List Char) : Prop := ∀ c, rest.head? = some c → c = ' '

/-- A character that begins no word and no number, and not a gap by itself. -/
def isMark (c : Char) : Bool := !isBlank c && !isWordStart c && !isDigit c && c != '.'

/-- The ways in which a token is spelled. -/
inductive Shape (text : String) : List Lexeme → Prop
  | number : text.toList ≠ [] → IsDigits text.toList → Shape text [.number text]
  | word : IsWord text.toList → Shape text [.word text]
  | mark {c : Char} : isMark c = true → text.toList = [c] → Shape text [.char c]
  | marks {c : Char} : isMark c = true → text.toList = [c, '='] →
      Shape text [.char c, .char '=']

theorem fits_mark {c : Char} {rest : List Char} (h : isMark c = true)
    (next : rest.head? ≠ some '/') : Fits (.char c) rest := by
  simp only [isMark, Bool.and_eq_true, Bool.not_eq_true', bne_iff_ne] at h
  obtain ⟨⟨⟨blank, start⟩, digit⟩, point⟩ := h
  exact .char blank start digit (fun same => absurd same point) (fun _ => next)

theorem Shape.cuts {text : String} {lexemes more : List Lexeme} {gap rest : List Char}
    (h : Shape text lexemes) (valid : Gap gap (text.toList ++ rest)) (apart : Apart rest)
    (behind : Cuts rest more) : Cuts (gap ++ text.toList ++ rest) (lexemes ++ more) := by
  have stops : ∀ d, rest.head? = some d → isWordChar d = false ∧ isDigit d = false ∧ d ≠ '.' := by
    intro d first
    rw [apart d first]
    decide
  have slash : rest.head? ≠ some '/' := fun first => absurd (apart _ first) (by decide)
  cases h with
  | number some_digit digits =>
      have fits : Fits (.number text) rest := by
        refine .number (.whole some_digit digits) ?_ ?_
        · exact fun d first => (stops d first).2.1
        · exact fun _ first => (stops _ first).2.2 rfl
      have cuts := cuts_cons fits valid behind
      exact cuts
  | word spelled =>
      have fits : Fits (.word text) rest := .word spelled fun d first => (stops d first).1
      have cuts := cuts_cons fits valid behind
      exact cuts
  | @mark c mark spelled =>
      have single : text.toList = (Lexeme.char c).text.toList := by simp [spelled, Lexeme.text]
      rw [single] at valid ⊢
      exact cuts_cons (fits_mark mark slash) valid behind
  | @marks c mark spelled =>
      have equals : Fits (.char '=') rest := fits_mark (by decide) slash
      have first : Fits (.char c) ((Lexeme.char '=').text.toList ++ rest) :=
        fits_mark mark (by simp [Lexeme.text])
      have both : text.toList = (Lexeme.char c).text.toList ++ (Lexeme.char '=').text.toList := by
        simp [spelled, Lexeme.text]
      rw [both, List.append_assoc] at valid
      rw [both, ← List.append_assoc, List.append_assoc (_ ++ _)]
      exact cuts_cons first valid (cuts_cons equals (.nil _) behind)

theorem Token.shape {t : Token} (h : t.Spellable) : Shape t.text t.lexemes := by
  cases t with
  | intConstant value =>
      obtain ⟨n, rfl⟩ := Int.eq_ofNat_of_zero_le h.1
      obtain ⟨some_digit, digits⟩ := isDigits_toString n
      exact .number some_digit digits
  | identifier name => exact .word h.1
  | keyword k =>
      cases k with
      | bind => exact .marks (by decide) rfl
      | _ => exact .word ⟨_, _, rfl, rfl, List.all_eq_true.mp rfl⟩
  | operator op =>
      cases op with
      | notEquals | lessThanEquals | greaterThanEquals => exact .marks (by decide) rfl
      | _ => exact .mark (by decide) rfl
  | punct p => cases p <;> exact .mark (by decide) rfl
  | bool value => cases value <;> exact .word ⟨_, _, rfl, rfl, List.all_eq_true.mp rfl⟩
  | null => exact .word ⟨_, _, rfl, rfl, List.all_eq_true.mp rfl⟩
  | primFun f => cases f <;> exact .word ⟨_, _, rfl, rfl, List.all_eq_true.mp rfl⟩

theorem spell_cons (t : Token) (tokens : List Token) :
    spell (t :: tokens) = t.text.toList ++ tokens.flatMap fun t => ' ' :: t.text.toList := by
  induction tokens generalizing t with
  | nil => simp [spell]
  | cons u tokens ih =>
      have rest := ih u
      unfold spell at rest ⊢
      rw [List.map_cons, List.map_cons, String.intercalate_cons_cons, ← List.map_cons,
        String.toList_append, String.toList_append, rest]
      simp

theorem cuts_behind : ∀ (tokens : List Token), (∀ t ∈ tokens, t.Spellable) →
    Cuts (tokens.flatMap fun t => ' ' :: t.text.toList) (tokens.flatMap Token.lexemes) ∧
      Apart (tokens.flatMap fun t => ' ' :: t.text.toList) := by
  intro tokens
  induction tokens with
  | nil => exact fun _ => ⟨cuts_nil, fun _ first => nomatch first⟩
  | cons t tokens ih =>
      intro spellable
      obtain ⟨cuts, apart⟩ := ih fun u member => spellable u (List.mem_cons_of_mem t member)
      have shape := Token.shape (spellable t List.mem_cons_self)
      refine ⟨shape.cuts (.blank (by decide) (.nil _)) apart cuts, ?_⟩
      intro c first
      cases first
      rfl

theorem cuts_spell {tokens : List Token} (h : ∀ t ∈ tokens, t.Spellable) :
    Cuts (spell tokens) (tokens.flatMap Token.lexemes) := by
  cases tokens with
  | nil => exact cuts_nil
  | cons t tokens =>
      obtain ⟨cuts, apart⟩ := cuts_behind tokens fun u member => h u (List.mem_cons_of_mem t member)
      have shape := Token.shape (h t List.mem_cons_self)
      rw [spell_cons]
      exact shape.cuts (.nil _) apart cuts

/-! ## The tokens of a spelled text -/

namespace Symbols

/-- What becomes of a token when its text is read. -/
def remake (t : Symbols) : Token → Token × Symbols
  | .identifier name => t.resolve name.spelling
  | token => (token, t)

def remakeAll (t : Symbols) : List Token → List Token
  | [] => []
  | token :: tokens => (t.remake token).1 :: (t.remake token).2.remakeAll tokens

theorem remake_of_isFixed (t : Symbols) {token : Token} (h : token.isFixed = true) :
    t.remake token = (token, t) := by
  cases token with
  | identifier name => cases h
  | _ => rfl

theorem remake_sameText (t : Symbols) {token : Token} (h : token.Spellable) :
    token.sameText (t.remake token).1 = true := by
  cases token with
  | identifier name =>
      rcases t.resolve_token name.spelling with reserved | ⟨-, name', made, alike⟩
      · rw [h.2] at reserved
        cases reserved
      · rw [remake, made]
        simp [Token.sameText, Ident.sameName, alike]
  | _ => simp [remake, Token.sameText]

theorem remakeAll_sameText (t : Symbols) {tokens : List Token} (h : ∀ u ∈ tokens, u.Spellable) :
    List.Forall₂ (fun u v => u.sameText v = true) tokens (t.remakeAll tokens) := by
  induction tokens generalizing t with
  | nil => exact .nil
  | cons u tokens ih =>
      exact .cons (t.remake_sameText (h u List.mem_cons_self))
        (ih _ fun v member => h v (List.mem_cons_of_mem u member))

end Symbols

theorem makes_reserved (symbols : Symbols) {t : Token} (rest : List Lexeme)
    (h : reservedWords.lookup t.text = some t) : Makes symbols (.word t.text :: rest) t symbols rest := by
  have made := Makes.word symbols t.text rest
  rw [symbols.resolve_of_reserved h] at made
  exact made

theorem Token.makes_lexemes (t : Token) (h : t.Spellable) (symbols : Symbols) {rest : List Lexeme}
    (apart : t = .operator .lessThan ∨ t = .operator .greaterThan →
      rest.head? ≠ some (.char '=')) :
    Makes symbols (t.lexemes ++ rest) (symbols.remake t).1 (symbols.remake t).2 rest := by
  cases t with
  | intConstant value =>
      obtain ⟨low, high⟩ := h
      obtain ⟨n, rfl⟩ := Int.eq_ofNat_of_zero_le low
      exact .number (Literal.value?_toString (Int.ofNat_le.mp high))
  | identifier name => exact .word symbols name.spelling rest
  | keyword k =>
      cases k with
      | bind => exact .paired (c := ':') rfl
      | _ => exact makes_reserved symbols rest (by decide)
  | operator op =>
      cases op with
      | notEquals => exact .paired (c := '!') rfl
      | lessThanEquals => exact .paired (c := '<') rfl
      | greaterThanEquals => exact .paired (c := '>') rfl
      | lessThan => exact .single (c := '<') rfl rfl (apart (Or.inl rfl))
      | greaterThan => exact .single (c := '>') rfl rfl (apart (Or.inr rfl))
      | _ => exact .char rfl
  | punct p => cases p <;> exact .char rfl
  | bool value => cases value <;> exact makes_reserved symbols rest (by decide)
  | null => exact makes_reserved symbols rest (by decide)
  | primFun f => cases f <;> exact makes_reserved symbols rest (by decide)

theorem Token.equals_of_head {t : Token} (h : t.lexemes.head? = some (.char '=')) :
    t = .operator .equals := by
  cases t with
  | keyword k => revert h; cases k <;> decide
  | operator op => revert h; cases op <;> decide
  | punct p => revert h; cases p <;> decide
  | _ => cases h

theorem Token.lexemes_ne_nil (t : Token) : t.lexemes ≠ [] := by
  cases t with
  | keyword k => cases k <;> decide
  | operator op => cases op <;> decide
  | punct p => cases p <;> decide
  | _ => exact List.cons_ne_nil _ _

theorem makesAll_lexemes {tokens : List Token} (h : Printable tokens) (symbols : Symbols) :
    MakesAll symbols (tokens.flatMap Token.lexemes) (symbols.remakeAll tokens) := by
  obtain ⟨spellable, apart⟩ := h
  induction tokens generalizing symbols with
  | nil => exact .nil symbols
  | cons t tokens ih =>
      rw [List.isChain_cons] at apart
      have later : ∀ u ∈ tokens, u.Spellable :=
        fun u member => spellable u (List.mem_cons_of_mem t member)
      have follower : t = .operator .lessThan ∨ t = .operator .greaterThan →
          (tokens.flatMap Token.lexemes).head? ≠ some (.char '=') := by
        intro angle first
        cases tokens with
        | nil => cases first
        | cons u tokens =>
            rw [List.flatMap_cons, List.head?_append_of_ne_nil _ u.lexemes_ne_nil] at first
            exact apart.1 u rfl ⟨angle, Token.equals_of_head first⟩
      exact .cons (t.makes_lexemes (spellable t List.mem_cons_self) symbols follower)
        (ih _ later apart.2)

/-! ## The tokens of any text -/

theorem Symbols.op?_resolve (t : Symbols) (spelling : String) :
    (t.resolve spelling).1.op? = none := by
  rcases t.resolve_token spelling with reserved | ⟨-, name, made, -⟩
  · have others : ∀ entry ∈ reservedWords, entry.2.op? = none := by decide
    exact others (spelling, _) (mem_reservedWords reserved)
  · rw [made]
    rfl

/-- An angle bracket stands alone only where no equals sign follows. -/
theorem Makes.follower_of_angle {symbols after : Symbols} {lexemes rest : List Lexeme}
    {token : Token} (h : Makes symbols lexemes token after rest)
    (angle : token = .operator .lessThan ∨ token = .operator .greaterThan) :
    rest.head? ≠ some (.char '=') := by
  cases h with
  | word text =>
      have other := symbols.op?_resolve text
      rcases angle with same | same <;> rw [same] at other <;> cases other
  | number valued => rcases angle with same | same <;> cases same
  | char own =>
      unfold Token.ofChar? at own
      split at own <;> cases own <;> simp at angle
  | paired pairs =>
      unfold Pairing.ofChar? at pairs
      split at pairs <;> cases pairs <;> simp at angle
  | single pairs single other => exact other

theorem Makes.head_of_equals {symbols after : Symbols} {lexemes rest : List Lexeme} {token : Token}
    (h : Makes symbols lexemes token after rest) (equals : token = .operator .equals) :
    lexemes.head? = some (.char '=') := by
  cases h with
  | word text =>
      have other := symbols.op?_resolve text
      rw [equals] at other
      cases other
  | number valued => cases equals
  | char own =>
      unfold Token.ofChar? at own
      split at own <;> cases own <;> first | rfl | cases equals
  | paired pairs =>
      unfold Pairing.ofChar? at pairs
      split at pairs <;> cases pairs <;> cases equals
  | single pairs single other =>
      unfold Pairing.ofChar? at pairs
      split at pairs <;> cases pairs <;> cases single <;> cases equals

theorem Token.spellable_of_isFixed {t : Token} (h : t.isFixed = true) : t.Spellable := by
  cases t with
  | intConstant value => cases h
  | identifier name => cases h
  | _ => trivial

/-- A token that a text is lexed to can be spelled, and its spelling is read in the same way. -/
theorem Makes.spellable {symbols after : Symbols} {lexemes rest : List Lexeme} {token : Token}
    (h : Makes symbols lexemes token after rest)
    (words : ∀ text, .word text ∈ lexemes → IsWord text.toList) :
    token.Spellable ∧ symbols.remake token = (token, after) := by
  have fixed : ∀ {t : Token}, t.isFixed = true →
      t.Spellable ∧ symbols.remake t = (t, symbols) :=
    fun h => ⟨Token.spellable_of_isFixed h, symbols.remake_of_isFixed h⟩
  cases h with
  | word text =>
      rcases symbols.resolve_token text with reserved | ⟨free, name, made, rfl⟩
      · rw [symbols.resolve_of_reserved reserved]
        exact fixed (isFixed_of_reserved reserved)
      · rw [made]
        exact ⟨⟨words _ List.mem_cons_self, free⟩, Prod.ext made rfl⟩
  | number valued =>
      exact ⟨⟨Int.natCast_nonneg _, Int.ofNat_le.mpr (Literal.le_greatest valued)⟩, rfl⟩
  | char own => exact fixed (Token.isFixed_of_ofChar? own)
  | paired pairs => exact fixed (Pairing.isFixed_of_ofChar? pairs).1
  | single pairs single other => exact fixed ((Pairing.isFixed_of_ofChar? pairs).2 _ single)

theorem MakesAll.printable {symbols : Symbols} {lexemes : List Lexeme} {tokens : List Token}
    (h : MakesAll symbols lexemes tokens)
    (words : ∀ text, .word text ∈ lexemes → IsWord text.toList) :
    Printable tokens ∧ symbols.remakeAll tokens = tokens := by
  induction h with
  | nil symbols => exact ⟨⟨by simp, .nil⟩, rfl⟩
  | @cons symbols after lexemes rest token tokens makes later ih =>
      obtain ⟨spellable, remade⟩ := makes.spellable words
      obtain ⟨printable, same⟩ := ih fun text member => words text (makes.suffix.subset member)
      refine ⟨⟨?_, List.isChain_cons.mpr ⟨?_, printable.apart⟩⟩, ?_⟩
      · intro t member
        rcases List.mem_cons.mp member with rfl | behind
        · exact spellable
        · exact printable.spellable t behind
      · rintro u first ⟨angle, equals⟩
        cases later with
        | nil => cases first
        | cons next _ =>
            cases first
            exact makes.follower_of_angle angle (next.head_of_equals equals)
      · rw [Symbols.remakeAll, remade, same]

theorem printable_of_lexes {text : List Char} {tokens : List Token} (h : Lexes text tokens) :
    Printable tokens ∧ Symbols.initial.remakeAll tokens = tokens := by
  obtain ⟨found, cut⟩ := cut_exists [] text
  refine ((lexes_iff cut).mp h).printable ?_
  intro word member
  obtain ⟨next, inside, same⟩ := List.mem_map.mp member
  obtain ⟨rest, fits⟩ := cut.fits next inside
  rw [same] at fits
  cases fits with
  | word spelled _ => exact spelled

theorem lexes_spell {tokens : List Token} (h : Printable tokens) :
    Lexes (spell tokens) (Symbols.initial.remakeAll tokens) := by
  obtain ⟨found, cut, same⟩ := cuts_spell h.spellable []
  rw [lexes_iff cut, same]
  exact makesAll_lexemes h .initial

/-- Tokens that can be printed are read back, and every text that is lexed without an error is lexed
to such tokens; these come back with the same bindings. -/
theorem spelling_round_trip :
    (∀ tokens, Printable tokens → ∃ again, Lexes (spell tokens) again ∧
        List.Forall₂ (fun t u => t.sameText u = true) tokens again) ∧
      (∀ text tokens, Lexes text tokens → Printable tokens) ∧
      ∀ text tokens, Lexes text tokens → Lexes (spell tokens) tokens := by
  refine ⟨?_, fun text tokens h => (printable_of_lexes h).1, ?_⟩
  · intro tokens h
    exact ⟨_, lexes_spell h, Symbols.initial.remakeAll_sameText h.spellable⟩
  · intro text tokens h
    obtain ⟨printable, same⟩ := printable_of_lexes h
    have again := lexes_spell printable
    rw [same] at again
    exact again

end JamTokens
