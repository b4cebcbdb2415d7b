import JamTokens.Proofs.Constants
import JamTokens.Proofs.Interning
import JamTokens.Proofs.LexemeTexts

/-!
# The texts of tokens

The text of every token that a lexer returns consists of graphic characters of
ASCII, at least one of them.  So no such text has a blank or a line end in it,
although an identifier that is made in another way may have.
-/

set_option autoImplicit false

namespace JamTokens

open CharClass

/-- The characters of ASCII that can be seen. -/
def CharClass.isGraphic (c : Char) : Bool := '!' ≤ c && c ≤ '~'

theorem isGraphic_of_le {c low high : Char} (h : low ≤ c) (h' : c ≤ high) (first : '!' ≤ low)
    (last : high ≤ '~') : isGraphic c = true := by
  simp only [isGraphic, Bool.and_eq_true, decide_eq_true_eq]
  exact ⟨Char.le_trans first h, Char.le_trans h' last⟩

theorem isGraphic_of_isDigit {c : Char} (h : isDigit c = true) : isGraphic c = true := by
  obtain ⟨low, high⟩ := isDigit_iff.mp h
  exact isGraphic_of_le low high (by decide) (by decide)

theorem isGraphic_of_isWordChar {c : Char} (h : isWordChar c = true) : isGraphic c = true := by
  rcases isWordChar_iff.mp h with lower | upper | rfl | rfl | digit
  · exact isGraphic_of_le lower.1 lower.2 (by decide) (by decide)
  · exact isGraphic_of_le upper.1 upper.2 (by decide) (by decide)
  · decide
  · decide
  · exact isGraphic_of_le digit.1 digit.2 (by decide) (by decide)

def Token.Legible (t : Token) : Prop :=
  t.text.toList ≠ [] ∧ ∀ c ∈ t.text.toList, isGraphic c = true

namespace Token

instance (t : Token) : Decidable t.Legible :=
  decidable_of_iff (t.text.toList ≠ [] ∧ t.text.toList.all isGraphic = true)
    (and_congr_right fun _ => List.all_eq_true)

theorem legible_intConstant (n : Nat) : (intConstant n).Legible := by
  obtain ⟨some, digits⟩ := isDigits_toString n
  exact ⟨some, fun c member => isGraphic_of_isDigit (digits c member)⟩

theorem legible_resolve {text : String} (h : (Lexeme.word text).Proper) (symbols : Symbols) :
    (symbols.resolve text).1.Legible := by
  rw [Legible, symbols.resolve_text text]
  exact ⟨h.1, fun c member => isGraphic_of_isWordChar (h.2 c member)⟩

theorem legible_ofChar? {c : Char} {t : Token} (h : ofChar? c = some t) : t.Legible := by
  unfold ofChar? at h
  split at h <;> cases h <;> decide

end Token

theorem Pairing.legible_ofChar? {c : Char} {pairing : Pairing} (h : ofChar? c = some pairing) :
    pairing.paired.Legible ∧ ∀ t ∈ pairing.single, t.Legible := by
  unfold ofChar? at h
  split at h <;> cases h <;> decide

/-! ## The tokens of a lexer -/

namespace Lexer

def Legible (result : Except LexError (Option Token)) : Prop :=
  ∀ t, result = .ok (some t) → t.Legible

theorem pair_legible {l l' : Lexer} {c : Char} {pairing : Pairing} {start : Position} {t : Token}
    (pairs : Pairing.ofChar? c = some pairing) (h : l.pair c pairing start = (.ok t, l')) :
    t.Legible := by
  obtain ⟨paired, single⟩ := Pairing.legible_ofChar? pairs
  unfold pair at h
  split at h
  · cases h
  · split at h
    · cases h
      exact paired
    · dsimp only at h
      split at h
      · rename_i token alone
        cases h
        exact single t alone
      · cases h

theorem ofChar_legible {l l' : Lexer} {c : Char} {start : Position} {t : Token}
    (h : l.ofChar c start = (.ok t, l')) : t.Legible := by
  unfold ofChar at h
  split at h
  · rename_i token own
    cases h
    exact Token.legible_ofChar? own
  · split at h
    · rename_i pairing pairs
      exact pair_legible pairs h
    · cases h

theorem ofLexeme_legible (l : Lexer) {lexeme : Lexeme} (proper : lexeme.Proper) (start : Position) :
    Legible (l.ofLexeme lexeme start).1 := by
  intro t made
  cases lexeme with
  | endOfInput => cases made
  | word text =>
      cases made
      exact Token.legible_resolve proper l.symbols
  | number text =>
      unfold ofLexeme at made
      dsimp only at made
      split at made
      · cases made
        exact Token.legible_intConstant _
      · cases made
  | char c =>
      unfold ofLexeme at made
      dsimp only at made
      rcases called : l.ofChar c start with ⟨e | token, l'⟩
      · rw [called] at made
        cases made
      · rw [called] at made
        cases made
        exact ofChar_legible called

theorem assemble_legible {l : Lexer} (orderly : l.scanner.Orderly) {t : Token} {start : Position}
    (h : l.assemble.1 = .ok (some (t, start))) : t.Legible := by
  unfold assemble at h
  rcases called : l.scanner.next with ⟨f | lexeme, s⟩
  · rw [called] at h
    cases h
  · have legible :=
      ofLexeme_legible { l with scanner := s } (Scanner.next_proper orderly called) s.start
    rw [called] at h
    dsimp only at h
    rcases made : ofLexeme { l with scanner := s } lexeme s.start with ⟨e | (_ | token), l'⟩ <;>
      rw [made] at h legible <;> cases h
    exact legible t rfl

/-! ## Sessions -/

structure Clear (l : Lexer) : Prop where
  orderly : l.scanner.Orderly
  peeked : ∀ next ∈ l.peeked, next.1.Legible

theorem clear_ofSource (source : Source) : (ofSource source).Clear :=
  ⟨Scanner.orderly_of_returned_none rfl, nofun⟩

theorem call_legible {l : Lexer} (h : l.Clear) (c : Call) : Legible (l.call c).1 := by
  intro t returned
  by_cases drops : c = .flush
  · subst drops
    unfold call at returned
    cases flushed : l.flush.1 <;> rw [flushed] at returned <;> cases returned
  · cases looked : l.peeked with
    | some next =>
        have called : (l.call c).1 = .ok (some next.1) := by
          cases c with
          | read => simp only [call, read, looked]
          | peek => simp only [call, peek, looked]
          | flush => exact absurd rfl drops
        cases called.symm.trans returned
        exact h.peeked next looked
    | none =>
        rw [(call_assembles looked drops).1] at returned
        rcases made : l.assemble.1 with e | (_ | ⟨token, start⟩) <;> rw [made] at returned <;>
          cases returned
        exact assemble_legible h.orderly made

theorem call_clear {l : Lexer} (h : l.Clear) (c : Call) : (l.call c).2.Clear := by
  refine ⟨call_orderly h.orderly c, ?_⟩
  intro next found
  cases looked : l.peeked with
  | some earlier =>
      cases c with
      | read => cases l.read_peeked.symm.trans found
      | flush => cases l.flush_peeked.symm.trans found
      | peek =>
          simp only [call, peek, looked] at found
          exact h.peeked next (looked.trans found)
  | none => exact call_legible h c next.1 (call_keeps looked found).2

theorem read_clear {l l' : Lexer} (h : l.Clear) {result : Except LexError (Option Token)}
    (called : l.read = (result, l')) : l'.Clear := by
  have clear : l.read.2.Clear := call_clear h .read
  rwa [called] at clear

theorem afterCalls_clear {l : Lexer} (h : l.Clear) (calls : List Call) :
    (l.afterCalls calls).Clear := by
  induction calls generalizing l with
  | nil => exact h
  | cons c calls ih => exact ih (call_clear h c)

end Lexer

end JamTokens
