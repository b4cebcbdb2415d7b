import JamTokens.Proofs.Recounting

/-!
# Reading further down

One lexer is below another if it has the same before it and knows the same
symbols, but counts its lines from further down.  Both then return the same
tokens and the same errors, the lower one with its lines counted from there.
-/

set_option autoImplicit false

namespace JamTokens

namespace Position

/-- The same column, some lines further down. -/
def lower (lines : Nat) (p : Position) : Position := ⟨p.line + lines, p.column⟩

theorem step_lower (lines : Nat) (p : Position) (c : Char) :
    (p.lower lines).step c = (p.step c).lower lines := by
  unfold step lower
  split
  · simp only [Counting.succ_endless]
    rw [Nat.add_right_comm]
  · rfl

end Position

def Recount.lowering (lines : Nat) : Recount where
  here := .endless
  there := .endless
  place := .lower lines
  step := Position.step_lower lines

def LexError.lower (lines : Nat) : LexError → LexError := recount (.lowering lines)

def Item.lower (lines : Nat) : Item → Item := recount (.lowering lines)

namespace Lexer

abbrev Below (lines : Nat) (upper lower : Lexer) : Prop := Recounted (.lowering lines) upper lower

variable {lines : Nat} {upper lower : Lexer}

theorem below_flush (h : Below lines upper lower) :
    lower.flush.1 = upper.flush.1.mapError (LexError.lower lines) ∧
      Below lines upper.flush.2 lower.flush.2 := by
  obtain ⟨result, lexer⟩ := recounted_flush h
  rw [Except.map_id] at result
  exact ⟨result, lexer⟩

theorem below_items (h : Below lines upper lower) :
    (lower.items .readOn).1 = (upper.items .readOn).1.map (Item.lower lines) ∧
      (lower.items .readOn).2.symbols = (upper.items .readOn).2.symbols :=
  recounted_items h

end Lexer

end JamTokens
