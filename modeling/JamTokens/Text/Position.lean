/-!
# Positions

A position is a line and a column, both counted from one.  Columns count
characters, and only the line feed starts a new line.

How a counter goes on is left open.  It has no end unless said otherwise; a
counter of 32 bits comes round to zero.
-/

set_option autoImplicit false

namespace JamTokens

class Counting where
  succ : Nat → Nat

namespace Counting

instance endless : Counting := ⟨fun n => n + 1⟩

@[reducible] def wrapping : Counting := ⟨fun n => (UInt32.ofNat n + 1).toNat⟩

@[simp] theorem succ_endless (n : Nat) : succ n = n + 1 := rfl

theorem succ_wrapping (n : Nat) : @succ wrapping n = (n + 1) % UInt32.size := by
  have sum : @succ wrapping n = (UInt32.ofNat n + 1).toNat := rfl
  rw [sum, UInt32.toNat_add, UInt32.toNat_ofNat']
  exact Nat.mod_add_mod n UInt32.size 1

example : @succ wrapping 4294967295 = 0 := rfl

end Counting

structure Position where
  line : Nat
  column : Nat
  deriving DecidableEq, Repr, Inhabited

namespace Position

def start : Position := ⟨1, 1⟩

def text (p : Position) : String := s!"line {p.line}, column {p.column}"

variable [Counting]

/-- Where the next character stands after `c` at this position. -/
def step (p : Position) (c : Char) : Position :=
  if c = '\n' then ⟨Counting.succ p.line, 1⟩ else ⟨p.line, Counting.succ p.column⟩

/-- Where the next character stands after a whole text. -/
def after (p : Position) (text : List Char) : Position := text.foldl step p

@[simp] theorem after_nil (p : Position) : p.after [] = p := rfl

@[simp] theorem after_cons (p : Position) (c : Char) (text : List Char) :
    p.after (c :: text) = (p.step c).after text := rfl

theorem after_append (p : Position) (text more : List Char) :
    p.after (text ++ more) = (p.after text).after more := List.foldl_append

end Position

end JamTokens
