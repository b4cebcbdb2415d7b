/-!
# Paths

A path is a sequence of parts, read from the root or from the working
directory.  A path that ends in a slash can only name a directory.
-/

set_option autoImplicit false

namespace JamTokens

inductive PathPart
  | current
  | parent
  | name (s : String)
  deriving DecidableEq, Repr

structure Path where
  absolute : Bool
  parts : List PathPart
  endsInSlash : Bool
  deriving DecidableEq, Repr

namespace Path

def partOf (s : String) : PathPart :=
  if s = "." then .current
  else if s = ".." then .parent
  else .name s

/-- Reads a path; slashes side by side count as one. -/
def ofString (s : String) : Path where
  absolute := s.toList.head? = some '/'
  parts := ((s.splitOn "/").filter (· ≠ "")).map partOf
  endsInSlash := s.toList.getLast? = some '/'

def partText : PathPart → String
  | .current => "."
  | .parent => ".."
  | .name s => s

def text (p : Path) : String :=
  (if p.absolute then "/" else "") ++ "/".intercalate (p.parts.map partText) ++
    (if p.endsInSlash && !p.parts.isEmpty then "/" else "")

/-- The path of no parts that starts nowhere. -/
def isEmpty (p : Path) : Bool := !p.absolute && p.parts.isEmpty

/-- The parts without those that stay where they are, except at the head of a
relative path. -/
def properParts (p : Path) : List PathPart :=
  let proper := p.parts.filter (· ≠ .current)
  if !p.absolute && p.parts.head? = some .current then .current :: proper else proper

def parent? (p : Path) : Option Path :=
  if p.properParts = [] then none else some ⟨p.absolute, p.properParts.dropLast, false⟩

theorem properParts_length (p : Path) : p.properParts.length ≤ p.parts.length := by
  have hle := List.length_filter_le (fun x => decide (x ≠ PathPart.current)) p.parts
  unfold properParts
  simp only []
  split
  · rename_i h
    simp only [Bool.and_eq_true, decide_eq_true_eq] at h
    obtain ⟨rest, hrest⟩ : ∃ rest, p.parts = .current :: rest := by
      cases hp : p.parts with
      | nil => simp [hp] at h
      | cons x rest => exact ⟨rest, by simp [hp] at h; rw [h.2]⟩
    rw [hrest]
    simp
    exact List.length_filter_le ..
  · exact hle

theorem parent?_length {p q : Path} (h : p.parent? = some q) :
    q.parts.length < p.parts.length := by
  unfold parent? at h
  split at h
  · simp at h
  · rename_i hne
    have hlen := p.properParts_length
    have hpos := List.length_pos_iff.2 hne
    cases h
    simp only [List.length_dropLast]
    omega

end Path

end JamTokens
