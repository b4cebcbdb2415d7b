import JamTokens.Lexer.Progress

/-!
# Reading to the end of input

The tokens and errors that a lexer meets from where it stands to the end of
its input.  After an error reading stops, goes on right away, or goes on
behind the end of the line; then a failing flush is one more error.
-/

set_option autoImplicit false

namespace JamTokens

inductive Item
  | token (t : Token) (start : Position)
  | error (e : LexError)
  deriving DecidableEq, Repr

inductive OnError
  | stop | readOn | flush
  deriving DecidableEq, Repr

namespace Lexer

variable [Counting]

/-- One step of an iteration over the tokens; nothing at the end of input. -/
def next (l : Lexer) : Option (Except LexError Token) × Lexer :=
  match l.read with
  | (.ok (some t), l) => (some (.ok t), l)
  | (.ok none, l) => (none, l)
  | (.error e, l) => (some (.error e), l)

def items (policy : OnError) (l : Lexer) : List Item × Lexer :=
  match _h : l.read with
  | (.ok none, l') => ([], l')
  | (.ok (some t), l') =>
    let (rest, last) := items policy l'
    (.token t l'.position :: rest, last)
  | (.error e, l') =>
    match policy with
    | .stop => ([.error e], l')
    | .readOn =>
      let (rest, last) := items policy l'
      (.error e :: rest, last)
    | .flush =>
      let errors := match l'.flush.1 with
        | .ok () => [.error e]
        | .error e' => [.error e, .error e']
      let (rest, last) := items policy l'.flush.2
      (errors ++ rest, last)
termination_by l.work
decreasing_by
  all_goals
    have hread := l.read_work_lt (by simp [_h])
    rw [_h] at hread
  · exact hread
  · exact hread
  · exact Nat.lt_of_le_of_lt l'.flush_work_le hread

end Lexer

end JamTokens
