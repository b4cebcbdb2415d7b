import JamTokens.Proofs.Scanning
import Mathlib.Data.List.TakeWhile

/-!
# Cutting at line feeds

No gap and no lexeme goes beyond a line feed that ends the text before it.  So
the cut of a text is the cut of its first line followed by the cut of the other
lines, and dropping the rest of a line drops the lexemes that start on it.
-/

set_option autoImplicit false

namespace JamTokens

open CharClass

/-! ## The order of positions -/

namespace Position

def Precedes (p q : Position) : Prop := p.line < q.line ∨ p.line = q.line ∧ p.column < q.column

theorem Precedes.trans {p q r : Position} (h : p.Precedes q) (h' : q.Precedes r) :
    p.Precedes r := by
  unfold Precedes at *
  omega

theorem Precedes.ne {p q : Position} (h : p.Precedes q) : p ≠ q := by
  rintro rfl
  unfold Precedes at h
  omega

theorem Precedes.line_le {p q : Position} (h : p.Precedes q) : p.line ≤ q.line := by
  unfold Precedes at h
  omega

theorem precedes_step (p : Position) (c : Char) : p.Precedes (p.step c) := by
  unfold step Precedes
  split
  · exact Or.inl (Nat.lt_succ_self _)
  · exact Or.inr ⟨rfl, Nat.lt_succ_self _⟩

theorem precedes_after (p : Position) (c : Char) : ∀ (text : List Char),
    p.Precedes (p.after (c :: text)) := by
  intro text
  induction text generalizing p c with
  | nil => exact p.precedes_step c
  | cons d text ih => exact (p.precedes_step c).trans (ih (p.step c) d)

theorem line_after (p : Position) : ∀ (text : List Char),
    (p.after text).line = p.line + text.count '\n' := by
  intro text
  induction text generalizing p with
  | nil => rfl
  | cons c text ih =>
      rw [after_cons, ih, List.count_cons, step]
      by_cases newline : c = '\n'
      · simp [newline]
        omega
      · simp [newline]

theorem line_after_of_not_mem (p : Position) {text : List Char} (h : '\n' ∉ text) :
    (p.after text).line = p.line := by
  rw [line_after, List.count_eq_zero.mpr h]
  rfl

end Position

namespace Grammar

/-! ## Gaps and lexemes at the end of a line -/

def EndsLine (text : List Char) : Prop := text.getLast? = some '\n'

theorem endsLine_append (front : List Char) {back : List Char} (proper : back ≠ []) :
    EndsLine (front ++ back) ↔ EndsLine back := by
  cases back with
  | nil => exact absurd rfl proper
  | cons c back => rw [EndsLine, EndsLine, List.getLast?_append, List.getLast?_cons, Option.some_or]

theorem EndsLine.newline_mem {text : List Char} (h : EndsLine text) : '\n' ∈ text :=
  List.mem_of_getLast? h

theorem Gap.append {gap more rest : List Char} (h : Gap gap (more ++ rest)) (h' : Gap more rest) :
    Gap (gap ++ more) rest := by
  generalize target : more ++ rest = behind at h
  induction h with
  | nil _ => exact h'
  | blank blank _ ih => exact .blank blank (ih target)
  | @comment body gap _ line _ ih =>
      have whole := Gap.comment line (ih target)
      rw [List.cons_append, List.cons_append, List.append_assoc]
      exact whole
  | lastComment line =>
      obtain ⟨rfl, rfl⟩ := List.append_eq_nil_iff.mp target
      rw [List.append_nil]
      exact .lastComment line

/-- Only a comment that the text ends with depends on what stands behind the gap. -/
theorem Gap.extend {gap rest : List Char} (h : Gap gap rest) (more : List Char)
    (proper : rest ≠ []) : Gap gap (rest ++ more) := by
  induction h with
  | nil rest => exact .nil _
  | blank blank _ ih => exact .blank blank (ih proper)
  | comment line _ ih => exact .comment line (ih proper)
  | lastComment _ => exact absurd rfl proper

/-- A gap that ends with a line feed has no comment open. -/
theorem Gap.closed {gap : List Char} (h : Gap gap []) (ends : EndsLine gap) (rest : List Char) :
    Gap gap rest := by
  generalize target : [] = behind at h
  induction h with
  | nil _ => exact .nil rest
  | @blank c gap _ blank inner ih =>
      by_cases bare : gap = []
      · subst bare
        exact .blank blank (.nil rest)
      · exact .blank blank (ih ((endsLine_append [c] bare).mp ends) target)
  | @comment body gap _ line inner ih =>
      by_cases bare : gap = []
      · subst bare
        exact .comment line (.nil rest)
      · have split : '/' :: '/' :: (body ++ '\n' :: gap) = ('/' :: '/' :: (body ++ ['\n'])) ++ gap := by
          simp
        rw [split, endsLine_append _ bare] at ends
        exact .comment line (ih ends target)
  | @lastComment body line =>
      have last := ends.newline_mem
      simp only [List.mem_cons] at last
      rcases last with slash | slash | member
      · exact absurd slash (by decide)
      · exact absurd slash (by decide)
      · exact absurd member line

theorem Fits.extend {lexeme : Lexeme} {rest : List Char} (h : Fits lexeme rest) (more : List Char)
    (proper : rest ≠ []) : Fits lexeme (rest ++ more) := by
  have head : (rest ++ more).head? = rest.head? := by
    cases rest with
    | nil => exact absurd rfl proper
    | cons c rest => rfl
  cases h with
  | word valid stop => exact .word valid (by rwa [head])
  | number valid stop point => exact .number valid (by rwa [head]) (by rwa [head])
  | char blank start digit point slash =>
      exact .char blank start digit (by rwa [head]) (by rwa [head])

theorem newline_not_mem_word {text : List Char} (h : IsWord text) : '\n' ∉ text := by
  obtain ⟨c, rest, rfl, begins, inside⟩ := h
  intro member
  rcases List.mem_cons.mp member with rfl | later
  · exact absurd begins (by decide)
  · exact absurd (inside _ later) (by decide)

theorem newline_not_mem_digits {text : List Char} (h : IsDigits text) : '\n' ∉ text := by
  intro member
  exact absurd (h _ member) (by decide)

theorem newline_not_mem_number {text : List Char} (h : IsNumber text) : '\n' ∉ text := by
  cases h with
  | whole _ digits => exact newline_not_mem_digits digits
  | pointed _ digits fraction =>
      simp [newline_not_mem_digits digits, newline_not_mem_digits fraction]
  | fraction _ digits => simp [newline_not_mem_digits digits]

theorem Fits.newline_not_mem {lexeme : Lexeme} {rest : List Char} (h : Fits lexeme rest) :
    '\n' ∉ lexeme.text.toList := by
  cases h with
  | word valid _ => exact newline_not_mem_word valid
  | number valid _ _ => exact newline_not_mem_number valid
  | @char c _ blank _ _ _ _ =>
      rw [Lexeme.text, String.toList_singleton, List.mem_singleton]
      rintro rfl
      exact absurd blank (by decide)

/-! ## Cuts of several lines -/

theorem Cut.gap_append {before gap rest : List Char} {lexemes : List (Lexeme × Position)}
    (valid : Gap gap rest) (h : Cut (before ++ gap) rest lexemes) :
    Cut before (gap ++ rest) lexemes := by
  cases h with
  | done more =>
      refine .done (Gap.append ?_ more)
      rwa [List.append_nil]
  | @lexeme _ more rest lexeme lexemes more_valid fits cut =>
      rw [List.append_assoc] at valid
      rw [← List.append_assoc, ← List.append_assoc, List.append_assoc before gap more]
      refine .lexeme (Gap.append valid more_valid) fits ?_
      rw [← List.append_assoc before gap more]
      exact cut

theorem Cut.append {before first second : List Char} {lexemes more : List (Lexeme × Position)}
    (h : Cut before first lexemes) (ends : EndsLine first)
    (h' : Cut (before ++ first) second more) :
    Cut before (first ++ second) (lexemes ++ more) := by
  induction h with
  | done valid => exact .gap_append (valid.closed ends second) h'
  | @lexeme before gap rest lexeme lexemes valid fits _ ih =>
      -- no lexeme contains the line feed, so it stands behind this one
      have proper : rest ≠ [] := by
        rintro rfl
        rw [List.append_nil, endsLine_append _ fits.stops.1] at ends
        exact fits.newline_not_mem ends.newline_mem
      rw [endsLine_append _ proper] at ends
      have behind := ih ends (by simpa using h')
      rw [List.append_assoc, List.cons_append]
      refine .lexeme ?_ (fits.extend second proper) behind
      rw [← List.append_assoc]
      exact valid.extend second (by simp [proper])

/-! ## Where lexemes start -/

theorem Cut.start {before text : List Char} {lexemes : List (Lexeme × Position)}
    (h : Cut before text lexemes) : ∀ found ∈ lexemes,
      ∃ front back, text = front ++ back ∧ back ≠ [] ∧
        found.2 = (Position.behind before).after front := by
  induction h with
  | done _ =>
      intro found member
      cases member
  | @lexeme before gap rest lexeme lexemes valid fits _ ih =>
      intro found member
      rcases List.mem_cons.mp member with rfl | later
      · refine ⟨gap, lexeme.text.toList ++ rest, by simp, by simp [fits.stops.1], ?_⟩
        rw [← Position.behind_append]
      · obtain ⟨front, back, rfl, proper, start⟩ := ih found later
        refine ⟨gap ++ lexeme.text.toList ++ front, back, by simp, proper, ?_⟩
        rw [start, ← Position.behind_append, ← Position.behind_append]
        simp

theorem Cut.sorted {before text : List Char} {lexemes : List (Lexeme × Position)}
    (h : Cut before text lexemes) :
    lexemes.Pairwise fun found later => found.2.Precedes later.2 := by
  induction h with
  | done _ => exact .nil
  | @lexeme before gap rest lexeme lexemes valid fits cut ih =>
      refine .cons ?_ ih
      intro later member
      obtain ⟨front, _, _, _, start⟩ := cut.start later member
      have further : later.2 =
          (Position.behind (before ++ gap)).after (lexeme.text.toList ++ front) := by
        rw [start, ← Position.behind_append, ← Position.behind_append]
        simp
      rw [further]
      cases spelled : lexeme.text.toList with
      | nil => exact absurd spelled fits.stops.1
      | cons c body => exact Position.precedes_after _ c _

theorem Cut.line_eq {before text : List Char} {lexemes : List (Lexeme × Position)}
    (h : Cut before text lexemes) (line : '\n' ∉ text.dropLast) :
    ∀ found ∈ lexemes, found.2.line = (Position.behind before).line := by
  intro found member
  obtain ⟨front, back, rfl, proper, start⟩ := h.start found member
  rw [List.dropLast_append_of_ne_nil proper] at line
  rw [start]
  apply Position.line_after_of_not_mem
  exact fun inside => line (List.mem_append_left _ inside)

theorem Cut.line_le {before text : List Char} {lexemes : List (Lexeme × Position)}
    (h : Cut before text lexemes) :
    ∀ found ∈ lexemes, (Position.behind before).line ≤ found.2.line := by
  intro found member
  obtain ⟨front, _, _, _, start⟩ := h.start found member
  rw [start, Position.line_after]
  exact Nat.le_add_right _ _

/-! ## Dropping a line -/

/-- Behind its first line a text is cut as what is left of its lexemes. -/
theorem Cut.drop_line {before line rest : List Char} {lexemes : List (Lexeme × Position)}
    (h : Cut before (line ++ '\n' :: rest) lexemes) (one : '\n' ∉ line) :
    Cut (before ++ (line ++ ['\n'])) rest
      (lexemes.dropWhile fun found => found.2.line ≤ (Position.behind before).line) := by
  obtain ⟨first, cut⟩ := cut_exists before (line ++ ['\n'])
  obtain ⟨later, cut'⟩ := cut_exists (before ++ (line ++ ['\n'])) rest
  have ends : EndsLine (line ++ ['\n']) := by simp [EndsLine]
  have whole := cut.append ends cut'
  rw [List.append_assoc, List.singleton_append] at whole
  have here : ∀ found ∈ first, decide (found.2.line ≤ (Position.behind before).line) = true := by
    intro found member
    have same := cut.line_eq (by simpa using one) found member
    exact decide_eq_true (Nat.le_of_eq same)
  have below : ∀ found ∈ later, ¬ found.2.line ≤ (Position.behind before).line := by
    intro found member
    have further := cut'.line_le found member
    rw [Position.behind_append, Position.line_after, List.count_append] at further
    simp only [List.count_singleton_self] at further
    omega
  have kept : (later.dropWhile fun found => found.2.line ≤ (Position.behind before).line) = later := by
    rw [List.dropWhile_eq_self_iff]
    intro proper
    simpa using below _ (List.getElem_mem proper)
  rw [h.unique whole, List.dropWhile_append_of_pos here, kept]
  exact cut'

theorem Cut.drop_last_line {before line : List Char} {lexemes : List (Lexeme × Position)}
    (h : Cut before line lexemes) (one : '\n' ∉ line) :
    (lexemes.dropWhile fun found => found.2.line ≤ (Position.behind before).line) = [] := by
  rw [List.dropWhile_eq_nil_iff]
  intro found member
  have same := h.line_eq (fun inside => one (List.dropLast_subset _ inside)) found member
  exact decide_eq_true (Nat.le_of_eq same)

end Grammar

end JamTokens
