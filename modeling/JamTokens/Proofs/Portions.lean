import JamTokens.Proofs.Assembly
import JamTokens.Proofs.Lines

/-!
# Portions of a recovered reading

Reading that recovers from errors divides its readings into portions.  A token
is written for a portion, or an error drops it: the reading that is in error,
and everything behind it that starts no further down than what was looked at
last.  For a character that lacks its equals sign this is the follower, which
may stand on a later line.

A line is clean if no error is positioned on it.  The main result says exactly
when everything on clean lines is written: when no such follower stands on a
later line than the character in error.
-/

set_option autoImplicit false

namespace JamTokens

/-- A run of readings, and what becomes of them. -/
inductive Portion
  | written (token : Token) (start : Position) (readings : List Reading)
  | dropped (error : LexError) (readings : List Reading)

namespace Portion

def readings : Portion → List Reading
  | written _ _ readings => readings
  | dropped _ readings => readings

def kept : Portion → List Reading
  | written _ _ readings => readings
  | dropped _ _ => []

def error? : Portion → Option LexError
  | written .. => none
  | dropped error _ => some error

/-- An equals sign was looked for and something else found on a later line. -/
def crossesLine : Portion → Bool
  | dropped (.illegalOperatorSequence _ start) (_ :: follower :: _) => start.line < follower.2.line
  | _ => false

end Portion

/-- No error is positioned on the line where the reading starts. -/
def onCleanLine (errors : List LexError) (reading : Reading) : Bool :=
  errors.all fun e => e.position?.map Position.line != some reading.2.line

namespace Pending

/-! ## The division -/

/-- The line of what was looked at last when an error came up. -/
def reach (left : Pending) : LexError → Nat
  | .illegalOperatorSequence _ start =>
    match left.readings with
    | [] => start.line
    | (_, follower) :: _ => follower.line
  | .illegalCharacter _ start => start.line
  | .numericOverflow _ start => start.line
  | .input _ => 0

def resume (left : Pending) (e : LexError) : Pending :=
  { left with readings := left.readings.dropWhile fun reading => reading.2.line ≤ left.reach e }

def usedUp (p left : Pending) : List Reading :=
  p.readings.take (p.readings.length - left.readings.length)

theorem resume_suffix (left : Pending) (e : LexError) :
    (left.resume e).readings <:+ left.readings := List.dropWhile_suffix _

theorem usedUp_append {p left : Pending} (h : left.readings <:+ p.readings) :
    p.usedUp left ++ left.readings = p.readings := List.suffix_iff_eq_append.mp h

/-- The portions of a reading that recovers from every error. -/
def portions (p : Pending) : List Portion :=
  match _h : p.assemble with
  | (.ok none, _) => []
  | (.ok (some (token, start)), left) => .written token start (p.usedUp left) :: portions left
  | (.error e, left) => .dropped e (p.usedUp (left.resume e)) :: portions (left.resume e)
termination_by p.readings.length
decreasing_by
  all_goals
    have less := p.assemble_length (by simp [_h])
    rw [_h] at less
  · exact less
  · exact Nat.lt_of_le_of_lt (left.resume_suffix e).length_le less

theorem portions_of_end {p left : Pending} (h : p.assemble = (.ok none, left)) :
    p.portions = [] := by
  rw [portions]
  split <;> rename_i found <;> rw [h] at found <;> cases found

theorem portions_of_token {p left : Pending} {token : Token} {start : Position}
    (h : p.assemble = (.ok (some (token, start)), left)) :
    p.portions = .written token start (p.usedUp left) :: left.portions := by
  rw [portions]
  split <;> rename_i found <;> rw [h] at found <;> cases found
  rfl

theorem portions_of_error {p left : Pending} {e : LexError} (h : p.assemble = (.error e, left)) :
    p.portions = .dropped e (p.usedUp (left.resume e)) :: (left.resume e).portions := by
  rw [portions]
  split <;> rename_i found <;> rw [h] at found <;> cases found
  rfl

/-! ## Readings of a text -/

/-- Readings without failures, in the order of a text. -/
structure InText (p : Pending) : Prop where
  lexemes : ∀ reading ∈ p.readings, ∃ lexeme, reading.1 = .ok lexeme ∧ lexeme ≠ .endOfInput
  sorted : p.readings.Pairwise fun reading later => reading.2.Precedes later.2

theorem InText.of_suffix {p left : Pending} (h : p.InText) (suffix : left.readings <:+ p.readings) :
    left.InText where
  lexemes reading member := h.lexemes reading (suffix.subset member)
  sorted := h.sorted.sublist suffix.sublist

theorem InText.left {p left : Pending} {result : Except LexError (Option (Token × Position))}
    (h : p.InText) (made : p.assemble = (result, left)) : left.InText := by
  have suffix := p.assemble_suffix
  rw [made] at suffix
  exact h.of_suffix suffix

theorem InText.resume {p left : Pending} {e : LexError} (h : p.InText)
    (made : p.assemble = (.error e, left)) : (left.resume e).InText :=
  (h.left made).of_suffix (left.resume_suffix e)

theorem InText.readings_of_end {p left : Pending} (h : p.InText)
    (made : p.assemble = (.ok none, left)) : p.readings = [] := by
  obtain ⟨readings, symbols⟩ := p
  cases readings with
  | nil => rfl
  | cons reading rest =>
      obtain ⟨result, start⟩ := reading
      obtain ⟨lexeme, rfl, more⟩ := h.lexemes (result, start) (by simp)
      exact absurd (congrArg Prod.fst made) (assemble_ne_none symbols lexeme start rest more)

theorem pair_error {c : Char} {pairing : Pairing} {start : Position} {rest : List Reading}
    {e : LexError} (proper : ∀ reading ∈ rest, ∃ lexeme, reading.1 = .ok lexeme)
    (failed : (pair c pairing start rest).1 = .error e) :
    (pair c pairing start rest).2 = rest ∧ e.position? = some start := by
  have alone : ∀ follower, unaccompanied c pairing start follower = .error e →
      e.position? = some start := by
    intro follower failed
    unfold unaccompanied at failed
    split at failed <;> cases failed
    rfl
  cases rest with
  | nil => exact ⟨rfl, alone _ failed⟩
  | cons reading rest =>
      obtain ⟨result, next⟩ := reading
      obtain ⟨follower, rfl⟩ := proper (result, next) (by simp)
      simp only [pair] at failed ⊢
      by_cases equals : follower = .char '='
      · rw [if_pos equals] at failed
        cases failed
      · rw [if_neg equals] at failed ⊢
        exact ⟨rfl, alone _ failed⟩

theorem ofChar_error {c : Char} {start : Position} {rest : List Reading} {e : LexError}
    (proper : ∀ reading ∈ rest, ∃ lexeme, reading.1 = .ok lexeme)
    (failed : (ofChar c start rest).1 = .error e) :
    (ofChar c start rest).2 = rest ∧ e.position? = some start := by
  rw [ofChar_eq_table] at failed ⊢
  split at failed
  · cases failed
  · exact pair_error proper failed
  · cases failed
    exact ⟨rfl, rfl⟩

theorem ofLexeme_error {symbols : Symbols} {lexeme : Lexeme} {start : Position}
    {rest : List Reading} {e : LexError} (more : lexeme ≠ .endOfInput)
    (proper : ∀ reading ∈ rest, ∃ lexeme, reading.1 = .ok lexeme)
    (failed : (ofLexeme symbols lexeme start rest).1 = .error e) :
    (ofLexeme symbols lexeme start rest).2.readings = rest ∧ e.position? = some start := by
  cases lexeme with
  | endOfInput => exact absurd rfl more
  | word text => cases failed
  | number text =>
      refine ⟨rfl, ?_⟩
      unfold ofLexeme ofNumber at failed
      dsimp only at failed
      cases value : Literal.value? text.toList with
      | none =>
          rw [value] at failed
          cases failed
          rfl
      | some value' =>
          rw [value] at failed
          cases failed
  | char c =>
      unfold ofLexeme at failed ⊢
      dsimp only at failed ⊢
      cases made : (ofChar c start rest).1 with
      | ok token =>
          rw [made] at failed
          cases failed
      | error e' =>
          rw [made] at failed
          cases failed
          exact ofChar_error proper made

theorem InText.readings_of_error {p left : Pending} {e : LexError} (h : p.InText)
    (made : p.assemble = (.error e, left)) :
    ∃ lexeme start, p.readings = (.ok lexeme, start) :: left.readings ∧
      e.position? = some start := by
  obtain ⟨readings, symbols⟩ := p
  cases readings with
  | nil => cases made
  | cons reading rest =>
      obtain ⟨result, start⟩ := reading
      obtain ⟨lexeme, rfl, more⟩ := h.lexemes (result, start) (by simp)
      have proper : ∀ reading ∈ rest, ∃ lexeme, reading.1 = .ok lexeme := by
        intro reading member
        obtain ⟨lexeme, same, _⟩ := h.lexemes reading (List.mem_cons_of_mem _ member)
        exact ⟨lexeme, same⟩
      simp only [assemble, Prod.mk.injEq] at made
      obtain ⟨outcome, rfl⟩ := made
      cases found : (ofLexeme symbols lexeme start rest).1 with
      | ok token =>
          rw [found] at outcome
          cases outcome
      | error e' =>
          rw [found] at outcome
          cases outcome
          obtain ⟨same, position⟩ := ofLexeme_error more proper found
          exact ⟨lexeme, start, by rw [same], position⟩

/-! ## What an error drops -/

theorem InText.not_reached {left : Pending} (h : left.InText) (e : LexError) :
    ∀ reading ∈ (left.resume e).readings, left.reach e < reading.2.line := by
  intro reading member
  cases kept : (left.resume e).readings with
  | nil =>
      rw [kept] at member
      cases member
  | cons first rest =>
      have sorted := h.sorted.sublist (left.resume_suffix e).sublist
      have beyond : left.reach e < first.2.line := by
        have stop := List.head?_dropWhile_not
          (fun reading : Reading => decide (reading.2.line ≤ left.reach e)) left.readings
        rw [show left.readings.dropWhile _ = first :: rest from kept] at stop
        simpa using stop
      rw [kept] at member sorted
      rcases List.mem_cons.mp member with rfl | later
      · exact beyond
      · have order := (List.pairwise_cons.mp sorted).1 reading later
        exact Nat.lt_of_lt_of_le beyond order.line_le

/-- An error drops the lexeme that it is about and what its reach covers. -/
theorem InText.usedUp_of_error {p left : Pending} {e : LexError} (h : p.InText)
    (made : p.assemble = (.error e, left)) :
    ∃ lexeme start, e.position? = some start ∧
      p.readings = (.ok lexeme, start) :: left.readings ∧
      p.usedUp (left.resume e) = (.ok lexeme, start) ::
        left.readings.takeWhile (fun reading => reading.2.line ≤ left.reach e) := by
  obtain ⟨lexeme, start, spent, position⟩ := h.readings_of_error made
  refine ⟨lexeme, start, position, spent, ?_⟩
  have suffix : (left.resume e).readings <:+ p.readings := by
    rw [spent]
    exact (left.resume_suffix e).trans (List.suffix_cons _ _)
  have whole : p.usedUp (left.resume e) ++ (left.resume e).readings =
      (.ok lexeme, start) :: left.readings.takeWhile (fun reading =>
        reading.2.line ≤ left.reach e) ++ (left.resume e).readings := by
    rw [usedUp_append suffix, spent, List.cons_append]
    exact congrArg _ List.takeWhile_append_dropWhile.symm
  exact List.append_cancel_right whole

/-- An error reaches beyond its line exactly if its follower stands there, and then drops it. -/
theorem InText.reach_cases {p left : Pending} {e : LexError} (h : p.InText)
    (made : p.assemble = (.error e, left)) :
    ∃ start, e.position? = some start ∧
      (((Portion.dropped e (p.usedUp (left.resume e))).crossesLine = false ∧
          left.reach e = start.line) ∨
        ((Portion.dropped e (p.usedUp (left.resume e))).crossesLine = true ∧
          start.line < left.reach e ∧
          ∃ follower ∈ p.usedUp (left.resume e), follower.2.line = left.reach e)) := by
  obtain ⟨lexeme, start, position, spent, dropped⟩ := h.usedUp_of_error made
  refine ⟨start, position, ?_⟩
  rw [dropped]
  cases e with
  | numericOverflow literal q =>
      cases position
      exact Or.inl ⟨rfl, rfl⟩
  | illegalCharacter c q =>
      cases position
      exact Or.inl ⟨rfl, rfl⟩
  | input f => cases position
  | illegalOperatorSequence sequence q =>
      cases position
      have sorted := h.sorted
      rw [spent] at sorted
      cases behind : left.readings with
      | nil =>
          refine Or.inl ⟨rfl, ?_⟩
          simp [reach, behind]
      | cons follower rest =>
          have far : left.reach (.illegalOperatorSequence sequence start) = follower.2.line := by
            simp [reach, behind]
          have order := (List.pairwise_cons.mp sorted).1 follower (by simp [behind])
          rw [far, List.takeWhile_cons_of_pos (by simp)]
          by_cases below : start.line < follower.2.line
          · exact Or.inr ⟨decide_eq_true below, below, follower, by simp, rfl⟩
          · refine Or.inl ⟨decide_eq_false below, ?_⟩
            exact Nat.le_antisymm (Nat.le_of_not_lt below) order.line_le

theorem InText.le_reach {p left : Pending} {e : LexError} {start : Position} (h : p.InText)
    (made : p.assemble = (.error e, left)) (position : e.position? = some start) :
    start.line ≤ left.reach e := by
  obtain ⟨start', position', cases⟩ := h.reach_cases made
  rw [position] at position'
  cases position'
  rcases cases with ⟨_, same⟩ | ⟨_, less, _⟩
  · exact Nat.le_of_eq same.symm
  · exact Nat.le_of_lt less

theorem InText.line_of_mem_dropped {p left : Pending} {e : LexError} {start : Position}
    (h : p.InText) (made : p.assemble = (.error e, left)) (position : e.position? = some start) :
    ∀ reading ∈ p.usedUp (left.resume e),
      start.line ≤ reading.2.line ∧ reading.2.line ≤ left.reach e := by
  obtain ⟨lexeme, start', position', spent, dropped⟩ := h.usedUp_of_error made
  rw [position] at position'
  cases position'
  have sorted := h.sorted
  rw [spent] at sorted
  intro reading member
  rw [dropped] at member
  rcases List.mem_cons.mp member with rfl | later
  · exact ⟨Nat.le_refl _, h.le_reach made position⟩
  · have inside := (List.takeWhile_prefix _).subset later
    have order := (List.pairwise_cons.mp sorted).1 reading inside
    have covered := List.all_eq_true.1 List.all_takeWhile reading later
    exact ⟨order.line_le, of_decide_eq_true covered⟩

/-! ## All portions -/

theorem portions_readings (p : Pending) (h : p.InText) :
    p.portions.flatMap Portion.readings = p.readings := by
  fun_induction portions p with
  | case1 p left made =>
      rw [h.readings_of_end made]
      rfl
  | case2 p token start left made ih =>
      have suffix := p.assemble_suffix
      rw [made] at suffix
      rw [List.flatMap_cons, ih (h.left made)]
      exact usedUp_append suffix
  | case3 p e left made ih =>
      have suffix := p.assemble_suffix
      rw [made] at suffix
      rw [List.flatMap_cons, ih (h.resume made)]
      exact usedUp_append ((left.resume_suffix e).trans suffix)

theorem position_of_mem_errors {p : Pending} (h : p.InText) :
    ∀ e ∈ p.portions.filterMap Portion.error?, ∃ reading ∈ p.readings,
      e.position? = some reading.2 := by
  fun_induction portions p with
  | case1 p left made =>
      intro e member
      cases member
  | case2 p token start left made ih =>
      intro e member
      obtain ⟨reading, inside, position⟩ := ih (h.left made) e member
      have suffix := p.assemble_suffix
      rw [made] at suffix
      exact ⟨reading, suffix.subset inside, position⟩
  | case3 p e left made ih =>
      intro e' member
      obtain ⟨lexeme, start, spent, position⟩ := h.readings_of_error made
      rcases List.mem_cons.mp member with rfl | later
      · exact ⟨(.ok lexeme, start), by rw [spent]; simp, position⟩
      · obtain ⟨reading, inside, position'⟩ := ih (h.resume made) e' later
        refine ⟨reading, ?_, position'⟩
        rw [spent]
        exact List.mem_cons_of_mem _ ((left.resume_suffix e).subset inside)

theorem dropped_not_clean {p : Pending} (h : p.InText)
    (stay : ∀ portion ∈ p.portions, portion.crossesLine = false) :
    ∀ e readings, Portion.dropped e readings ∈ p.portions → ∀ reading ∈ readings,
      e.position?.map Position.line = some reading.2.line := by
  fun_induction portions p with
  | case1 p left made =>
      intro e readings member
      cases member
  | case2 p token start left made ih =>
      intro e readings member
      rcases List.mem_cons.mp member with same | later
      · cases same
      · exact ih (h.left made) (fun portion inside => stay portion (List.mem_cons_of_mem _ inside))
          e readings later
  | case3 p e left made ih =>
      intro e' readings member reading inside
      rcases List.mem_cons.mp member with same | later
      · cases same
        obtain ⟨start, position, ⟨_, reach⟩ | ⟨crosses, _⟩⟩ := h.reach_cases made
        · obtain ⟨low, high⟩ := h.line_of_mem_dropped made position reading inside
          rw [reach] at high
          rw [position, Option.map_some, Nat.le_antisymm low high]
        · rw [stay _ (by simp)] at crosses
          cases crosses
      · exact ih (h.resume made) (fun portion inside => stay portion (List.mem_cons_of_mem _ inside))
          e' readings later reading inside

theorem onCleanLine_cons {e : LexError} {errors : List LexError} {reading : Reading}
    (other : e.position?.map Position.line ≠ some reading.2.line)
    (clean : onCleanLine errors reading = true) : onCleanLine (e :: errors) reading = true := by
  rw [onCleanLine, List.all_cons, Bool.and_eq_true]
  exact ⟨by simpa using other, clean⟩

/-- An error that reaches beyond its line drops its follower from a clean line. -/
theorem clean_of_crossesLine {p : Pending} (h : p.InText) :
    ∀ portion ∈ p.portions, portion.crossesLine = true →
      ∃ e readings, portion = .dropped e readings ∧ ∃ reading ∈ readings,
        onCleanLine (p.portions.filterMap Portion.error?) reading = true := by
  fun_induction portions p with
  | case1 p left made =>
      intro portion member
      cases member
  | case2 p token start left made ih =>
      intro portion member crosses
      rcases List.mem_cons.mp member with rfl | later
      · cases crosses
      · exact ih (h.left made) portion later crosses
  | case3 p e left made ih =>
      intro portion member crosses
      obtain ⟨start, position, cases⟩ := h.reach_cases made
      rcases List.mem_cons.mp member with rfl | later
      · rcases cases with ⟨stays, _⟩ | ⟨_, less, follower, inside, far⟩
        · rw [stays] at crosses
          cases crosses
        · refine ⟨e, _, rfl, follower, inside, ?_⟩
          apply onCleanLine_cons
          · rw [position, Option.map_some, far]
            exact fun same => Nat.ne_of_lt less (Option.some.inj same)
          · -- the later errors stand below everything that this one reaches
            rw [onCleanLine, List.all_eq_true]
            intro e' member'
            obtain ⟨reading, below, position'⟩ := position_of_mem_errors (h.resume made) e' member'
            have beyond := (h.left made).not_reached e reading below
            simp only [position', Option.map_some, bne_iff_ne, ne_eq, Option.some.injEq]
            omega
      · obtain ⟨e', readings, rfl, reading, inside, clean⟩ :=
          ih (h.resume made) portion later crosses
        refine ⟨e', readings, rfl, reading, inside, onCleanLine_cons ?_ clean⟩
        -- whatever a later error drops stands below everything that this one reaches
        have among : reading ∈ (left.resume e).readings := by
          rw [← portions_readings _ (h.resume made)]
          exact List.mem_flatMap.mpr ⟨_, later, inside⟩
        have beyond := (h.left made).not_reached e reading among
        have reached := h.le_reach made position
        rw [position, Option.map_some]
        intro same
        have on_line := Option.some.inj same
        omega

/-! ## When clean lines are written -/

def written (p : Pending) : List Reading := p.portions.flatMap Portion.kept

theorem filter_sublist_kept (clean : Reading → Bool) : ∀ (portions : List Portion),
    (∀ e readings, Portion.dropped e readings ∈ portions → ∀ reading ∈ readings,
      clean reading = false) →
    ((portions.flatMap Portion.readings).filter clean).Sublist (portions.flatMap Portion.kept) := by
  intro portions
  induction portions with
  | nil => exact fun _ => .slnil
  | cons portion portions ih =>
      intro lost
      have behind := ih fun e readings member => lost e readings (List.mem_cons_of_mem _ member)
      rw [List.flatMap_cons, List.flatMap_cons, List.filter_append]
      refine List.Sublist.append ?_ behind
      cases portion with
      | written token start readings => exact List.filter_sublist
      | dropped e readings =>
          have none : readings.filter clean = [] := by
            rw [List.filter_eq_nil_iff]
            intro reading member
            rw [lost e readings (by simp) reading member]
            exact Bool.false_ne_true
          exact List.sublist_nil.mpr none

theorem kept_subset (portions : List Portion) :
    portions.flatMap Portion.kept ⊆ portions.flatMap Portion.readings := by
  intro reading member
  obtain ⟨portion, inside, found⟩ := List.mem_flatMap.mp member
  refine List.mem_flatMap.mpr ⟨portion, inside, ?_⟩
  cases portion with
  | written token start readings => exact found
  | dropped e readings => cases found

theorem not_mem_kept_of_dropped : ∀ (portions : List Portion) (e : LexError)
    (readings : List Reading), (portions.flatMap Portion.readings).Nodup →
    Portion.dropped e readings ∈ portions → ∀ reading ∈ readings,
      reading ∉ portions.flatMap Portion.kept := by
  intro portions
  induction portions with
  | nil =>
      intro e readings _ member
      cases member
  | cons portion portions ih =>
      intro e readings distinct member reading inside
      rw [List.flatMap_cons] at distinct ⊢
      obtain ⟨_, behind, apart⟩ := List.nodup_append.mp distinct
      rw [List.mem_append, not_or]
      rcases List.mem_cons.mp member with rfl | later
      · refine ⟨List.not_mem_nil, ?_⟩
        intro also
        exact apart reading inside reading (kept_subset portions also) rfl
      · refine ⟨?_, ih e readings behind later reading inside⟩
        intro also
        have here : reading ∈ [portion].flatMap Portion.readings := by
          apply kept_subset
          simpa using also
        have there : reading ∈ portions.flatMap Portion.readings :=
          List.mem_flatMap.mpr ⟨_, later, inside⟩
        exact apart reading (by simpa using here) reading there rfl

theorem InText.nodup {p : Pending} (h : p.InText) : p.readings.Nodup := by
  refine h.sorted.imp ?_
  intro reading later order same
  exact order.ne (congrArg Prod.snd same)

/-- All readings on clean lines are written, in order, exactly if no error reaches beyond its
line. -/
theorem clean_sublist_written_iff {p : Pending} (h : p.InText) :
    (p.readings.filter (onCleanLine (p.portions.filterMap Portion.error?))).Sublist p.written ↔
      ∀ portion ∈ p.portions, portion.crossesLine = false := by
  constructor
  · intro all portion member
    cases crosses : portion.crossesLine with
    | false => rfl
    | true =>
        obtain ⟨e, readings, rfl, reading, inside, clean⟩ :=
          clean_of_crossesLine h portion member crosses
        have whole := portions_readings p h
        have among : reading ∈ p.readings := by
          rw [← whole]
          exact List.mem_flatMap.mpr ⟨_, member, inside⟩
        have kept := all.subset (List.mem_filter.mpr ⟨among, clean⟩)
        have distinct := h.nodup
        rw [← whole] at distinct
        exact absurd kept (not_mem_kept_of_dropped p.portions e readings distinct member reading inside)
  · intro stay
    rw [← portions_readings p h]
    apply filter_sublist_kept
    intro e readings member reading inside
    have on_line := dropped_not_clean h stay e readings member reading inside
    rw [onCleanLine, List.all_eq_false]
    exact ⟨e, List.mem_filterMap.mpr ⟨_, member, rfl⟩, by simp [on_line]⟩

end Pending

end JamTokens
