import JamTokens.Lexer.Progress

/-!
# What a scanner has yet to read

The readings of a scanner are the outcomes of its calls up to the end of input,
each with the start that the scanner reports behind it.  Failures are among
them, since reading goes on behind a failure.

A scanner is settled if an end of input that was handed back is really the end
of its feed.  For a settled scanner a call takes the first of the readings and
leaves the others, and handing the lexeme back puts it in front again.
-/

set_option autoImplicit false

namespace JamTokens

/-- The outcome of one call of a scanner, and where the latest lexeme starts then. -/
abbrev Reading := Except Failure Lexeme × Position

/-! ## The end of a feed -/

namespace Feed

def Ended : Feed → Prop
  | [] => True
  | .close :: _ => True
  | _ => False

theorem Ended.eq {feed : Feed} (h : feed.Ended) : feed = [] ∨ ∃ rest, feed = .close :: rest := by
  cases feed with
  | nil => exact Or.inl rfl
  | cons signal rest =>
      cases signal with
      | char c => exact absurd h id
      | refill failure => exact absurd h id
      | close => exact Or.inr ⟨rest, rfl⟩

theorem takeGap_ended (inComment : Bool) {feed : Feed} (h : feed.Ended) :
    feed.takeGap inComment = ⟨[], none, feed⟩ := by
  rcases h.eq with rfl | ⟨rest, rfl⟩
  · cases inComment <;> rfl
  · cases inComment <;> rfl

theorem takeLine_ended {feed : Feed} (h : feed.Ended) : feed.takeLine = ⟨[], none, feed⟩ := by
  rcases h.eq with rfl | ⟨rest, rfl⟩
  · rfl
  · rfl

theorem takeGap_stops (inComment : Bool) (feed : Feed)
    (h : (feed.takeGap inComment).failure = none) :
    (∃ c rest, (feed.takeGap inComment).rest = .char c :: rest) ∨
      (feed.takeGap inComment).rest.Ended := by
  fun_induction takeGap inComment feed with
  | case1 c rest ih => exact ih h
  | case2 c rest blank ih => exact ih h
  | case3 c rest notBlank opens ih => exact ih h
  | case4 c rest notBlank notOpen => exact Or.inl ⟨c, rest, rfl⟩
  | case5 inComment rest ih => exact ih h
  | case6 inComment f rest => simp at h
  | case7 inComment rest => exact Or.inr trivial
  | case8 inComment => exact Or.inr trivial

end Feed

namespace Scanner

/-! ## Readings -/

/-- The calls of a scanner up to the end of input. -/
def readings (s : Scanner) : List Reading :=
  match _h : s.next with
  | (.error f, s') => (.error f, s'.start) :: readings s'
  | (.ok lexeme, s') =>
    if _more : lexeme = .endOfInput then [] else (.ok lexeme, s'.start) :: readings s'
termination_by s.work
decreasing_by
  all_goals
    obtain ⟨_, _, less⟩ := s.next_work
    rw [_h] at less
  · exact (less (by simp)).1
  · exact (less (by simpa using _more)).1

theorem readings_of_error {s s' : Scanner} {f : Failure} (h : s.next = (.error f, s')) :
    s.readings = (.error f, s'.start) :: s'.readings := by
  rw [readings]
  split
  · rename_i found
    rw [h] at found
    cases found
    rfl
  · rename_i found
    rw [h] at found
    cases found

theorem readings_of_ok {s s' : Scanner} {lexeme : Lexeme} (h : s.next = (.ok lexeme, s'))
    (more : lexeme ≠ .endOfInput) :
    s.readings = (.ok lexeme, s'.start) :: s'.readings := by
  rw [readings]
  split
  · rename_i found
    rw [h] at found
    cases found
  · rename_i found
    rw [h] at found
    cases found
    rw [dif_neg more]

theorem readings_of_end {s s' : Scanner} (h : s.next = (.ok .endOfInput, s')) :
    s.readings = [] := by
  rw [readings]
  split
  · rename_i found
    rw [h] at found
    cases found
  · rename_i found
    rw [h] at found
    cases found
    rw [dif_pos rfl]

/-! ## Settled scanners -/

/-- An end of input that was handed back is the end of the feed. -/
def Settled (s : Scanner) : Prop :=
  ∀ start, s.returned = some (.endOfInput, start) → s.cursor.feed.Ended

theorem settled_of_returned_none {s : Scanner} (h : s.returned = none) : s.Settled := by
  intro start found
  rw [h] at found
  cases found

theorem settled_ofFeed (feed : Feed) : (ofFeed feed).Settled := settled_of_returned_none rfl

theorem next_returned (s : Scanner) : s.next.2.returned = none := s.next_work.1

theorem returned_of_next {s s' : Scanner} {result : Except Failure Lexeme}
    (h : s.next = (result, s')) : s'.returned = none := by
  have returned := s.next_returned
  rwa [h] at returned

theorem settled_of_next {s s' : Scanner} {result : Except Failure Lexeme}
    (h : s.next = (result, s')) : s'.Settled := settled_of_returned_none (returned_of_next h)

theorem next_of_failed_gap {s : Scanner} {f : Failure} (h : s.returned = none)
    (failed : (s.cursor.feed.takeGap false).failure = some f) :
    s.next = (.error f, { s with cursor := s.cursor.pass (s.cursor.feed.takeGap false) }) := by
  simp [next, h, failed]

theorem next_of_gap {s : Scanner} (h : s.returned = none)
    (passed : (s.cursor.feed.takeGap false).failure = none) :
    s.next = { s with cursor := s.cursor.pass (s.cursor.feed.takeGap false) }.scan := by
  simp [next, h, passed]

theorem finish_ne_end (s : Scanner) (make : String → Lexeme) (run : Feed.Run)
    (proper : ∀ text, make text ≠ .endOfInput) : (s.finish make run).1 ≠ .ok .endOfInput := by
  unfold finish
  split
  · simp
  · simpa using proper _

theorem scan_char_ne_end {s : Scanner} {c : Char} {rest : Feed}
    (h : s.cursor.feed = .char c :: rest) : s.scan.1 ≠ .ok .endOfInput := by
  simp only [scan, h]
  split
  · exact finish_ne_end _ _ _ (by simp)
  · split
    · exact finish_ne_end _ _ _ (by simp)
    · simp

theorem scan_ended {s : Scanner} (h : s.cursor.feed.Ended) :
    s.scan = (.ok .endOfInput, { s with start := s.cursor.position }) := by
  rcases h.eq with bare | ⟨rest, closed⟩
  · simp [scan, bare]
  · simp [scan, closed]

theorem next_ended {s : Scanner} (h : s.returned = none) (ended : s.cursor.feed.Ended) :
    ∃ s', s.next = (.ok .endOfInput, s') := by
  have gap := Feed.takeGap_ended false ended
  have scanned := scan_ended (s := { s with cursor := s.cursor.pass ⟨[], none, s.cursor.feed⟩ }) ended
  rw [next_of_gap h (by rw [gap]), gap, scanned]
  exact ⟨_, rfl⟩

theorem next_end_ended {s s' : Scanner} (settled : s.Settled)
    (h : s.next = (.ok .endOfInput, s')) : s'.cursor.feed.Ended := by
  cases found : s.returned with
  | some back =>
      obtain ⟨lexeme, start⟩ := back
      simp only [next, found] at h
      cases h
      exact settled start found
  | none =>
      cases failed : (s.cursor.feed.takeGap false).failure with
      | some f =>
          rw [next_of_failed_gap found failed] at h
          cases h
      | none =>
          rw [next_of_gap found failed] at h
          rcases Feed.takeGap_stops false s.cursor.feed failed with ⟨c, rest, atChar⟩ | ended
          · have proper := scan_char_ne_end (s := { s with
              cursor := s.cursor.pass (s.cursor.feed.takeGap false) }) atChar
            rw [h] at proper
            exact absurd rfl proper
          · rw [scan_ended (by exact ended)] at h
            cases h
            exact ended

/-! ## How a call and a handing back change the readings -/

theorem readings_next_end {s s' : Scanner} (settled : s.Settled)
    (h : s.next = (.ok .endOfInput, s')) : s'.readings = [] := by
  have ended := next_end_ended settled h
  obtain ⟨s'', again⟩ := next_ended (returned_of_next h) ended
  exact readings_of_end again

theorem next_handBack {s : Scanner} (h : s.returned = none) (lexeme : Lexeme) :
    (s.handBack lexeme).next = (.ok lexeme, s) := by
  cases s
  simp_all [handBack, next]

theorem readings_handBack {s s' : Scanner} {lexeme : Lexeme} (h : s.next = (.ok lexeme, s')) :
    (s'.handBack lexeme).readings = s.readings := by
  have again := next_handBack (returned_of_next h) lexeme
  by_cases atEnd : lexeme = .endOfInput
  · subst atEnd
    rw [readings_of_end again, readings_of_end h]
  · rw [readings_of_ok again atEnd, readings_of_ok h atEnd]

theorem settled_handBack {s s' : Scanner} {lexeme : Lexeme} (settled : s.Settled)
    (h : s.next = (.ok lexeme, s')) : (s'.handBack lexeme).Settled := by
  intro start found
  have same : lexeme = .endOfInput := by
    simp only [handBack, Option.some.injEq, Prod.mk.injEq] at found
    exact found.1
  subst same
  have ended : s'.cursor.feed.Ended := next_end_ended settled h
  exact ended

end Scanner

end JamTokens
