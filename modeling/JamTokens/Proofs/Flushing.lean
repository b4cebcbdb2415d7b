import JamTokens.Proofs.Lines

/-!
# What a flush drops

While a scanner reads a text, its cursor stands on the line on which its latest
lexeme starts, and so does a lexeme that was handed back.  A flush drops the
rest of that line: of all that the scanner has yet to read, exactly the lexemes
that start no further down than its cursor stands.
-/

set_option autoImplicit false

namespace JamTokens

open Grammar

namespace Feed

/-! ## Taking a line -/

theorem takeLine_line (rest : List Char) : ∀ (line : List Char) (feed : Feed), '\n' ∉ line →
    Delivers feed (line ++ '\n' :: rest) →
    ∃ left, feed.takeLine = ⟨line ++ ['\n'], none, left⟩ ∧ Delivers left rest := by
  intro line
  induction line with
  | nil =>
      intro feed _ delivers
      obtain ⟨left, filled, -, behind⟩ := delivers.fill_cons
      exact ⟨left, by rw [takeLine_fill filled, takeLine, if_pos rfl]; rfl, behind⟩
  | cons c line ih =>
      intro feed one delivers
      obtain ⟨other, others⟩ := List.ne_and_not_mem_of_not_mem_cons one
      obtain ⟨next, filled, -, behind⟩ := delivers.fill_cons
      obtain ⟨left, taken, after⟩ := ih next others behind
      refine ⟨left, ?_, after⟩
      rw [takeLine_fill filled, takeLine, if_neg other.symm, taken]
      rfl

theorem takeLine_lastLine : ∀ (line : List Char) (feed : Feed), '\n' ∉ line →
    Delivers feed line → ∃ left, feed.takeLine = ⟨line, none, left⟩ ∧ left.Ended := by
  intro line
  induction line with
  | nil =>
      intro feed _ delivers
      obtain ⟨left, filled, ended⟩ := delivers.fill_nil
      refine ⟨left, ?_, ended⟩
      rw [takeLine_fill filled]
      rcases ended.eq with rfl | ⟨rest, rfl⟩
      · rfl
      · rfl
  | cons c line ih =>
      intro feed one delivers
      obtain ⟨other, others⟩ := List.ne_and_not_mem_of_not_mem_cons one
      obtain ⟨next, filled, -, behind⟩ := delivers.fill_cons
      obtain ⟨left, taken, ended⟩ := ih next others behind
      refine ⟨left, ?_, ended⟩
      rw [takeLine_fill filled, takeLine, if_neg other.symm, taken]
      rfl

end Feed

namespace Scanner

/-! ## Scanners that read a text -/

/-- What holds of a scanner while it reads a text. -/
structure OnText (s : Scanner) : Prop where
  settled : s.Settled
  delivers : ∃ before rest,
    s.cursor.position = .behind before ∧ Feed.Delivers s.cursor.feed rest
  returned : ∀ lexeme start, s.returned = some (lexeme, start) → lexeme ≠ .endOfInput →
    start.line = s.line

theorem onText_ofText (text : List Char) : (ofSource (.ofText text)).OnText where
  settled := settled_ofFeed _
  delivers := ⟨[], text, rfl, Source.ofText_delivers text⟩
  returned _ _ found := by cases found

theorem onText_of_delivers {feed : Feed} {before rest : List Char} (start : Position)
    (h : Feed.Delivers feed rest) : OnText ⟨⟨feed, .behind before⟩, none, start⟩ where
  settled := settled_of_returned_none rfl
  delivers := ⟨before, rest, rfl, h⟩
  returned _ _ found := by cases found

theorem onText_next {s : Scanner} (h : s.OnText) :
    ∃ lexeme s', s.next = (.ok lexeme, s') ∧ s'.OnText ∧
      (lexeme ≠ .endOfInput → s'.start.line = s'.line) := by
  obtain ⟨before, rest, position, delivers⟩ := h.delivers
  rcases found : s.returned with _ | ⟨lexeme, start⟩
  · obtain ⟨lexemes, cut⟩ := cut_exists before rest
    cases cut with
    | done valid =>
        obtain ⟨left, ended, called⟩ := next_nothing found valid delivers
        refine ⟨_, _, called, ?_, fun more => absurd rfl more⟩
        rw [position, ← Position.behind_append]
        exact onText_of_delivers _ (.ended ended)
    | @lexeme _ gap rest lexeme lexemes valid fits _ =>
        rw [List.append_assoc] at delivers
        obtain ⟨left, after, called⟩ := next_fits found valid fits delivers
        refine ⟨_, _, called, ?_, fun _ => ?_⟩
        · rw [position, ← Position.behind_append, ← Position.behind_append]
          exact onText_of_delivers _ after
        · simp only [line, Position.after_append]
          exact (Position.line_after_of_not_mem _ fits.newline_not_mem).symm
  · refine ⟨lexeme, { s with returned := none, start := start }, by simp [next, found], ?_,
      fun more => h.returned lexeme start found more⟩
    refine ⟨settled_of_returned_none rfl, h.delivers, ?_⟩
    intro _ _ nothing
    cases nothing

theorem onText_handBack {s s' : Scanner} {lexeme : Lexeme} (h : s.OnText)
    (called : s.next = (.ok lexeme, s')) : (s'.handBack lexeme).OnText := by
  obtain ⟨lexeme', s'', called', onText, line⟩ := onText_next h
  rw [called] at called'
  cases called'
  refine ⟨settled_handBack h.settled called, onText.delivers, ?_⟩
  intro other start found more
  cases found
  exact line more

/-! ## The flush -/

/-- In front of the rest of the text there is at most a lexeme on the line of the cursor. -/
theorem readings_onText {s : Scanner} {before rest : List Char} {lexemes : List (Lexeme × Position)}
    (h : s.OnText) (position : s.cursor.position = .behind before)
    (delivers : Feed.Delivers s.cursor.feed rest) (cut : Cut before rest lexemes) :
    ∃ front : List Reading, (∀ reading ∈ front, reading.2.line = s.line) ∧
      s.readings = front ++ lexemes.map fun found => (.ok found.1, found.2) := by
  rcases found : s.returned with _ | ⟨lexeme, start⟩
  · exact ⟨[], by simp, readings_of_cut cut s found position delivers⟩
  · have called : s.next = (.ok lexeme, { s with returned := none, start := start }) := by
      simp [next, found]
    by_cases atEnd : lexeme = .endOfInput
    · -- an end of input that was handed back leaves no text
      subst atEnd
      have bare := delivers.of_ended (h.settled start found)
      subst bare
      have nothing : lexemes = [] := cut.unique (.done (.nil []))
      subst nothing
      exact ⟨[], by simp, readings_of_end called⟩
    · refine ⟨[(.ok lexeme, start)], ?_, ?_⟩
      · simpa using h.returned lexeme start found atEnd
      · rw [readings_of_ok called atEnd]
        exact congrArg _ (readings_of_cut cut _ rfl position delivers)

theorem flush_of_takeLine {s : Scanner} {run : Feed.Run} (h : s.cursor.feed.takeLine = run)
    (passed : run.failure = none) :
    s.flush = (.ok (), ⟨s.cursor.pass run, none, s.start⟩) := by
  subst h
  simp [flush, Cursor.skipLine, passed]

/-- A flush drops what starts no further down than the cursor stands, and nothing else. -/
theorem onText_flush {s : Scanner} (h : s.OnText) :
    ∃ s', s.flush = (.ok (), s') ∧ s'.OnText ∧
      s'.readings = s.readings.dropWhile fun reading => reading.2.line ≤ s.line := by
  obtain ⟨before, rest, position, delivers⟩ := h.delivers
  obtain ⟨lexemes, cut⟩ := cut_exists before rest
  obtain ⟨front, here, readings⟩ := readings_onText h position delivers cut
  have start : s.line = (Position.behind before).line := congrArg Position.line position
  have dropped : (s.readings.dropWhile fun reading => reading.2.line ≤ s.line) =
      (lexemes.dropWhile fun found => found.2.line ≤ (Position.behind before).line).map
        fun found => (.ok found.1, found.2) := by
    rw [readings, List.dropWhile_append_of_pos, List.dropWhile_map, start]
    · rfl
    · intro reading member
      exact decide_eq_true (Nat.le_of_eq (here reading member))
  rcases comment_split rest with one | ⟨line, rest, one, rfl⟩
  · obtain ⟨left, taken, ended⟩ := Feed.takeLine_lastLine rest s.cursor.feed one delivers
    refine ⟨_, flush_of_takeLine taken rfl, ?_, ?_⟩
    · rw [Cursor.pass, position, ← Position.behind_append]
      exact onText_of_delivers _ (.ended ended)
    · rw [dropped, cut.drop_last_line one]
      obtain ⟨s', finished⟩ := next_ended (s := ⟨s.cursor.pass ⟨rest, none, left⟩, none, s.start⟩)
        rfl ended
      exact readings_of_end finished
  · obtain ⟨left, taken, behind⟩ := Feed.takeLine_line rest line s.cursor.feed one delivers
    refine ⟨_, flush_of_takeLine taken rfl, ?_, ?_⟩
    · rw [Cursor.pass, position, ← Position.behind_append]
      exact onText_of_delivers _ behind
    · rw [dropped]
      refine readings_of_cut (cut.drop_line one) _ rfl ?_ behind
      rw [Cursor.pass, position, ← Position.behind_append]

end Scanner

end JamTokens
