import JamTokens.Proofs.Lines
import JamTokens.Proofs.MovingOn

/-!
# The feed of a text

The feed of a text is made line by line: each line begins with a refill and
ends right behind its line feed.  So a source that goes on behind a line feed
has the feeds of both parts, one after the other, whatever comes second; and
what is left of the feed of a text behind any line feed is the feed of the rest
of that text.
-/

set_option autoImplicit false

namespace JamTokens

open Grammar

/-! ## Texts by lines -/

/-- What is proved of every text line by line; the last line may lack its line feed. -/
@[elab_as_elim]
theorem lines_induction {motive : List Char → Prop} (nil : motive [])
    (lastLine : ∀ line, line ≠ [] → '\n' ∉ line → motive line)
    (line : ∀ line rest, '\n' ∉ line → motive rest → motive (line ++ '\n' :: rest)) :
    ∀ text, motive text := by
  intro text
  generalize size : text.length = n
  induction n using Nat.strongRecOn generalizing text with
  | ind n ih =>
      rcases comment_split text with one | ⟨front, rest, one, rfl⟩
      · by_cases bare : text = []
        · rw [bare]
          exact nil
        · exact lastLine text bare one
      · refine line front rest one (ih rest.length ?_ rest rfl)
        rw [← size, List.length_append, List.length_cons]
        omega

def behindLine : List Char → List Char
  | [] => []
  | c :: rest => if c = '\n' then rest else behindLine rest

theorem behindLine_line {line : List Char} (one : '\n' ∉ line) (rest : List Char) :
    behindLine (line ++ '\n' :: rest) = rest := by
  induction line with
  | nil => rfl
  | cons c line ih =>
      obtain ⟨other, others⟩ := List.ne_and_not_mem_of_not_mem_cons one
      rw [List.cons_append, behindLine, if_neg other.symm, ih others]

theorem behindLine_lastLine {line : List Char} (one : '\n' ∉ line) : behindLine line = [] := by
  induction line with
  | nil => rfl
  | cons c line ih =>
      obtain ⟨other, others⟩ := List.ne_and_not_mem_of_not_mem_cons one
      rw [behindLine, if_neg other.symm, ih others]

theorem Position.after_endsLine {text : List Char} (ends : EndsLine text) (p : Position) :
    p.after text = ⟨p.line + text.count '\n', 1⟩ := by
  obtain ⟨front, rfl⟩ := List.getLast?_eq_some_iff.mp ends
  rw [after_append, List.count_append, ← Nat.add_assoc, ← line_after]
  rfl

/-! ## Sources that go on behind a line feed -/

namespace Source

theorem feedFrom_append (front rest : Source) (collected : List UInt8) :
    feedFrom collected (front ++ .byte 10 :: rest) =
      feedFrom collected (front ++ [.byte 10]) ++ feedFrom [] rest := by
  induction front generalizing collected with
  | nil => simp [feedFrom]
  | cons event front ih =>
      cases event with
      | byte b => by_cases newline : b = 10 <;> simp [feedFrom, newline, ih]
      | pause => by_cases nothing : collected = [] <;> simp [feedFrom, nothing, ih]
      | failure f => by_cases again : f.kind = .interrupted <;> simp [feedFrom, again, ih]

theorem ofText_append (text more : List Char) : ofText (text ++ more) = ofText text ++ ofText more := by
  simp [ofText, ofBytes, Utf8.encode_append]

theorem ofText_endsLine {text : List Char} (ends : EndsLine text) :
    ∃ front : Source, ofText text = front ++ [.byte 10] := by
  obtain ⟨front, rfl⟩ := List.getLast?_eq_some_iff.mp ends
  exact ⟨ofText front, ofText_append front ['\n']⟩

/-- What follows a line feed is read as if nothing had been before it. -/
theorem feed_append {text : List Char} (ends : EndsLine text) (rest : Source) :
    (ofText text ++ rest).feed = (ofText text).feed ++ rest.feed := by
  obtain ⟨front, whole⟩ := ofText_endsLine ends
  rw [whole, List.append_assoc]
  exact feedFrom_append front rest []

theorem feed_nil : (ofText []).feed = [] := rfl

theorem newline_not_mem_encode {line : List Char} (one : '\n' ∉ line) : 10 ∉ Utf8.encode line := by
  intro member
  obtain ⟨c, inside, byte⟩ := List.mem_flatMap.mp member
  exact one (Utf8.newline_of_mem byte ▸ inside)

theorem feed_lastLine {line : List Char} (proper : line ≠ []) (one : '\n' ∉ line) :
    (ofText line).feed = .refill none :: Feed.ofText line := by
  have collected := feedFrom_bytes [] (Utf8.encode line) [] (newline_not_mem_encode one)
  rw [List.append_nil, List.append_nil] at collected
  have some_byte : (Utf8.encode line).reverse ≠ [] := by
    cases line with
    | nil => exact absurd rfl proper
    | cons c line => simp [Utf8.encode_cons, String.utf8EncodeChar_ne_nil]
  rw [feed, ofText, collected, feedFrom, if_neg some_byte, List.reverse_reverse, segment_encode]

theorem feed_line {line : List Char} (one : '\n' ∉ line) (rest : List Char) :
    (ofText (line ++ '\n' :: rest)).feed =
      .refill none :: (Feed.ofText (line ++ ['\n']) ++ (ofText rest).feed) := by
  have collected :=
    feedFrom_bytes (ofText ('\n' :: rest)) (Utf8.encode line) [] (newline_not_mem_encode one)
  rw [List.append_nil] at collected
  rw [feed, ofText_append, ofText, collected, ofText_cons, Utf8.encodeChar_newline, feedFrom_newline]
  rfl

theorem chars_feed (text : List Char) : (ofText text).feed.chars = text := by
  induction text using lines_induction with
  | nil => rfl
  | lastLine line proper one =>
      rw [feed_lastLine proper one, Feed.chars_refill, Feed.chars_ofText]
  | line line rest one ih =>
      rw [feed_line one, Feed.chars_refill, Feed.chars_append, Feed.chars_ofText, ih]
      exact (List.append_cons line '\n' rest).symm

/-! ## What is left of the feed of a text -/

theorem signal_of_mem_feed {text : List Char} {signal : Signal} (h : signal ∈ (ofText text).feed) :
    signal = .refill none ∨ ∃ c, signal = .char c := by
  have ofText : ∀ line : List Char, signal ∈ Feed.ofText line → ∃ c, signal = .char c := by
    intro line member
    obtain ⟨c, _, rfl⟩ := List.mem_map.mp member
    exact ⟨c, rfl⟩
  induction text using lines_induction with
  | nil => cases h
  | lastLine line proper one =>
      rw [feed_lastLine proper one] at h
      exact (List.mem_cons.mp h).imp_right (ofText line)
  | line line rest one ih =>
      rw [feed_line one] at h
      rcases List.mem_cons.mp h with first | h
      · exact Or.inl first
      · exact (List.mem_append.mp h).elim (fun inside => Or.inr (ofText _ inside)) ih

/-- Behind any line feed there is left what a source of the rest alone would feed. -/
theorem feed_behind_newline {text : List Char} {rest : Feed}
    (h : .char '\n' :: rest <:+ (ofText text).feed) : rest = (ofText rest.chars).feed := by
  have other : ∀ line : List Char, '\n' ∉ line → .char '\n' ∉ Signal.refill none :: Feed.ofText line := by
    intro line one member
    rcases List.mem_cons.mp member with refill | member
    · cases refill
    · obtain ⟨c, inside, same⟩ := List.mem_map.mp member
      cases same
      exact one inside
  induction text using lines_induction with
  | nil => exact absurd (List.suffix_nil.mp h) (by simp)
  | lastLine line proper one =>
      rw [feed_lastLine proper one] at h
      exact absurd (h.subset (by simp)) (other line one)
  | line line more one ih =>
      have whole : (ofText (line ++ '\n' :: more)).feed =
          (Signal.refill none :: Feed.ofText line) ++ .char '\n' :: (ofText more).feed := by
        rw [feed_line one]
        simp [Feed.ofText]
      obtain ⟨front, split⟩ := h
      rw [whole] at split
      -- the line feed of the suffix is the one that ends this line, or lies further on
      rcases List.append_eq_append_iff.mp split with ⟨gap, first, second⟩ | ⟨gap, first, second⟩
      · cases gap with
        | nil =>
            cases second
            rw [chars_feed]
        | cons signal gap =>
            cases second
            exact absurd (first ▸ List.mem_append_right front List.mem_cons_self) (other line one)
      · cases gap with
        | nil =>
            cases second
            rw [chars_feed]
        | cons signal gap =>
            obtain ⟨-, further⟩ := List.cons.inj second
            exact ih ⟨gap, further.symm⟩

theorem takeLine_of_suffix {text : List Char} {feed : Feed} (h : feed <:+ (ofText text).feed) :
    feed.takeLine.failure = none ∧
      feed.takeLine.rest = (ofText (behindLine feed.chars)).feed := by
  fun_induction Feed.takeLine feed with
  | case1 rest => exact ⟨rfl, feed_behind_newline h⟩
  | case2 c rest other ih =>
      rw [Feed.chars_char, behindLine, if_neg other]
      exact ih ((List.suffix_cons _ _).trans h)
  | case3 rest ih => exact ih ((List.suffix_cons _ _).trans h)
  | case4 f rest =>
      rcases signal_of_mem_feed (h.subset List.mem_cons_self) with same | ⟨c, same⟩
      · cases same
      · cases same
  | case5 rest =>
      rcases signal_of_mem_feed (h.subset List.mem_cons_self) with same | ⟨c, same⟩
      · cases same
      · cases same
  | case6 => exact ⟨rfl, rfl⟩

end Source

/-- A cursor that has moved on over a text stands behind some of it, with the rest before it. -/
theorem Cursor.MovesTo.of_text {text : List Char} {c : Cursor}
    (h : (Cursor.ofSource (.ofText text)).MovesTo c) :
    c.feed <:+ (Source.ofText text).feed ∧
      ∃ before, text = before ++ c.feed.chars ∧ c.position = .behind before := by
  refine ⟨h.suffix, ?_⟩
  obtain ⟨front, feed, position⟩ := h
  refine ⟨front.chars, ?_, ?_⟩
  · rw [← Feed.chars_append, ← feed]
    exact (Source.chars_feed text).symm
  · rw [position, ← List.nil_append front.chars, Position.behind_append, List.nil_append]
    rfl

end JamTokens
