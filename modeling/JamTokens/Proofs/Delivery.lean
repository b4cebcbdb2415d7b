import JamTokens.Proofs.Readings

/-!
# The text that a feed delivers

A feed delivers a text if asking again and again yields its characters, no
failure, and then the end.  Where the buffer ends in between makes no
difference to a scanner, except between two characters that it has to see side
by side: two slashes, or a point and a digit.

A source of text in UTF-8 delivers that text.  Its buffer ends behind line
feeds only, so such characters are never parted.
-/

set_option autoImplicit false

namespace JamTokens

open CharClass

/-- The second character decides what the first one is. -/
def Decides (c d : Char) : Prop := (c = '/' ∧ d = '/') ∨ (c = '.' ∧ isDigit d = true)

namespace Feed

/-- A character that decides what `c` is lies in the buffer with it. -/
def Joins (c : Char) (rest : Feed) (text : List Char) : Prop :=
  ∀ d, text.head? = some d → Decides c d → rest.head? = some (.char d)

inductive Delivers : Feed → List Char → Prop
  | ended {feed : Feed} : feed.Ended → Delivers feed []
  | refill {feed : Feed} {text : List Char} :
      Delivers feed text → Delivers (.refill none :: feed) text
  | char {c : Char} {feed : Feed} {text : List Char} :
      Joins c feed text → Delivers feed text → Delivers (.char c :: feed) (c :: text)

/-! ## Filling the buffer -/

theorem Ended.fill {feed : Feed} (h : feed.Ended) : feed.fill = (none, feed) := by
  rcases h.eq with rfl | ⟨rest, rfl⟩
  · rfl
  · rfl

theorem Delivers.fill_nil {feed : Feed} (h : feed.Delivers []) :
    ∃ rest, feed.fill = (none, rest) ∧ rest.Ended := by
  generalize target : ([] : List Char) = text at h
  induction h with
  | ended finished => exact ⟨_, finished.fill, finished⟩
  | refill _ ih => exact ih target
  | char _ _ _ => cases target

theorem Delivers.fill_cons {feed : Feed} {c : Char} {text : List Char}
    (h : feed.Delivers (c :: text)) :
    ∃ rest, feed.fill = (none, .char c :: rest) ∧ Joins c rest text ∧ Delivers rest text := by
  generalize target : c :: text = all at h
  induction h with
  | ended _ => cases target
  | refill _ ih => exact ih target
  | char joins behind _ =>
      cases target
      exact ⟨_, rfl, joins, behind⟩

theorem Delivers.of_ended {feed : Feed} {text : List Char} (h : Delivers feed text)
    (finished : feed.Ended) : text = [] := by
  cases h with
  | ended _ => rfl
  | refill _ => exact absurd finished id
  | char _ _ => exact absurd finished id

theorem Delivers.head_of_char {c : Char} {feed : Feed} {text : List Char}
    (h : Delivers feed text) (first : feed.head? = some (.char c)) : text.head? = some c := by
  obtain ⟨rest, rfl⟩ := List.head?_eq_some_iff.mp first
  cases h with
  | ended finished => exact absurd finished id
  | char _ _ => rfl

theorem takeGap_fill {feed rest : Feed} (inComment : Bool) (h : feed.fill = (none, rest)) :
    feed.takeGap inComment = rest.takeGap inComment := by
  fun_induction fill feed with
  | case1 feed ih =>
      rw [takeGap]
      exact ih h
  | case2 f feed => cases h
  | case3 feed _ _ =>
      cases h
      rfl

theorem takeSteps_fill {σ : Type} (step : σ → Char → Option σ) (state : σ) {feed rest : Feed}
    (h : feed.fill = (none, rest)) : feed.takeSteps step state = rest.takeSteps step state := by
  fun_induction fill feed with
  | case1 feed ih =>
      rw [takeSteps]
      exact ih h
  | case2 f feed => cases h
  | case3 feed _ _ =>
      cases h
      rfl

theorem takeLine_fill {feed rest : Feed} (h : feed.fill = (none, rest)) :
    feed.takeLine = rest.takeLine := by
  fun_induction fill feed with
  | case1 feed ih =>
      rw [takeLine]
      exact ih h
  | case2 f feed => cases h
  | case3 feed _ _ =>
      cases h
      rfl

/-! ## Putting segments together -/

/-- A segment in front, unless its seam parts two characters that belong together. -/
theorem Delivers.append {feed : Feed} {text : List Char} (h : feed.Delivers text) :
    ∀ (front : List Char),
      (∀ c d, front.getLast? = some c → text.head? = some d → ¬ Decides c d) →
      Delivers (ofText front ++ feed) (front ++ text) := by
  intro front
  induction front with
  | nil => exact fun _ => h
  | cons c front ih =>
      intro seam
      cases front with
      | nil =>
          refine .char ?_ h
          intro d first decides
          exact absurd decides (seam c d rfl first)
      | cons d front =>
          refine .char ?_ (ih (by simpa using seam))
          intro e first _
          cases first
          rfl

theorem Delivers.append_line {feed : Feed} {text line : List Char} (h : feed.Delivers text) :
    Delivers (ofText (line ++ ['\n']) ++ feed) (line ++ ['\n'] ++ text) := by
  apply h.append
  intro c d last _ decides
  rw [List.getLast?_append, List.getLast?_singleton, Option.some_or, Option.some.injEq] at last
  subst last
  rcases decides with ⟨slash, _⟩ | ⟨point, _⟩
  · exact absurd slash (by decide)
  · exact absurd point (by decide)

theorem delivers_ofText (text : List Char) : Delivers (ofText text) text := by
  have finished : Delivers [] [] := .ended trivial
  have whole := finished.append text (by simp)
  rwa [List.append_nil, List.append_nil] at whole

end Feed

/-! ## The byte of the line feed -/

namespace Utf8

@[simp] theorem encodeChar_newline : String.utf8EncodeChar '\n' = [10] := by decide

theorem newline_ne_byte (n width low : Nat) (bound : 128 ≤ low) (fits : width + low ≤ 256)
    (proper : 0 < width) : 10 ≠ UInt8.ofNat (n % width + low) := by
  have less : n % width + low < 256 := by
    have := Nat.mod_lt n proper
    omega
  intro same
  have value := congrArg UInt8.toNat same
  rw [UInt8.toNat_ofNat_of_lt' less, show (10 : UInt8).toNat = 10 from rfl] at value
  omega

theorem newline_ne_continuation (n : Nat) : 10 ≠ UInt8.ofNat (n % 0x40 + 0x80) :=
  newline_ne_byte n 0x40 0x80 (by decide) (by decide) (by decide)

/-- The byte of the line feed occurs in no other character. -/
theorem newline_of_mem {c : Char} (h : 10 ∈ String.utf8EncodeChar c) : c = '\n' := by
  unfold String.utf8EncodeChar at h
  dsimp only at h
  split at h
  · rename_i ascii
    rw [List.mem_singleton] at h
    have value := congrArg UInt8.toNat h
    rw [UInt8.toNat_ofNat_of_lt' (Nat.lt_of_le_of_lt ascii (by decide))] at value
    exact Char.ext (UInt32.toNat_inj.mp value.symm)
  · exfalso
    revert h
    split
    · simp only [List.mem_cons, List.not_mem_nil, or_false, not_or, imp_false]
      exact ⟨newline_ne_byte _ 0x20 0xc0 (by decide) (by decide) (by decide),
        newline_ne_continuation _⟩
    · split
      · simp only [List.mem_cons, List.not_mem_nil, or_false, not_or, imp_false]
        exact ⟨newline_ne_byte _ 0x10 0xe0 (by decide) (by decide) (by decide),
          newline_ne_continuation _, newline_ne_continuation _⟩
      · simp only [List.mem_cons, List.not_mem_nil, or_false, not_or, imp_false]
        exact ⟨newline_ne_byte _ 0x08 0xf0 (by decide) (by decide) (by decide),
          newline_ne_continuation _, newline_ne_continuation _, newline_ne_continuation _⟩

end Utf8

/-! ## Sources of text -/

namespace Source

theorem segment_encode (text : List Char) :
    segment (Utf8.encode text) none = .refill none :: Feed.ofText text := by
  simp [segment]

theorem feedFrom_bytes (rest : Source) : ∀ (bytes collected : List UInt8), 10 ∉ bytes →
    feedFrom collected (ofBytes bytes ++ rest) = feedFrom (bytes.reverse ++ collected) rest := by
  intro bytes
  induction bytes with
  | nil =>
      intro collected _
      rfl
  | cons b bytes ih =>
      intro collected h
      obtain ⟨other, others⟩ := List.ne_and_not_mem_of_not_mem_cons h
      have step : feedFrom collected (ofBytes (b :: bytes) ++ rest) =
          feedFrom (b :: collected) (ofBytes bytes ++ rest) := by
        simp [ofBytes, feedFrom, Ne.symm other]
      rw [step, ih (b :: collected) others]
      simp

theorem ofText_cons (c : Char) (text : List Char) :
    ofText (c :: text) = ofBytes (String.utf8EncodeChar c) ++ ofText text := by
  simp [ofText, ofBytes, Utf8.encode_cons]

theorem feedFrom_newline (line : List Char) (rest : Source) :
    feedFrom (Utf8.encode line).reverse (ofBytes [10] ++ rest) =
      .refill none :: (Feed.ofText (line ++ ['\n']) ++ feedFrom [] rest) := by
  have whole : (10 :: (Utf8.encode line).reverse).reverse = Utf8.encode (line ++ ['\n']) := by
    simp [Utf8.encode_append, Utf8.encode_cons]
  have step : feedFrom (Utf8.encode line).reverse (ofBytes [10] ++ rest) =
      segment (10 :: (Utf8.encode line).reverse).reverse none ++ feedFrom [] rest := by
    simp [ofBytes, feedFrom]
  rw [step, whole, segment_encode]
  rfl

theorem feedFrom_char {c : Char} (other : c ≠ '\n') (line : List Char) (rest : Source) :
    feedFrom (Utf8.encode line).reverse (ofBytes (String.utf8EncodeChar c) ++ rest) =
      feedFrom (Utf8.encode (line ++ [c])).reverse rest := by
  have others : 10 ∉ String.utf8EncodeChar c := fun h => other (Utf8.newline_of_mem h)
  have longer : (String.utf8EncodeChar c).reverse ++ (Utf8.encode line).reverse =
      (Utf8.encode (line ++ [c])).reverse := by
    simp [Utf8.encode_append, Utf8.encode_cons]
  rw [feedFrom_bytes _ _ _ others, longer]

-- The induction goes character by character, so what has been collected encodes the line so far.
theorem feedFrom_delivers : ∀ (text line : List Char),
    Feed.Delivers (feedFrom (Utf8.encode line).reverse (ofText text)) (line ++ text) := by
  intro text
  induction text with
  | nil =>
      intro line
      rw [List.append_nil]
      have last : feedFrom (Utf8.encode line).reverse (ofText []) =
          if (Utf8.encode line).reverse = [] then []
          else segment (Utf8.encode line).reverse.reverse none := rfl
      rw [last]
      split
      · rename_i nothing
        have bare : line = [] := by
          cases line with
          | nil => rfl
          | cons c line => simp [Utf8.encode_cons, String.utf8EncodeChar_ne_nil] at nothing
        subst bare
        exact .ended trivial
      · rw [List.reverse_reverse, segment_encode]
        exact .refill (Feed.delivers_ofText line)
  | cons c text ih =>
      intro line
      rw [ofText_cons, List.append_cons line c text]
      by_cases newline : c = '\n'
      · subst newline
        rw [Utf8.encodeChar_newline, feedFrom_newline]
        exact .refill (ih []).append_line
      · rw [feedFrom_char newline]
        exact ih (line ++ [c])

theorem ofText_delivers (text : List Char) : Feed.Delivers (ofText text).feed text :=
  feedFrom_delivers text []

end Source

end JamTokens
