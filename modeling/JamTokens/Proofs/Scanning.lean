import JamTokens.Proofs.Delivery
import JamTokens.Proofs.Grammar

/-!
# The scanner cuts its text

On a feed that delivers a text, each loop of the scanner takes exactly one
piece of that text: the gap loop a gap, the word loop a word, the number loop a
number.  So the readings of the scanner are a cut of the text, and any cut is
the one that the scanner makes.
-/

set_option autoImplicit false

namespace JamTokens

open CharClass Grammar

namespace Feed

/-! ## Gaps -/

theorem takeGap_comment (text : List Char) : ∀ (body : List Char) (feed : Feed), '\n' ∉ body →
    Delivers feed (body ++ '\n' :: text) →
    ∃ left, Delivers left text ∧
      feed.takeGap true =
        { left.takeGap false with taken := body ++ '\n' :: (left.takeGap false).taken } := by
  intro body
  induction body with
  | nil =>
      intro feed _ delivers
      obtain ⟨left, filled, -, behind⟩ := delivers.fill_cons
      refine ⟨left, behind, ?_⟩
      rw [takeGap_fill true filled, takeGap]
      rfl
  | cons c body ih =>
      intro feed line delivers
      obtain ⟨other, others⟩ := List.ne_and_not_mem_of_not_mem_cons line
      obtain ⟨rest, filled, -, behind⟩ := delivers.fill_cons
      obtain ⟨left, after, taken⟩ := ih rest others behind
      refine ⟨left, after, ?_⟩
      rw [takeGap_fill true filled, takeGap, show (c != '\n') = true by simpa using other.symm,
        taken]
      rfl

theorem takeGap_lastComment : ∀ (body : List Char) (feed : Feed), '\n' ∉ body →
    Delivers feed body →
    ∃ left, left.Ended ∧ feed.takeGap true = ⟨body, none, left⟩ := by
  intro body
  induction body with
  | nil =>
      intro feed _ delivers
      obtain ⟨left, filled, ended⟩ := delivers.fill_nil
      exact ⟨left, ended, by rw [takeGap_fill true filled, takeGap_ended true ended]⟩
  | cons c body ih =>
      intro feed line delivers
      obtain ⟨other, others⟩ := List.ne_and_not_mem_of_not_mem_cons line
      obtain ⟨rest, filled, -, behind⟩ := delivers.fill_cons
      obtain ⟨left, ended, taken⟩ := ih rest others behind
      refine ⟨left, ended, ?_⟩
      rw [takeGap_fill true filled, takeGap, show (c != '\n') = true by simpa using other.symm,
        taken]
      rfl

theorem takeGap_slashes {feed : Feed} {text : List Char}
    (h : Delivers feed ('/' :: '/' :: text)) :
    ∃ rest, Delivers rest text ∧
      feed.takeGap false =
        { rest.takeGap true with taken := '/' :: '/' :: (rest.takeGap true).taken } := by
  obtain ⟨second, filled, joins, behind⟩ := h.fill_cons
  have together := joins '/' rfl (Or.inl ⟨rfl, rfl⟩)
  obtain ⟨rest, rfl⟩ := List.head?_eq_some_iff.mp together
  obtain ⟨rest', filled', -, behind'⟩ := behind.fill_cons
  cases filled'
  refine ⟨rest, behind', ?_⟩
  rw [takeGap_fill false filled]
  simp [takeGap, isBlank, Run.cons]

/-- What stands at the head of a filled feed. -/
inductive Heads : List Char → Feed → Prop
  | ended {feed : Feed} : feed.Ended → Heads [] feed
  | char {c : Char} {text : List Char} {rest : Feed} :
      Joins c rest text → Delivers rest text → Heads (c :: text) (.char c :: rest)

theorem Heads.cons {c : Char} {text : List Char} {feed : Feed} (h : Heads (c :: text) feed) :
    ∃ rest, feed = .char c :: rest ∧ Joins c rest text ∧ Delivers rest text := by
  cases h with
  | char joins behind => exact ⟨_, rfl, joins, behind⟩

theorem Heads.delivers {text : List Char} {feed : Feed} (h : Heads text feed) :
    Delivers feed text := by
  cases h with
  | ended finished => exact .ended finished
  | char joins behind => exact .char joins behind

theorem Delivers.heads {text : List Char} {feed : Feed} (h : Delivers feed text) :
    ∃ filled, feed.fill = (none, filled) ∧ Heads text filled := by
  cases text with
  | nil =>
      obtain ⟨rest, filled, ended⟩ := h.fill_nil
      exact ⟨rest, filled, .ended ended⟩
  | cons c text =>
      obtain ⟨rest, filled, joins, behind⟩ := h.fill_cons
      exact ⟨_, filled, .char joins behind⟩

theorem takeGap_stopped {text : List Char} {feed : Feed} (h : Heads text feed)
    (stops : Stops text) : feed.takeGap false = ⟨[], none, feed⟩ := by
  cases h with
  | ended finished => exact takeGap_ended false finished
  | @char c text rest joins behind =>
      rw [takeGap, if_neg (by simp [stops.1]), if_neg]
      intro opens
      rw [Bool.and_eq_true, decide_eq_true_eq, decide_eq_true_eq] at opens
      exact stops.2 opens.1 (behind.head_of_char opens.2)

theorem takeGap_gap {gap rest : List Char} (h : Gap gap rest) (stops : Stops rest) :
    ∀ (feed : Feed), Delivers feed (gap ++ rest) →
      ∃ left, feed.takeGap false = ⟨gap, none, left⟩ ∧ Heads rest left := by
  induction h with
  | nil rest =>
      intro feed delivers
      obtain ⟨left, filled, heads⟩ := delivers.heads
      exact ⟨left, by rw [takeGap_fill false filled, takeGap_stopped heads stops], heads⟩
  | @blank c gap rest blank _ ih =>
      intro feed delivers
      obtain ⟨next, filled, -, behind⟩ := delivers.fill_cons
      obtain ⟨left, taken, heads⟩ := ih stops next behind
      refine ⟨left, ?_, heads⟩
      rw [takeGap_fill false filled, takeGap, if_pos blank, taken]
      rfl
  | @comment body gap rest line _ ih =>
      -- the two slashes lie side by side, but the body may be spread over any refills
      intro feed delivers
      have slashes : Delivers feed ('/' :: '/' :: (body ++ '\n' :: (gap ++ rest))) := by
        simpa using delivers
      obtain ⟨inside, within, opened⟩ := takeGap_slashes slashes
      obtain ⟨next, behind, closed⟩ := takeGap_comment (gap ++ rest) body inside line within
      obtain ⟨left, taken, heads⟩ := ih stops next behind
      refine ⟨left, ?_, heads⟩
      rw [opened, closed, taken]
  | @lastComment body line =>
      intro feed delivers
      rw [List.append_nil] at delivers
      obtain ⟨inside, within, opened⟩ := takeGap_slashes delivers
      obtain ⟨left, ended, taken⟩ := takeGap_lastComment body inside line within
      exact ⟨left, by rw [opened, taken], .ended ended⟩

/-! ## Words and numbers -/

theorem takeSteps_run {σ : Type} (step : σ → Char → Option σ) (rest : List Char) :
    ∀ (taken : List Char) (state last : σ) (feed : Feed), taken.foldlM step state = some last →
      (∀ c, rest.head? = some c → step last c = none) → Delivers feed (taken ++ rest) →
      ∃ left, feed.takeSteps step state = ⟨taken, none, left⟩ ∧ Delivers left rest := by
  intro taken
  induction taken with
  | nil =>
      intro state last feed accepted stop delivers
      cases accepted
      obtain ⟨left, filled, heads⟩ := delivers.heads
      refine ⟨left, ?_, heads.delivers⟩
      rw [takeSteps_fill step state filled]
      cases heads with
      | ended finished =>
          rcases finished.eq with rfl | ⟨rest, rfl⟩
          · rfl
          · rfl
      | @char c text next joins behind => rw [takeSteps, stop c rfl]
  | cons c taken ih =>
      intro state last feed accepted stop delivers
      obtain ⟨state', accept, accepted'⟩ := Option.bind_eq_some_iff.mp accepted
      obtain ⟨next, filled, -, behind⟩ := delivers.fill_cons
      obtain ⟨left, taken', after⟩ := ih state' last next accepted' stop behind
      refine ⟨left, ?_, after⟩
      rw [takeSteps_fill step state filled, takeSteps, accept]
      simp only [taken']
      rfl

end Feed

namespace Lexeme

theorem word_steps : ∀ (text : List Char), (∀ d ∈ text, isWordChar d = true) →
    text.foldlM wordStep () = some () := by
  intro text
  induction text with
  | nil => exact fun _ => rfl
  | cons c text ih =>
      intro inside
      rw [List.foldlM_cons, wordStep, if_pos (inside c (by simp))]
      exact ih fun d member => inside d (List.mem_cons_of_mem c member)

theorem digit_steps (pointSeen : Bool) : ∀ (digits : List Char), IsDigits digits →
    digits.foldlM numberStep pointSeen = some pointSeen := by
  intro digits
  induction digits with
  | nil => exact fun _ => rfl
  | cons c digits ih =>
      intro inside
      rw [List.foldlM_cons, numberStep, if_pos (inside c (by simp))]
      exact ih fun d member => inside d (List.mem_cons_of_mem c member)

theorem number_steps {number : List Char} (h : IsNumber number) :
    number.foldlM numberStep false = some (decide ('.' ∈ number)) := by
  cases h with
  | whole _ digits =>
      rw [digit_steps false number digits, decide_eq_false (not_mem_of_isDigits digits)]
  | @pointed front fraction _ digits fractional =>
      rw [List.foldlM_append, digit_steps false front digits, decide_eq_true (by simp)]
      exact digit_steps true fraction fractional
  | @fraction digits _ fractional =>
      rw [decide_eq_true (by simp)]
      exact digit_steps true digits fractional

theorem wordStep_stops {c : Char} (h : isWordChar c = false) : wordStep () c = none := by
  simp [wordStep, h]

theorem numberStep_stops {c : Char} {pointSeen : Bool} (h : isDigit c = false)
    (point : pointSeen = false → c ≠ '.') : numberStep pointSeen c = none := by
  cases pointSeen <;> simp_all [numberStep]

end Lexeme

/-! ## Lexemes -/

namespace Scanner

theorem startsNumber_of_isDigit {c : Char} (rest : Feed) (h : isDigit c = true) :
    startsNumber c rest = true := by
  simp [startsNumber, h]

/-- A point starts a number exactly before a digit, since the two lie side by side. -/
theorem startsNumber_point {rest : Feed} {text : List Char} (joins : Feed.Joins '.' rest text)
    (behind : Feed.Delivers rest text) :
    startsNumber '.' rest = true ↔ ∃ d, text.head? = some d ∧ isDigit d = true := by
  have seen : ∀ d, rest.buffered.head? = some d ↔ rest.head? = some (.char d) := by
    intro d
    cases rest with
    | nil => simp [Feed.buffered]
    | cons signal rest => cases signal <;> simp [Feed.buffered]
  simp only [startsNumber, show isDigit '.' = false by decide, Bool.false_or, beq_self_eq_true,
    Bool.true_and, Option.any_eq_true]
  constructor
  · rintro ⟨d, first, digit⟩
    exact ⟨d, behind.head_of_char ((seen d).mp first), digit⟩
  · rintro ⟨d, first, digit⟩
    exact ⟨d, (seen d).mpr (joins d first (Or.inr ⟨rfl, digit⟩)), digit⟩

theorem finish_run {s : Scanner} {σ : Type} (step : σ → Char → Option σ) {state last : σ}
    (make : String → Lexeme) (text : String) {rest : List Char}
    (delivers : Feed.Delivers s.cursor.feed (text.toList ++ rest))
    (accepted : text.toList.foldlM step state = some last)
    (stop : ∀ c, rest.head? = some c → step last c = none) :
    ∃ left, Feed.Delivers left rest ∧
      s.finish make (s.cursor.feed.takeSteps step state) =
        (.ok (make text), { s with cursor := ⟨left, s.cursor.position.after text.toList⟩ }) := by
  obtain ⟨left, taken, after⟩ :=
    Feed.takeSteps_run step rest text.toList state last s.cursor.feed accepted stop delivers
  refine ⟨left, after, ?_⟩
  rw [taken]
  simp [finish, Cursor.pass]

theorem scan_word {s : Scanner} {c : Char} {rest : Feed} (h : s.cursor.feed = .char c :: rest)
    (word : isWordStart c = true) :
    s.scan = finish { s with start := s.cursor.position } .word
      (s.cursor.feed.takeSteps Lexeme.wordStep ()) := by
  simp [scan, h, word]

theorem scan_number {s : Scanner} {c : Char} {rest : Feed} (h : s.cursor.feed = .char c :: rest)
    (other : isWordStart c = false) (number : startsNumber c rest = true) :
    s.scan = finish { s with start := s.cursor.position } .number
      (s.cursor.feed.takeSteps Lexeme.numberStep false) := by
  simp [scan, h, other, number]

theorem scan_char {s : Scanner} {c : Char} {rest : Feed} (h : s.cursor.feed = .char c :: rest)
    (other : isWordStart c = false) (single : startsNumber c rest = false) :
    s.scan = (.ok (.char c),
      { s with cursor := ⟨rest, s.cursor.position.step c⟩, start := s.cursor.position }) := by
  simp [scan, h, other, single]

theorem number_head {number : List Char} (h : IsNumber number) :
    ∃ c body, number = c :: body ∧ isWordStart c = false ∧
      (isDigit c = true ∨ c = '.' ∧ ∃ d, body.head? = some d ∧ isDigit d = true) := by
  cases h with
  | whole proper digits =>
      cases number with
      | nil => exact absurd rfl proper
      | cons d number =>
          have digit := digits d (by simp)
          exact ⟨d, number, rfl, isWordStart_of_isDigit digit, Or.inl digit⟩
  | @pointed front fraction proper digits _ =>
      cases front with
      | nil => exact absurd rfl proper
      | cons d front =>
          have digit := digits d (by simp)
          exact ⟨d, _, rfl, isWordStart_of_isDigit digit, Or.inl digit⟩
  | @fraction digits proper inside =>
      cases digits with
      | nil => exact absurd rfl proper
      | cons d digits =>
          exact ⟨'.', _, rfl, by decide, Or.inr ⟨rfl, d, rfl, inside d (by simp)⟩⟩

theorem scan_fits {s : Scanner} {lexeme : Lexeme} {rest : List Char} (fits : Fits lexeme rest)
    (heads : Feed.Heads (lexeme.text.toList ++ rest) s.cursor.feed) :
    ∃ left, Feed.Delivers left rest ∧
      s.scan = (.ok lexeme, ⟨⟨left, s.cursor.position.after lexeme.text.toList⟩, s.returned,
        s.cursor.position⟩) := by
  have delivers := heads.delivers
  cases fits with
  | @word text _ valid stop =>
      obtain ⟨c, body, spelled, begins, inside⟩ := valid
      have accepted : text.toList.foldlM Lexeme.wordStep () = some () := by
        apply Lexeme.word_steps
        rw [spelled]
        intro d member
        rcases List.mem_cons.mp member with rfl | later
        · exact isWordChar_of_isWordStart begins
        · exact inside d later
      obtain ⟨left, after, found⟩ := finish_run (s := { s with start := s.cursor.position })
        Lexeme.wordStep .word text delivers accepted fun d first => Lexeme.wordStep_stops (stop d first)
      refine ⟨left, after, ?_⟩
      rw [Lexeme.text, spelled] at heads
      obtain ⟨next, same, -, -⟩ := heads.cons
      rw [scan_word same begins]
      exact found
  | @number text _ valid stop point =>
      have accepted := Lexeme.number_steps valid
      obtain ⟨left, after, found⟩ := finish_run (s := { s with start := s.cursor.position })
        Lexeme.numberStep .number text delivers accepted fun d first =>
          Lexeme.numberStep_stops (stop d first) fun unseen same =>
            point (of_decide_eq_false unseen) (same ▸ first)
      refine ⟨left, after, ?_⟩
      obtain ⟨c, body, spelled, other, begins⟩ := number_head valid
      rw [Lexeme.text, spelled] at heads
      obtain ⟨next, same, joins, behind⟩ := heads.cons
      have number : startsNumber c next = true := by
        rcases begins with digit | ⟨rfl, d, first, digit⟩
        · exact startsNumber_of_isDigit next digit
        · exact (startsNumber_point joins behind).mpr ⟨d, by simp [List.head?_append, first], digit⟩
      rw [scan_number same other number]
      exact found
  | @char c _ blank start digit point slash =>
      rw [Lexeme.text, String.toList_singleton] at heads
      obtain ⟨next, same, joins, behind⟩ := heads.cons
      have single : startsNumber c next = false := by
        by_cases dot : c = '.'
        · subst dot
          rw [Bool.eq_false_iff]
          intro number
          obtain ⟨d, first, follows⟩ := (startsNumber_point joins behind).mp number
          exact absurd follows (by simp [point rfl d first])
        · simp [startsNumber, digit, dot]
      refine ⟨next, behind, ?_⟩
      rw [scan_char same start single, Lexeme.text, String.toList_singleton]
      rfl

/-! ## The whole text -/

theorem next_fits {s : Scanner} {lexeme : Lexeme} {gap rest : List Char} (fresh : s.returned = none)
    (valid : Gap gap (lexeme.text.toList ++ rest)) (fits : Fits lexeme rest)
    (delivers : Feed.Delivers s.cursor.feed (gap ++ (lexeme.text.toList ++ rest))) :
    ∃ left, Feed.Delivers left rest ∧
      s.next = (.ok lexeme, ⟨⟨left, s.cursor.position.after (gap ++ lexeme.text.toList)⟩, none,
        s.cursor.position.after gap⟩) := by
  obtain ⟨start, taken, heads⟩ := Feed.takeGap_gap valid fits.stops.2 s.cursor.feed delivers
  obtain ⟨left, after, scanned⟩ :=
    scan_fits (s := { s with cursor := s.cursor.pass (s.cursor.feed.takeGap false) }) fits
      (by rw [taken]; exact heads)
  refine ⟨left, after, ?_⟩
  rw [next_of_gap fresh (by rw [taken]), scanned]
  simp [taken, fresh, Cursor.pass, Position.after_append]

theorem next_nothing {s : Scanner} {gap : List Char} (fresh : s.returned = none)
    (valid : Gap gap []) (delivers : Feed.Delivers s.cursor.feed gap) :
    ∃ left, Feed.Ended left ∧
      s.next = (.ok .endOfInput, ⟨⟨left, s.cursor.position.after gap⟩, none,
        s.cursor.position.after gap⟩) := by
  rw [← List.append_nil gap] at delivers
  obtain ⟨left, taken, heads⟩ := Feed.takeGap_gap valid trivial s.cursor.feed delivers
  cases heads with
  | ended finished =>
      refine ⟨left, finished, ?_⟩
      rw [next_of_gap fresh (by rw [taken]), taken, scan_ended (by exact finished)]
      simp [fresh, Cursor.pass]

/-- What a bare scanner reads is the cut of what its feed delivers. -/
theorem readings_of_cut {before text : List Char} {lexemes : List (Lexeme × Position)}
    (h : Cut before text lexemes) :
    ∀ (s : Scanner), s.returned = none → s.cursor.position = .behind before →
      Feed.Delivers s.cursor.feed text →
      s.readings = lexemes.map fun found => (.ok found.1, found.2) := by
  induction h with
  | done valid =>
      intro s fresh _ delivers
      obtain ⟨_, _, finished⟩ := next_nothing fresh valid delivers
      exact readings_of_end finished
  | @lexeme before gap rest lexeme lexemes valid fits _ ih =>
      intro s fresh position delivers
      rw [List.append_assoc] at delivers
      obtain ⟨left, after, found⟩ := next_fits fresh valid fits delivers
      have more : lexeme ≠ .endOfInput := by
        rintro rfl
        cases fits
      have further : s.cursor.position.after (gap ++ lexeme.text.toList) =
          .behind (before ++ gap ++ lexeme.text.toList) := by
        rw [position, ← Position.behind_append, List.append_assoc]
      have start : s.cursor.position.after gap = .behind (before ++ gap) := by
        rw [position, ← Position.behind_append]
      rw [readings_of_ok found more, ih _ rfl further after, start]
      rfl

end Scanner

-- The scanner does not depend on the cut, so it reads both lists off the same text.
theorem Grammar.Cut.unique {before text : List Char} {lexemes others : List (Lexeme × Position)}
    (h : Cut before text lexemes) (h' : Cut before text others) : lexemes = others := by
  have cut := fun {found} (h : Cut before text found) =>
    Scanner.readings_of_cut h ⟨⟨(Source.ofText text).feed, .behind before⟩, none, .start⟩ rfl rfl
      (Source.ofText_delivers text)
  have same := (cut h).symm.trans (cut h')
  refine (List.map_inj_right ?_).mp same
  rintro ⟨lexeme, start⟩ ⟨lexeme', start'⟩ equal
  cases equal
  rfl

namespace Scanner

/-- A bare scanner cuts every text into lexemes as the grammar does, however its bytes arrive. -/
theorem readings_cut_the_text (text : List Char) (chunks : List (List UInt8))
    (h : chunks.flatten = Utf8.encode text) :
    ∃ lexemes : List (Lexeme × Position),
      (ofSource (chunks.flatMap Source.ofBytes)).readings =
        lexemes.map (fun found => (.ok found.1, found.2)) ∧
      Cut [] text lexemes ∧ ∀ others, Cut [] text others → others = lexemes := by
  have whole : chunks.flatMap Source.ofBytes = Source.ofText text := by
    rw [Source.ofText, ← h, Source.ofBytes, List.map_flatten]
    rfl
  obtain ⟨lexemes, cut⟩ := cut_exists [] text
  refine ⟨lexemes, ?_, cut, fun others cut' => cut'.unique cut⟩
  rw [whole]
  exact readings_of_cut cut _ rfl rfl (Source.ofText_delivers text)

/-- The bytes of a character may arrive apart. -/
theorem readings_cut_the_text_apart :
    [[0x61, 0xC3], [0xA9, 0x3C], [], [0x3D, 0x2E, 0x35]].flatten =
        Utf8.encode ['a', 'é', '<', '=', '.', '5'] ∧
      ∃ lexemes : List (Lexeme × Position),
        (ofSource ([[0x61, 0xC3], [0xA9, 0x3C], [], [0x3D, 0x2E, 0x35]].flatMap
          Source.ofBytes)).readings = lexemes.map (fun found => (.ok found.1, found.2)) ∧
        Cut [] ['a', 'é', '<', '=', '.', '5'] lexemes ∧
        ∀ others, Cut [] ['a', 'é', '<', '=', '.', '5'] others → others = lexemes :=
  ⟨by decide, readings_cut_the_text _ _ (by decide)⟩

end Scanner

end JamTokens
