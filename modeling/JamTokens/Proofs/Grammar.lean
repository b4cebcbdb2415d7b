import JamTokens.Lexeme
import JamTokens.Text.Position

/-!
# The lexical grammar

A text is a sequence of lexemes with gaps between them.  A gap consists of
blanks and comments, and a comment ends with its line or with the text.  A
lexeme fits where it stands if it could not have gone on and could not have
been something else: a word is not followed by a word character, a point that
stands alone is not followed by a digit, a slash not by a slash.

Every text can be cut in this way.  That it can be cut in no other way follows
once a scanner is shown to make the cut.
-/

set_option autoImplicit false

namespace JamTokens

open CharClass

namespace CharClass

/-! ## The classes, character by character -/

theorem isBlank_iff {c : Char} : isBlank c = true ↔ c ≤ ' ' := by simp [isBlank]

theorem isDigit_iff {c : Char} : isDigit c = true ↔ '0' ≤ c ∧ c ≤ '9' := by simp [isDigit]

theorem isWordStart_iff {c : Char} :
    isWordStart c = true ↔
      ('a' ≤ c ∧ c ≤ 'z') ∨ ('A' ≤ c ∧ c ≤ 'Z') ∨ c = '_' ∨ c = '?' := by
  simp [isWordStart, isLetter, or_assoc]

theorem isWordChar_iff {c : Char} :
    isWordChar c = true ↔
      ('a' ≤ c ∧ c ≤ 'z') ∨ ('A' ≤ c ∧ c ≤ 'Z') ∨ c = '_' ∨ c = '?' ∨ ('0' ≤ c ∧ c ≤ '9') := by
  simp only [isWordChar, Bool.or_eq_true, isWordStart_iff, isDigit_iff, or_assoc]

theorem not_isBlank_of_lt {c : Char} (h : ' ' < c) : isBlank c = false := by
  rw [Bool.eq_false_iff, ne_eq, isBlank_iff]
  exact Std.not_le_of_gt h

theorem isBlank_of_isWordStart {c : Char} (h : isWordStart c = true) : isBlank c = false := by
  apply not_isBlank_of_lt
  rcases isWordStart_iff.mp h with lower | upper | rfl | rfl
  · exact Std.lt_of_lt_of_le (by decide) lower.1
  · exact Std.lt_of_lt_of_le (by decide) upper.1
  · decide
  · decide

theorem isBlank_of_isDigit {c : Char} (h : isDigit c = true) : isBlank c = false :=
  not_isBlank_of_lt (Std.lt_of_lt_of_le (by decide) (isDigit_iff.mp h).1)

theorem isWordStart_of_isDigit {c : Char} (h : isDigit c = true) : isWordStart c = false := by
  have high := (isDigit_iff.mp h).2
  have above : ∀ d : Char, '9' < d → ¬ d ≤ c :=
    fun d later reaches => Std.not_lt_of_ge (Std.le_trans reaches high) later
  rw [Bool.eq_false_iff, ne_eq, isWordStart_iff]
  rintro (lower | upper | rfl | rfl)
  · exact above 'a' (by decide) lower.1
  · exact above 'A' (by decide) upper.1
  · exact above '_' (by decide) (Std.le_refl _)
  · exact above '?' (by decide) (Std.le_refl _)

end CharClass

namespace Grammar

/-! ## Gaps -/

/-- Blanks and comments with the given text behind them. -/
inductive Gap : List Char → List Char → Prop
  | nil (rest : List Char) : Gap [] rest
  | blank {c : Char} {gap rest : List Char} :
      isBlank c = true → Gap gap rest → Gap (c :: gap) rest
  | comment {body gap rest : List Char} :
      '\n' ∉ body → Gap gap rest → Gap ('/' :: '/' :: (body ++ '\n' :: gap)) rest
  | lastComment {body : List Char} : '\n' ∉ body → Gap ('/' :: '/' :: body) []

/-- No gap can begin here. -/
def Stops : List Char → Prop
  | [] => True
  | c :: rest => isBlank c = false ∧ (c = '/' → rest.head? ≠ some '/')

theorem comment_split (text : List Char) :
    ('\n' ∉ text) ∨ ∃ body rest, '\n' ∉ body ∧ text = body ++ '\n' :: rest := by
  by_cases found : '\n' ∈ text
  · obtain ⟨body, rest, split, first⟩ := List.eq_append_cons_of_mem found
    exact Or.inr ⟨body, rest, first, split⟩
  · exact Or.inl found

theorem gap_exists : ∀ (text : List Char),
    ∃ gap rest, text = gap ++ rest ∧ Gap gap rest ∧ Stops rest := by
  intro text
  generalize size : text.length = n
  induction n using Nat.strongRecOn generalizing text with
  | ind n ih =>
      cases text with
      | nil => exact ⟨[], [], rfl, .nil [], trivial⟩
      | cons c text =>
          rw [List.length_cons] at size
          by_cases blank : isBlank c = true
          · obtain ⟨gap, rest, split, valid, stops⟩ := ih text.length (by omega) text rfl
            exact ⟨c :: gap, rest, by rw [split]; rfl, .blank blank valid, stops⟩
          · by_cases opens : c = '/' ∧ text.head? = some '/'
            · obtain ⟨rfl, second⟩ := opens
              obtain ⟨text, rfl⟩ := List.head?_eq_some_iff.mp second
              rcases comment_split text with whole | ⟨body, after, line, rfl⟩
              · exact ⟨'/' :: '/' :: text, [], by simp, .lastComment whole, trivial⟩
              · obtain ⟨gap, rest, split, valid, stops⟩ :=
                  ih after.length (by simp at size; omega) after rfl
                exact ⟨'/' :: '/' :: (body ++ '\n' :: gap), rest, by simp [split],
                  .comment line valid, stops⟩
            · refine ⟨[], c :: text, rfl, .nil _, by simpa using blank, ?_⟩
              intro slash second
              exact opens ⟨slash, second⟩

/-! ## Lexemes -/

def IsWord (text : List Char) : Prop :=
  ∃ c rest, text = c :: rest ∧ isWordStart c = true ∧ ∀ d ∈ rest, isWordChar d = true

def IsDigits (text : List Char) : Prop := ∀ d ∈ text, isDigit d = true

/-- Digits with at most one point, and at least one digit before it or behind it. -/
inductive IsNumber : List Char → Prop
  | whole {digits : List Char} : digits ≠ [] → IsDigits digits → IsNumber digits
  | pointed {digits fraction : List Char} :
      digits ≠ [] → IsDigits digits → IsDigits fraction → IsNumber (digits ++ '.' :: fraction)
  | fraction {digits : List Char} : digits ≠ [] → IsDigits digits → IsNumber ('.' :: digits)

/-- The lexeme is the longest that can be cut off where the given text follows it. -/
inductive Fits : Lexeme → List Char → Prop
  | word {text : String} {rest : List Char} :
      IsWord text.toList → (∀ c, rest.head? = some c → isWordChar c = false) →
      Fits (.word text) rest
  | number {text : String} {rest : List Char} :
      IsNumber text.toList → (∀ c, rest.head? = some c → isDigit c = false) →
      ('.' ∉ text.toList → rest.head? ≠ some '.') →
      Fits (.number text) rest
  | char {c : Char} {rest : List Char} :
      isBlank c = false → isWordStart c = false → isDigit c = false →
      (c = '.' → ∀ d, rest.head? = some d → isDigit d = false) →
      (c = '/' → rest.head? ≠ some '/') →
      Fits (.char c) rest

theorem run_exists (inside : Char → Bool) (text : List Char) :
    ∃ front rest, text = front ++ rest ∧ (∀ d ∈ front, inside d = true) ∧
      ∀ d, rest.head? = some d → inside d = false := by
  refine ⟨text.takeWhile inside, text.dropWhile inside, (List.takeWhile_append_dropWhile).symm,
    List.all_eq_true.1 List.all_takeWhile, ?_⟩
  intro d first
  have stop := List.head?_dropWhile_not inside text
  rw [first] at stop
  simpa using stop

theorem word_exists (c : Char) (text : List Char) (h : isWordStart c = true) :
    ∃ lexeme rest, c :: text = lexeme.text.toList ++ rest ∧ Fits lexeme rest := by
  obtain ⟨front, rest, split, inside, stop⟩ := run_exists isWordChar text
  refine ⟨.word (String.ofList (c :: front)), rest, by simp [Lexeme.text, split], .word ?_ stop⟩
  rw [String.toList_ofList]
  exact ⟨c, front, rfl, h, inside⟩

theorem not_mem_of_isDigits {digits : List Char} (h : IsDigits digits) : '.' ∉ digits := by
  intro point
  exact absurd (h '.' point) (by decide)

theorem number_of_split {text number rest : List Char} (split : text = number ++ rest)
    (valid : IsNumber number) (stop : ∀ d, rest.head? = some d → isDigit d = false)
    (point : '.' ∉ number → rest.head? ≠ some '.') :
    ∃ lexeme rest, text = lexeme.text.toList ++ rest ∧ Fits lexeme rest := by
  refine ⟨.number (String.ofList number), rest, by simp [Lexeme.text, split], ?_⟩
  exact .number (by simpa using valid) stop (by simpa using point)

theorem number_exists (c : Char) (text : List Char)
    (h : isDigit c = true ∨ c = '.' ∧ ∃ d, text.head? = some d ∧ isDigit d = true) :
    ∃ lexeme rest, c :: text = lexeme.text.toList ++ rest ∧ Fits lexeme rest := by
  rcases h with digit | ⟨rfl, d, first, digit⟩
  · obtain ⟨front, rest, rfl, inside, stop⟩ := run_exists isDigit text
    have digits : IsDigits (c :: front) := by
      intro d member
      rcases List.mem_cons.mp member with rfl | behind
      · exact digit
      · exact inside d behind
    by_cases pointed : rest.head? = some '.'
    · obtain ⟨rest, rfl⟩ := List.head?_eq_some_iff.mp pointed
      obtain ⟨fraction, rest, rfl, inside', stop'⟩ := run_exists isDigit rest
      have split : c :: (front ++ '.' :: (fraction ++ rest)) =
          (c :: front ++ '.' :: fraction) ++ rest := by simp
      exact number_of_split split (.pointed (by simp) digits inside') stop' (by simp)
    · exact number_of_split rfl (.whole (by simp) digits) stop (fun _ => pointed)
  · obtain ⟨front, rest, rfl, inside, stop⟩ := run_exists isDigit text
    have some_digit : front ≠ [] := by
      rintro rfl
      rw [List.nil_append] at first
      exact absurd digit (by simp [stop d first])
    exact number_of_split rfl (.fraction some_digit inside) stop (by simp)

theorem lexeme_exists (c : Char) (text : List Char) (h : Stops (c :: text)) :
    ∃ lexeme rest, c :: text = lexeme.text.toList ++ rest ∧ Fits lexeme rest := by
  by_cases word : isWordStart c = true
  · exact word_exists c text word
  · by_cases number : isDigit c = true ∨ c = '.' ∧ ∃ d, text.head? = some d ∧ isDigit d = true
    · exact number_exists c text number
    · refine ⟨.char c, text, by simp [Lexeme.text], ?_⟩
      refine .char h.1 (by simpa using word) (by simpa using fun digit => number (Or.inl digit))
        ?_ h.2
      intro point d first
      cases digit : isDigit d with
      | false => rfl
      | true => exact absurd (Or.inr ⟨point, d, first, digit⟩) number

theorem stops_of_isDigit {d : Char} (text : List Char) (h : isDigit d = true) :
    Stops (d :: text) := by
  refine ⟨isBlank_of_isDigit h, ?_⟩
  rintro rfl
  exact absurd h (by decide)

theorem Fits.stops {lexeme : Lexeme} {rest : List Char} (h : Fits lexeme rest) :
    lexeme.text.toList ≠ [] ∧ Stops (lexeme.text.toList ++ rest) := by
  cases h with
  | word valid stop =>
      obtain ⟨c, body, spelled, begins, -⟩ := valid
      rw [Lexeme.text, spelled]
      refine ⟨by simp, isBlank_of_isWordStart begins, ?_⟩
      rintro rfl
      exact absurd begins (by decide)
  | number valid stop point =>
      rw [Lexeme.text]
      generalize String.toList _ = number at valid point
      cases valid with
      | whole some_digit digits =>
          cases number with
          | nil => exact absurd rfl some_digit
          | cons d number => exact ⟨by simp, stops_of_isDigit _ (digits d (by simp))⟩
      | @pointed front fraction some_digit digits _ =>
          cases front with
          | nil => exact absurd rfl some_digit
          | cons d front => exact ⟨by simp, stops_of_isDigit _ (digits d (by simp))⟩
      | fraction some_digit digits =>
          exact ⟨by simp, by decide, fun slash => absurd slash (by decide)⟩
  | @char c _ blank start digit point slash =>
      rw [Lexeme.text, String.toList_singleton]
      exact ⟨by simp, blank, slash⟩

/-! ## Cuts -/

end Grammar

/-- Where the next character stands after a whole text. -/
def Position.behind (text : List Char) : Position :=
  ⟨text.count '\n' + 1, (text.reverse.takeWhile (· ≠ '\n')).length + 1⟩

theorem Position.behind_snoc (text : List Char) (c : Char) :
    behind (text ++ [c]) = (behind text).step c := by
  by_cases newline : c = '\n'
  · subst newline
    simp [behind, step]
  · simp [behind, step, newline]

theorem Position.behind_append (text more : List Char) :
    behind (text ++ more) = (behind text).after more := by
  induction more generalizing text with
  | nil => simp
  | cons c more ih =>
      rw [List.append_cons, ih, behind_snoc, after_cons]

namespace Grammar

/-- A text with some text before it, cut into lexemes, each with its start. -/
inductive Cut : List Char → List Char → List (Lexeme × Position) → Prop
  | done {before gap : List Char} : Gap gap [] → Cut before gap []
  | lexeme {before gap rest : List Char} {lexeme : Lexeme} {lexemes : List (Lexeme × Position)} :
      Gap gap (lexeme.text.toList ++ rest) → Fits lexeme rest →
      Cut (before ++ gap ++ lexeme.text.toList) rest lexemes →
      Cut before (gap ++ lexeme.text.toList ++ rest)
        ((lexeme, .behind (before ++ gap)) :: lexemes)

theorem cut_exists : ∀ (before text : List Char), ∃ lexemes, Cut before text lexemes := by
  intro before text
  generalize size : text.length = n
  induction n using Nat.strongRecOn generalizing before text with
  | ind n ih =>
      obtain ⟨gap, behind, rfl, valid, stops⟩ := gap_exists text
      cases behind with
      | nil =>
          rw [List.append_nil]
          exact ⟨[], .done valid⟩
      | cons c behind =>
          obtain ⟨lexeme, rest, split, fits⟩ := lexeme_exists c behind stops
          have proper := List.length_pos_iff.mpr fits.stops.1
          rw [split] at size valid ⊢
          simp only [List.length_append] at size
          obtain ⟨lexemes, cut⟩ :=
            ih rest.length (by omega) (before ++ gap ++ lexeme.text.toList) rest rfl
          rw [← List.append_assoc]
          exact ⟨_, .lexeme valid fits cut⟩

theorem Cut.fits {before text : List Char} {lexemes : List (Lexeme × Position)}
    (h : Cut before text lexemes) : ∀ found ∈ lexemes, ∃ rest, Fits found.1 rest := by
  induction h with
  | done _ =>
      intro found member
      cases member
  | lexeme _ fits _ ih =>
      intro found member
      rcases List.mem_cons.mp member with rfl | later
      · exact ⟨_, fits⟩
      · exact ih found later

theorem Cut.proper {before text : List Char} {lexemes : List (Lexeme × Position)}
    (h : Cut before text lexemes) : ∀ found ∈ lexemes, found.1 ≠ .endOfInput := by
  intro found member atEnd
  obtain ⟨rest, fits⟩ := h.fits found member
  rw [atEnd] at fits
  cases fits

end Grammar

end JamTokens
