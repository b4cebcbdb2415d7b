import JamTokens.Lexer

/-!
# Progress of the lexer

Every read that does not report the end of input uses up some of what is
unread.  `Lexer.work` measures what is left: two for every signal of the
feed, one for a lexeme handed back and one for a token looked at.  Reading a
token or an error makes it smaller and flushing does not make it larger, so
every loop over a lexer ends.
-/

set_option autoImplicit false

namespace JamTokens

namespace Feed

def Run.failureCount (r : Run) : Nat := if r.failure.isSome then 1 else 0

@[simp] theorem Run.cons_taken (c : Char) (r : Run) : (r.cons c).taken = c :: r.taken := rfl

@[simp] theorem Run.cons_failure (c : Char) (r : Run) : (r.cons c).failure = r.failure := rfl

@[simp] theorem Run.cons_rest (c : Char) (r : Run) : (r.cons c).rest = r.rest := rfl

@[simp] theorem Run.failureCount_cons (c : Char) (r : Run) :
    (r.cons c).failureCount = r.failureCount := rfl

theorem takeSteps_length {σ : Type} (step : σ → Char → Option σ) (s : σ) (feed : Feed) :
    (feed.takeSteps step s).taken.length + (feed.takeSteps step s).failureCount +
      (feed.takeSteps step s).rest.length ≤ feed.length := by
  fun_induction takeSteps step s feed with
  | case1 s c rest s' h ih => simp; omega
  | case2 s c rest h => simp [Run.failureCount]
  | case3 s rest ih => simp; omega
  | case4 s f rest => simp [Run.failureCount]; omega
  | case5 s rest => simp [Run.failureCount]
  | case6 s => simp [Run.failureCount]

theorem takeLine_length (feed : Feed) :
    feed.takeLine.taken.length + feed.takeLine.failureCount + feed.takeLine.rest.length ≤
      feed.length := by
  fun_induction takeLine feed with
  | case1 rest => simp [Run.failureCount]; omega
  | case2 c rest h ih => simp; omega
  | case3 rest ih => simp; omega
  | case4 f rest => simp [Run.failureCount]; omega
  | case5 rest => simp [Run.failureCount]
  | case6 => simp [Run.failureCount]

theorem takeGap_length (inComment : Bool) (feed : Feed) :
    (feed.takeGap inComment).taken.length + (feed.takeGap inComment).failureCount +
      (feed.takeGap inComment).rest.length ≤ feed.length := by
  fun_induction takeGap inComment feed with
  | case1 c rest ih => simp; omega
  | case2 c rest h ih => simp; omega
  | case3 c rest h h' ih => simp; omega
  | case4 c rest h h' => simp [Run.failureCount]
  | case5 inComment rest ih => simp; omega
  | case6 inComment f rest => simp [Run.failureCount]; omega
  | case7 inComment rest => simp [Run.failureCount]
  | case8 inComment => simp [Run.failureCount]

theorem takeSteps_taken_pos {σ : Type} (step : σ → Char → Option σ) (s : σ) (c : Char)
    (rest : Feed) (h : (step s c).isSome) :
    0 < (Feed.takeSteps step s (.char c :: rest)).taken.length := by
  obtain ⟨s', hs⟩ := Option.isSome_iff_exists.1 h
  simp [takeSteps, hs]

end Feed

namespace Scanner

open CharClass

/-- What is left for the scanner to read.  The end of input weighs nothing. -/
def work (s : Scanner) : Nat :=
  2 * s.cursor.feed.length +
    match s.returned with
    | none => 0
    | some (lexeme, _) => if lexeme = .endOfInput then 0 else 1

theorem numberStep_of_startsNumber {c : Char} {rest : Feed} (h : startsNumber c rest = true) :
    (Lexeme.numberStep false c).isSome := by
  unfold startsNumber at h
  unfold Lexeme.numberStep
  by_cases hd : isDigit c
  · simp [hd]
  · have hc : c = '.' := by simp [hd] at h; exact h.1
    subst hc
    simp [hd]

theorem wordStep_of_isWordStart {c : Char} (h : isWordStart c = true) :
    (Lexeme.wordStep () c).isSome := by
  simp [Lexeme.wordStep, isWordChar_of_isWordStart h]

/-- The outcome of a read from the cursor: a lexeme or a failure uses something up. -/
def Advances (before : Scanner) : Except Failure Lexeme × Scanner → Prop
  | (.ok .endOfInput, s) => s.returned = before.returned ∧
      s.cursor.feed.length ≤ before.cursor.feed.length
  | (_, s) => s.returned = before.returned ∧ s.cursor.feed.length < before.cursor.feed.length

variable [Counting]

theorem finish_advances (s : Scanner) (make : String → Lexeme) (run : Feed.Run)
    (hrun : run.taken.length + run.failureCount + run.rest.length ≤ s.cursor.feed.length)
    (hpos : 0 < run.taken.length) :
    Advances s (s.finish make run) := by
  unfold finish
  split
  · exact ⟨rfl, by simp [Cursor.pass]; omega⟩
  · generalize make (String.ofList run.taken) = lexeme
    cases lexeme <;> exact ⟨rfl, by simp [Cursor.pass]; omega⟩

theorem scan_advances (s : Scanner) : Advances s s.scan := by
  unfold scan
  simp only []
  split
  · rename_i c rest hfeed
    split
    · rename_i hw
      have hlen := Feed.takeSteps_length Lexeme.wordStep () s.cursor.feed
      have hpos := Feed.takeSteps_taken_pos Lexeme.wordStep () c rest (wordStep_of_isWordStart hw)
      rw [← hfeed] at hpos
      exact finish_advances { s with start := s.cursor.position } _ _ hlen hpos
    · split
      · rename_i hn
        have hlen := Feed.takeSteps_length Lexeme.numberStep false s.cursor.feed
        have hpos := Feed.takeSteps_taken_pos Lexeme.numberStep false c rest
          (numberStep_of_startsNumber hn)
        rw [← hfeed] at hpos
        exact finish_advances { s with start := s.cursor.position } _ _ hlen hpos
      · exact ⟨rfl, by simp [hfeed]⟩
  · exact ⟨rfl, Nat.le_refl _⟩

/-- Reading leaves nothing handed back, and uses something up unless the input is at its end. -/
theorem next_work (s : Scanner) :
    s.next.2.returned = none ∧
      (s.next.1 = .ok .endOfInput → s.next.2.work ≤ s.work) ∧
      (s.next.1 ≠ .ok .endOfInput →
        s.next.2.work < s.work ∧ (s.returned = none → s.next.2.work + 2 ≤ s.work)) := by
  unfold next
  split
  · rename_i lexeme start h
    refine ⟨rfl, ?_, ?_⟩
    · intro _
      simp [work, h]
    · intro hne
      have hne : lexeme ≠ .endOfInput := fun e => hne (by simp [e])
      simp [work, h, hne]
  · rename_i h
    have hgap := Feed.takeGap_length false s.cursor.feed
    simp only []
    split
    · rename_i f hf
      refine ⟨by simpa using h, by simp, fun _ => ?_⟩
      simp [Feed.Run.failureCount, hf] at hgap
      simp [work, h, Cursor.pass]
      omega
    · rename_i hf
      have hadv := scan_advances { s with cursor := s.cursor.pass (s.cursor.feed.takeGap false) }
      generalize scan { s with cursor := s.cursor.pass (s.cursor.feed.takeGap false) } = out at hadv
      obtain ⟨result, s'⟩ := out
      have hlen : (s.cursor.pass (s.cursor.feed.takeGap false)).feed.length ≤
          s.cursor.feed.length := by
        simp only [Cursor.pass]
        omega
      by_cases he : result = .ok .endOfInput
      · subst he
        obtain ⟨hr, hl⟩ := hadv
        have hr : s'.returned = none := hr.trans h
        refine ⟨hr, fun _ => ?_, fun hne => absurd rfl hne⟩
        simp only [work, hr, h]
        simp only [] at hl
        omega
      · have hadv : s'.returned = s.returned ∧
            s'.cursor.feed.length <
              (s.cursor.pass (s.cursor.feed.takeGap false)).feed.length := by
          unfold Advances at hadv
          split at hadv
          · rename_i heq
            exact absurd (congrArg Prod.fst heq) he
          · rename_i heq
            cases heq
            exact hadv
        obtain ⟨hr, hl⟩ := hadv
        have hr : s'.returned = none := hr.trans h
        refine ⟨hr, fun e => absurd e he, fun _ => ?_⟩
        simp only [work, hr, h]
        omega

omit [Counting] in
theorem handBack_work_le (s : Scanner) (lexeme : Lexeme) (h : s.returned = none) :
    (s.handBack lexeme).work ≤ s.work + if lexeme = .endOfInput then 0 else 1 := by
  simp [work, handBack, h]

theorem flush_work_le (s : Scanner) : s.flush.2.work ≤ s.work := by
  have h := Feed.takeLine_length s.cursor.feed
  simp only [flush, Cursor.skipLine]
  split <;> simp [work, Cursor.pass] <;> omega

end Scanner

namespace Lexer

def work (l : Lexer) : Nat := l.scanner.work + if l.peeked.isSome then 1 else 0

variable [Counting]

theorem pair_work (l : Lexer) (c : Char) (pairing : Pairing) (start : Position)
    (h : l.scanner.returned = none) :
    (l.pair c pairing start).2.scanner.work ≤ l.scanner.work ∧
      (l.pair c pairing start).2.peeked = l.peeked := by
  obtain ⟨hr, hend, hmore⟩ := l.scanner.next_work
  unfold pair
  rcases hnext : l.scanner.next with ⟨result, s⟩
  rw [hnext] at hr hend hmore
  cases result with
  | error f => exact ⟨Nat.le_of_lt (hmore (by simp)).1, rfl⟩
  | ok follower =>
    simp only []
    by_cases heq : follower = .char '='
    · rw [if_pos heq]
      exact ⟨Nat.le_of_lt (hmore (by simp [heq])).1, rfl⟩
    · rw [if_neg heq]
      have hback := s.handBack_work_le follower hr
      have hwork : (s.handBack follower).work ≤ l.scanner.work := by
        by_cases he : follower = .endOfInput
        · have := hend (by simp [he])
          simp only [he, ite_true] at hback ⊢
          simp only [] at this
          omega
        · have := (hmore (by simpa using he)).2 h
          simp only [he, ite_false] at hback
          simp only [] at this
          omega
      split
      · exact ⟨hwork, rfl⟩
      · exact ⟨hwork, rfl⟩

theorem ofLexeme_endOfInput (l : Lexer) (start : Position) :
    l.ofLexeme .endOfInput start = (.ok none, l) := rfl

theorem ofLexeme_work (l : Lexer) (lexeme : Lexeme) (start : Position)
    (h : l.scanner.returned = none) :
    (l.ofLexeme lexeme start).2.scanner.work ≤ l.scanner.work ∧
      (l.ofLexeme lexeme start).2.peeked = l.peeked := by
  unfold ofLexeme
  cases lexeme with
  | endOfInput => exact ⟨Nat.le_refl _, rfl⟩
  | word text => exact ⟨Nat.le_refl _, rfl⟩
  | number text => simp only []; split <;> exact ⟨Nat.le_refl _, rfl⟩
  | char c =>
    have hchar : (l.ofChar c start).2.scanner.work ≤ l.scanner.work ∧
        (l.ofChar c start).2.peeked = l.peeked := by
      unfold ofChar
      split
      · exact ⟨Nat.le_refl _, rfl⟩
      · split
        · exact l.pair_work c _ start h
        · exact ⟨Nat.le_refl _, rfl⟩
    simp only []
    split
    · rename_i heq
      rw [heq] at hchar
      exact hchar
    · rename_i heq
      rw [heq] at hchar
      exact hchar

theorem assemble_work (l : Lexer) :
    l.assemble.2.peeked = l.peeked ∧ l.assemble.2.scanner.work ≤ l.scanner.work ∧
      (l.assemble.1 ≠ .ok none → l.assemble.2.scanner.work < l.scanner.work) := by
  obtain ⟨hr, hend, hmore⟩ := l.scanner.next_work
  unfold assemble
  rcases hnext : l.scanner.next with ⟨result, s⟩
  rw [hnext] at hr hend hmore
  cases result with
  | error f =>
    have := (hmore (by simp)).1
    exact ⟨rfl, Nat.le_of_lt this, fun _ => this⟩
  | ok lexeme =>
    simp only []
    obtain ⟨hwork, hpeek⟩ := ofLexeme_work { l with scanner := s } lexeme s.start hr
    rcases hlex : ofLexeme { l with scanner := s } lexeme s.start with ⟨token, l'⟩
    rw [hlex] at hwork hpeek
    simp only [] at hwork hpeek hend hmore
    have hle : l'.scanner.work ≤ l.scanner.work := by
      by_cases he : lexeme = .endOfInput
      · have := hend (by simp [he])
        omega
      · have := (hmore (by simpa using he)).1
        omega
    cases token with
    | error e =>
      have hne : lexeme ≠ .endOfInput := by
        intro he
        subst he
        rw [ofLexeme_endOfInput] at hlex
        cases hlex
      have := (hmore (by simpa using hne)).1
      exact ⟨hpeek, hle, fun _ => by simp only []; omega⟩
    | ok token =>
      refine ⟨hpeek, hle, fun hne => ?_⟩
      have hne : lexeme ≠ .endOfInput := by
        intro he
        subst he
        rw [ofLexeme_endOfInput] at hlex
        cases hlex
        exact hne rfl
      have := (hmore (by simpa using hne)).1
      simp only []
      omega

/-- Reading a token or an error makes the work smaller. -/
theorem read_work_lt (l : Lexer) (h : l.read.1 ≠ .ok none) : l.read.2.work < l.work := by
  unfold read at h ⊢
  cases hp : l.peeked with
  | some p => simp [work, hp]
  | none =>
    simp only [hp] at h ⊢
    obtain ⟨hpeek, _, hlt⟩ := l.assemble_work
    rcases hasm : l.assemble with ⟨result, l'⟩
    rw [hasm] at h hpeek hlt
    simp only [] at hpeek hlt
    rcases result with e | (_ | ⟨token, start⟩)
    · have := hlt (by simp)
      simp only [work, hpeek, hp]
      omega
    · simp at h
    · have := hlt (by simp)
      simp only [work, hpeek, hp]
      omega

theorem flush_work_le (l : Lexer) : l.flush.2.work ≤ l.work := by
  have h := l.scanner.flush_work_le
  unfold flush
  split
  · rename_i s hs
    rw [hs] at h
    simp only [] at h
    simp only [work]
    simp
    omega
  · rename_i f s hs
    rw [hs] at h
    simp only [] at h
    simp only [work]
    simp
    omega

end Lexer

end JamTokens
