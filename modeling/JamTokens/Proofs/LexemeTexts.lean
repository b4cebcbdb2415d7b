import JamTokens.Proofs.Sessions

/-!
# The texts of lexemes

A word that a scanner returns has characters, all of them word characters, and
a number has characters as well.  This also holds of a lexeme that has been
handed back, so it holds of all lexemes in a run, whatever failures there are.
-/

set_option autoImplicit false

namespace JamTokens

open CharClass

namespace Lexeme

def characters : Lexeme → List Char
  | word text => text.toList
  | number text => text.toList
  | char c => [c]
  | endOfInput => []

def Proper : Lexeme → Prop
  | word text => text.toList ≠ [] ∧ ∀ c ∈ text.toList, isWordChar c = true
  | number text => text.toList ≠ []
  | char _ => True
  | endOfInput => True

theorem Proper.characters_ne_nil {lexeme : Lexeme} (h : lexeme.Proper)
    (more : lexeme ≠ .endOfInput) : lexeme.characters ≠ [] := by
  cases lexeme with
  | word text => exact h.1
  | number text => exact h
  | char c => exact List.cons_ne_nil c []
  | endOfInput => exact absurd rfl more

end Lexeme

theorem Feed.takeSteps_accepted {σ : Type} (step : σ → Char → Option σ) (kept : Char → Prop)
    (accepted : ∀ state c, (step state c).isSome → kept c) (state : σ) (feed : Feed) :
    ∀ c ∈ (feed.takeSteps step state).taken, kept c := by
  fun_induction takeSteps step state feed with
  | case1 state c rest next goes ih =>
      intro d member
      rcases List.mem_cons.mp member with rfl | member
      · exact accepted state d (by rw [goes]; rfl)
      · exact ih d member
  | case2 state c rest stops => exact List.forall_mem_nil _
  | case3 state rest ih => exact ih
  | case4 state f rest => exact List.forall_mem_nil _
  | case5 state rest => exact List.forall_mem_nil _
  | case6 state => exact List.forall_mem_nil _

theorem Feed.takeSteps_word (feed : Feed) :
    ∀ c ∈ (feed.takeSteps Lexeme.wordStep ()).taken, isWordChar c = true := by
  refine takeSteps_accepted Lexeme.wordStep (isWordChar · = true) ?_ () feed
  intro _ c accepted
  unfold Lexeme.wordStep at accepted
  split at accepted
  · assumption
  · cases accepted

namespace Scanner

/-- A lexeme that has been handed back is one that can be read. -/
def Orderly (s : Scanner) : Prop := ∀ back ∈ s.returned, back.1.Proper

theorem orderly_of_returned_none {s : Scanner} (h : s.returned = none) : s.Orderly := by
  intro back found
  rw [h] at found
  cases found

theorem finish_proper {s s' : Scanner} (make : String → Lexeme) {run : Feed.Run} {lexeme : Lexeme}
    (proper : (make (String.ofList run.taken)).Proper)
    (h : s.finish make run = (.ok lexeme, s')) : lexeme.Proper := by
  unfold finish at h
  split at h
  · cases h
  · cases h
    exact proper

theorem scan_proper {s s' : Scanner} {lexeme : Lexeme} (h : s.scan = (.ok lexeme, s')) :
    lexeme.Proper := by
  unfold scan at h
  dsimp only at h
  split at h
  · rename_i c rest atChar
    split at h
    · rename_i starts
      have some := Feed.takeSteps_taken_pos Lexeme.wordStep () c rest (wordStep_of_isWordStart starts)
      have word := s.cursor.feed.takeSteps_word
      rw [← atChar] at some
      refine finish_proper .word ⟨?_, ?_⟩ h
      · rw [String.toList_ofList]
        exact List.ne_nil_of_length_pos some
      · rwa [String.toList_ofList]
    · split at h
      · rename_i starts
        have some := Feed.takeSteps_taken_pos Lexeme.numberStep false c rest
          (numberStep_of_startsNumber starts)
        rw [← atChar] at some
        refine finish_proper .number ?_ h
        rw [Lexeme.Proper, String.toList_ofList]
        exact List.ne_nil_of_length_pos some
      · cases h
        trivial
  · cases h
    trivial

theorem next_proper {s s' : Scanner} {lexeme : Lexeme} (orderly : s.Orderly)
    (h : s.next = (.ok lexeme, s')) : lexeme.Proper := by
  unfold next at h
  split at h
  · rename_i back start found
    cases h
    exact orderly _ found
  · dsimp only at h
    split at h
    · cases h
    · exact scan_proper h

theorem orderly_of_next {s s' : Scanner} {result : Except Failure Lexeme}
    (h : s.next = (result, s')) : s'.Orderly :=
  orderly_of_returned_none (returned_of_next h)

theorem orderly_handBack {s : Scanner} {lexeme : Lexeme} (proper : lexeme.Proper) :
    (s.handBack lexeme).Orderly := by
  intro back found
  cases found
  exact proper

end Scanner

namespace Lexer

/-! ## Calls of a lexer -/

theorem pair_orderly {l : Lexer} (c : Char) (pairing : Pairing) (start : Position)
    (h : l.scanner.Orderly) : (l.pair c pairing start).2.scanner.Orderly := by
  unfold pair
  rcases called : l.scanner.next with ⟨f | follower, s⟩
  · exact Scanner.orderly_of_next called
  · have back : (s.handBack follower).Orderly :=
      Scanner.orderly_handBack (Scanner.next_proper h called)
    dsimp only
    split
    · exact Scanner.orderly_of_next called
    · cases pairing.single with
      | some token => exact back
      | none => exact back

theorem ofLexeme_orderly {l : Lexer} (lexeme : Lexeme) (start : Position)
    (h : l.scanner.Orderly) : (l.ofLexeme lexeme start).2.scanner.Orderly := by
  have ofChar (c : Char) : (l.ofChar c start).2.scanner.Orderly := by
    unfold ofChar
    split
    · exact h
    · split
      · exact pair_orderly c _ start h
      · exact h
  cases lexeme with
  | endOfInput => exact h
  | word text => exact h
  | number text =>
      unfold ofLexeme
      dsimp only
      split
      · exact h
      · exact h
  | char c =>
      have stays := ofChar c
      unfold ofLexeme
      dsimp only
      rcases made : l.ofChar c start with ⟨e | token, l'⟩ <;> rw [made] at stays
      · exact stays
      · exact stays

theorem assemble_orderly (l : Lexer) : l.assemble.2.scanner.Orderly := by
  unfold assemble
  rcases called : l.scanner.next with ⟨f | lexeme, s⟩
  · exact Scanner.orderly_of_next called
  · have stays := ofLexeme_orderly lexeme s.start
      (show Scanner.Orderly (Lexer.scanner { l with scanner := s }) from
        Scanner.orderly_of_next called)
    dsimp only
    rcases made : ofLexeme { l with scanner := s } lexeme s.start with ⟨e | token, l'⟩ <;>
      rw [made] at stays
    · exact stays
    · exact stays

theorem call_orderly {l : Lexer} (h : l.scanner.Orderly) (c : Call) :
    (l.call c).2.scanner.Orderly := by
  have stays := l.assemble_orderly
  cases c with
  | read =>
      unfold call read
      cases l.peeked with
      | some next => exact h
      | none =>
          dsimp only
          rcases made : l.assemble with ⟨e | (_ | next), l'⟩ <;> rw [made] at stays <;> exact stays
  | peek =>
      unfold call peek
      cases l.peeked with
      | some next => exact h
      | none =>
          dsimp only
          rcases made : l.assemble with ⟨e | next, l'⟩ <;> rw [made] at stays <;> exact stays
  | flush =>
      apply Scanner.orderly_of_returned_none
      exact l.flush_returned

end Lexer

end JamTokens
