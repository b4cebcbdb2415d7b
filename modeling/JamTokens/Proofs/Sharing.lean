import JamTokens.Proofs.Interning
import Mathlib.Data.Set.Card

/-!
# Sharing among symbol tables

Tables are made and copied, and spellings are resolved on them, in any order.  A
spelling is bound by the first step that resolves it on a table, and whoever was
copied from that table later has inherited the binding.  So the history of a
family tells of each table what it binds and by which step, without looking into
any table: it is the first step that resolved the spelling on the table itself,
or on one that the table was copied from after that step.

Two identifiers share their binding exactly if this is one step for both.
-/

set_option autoImplicit false

namespace JamTokens

/-! ## One table -/

namespace Symbols

theorem get?_resolveAs (t : Symbols) (act : Nat) (spelling other : String) :
    (t.resolveAs act spelling).2.get? other =
      if other = spelling then some (t.resolveAs act spelling).1 else t.get? other := by
  unfold resolveAs
  cases found : t.get? spelling with
  | some token =>
      dsimp only
      by_cases same : other = spelling
      · rw [if_pos same, same, found]
      · rw [if_neg same]
  | none =>
      unfold get? at found ⊢
      dsimp only
      cases reserved : reservedWords.lookup other with
      | some token =>
          have different : other ≠ spelling := by
            rintro rfl
            rw [reserved] at found
            cases found
          rw [if_neg different]
      | none =>
          dsimp only
          by_cases same : other = spelling
          · subst same
            rw [reserved] at found
            rw [if_pos rfl, List.find?_append, Option.map_eq_none_iff.mp found]
            simp
          · have passed : ((⟨spelling, act⟩ : Ident).spelling == other) = false := by
              simpa using Ne.symm same
            rw [if_neg same, List.find?_append, List.find?_cons, passed]
            simp

/-- Each spelling is bound once, and none that is reserved. -/
structure Distinct (t : Symbols) : Prop where
  once : (t.bound.map Ident.spelling).Nodup
  free : ∀ name ∈ t.bound, reservedWords.lookup name.spelling = none

theorem distinct_initial : Distinct .initial :=
  ⟨List.nodup_nil, fun _ member => absurd member List.not_mem_nil⟩

theorem Distinct.resolveAs {t : Symbols} (h : t.Distinct) (act : Nat) (spelling : String) :
    (t.resolveAs act spelling).2.Distinct := by
  rcases t.resolveAs_cases act spelling with
    ⟨token, -, made⟩ | ⟨name, -, -, -, made⟩ | ⟨free, fresh, made⟩
  · exact made ▸ h
  · exact made ▸ h
  · rw [made]
    constructor
    · rw [List.map_append, List.map_singleton]
      exact h.once.append (List.nodup_singleton _) (by simpa using fresh)
    · intro name member
      rcases List.mem_append.mp member with old | new
      · exact h.free name old
      · rw [List.mem_singleton.mp new]
        exact free

theorem Distinct.mem_bound_iff {t : Symbols} (h : t.Distinct) (spelling : String) :
    spelling ∈ t.bound.map Ident.spelling ↔
      reservedWords.lookup spelling = none ∧ (t.get? spelling).isSome := by
  constructor
  · intro member
    obtain ⟨name, bound, rfl⟩ := List.mem_map.mp member
    refine ⟨h.free name bound, ?_⟩
    simp only [get?, h.free name bound, Option.isSome_map, List.find?_isSome]
    exact ⟨name, bound, beq_self_eq_true _⟩
  · rintro ⟨free, found⟩
    simp only [get?, free, Option.isSome_map, List.find?_isSome, beq_iff_eq] at found
    obtain ⟨name, bound, same⟩ := found
    exact List.mem_map.mpr ⟨name, bound, same⟩

theorem Distinct.size_eq {t : Symbols} (h : t.Distinct) :
    t.size = 20 +
      {spelling | reservedWords.lookup spelling = none ∧ (t.get? spelling).isSome}.ncard := by
  have listed : {spelling | reservedWords.lookup spelling = none ∧ (t.get? spelling).isSome} =
      ((t.bound.map Ident.spelling).toFinset : Set String) := by
    ext spelling
    rw [List.coe_toFinset]
    exact (h.mem_bound_iff spelling).symm
  rw [listed, Set.ncard_coe_finset, List.toFinset_card_of_nodup h.once, List.length_map]
  rfl

end Symbols

/-! ## Steps on a family -/

namespace SymbolFamily

inductive Step
  | resolve (table : Nat) (spelling : String)
  | get (table : Nat) (spelling : String)
  | contains (table : Nat) (spelling : String)
  | copy (table : Nat)
  | add
  deriving DecidableEq, Repr

def step (f : SymbolFamily) : Step → SymbolFamily
  | .resolve table spelling => (f.resolve table spelling).2
  | .get _ _ => f
  | .contains _ _ => f
  | .copy table => f.copy table
  | .add => f.add

/-- The token that a step obtains, and the table it comes from. -/
def obtained (f : SymbolFamily) : Step → Option (Nat × Token)
  | .resolve table spelling => (f.resolve table spelling).1.map (table, ·)
  | .get table spelling => (f.get? table spelling).map (table, ·)
  | _ => none

def count (f : SymbolFamily) : Nat := f.tables.length

variable {f : SymbolFamily} {table other : Nat} {spelling word : String}

theorem resolve_of_table {t : Symbols} (found : f.tables[table]? = some t) :
    f.resolve table spelling = (some (t.resolveAs f.acts spelling).1,
      ⟨f.tables.set table (t.resolveAs f.acts spelling).2, f.acts + 1⟩) := by
  simp [resolve, found]

theorem get?_of_table {t : Symbols} (found : f.tables[table]? = some t) :
    f.get? table spelling = t.get? spelling := by
  simp [get?, found]

theorem table_of_lt (h : table < f.count) : ∃ t, f.tables[table]? = some t :=
  ⟨f.tables[table], List.getElem?_eq_getElem h⟩

theorem no_table_of_le (h : f.count ≤ table) : f.tables[table]? = none :=
  List.getElem?_eq_none_iff.mpr h

theorem tables_resolve {t : Symbols} (found : f.tables[table]? = some t) :
    (f.resolve table spelling).2.tables[other]? =
      if other = table then some (t.resolveAs f.acts spelling).2 else f.tables[other]? := by
  rw [resolve_of_table found]
  dsimp only
  split
  · next same =>
      subst same
      obtain ⟨inside, -⟩ := List.getElem?_eq_some_iff.mp found
      exact List.getElem?_set_self inside
  · next different => exact List.getElem?_set_ne (Ne.symm different)

theorem get?_resolve (h : table < f.count) :
    (f.resolve table spelling).2.get? other word =
      if other = table ∧ word = spelling then (f.resolve table spelling).1
      else f.get? other word := by
  obtain ⟨t, found⟩ := table_of_lt h
  have behind : (f.resolve table spelling).2.tables[other]? = _ := tables_resolve found
  by_cases here : other = table
  · subst here
    rw [if_pos rfl] at behind
    rw [get?_of_table behind, Symbols.get?_resolveAs, get?_of_table found, resolve_of_table found]
    simp
  · rw [if_neg here] at behind
    rw [get?, behind, if_neg (fun both => here both.1)]
    rfl

theorem resolve_missing (h : f.count ≤ table) : f.resolve table spelling = (none, f) := by
  simp [resolve, no_table_of_le h]

theorem tables_copy (h : other < f.count) (made : Nat) :
    (f.copy made).tables[other]? = f.tables[other]? := by
  unfold copy
  cases f.tables[made]? with
  | none => rfl
  | some t => exact List.getElem?_append_left h

theorem tables_add (h : other < f.count) : f.add.tables[other]? = f.tables[other]? :=
  List.getElem?_append_left h

theorem get?_copy (h : table < f.count) : (f.copy table).get? f.count word = f.get? table word := by
  obtain ⟨t, found⟩ := table_of_lt h
  have last : (f.copy table).tables[f.count]? = some t := by
    simp [copy, found, count]
  rw [get?_of_table last, get?_of_table found]

theorem get?_add : f.add.get? f.count word = Symbols.initial.get? word := by
  have last : f.add.tables[f.count]? = some .initial := by simp [add, count]
  exact get?_of_table last

theorem tables_step (h : other < f.count) {e : Step} (elsewhere : ∀ word, e ≠ .resolve other word) :
    (f.step e).tables[other]? = f.tables[other]? := by
  cases e with
  | resolve table spelling =>
      have different : other ≠ table := by
        rintro rfl
        exact elsewhere spelling rfl
      rcases Nat.lt_or_ge table f.count with inside | missing
      · obtain ⟨t, found⟩ := table_of_lt inside
        rw [step, tables_resolve found, if_neg different]
      · rw [step, resolve_missing missing]
  | get table spelling => rfl
  | contains table spelling => rfl
  | copy table => exact tables_copy h table
  | add => exact tables_add h

theorem get?_step (h : other < f.count) {e : Step} (elsewhere : e ≠ .resolve other word) :
    (f.step e).get? other word = f.get? other word := by
  by_cases here : ∃ spelling, e = .resolve other spelling
  · obtain ⟨spelling, rfl⟩ := here
    have different : word ≠ spelling := by
      rintro rfl
      exact elsewhere rfl
    rw [step, get?_resolve h, if_neg (fun both => different both.2)]
  · rw [get?, tables_step h (fun spelling same => here ⟨spelling, same⟩)]
    rfl

theorem distinct_step (h : ∀ t ∈ f.tables, t.Distinct) (e : Step) :
    ∀ t ∈ (f.step e).tables, t.Distinct := by
  intro t member
  cases e with
  | resolve table spelling =>
      rcases Nat.lt_or_ge table f.count with inside | missing
      · obtain ⟨t', found⟩ := table_of_lt inside
        rw [step, resolve_of_table found] at member
        rcases List.mem_or_eq_of_mem_set member with old | rfl
        · exact h t old
        · exact (h t' (List.mem_of_getElem? found)).resolveAs f.acts spelling
      · rw [step, resolve_missing missing] at member
        exact h t member
  | get table spelling => exact h t member
  | contains table spelling => exact h t member
  | copy table =>
      rw [step, copy] at member
      split at member
      · exact h t member
      · next t' found =>
          rcases List.mem_append.mp member with old | new
          · exact h t old
          · exact List.mem_singleton.mp new ▸ h t' (List.mem_of_getElem? found)
  | add =>
      rcases List.mem_append.mp member with old | new
      · exact h t old
      · exact List.mem_singleton.mp new ▸ Symbols.distinct_initial

def makes (f : SymbolFamily) : Step → Bool
  | .copy table => table < f.count
  | .add => true
  | _ => false

theorem count_step (f : SymbolFamily) (e : Step) :
    (f.step e).count = f.count + if f.makes e then 1 else 0 := by
  cases e with
  | resolve table spelling =>
      rcases Nat.lt_or_ge table f.count with inside | missing
      · obtain ⟨t, found⟩ := table_of_lt inside
        rw [step, resolve_of_table found]
        exact List.length_set
      · rw [step, resolve_missing missing]
        rfl
  | get table spelling => rfl
  | contains table spelling => rfl
  | copy table =>
      rcases Nat.lt_or_ge table f.count with inside | missing
      · obtain ⟨t, found⟩ := table_of_lt inside
        have made : f.makes (.copy table) = true := decide_eq_true inside
        rw [made, step, copy, found]
        exact List.length_append
      · simp [step, copy, no_table_of_le missing, makes, Nat.not_lt.mpr missing]
  | add => simp [step, add, makes, count]

theorem acts_step (f : SymbolFamily) (e : Step) : f.acts ≤ (f.step e).acts := by
  cases e with
  | resolve table spelling =>
      rcases Nat.lt_or_ge table f.count with inside | missing
      · obtain ⟨t, found⟩ := table_of_lt inside
        rw [step, resolve_of_table found]
        exact Nat.le_succ _
      · rw [step, resolve_missing missing]
  | get table spelling => exact Nat.le_refl _
  | contains table spelling => exact Nat.le_refl _
  | copy table =>
      rw [step, copy]
      split <;> exact Nat.le_refl _
  | add => exact Nat.le_refl _

theorem acts_resolve (h : table < f.count) : (f.resolve table spelling).2.acts = f.acts + 1 := by
  obtain ⟨t, found⟩ := table_of_lt h
  rw [resolve_of_table found]

/-! ## Histories -/

def after (steps : List Step) : SymbolFamily := steps.foldl step initial

def before (steps : List Step) (k : Nat) : SymbolFamily := after (steps.take k)

variable {steps : List Step} {j k n : Nat}

theorem before_succ {e : Step} (h : steps[k]? = some e) :
    before steps (k + 1) = (before steps k).step e := by
  unfold before after
  rw [List.take_add_one, h, List.foldl_append]
  rfl

theorem before_succ_of_none (h : steps[k]? = none) : before steps (k + 1) = before steps k := by
  unfold before
  rw [List.take_add_one, h, Option.toList_none, List.append_nil]

theorem before_mono {measure : SymbolFamily → Nat}
    (grows : ∀ f e, measure f ≤ measure (step f e)) (h : j ≤ k) :
    measure (before steps j) ≤ measure (before steps k) := by
  induction k, h using Nat.le_induction with
  | base => exact Nat.le_refl _
  | succ k _ ih =>
      refine Nat.le_trans ih ?_
      cases found : steps[k]? with
      | none => rw [before_succ_of_none found]
      | some e =>
          rw [before_succ found]
          exact grows _ e

theorem count_mono (h : j ≤ k) : (before steps j).count ≤ (before steps k).count := by
  refine before_mono (fun f e => ?_) h
  rw [count_step]
  exact Nat.le_add_right _ _

theorem lt_of_count_lt (h : (before steps j).count < (before steps k).count) : j < k :=
  Nat.lt_of_not_le fun later => Nat.not_lt.mpr (count_mono later) h

/-- Step `k` resolved the spelling on the table. -/
structure ResolvedAt (steps : List Step) (k table : Nat) (spelling : String) : Prop where
  step : steps[k]? = some (.resolve table spelling)
  exists_table : table < (before steps k).count

/-- Step `j` copied the table and made one of the given number. -/
structure CopiedAt (steps : List Step) (j parent table : Nat) : Prop where
  step : steps[j]? = some (.copy parent)
  exists_parent : parent < (before steps j).count
  number : table = (before steps j).count

/-- The table is the origin, or was copied from it after step `k`, at once or by way of others. -/
inductive Inherits (steps : List Step) (k origin : Nat) : Nat → Prop
  | self : Inherits steps k origin origin
  | copied {j parent table : Nat} : Inherits steps k origin parent → k < j →
      CopiedAt steps j parent table → Inherits steps k origin table

/-- Step `k` resolved the spelling on the table, or on one that it was copied from after that. -/
def Hears (steps : List Step) (k table : Nat) (spelling : String) : Prop :=
  ∃ origin, ResolvedAt steps k origin spelling ∧ Inherits steps k origin table

/-- Step `k` is the first that resolved the spelling for the table. -/
structure BindingAct (steps : List Step) (k table : Nat) (spelling : String) : Prop where
  hears : Hears steps k table spelling
  first : ∀ earlier < k, ¬ Hears steps earlier table spelling

theorem CopiedAt.makes (h : CopiedAt steps j other table) :
    (before steps (j + 1)).count = (before steps j).count + 1 := by
  rw [before_succ h.step, count_step]
  simp [SymbolFamily.makes, h.exists_parent]

theorem CopiedAt.lt (h : CopiedAt steps j other table) (inside : table < (before steps n).count) :
    j < n :=
  lt_of_count_lt (h.number ▸ inside)

theorem CopiedAt.same {j' parent parent' : Nat} (h : CopiedAt steps j parent table)
    (h' : CopiedAt steps j' parent' table) : j = j' ∧ parent = parent' := by
  have order : ∀ {i i' p p' : Nat}, CopiedAt steps i p table → CopiedAt steps i' p' table →
      i ≤ i' := by
    intro i i' p p' made made'
    have behind : (before steps i).count < (before steps (i' + 1)).count := by
      rw [made'.makes, ← made'.number, made.number]
      exact Nat.lt_succ_self _
    exact Nat.lt_succ_iff.mp (lt_of_count_lt behind)
  obtain rfl := Nat.le_antisymm (order h h') (order h' h)
  have step := h.step.symm.trans h'.step
  cases step
  exact ⟨rfl, rfl⟩

/-- What is inherited by a table that exists is inherited by then. -/
theorem Hears.resolvedAt_of_late (h : Hears steps k table spelling) (inside : table < (before steps n).count)
    (late : n ≤ k) : ResolvedAt steps k table spelling := by
  obtain ⟨origin, resolved, inherits⟩ := h
  cases inherits with
  | self => exact resolved
  | copied _ after copied => exact absurd (copied.lt inside) (by omega)

/-- A copy hears what the table heard that it was copied from, up to then, and what is resolved on
the copy itself. -/
theorem CopiedAt.hears_iff (h : CopiedAt steps j other table) (early : k < j) :
    Hears steps k table spelling ↔ Hears steps k other spelling := by
  constructor
  · rintro ⟨origin, resolved, inherits⟩
    cases inherits with
    | self =>
        have exists_early := Nat.lt_of_lt_of_le resolved.exists_table (count_mono (Nat.le_of_lt early))
        exact absurd h.number (Nat.ne_of_lt exists_early)
    | copied inherits _ copied =>
        obtain ⟨rfl, rfl⟩ := h.same copied
        exact ⟨origin, resolved, inherits⟩
  · rintro ⟨origin, resolved, inherits⟩
    exact ⟨origin, resolved, inherits.copied early h⟩

/-- A table that inherits from another behind a step has heard the same before that step. -/
theorem Inherits.hears_iff {origin : Nat} (h : Inherits steps n origin table) (early : k ≤ n) :
    Hears steps k table spelling ↔ Hears steps k origin spelling := by
  induction h with
  | self => exact Iff.rfl
  | copied _ after copied ih => exact (copied.hears_iff (Nat.lt_of_le_of_lt early after)).trans ih

/-- The first resolution of the spelling on some table that both tables are, or were copied from
behind it. -/
def SharedAct (steps : List Step) (table other : Nat) (spelling : String) : Prop :=
  ∃ k origin, ResolvedAt steps k origin spelling ∧ BindingAct steps k origin spelling ∧
    Inherits steps k origin table ∧ Inherits steps k origin other

theorem BindingAct.unique (h : BindingAct steps j table spelling)
    (h' : BindingAct steps k table spelling) : j = k := by
  rcases Nat.lt_trichotomy j k with less | same | more
  · exact absurd h.hears (h'.first j less)
  · exact same
  · exact absurd h'.hears (h.first k more)

theorem sharedAct_iff : SharedAct steps table other spelling ↔
    ∃ k, BindingAct steps k table spelling ∧ BindingAct steps k other spelling := by
  constructor
  · rintro ⟨k, origin, resolved, act, left, right⟩
    refine ⟨k, ⟨⟨origin, resolved, left⟩, ?_⟩, ⟨⟨origin, resolved, right⟩, ?_⟩⟩
    · intro earlier less
      rw [left.hears_iff (Nat.le_of_lt less)]
      exact act.first earlier less
    · intro earlier less
      rw [right.hears_iff (Nat.le_of_lt less)]
      exact act.first earlier less
  · rintro ⟨k, ⟨⟨origin, resolved, left⟩, first⟩, ⟨⟨origin', resolved', right⟩, -⟩⟩
    have same := resolved.step.symm.trans resolved'.step
    cases same
    refine ⟨k, origin, resolved, ⟨⟨origin, resolved, .self⟩, ?_⟩, left, right⟩
    intro earlier less
    rw [← left.hears_iff (Nat.le_of_lt less)]
    exact first earlier less

/-! ## What a table binds -/

/-- What a table binds a spelling to before step `n`, as the history has it. -/
inductive Binds (steps : List Step) (n table : Nat) (spelling : String) : Option Token → Prop
  | act {k : Nat} (early : k < n) (act : BindingAct steps k table spelling) :
      Binds steps n table spelling (some (.identifier ⟨spelling, (before steps k).acts⟩))
  | nothing (unheard : ∀ k < n, ¬ Hears steps k table spelling) :
      Binds steps n table spelling none

theorem Binds.later {token? : Option Token} (h : Binds steps n table spelling token?)
    (unheard : ¬ Hears steps n table spelling) : Binds steps (n + 1) table spelling token? := by
  cases h with
  | act early act => exact .act (Nat.lt_succ_of_lt early) act
  | nothing before =>
      refine .nothing fun k early => ?_
      rcases Nat.lt_succ_iff_lt_or_eq.mp early with less | rfl
      · exact before k less
      · exact unheard

theorem Binds.copied {token? : Option Token} (copied : CopiedAt steps n other table)
    (h : Binds steps n other spelling token?) : Binds steps n table spelling token? := by
  cases h with
  | @act k early act =>
      refine .act early ⟨(copied.hears_iff early).mpr act.hears, fun earlier less => ?_⟩
      rw [copied.hears_iff (Nat.lt_trans less early)]
      exact act.first earlier less
  | nothing unheard =>
      refine .nothing fun k early => ?_
      rw [copied.hears_iff early]
      exact unheard k early

/-- Nothing has been resolved on a table that is not there yet, unless it is to be a copy. -/
theorem not_hears_of_added (added : steps[n]? = some .add) (early : k < n) :
    ¬ Hears steps k (before steps n).count spelling := by
  rintro ⟨origin, resolved, inherits⟩
  generalize made : (before steps n).count = table at inherits
  cases inherits with
  | self =>
      have exists_early := Nat.lt_of_lt_of_le resolved.exists_table (count_mono (Nat.le_of_lt early))
      exact Nat.lt_irrefl _ (made ▸ exists_early)
  | @copied j parent _ _ _ copied =>
      have behind : (before steps (n + 1)).count = table + 1 := by
        rw [before_succ added, count_step, made]
        rfl
      have inside : table < (before steps (n + 1)).count := by omega
      have less : j < n + 1 := copied.lt inside
      have more : n < j + 1 := lt_of_count_lt (by rw [copied.makes, ← copied.number, made]; omega)
      obtain rfl : j = n := by omega
      rw [copied.step] at added
      cases added

/-- The first step that resolves a spelling for a table binds it, to what then is a new identifier. -/
theorem binds_of_resolved (resolved : ResolvedAt steps n table spelling)
    (h : Binds steps n table spelling ((before steps n).get? table spelling)) :
    Binds steps (n + 1) table spelling ((before steps n).resolve table spelling).1 := by
  obtain ⟨t, found⟩ := table_of_lt resolved.exists_table
  rw [get?_of_table found] at h
  rw [resolve_of_table found, Symbols.resolveAs]
  generalize t.get? spelling = token? at h
  cases h with
  | act early act => exact .act (Nat.lt_succ_of_lt early) act
  | nothing unheard =>
      exact .act (Nat.lt_succ_self n) ⟨⟨table, resolved, .self⟩, unheard⟩

theorem not_hears_at (other : ∀ origin, steps[n]? ≠ some (.resolve origin spelling)) :
    ¬ Hears steps n table spelling := by
  rintro ⟨origin, resolved, -⟩
  exact other origin resolved.step

theorem get?_initial (free : reservedWords.lookup spelling = none) :
    Symbols.initial.get? spelling = none := by
  simp [Symbols.get?, Symbols.initial, free]

/-- On a table that is there already a step matters only if it resolves this very spelling. -/
theorem binds_step_old {e : Step} (found : steps[n]? = some e) (old : table < (before steps n).count)
    (h : Binds steps n table spelling ((before steps n).get? table spelling)) :
    Binds steps (n + 1) table spelling (((before steps n).step e).get? table spelling) := by
  by_cases here : e = .resolve table spelling
  · subst here
    rw [step, get?_resolve old, if_pos ⟨rfl, rfl⟩]
    exact binds_of_resolved ⟨found, old⟩ h
  · rw [get?_step old here]
    refine h.later fun hears => here ?_
    have resolved := (hears.resolvedAt_of_late old (Nat.le_refl n)).step
    exact Option.some.inj (found.symm.trans resolved)

/-- A table that a step makes binds what the copied one binds, or nothing. -/
theorem binds_step_new {e : Step} (free : reservedWords.lookup spelling = none)
    (found : steps[n]? = some e) (makes : (before steps n).makes e = true)
    (h : ∀ {parent}, parent < (before steps n).count →
      Binds steps n parent spelling ((before steps n).get? parent spelling)) :
    Binds steps (n + 1) (before steps n).count spelling
      (((before steps n).step e).get? (before steps n).count spelling) := by
  have unheard (other : ∀ origin, e ≠ .resolve origin spelling) :
      ¬ Hears steps n (before steps n).count spelling :=
    not_hears_at fun origin same => other origin (Option.some.inj (found.symm.trans same))
  cases e with
  | copy parent =>
      have exists_parent : parent < (before steps n).count := by
        simpa [SymbolFamily.makes] using makes
      have copied : CopiedAt steps n parent (before steps n).count := ⟨found, exists_parent, rfl⟩
      rw [step, get?_copy exists_parent]
      exact ((h exists_parent).copied copied).later (unheard nofun)
  | add =>
      rw [step, get?_add, get?_initial free]
      exact (Binds.nothing fun k early => not_hears_of_added found early).later (unheard nofun)
  | resolve _ _ => cases makes
  | get _ _ => cases makes
  | contains _ _ => cases makes

/-- Every table binds what its history has it bind. -/
theorem binds_get? (free : reservedWords.lookup spelling = none)
    (inside : table < (before steps n).count) :
    Binds steps n table spelling ((before steps n).get? table spelling) := by
  induction n generalizing table with
  | zero =>
      have first : table = 0 := Nat.lt_one_iff.mp inside
      subst first
      have nothing : (before steps 0).get? 0 spelling = none := get?_initial free
      rw [nothing]
      exact .nothing fun k early => absurd early (Nat.not_lt_zero k)
  | succ n ih =>
      cases found : steps[n]? with
      | none =>
          rw [before_succ_of_none found] at inside ⊢
          exact (ih inside).later (not_hears_at fun _ same => nomatch found.symm.trans same)
      | some e =>
          rw [before_succ found] at inside ⊢
          rcases Nat.lt_or_ge table (before steps n).count with old | new
          · exact binds_step_old found old (ih old)
          · rw [count_step] at inside
            have makes : (before steps n).makes e = true := by
              by_contra other
              rw [if_neg other] at inside
              omega
            have number : table = (before steps n).count := by
              rw [if_pos makes] at inside
              omega
            subst number
            exact binds_step_new free found makes ih

theorem acts_lt (act : BindingAct steps j table spelling) (h : j < k) :
    (before steps j).acts < (before steps k).acts := by
  obtain ⟨origin, resolved, -⟩ := act.hears
  have next : (before steps (j + 1)).acts = (before steps j).acts + 1 := by
    rw [before_succ resolved.step]
    exact acts_resolve resolved.exists_table
  have later : (before steps (j + 1)).acts ≤ (before steps k).acts := before_mono acts_step h
  omega

theorem act_of_acts (act : BindingAct steps j table spelling)
    (act' : BindingAct steps k other word)
    (same : (before steps j).acts = (before steps k).acts) : j = k := by
  rcases Nat.lt_trichotomy j k with less | same' | more
  · exact absurd same (Nat.ne_of_lt (acts_lt act less))
  · exact same'
  · exact absurd same.symm (Nat.ne_of_lt (acts_lt act' more))

/-! ## What steps obtain -/

theorem lt_of_get? {token : Token} (h : f.get? table spelling = some token) : table < f.count := by
  obtain ⟨t, found, -⟩ := Option.bind_eq_some_iff.mp h
  exact (List.getElem?_eq_some_iff.mp found).1

theorem free_of_identifier {name : Ident} (h : f.get? table spelling = some (.identifier name)) :
    reservedWords.lookup spelling = none := by
  obtain ⟨t, -, found⟩ := Option.bind_eq_some_iff.mp h
  cases reserved : reservedWords.lookup spelling with
  | none => rfl
  | some token =>
      rw [t.get?_of_reserved reserved] at found
      cases found
      cases isFixed_of_reserved reserved

theorem act_of_get? {name : Ident}
    (h : (before steps n).get? table spelling = some (.identifier name)) :
    ∃ k, BindingAct steps k table spelling ∧ name = ⟨spelling, (before steps k).acts⟩ := by
  have binds := binds_get? (free_of_identifier h) (lt_of_get? h)
  rw [h] at binds
  cases binds with
  | @act k _ act => exact ⟨k, act, rfl⟩

def Obtains (steps : List Step) (i table : Nat) (name : Ident) : Prop :=
  ∃ e, steps[i]? = some e ∧ (before steps i).obtained e = some (table, .identifier name)

theorem Obtains.act {i : Nat} {name : Ident} (h : Obtains steps i table name) :
    ∃ k, BindingAct steps k table name.spelling ∧
      name = ⟨name.spelling, (before steps k).acts⟩ := by
  obtain ⟨e, found, obtained⟩ := h
  -- what a step obtains, the table binds behind the step
  have bound : ∃ n spelling, (before steps n).get? table spelling = some (.identifier name) := by
    cases e with
    | resolve table' spelling =>
        obtain ⟨token, resolved, same⟩ := Option.map_eq_some_iff.mp obtained
        cases same
        have inside : table < (before steps i).count := by
          by_contra missing
          rw [resolve_missing (Nat.not_lt.mp missing)] at resolved
          cases resolved
        refine ⟨i + 1, spelling, ?_⟩
        rw [before_succ found, step, get?_resolve inside, if_pos ⟨rfl, rfl⟩, resolved]
    | get table' spelling =>
        obtain ⟨token, bound, same⟩ := Option.map_eq_some_iff.mp obtained
        cases same
        exact ⟨i, spelling, bound⟩
    | contains table' spelling => cases obtained
    | copy table' => cases obtained
    | add => cases obtained
  obtain ⟨n, spelling, bound⟩ := bound
  obtain ⟨k, act, rfl⟩ := act_of_get? bound
  exact ⟨k, act, rfl⟩

theorem shares_iff {i : Nat} {a b : Ident} (ha : Obtains steps i table a)
    (hb : Obtains steps j other b) :
    a.shares b = true ↔ a.spelling = b.spelling ∧ SharedAct steps table other a.spelling := by
  obtain ⟨k, act, made⟩ := ha.act
  obtain ⟨k', act', made'⟩ := hb.act
  rw [Ident.shares, decide_eq_true_iff, sharedAct_iff]
  constructor
  · rintro rfl
    have same := congrArg Ident.binding (made.symm.trans made')
    obtain rfl := act_of_acts act act' same
    exact ⟨rfl, k, act, act'⟩
  · rintro ⟨alike, common, left, right⟩
    obtain rfl := act.unique left
    rw [alike] at right
    obtain rfl := act'.unique right
    rw [made, made', alike]

/-! ## All tables of a family -/

theorem distinct_after (steps : List Step) : ∀ t ∈ (after steps).tables, t.Distinct := by
  unfold after
  induction steps using List.reverseRecOn with
  | nil =>
      intro t member
      exact List.mem_singleton.mp member ▸ Symbols.distinct_initial
  | append_singleton steps e ih =>
      rw [List.foldl_append]
      exact distinct_step ih e

theorem contains_iff (inside : table < (before steps n).count) :
    (before steps n).contains table spelling = true ↔
      (reservedWords.lookup spelling).isSome ∨ ∃ k < n, Hears steps k table spelling := by
  obtain ⟨t, found⟩ := table_of_lt inside
  rw [contains, found, Option.any_some, Symbols.contains]
  cases reserved : reservedWords.lookup spelling with
  | some token => simp [t.get?_of_reserved reserved]
  | none =>
      have binds := binds_get? reserved inside
      rw [get?_of_table found] at binds
      generalize t.get? spelling = token? at binds
      cases binds with
      | @act k early act => simpa using ⟨k, early, act.hears⟩
      | nothing unheard => simpa using unheard

theorem before_length (steps : List Step) : before steps steps.length = after steps := by
  rw [before, List.take_length]

theorem Hears.lt_length (h : Hears steps k table spelling) : k < steps.length := by
  obtain ⟨origin, resolved, -⟩ := h
  exact (List.getElem?_eq_some_iff.mp resolved.step).1

theorem contains_after (inside : table < (after steps).count) :
    (after steps).contains table spelling = true ↔
      (reservedWords.lookup spelling).isSome ∨ ∃ k, Hears steps k table spelling := by
  rw [← before_length] at inside ⊢
  rw [contains_iff inside]
  refine or_congr_right ⟨fun ⟨k, _, hears⟩ => ⟨k, hears⟩, fun ⟨k, hears⟩ => ⟨k, ?_, hears⟩⟩
  exact hears.lt_length

theorem size_after {t : Symbols} (found : (after steps).tables[table]? = some t) :
    t.size = 20 + {spelling | reservedWords.lookup spelling = none ∧
      ∃ k, Hears steps k table spelling}.ncard := by
  rw [(distinct_after steps t (List.mem_of_getElem? found)).size_eq]
  congr 2
  ext spelling
  refine and_congr_right fun free => ?_
  have contained : (after steps).contains table spelling = true ↔ _ :=
    contains_after (List.getElem?_eq_some_iff.mp found).1
  rw [contains, found, Option.any_some, Symbols.contains, free] at contained
  simpa using contained

theorem resolve_binds (f : SymbolFamily) (inside : table < f.count) (spelling : String) :
    ∃ token, (f.resolve table spelling).1 = some token ∧
      (f.resolve table spelling).2.get? table spelling = some token ∧ token.text = spelling ∧
      (reservedWords.lookup spelling = some token ∨
        reservedWords.lookup spelling = none ∧ ∃ name, token = .identifier name) := by
  obtain ⟨t, found⟩ := table_of_lt inside
  have returned : (f.resolve table spelling).1 = some (t.resolveAs f.acts spelling).1 := by
    rw [resolve_of_table found]
  refine ⟨_, returned, ?_, t.resolveAs_text f.acts spelling, ?_⟩
  · rw [get?_resolve inside, if_pos ⟨rfl, rfl⟩, returned]
  · refine (t.resolveAs_token f.acts spelling).imp_right ?_
    rintro ⟨free, name, made, -⟩
    exact ⟨free, name, made⟩

theorem get?_step_of_bound {token : Token} (h : f.get? table spelling = some token) (e : Step) :
    (f.step e).get? table spelling = some token := by
  have inside := lt_of_get? h
  by_cases here : e = .resolve table spelling
  · subst here
    obtain ⟨t, found⟩ := table_of_lt inside
    have bound : t.get? spelling = some token := by rw [← get?_of_table found, h]
    rw [step, get?_resolve inside, if_pos ⟨rfl, rfl⟩, resolve_of_table found, Symbols.resolveAs,
      bound]
  · rw [get?_step inside here, h]

/-- Whatever steps have been made on a family of tables: resolving a spelling on a table binds it
there to a token of this text, a step leaves all other tables as they are, no binding is lost, a
table contains besides the reserved words what was resolved for it, its size counts that, and two
identifiers share their binding exactly if they are spelled alike and one step bound both. -/
theorem tables_share_bindings (steps : List Step) :
    let f := after steps
    (∀ table < f.count, ∀ spelling, ∃ token, (f.resolve table spelling).1 = some token ∧
        (f.resolve table spelling).2.get? table spelling = some token ∧ token.text = spelling ∧
        (reservedWords.lookup spelling = some token ∨
          reservedWords.lookup spelling = none ∧ ∃ name, token = .identifier name)) ∧
      (∀ e, ∀ other < f.count, (∀ spelling, e ≠ .resolve other spelling) →
        (f.step e).tables[other]? = f.tables[other]?) ∧
      (∀ table spelling token, f.get? table spelling = some token →
        ∀ e, (f.step e).get? table spelling = some token) ∧
      (∀ table < f.count, ∀ spelling, f.contains table spelling = true ↔
        (reservedWords.lookup spelling).isSome ∨ ∃ k, Hears steps k table spelling) ∧
      (∀ table t, f.tables[table]? = some t →
        t.size = 20 + {spelling | reservedWords.lookup spelling = none ∧
          ∃ k, Hears steps k table spelling}.ncard) ∧
      ∀ i j table other a b, Obtains steps i table a → Obtains steps j other b →
        (a.shares b = true ↔
          a.spelling = b.spelling ∧ SharedAct steps table other a.spelling) := by
  intro f
  refine ⟨fun table inside spelling => f.resolve_binds inside spelling, ?_, ?_, ?_, ?_, ?_⟩
  · exact fun e other inside elsewhere => tables_step inside elsewhere
  · exact fun table spelling token bound e => get?_step_of_bound bound e
  · exact fun table inside spelling => contains_after inside
  · exact fun table t found => size_after found
  · exact fun i j table other a b ha hb => shares_iff ha hb

/-- The copy made before the spelling is bound binds it anew, the one made behind that shares it. -/
example :
    let f := after [.copy 0, .resolve 0 "x", .resolve 1 "x", .copy 0]
    [0, 1, 2].map (f.get? · "x") =
      [some (.identifier ⟨"x", 0⟩), some (.identifier ⟨"x", 1⟩), some (.identifier ⟨"x", 0⟩)] := by
  decide

end SymbolFamily

end JamTokens
