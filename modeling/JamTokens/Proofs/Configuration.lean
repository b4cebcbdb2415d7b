import JamTokens.Program.Run
import Mathlib.Data.List.ReduceOption

/-!
# Configuration files

A run has one configuration file at most: the one that is named, else the first
one there is in the working directory, in the home directory and in the
directory of the system.  The file says what its entries say, and the default
where it has no entry.

Which directories these are, and which entries a text has, is taken from those
who read the environment and the text.
-/

set_option autoImplicit false

namespace JamTokens

namespace Settings

open Toml (Node Entries)

/-! ## What entries say -/

inductive IsTable : Node → Entries → Prop
  | inline (entries : Entries) : IsTable (.inline entries) entries
  | table (opening : Toml.Opening) (entries : Entries) : IsTable (.table opening entries) entries

inductive Bare : Node → Prop
  | array : Bare (.array [])
  | tables : Bare (.tables [])
  | table {node : Node} : IsTable node [] → Bare node

/-- A format is given by its name, or by a table that has the name and nothing else. -/
inductive NamesFormat : Node → OutputFormat → Prop
  | plain : NamesFormat (.string "plain") .plain
  | json : NamesFormat (.string "json") .json
  | table {node content : Node} {name : String} {format : OutputFormat} :
      IsTable node [(name, content)] → Bare content → NamesFormat (.string name) format →
      NamesFormat node format

inductive SaysFlag : Node → Bool → Prop
  | boolean (b : Bool) : SaysFlag (.boolean b) b

/-- What the entry of a key says; the default, if there is none. -/
inductive Entry {α : Type} (entries : Entries) (key : String) (byDefault : α)
    (means : Node → α → Prop) : α → Prop
  | missing : entries.lookup key = none → Entry entries key byDefault means byDefault
  | given {node : Node} {value : α} : entries.lookup key = some node → means node value →
      Entry entries key byDefault means value

structure Holds (entries : Entries) (s : Settings) : Prop where
  format : Entry entries "format" .plain NamesFormat s.format
  recover : Entry entries "recover" false SaysFlag s.recover
  verbose : Entry entries "verbose" false SaysFlag s.verbose

theorem bare_iff {node : Node} : Bare node ↔ isBare node = true := by
  constructor
  · intro h
    cases h with
    | array => rfl
    | tables => rfl
    | table empty =>
        cases empty with
        | _ => rfl
  · intro h
    cases node with
    | array items =>
        obtain rfl := List.isEmpty_iff.mp h
        exact .array
    | tables items =>
        obtain rfl := List.isEmpty_iff.mp h
        exact .tables
    | inline entries =>
        obtain rfl := List.isEmpty_iff.mp h
        exact .table (.inline [])
    | table opening entries =>
        obtain rfl := List.isEmpty_iff.mp h
        exact .table (.table opening [])
    | _ => cases h

theorem namesFormat_string_iff {name : String} {format : OutputFormat} :
    NamesFormat (.string name) format ↔ OutputFormat.ofName? name = some format := by
  constructor
  · intro h
    cases h with
    | plain => rfl
    | json => rfl
    | table entries => cases entries
  · intro h
    unfold OutputFormat.ofName? at h
    split at h
    · rename_i same
      subst same
      cases h
      exact .plain
    · split at h
      · rename_i same
        subst same
        cases h
        exact .json
      · cases h

theorem formatOf?_of_table {node : Node} {entries : Entries} {format : OutputFormat}
    (h : IsTable node entries) :
    formatOf? node = some format ↔
      ∃ name content, entries = [(name, content)] ∧ isBare content = true ∧
        OutputFormat.ofName? name = some format := by
  rcases entries with _ | ⟨⟨name, content⟩, _ | ⟨other, rest⟩⟩
  · cases h <;> simp [formatOf?, tableEntries?]
  · cases h <;> simp [formatOf?, tableEntries?]
  · cases h <;> simp [formatOf?, tableEntries?]

theorem namesFormat_iff (node : Node) (format : OutputFormat) :
    NamesFormat node format ↔ formatOf? node = some format := by
  constructor
  · intro h
    cases h with
    | plain => rfl
    | json => rfl
    | table entries bare named =>
        rw [formatOf?_of_table entries]
        exact ⟨_, _, rfl, bare_iff.mp bare, namesFormat_string_iff.mp named⟩
  · intro h
    have ofTable {entries : Entries} (table : IsTable node entries) : NamesFormat node format := by
      obtain ⟨name, content, rfl, bare, named⟩ := (formatOf?_of_table table).mp h
      exact .table table (bare_iff.mpr bare) (namesFormat_string_iff.mpr named)
    cases node with
    | string name => exact namesFormat_string_iff.mpr h
    | inline entries => exact ofTable (.inline entries)
    | table opening entries => exact ofTable (.table opening entries)
    | _ => cases h

theorem saysFlag_iff (node : Node) (b : Bool) : SaysFlag node b ↔ flagOf? node = some b := by
  constructor
  · intro h
    cases h with
    | boolean => rfl
  · intro h
    cases node with
    | boolean b => cases h; exact .boolean b
    | _ => cases h

theorem entry_iff {α : Type} {means : Node → α → Prop} {read : Node → Option α}
    (reads : ∀ node value, means node value ↔ read node = some value) {entries : Entries}
    {key : String} {byDefault value : α} :
    Entry entries key byDefault means value ↔
      setting entries key byDefault read = some value := by
  unfold setting
  constructor
  · intro h
    cases h with
    | missing absent => rw [absent]
    | given found meant =>
        rw [found]
        exact (reads _ _).mp meant
  · intro h
    cases found : entries.lookup key with
    | none =>
        rw [found] at h
        cases h
        exact .missing found
    | some node =>
        rw [found] at h
        exact .given found ((reads node value).mpr h)

theorem holds_iff {entries : Entries} {s : Settings} :
    Holds entries s ↔ ofEntries? entries = some s := by
  constructor
  · rintro ⟨format, recover, verbose⟩
    rw [entry_iff namesFormat_iff] at format
    rw [entry_iff saysFlag_iff] at recover verbose
    simp only [ofEntries?, default, format, recover, verbose]
    rfl
  · intro h
    obtain ⟨format, first, h⟩ := Option.bind_eq_some_iff.mp h
    obtain ⟨recover, second, h⟩ := Option.bind_eq_some_iff.mp h
    obtain ⟨verbose, third, h⟩ := Option.bind_eq_some_iff.mp h
    cases h
    exact ⟨(entry_iff namesFormat_iff).mpr first, (entry_iff saysFlag_iff).mpr second,
      (entry_iff saysFlag_iff).mpr third⟩

theorem parse?_eq_some_iff {text : List Char} {s : Settings} :
    parse? text = some s ↔ ∃ entries, Toml.parse? text = some entries ∧ Holds entries s := by
  rw [parse?, Option.bind_eq_some_iff]
  simp only [holds_iff]

/-- Settings that are saved are what the file then says. -/
theorem parse?_text (s : Settings) : parse? s.text.toList = some s := by
  obtain ⟨format, recover, verbose⟩ := s
  cases format with
  | _ =>
      cases recover with
      | _ =>
          cases verbose with
          | _ => decide +kernel

/-! ## What a file says -/

/-- The settings that the file holds; without a file, the defaults. -/
inductive Says (fs : FileSystem) : Option String → Settings → Prop
  | file {path text : String} {entries : Entries} {settings : Settings} :
      fs.read (.ofString path) = .ok text.toUTF8 → Toml.parse? text.toList = some entries →
      Holds entries settings → Says fs (some path) settings
  | nothing : Says fs none ⟨.plain, false, false⟩

/-- A file that is missing, cannot be read, is no text or does not parse. -/
inductive Refuses (fs : FileSystem) (path : String) : RunError → Prop
  | missing : fs.isPresent (.ofString path) = false → Refuses fs path (.config (.missing path))
  | unreadable {f : Failure} : fs.isPresent (.ofString path) = true →
      fs.read (.ofString path) = .error f → Refuses fs path (.io f)
  | noText {content : ByteArray} : fs.read (.ofString path) = .ok content →
      (∀ text : String, text.toUTF8 ≠ content) → Refuses fs path (.io .invalidText)
  | malformed {text : String} : fs.read (.ofString path) = .ok text.toUTF8 →
      (∀ entries settings, Toml.parse? text.toList = some entries → ¬ Holds entries settings) →
      Refuses fs path (.config (.malformed "not a configuration"))

/-! ## The directories -/

section

variable {env : Environment} {directory : String}

theorem homeDirectory?_eq_some_iff :
    homeDirectory? env = some directory ↔ env.lookup "HOME" = some directory ∧ directory ≠ "" := by
  simp [homeDirectory?, directory?, Option.filter_eq_some_iff]

theorem systemDirectory?_of_absolute (h : env.lookup "XDG_CONFIG_HOME" = some directory)
    (absolute : directory.toList.head? = some '/') : systemDirectory? env = some directory := by
  have proper : directory ≠ "" := by
    rintro rfl
    cases absolute
  simp [systemDirectory?, directory?, h, proper, absolute]

theorem systemDirectory?_of_home
    (h : ∀ other, env.lookup "XDG_CONFIG_HOME" = some other → other.toList.head? ≠ some '/') :
    systemDirectory? env = (homeDirectory? env).map (· ++ "/.config") := by
  have unset : (directory? env "XDG_CONFIG_HOME").filter (·.toList.head? = some '/') = none := by
    rw [Option.filter_eq_none_iff]
    intro other found absolute
    exact h other (Option.filter_eq_some_iff.mp found).1 (of_decide_eq_true absolute)
  rw [systemDirectory?, unset, Option.none_or]

end

/-! ## Which file is used -/

/-- Where a file is looked for if none is named, the first place first. -/
inductive Candidate (env : Environment) : Nat → String → Prop
  | here : Candidate env 0 "jamlex.toml"
  | home {directory : String} : homeDirectory? env = some directory →
      Candidate env 1 (directory ++ "/.config/jamlex/jamlex.toml")
  | system {directory : String} : systemDirectory? env = some directory →
      Candidate env 2 (directory ++ "/jamlex/jamlex.toml")

def NoneBefore (fs : FileSystem) (env : Environment) (rank : Nat) : Prop :=
  ∀ earlier < rank, ∀ path, Candidate env earlier path → fs.isPresent (.ofString path) = false

/-- The configuration file of a run, if there is one. -/
inductive Chosen (fs : FileSystem) (env : Environment) : Option String → Option String → Prop
  | named (path : String) : Chosen fs env (some path) (some path)
  | known {rank : Nat} {path : String} : Candidate env rank path → NoneBefore fs env rank →
      fs.isPresent (.ofString path) = true → Chosen fs env none (some path)
  | nothing : (∀ rank, NoneBefore fs env rank) → Chosen fs env none none

/-- The paths that are looked at until the file is found. -/
inductive Consulted (fs : FileSystem) (env : Environment) : Option String → String → Prop
  | named (path : String) : Consulted fs env (some path) path
  | known {rank : Nat} {path : String} : Candidate env rank path → NoneBefore fs env rank →
      Consulted fs env none path

theorem Candidate.unique {env : Environment} {rank : Nat} {path other : String}
    (h : Candidate env rank path) (h' : Candidate env rank other) : path = other := by
  cases h with
  | here =>
      cases h'
      rfl
  | home found =>
      cases h' with
      | home found' => rw [Option.some.inj (found.symm.trans found')]
  | system found =>
      cases h' with
      | system found' => rw [Option.some.inj (found.symm.trans found')]

def candidates (env : Environment) : List (Option String) :=
  [some "jamlex.toml", (homeDirectory? env).map (· ++ "/.config/jamlex/jamlex.toml"),
    (systemDirectory? env).map (· ++ "/jamlex/jamlex.toml")]

theorem knownFiles_eq (env : Environment) : knownFiles env = (candidates env).reduceOption := by
  have home (directory : String) : directory ++ "/.config/jamlex/" ++ fileName =
      directory ++ "/.config/jamlex/jamlex.toml" := String.append_assoc
  have system (directory : String) : directory ++ "/jamlex/" ++ fileName =
      directory ++ "/jamlex/jamlex.toml" := String.append_assoc
  unfold knownFiles candidates
  simp only [home, system]
  rfl

theorem candidate_iff {env : Environment} {rank : Nat} {path : String} :
    Candidate env rank path ↔ (candidates env)[rank]? = some (some path) := by
  constructor
  · intro h
    cases h with
    | here => rfl
    | home found => simp [candidates, found]
    | system found => simp [candidates, found]
  · intro h
    rcases rank with _ | _ | _ | rank
    · cases h
      exact .here
    · obtain ⟨directory, found, rfl⟩ := Option.map_eq_some_iff.mp (Option.some.inj h)
      exact .home found
    · obtain ⟨directory, found, rfl⟩ := Option.map_eq_some_iff.mp (Option.some.inj h)
      exact .system found
    · cases h

theorem rank_of_split {places : List (Option String)} {before after : List String}
    {path : String} (split : places.reduceOption = before ++ path :: after) :
    ∃ rank : Nat, places[rank]? = some (some path) ∧
      ∀ earlier < rank, ∀ other, places[earlier]? = some (some other) → other ∈ before := by
  induction places generalizing before with
  | nil => simp at split
  | cons place places ih =>
      cases place with
      | none =>
          obtain ⟨rank, found, first⟩ := ih split
          refine ⟨rank + 1, found, ?_⟩
          intro earlier less other place
          cases earlier with
          | zero => cases place
          | succ earlier => exact first earlier (Nat.lt_of_succ_lt_succ less) other place
      | some known =>
          rw [List.reduceOption_cons_of_some] at split
          cases before with
          | nil =>
              cases split
              exact ⟨0, rfl, fun earlier less => absurd less (Nat.not_lt_zero earlier)⟩
          | cons head before =>
              obtain ⟨rfl, behind⟩ := List.cons.inj split
              obtain ⟨rank, found, first⟩ := ih behind
              refine ⟨rank + 1, found, ?_⟩
              intro earlier less other place
              cases earlier with
              | zero =>
                  cases place
                  exact List.mem_cons_self
              | succ earlier =>
                  have inside := first earlier (Nat.lt_of_succ_lt_succ less) other place
                  exact List.mem_cons_of_mem _ inside

theorem candidate_of_split {env : Environment} {before after : List String} {path : String}
    (split : knownFiles env = before ++ path :: after) :
    ∃ rank, Candidate env rank path ∧
      ∀ earlier < rank, ∀ other, Candidate env earlier other → other ∈ before := by
  rw [knownFiles_eq] at split
  obtain ⟨rank, found, first⟩ := rank_of_split split
  exact ⟨rank, candidate_iff.mpr found,
    fun earlier less other place => first earlier less other (candidate_iff.mp place)⟩

theorem Candidate.mem_knownFiles {env : Environment} {rank : Nat} {path : String}
    (h : Candidate env rank path) : path ∈ knownFiles env := by
  rw [knownFiles_eq, List.reduceOption_mem_iff]
  exact List.mem_of_getElem? (candidate_iff.mp h)

section

variable {fs : FileSystem} {env : Environment}

theorem first_of_split {before after : List String} {path : String}
    (split : knownFiles env = before ++ path :: after)
    (absent : ∀ other ∈ before, fs.isPresent (.ofString other) = false) :
    ∃ rank, Candidate env rank path ∧ NoneBefore fs env rank := by
  obtain ⟨rank, place, first⟩ := candidate_of_split split
  refine ⟨rank, place, ?_⟩
  exact fun earlier less other place' => absent other (first earlier less other place')

def chosen (fs : FileSystem) (env : Environment) (config : Option String) : Option String :=
  config.or ((knownFiles env).find? fun path => fs.isPresent (.ofString path))

theorem chosen_known {path : String} (h : chosen fs env none = some path) :
    ∃ rank, Candidate env rank path ∧ NoneBefore fs env rank ∧
      fs.isPresent (.ofString path) = true := by
  obtain ⟨present, before, _, split, absent⟩ := List.find?_eq_some_iff_append.mp h
  obtain ⟨rank, place, first⟩ := first_of_split split fun other inside => by
    simpa using absent other inside
  exact ⟨rank, place, first, present⟩

theorem chosen_nothing (h : chosen fs env none = none) (rank : Nat) : NoneBefore fs env rank := by
  intro earlier _ path place
  simpa using List.find?_eq_none.mp h path place.mem_knownFiles

theorem NoneBefore.le {rank rank' : Nat} {path : String} (h : NoneBefore fs env rank)
    (place : Candidate env rank' path)
    (present : fs.isPresent (.ofString path) = true) : rank ≤ rank' := by
  apply Nat.le_of_not_lt
  intro less
  cases present.symm.trans (h rank' less path place)

theorem chosen_iff {config file : Option String} :
    Chosen fs env config file ↔ file = chosen fs env config := by
  constructor
  · intro h
    cases h with
    | named path => rfl
    | known place first present =>
        cases found : chosen fs env none with
        | none => cases present.symm.trans (chosen_nothing found _ _ (Nat.lt_succ_self _) _ place)
        | some path' =>
            obtain ⟨rank', place', first', present'⟩ := chosen_known found
            obtain rfl := Nat.le_antisymm (first.le place' present') (first'.le place present)
            rw [place.unique place']
    | nothing absent =>
        cases found : chosen fs env none with
        | none => rfl
        | some path =>
            obtain ⟨rank, place, -, present⟩ := chosen_known found
            cases present.symm.trans (absent (rank + 1) rank (Nat.lt_succ_self rank) path place)
  · rintro rfl
    cases config with
    | some path => exact .named path
    | none =>
        cases found : chosen fs env none with
        | none => exact .nothing (chosen_nothing found)
        | some path =>
            obtain ⟨rank, place, first, present⟩ := chosen_known found
            exact .known place first present

end

end Settings

end JamTokens
