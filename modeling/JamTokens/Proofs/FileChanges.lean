import JamTokens.Files.FileSystem

/-!
# File systems that differ at some files

Two file systems are alike but for some places if they have the same elsewhere
and neither has a directory at one of these places.  A path leads to the same
place in both, since only directories are passed on the way; so a path that
leads to no changed place finds the same in both.

A path that does not pass a changed place either fails in the same way in both.
Saving along such a path gives the same result and the same files, and leaves
what is at the changed places as it was.
-/

set_option autoImplicit false

namespace JamTokens

/-! ## The places that a path passes -/

def PathPart.after (place : Place) : PathPart → Place
  | .current => place
  | .parent => place.dropLast
  | .name s => place ++ [s]

def PathPart.trail : Place → List PathPart → List Place
  | place, [] => [place]
  | place, part :: rest => place :: trail (part.after place) rest

/-- The places that a path leads through, with the one that it leads to. -/
def Path.trail (here : Place) (path : Path) : List Place :=
  PathPart.trail (if path.absolute then [] else here) path.parts

namespace PathPart

theorem mem_trail_self (place : Place) (parts : List PathPart) : place ∈ trail place parts := by
  cases parts with
  | nil => exact List.mem_singleton_self place
  | cons part rest => exact List.mem_cons_self

theorem trail_append_left (parts more : List PathPart) (place : Place) :
    trail place parts ⊆ trail place (parts ++ more) := by
  induction parts generalizing place with
  | nil => exact List.cons_subset.mpr ⟨mem_trail_self place more, List.nil_subset _⟩
  | cons part rest ih => exact List.cons_subset_cons place (ih (part.after place))

theorem trail_filter (parts : List PathPart) (place : Place) :
    trail place (parts.filter (· ≠ .current)) ⊆ trail place parts := by
  induction parts generalizing place with
  | nil => exact List.Subset.refl _
  | cons part rest ih =>
      by_cases stays : part = .current
      · subst stays
        rw [List.filter_cons_of_neg (by simp)]
        exact List.subset_cons_of_subset place (ih place)
      · rw [List.filter_cons_of_pos (by simpa using stays)]
        exact List.cons_subset_cons place (ih (part.after place))

end PathPart

namespace Path

theorem trail_properParts (path : Path) (place : Place) :
    PathPart.trail place path.properParts ⊆ PathPart.trail place path.parts := by
  have proper := PathPart.trail_filter path.parts place
  unfold properParts
  dsimp only
  split
  · -- a leading current part stays where it is
    exact List.cons_subset.mpr ⟨PathPart.mem_trail_self place _, proper⟩
  · exact proper

theorem trail_parent? {path parent : Path} (h : path.parent? = some parent) (here : Place) :
    parent.trail here ⊆ path.trail here := by
  unfold parent? at h
  split at h
  · cases h
  · cases h
    have shorter := PathPart.trail_append_left path.properParts.dropLast
      (path.properParts.drop (path.properParts.length - 1)) (if path.absolute then [] else here)
    rw [List.dropLast_eq_take, List.take_append_drop] at shorter
    rw [trail, List.dropLast_eq_take]
    exact List.Subset.trans shorter (path.trail_properParts _)

end Path

namespace FileSystem

/-! ## Following a path -/

theorem walk_cons (fs : FileSystem) (place : Place) (part : PathPart) (rest : List PathPart) :
    fs.walk place (part :: rest) =
      match fs.find? place with
      | none => .error .noSuchFile
      | some (.file _) => .error .notADirectory
      | some .directory => fs.walk (part.after place) rest := by
  rw [walk.eq_def]
  dsimp only
  cases fs.find? place with
  | none => rfl
  | some entry =>
      cases entry with
      | file content => rfl
      | directory => cases part <;> rfl

theorem walk_mem_trail {fs : FileSystem} {place last : Place} {parts : List PathPart}
    (h : fs.walk place parts = .ok last) : last ∈ PathPart.trail place parts := by
  induction parts generalizing place with
  | nil =>
      cases h
      exact List.mem_singleton_self _
  | cons part rest ih =>
      rw [walk_cons] at h
      cases found : fs.find? place with
      | none => simp [found] at h
      | some entry =>
          cases entry with
          | file content => simp [found] at h
          | directory =>
              rw [found] at h
              exact List.mem_cons_of_mem place (ih h)

theorem locate_mem_trail {fs : FileSystem} {path : Path} {place : Place}
    (h : fs.locate path = .ok place) : place ∈ path.trail fs.here := by
  unfold locate at h
  split at h
  · cases h
  · exact walk_mem_trail h

/-! ## Alike but for some places -/

/-- Two file systems that differ at changed places only, where neither has a directory. -/
structure AlikeBut (changed : Place → Prop) (a b : FileSystem) : Prop where
  here : b.here = a.here
  elsewhere : ∀ place, ¬ changed place → b.find? place = a.find? place
  left : ∀ place, changed place → a.find? place ≠ some .directory
  right : ∀ place, changed place → b.find? place ≠ some .directory

section

variable {changed : Place → Prop} {a b : FileSystem}

theorem AlikeBut.symm (h : AlikeBut changed a b) : AlikeBut changed b a :=
  ⟨h.here.symm, fun place same => (h.elsewhere place same).symm, h.right, h.left⟩

/-- Only directories are passed, so no change lies on the way. -/
theorem AlikeBut.walk (h : AlikeBut changed a b) {place last : Place} {parts : List PathPart}
    (reached : a.walk place parts = .ok last) : b.walk place parts = .ok last := by
  induction parts generalizing place with
  | nil => exact reached
  | cons part rest ih =>
      rw [walk_cons] at reached ⊢
      cases found : a.find? place with
      | none => simp [found] at reached
      | some entry =>
          cases entry with
          | file content => simp [found] at reached
          | directory =>
              rw [found] at reached
              rw [h.elsewhere place fun here => h.left place here found, found]
              exact ih reached

theorem AlikeBut.locate (h : AlikeBut changed a b) {path : Path} {place : Place}
    (reached : a.locate path = .ok place) : b.locate path = .ok place := by
  unfold FileSystem.locate at reached ⊢
  rw [h.here]
  split at reached
  · cases reached
  · rw [if_neg (by assumption)]
    exact h.walk reached

theorem status_of_locate_error {fs : FileSystem} {path : Path} {f : Failure}
    (h : fs.locate path = .error f) : fs.status path = .error f := by
  unfold status
  rw [h]

/-! ## Looking at a path -/

/-- A path that leads to no changed place finds the same, if it finds anything. -/
theorem AlikeBut.status_toOption (h : AlikeBut changed a b) {path : Path}
    (kept : ∀ place, a.locate path = .ok place → ¬ changed place) :
    (b.status path).toOption = (a.status path).toOption := by
  cases reached : a.locate path with
  | ok place =>
      unfold FileSystem.status
      rw [reached, h.locate reached]
      dsimp only
      rw [h.elsewhere place (kept place reached)]
  | error f =>
      have lost : ∃ g, b.locate path = .error g := by
        cases reached' : b.locate path with
        | error g => exact ⟨g, rfl⟩
        | ok place => cases reached.symm.trans (h.symm.locate reached')
      obtain ⟨g, lost⟩ := lost
      rw [status_of_locate_error reached, status_of_locate_error lost]
      rfl

theorem AlikeBut.isPresent (h : AlikeBut changed a b) {path : Path}
    (kept : ∀ place, a.locate path = .ok place → ¬ changed place) :
    b.isPresent path = a.isPresent path := by
  unfold FileSystem.isPresent
  rw [h.status_toOption kept]

theorem AlikeBut.read (h : AlikeBut changed a b) {path : Path}
    (kept : ∀ place, a.locate path = .ok place → ¬ changed place)
    (present : a.isPresent path = true) : b.read path = a.read path := by
  have same := h.status_toOption kept
  unfold FileSystem.isPresent at present
  unfold FileSystem.read
  rcases seen : a.status path with f | entry
  · rw [seen] at present
    cases present
  · rw [seen] at same
    rcases seen' : b.status path with g | entry'
    · rw [seen'] at same
      cases same
    · rw [seen'] at same
      cases same
      rfl

/-! ## Paths that pass no change -/

theorem AlikeBut.walk_eq (h : AlikeBut changed a b) {place : Place} {parts : List PathPart}
    (avoids : ∀ passed ∈ PathPart.trail place parts, ¬ changed passed) :
    b.walk place parts = a.walk place parts := by
  induction parts generalizing place with
  | nil => rfl
  | cons part rest ih =>
      rw [walk_cons, walk_cons, h.elsewhere place (avoids place List.mem_cons_self),
        ih fun passed later => avoids passed (List.mem_cons_of_mem place later)]

theorem AlikeBut.locate_eq (h : AlikeBut changed a b) {path : Path}
    (avoids : ∀ passed ∈ path.trail a.here, ¬ changed passed) : b.locate path = a.locate path := by
  unfold FileSystem.locate
  rw [h.here, h.walk_eq avoids]

theorem AlikeBut.status_eq (h : AlikeBut changed a b) {path : Path}
    (avoids : ∀ passed ∈ path.trail a.here, ¬ changed passed) : b.status path = a.status path := by
  unfold FileSystem.status
  rw [h.locate_eq avoids]
  cases reached : a.locate path with
  | error f => rfl
  | ok place => dsimp only; rw [h.elsewhere place (avoids place (locate_mem_trail reached))]

theorem AlikeBut.openSource_eq (h : AlikeBut changed a b) {path : Path}
    (avoids : ∀ passed ∈ path.trail a.here, ¬ changed passed) :
    b.openSource path = a.openSource path := by
  unfold FileSystem.openSource
  rw [h.status_eq avoids]

/-! ## Saving -/

theorem lookup_filter_ne {place other : Place} (h : other ≠ place)
    (entries : List (Place × FileEntry)) :
    (entries.filter (·.1 ≠ place)).lookup other = entries.lookup other := by
  induction entries with
  | nil => rfl
  | cons found entries ih =>
      obtain ⟨there, content⟩ := found
      by_cases same : there = place
      · rw [List.filter_cons_of_neg (by simpa using same), List.lookup_cons,
          beq_false_of_ne (same ▸ h), ih]
      · rw [List.filter_cons_of_pos (by simpa using same), List.lookup_cons, List.lookup_cons, ih]

/-- At the root there is a directory whatever is put there. -/
theorem find?_put (fs : FileSystem) (place other : Place) (entry : FileEntry) :
    (fs.put place entry).find? other =
      if other = place ∧ other ≠ [] then some entry else fs.find? other := by
  unfold find? put
  by_cases root : other = []
  · rw [if_pos root, if_pos root, if_neg fun h => h.2 root]
  · rw [if_neg root, if_neg root]
    by_cases same : other = place
    · rw [if_pos ⟨same, root⟩, same, List.lookup_cons_self]
    · rw [if_neg fun h => same h.1, List.lookup_cons, beq_false_of_ne same, lookup_filter_ne same]

theorem alikeBut_put {fs : FileSystem} {place : Place}
    (noDirectory : fs.find? place ≠ some .directory) (content : ByteArray) :
    AlikeBut (· = place) fs (fs.put place (.file content)) := by
  have below : place ≠ [] := fun root => noDirectory (by rw [root]; rfl)
  refine ⟨rfl, ?_, ?_, ?_⟩
  · intro other apart
    rw [find?_put, if_neg fun h => apart h.1]
  · rintro other rfl
    exact noDirectory
  · rintro other rfl
    rw [find?_put, if_pos ⟨rfl, below⟩]
    exact fun same => nomatch same

structure Kept (changed : Place → Prop) (a b a' b' : FileSystem) : Prop where
  alike : AlikeBut changed a' b'
  here : a'.here = a.here
  left : ∀ place, changed place → a'.find? place = a.find? place
  right : ∀ place, changed place → b'.find? place = b.find? place

theorem Kept.refl (h : AlikeBut changed a b) : Kept changed a b a b :=
  ⟨h, rfl, fun _ _ => rfl, fun _ _ => rfl⟩

theorem Kept.trans {a' b' a'' b'' : FileSystem} (h : Kept changed a b a' b')
    (h' : Kept changed a' b' a'' b'') : Kept changed a b a'' b'' :=
  ⟨h'.alike, h'.here.trans h.here,
    fun place there => (h'.left place there).trans (h.left place there),
    fun place there => (h'.right place there).trans (h.right place there)⟩

theorem AlikeBut.put (h : AlikeBut changed a b) {place : Place} (same : ¬ changed place)
    (entry : FileEntry) : Kept changed a b (a.put place entry) (b.put place entry) := by
  have kept (fs : FileSystem) (other : Place) (there : changed other) :
      (fs.put place entry).find? other = fs.find? other := by
    rw [find?_put, if_neg]
    rintro ⟨rfl, -⟩
    exact same there
  refine ⟨⟨h.here, ?_, ?_, ?_⟩, rfl, kept a, kept b⟩
  · intro other unchanged
    rw [find?_put, find?_put, h.elsewhere other unchanged]
  · intro other there
    rw [kept a other there]
    exact h.left other there
  · intro other there
    rw [kept b other there]
    exact h.right other there

inductive ChangedAlike (changed : Place → Prop) (a b : FileSystem) :
    Except Failure FileSystem → Except Failure FileSystem → Prop
  | failed (f : Failure) : ChangedAlike changed a b (.error f) (.error f)
  | done {a' b' : FileSystem} : Kept changed a b a' b' → ChangedAlike changed a b (.ok a') (.ok b')

theorem AlikeBut.makeDirectory (h : AlikeBut changed a b) {path : Path}
    (avoids : ∀ passed ∈ path.trail a.here, ¬ changed passed) :
    ChangedAlike changed a b (a.makeDirectory path) (b.makeDirectory path) := by
  unfold FileSystem.makeDirectory
  rw [h.locate_eq avoids]
  cases reached : a.locate path with
  | error f => exact .failed f
  | ok place =>
      have same := avoids place (locate_mem_trail reached)
      dsimp only
      rw [h.elsewhere place same]
      split
      · exact .failed _
      · exact .done (h.put same _)

theorem AlikeBut.write (h : AlikeBut changed a b) {path : Path} (content : ByteArray)
    (avoids : ∀ passed ∈ path.trail a.here, ¬ changed passed) :
    ChangedAlike changed a b (a.write path content) (b.write path content) := by
  unfold FileSystem.write
  rw [h.locate_eq avoids]
  cases reached : a.locate path with
  | error f => exact .failed f
  | ok place =>
      have same := avoids place (locate_mem_trail reached)
      dsimp only
      rw [h.elsewhere place same]
      split
      · split
        · exact .failed _
        · exact .done (h.put same _)
      · exact .failed _

theorem AlikeBut.isDirectory_eq (h : AlikeBut changed a b) {path : Path}
    (avoids : ∀ passed ∈ path.trail a.here, ¬ changed passed) :
    b.isDirectory path = a.isDirectory path := by
  unfold FileSystem.isDirectory
  rw [h.status_eq avoids]

structure DoneAlike (changed : Place → Prop) (a b : FileSystem)
    (x y : Except Failure Unit × FileSystem) : Prop where
  result : y.1 = x.1
  kept : Kept changed a b x.2 y.2

theorem Kept.makeDirectory {a' b' : FileSystem} (kept : Kept changed a b a' b') {path : Path}
    (avoids : ∀ passed ∈ path.trail a.here, ¬ changed passed) :
    DoneAlike changed a b
      (match a'.makeDirectory path with
        | .ok fs => (.ok (), fs)
        | .error f => (if a'.isDirectory path then .ok () else .error f, a'))
      (match b'.makeDirectory path with
        | .ok fs => (.ok (), fs)
        | .error f => (if b'.isDirectory path then .ok () else .error f, b')) := by
  rw [← kept.here] at avoids
  have made := kept.alike.makeDirectory avoids
  rw [kept.alike.isDirectory_eq avoids]
  generalize a'.makeDirectory path = x, b'.makeDirectory path = y at made ⊢
  cases made with
  | failed f => exact ⟨rfl, kept⟩
  | done more => exact ⟨rfl, kept.trans more⟩

theorem AlikeBut.makeDirectories (h : AlikeBut changed a b) {path : Path}
    (avoids : ∀ passed ∈ path.trail a.here, ¬ changed passed) :
    DoneAlike changed a b (a.makeDirectories path) (b.makeDirectories path) := by
  generalize size : path.parts.length = n
  induction n using Nat.strongRecOn generalizing path with
  | ind n ih =>
      rw [FileSystem.makeDirectories, FileSystem.makeDirectories]
      split
      · exact ⟨rfl, .refl h⟩
      · have made := h.makeDirectory avoids
        have directory := h.isDirectory_eq avoids
        generalize a.makeDirectory path = x, b.makeDirectory path = y at made ⊢
        cases made with
        | done kept => exact ⟨rfl, kept⟩
        | failed f =>
            dsimp only
            split
            · split
              · exact ⟨rfl, .refl h⟩
              · rename_i parent up
                have above : ∀ passed ∈ parent.trail a.here, ¬ changed passed :=
                  fun passed there => avoids passed (Path.trail_parent? up a.here there)
                obtain ⟨result, kept⟩ := ih _ (size ▸ Path.parent?_length up) above rfl
                rcases makes : a.makeDirectories parent with ⟨g | _, a'⟩ <;>
                  rcases makes' : b.makeDirectories parent with ⟨g' | _, b'⟩ <;>
                  rw [makes, makes'] at result kept <;> cases result
                · exact ⟨rfl, kept⟩
                · exact kept.makeDirectory avoids
            · rw [directory]
              exact ⟨rfl, .refl h⟩

theorem AlikeBut.save (h : AlikeBut changed a b) {path : Path} (content : ByteArray)
    (avoids : ∀ passed ∈ path.trail a.here, ¬ changed passed) :
    DoneAlike changed a b (a.save path content) (b.save path content) := by
  have finish {a' b' : FileSystem} (kept : Kept changed a b a' b') :
      DoneAlike changed a b (save.finish path content a') (save.finish path content b') := by
    rw [← kept.here] at avoids
    have written := kept.alike.write content avoids
    unfold save.finish
    generalize a'.write path content = x, b'.write path content = y at written ⊢
    cases written with
    | failed f => exact ⟨rfl, kept⟩
    | done more => exact ⟨rfl, kept.trans more⟩
  unfold FileSystem.save
  cases up : path.parent? with
  | none => exact finish (.refl h)
  | some parent =>
      obtain ⟨result, kept⟩ := h.makeDirectories fun passed there =>
        avoids passed (Path.trail_parent? up a.here there)
      dsimp only
      rcases makes : a.makeDirectories parent with ⟨g | _, a'⟩ <;>
        rcases makes' : b.makeDirectories parent with ⟨g' | _, b'⟩ <;>
        rw [makes, makes'] at result kept <;> cases result
      · exact ⟨rfl, kept⟩
      · exact finish kept

end

end FileSystem

end JamTokens
