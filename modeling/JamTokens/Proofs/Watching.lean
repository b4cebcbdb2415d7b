import JamTokens.Program.Run

/-!
# Watching a program

A watched machine answers as its session does and keeps a list of what it has
been asked.  Any program leaves the same result and the same session on it, so
the list tells what the program does on the session itself.
-/

set_option autoImplicit false

namespace JamTokens

/-! ## What is asked of a machine -/

inductive Question
  | isPresent (path : String)
  | readFile (path : String)
  | openFile (path : String)
  | standardInput
  | saveFile (path : String)
  deriving DecidableEq, Repr

structure Watched where
  session : Session
  asked : List Question

namespace Watched

def ask {α : Type} (question : Question) (answer : StateM Session α) : StateM Watched α :=
  fun w => ((answer w.session).1, ⟨(answer w.session).2, w.asked ++ [question]⟩)

instance : Machine (StateM Watched) where
  isPresent path := ask (.isPresent path) (Machine.isPresent path)
  readFile path := ask (.readFile path) (Machine.readFile path)
  openFile path := ask (.openFile path) (Machine.openFile path)
  standardInput := ask .standardInput Machine.standardInput
  saveFile path content := ask (.saveFile path) (Machine.saveFile path content)

/-- The same result and the same session, whatever has been asked. -/
def Tracks {α : Type} (x : StateM Watched α) (y : StateM Session α) : Prop :=
  ∀ w, (x.run w).1 = (y.run w.session).1 ∧ (x.run w).2.session = (y.run w.session).2

theorem tracks_pure {α : Type} (a : α) : Tracks (pure a) (pure a) := fun _ => ⟨rfl, rfl⟩

theorem tracks_ask {α : Type} (question : Question) (answer : StateM Session α) :
    Tracks (ask question answer) answer := fun _ => ⟨rfl, rfl⟩

theorem tracks_bind {α β : Type} {x : StateM Watched α} {y : StateM Session α}
    {f : α → StateM Watched β} {g : α → StateM Session β} (h : Tracks x y)
    (next : ∀ a, Tracks (f a) (g a)) : Tracks (x >>= f) (y >>= g) := by
  intro w
  obtain ⟨result, session⟩ := h w
  have further := next (y.run w.session).1 (x.run w).2
  rw [session] at further
  have goes : (x >>= f).run w = (f (x.run w).1).run (x.run w).2 := rfl
  rw [goes, result]
  exact further

end Watched

namespace Settings

open Watched

/-! ## What a file says -/

def ofContent : Except Failure ByteArray → Except RunError Settings
  | .error f => .error (.io f)
  | .ok content =>
    match Utf8.decode? content.data.toList with
    | none => .error (.io .invalidText)
    | some text =>
      match parse? text with
      | none => .error (.config (.malformed "not a configuration"))
      | some settings => .ok settings

theorem loadFrom_eq {m : Type → Type} [Monad m] [Machine m] (path : String) :
    (loadFrom path : m (Except RunError Settings)) = do
      if !(← Machine.isPresent path) then return .error (.config (.missing path))
      return ofContent (← Machine.readFile path) := by
  unfold loadFrom ofContent
  congr 1
  funext present
  cases present with
  | false => rfl
  | true =>
      simp only [Bool.not_true, Bool.false_eq_true, if_false]
      congr 1
      funext content
      rcases content with f | content
      · rfl
      · dsimp only
        cases Utf8.decode? content.data.toList with
        | none => rfl
        | some text =>
            dsimp only
            cases parse? text with
            | none => rfl
            | some settings => rfl

/-! ## Programs on a watched machine -/

theorem loadFrom_tracks (path : String) : Tracks (loadFrom path) (loadFrom path) := by
  rw [loadFrom_eq, loadFrom_eq]
  refine tracks_bind (tracks_ask _ _) fun present => ?_
  cases present with
  | false => exact tracks_pure _
  | true => exact tracks_bind (tracks_ask _ _) fun content => tracks_pure _

theorem loadFirst_tracks (paths : List String) : Tracks (loadFirst paths) (loadFirst paths) := by
  induction paths with
  | nil => exact tracks_pure _
  | cons path rest ih =>
      refine tracks_bind (tracks_ask _ _) fun present => ?_
      cases present with
      | false => exact ih
      | true => exact loadFrom_tracks path

theorem load_tracks (env : Environment) (config : Option String) :
    Tracks (load env config) (load env config) := by
  cases config with
  | some path => exact loadFrom_tracks path
  | none => exact loadFirst_tracks _

theorem save_tracks (s : Settings) (path : String) : Tracks (s.save path) (s.save path) := by
  refine tracks_bind (tracks_ask _ _) fun result => ?_
  rcases result with f | _
  · exact tracks_pure _
  · exact tracks_pure _

end Settings

theorem printInput_tracks (file : Option String) (format : OutputFormat) (recover : Bool)
    (sink : Sink) :
    Watched.Tracks (printInput file format recover sink) (printInput file format recover sink) := by
  cases file with
  | none => exact Watched.tracks_bind (Watched.tracks_ask _ _) fun source => Watched.tracks_pure _
  | some path =>
      refine Watched.tracks_bind (Watched.tracks_ask _ _) fun opened => ?_
      rcases opened with f | source
      · exact Watched.tracks_pure _
      · exact Watched.tracks_pure _

namespace Options

theorem runWith_tracks (o : Options) (settings : Settings) :
    Watched.Tracks (o.runWith settings) (o.runWith settings) := by
  unfold runWith
  dsimp only
  cases o.saveConfig with
  | none =>
      exact Watched.tracks_bind (printInput_tracks _ _ _ _) fun report => Watched.tracks_pure _
  | some path =>
      exact Watched.tracks_bind (Settings.save_tracks _ path) fun result => Watched.tracks_pure _

theorem run_tracks (o : Options) (env : Environment) : Watched.Tracks (o.run env) (o.run env) := by
  refine Watched.tracks_bind (Settings.load_tracks env o.config) fun result => ?_
  rcases result with e | settings
  · exact Watched.tracks_pure _
  · exact o.runWith_tracks settings

end Options

/-- Watching a program changes nothing about it. -/
theorem runProgram_tracks (env : Environment) (args : List String) :
    Watched.Tracks (runProgram env args) (runProgram env args) := by
  unfold runProgram
  cases Invocation.read env args with
  | rejected => exact Watched.tracks_pure _
  | version => exact Watched.tracks_pure _
  | help => exact Watched.tracks_pure _
  | run o => exact o.run_tracks env

end JamTokens
