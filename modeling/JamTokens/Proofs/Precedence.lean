import JamTokens.Proofs.Configuration
import JamTokens.Proofs.FileChanges
import JamTokens.Proofs.Watching

/-!
# Which configuration a run uses

A run uses the configuration file that is named, else the first known file that
is there, else the defaults.  What the command line says goes over the file.  A
file that is missing, cannot be read or does not parse ends the run before
anything but configuration files has been asked for.

A file that is not looked at on the way makes no difference.  It may be changed,
added or removed: the outcome of the run stays the same, and so do the files
that it writes, unless the path of its source or the one that it saves to
passes the file.
-/

set_option autoImplicit false

namespace JamTokens

open FileSystem

namespace Settings

/-- A question that finds the file or reads it. -/
inductive Asks (fs : FileSystem) (env : Environment) (config : Option String) : Question → Prop
  | presence {path : String} : Consulted fs env config path → Asks fs env config (.isPresent path)
  | content {path : String} : Chosen fs env config (some path) → Asks fs env config (.readFile path)

/-! ## What is loaded -/

def loadedFrom (fs : FileSystem) (path : String) : Except RunError Settings :=
  if fs.isPresent (.ofString path) then ofContent (fs.read (.ofString path))
  else .error (.config (.missing path))

def loaded (fs : FileSystem) : Option String → Except RunError Settings
  | none => .ok default
  | some path => loadedFrom fs path

theorem isPresent_of_read {fs : FileSystem} {path : Path} {content : ByteArray}
    (h : fs.read path = .ok content) : fs.isPresent path = true := by
  unfold FileSystem.read at h
  unfold FileSystem.isPresent
  rcases found : fs.status path with f | entry
  · rw [found] at h
    cases h
  · rfl

theorem ofContent_of_parsed {text : String} {s : Settings} (h : parse? text.toList = some s) :
    ofContent (.ok text.toUTF8) = .ok s := by
  simp only [ofContent, Utf8.decode?_toUTF8, h]

theorem ofContent_of_malformed {text : String} (h : parse? text.toList = none) :
    ofContent (.ok text.toUTF8) = .error (.config (.malformed "not a configuration")) := by
  simp only [ofContent, Utf8.decode?_toUTF8, h]

theorem Says.loaded {fs : FileSystem} {file : Option String} {s : Settings} (h : Says fs file s) :
    loaded fs file = .ok s := by
  cases h with
  | file content document held =>
      have parsed := parse?_eq_some_iff.mpr ⟨_, document, held⟩
      rw [Settings.loaded, loadedFrom, if_pos (isPresent_of_read content), content]
      exact ofContent_of_parsed parsed
  | nothing => rfl

theorem Refuses.loaded {fs : FileSystem} {path : String} {e : RunError} (h : Refuses fs path e) :
    loaded fs (some path) = .error e := by
  rw [Settings.loaded, loadedFrom]
  cases h with
  | missing absent => rw [absent]; rfl
  | unreadable present failed => rw [if_pos present, failed]; rfl
  | @noText content read unlike =>
      rw [if_pos (isPresent_of_read read), read]
      unfold ofContent
      dsimp only
      cases decoded : Utf8.decode? content.data.toList with
      | none => rfl
      | some text => exact absurd (Utf8.eq_toUTF8_of_decode? decoded) (unlike _)
  | @malformed text content unheld =>
      rw [if_pos (isPresent_of_read content), content]
      cases parsed : parse? text.toList with
      | none => exact ofContent_of_malformed parsed
      | some settings =>
          obtain ⟨entries, document, held⟩ := parse?_eq_some_iff.mp parsed
          exact absurd held (unheld entries settings document)

theorem says_or_refuses (fs : FileSystem) (path : String) :
    (∃ s, Says fs (some path) s) ∨ ∃ e, Refuses fs path e := by
  cases present : fs.isPresent (.ofString path) with
  | false => exact .inr ⟨_, .missing present⟩
  | true =>
      cases content : fs.read (.ofString path) with
      | error f => exact .inr ⟨_, .unreadable present content⟩
      | ok bytes =>
          by_cases isText : ∃ text : String, text.toUTF8 = bytes
          · obtain ⟨text, rfl⟩ := isText
            by_cases holds : ∃ entries s, Toml.parse? text.toList = some entries ∧ Holds entries s
            · obtain ⟨entries, s, document, held⟩ := holds
              exact .inl ⟨s, .file content document held⟩
            · refine .inr ⟨_, .malformed content ?_⟩
              exact fun entries s document held => holds ⟨entries, s, document, held⟩
          · exact .inr ⟨_, .noText content fun text same => isText ⟨text, same⟩⟩

/-! ## Loading in a session -/

theorem isPresent_run (path : String) (s : Session) :
    (Machine.isPresent path : StateM Session Bool).run s =
      (s.files.isPresent (.ofString path), s) := rfl

theorem loadFrom_run (path : String) (s : Session) :
    (loadFrom path : StateM Session _).run s = (loadedFrom s.files path, s) := by
  rw [loadFrom_eq, StateT.run_bind, isPresent_run]
  unfold loadedFrom
  cases s.files.isPresent (.ofString path) with
  | false => rfl
  | true => rfl

theorem loadFirst_run (paths : List String) (s : Session) :
    (loadFirst paths : StateM Session _).run s =
      (loaded s.files (paths.find? fun path => s.files.isPresent (.ofString path)), s) := by
  induction paths with
  | nil => rfl
  | cons path rest ih =>
      rw [loadFirst, StateT.run_bind, isPresent_run, List.find?_cons]
      cases s.files.isPresent (.ofString path) with
      | false => exact ih
      | true => exact loadFrom_run path s

theorem load_run (env : Environment) (config : Option String) (s : Session) :
    (load env config : StateM Session _).run s =
      (loaded s.files (chosen s.files env config), s) := by
  cases config with
  | some path => exact loadFrom_run path s
  | none => exact loadFirst_run _ s

/-! ## What is asked on the way -/

theorem isPresent_watched (path : String) (w : Watched) :
    (Machine.isPresent path : StateM Watched Bool).run w =
      (w.session.files.isPresent (.ofString path),
        ⟨w.session, w.asked ++ [.isPresent path]⟩) := rfl

theorem loadFrom_asks (path : String) (w : Watched) :
    ∃ asked, ((loadFrom path : StateM Watched _).run w).2 = ⟨w.session, w.asked ++ asked⟩ ∧
      ∀ question ∈ asked, question = .isPresent path ∨ question = .readFile path := by
  rw [loadFrom_eq, StateT.run_bind, isPresent_watched]
  cases w.session.files.isPresent (.ofString path) with
  | false => exact ⟨[.isPresent path], rfl, by simp⟩
  | true =>
      have both : w.asked ++ [Question.isPresent path] ++ [.readFile path] =
        w.asked ++ [.isPresent path, .readFile path] := List.append_assoc _ _ _
      exact ⟨[.isPresent path, .readFile path], congrArg (Watched.mk w.session) both, by simp⟩

theorem loadFirst_asks {env : Environment} (paths : List String) :
    ∀ (before : List String) (w : Watched), knownFiles env = before ++ paths →
      (∀ other ∈ before, w.session.files.isPresent (.ofString other) = false) →
      ∃ asked, ((loadFirst paths : StateM Watched _).run w).2 = ⟨w.session, w.asked ++ asked⟩ ∧
        ∀ question ∈ asked, Asks w.session.files env none question := by
  induction paths with
  | nil => exact fun before w _ _ => ⟨[], by rw [List.append_nil]; rfl, by simp⟩
  | cons path rest ih =>
      intro before w split absent
      obtain ⟨rank, place, first⟩ := first_of_split split absent
      have consulted : Consulted w.session.files env none path := .known place first
      rw [loadFirst, StateT.run_bind, isPresent_watched]
      cases present : w.session.files.isPresent (.ofString path) with
      | false =>
          obtain ⟨asked, behind, allowed⟩ := ih (before ++ [path])
            ⟨w.session, w.asked ++ [.isPresent path]⟩ (by rw [split]; simp)
            (List.forall_mem_append.mpr ⟨absent, List.forall_mem_singleton.mpr present⟩)
          exact ⟨.isPresent path :: asked, behind.trans (by simp),
            List.forall_mem_cons.mpr ⟨.presence consulted, allowed⟩⟩
      | true =>
          obtain ⟨asked, behind, which⟩ :=
            loadFrom_asks path ⟨w.session, w.asked ++ [.isPresent path]⟩
          refine ⟨.isPresent path :: asked, behind.trans (by simp),
            List.forall_mem_cons.mpr ⟨.presence consulted, fun question member => ?_⟩⟩
          rcases which question member with rfl | rfl
          · exact .presence consulted
          · exact .content (.known place first present)

theorem load_asks (env : Environment) (config : Option String) (w : Watched) :
    ∃ asked, ((load env config : StateM Watched _).run w).2 = ⟨w.session, w.asked ++ asked⟩ ∧
      ∀ question ∈ asked, Asks w.session.files env config question := by
  cases config with
  | none => exact loadFirst_asks (knownFiles env) [] w rfl (by simp)
  | some path =>
      obtain ⟨asked, behind, which⟩ := loadFrom_asks path w
      refine ⟨asked, behind, fun question member => ?_⟩
      rcases which question member with rfl | rfl
      · exact .presence (.named path)
      · exact .content (.named path)

/-! ## Changes that are not looked at -/

/-- No path that is looked at leads to a changed place.  A known file behind the one that is used is
overlooked, unless it is one of those that are looked at before. -/
def Overlooks (fs : FileSystem) (env : Environment) (config : Option String)
    (changed : Place → Prop) : Prop :=
  ∀ path, Consulted fs env config path →
    ∀ place, fs.locate (.ofString path) = .ok place → ¬ changed place

section

variable {changed : Place → Prop} {a b : FileSystem}

theorem loadedFrom_alike (h : AlikeBut changed a b) {path : String}
    (kept : ∀ place, a.locate (.ofString path) = .ok place → ¬ changed place) :
    loadedFrom b path = loadedFrom a path := by
  unfold loadedFrom
  rw [h.isPresent kept]
  cases present : a.isPresent (.ofString path) with
  | false => rfl
  | true => rw [h.read kept present]

theorem loaded_find?_alike (h : AlikeBut changed a b) {env : Environment}
    (kept : Overlooks a env none changed) (paths : List String) :
    ∀ before, knownFiles env = before ++ paths →
      (∀ other ∈ before, a.isPresent (.ofString other) = false) →
      loaded b (paths.find? fun path => b.isPresent (.ofString path)) =
        loaded a (paths.find? fun path => a.isPresent (.ofString path)) := by
  induction paths with
  | nil => exact fun _ _ _ => rfl
  | cons path rest ih =>
      intro before split absent
      obtain ⟨rank, place, first⟩ := first_of_split split absent
      have unchanged := kept path (.known place first)
      rw [List.find?_cons, List.find?_cons, h.isPresent unchanged]
      cases present : a.isPresent (.ofString path) with
      | true => exact loadedFrom_alike h unchanged
      | false =>
          have missing : ∀ other ∈ before ++ [path], a.isPresent (.ofString other) = false :=
            List.forall_mem_append.mpr ⟨absent, List.forall_mem_singleton.mpr present⟩
          exact ih (before ++ [path]) (by rw [split]; simp) missing

theorem loaded_alike (h : AlikeBut changed a b) {env : Environment} {config : Option String}
    (kept : Overlooks a env config changed) :
    loaded b (chosen b env config) = loaded a (chosen a env config) := by
  cases config with
  | some path => exact loadedFrom_alike h (kept path (.named path))
  | none => exact loaded_find?_alike h kept (knownFiles env) [] rfl (by simp)

end

end Settings

/-! ## What a run asks that has its settings -/

theorem Settings.save_asks (s : Settings) (path : String) (w : Watched) :
    ((s.save path : StateM Watched _).run w).2.asked = w.asked ++ [.saveFile path] := by
  have saved : (Machine.saveFile path s.text.toUTF8 : StateM Watched _).run w =
    ((w.session.files.save (.ofString path) s.text.toUTF8).1,
      ⟨⟨(w.session.files.save (.ofString path) s.text.toUTF8).2, w.session.input⟩,
        w.asked ++ [.saveFile path]⟩) := rfl
  unfold save
  rw [StateT.run_bind, saved]
  rcases (w.session.files.save (.ofString path) s.text.toUTF8).1 with f | _
  · rfl
  · rfl

namespace Options

inductive Asks (o : Options) : Question → Prop
  | source {path : String} : o.file = some path → Asks o (.openFile path)
  | standardInput : o.file = none → Asks o .standardInput
  | save {path : String} : o.saveConfig = some path → Asks o (.saveFile path)

theorem printInput_asks (o : Options) (format : OutputFormat) (recover : Bool) (sink : Sink)
    (w : Watched) :
    ∃ question, ((printInput o.file format recover sink : StateM Watched Report).run w).2.asked =
      w.asked ++ [question] ∧ o.Asks question := by
  cases given : o.file with
  | none => exact ⟨.standardInput, rfl, .standardInput given⟩
  | some path =>
      refine ⟨.openFile path, ?_, .source given⟩
      have opened : (Machine.openFile path : StateM Watched _).run w =
        (w.session.files.openSource (.ofString path),
          ⟨w.session, w.asked ++ [.openFile path]⟩) := rfl
      unfold printInput
      dsimp only
      rw [StateT.run_bind, opened]
      rcases w.session.files.openSource (.ofString path) with f | source
      · rfl
      · rfl

theorem runWith_asks (o : Options) (settings : Settings) (w : Watched) :
    ∃ question, ((o.runWith settings : StateM Watched Outcome).run w).2.asked =
      w.asked ++ [question] ∧ o.Asks question := by
  unfold runWith
  cases given : o.saveConfig with
  | none => exact o.printInput_asks _ _ _ w
  | some path =>
      refine ⟨.saveFile path, ?_, .save given⟩
      exact (o.applyTo settings).save_asks path w

end Options

/-! ## Runs on changed files -/

/-- The same outcome, and the same files written. -/
structure EndsAlike (changed : Place → Prop) (a b : FileSystem) {α : Type} (x y : α × Session) :
    Prop where
  result : y.1 = x.1
  files : Kept changed a b x.2.files y.2.files

theorem EndsAlike.map {changed : Place → Prop} {a b : FileSystem} {α β : Type}
    {x : StateM Session α} {s t : Session} (h : EndsAlike changed a b (x.run s) (x.run t))
    (f : α → β) : EndsAlike changed a b ((x >>= fun r => pure (f r)).run s)
      ((x >>= fun r => pure (f r)).run t) :=
  ⟨congrArg f h.result, h.files⟩

namespace Options

/-- Neither the path of the source nor the one that is saved to passes a changed place. -/
structure Avoids (o : Options) (here : Place) (changed : Place → Prop) : Prop where
  source : ∀ path ∈ o.file, ∀ place ∈ (Path.ofString path).trail here, ¬ changed place
  saved : ∀ path ∈ o.saveConfig, ∀ place ∈ (Path.ofString path).trail here, ¬ changed place

section

variable {changed : Place → Prop} {a b : FileSystem}

theorem save_alike (h : AlikeBut changed a b) {path : String}
    (avoids : ∀ place ∈ (Path.ofString path).trail a.here, ¬ changed place) (settings : Settings)
    (input : Source) :
    EndsAlike changed a b ((settings.save path : StateM Session _).run ⟨a, input⟩)
      ((settings.save path : StateM Session _).run ⟨b, input⟩) := by
  have done := h.save settings.text.toUTF8 avoids
  have run (fs : FileSystem) : (settings.save path : StateM Session _).run ⟨fs, input⟩ =
      ((fs.save (.ofString path) settings.text.toUTF8).1.mapError RunError.io,
        ⟨(fs.save (.ofString path) settings.text.toUTF8).2, input⟩) := by
    have saved : (Machine.saveFile path settings.text.toUTF8 : StateM Session _).run ⟨fs, input⟩ =
      ((fs.save (.ofString path) settings.text.toUTF8).1,
        ⟨(fs.save (.ofString path) settings.text.toUTF8).2, input⟩) := rfl
    unfold Settings.save
    rw [StateT.run_bind, saved]
    rcases (fs.save (.ofString path) settings.text.toUTF8).1 with f | _
    · rfl
    · rfl
  rw [run a, run b, done.result]
  exact ⟨rfl, done.kept⟩

theorem printInput_alike (h : AlikeBut changed a b) {file : Option String}
    (avoids : ∀ path ∈ file, ∀ place ∈ (Path.ofString path).trail a.here, ¬ changed place)
    (format : OutputFormat) (recover : Bool) (sink : Sink) (input : Source) :
    EndsAlike changed a b ((printInput file format recover sink : StateM Session _).run ⟨a, input⟩)
      ((printInput file format recover sink : StateM Session _).run ⟨b, input⟩) := by
  cases file with
  | none => exact ⟨rfl, .refl h⟩
  | some path =>
      have opened (fs : FileSystem) : (Machine.openFile path : StateM Session _).run ⟨fs, input⟩ =
        (fs.openSource (.ofString path), ⟨fs, input⟩) := rfl
      unfold printInput
      dsimp only
      rw [StateT.run_bind, StateT.run_bind, opened, opened, h.openSource_eq (avoids path rfl)]
      rcases a.openSource (.ofString path) with f | source
      · exact ⟨rfl, .refl h⟩
      · exact ⟨rfl, .refl h⟩

theorem runWith_alike (h : AlikeBut changed a b) {o : Options} (avoids : o.Avoids a.here changed)
    (settings : Settings) (input : Source) :
    EndsAlike changed a b ((o.runWith settings : StateM Session Outcome).run ⟨a, input⟩)
      ((o.runWith settings : StateM Session Outcome).run ⟨b, input⟩) := by
  unfold runWith
  cases saved : o.saveConfig with
  | some path =>
      have ends := save_alike h (avoids.saved path saved) (o.applyTo settings) input
      exact ends.map _
  | none =>
      have ends := printInput_alike h avoids.source (o.applyTo settings).format
        (o.applyTo settings).recover .unlimited input
      exact ends.map _

end

end Options

/-! ## Runs of the program -/

def Outcome.failing (e : RunError) : Outcome := ⟨1, .empty, [], some e, false⟩

theorem ofResult_failing (e : RunError) (color : Bool) :
    Outcome.ofResult (.error e) .empty [] color = .failing e := by
  simp [Outcome.ofResult, Outcome.failing]

namespace Options

/-- The settings of a run: what the command line says goes over what the file says. -/
structure Prevails (o : Options) (said settings : Settings) : Prop where
  flag : ∀ format, o.format = some format → settings.format = format
  file : o.format = none → settings.format = said.format
  recover : settings.recover = true ↔ o.recover = true ∨ said.recover = true
  verbose : settings.verbose = true ↔ o.verbose = true ∨ said.verbose = true

/-- A run by some settings: it saves them, or it prints its input by them. -/
inductive Performs (o : Options) (s : Settings) (session : Session) : Outcome × Session → Prop
  | saves {path : String} {result : Except RunError Unit} {session' : Session} :
      o.saveConfig = some path →
      (s.save path : StateM Session _).run session = (result, session') →
      Performs o s session
        (.ofResult result .empty
          ((if result.toOption.isSome then [.savedConfig path] else []).filter (·.isShown s.verbose))
          (!o.noColor), session')
  | prints {report : Report} {session' : Session} : o.saveConfig = none →
      (printInput o.file s.format s.recover .unlimited : StateM Session _).run session =
        (report, session') →
      Performs o s session
        (.ofResult report.result report.sink.taken (report.log.filter (·.isShown s.verbose))
          (!o.noColor), session')

theorem Prevails.eq_applyTo {o : Options} {said settings : Settings}
    (h : o.Prevails said settings) : settings = o.applyTo said := by
  obtain ⟨format, recover, verbose⟩ := settings
  obtain ⟨flag, file, recovers, tells⟩ := h
  have first : format = (o.applyTo said).format := by
    unfold applyTo
    cases given : o.format with
    | none => exact file given
    | some format' => exact flag format' given
  have second : recover = (o.applyTo said).recover := by
    rw [Bool.eq_iff_iff, recovers, applyTo, Bool.or_eq_true]
  have third : verbose = (o.applyTo said).verbose := by
    rw [Bool.eq_iff_iff, tells, applyTo, Bool.or_eq_true]
  rw [first, second, third]

theorem runWith_performs (o : Options) (said : Settings) (session : Session) :
    o.Performs (o.applyTo said) session ((o.runWith said : StateM Session Outcome).run session) := by
  unfold runWith
  cases saved : o.saveConfig with
  | some path => exact .saves saved rfl
  | none => exact .prints saved rfl

end Options

theorem runProgram_of_read {m : Type → Type} [Monad m] [Machine m] {env : Environment}
    {args : List String} {o : Options} (accepted : Invocation.read env args = .run o) :
    (runProgram env args : m Outcome) = o.run env := by
  unfold runProgram
  rw [accepted]

theorem Options.run_run (o : Options) (env : Environment) (s : Session) :
    (o.run env : StateM Session Outcome).run s =
      match Settings.loaded s.files (Settings.chosen s.files env o.config) with
      | .error e => (.failing e, s)
      | .ok settings => (o.runWith settings : StateM Session Outcome).run s := by
  unfold run
  rw [StateT.run_bind, Settings.load_run]
  cases Settings.loaded s.files (Settings.chosen s.files env o.config) with
  | error e => exact congrArg (·, s) (ofResult_failing e _)
  | ok settings => rfl

theorem Options.run_alike {changed : Place → Prop} {a b : FileSystem} (h : AlikeBut changed a b)
    {o : Options} {env : Environment} (kept : Settings.Overlooks a env o.config changed)
    (avoids : o.Avoids a.here changed) (input : Source) :
    EndsAlike changed a b ((o.run env : StateM Session Outcome).run ⟨a, input⟩)
      ((o.run env : StateM Session Outcome).run ⟨b, input⟩) := by
  rw [run_run, run_run]
  dsimp only
  rw [Settings.loaded_alike h kept]
  cases Settings.loaded a (Settings.chosen a env o.config) with
  | error e => exact ⟨rfl, .refl h⟩
  | ok settings => exact runWith_alike h avoids settings input

/-- Configuration is asked for first, and nothing else if it fails. -/
theorem Options.run_asks (o : Options) (env : Environment) (s : Session) :
    ∃ asked work,
      ((o.run env : StateM Watched Outcome).run ⟨s, []⟩).2.asked = asked ++ work ∧
      (∀ question ∈ asked, Settings.Asks s.files env o.config question) ∧
      (∀ question ∈ work, o.Asks question) ∧
      ∀ e, Settings.loaded s.files (Settings.chosen s.files env o.config) = .error e →
        work = [] := by
  obtain ⟨asked, behind, allowed⟩ := Settings.load_asks env o.config ⟨s, []⟩
  obtain ⟨result, -⟩ := Settings.load_tracks env o.config ⟨s, []⟩
  rw [Settings.load_run] at result
  have loaded : (Settings.load env o.config : StateM Watched _).run ⟨s, []⟩ =
    (Settings.loaded s.files (Settings.chosen s.files env o.config), ⟨s, asked⟩) :=
    Prod.ext result behind
  unfold run
  rw [StateT.run_bind, loaded]
  cases Settings.loaded s.files (Settings.chosen s.files env o.config) with
  | error e => exact ⟨asked, [], (List.append_nil _).symm, allowed, by simp, fun _ _ => rfl⟩
  | ok settings =>
      obtain ⟨question, goesOn, proper⟩ := o.runWith_asks settings ⟨s, asked⟩
      exact ⟨asked, [question], goesOn, allowed, List.forall_mem_singleton.mpr proper,
        fun e fails => nomatch fails⟩

theorem ofString_c : Path.ofString "c" = ⟨false, [.name "c"], false⟩ := by
  have whole : "c".splitOn "/" = ["c"] := by
    unfold String.splitOn
    rw [if_neg (by decide), String.splitOnAux.eq_def, if_neg (by decide +kernel),
      if_neg (by decide +kernel), String.splitOnAux.eq_def, if_pos (by decide +kernel)]
    decide +kernel
  unfold Path.ofString
  rw [whole]
  decide

end JamTokens
