import JamTokens.Output.Print
import JamTokens.Program.CommandLine
import JamTokens.Program.Machine

/-!
# The program

A run loads its settings, and then either saves them or prints the tokens of
its input.  Settings come from the file that is named, else from the first of
three known files that is there, else they are the defaults.  A file that is
chosen and cannot be used ends the run; no other is tried.
-/

set_option autoImplicit false

namespace JamTokens

variable {m : Type → Type} [Monad m] [Machine m]

namespace Settings

def fileName : String := "jamlex.toml"

def directory? (env : Environment) (name : String) : Option String :=
  (env.lookup name).filter (· ≠ "")

def homeDirectory? (env : Environment) : Option String := directory? env "HOME"

def systemDirectory? (env : Environment) : Option String :=
  ((directory? env "XDG_CONFIG_HOME").filter (·.toList.head? = some '/')).or
    ((homeDirectory? env).map (· ++ "/.config"))

/-- The known configuration files, in the order in which they are looked for. -/
def knownFiles (env : Environment) : List String :=
  [some fileName,
   (homeDirectory? env).map (· ++ "/.config/jamlex/" ++ fileName),
   (systemDirectory? env).map (· ++ "/jamlex/" ++ fileName)].reduceOption

def loadFrom (path : String) : m (Except RunError Settings) := do
  if !(← Machine.isPresent path) then return .error (.config (.missing path))
  match ← Machine.readFile path with
  | .error f => return .error (.io f)
  | .ok content =>
    match Utf8.decode? content.data.toList with
    | none => return .error (.io .invalidText)
    | some text =>
      match parse? text with
      | none => return .error (.config (.malformed "not a configuration"))
      | some settings => return .ok settings

def loadFirst : List String → m (Except RunError Settings)
  | [] => return .ok default
  | path :: rest => do
    if ← Machine.isPresent path then loadFrom path else loadFirst rest

def load (env : Environment) : Option String → m (Except RunError Settings)
  | some path => loadFrom path
  | none => loadFirst (knownFiles env)

def save (s : Settings) (path : String) : m (Except RunError Unit) := do
  match ← Machine.saveFile path s.text.toUTF8 with
  | .ok () => return .ok ()
  | .error f => return .error (.io f)

end Settings

structure Report where
  result : Except RunError Unit
  sink : Sink
  log : List LogEntry

def Printed.report (p : Printed) : Report := ⟨p.result, p.sink, p.log⟩

def printInput (file : Option String) (format : OutputFormat) (recover : Bool) (sink : Sink) :
    m Report := do
  match file with
  | none =>
    let source ← Machine.standardInput
    let p := (Lexer.ofSource source).print format recover sink
    return (p.logged [.lexingStandardInput]).report
  | some path =>
    match ← Machine.openFile path with
    | .error f => return ⟨.error (.lex (.input f)), sink, [.lexingFile path]⟩
    | .ok source =>
      let p := (Lexer.ofSource source).print format recover sink
      return (p.logged [.lexingFile path, .openedFile path]).report

structure Outcome where
  exitCode : Nat
  output : ByteArray
  log : List LogEntry
  error : Option RunError
  color : Bool

namespace Outcome

def printing (text : String) : Outcome := ⟨0, text.toUTF8, [], none, false⟩

def rejected : Outcome := ⟨2, .empty, [], none, false⟩

def ofResult (result : Except RunError Unit) (output : ByteArray) (log : List LogEntry)
    (color : Bool) : Outcome :=
  match result with
  | .ok () => ⟨0, output, log, none, color && !log.isEmpty⟩
  | .error e => ⟨1, output, log, some e, color && !log.isEmpty⟩

end Outcome

def versionText : String := "jamlex 0.1.0\n"

def helpText : String :=
  "Prints the token stream of a Jam program\n\n" ++
  "Usage: jamlex [OPTIONS] [FILE]\n\n" ++
  "Options:\n" ++
  "  -f, --format <FORMAT>     plain or json\n" ++
  "  -r, --recover             Report lexical errors and continue on the next line\n" ++
  "  -c, --config <CONFIG>     Path to configuration file\n" ++
  "  -v, --verbose             Enable verbose output\n" ++
  "      --no-color            Disable color output\n" ++
  "      --save-config <PATH>  Write the effective settings and exit\n" ++
  "  -h, --help                Print help\n" ++
  "  -V, --version             Print version\n"

namespace Options

def runWith (o : Options) (loaded : Settings) : m Outcome := do
  let settings := o.applyTo loaded
  let shown (log : List LogEntry) := log.filter (·.isShown settings.verbose)
  match o.saveConfig with
  | some path =>
    let result ← settings.save path
    let log := if result.toOption.isSome then [LogEntry.savedConfig path] else []
    return .ofResult result .empty (shown log) (!o.noColor)
  | none =>
    let report ← printInput o.file settings.format settings.recover .unlimited
    return .ofResult report.result report.sink.taken (shown report.log) (!o.noColor)

def run (o : Options) (env : Environment) : m Outcome := do
  match ← Settings.load env o.config with
  | .error e => return .ofResult (.error e) .empty [] (!o.noColor)
  | .ok settings => o.runWith settings

end Options

def runProgram (env : Environment) (args : List String) : m Outcome :=
  match Invocation.read env args with
  | .rejected => return .rejected
  | .version => return .printing versionText
  | .help => return .printing helpText
  | .run o => o.run env

end JamTokens
