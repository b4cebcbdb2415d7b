import JamTokens.Diagnostics.Inspect
import JamTokens.Program.Run

/-!
# The command

Runs the program on the real machine: arguments, environment, files and the
standard streams.  Everything that is decided is decided in `runProgram`.
-/

set_option autoImplicit false

namespace JamTokens

/-- A failure of the machine.  The common ones have texts of their own. -/
def Failure.ofIOError (e : IO.Error) : Failure :=
  match e with
  | .noFileOrDirectory .. => .noSuchFile
  | .noSuchThing .. => .noSuchFile
  | .alreadyExists .. => .fileExists
  | .inappropriateType _ code _ => if code = 20 then .notADirectory else .isADirectory
  | .permissionDenied .. => ⟨.permissionDenied, toString e⟩
  | .resourceVanished .. => ⟨.brokenPipe, toString e⟩
  | .interrupted .. => ⟨.interrupted, toString e⟩
  | .timeExpired .. => ⟨.timedOut, toString e⟩
  | .invalidArgument .. => ⟨.invalidInput, toString e⟩
  | .unexpectedEof => ⟨.unexpectedEof, toString e⟩
  | .unsupportedOperation .. => ⟨.unsupported, toString e⟩
  | .resourceBusy .. => ⟨.resourceBusy, toString e⟩
  | _ => ⟨.other, toString e⟩

def attempt {α : Type} (action : IO α) : IO (Except Failure α) := do
  try
    return .ok (← action)
  catch e =>
    return .error (.ofIOError e)

partial def drain (stream : IO.FS.Stream) (before : Source) : IO Source := do
  match ← attempt (stream.read 65536) with
  | .error f => return before ++ .ofFailure f
  | .ok bytes =>
    if bytes.isEmpty then return before
    else drain stream (before ++ .ofBytes bytes.data.toList)

def makeParents (path : String) : IO Unit := do
  match (Path.ofString path).parent? with
  | none => return
  | some parent => if !parent.isEmpty then IO.FS.createDirAll parent.text

instance : Machine IO where
  isPresent path := do
    match ← attempt (IO.FS.realPath path) with
    | .error _ => return false
    | .ok found => found.pathExists
  readFile path := attempt (IO.FS.readBinFile path)
  openFile path := do
    match ← attempt (IO.FS.Handle.mk path .read) with
    | .error f => return .error f
    | .ok handle =>
      match ← attempt handle.readBinToEnd with
      | .error f => return .ok (.ofFailure f)
      | .ok bytes => return .ok (.ofBytes bytes.data.toList)
  standardInput := do drain (← IO.getStdin) []
  saveFile path content := attempt do
    makeParents path
    IO.FS.writeBinFile path content

def environment : IO Environment := do
  let names := ["JAMLEX_CONFIG", "JAMLEX_VERBOSE", "JAMLEX_NO_COLOR", "HOME", "XDG_CONFIG_HOME"]
  let values ← names.mapM fun name => return (name, ← IO.getEnv name)
  return values.filterMap fun (name, value?) => value?.map (name, ·)

end JamTokens

open JamTokens in
def main (args : List String) : IO UInt32 := do
  let outcome : Outcome ← runProgram (← environment) args
  let stdout ← IO.getStdout
  stdout.write outcome.output
  stdout.flush
  for entry in outcome.log do
    IO.eprintln (if outcome.color then entry.coloredLine else entry.line)
  if outcome.exitCode = 2 then
    IO.eprintln "error: invalid arguments; for more information, try '--help'."
  if let some e := outcome.error then
    IO.eprintln ("Error: " ++ e.inspect)
  return UInt32.ofNat outcome.exitCode
