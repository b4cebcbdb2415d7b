import JamTokens.Settings

/-!
# The command line

The arguments are read from left to right: options by their long or short
names, and at most one file.  Short options can share a dash, and the last of
them can carry its value.  Behind two dashes everything is a file.  An option
that is not given may be set by an environment variable.
-/

set_option autoImplicit false

namespace JamTokens

abbrev Environment := List (String × String)

/-- What the command line asks for, as far as it says so. -/
structure Options where
  file : Option String
  format : Option OutputFormat
  recover : Bool
  config : Option String
  verbose : Bool
  noColor : Bool
  saveConfig : Option String
  deriving DecidableEq, Repr

namespace Options

def unset : Options := ⟨none, none, false, none, false, false, none⟩

/-- The settings of a run: what the command line says goes over the file. -/
def applyTo (o : Options) (s : Settings) : Settings where
  format := o.format.getD s.format
  recover := o.recover || s.recover
  verbose := o.verbose || s.verbose

end Options

inductive Invocation
  | rejected
  | version
  | help
  | run (o : Options)
  deriving DecidableEq, Repr

inductive Switch
  | recover | verbose | noColor
  deriving DecidableEq, Repr

inductive Setting
  | format | config | saveConfig
  deriving DecidableEq, Repr

inductive OptionName
  | switch (s : Switch)
  | setting (s : Setting)
  | version
  | help
  deriving DecidableEq, Repr

namespace OptionName

def ofLong? : String → Option OptionName
  | "format" => some (.setting .format)
  | "recover" => some (.switch .recover)
  | "config" => some (.setting .config)
  | "verbose" => some (.switch .verbose)
  | "no-color" => some (.switch .noColor)
  | "save-config" => some (.setting .saveConfig)
  | "version" => some .version
  | "help" => some .help
  | _ => none

def ofShort? : Char → Option OptionName
  | 'f' => some (.setting .format)
  | 'r' => some (.switch .recover)
  | 'c' => some (.setting .config)
  | 'v' => some (.switch .verbose)
  | 'V' => some .version
  | 'h' => some .help
  | _ => none

end OptionName

namespace Options

/-- Turns a switch on, which must not happen twice. -/
def turnOn (o : Options) : Switch → Option Options
  | .recover => if o.recover then none else some { o with recover := true }
  | .verbose => if o.verbose then none else some { o with verbose := true }
  | .noColor => if o.noColor then none else some { o with noColor := true }

/-- A path that is given once and is not empty. -/
def path? (before : Option String) (value : String) : Option (Option String) :=
  if before.isSome || value = "" then none else some (some value)

/-- Gives an option its value, which must not happen twice. -/
def assign (o : Options) (s : Setting) (value : String) : Option Options :=
  match s with
  | .format =>
    if o.format.isSome then none
    else (OutputFormat.ofName? value).map fun f => { o with format := some f }
  | .config => (path? o.config value).map fun p => { o with config := p }
  | .saveConfig => (path? o.saveConfig value).map fun p => { o with saveConfig := p }

def addFile (o : Options) (value : String) : Option Options :=
  (path? o.file value).map fun p => { o with file := p }

end Options

namespace Invocation

inductive Step
  | next (o : Options)
  | awaiting (o : Options) (s : Setting)
  | done (i : Invocation)

def Step.ofOptions : Option Options → Step
  | some o => .next o
  | none => .done .rejected

def shortOptions (o : Options) : List Char → Step
  | [] => .next o
  | c :: rest =>
    match OptionName.ofShort? c with
    | none => .done .rejected
    | some .version => .done .version
    | some .help => .done .help
    | some (.switch s) =>
      match o.turnOn s with
      | some o => shortOptions o rest
      | none => .done .rejected
    | some (.setting s) =>
      match rest with
      | [] => .awaiting o s
      | '=' :: value => .ofOptions (o.assign s (String.ofList value))
      | value => .ofOptions (o.assign s (String.ofList value))

/-- Reads a long option, with the value behind an equals sign if there is one. -/
def longOption (o : Options) (text : List Char) : Step :=
  let name := text.takeWhile (· != '=')
  let value? := (text.dropWhile (· != '=')).tail?
  match OptionName.ofLong? (String.ofList name), value? with
  | none, _ => .done .rejected
  | some (.setting s), some value => .ofOptions (o.assign s (String.ofList value))
  | some (.setting s), none => .awaiting o s
  | some _, some _ => .done .rejected
  | some .version, none => .done .version
  | some .help, none => .done .help
  | some (.switch s), none => .ofOptions (o.turnOn s)

def argument (o : Options) (text : String) : Step :=
  match text.toList with
  | '-' :: '-' :: long => longOption o long
  | '-' :: c :: short => shortOptions o (c :: short)
  | _ => .ofOptions (o.addFile text)

def isValue (text : String) : Bool :=
  match text.toList with
  | '-' :: _ :: _ => false
  | _ => true

def files (o : Options) : List String → Invocation
  | [] => .run o
  | text :: rest =>
    match o.addFile text with
    | some o => files o rest
    | none => .rejected

def arguments (o : Options) : List String → Invocation
  | [] => .run o
  | text :: rest =>
    if text = "--" then files o rest
    else
      match argument o text with
      | .done i => i
      | .next o => arguments o rest
      | .awaiting o s =>
        match rest with
        | [] => .rejected
        | value :: rest =>
          if isValue value then
            match o.assign s value with
            | some o => arguments o rest
            | none => .rejected
          else .rejected

/-- A switch set by a variable: exactly `true` or `false`. -/
def switchOf (given : Bool) (byVariable : Option String) : Option Bool :=
  if given then some true
  else
    match byVariable with
    | none => some false
    | some "true" => some true
    | some "false" => some false
    | some _ => none

def withEnvironment (env : Environment) (o : Options) : Option Options := do
  let config ←
    match o.config, env.lookup "JAMLEX_CONFIG" with
    | none, some value => Options.path? none value
    | given, _ => some given
  let verbose ← switchOf o.verbose (env.lookup "JAMLEX_VERBOSE")
  let noColor ← switchOf o.noColor (env.lookup "JAMLEX_NO_COLOR")
  return { o with config := config, verbose := verbose, noColor := noColor }

def read (env : Environment) (args : List String) : Invocation :=
  match arguments .unset args with
  | .run o =>
    match withEnvironment env o with
    | some o => .run o
    | none => .rejected
  | i => i

end Invocation

end JamTokens
