import TypeSchema.CommandLine.Arguments
import TypeSchema.Config
import TypeSchema.Convert
import TypeSchema.Directory
import TypeSchema.Emit
import TypeSchema.Json.Printer
import TypeSchema.Schema.Reading
import TypeSchema.Schema.Writing

namespace TypeSchema

open CommandLine (Stop Switch Given scan)

def programName : String := "normalize-core-types"

def programVersion : String := "0.2.0"

inductive Direction
  | toTypeScript
  | fromTypeScript
deriving DecidableEq, Repr

def Direction.named : Entries Direction := [("to-ts", toTypeScript), ("from-ts", fromTypeScript)]

/-- What the arguments ask for. -/
structure Invocation where
  direction : Direction
  /-- The file of the configuration, if it is not the one of the project. -/
  config : Option String
  /-- A file, or `-` for standard input. -/
  input : String
  /-- A file; without one the result goes to standard output. -/
  output : Option String
  given : Given

def configSwitch : Switch := .value "config" none (!·.isEmpty)

def helpSwitch : Switch := .stop "help" 'h' .help

def outerSwitches : List Switch := [configSwitch, helpSwitch, .stop "version" 'V' .version]

/-- A switch whose value is one of some names. -/
def namedSwitch {α : Type} (name : String) (named : Entries α) : Switch :=
  .value name none fun value => named.names.contains value

def textSwitch (name : String) : Switch := .value name none fun _ => true

def Direction.switches : Direction → List Switch
  | toTypeScript =>
    [.flag "use-unknown", .flag "declaration", namedSwitch "namespaces" NamespaceSplit.named,
      textSwitch "filename", textSwitch "source-filename", textSwitch "user-package",
      textSwitch "user-package-url", .flag "no-disable-lint-header", .flag "no-descriptive-header"]
  | fromTypeScript =>
    [namedSwitch "namespaces" NamespacePolicy.named, namedSwitch "non-exported" NonExportedPolicy.named,
      namedSwitch "unsupported" UnsupportedPolicy.named]

/-- The switches after the name of a command. -/
def innerSwitches (direction : Direction) : List Switch :=
  configSwitch :: helpSwitch :: .value "output" (some 'o') (!·.isEmpty) :: direction.switches

namespace Invocation

/-- The rest of the arguments, after the name of a command. -/
def ofInner (outer : Given) (direction : Direction) (arguments : List String) : Except Stop Invocation := do
  let (given, _) ← scan (innerSwitches direction) false {} none arguments
  match given.words with
  | [input] =>
    return {
      direction, input, given
      config := (given.value? "config").or (outer.value? "config")
      output := given.value? "output" }
  | _ => .error .misuse

/-- The invocation that arguments make up, or why they make up none. -/
def ofArguments (arguments : List String) : Except Stop Invocation := do
  match ← scan outerSwitches true {} none arguments with
  | (outer, name :: rest) =>
    match Direction.named.get? name with
    | some direction => ofInner outer direction rest
    | none =>
      if name = "help" ∧ (rest = [] ∨ rest ∈ ("help" :: Direction.named.names).map ([·])) then .error .help
      else .error .misuse
  | (_, []) => .error .misuse

end Invocation

def CommandLine.Given.writeOptions (given : Given) (base : WriteOptions) : WriteOptions where
  filename := (given.value? "filename").or base.filename
  sourceFilename := (given.value? "source-filename").or base.sourceFilename
  useUnknown := base.useUnknown || given.has "use-unknown"
  declaration := base.declaration || given.has "declaration"
  userPackage := (given.value? "user-package").or base.userPackage
  userPackageUrl := (given.value? "user-package-url").or base.userPackageUrl
  noDisableLintHeader := base.noDisableLintHeader || given.has "no-disable-lint-header"
  noDescriptiveHeader := base.noDescriptiveHeader || given.has "no-descriptive-header"
  namespaces := ((given.value? "namespaces").bind NamespaceSplit.named.get?).getD base.namespaces
  unsupported := base.unsupported

def CommandLine.Given.readOptions (given : Given) (base : ReadOptions) : ReadOptions where
  namespaces := ((given.value? "namespaces").bind NamespacePolicy.named.get?).getD base.namespaces
  nonExported := ((given.value? "non-exported").bind NonExportedPolicy.named.get?).getD base.nonExported
  unsupported := ((given.value? "unsupported").bind UnsupportedPolicy.named.get?).getD base.unsupported

/-- Why a run fails. -/
inductive Failure
  | config (cause : ConfigError)
  | unreadable (path : String)
  | notDocument (path : String)
  | conversion (cause : Error)
  | unwritable (path : String)

def ConfigError.message : ConfigError → String
  | unreadable path => "failed to read config " ++ path
  | invalid path => "invalid config " ++ path

/-- What is said of a failure. A conversion says once more what its cause is. -/
def Failure.message : Failure → String
  | config cause => cause.message
  | unreadable path => "failed to read " ++ path
  | notDocument path => "invalid core-types document " ++ path
  | conversion cause => cause.message ++ ": " ++ cause.detail
  | unwritable path => "failed to write " ++ path

/-- What a run can read. -/
structure Sources where
  file : String → Option String
  standardInput : String

def Sources.input (sources : Sources) (path : String) : Except Failure String :=
  if path = "-" then .ok sources.standardInput
  else match sources.file path with
    | some text => .ok text
    | none => .error (.unreadable path)

/-- The text that a run produces, with the warnings before that or before its failure. -/
structure Production where
  text : Except Failure String
  warnings : List String := []

/-- The warning that names what was not converted, if anything was not. -/
def notConvertedWarning (names : List String) : List String :=
  if names.isEmpty then [] else ["some types were not converted types=" ++ joinTexts ", " names]

def produceTypeScript (invocation : Invocation) (options : WriteOptions) (sources : Sources) : Production :=
  let result : Except Failure (Conversion String) := do
    let text ← sources.input invocation.input
    match Document.ofText? text with
    | some document => (document.emit options).mapError .conversion
    | none => .error (.notDocument invocation.input)
  match result with
  | .ok conversion => ⟨.ok conversion.data, notConvertedWarning conversion.notConverted⟩
  | .error failure => ⟨.error failure, []⟩

def produceSchema (invocation : Invocation) (options : ReadOptions) (sources : Sources) : Production :=
  let path := invocation.input
  let doubts := if path = "-" ∨ looksLikeTypeScript path then []
    else ["input does not look like TypeScript input=" ++ path]
  match sources.input path with
  | .error failure => ⟨.error failure, doubts⟩
  | .ok text =>
    let outcome := convert text options
    let warnings := doubts ++ outcome.warnings.map (·.omission.message)
    match outcome.result with
    | .ok conversion =>
      ⟨.ok (conversion.data.toJson.pretty ++ "\n"), warnings ++ notConvertedWarning conversion.notConverted⟩
    | .error cause => ⟨.error (.conversion cause), warnings⟩

/-- What an invocation produces. Switches count more than the configuration. -/
def Invocation.produce (invocation : Invocation) (sources : Sources) : Production :=
  let config := match invocation.config with
    | some path => Config.ofFile sources.file path
    | none => Config.ofProject sources.file
  match config with
  | .error cause => ⟨.error (.config cause), []⟩
  | .ok config =>
    match invocation.direction with
    | .toTypeScript => produceTypeScript invocation (invocation.given.writeOptions config.write) sources
    | .fromTypeScript => produceSchema invocation (invocation.given.readOptions config.read) sources

/-- The files that an invocation may read. -/
def Invocation.files (invocation : Invocation) : List String :=
  (invocation.config.getD Config.projectPath) :: (if invocation.input = "-" then [] else [invocation.input])

def usage : String :=
  "Usage: " ++ programName ++ " [--config <CONFIG>] <to-ts|from-ts> [OPTIONS] <INPUT>\n"

def CommandLine.Stop.exitCode : Stop → Nat
  | .help | .version => 0
  | .misuse => 2

/-- What is written to standard output when the reading of arguments ends early. -/
def CommandLine.Stop.text : Stop → String
  | .help => usage
  | .version => programName ++ " " ++ programVersion ++ "\n"
  | .misuse => ""

/-- A run of the program in a directory. -/
structure Run where
  exitCode : Nat
  standardOutput : String := ""
  warnings : List String := []
  failure : Option Failure := none
  directory : Directory

def Run.failed (directory : Directory) (warnings : List String) (failure : Failure) : Run :=
  { exitCode := 1, warnings, failure := some failure, directory }

/-- Run the program in a directory. -/
def run (directory : Directory) (standardInput : String) (arguments : List String) : Run :=
  match Invocation.ofArguments arguments with
  | .error stop => { exitCode := stop.exitCode, standardOutput := stop.text, directory }
  | .ok invocation =>
    let ⟨text, warnings⟩ := invocation.produce ⟨directory.read?, standardInput⟩
    match text, invocation.output with
    | .error failure, _ => .failed directory warnings failure
    | .ok text, none => { exitCode := 0, standardOutput := text, warnings, directory }
    | .ok text, some path =>
      match directory.write? path text with
      | some directory => { exitCode := 0, warnings, directory }
      | none => .failed directory warnings (.unwritable path)

end TypeSchema
