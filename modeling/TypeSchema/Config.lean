import TypeSchema.Options
import TypeSchema.Toml.Parser

namespace TypeSchema

structure Config where
  write : WriteOptions := {}
  read : ReadOptions := {}

inductive ConfigError
  | unreadable (path : String)
  | invalid (path : String)
deriving DecidableEq, Repr

namespace Config

/-- Where the configuration of a project is. -/
def projectPath : String := "./.normalize/core-types.toml"

/-- In place of nothing stands an empty list or table. -/
def isUnit : Json → Bool
  | .array items => items.isEmpty
  | .object fields => fields.isEmpty
  | _ => false

/-- The configuration of a table. Other tables and unknown options are passed over. -/
def ofTable? (table : Toml.Table) : Option Config := do
  let fields := Toml.tableJson table
  some {
    write := ← Json.orElse? (WriteOptions.ofJson? isUnit) {} "to-ts" fields
    read := ← Json.orElse? (ReadOptions.ofJson? isUnit) {} "from-ts" fields }

def ofText? (text : String) : Option Config := (Toml.parse? text).bind ofTable?

/-- The configuration in a file. -/
def ofFile (file : String → Option String) (path : String) : Except ConfigError Config :=
  match file path with
  | none => .error (.unreadable path)
  | some text =>
    match ofText? text with
    | some config => .ok config
    | none => .error (.invalid path)

/-- The configuration of a project, or the defaults if it has none. -/
def ofProject (file : String → Option String) : Except ConfigError Config :=
  match file projectPath with
  | none => .ok {}
  | some _ => ofFile file projectPath

def toJson (config : Config) : Json :=
  .object [("to-ts", config.write.toJson), ("from-ts", config.read.toJson)]

end Config

end TypeSchema
