import TypeSchema.Json.Basic

namespace TypeSchema.Toml

/-- How a table came to be, which decides what may be added to it. -/
inductive Origin
  /-- Under a header of its own. -/
  | header
  /-- As a part of the header of another table. -/
  | implied
  /-- As a part of a dotted key. -/
  | dotted
  /-- Between braces; nothing may be added. -/
  | inline
deriving DecidableEq, Repr

inductive Value
  | text (value : String)
  | bool (value : Bool)
  | integer (value : Int)
  /-- Nothing stands for the infinities and for what is no number. -/
  | float (value : Option Binary64)
  /-- A date, a time or both, as it is written. -/
  | moment (text : String)
  | array (items : List Value)
  | table (origin : Origin) (entries : List (String × Value))
  /-- The tables of double-bracketed headers of one name. -/
  | tables (rows : List (List (String × Value)))

abbrev Table := Entries Value

/-- What a line adds. -/
inductive Line
  | assign (keys : List String) (value : Value)
  | header (keys : List String)
  | row (keys : List String)

/-- A new entry under dotted keys. It may end in a table of dotted keys only, or in the one where the keys start,
and never passes through a table with a header. -/
def assign (value : Value) (mayEnd : Bool) : List String → Table → Option Table
  | [], _ => none
  | [key], entries =>
    if mayEnd && (entries.get? key).isNone then some (entries.put key value) else none
  | key :: rest, entries =>
    match entries.get? key with
    | none => (assign value true rest []).map fun t => entries.put key (.table .dotted t)
    | some (.table .dotted t) => (assign value true rest t).map fun t => entries.put key (.table .dotted t)
    | some (.table .implied t) =>
      (assign value false rest t).map fun t => entries.put key (.table .implied t)
    | some (.tables rows) => do
      let t ← assign value false rest (← rows.getLast?)
      some (entries.put key (.tables (rows.dropLast ++ [t])))
    | some _ => none

/-- A change to the table that a header leads to. Tables on the way that are not there yet are implied; of
several rows the last one counts. -/
def atHeader (change : Table → Option Table) : List String → Table → Option Table
  | [], entries => change entries
  | key :: rest, entries =>
    match entries.get? key with
    | none => (atHeader change rest []).map fun t => entries.put key (.table .implied t)
    | some (.table .inline _) => none
    | some (.table origin t) =>
      (atHeader change rest t).map fun t => entries.put key (.table origin t)
    | some (.tables rows) => do
      let t ← atHeader change rest (← rows.getLast?)
      some (entries.put key (.tables (rows.dropLast ++ [t])))
    | some _ => none

/-- A table gets its header once. -/
def addHeader (key : String) (entries : Table) : Option Table :=
  match entries.get? key with
  | none => some (entries.put key (.table .header []))
  | some (.table .implied t) => some (entries.put key (.table .header t))
  | some _ => none

def addRow (key : String) (entries : Table) : Option Table :=
  match entries.get? key with
  | none => some (entries.put key (.tables [[]]))
  | some (.tables rows) => some (entries.put key (.tables (rows ++ [[]])))
  | some _ => none

/-- The table of a text, given the header that its next lines stand under. -/
def addLines (under : List String) (entries : Table) : List Line → Option Table
  | [] => some entries
  | .assign keys value :: rest => do
    addLines under (← atHeader (assign value true keys) under entries) rest
  | .header keys :: rest => do
    addLines keys (← atHeader (addHeader (← keys.getLast?)) keys.dropLast entries) rest
  | .row keys :: rest => do
    addLines keys (← atHeader (addRow (← keys.getLast?)) keys.dropLast entries) rest

/-- The table that lines make up; nothing if they define something twice. -/
def ofLines? (lines : List Line) : Option Table := addLines [] [] lines

mutual

/-- A value as JSON. Moments become objects of one field; floats beyond the finite ones count as zero. -/
def Value.toJson : Value → Json
  | .text s => .string s
  | .bool b => .bool b
  | .integer n => .int n
  | .float x => .number (.float (x.getD (.zero false)))
  | .moment text => .object [("moment", .string text)]
  | .array items => .array (itemsJson items)
  | .table _ entries => .object (tableJson entries)
  | .tables rows => .array (rowsJson rows)

def itemsJson : List Value → List Json
  | [] => []
  | item :: rest => item.toJson :: itemsJson rest

def tableJson : List (String × Value) → List (String × Json)
  | [] => []
  | (key, value) :: rest => (key, value.toJson) :: tableJson rest

def rowsJson : List (List (String × Value)) → List Json
  | [] => []
  | row :: rest => .object (tableJson row) :: rowsJson rest

end

end TypeSchema.Toml
