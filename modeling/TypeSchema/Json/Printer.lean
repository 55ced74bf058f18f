import TypeSchema.Json.Basic
import TypeSchema.Text.Quoted

namespace TypeSchema.Json

mutual

/-- The text without any blanks. -/
def compact : Json → String
  | null => "null"
  | bool b => if b then "true" else "false"
  | number n => n.text
  | string s => Quoted.quote s
  | array items => "[" ++ compactItems items ++ "]"
  | object fields => "\x7b" ++ compactFields fields ++ "\x7d"

def compactItems : List Json → String
  | [] => ""
  | [item] => compact item
  | item :: rest => compact item ++ "," ++ compactItems rest

def compactFields : List (String × Json) → String
  | [] => ""
  | [(name, value)] => Quoted.quote name ++ ":" ++ compact value
  | (name, value) :: rest => Quoted.quote name ++ ":" ++ compact value ++ "," ++ compactFields rest

end

/-- A line feed and the indentation of a level. -/
def newline (level : Nat) : String := String.ofList ('\n' :: List.replicate (2 * level) ' ')

mutual

/-- The text with one entry a line, inside `level` containers. Empty containers stay on one line. -/
def prettyAt (level : Nat) : Json → String
  | null => "null"
  | bool b => if b then "true" else "false"
  | number n => n.text
  | string s => Quoted.quote s
  | array [] => "[]"
  | array (item :: rest) =>
    "[" ++ newline (level + 1) ++ prettyAt (level + 1) item ++ prettyItems (level + 1) rest ++
      newline level ++ "]"
  | object [] => "\x7b\x7d"
  | object ((name, value) :: rest) =>
    "\x7b" ++ newline (level + 1) ++ Quoted.quote name ++ ": " ++ prettyAt (level + 1) value ++
      prettyFields (level + 1) rest ++ newline level ++ "\x7d"

/-- The items after the first, each on a line of its own. -/
def prettyItems (level : Nat) : List Json → String
  | [] => ""
  | item :: rest => "," ++ newline level ++ prettyAt level item ++ prettyItems level rest

/-- The fields after the first, each on a line of its own. -/
def prettyFields (level : Nat) : List (String × Json) → String
  | [] => ""
  | (name, value) :: rest =>
    "," ++ newline level ++ Quoted.quote name ++ ": " ++ prettyAt level value ++
      prettyFields level rest

end

def pretty (value : Json) : String := prettyAt 0 value

end TypeSchema.Json
