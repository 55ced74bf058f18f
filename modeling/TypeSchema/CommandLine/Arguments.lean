import TypeSchema.Entries

namespace TypeSchema.CommandLine

/-- What ends the reading of arguments before their end. -/
inductive Stop
  | help
  | version
  | misuse
deriving DecidableEq, Repr

inductive Switch
  | flag (name : String)
  /-- With a value, which follows it or is attached to it. -/
  | value (name : String) (short : Option Char) (admits : String → Bool)
  | stop (name : String) (short : Char) (stop : Stop)

def Switch.name : Switch → String
  | flag name | value name .. | stop name .. => name

def Switch.short? : Switch → Option Char
  | flag _ => none
  | value _ short _ => short
  | stop _ short _ => some short

/-- The forms of an argument. -/
inductive Argument
  | word
  /-- The mark after which there are words only. -/
  | wordsOnly
  | long (name : String) (attached : Option String)
  | short (letter : Char) (attached : Option String)

/-- The text before the first equals sign, and the one after it. -/
def splitAttached (s : List Char) : String × Option String :=
  (String.ofList (s.takeWhile (· ≠ '=')),
    match s.dropWhile (· ≠ '=') with
    | _ :: attached => some (String.ofList attached)
    | [] => none)

def Argument.ofText (text : String) : Argument :=
  match text.toList with
  | ['-', '-'] => wordsOnly
  | '-' :: '-' :: rest => long (splitAttached rest).1 (splitAttached rest).2
  | '-' :: letter :: rest =>
    short letter (match rest with
      | [] => none
      | c :: attached => some (String.ofList (if c = '=' then attached else c :: attached)))
  | _ => word

/-- What arguments give. -/
structure Given where
  flags : List String := []
  values : Entries String := []
  words : List String := []

namespace Given

def addFlag (given : Given) (name : String) : Except Stop Given :=
  if name ∈ given.flags then .error .misuse else .ok { given with flags := given.flags ++ [name] }

def addValue (given : Given) (name : String) (admits : String → Bool) (value : String) : Except Stop Given :=
  if (given.values.get? name).isSome ∨ !admits value then .error .misuse
  else .ok { given with values := given.values.put name value }

/-- There is one word, and it is not empty. -/
def addWord (given : Given) (word : String) : Except Stop Given :=
  if given.words.isEmpty ∧ word ≠ "" then .ok { given with words := [word] } else .error .misuse

def has (given : Given) (name : String) : Bool := given.flags.contains name

def value? (given : Given) (name : String) : Option String := given.values.get? name

end Given

/-- A value that a switch waits for. -/
structure Awaited where
  name : String
  admits : String → Bool

/-- What one switch gives, and the value it waits for. -/
def Given.addSwitch (given : Given) (attached : Option String) : Switch → Except Stop (Given × Option Awaited)
  | .flag name =>
    if attached.isSome then .error .misuse else (given.addFlag name).map fun given => (given, none)
  | .value name _ admits =>
    match attached with
    | some value => (given.addValue name admits value).map fun given => (given, none)
    | none => .ok (given, some ⟨name, admits⟩)
  | .stop _ _ stop => .error stop

/-- What arguments give up to the first word if they lead to a command, and else to their end; and the arguments
from that word on. -/
def scan (switches : List Switch) (leading : Bool) (given : Given) (awaited : Option Awaited) :
    List String → Except Stop (Given × List String)
  | [] => if awaited.isSome then .error .misuse else .ok (given, [])
  | argument :: rest =>
    match awaited, Argument.ofText argument with
    | some ⟨name, admits⟩, .word => do
      scan switches leading (← given.addValue name admits argument) none rest
    | some _, _ => .error .misuse
    | none, .word =>
      if leading then .ok (given, argument :: rest)
      else do scan switches leading (← given.addWord argument) none rest
    | none, .wordsOnly =>
      if leading then .error .misuse
      else do return (← rest.foldlM Given.addWord given, [])
    | none, .long name attached =>
      match switches.find? (·.name = name) with
      | some (.stop _ _ stop) => .error (if attached.isSome then .misuse else stop)
      | some switch => do
        let (given, awaited) ← given.addSwitch attached switch
        scan switches leading given awaited rest
      | none => .error .misuse
    | none, .short letter attached =>
      match switches.find? (·.short? = some letter) with
      | some switch => do
        let (given, awaited) ← given.addSwitch attached switch
        scan switches leading given awaited rest
      | none => .error .misuse

end TypeSchema.CommandLine
