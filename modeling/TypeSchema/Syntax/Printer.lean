import TypeSchema.Syntax.Basic
import TypeSchema.Text.Blank
import TypeSchema.Text.Quoted

namespace TypeSchema

/-- A name that may stand without quotes. -/
def isSafeName (name : String) : Bool :=
  match name.toList with
  | [] => false
  | c :: rest => (c.isAlpha || c == '$') && rest.all fun c => c.isAlphanum || c == '_' || c == '$'

/-- A property name, quoted unless it is safe. -/
def propertyName (name : String) : String :=
  if isSafeName name then name else Quoted.quote name

namespace Printer

def indentation (level : Nat) : String := String.ofList (List.replicate (4 * level) ' ')

def docLines (doc : String) : List String :=
  (lines doc.toList).map fun line => String.ofList (trimEnd line)

/-- A comment on lines of its own. -/
def blockDoc (level : Nat) (doc : Option String) : String :=
  match doc with
  | none => ""
  | some doc => String.join ((docLines doc).map fun line => indentation level ++ line ++ "\n")

/-- A comment in front of a type, on the line of the type. -/
def inlineDoc (level : Nat) (doc : Option String) : String :=
  match doc with
  | none => ""
  | some doc => ("\n" ++ indentation level).intercalate (docLines doc) ++ " "

def literal : Literal → String
  | .string value => Quoted.quote value
  | .number value => value.text
  | .boolean value => if value then "true" else "false"
  | .null => "null"
  | .other text => text

def isUnion : TypeKind → Bool
  | .union _ => true
  | _ => false

/-- Types that are operations on others: in an array and in an intersection they stand in parentheses. -/
def isOperation : TypeKind → Bool
  | .union _ | .intersection _ => true
  | _ => false

/-- Parentheses, where they are needed. -/
def wrapped (needed : Bool) (text : String) : String := if needed then "(" ++ text ++ ")" else text

mutual

def type (level : Nat) : TypeExpr → String
  | ⟨kind, doc, _⟩ => inlineDoc level doc ++ typeKind level kind

/-- A type without the comment in front of it. -/
def typeKind (level : Nat) : TypeKind → String
  | .keyword k => k.name
  | .literal l => literal l
  | .reference name _ args =>
    match args with
    | [] => name
    | arg :: rest => name ++ "<" ++ type level arg ++ typesAfter level rest ++ ">"
  | .array ⟨kind, doc, _⟩ =>
    wrapped (isOperation kind || doc.isSome) (inlineDoc level doc ++ typeKind level kind) ++ "[]"
  | .tuple [] => "[]"
  | .tuple (first :: rest) => "[" ++ element level first ++ elementsAfter level rest ++ "]"
  | .union [] => "never"
  | .union (⟨kind, doc, _⟩ :: rest) =>
    inlineDoc level doc ++ wrapped (isUnion kind) (typeKind level kind) ++ unionAfter level rest
  | .intersection [] => "unknown"
  | .intersection (⟨kind, doc, _⟩ :: rest) =>
    inlineDoc level doc ++ wrapped (isOperation kind) (typeKind level kind) ++
      intersectionAfter level rest
  | .object all =>
    if all.all Member.isOther then "\x7b\x7d"
    else "\x7b\n" ++ members (level + 1) all ++ indentation level ++ "\x7d"
  | .parenthesized inner => "(" ++ type level inner ++ ")"
  | .unsupported _ => "any"

/-- Types after the first of a list. -/
def typesAfter (level : Nat) : List TypeExpr → String
  | [] => ""
  | t :: rest => ", " ++ type level t ++ typesAfter level rest

/-- Operands after the first of a union. A union among them stands in parentheses, its comment in front. -/
def unionAfter (level : Nat) : List TypeExpr → String
  | [] => ""
  | ⟨kind, doc, _⟩ :: rest =>
    " | " ++ inlineDoc level doc ++ wrapped (isUnion kind) (typeKind level kind) ++
      unionAfter level rest

/-- Operands after the first of an intersection. -/
def intersectionAfter (level : Nat) : List TypeExpr → String
  | [] => ""
  | ⟨kind, doc, _⟩ :: rest =>
    " & " ++ inlineDoc level doc ++ wrapped (isOperation kind) (typeKind level kind) ++
      intersectionAfter level rest

def element (level : Nat) : TupleElement → String
  | ⟨mark, t, label⟩ =>
    (if mark = .rest then "..." else "") ++
    match label with
    | some label => label ++ (if mark = .optional then "?" else "") ++ ": " ++ type level t
    | none => type level t ++ (if mark = .optional then "?" else "")

def elementsAfter (level : Nat) : List TupleElement → String
  | [] => ""
  | e :: rest => ", " ++ element level e ++ elementsAfter level rest

/-- Members, each on a line of its own; those without a name are left out. -/
def members (level : Nat) : List Member → String
  | [] => ""
  | .property name optional t doc _ :: rest =>
    blockDoc level doc ++ indentation level ++ propertyName name ++ (if optional then "?" else "") ++
      (match t with
        | some t => ": " ++ type level t
        | none => "") ++ ";\n" ++ members level rest
  | .index param key value doc _ :: rest =>
    blockDoc level doc ++ indentation level ++ "[" ++ param ++ ": " ++ type level key ++ "]: " ++
      type level value ++ ";\n" ++ members level rest
  | .other _ :: rest => members level rest

end

/-- The words in front of a declaration. -/
def modifiers (exported declare : Bool) : String :=
  (if exported then "export " else "") ++ if declare then "declare " else ""

def typeParams (params : List String) : String :=
  if params.isEmpty then "" else "<" ++ ", ".intercalate params ++ ">"

def heritage (level : Nat) : List TypeExpr → String
  | [] => ""
  | parent :: rest => " extends " ++ type level parent ++ typesAfter level rest

def interface (level : Nat) (decl : Interface) : String :=
  blockDoc level decl.doc ++ indentation level ++ modifiers decl.exported decl.declare ++
    "interface " ++ decl.name ++ typeParams decl.typeParams ++ heritage level decl.heritage ++
    if decl.members.all Member.isOther then " \x7b\x7d"
    else " \x7b\n" ++ members (level + 1) decl.members ++ indentation level ++ "\x7d"

def typeAlias (level : Nat) (decl : Alias) : String :=
  blockDoc level decl.doc ++ indentation level ++ modifiers decl.exported decl.declare ++
    "type " ++ decl.name ++ typeParams decl.typeParams ++ " = " ++ type level decl.value ++ ";"

mutual

def statementAt (level : Nat) : Statement → String
  | .interface decl => interface level decl
  | .typeAlias decl => typeAlias level decl
  | .namespaced path exported body _ =>
    indentation level ++ (if exported then "export " else "") ++ "namespace " ++
      ".".intercalate path ++ " \x7b\n" ++ statements (level + 1) body ++ indentation level ++ "\x7d"

/-- The body of a namespace, with an empty line between two statements. -/
def statements (level : Nat) : List Statement → String
  | [] => ""
  | [s] => statementAt level s ++ "\n"
  | s :: rest => statementAt level s ++ "\n\n" ++ statements level rest

end

/-- A statement, without a line feed after it. -/
def statement (s : Statement) : String := statementAt 0 s

end Printer

end TypeSchema
