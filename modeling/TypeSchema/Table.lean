import TypeSchema.Options
import TypeSchema.Syntax.Basic
import TypeSchema.Text.Blank

namespace TypeSchema

inductive DeclarationBody
  | interface (decl : Interface)
  | typeAlias (decl : Alias)

structure Declaration where
  /-- The flat name. -/
  name : String
  /-- The namespaces around it, outermost first. -/
  scope : List String
  exported : Bool
  body : DeclarationBody

namespace Declaration

def localName (d : Declaration) : String :=
  match d.body with
  | .interface i => i.name
  | .typeAlias a => a.name

def doc (d : Declaration) : Option String :=
  match d.body with
  | .interface i => i.doc
  | .typeAlias a => a.doc

def span (d : Declaration) : Option Span :=
  match d.body with
  | .interface i => i.span
  | .typeAlias a => a.span

def isGeneric (d : Declaration) : Bool :=
  match d.body with
  | .interface i => !i.typeParams.isEmpty
  | .typeAlias a => !a.typeParams.isEmpty

/-- The name with all its namespaces, whatever the flat name is. -/
def dottedName (d : Declaration) : String := joinTexts "." (d.scope ++ [d.localName])

end Declaration

/-- The flat name of a declaration. -/
def NamespacePolicy.flatName (policy : NamespacePolicy) (scope : List String) (name : String) : String :=
  match policy.separator? with
  | some separator => joinTexts separator (scope ++ [name])
  | none => name

mutual

/-- The declarations of a statement inside `scope`. -/
def declarationsOf (policy : NamespacePolicy) (scope : List String) : Statement → List Declaration
  | .interface decl => [⟨policy.flatName scope decl.name, scope, decl.exported, .interface decl⟩]
  | .typeAlias decl => [⟨policy.flatName scope decl.name, scope, decl.exported, .typeAlias decl⟩]
  | .namespaced path _ body _ =>
    if policy = .ignore then [] else visited policy (scope ++ path) body

/-- The declarations that a policy reaches, in the order of the text. -/
def visited (policy : NamespacePolicy) (scope : List String) : List Statement → List Declaration
  | [] => []
  | s :: rest => declarationsOf policy scope s ++ visited policy scope rest

end

/-- Declarations with distinct flat names. -/
structure Table where
  policy : NamespacePolicy
  declarations : List Declaration

namespace Table

/-- The declarations with one more, and the one that had to give way. The first of a name stays, unless a
shallower one is hoisted over it. -/
def insert (policy : NamespacePolicy) (d : Declaration) :
    List Declaration → List Declaration × Option Declaration
  | [] => ([d], none)
  | e :: rest =>
    if e.name = d.name then
      if policy = .hoist ∧ d.scope.length < e.scope.length then (d :: rest, some e)
      else (e :: rest, some d)
    else
      let (rest', lost) := insert policy d rest
      (e :: rest', lost)

/-- The table with some more declarations, and the dotted names of those that were hoisted away. -/
def add (table : Table) : List Declaration → Table × List String
  | [] => (table, [])
  | d :: rest =>
    let (declarations, lost) := insert table.policy d table.declarations
    let (table', away) := add { table with declarations } rest
    let lost := if table.policy = .hoist then lost.map Declaration.dottedName else none
    (table', lost.toList ++ away)

/-- The table of a file, and the dotted names of the declarations that were hoisted away. -/
def collect (policy : NamespacePolicy) (file : SourceFile) : Table × List String :=
  add ⟨policy, []⟩ (visited policy [] file.statements)

def get? (table : Table) (name : String) : Option Declaration :=
  table.declarations.find? (·.name = name)

/-- The namespaces around a place, innermost first, down to none. -/
def enclosing (scope : List String) : List (List String) :=
  (List.range (scope.length + 1)).reverse.map scope.take

/-- What `name` means inside `scope`: where names are joined, the innermost namespace that has it counts. -/
def resolve? (table : Table) (scope : List String) (name : String) : Option Declaration :=
  match table.policy.separator? with
  | none => table.get? name
  | some separator => (enclosing scope).findSome? fun outer => table.get? (joinTexts separator (outer ++ [name]))

end Table

end TypeSchema
