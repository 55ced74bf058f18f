import TypeSchema.Syntax.Basic
import TypeSchema.Text.Blank

namespace TypeSchema

/-- A comment without the blanks around its lines. -/
def tidy (doc : String) : String := String.ofList (joinWith ['\n'] ((lines doc.toList).map trim))

mutual

def TypeExpr.plain : TypeExpr → TypeExpr
  | ⟨kind, doc, _⟩ => kind.plain (doc.map tidy)

/-- The plain form of a type with the given comment. The comment of parentheses goes to what they hold, unless
that has one of its own. -/
def TypeKind.plain (doc : Option String) : TypeKind → TypeExpr
  | .keyword k => { kind := .keyword k, doc }
  | .literal l => { kind := .literal l, doc }
  | .reference name qualified args => { kind := .reference name qualified (plainTypes args), doc }
  | .array element => { kind := .array element.plain, doc }
  | .tuple elements => { kind := .tuple (plainElements elements), doc }
  | .union members => { kind := .union (plainTypes members), doc }
  | .intersection members => { kind := .intersection (plainTypes members), doc }
  | .object members => { kind := .object (plainMembers members), doc }
  | .parenthesized inner => { inner.plain with doc := inner.plain.doc.or doc }
  | .unsupported form => { kind := .unsupported form, doc }

def plainTypes : List TypeExpr → List TypeExpr
  | [] => []
  | t :: rest => t.plain :: plainTypes rest

def plainElements : List TupleElement → List TupleElement
  | [] => []
  | ⟨mark, t, label⟩ :: rest => ⟨mark, t.plain, label⟩ :: plainElements rest

def plainMembers : List Member → List Member
  | [] => []
  | .property name optional none doc _ :: rest =>
    .property name optional none (doc.map tidy) none :: plainMembers rest
  | .property name optional (some t) doc _ :: rest =>
    .property name optional (some t.plain) (doc.map tidy) none :: plainMembers rest
  | .index param key value doc _ :: rest =>
    .index param key.plain value.plain (doc.map tidy) none :: plainMembers rest
  | .other _ :: rest => .other none :: plainMembers rest

end

def Interface.plain (d : Interface) : Interface :=
  { d with
    heritage := plainTypes d.heritage, members := plainMembers d.members, doc := d.doc.map tidy, span := none }

def Alias.plain (d : Alias) : Alias := { d with value := d.value.plain, doc := d.doc.map tidy, span := none }

mutual

def Statement.plain : Statement → Statement
  | .interface d => .interface d.plain
  | .typeAlias d => .typeAlias d.plain
  | .namespaced path exported body _ => .namespaced path exported (plainStatements body) none

def plainStatements : List Statement → List Statement
  | [] => []
  | s :: rest => s.plain :: plainStatements rest

end

end TypeSchema
