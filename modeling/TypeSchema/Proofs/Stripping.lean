import TypeSchema.Proofs.Tables

namespace TypeSchema

mutual

/-- The type without comments, and without parentheses around types. -/
def TypeExpr.stripped : TypeExpr → TypeExpr
  | ⟨.parenthesized inner, _, _⟩ => inner.stripped
  | ⟨kind, _, span⟩ => ⟨kind.stripped, none, span⟩

/-- What is inside a type, stripped. Parentheses of its own stay. -/
def TypeKind.stripped : TypeKind → TypeKind
  | .reference name qualified args => .reference name qualified (strippedTypes args)
  | .array element => .array element.stripped
  | .tuple elements => .tuple (strippedElements elements)
  | .union members => .union (strippedTypes members)
  | .intersection members => .intersection (strippedTypes members)
  | .object members => .object (strippedMembers members)
  | .parenthesized inner => .parenthesized inner.stripped
  | kind => kind

def strippedTypes : List TypeExpr → List TypeExpr
  | [] => []
  | t :: rest => t.stripped :: strippedTypes rest

def strippedElements : List TupleElement → List TupleElement
  | [] => []
  | ⟨mark, t, label⟩ :: rest => ⟨mark, t.stripped, label⟩ :: strippedElements rest

/-- The key of an index signature keeps its own parentheses: with them it is no plain `string`. -/
def strippedMembers : List Member → List Member
  | [] => []
  | .property name optional none _ span :: rest =>
    .property name optional none none span :: strippedMembers rest
  | .property name optional (some t) _ span :: rest =>
    .property name optional (some t.stripped) none span :: strippedMembers rest
  | .index param ⟨key, _, keySpan⟩ value _ span :: rest =>
    .index param ⟨key.stripped, none, keySpan⟩ value.stripped none span :: strippedMembers rest
  | .other span :: rest => .other span :: strippedMembers rest

end

/-- The type stripped but for its own parentheses. -/
def TypeExpr.strippedInside (t : TypeExpr) : TypeExpr := ⟨t.kind.stripped, none, t.span⟩

/-- What an interface extends keeps its own parentheses: with them it is no plain name. -/
def Interface.stripped (i : Interface) : Interface :=
  { i with heritage := i.heritage.map TypeExpr.strippedInside, members := strippedMembers i.members, doc := none }

def Alias.stripped (a : Alias) : Alias := { a with value := a.value.stripped, doc := none }

mutual

def Statement.stripped : Statement → Statement
  | .interface decl => .interface decl.stripped
  | .typeAlias decl => .typeAlias decl.stripped
  | .namespaced path exported body span => .namespaced path exported (strippedStatements body) span

def strippedStatements : List Statement → List Statement
  | [] => []
  | s :: rest => s.stripped :: strippedStatements rest

end

/-- The file without comments, each type in parentheses replaced by what the parentheses hold. -/
def SourceFile.stripped (file : SourceFile) : SourceFile := ⟨strippedStatements file.statements⟩

/-- Only parentheses themselves are replaced. -/
theorem TypeExpr.stripped_of {kind : TypeKind} (h : ∀ inner, kind ≠ .parenthesized inner) (doc : Option String)
    (span : Option Span) : stripped ⟨kind, doc, span⟩ = ⟨kind.stripped, none, span⟩ := by
  cases kind
  case parenthesized inner => exact absurd rfl (h inner)
  all_goals rw [TypeExpr.stripped]; rintro _ ⟨⟩

@[simp] theorem strippedTypes_eq_map (ts : List TypeExpr) : strippedTypes ts = ts.map TypeExpr.stripped := by
  induction ts with
  | nil => rfl
  | cons t rest ih => rw [strippedTypes, ih, List.map_cons]

/-- No other key becomes a plain `string`. -/
theorem TypeKind.stripped_eq_string {kind : TypeKind} : kind.stripped = .keyword .string ↔ kind = .keyword .string := by
  cases kind <;> simp [stripped]

def DeclarationBody.stripped : DeclarationBody → DeclarationBody
  | .interface decl => .interface decl.stripped
  | .typeAlias decl => .typeAlias decl.stripped

namespace Declaration

def stripped (d : Declaration) : Declaration := { d with body := d.body.stripped }

variable (d : Declaration)

@[simp] theorem stripped_name : d.stripped.name = d.name := rfl

@[simp] theorem stripped_scope : d.stripped.scope = d.scope := rfl

@[simp] theorem stripped_exported : d.stripped.exported = d.exported := rfl

@[simp] theorem stripped_isGeneric : d.stripped.isGeneric = d.isGeneric := by
  obtain ⟨name, scope, exported, body⟩ := d
  cases body <;> rfl

@[simp] theorem stripped_dottedName : d.stripped.dottedName = d.dottedName := by
  obtain ⟨name, scope, exported, body⟩ := d
  cases body <;> rfl

end Declaration

mutual

theorem declarationsOf_stripped (policy : NamespacePolicy) (scope : List String) (s : Statement) :
    declarationsOf policy scope s.stripped = (declarationsOf policy scope s).map Declaration.stripped := by
  match s with
  | .interface decl | .typeAlias decl => rfl
  | .namespaced path exported body span =>
    rw [Statement.stripped, declarationsOf, declarationsOf, visited_stripped policy (scope ++ path) body]
    split <;> rfl

theorem visited_stripped (policy : NamespacePolicy) (scope : List String) (body : List Statement) :
    visited policy scope (strippedStatements body) = (visited policy scope body).map Declaration.stripped := by
  match body with
  | [] => rfl
  | s :: rest =>
    rw [strippedStatements, visited, visited, declarationsOf_stripped policy scope s,
      visited_stripped policy scope rest, List.map_append]

end

namespace Table

def stripped (table : Table) : Table := { table with declarations := table.declarations.map Declaration.stripped }

@[simp] theorem stripped_policy (table : Table) : table.stripped.policy = table.policy := rfl

@[simp] theorem stripped_declarations (table : Table) :
    table.stripped.declarations = table.declarations.map Declaration.stripped := rfl

theorem insert_stripped (policy : NamespacePolicy) (d : Declaration) (ds : List Declaration) :
    insert policy d.stripped (ds.map Declaration.stripped) =
      ((insert policy d ds).1.map Declaration.stripped, (insert policy d ds).2.map Declaration.stripped) := by
  induction ds with
  | nil => rfl
  | cons e rest ih =>
    rw [List.map_cons, insert, insert, ih]
    by_cases he : e.name = d.name
    · by_cases hover : policy = .hoist ∧ d.scope.length < e.scope.length <;> simp [he, hover]
    · simp [he]

theorem add_stripped (table : Table) (ds : List Declaration) :
    table.stripped.add (ds.map Declaration.stripped) = ((table.add ds).1.stripped, (table.add ds).2) := by
  induction ds generalizing table with
  | nil => rfl
  | cons d rest ih =>
    have hrest := ih { table with declarations := (insert table.policy d table.declarations).1 }
    simp only [stripped] at hrest
    simp only [List.map_cons, add, insert_stripped, hrest, stripped]
    refine congrArg (Prod.mk _) (congrArg (fun lost : Option String => lost.toList ++ _) ?_)
    split
    · rw [Option.map_map]
      exact congrArg (Option.map · _) (funext Declaration.stripped_dottedName)
    · rfl

/-- Which declarations are kept does not depend on comments and parentheses. -/
theorem collect_stripped (policy : NamespacePolicy) (file : SourceFile) :
    collect policy file.stripped = ((collect policy file).1.stripped, (collect policy file).2) := by
  rw [collect, SourceFile.stripped, visited_stripped]
  exact add_stripped ⟨policy, []⟩ _

theorem get?_stripped (table : Table) (name : String) :
    table.stripped.get? name = (table.get? name).map Declaration.stripped := by
  rw [get?, stripped_declarations, List.find?_map]
  rfl

/-- What a name means does not depend on comments and parentheses. -/
theorem resolve?_stripped (table : Table) (scope : List String) (name : String) :
    table.stripped.resolve? scope name = (table.resolve? scope name).map Declaration.stripped := by
  unfold resolve?
  rw [stripped_policy]
  cases table.policy.separator? with
  | none => exact get?_stripped table name
  | some separator =>
    dsimp only
    induction enclosing scope with
    | nil => rfl
    | cons outer rest ih =>
      rw [List.findSome?_cons, List.findSome?_cons, get?_stripped]
      cases table.get? (joinTexts separator (outer ++ [name])) with
      | none => exact ih
      | some d => rfl

end Table

end TypeSchema
