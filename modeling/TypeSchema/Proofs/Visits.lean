import TypeSchema.Convert
import TypeSchema.Proofs.Tables

namespace TypeSchema

mutual

/-- What a type and the types that are visited inside it are. -/
def TypeExpr.parts : TypeExpr → List TypeKind
  | ⟨kind, _, _⟩ => kind :: kind.inner

/-- Of a reference with arguments, only that of an array written as a reference is visited. -/
def TypeKind.inner : TypeKind → List TypeKind
  | .union members => partsOf members
  | .intersection members => partsOf members
  | .parenthesized inner => inner.parts
  | .array element => element.parts
  | .reference name false args => if name = "Array" ∧ args.length ≤ 1 then partsOf args else []
  | .tuple elements => partsOfElements elements
  | .object members => partsOfMembers members
  | _ => []

def partsOf : List TypeExpr → List TypeKind
  | [] => []
  | t :: rest => t.parts ++ partsOf rest

/-- A rest element that is not the last one is left out. -/
def partsOfElements : List TupleElement → List TypeKind
  | [] => []
  | ⟨.rest, _, _⟩ :: next :: rest => partsOfElements (next :: rest)
  | ⟨_, t, _⟩ :: rest => t.parts ++ partsOfElements rest

/-- Members without a type and index signatures whose keys are no strings are left out. -/
def partsOfMembers : List Member → List TypeKind
  | [] => []
  | .property _ _ (some t) _ _ :: rest => t.parts ++ partsOfMembers rest
  | .index _ ⟨.keyword .string, _, _⟩ value _ _ :: rest => value.parts ++ partsOfMembers rest
  | _ :: rest => partsOfMembers rest

end

theorem partsOfMembers_index {key : TypeKind} (h : key ≠ .keyword .string) (param : String) (keyDoc : Option String)
    (keySpan : Option Span) (value : TypeExpr) (doc : Option String) (span : Option Span) (rest : List Member) :
    partsOfMembers (.index param ⟨key, keyDoc, keySpan⟩ value doc span :: rest) = partsOfMembers rest := by
  rw [partsOfMembers]
  all_goals simp_all

theorem Decode.members_index {key : TypeKind} (h : key ≠ .keyword .string) (beyond : Beyond) (cx : Context) (path : Path)
    (shape : Shape) (param : String) (keyDoc : Option String) (keySpan : Option Span) (value : TypeExpr)
    (doc : Option String) (span : Option Span) (rest : List Member) :
    members beyond cx path shape (.index param ⟨key, keyDoc, keySpan⟩ value doc span :: rest) =
      cx.warn .nonStringIndex (keySpan.or span) >>= fun _ => members beyond cx path shape rest := by
  rw [members]
  split
  · exact absurd ‹_› h
  · rfl

/-- The types that are visited in the body of a declaration and in what it extends. A generic one is left out. -/
def Declaration.parts (d : Declaration) : List TypeKind :=
  if d.isGeneric then []
  else
    match d.body with
    | .typeAlias a => a.value.parts
    | .interface i => partsOf i.heritage ++ partsOfMembers i.members

/-- No operator is evaluated. -/
def NoOperator (parts : List TypeKind) : Prop :=
  ∀ name args, .reference name false args ∈ parts → Operator.ofName? name = none

theorem noOperator_cons {kind : TypeKind} {parts : List TypeKind} (h : NoOperator (kind :: parts)) : NoOperator parts :=
  fun name args hm => h name args (List.mem_cons_of_mem _ hm)

theorem noOperator_append {parts more : List TypeKind} :
    NoOperator (parts ++ more) ↔ NoOperator parts ∧ NoOperator more := by
  simp only [NoOperator, List.mem_append]
  grind

/-- A declaration refers plainly to another one that is not exported. -/
def Table.Uses (table : Table) (d e : Declaration) : Prop :=
  e.exported = false ∧ ∃ name, .reference name false [] ∈ d.parts ∧ name ≠ "Array" ∧
    table.resolve? d.scope name = some e

namespace Table.Uses

variable {table : Table} {d e : Declaration}

theorem get? (h : table.Uses d e) : table.get? e.name = some e := by
  obtain ⟨-, name, -, -, hr⟩ := h
  exact get?_of_resolve? hr

theorem mem (h : table.Uses d e) : e ∈ table.declarations := (name_of_get? h.get?).2

theorem not_generic (h : table.Uses d e) : d.isGeneric = false := by
  obtain ⟨-, name, hm, -⟩ := h
  by_contra hg
  simp [Declaration.parts, hg] at hm

end Table.Uses

end TypeSchema
