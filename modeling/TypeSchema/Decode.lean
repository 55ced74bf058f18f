import TypeSchema.DocComment
import TypeSchema.Error
import TypeSchema.Schema.Basic
import TypeSchema.Table

namespace TypeSchema

/-- What is noted on the way. -/
structure Log where
  warnings : List Warning := []
  /-- The declarations that are not exported and are referred to, in the order of the first reference. -/
  referenced : List String := []

abbrev Decode (α : Type) := ExceptT Error (StateM Log) α

theorem Decode.run_bind {α β : Type} (m : Decode α) (f : α → Decode β) (log : Log) :
    (m >>= f).run.run log = match m.run.run log with
      | (.ok a, log') => (f a).run.run log'
      | (.error e, log') => (.error e, log') := by
  rw [ExceptT.run_bind, StateT.run_bind]
  change (match m.run.run log with | (x, log') => _) = _
  cases m.run.run log with
  | mk x log' => cases x <;> rfl

/-- Where decoding stands. -/
structure Context where
  source : List Char
  options : ReadOptions
  table : Table
  /-- The declaration of the document that is being converted. -/
  path : List String := []
  /-- The namespaces from which references are resolved. -/
  scope : List String := []
  /-- The declarations that have been entered, the last one first. -/
  entered : List String := []

/-- What an object has: its properties, and what else it may hold. -/
structure Shape where
  properties : Entries Property := []
  additional : Additional := .allowed false

def Shape.node (shape : Shape) : Node := .of (.object shape.properties shape.additional)

/-- A shape on top of another: its properties come after or replace, and what else it allows counts if it allows
anything. -/
def Shape.extend (base top : Shape) : Shape where
  properties := base.properties.extend top.properties
  additional := if top.additional.isAllowed then top.additional else base.additional

def Node.shape? (node : Node) : Option Shape :=
  match node.kind with
  | .object properties additional => some ⟨properties, additional⟩
  | _ => none

namespace Context

def place (cx : Context) (span : Option Span) : Place :=
  match span with
  | some span => { Place.ofSpan cx.source span with path := cx.path }
  | none => { path := cx.path }

def warn (cx : Context) (omission : Omission) (span : Option Span) : Decode Unit :=
  modify fun log => { log with warnings := log.warnings ++ [⟨omission, cx.place span⟩] }

/-- Leave out a construct as the policy says. -/
def unsupported {α : Type} (cx : Context) (cause : Unsupported) (span : Option Span) :
    Decode (Option α) := do
  match cx.options.unsupported with
  | .ignore => return none
  | .warn =>
    cx.warn (.unsupported cause) span
    return none
  | .error => throw (.unsupported cause (cx.place span))

def cyclic {α : Type} (cx : Context) (expansion : Expansion) (d : Declaration) (span : Option Span) :
    Decode α :=
  throw (.malformed (.cyclic expansion d.name) (cx.place span))

/-- The context inside a declaration. -/
def inside (cx : Context) (d : Declaration) : Context :=
  { cx with scope := d.scope, entered := d.name :: cx.entered }

end Context

/-- The way into other declarations. -/
structure Beyond where
  /-- The node of a declaration, to stand in place of a reference to it. -/
  inline : Context → Declaration → Option Span → Decode (Option Node)
  /-- The members of a declaration, the inherited ones among them. -/
  expand : Context → Declaration → Option Span → Decode (Option Shape)

/-- What a reference becomes. -/
inductive Resolved
  | ref (name : String)
  /-- The declaration itself; nothing if it could not be converted. -/
  | inlined (node : Option Node)

/-- The step that a type stands for on the way to what is inside it. -/
def Ancestor.ofType : TypeKind → Ancestor
  | .array _ => .array
  | .tuple _ => .tuple none
  | .union _ => .union
  | .object _ => .object
  | .parenthesized _ => .parenthesized
  | _ => .other

mutual

/-- The keys that a type lists: string literals and unions of them. -/
def stringKeys? : TypeExpr → Option (List String)
  | ⟨.literal (.string key), _, _⟩ => some [key]
  | ⟨.union members, _, _⟩ => stringKeysOf? members
  | ⟨.parenthesized inner, _, _⟩ => stringKeys? inner
  | _ => none

def stringKeysOf? : List TypeExpr → Option (List String)
  | [] => some []
  | t :: rest => do return (← stringKeys? t) ++ (← stringKeysOf? rest)

end

namespace Operator

/-- The shape that an operator makes of another, given its keys. -/
def apply (op : Operator) (keys : List String) (shape : Shape) : Shape :=
  match op with
  | pick => ⟨shape.properties.filter fun p => keys.contains p.1, .allowed false⟩
  | drop => { shape with properties := shape.properties.filter fun p => !keys.contains p.1 }
  | loosen =>
    { shape with properties := shape.properties.map fun (name, p) => (name, { p with required := false }) }

end Operator

/-- What a tuple has: its elements, how many of them it needs, and what else it may hold. -/
structure TupleShape where
  elements : List Node := []
  minItems : Nat := 0
  additional : Additional := .allowed false

/-- What a rest element allows. A rest of which nothing is known allows everything. -/
def Additional.ofRest : Option Node → Additional
  | some rest => if rest.kind.isAny then .allowed true else .node rest
  | none => .allowed true

namespace Decode

variable (beyond : Beyond) (cx : Context)

/-- What a name refers to, as the policy for declarations that are not exported says. -/
def resolve (name : String) (span : Option Span) : Decode Resolved := do
  match cx.table.resolve? cx.scope name with
  | none => return .ref name
  | some d =>
    if d.exported then return .ref d.name
    else match cx.options.nonExported with
      | .includeIfReferenced =>
        modify fun log =>
          if d.name ∈ log.referenced then log else { log with referenced := log.referenced ++ [d.name] }
        return .ref d.name
      | .inline => return .inlined (← beyond.inline cx d span)
      | _ => return .ref d.name

/-- The shape of the subject of an operator: its own, or that of the declaration it names. -/
def subjectShape (op : Operator) (subject : Node) (subjectSpan span : Option Span) :
    Decode (Option Shape) := do
  match subject.kind with
  | .object properties additional => return some ⟨properties, additional⟩
  | .ref name =>
    let shape ← match cx.table.get? name with
      | some d => beyond.expand cx d subjectSpan
      | none => pure none
    match shape with
    | some shape => return some shape
    | none => cx.unsupported (.operatorOfUnknown op name) span
  | kind => cx.unsupported (.operatorOfKind op kind.tag) span

/-- An operator on a subject that has been decoded. -/
def operator (op : Operator) (subject : Node) (subjectSpan : Option Span) (keys : Option TypeExpr)
    (span : Option Span) : Decode (Option Node) := do
  match ← subjectShape beyond cx op subject subjectSpan span with
  | none => return none
  | some shape =>
    match keys with
    | none => return some (op.apply [] shape).node
    | some keys =>
      match stringKeys? keys with
      | some keys => return some (op.apply keys shape).node
      | none => cx.unsupported (.operatorKeys op) keys.span

mutual

/-- The node of a type; nothing if it is left out. The path leads to what the type stands in. -/
def type (outer : Path) : TypeExpr → Decode (Option Node)
  | ⟨kind, doc, span⟩ => do
    let path := Ancestor.ofType kind :: outer
    let annotations := DocComment.read doc path
    let layered (node : Node) : Decode (Option Node) := return some (node.layer annotations)
    match kind with
    | .union members => layered (.of (.or (← types path members)))
    | .intersection members => layered (.of (.and (← types path members)))
    | .parenthesized inner => return (← type path inner).map (·.layer annotations)
    | .keyword .any => layered .any
    | .keyword .unknown => layered .any
    | .keyword .string => layered (.of .string)
    | .keyword .number => layered (.of .number)
    | .keyword .boolean => layered (.of .boolean)
    | .keyword .object => layered (.of (.object [] (.allowed true)))
    | .keyword k => cx.unsupported (.type k.name) span
    | .literal (.number n) => layered { kind := .number, constant := some (.number n) }
    | .literal (.string s) => layered { kind := .string, constant := some (.string s) }
    | .literal (.boolean b) => layered { kind := .boolean, constant := some (.bool b) }
    | .literal .null => layered (.of .null)
    | .literal (.other _) => cx.unsupported .literal span
    | .array element => layered (.of (.array ((← type path element).getD .any)))
    | .reference _ true _ => cx.unsupported .qualifiedName span
    | .reference name false args =>
      if name = "Array" ∧ args.length ≤ 1 then
        match args with
        | arg :: _ => layered (.of (.array ((← type path arg).getD .any)))
        | [] => layered (.of (.array .any))
      else match Operator.ofName? name with
        | some op =>
          if args.length ≠ op.arity then cx.unsupported (.operatorArity op args.length) span
          else match args with
            | subject :: keys =>
              match ← type path subject with
              | some node =>
                let result ← operator beyond cx op node subject.span keys.head? span
                return result.map (·.layer annotations)
              | none => return none
            | [] => return none
        | none =>
          if !args.isEmpty then cx.unsupported .generic span
          else match ← resolve beyond cx name span with
            | .ref target => layered (.of (.ref target))
            | .inlined node => return node
    | .tuple all =>
      let shape ← elements outer 0 all
      layered (.of (.tuple shape.elements shape.additional shape.minItems))
    | .object all => layered (← members path {} all).node
    | .unsupported form => cx.unsupported (.type form) span

/-- The nodes of types, without those that are left out. -/
def types (path : Path) : List TypeExpr → Decode (List Node)
  | [] => return []
  | t :: rest => do
    let node ← type path t
    return node.toList ++ (← types path rest)

/-- The shape of a tuple from the element at position `i` on. -/
def elements (outer : Path) (i : Nat) : List TupleElement → Decode TupleShape
  | [] => return {}
  | ⟨.required, t, _⟩ :: rest => do
    let node ← type (.tuple (some i) :: outer) t
    let shape ← elements outer (i + 1) rest
    return { shape with elements := node.getD .any :: shape.elements, minItems := shape.minItems + 1 }
  | ⟨.optional, t, _⟩ :: rest => do
    let node ← type (.optional :: .tuple (some i) :: outer) t
    let shape ← elements outer (i + 1) rest
    return { shape with elements := node.getD .any :: shape.elements, minItems := 0 }
  | [⟨.rest, t, _⟩] => do
    match ← type (.rest :: .tuple (some i) :: outer) t with
    | some ⟨.array element, _, _, _, _⟩ => return { additional := .ofRest element }
    | some _ => return { additional := .ofRest (← cx.unsupported .restNotArray t.span) }
    | none => return { additional := .allowed true }
  | ⟨.rest, t, _⟩ :: rest => do
    let _ : Option Node ← cx.unsupported .restNotLast t.span
    elements outer (i + 1) rest

/-- The shape of an object with some more members. -/
def members (path : Path) (shape : Shape) : List Member → Decode Shape
  | [] => return shape
  | .property name optional (some t) doc _ :: rest => do
    let path' := .property name :: path
    let node ← type path' t
    let node := (node.getD .any).layer (DocComment.read doc path')
    members path { shape with properties := shape.properties.put name ⟨node, !optional⟩ } rest
  | .property _ _ none _ _ :: rest => members path shape rest
  | .index _ key value _ span :: rest => do
    match key.kind with
    | .keyword .string =>
      let node ← type (.other :: path) value
      members path { shape with additional := .node (node.getD .any) } rest
    | _ =>
      cx.warn .nonStringIndex (key.span.or span)
      members path shape rest
  | .other _ :: rest => members path shape rest

end

/-- The node of a declaration, its own annotations on top. An interface that extends others is the
intersection of them with its own members. -/
def declaration (d : Declaration) : Decode (Option Node) := do
  if d.isGeneric then cx.unsupported .generic d.span
  else
    let path : Path := [.declaration d.name]
    let annotations := DocComment.read d.doc path
    match d.body with
    | .typeAlias a => return some (((← type beyond cx path a.value).getD .any).layer annotations)
    | .interface i =>
      let parents ← types beyond cx (.other :: path) i.heritage
      let own := (← members beyond cx path {} i.members).node
      let node := if parents.isEmpty then own else .of (.and (parents ++ [own]))
      return some (node.layer annotations)

/-- The members that an interface inherits, those of later parents on top. A reference is looked up by its bare
name, whatever its arguments and its qualifier; other parents are passed over, and so are declarations without
a shape. -/
def inherited (shape : Shape) : List TypeExpr → Decode Shape
  | [] => return shape
  | parent :: rest => do
    match parent.kind with
    | .reference name _ _ =>
      match cx.table.resolve? cx.scope name with
      | some target =>
        match ← beyond.expand cx target parent.span with
        | some more => inherited (shape.extend more) rest
        | none => inherited shape rest
      | none => inherited shape rest
    | _ => inherited shape rest

/-- The members of a declaration, inherited ones first; nothing if it is generic or no object. -/
def shape (d : Declaration) : Decode (Option Shape) := do
  match d.body with
  | .interface i =>
    if !i.typeParams.isEmpty then return none
    else
      let base ← inherited beyond cx {} i.heritage
      let own ← members beyond cx [.declaration d.name] {} i.members
      return some (base.extend own)
  | .typeAlias _ => return (← declaration beyond cx d).bind Node.shape?

end Decode

/-- The way into declarations that stand inside one another at most so deep. Where as many have been entered as
there are, another one has been entered before. -/
def Beyond.within : Nat → Beyond
  | 0 => ⟨fun cx d span => cx.cyclic .inline d span, fun cx d span => cx.cyclic .expand d span⟩
  | depth + 1 =>
    let inner := within depth
    { inline := fun cx d span =>
        if d.name ∈ cx.entered then cx.cyclic .inline d span
        else Decode.declaration inner (cx.inside d) d
      expand := fun cx d span =>
        if d.name ∈ cx.entered then cx.cyclic .expand d span
        else Decode.shape inner (cx.inside d) d }

end TypeSchema
