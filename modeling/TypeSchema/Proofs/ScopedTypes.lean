import TypeSchema.Proofs.References
import TypeSchema.Proofs.Scopes

namespace TypeSchema

/-- A type that is decoded without a look at anything inside it. -/
def TypeKind.RefersToNothing : TypeKind → Prop
  | .keyword _ | .literal _ => True
  | .reference name false args => name = "Array" ∧ args = []
  | _ => False

/-- A type that may be left out. -/
def TypeKind.MayBeLeftOut : TypeKind → Prop
  | .keyword _ | .literal _ | .unsupported _ | .reference _ true _ => True
  | .reference name false args => args ≠ [] ∨ (Operator.ofName? name).isSome
  | _ => False

/-- A member that has no part in the shape of an object. -/
def Member.IsPassedOver : Member → Prop
  | .property _ _ t _ _ => t = none
  | .index _ key _ _ _ => key.kind ≠ .keyword .string
  | .other _ => True

namespace SourceFile

/-- What a name in a heritage leads to: a declaration of the file, and the one that the name means there. -/
structure Leads (file : SourceFile) (scope : List String) (name : String) (outer : List String)
    (body : DeclarationBody) : Prop where
  stands : Stands file.statements outer body
  innermost : Undotted name → file.Innermost scope name outer ∧ body.localName = name

mutual

/-- What a type yields that is written in these namespaces; nothing where it is left out. Annotations are left open, and
so is what a name becomes that holds a dot and is no identifier. -/
inductive Yields (file : SourceFile) : List String → TypeExpr → Option Kind → Prop
  | reference {scope : List String} {t : TypeExpr} {name target : String} : t.kind = .reference name false [] →
      name ∉ ["Array", "Pick", "Omit", "Partial"] → (Undotted name → file.Means scope name target) →
      Yields file scope t (some (.ref target))
  | plain {scope : List String} {t : TypeExpr} {kind : Kind} : t.kind.RefersToNothing → (Node.of kind).refs = [] →
      Yields file scope t (some kind)
  | leftOut {scope : List String} {t : TypeExpr} : t.kind.MayBeLeftOut → Yields file scope t none
  | union {scope : List String} {t : TypeExpr} {all : List TypeExpr} {nodes : List Node} : t.kind = .union all →
      YieldsAll file scope all nodes → Yields file scope t (some (.or nodes))
  | intersection {scope : List String} {t : TypeExpr} {all : List TypeExpr} {nodes : List Node} :
      t.kind = .intersection all → YieldsAll file scope all nodes → Yields file scope t (some (.and nodes))
  | parenthesized {scope : List String} {t inner : TypeExpr} {kind : Option Kind} : t.kind = .parenthesized inner →
      Yields file scope inner kind → Yields file scope t kind
  | array {scope : List String} {t element : TypeExpr} {kind : Option Kind} {node : Node} :
      t.kind = .array element ∨ t.kind = .reference "Array" false [element] → Yields file scope element kind →
      node.kind = kind.getD .any → Yields file scope t (some (.array node))
  | tuple {scope : List String} {t : TypeExpr} {all : List TupleElement} {elements : List Node}
      {additional : Additional} {minItems : Nat} : t.kind = .tuple all →
      YieldsElements file scope all elements additional → Yields file scope t (some (.tuple elements additional minItems))
  | object {scope : List String} {t : TypeExpr} {all : List Member} {shape : Shape} : t.kind = .object all →
      YieldsMembers file scope {} all shape → Yields file scope t (some shape.node.kind)
  | operator {scope : List String} {t subject : TypeExpr} {name : String} {op : Operator} {keys : List TypeExpr}
      {listed : List String} {shape : Shape} : t.kind = .reference name false (subject :: keys) →
      Operator.ofName? name = some op → Supplies file scope subject shape →
      keys.head?.elim (some []) stringKeys? = some listed →
      Yields file scope t (some (op.apply listed shape).node.kind)

inductive YieldsAll (file : SourceFile) : List String → List TypeExpr → List Node → Prop
  | nil {scope : List String} : YieldsAll file scope [] []
  | cons {scope : List String} {t : TypeExpr} {rest : List TypeExpr} {node : Option Node} {nodes : List Node} :
      Yields file scope t (node.map Node.kind) → YieldsAll file scope rest nodes →
      YieldsAll file scope (t :: rest) (node.toList ++ nodes)

/-- The elements of a tuple, and what else it may hold. -/
inductive YieldsElements (file : SourceFile) : List String → List TupleElement → List Node → Additional → Prop
  | nil {scope : List String} : YieldsElements file scope [] [] (.allowed false)
  | element {scope : List String} {e : TupleElement} {rest : List TupleElement} {kind : Option Kind} {node : Node}
      {elements : List Node} {additional : Additional} : e.mark ≠ .rest → Yields file scope e.type kind →
      node.kind = kind.getD .any → YieldsElements file scope rest elements additional →
      YieldsElements file scope (e :: rest) (node :: elements) additional
  | rest {scope : List String} {e : TupleElement} {element : Node} : e.mark = .rest →
      Yields file scope e.type (some (.array element)) → YieldsElements file scope [e] [] (.ofRest (some element))
  | unknownRest {scope : List String} {e : TupleElement} {kind : Option Kind} : e.mark = .rest →
      Yields file scope e.type kind → (∀ element, kind ≠ some (.array element)) →
      YieldsElements file scope [e] [] (.allowed true)
  | misplacedRest {scope : List String} {e next : TupleElement} {rest : List TupleElement} {elements : List Node}
      {additional : Additional} : e.mark = .rest → YieldsElements file scope (next :: rest) elements additional →
      YieldsElements file scope (e :: next :: rest) elements additional

/-- Members on top of a shape. -/
inductive YieldsMembers (file : SourceFile) : List String → Shape → List Member → Shape → Prop
  | nil {scope : List String} {shape : Shape} : YieldsMembers file scope shape [] shape
  | property {scope : List String} {shape shape' : Shape} {name : String} {optional : Bool} {t : TypeExpr}
      {doc : Option String} {span : Option Span} {rest : List Member} {kind : Option Kind} {node : Node} :
      Yields file scope t kind → node.kind = kind.getD .any →
      YieldsMembers file scope { shape with properties := shape.properties.put name ⟨node, !optional⟩ } rest shape' →
      YieldsMembers file scope shape (.property name optional (some t) doc span :: rest) shape'
  | index {scope : List String} {shape shape' : Shape} {param : String} {key value : TypeExpr} {doc : Option String}
      {span : Option Span} {rest : List Member} {kind : Option Kind} {node : Node} : key.kind = .keyword .string →
      Yields file scope value kind → node.kind = kind.getD .any →
      YieldsMembers file scope { shape with additional := .node node } rest shape' →
      YieldsMembers file scope shape (.index param key value doc span :: rest) shape'
  | passedOver {scope : List String} {shape shape' : Shape} {m : Member} {rest : List Member} : m.IsPassedOver →
      YieldsMembers file scope shape rest shape' → YieldsMembers file scope shape (m :: rest) shape'

/-- The shape that the subject of an operator supplies: its own, or that of the declaration that it means. -/
inductive Supplies (file : SourceFile) : List String → TypeExpr → Shape → Prop
  | own {scope : List String} {t : TypeExpr} {properties : Entries Property} {additional : Additional} :
      Yields file scope t (some (.object properties additional)) → Supplies file scope t ⟨properties, additional⟩
  | named {scope outer : List String} {t : TypeExpr} {body : DeclarationBody} {shape : Shape} :
      Yields file scope t (some (.ref (joinTexts "." (outer ++ [body.localName])))) →
      Stands file.statements outer body → Expands file outer body shape → Supplies file scope t shape

/-- The shape of a declaration that stands in these namespaces, with what it inherits. -/
inductive Expands (file : SourceFile) : List String → DeclarationBody → Shape → Prop
  | typeAlias {scope : List String} {a : Alias} {properties : Entries Property} {additional : Additional} :
      Yields file scope a.value (some (.object properties additional)) →
      Expands file scope (.typeAlias a) ⟨properties, additional⟩
  | interface {scope : List String} {i : Interface} {base own : Shape} : Inherits file scope {} i.heritage base →
      YieldsMembers file scope {} i.members own → Expands file scope (.interface i) (base.extend own)

/-- What is inherited on top of a shape. Some of the heritage may be passed over. -/
inductive Inherits (file : SourceFile) : List String → Shape → List TypeExpr → Shape → Prop
  | nil {scope : List String} {shape : Shape} : Inherits file scope shape [] shape
  | parent {scope outer : List String} {shape more shape' : Shape} {t : TypeExpr} {rest : List TypeExpr} {name : String}
      {qualified : Bool} {args : List TypeExpr} {body : DeclarationBody} : t.kind = .reference name qualified args →
      file.Leads scope name outer body → Expands file outer body more →
      Inherits file scope (shape.extend more) rest shape' → Inherits file scope shape (t :: rest) shape'
  | passedOver {scope : List String} {shape shape' : Shape} {t : TypeExpr} {rest : List TypeExpr} :
      Inherits file scope shape rest shape' → Inherits file scope shape (t :: rest) shape'

end

/-- What a declaration yields as a type of the document. -/
inductive YieldsType (file : SourceFile) (scope : List String) : DeclarationBody → Kind → Prop
  | typeAlias {a : Alias} {kind : Option Kind} : file.Yields scope a.value kind →
      YieldsType file scope (.typeAlias a) (kind.getD .any)
  | interface {i : Interface} {parents : List Node} {own : Shape} : file.YieldsAll scope i.heritage parents →
      file.YieldsMembers scope {} i.members own →
      YieldsType file scope (.interface i)
        (if parents.isEmpty then own.node else .of (.and (parents ++ [own.node]))).kind

/-- An alias that yields an object is expanded to it. -/
theorem YieldsType.expands {file : SourceFile} {scope : List String} {a : Alias} {properties : Entries Property}
    {additional : Additional} (h : file.YieldsType scope (.typeAlias a) (.object properties additional)) :
    file.Expands scope (.typeAlias a) ⟨properties, additional⟩ := by
  generalize hk : Kind.object properties additional = kind at h
  cases h with
  | @typeAlias _ found hvalue =>
    cases found with
    | none => cases hk
    | some found =>
      obtain rfl : Kind.object properties additional = found := hk
      exact .typeAlias hvalue

end SourceFile

mutual

/-- The names to which a type refers without qualification and arguments, at any depth. -/
def TypeExpr.plainNames : TypeExpr → List String
  | ⟨kind, _, _⟩ => kind.plainNames

def TypeKind.plainNames : TypeKind → List String
  | .reference name qualified args => (if qualified = false ∧ args = [] then [name] else []) ++ plainNamesOf args
  | .array t | .parenthesized t => t.plainNames
  | .union all | .intersection all => plainNamesOf all
  | .tuple all => plainNamesOfElements all
  | .object all => plainNamesOfMembers all
  | _ => []

def plainNamesOf : List TypeExpr → List String
  | [] => []
  | t :: rest => t.plainNames ++ plainNamesOf rest

def plainNamesOfElements : List TupleElement → List String
  | [] => []
  | ⟨_, t, _⟩ :: rest => t.plainNames ++ plainNamesOfElements rest

def plainNamesOfMembers : List Member → List String
  | [] => []
  | .property _ _ (some t) _ _ :: rest => t.plainNames ++ plainNamesOfMembers rest
  | .index _ _ value _ _ :: rest => value.plainNames ++ plainNamesOfMembers rest
  | _ :: rest => plainNamesOfMembers rest

end

def DeclarationBody.plainNames : DeclarationBody → List String
  | .interface i => plainNamesOf i.heritage ++ plainNamesOfMembers i.members
  | .typeAlias a => a.value.plainNames

theorem TypeExpr.plainNames_eq (t : TypeExpr) : t.plainNames = t.kind.plainNames := by
  cases t
  rw [plainNames]

theorem plainNamesOfElements_cons (e : TupleElement) (rest : List TupleElement) :
    plainNamesOfElements (e :: rest) = e.type.plainNames ++ plainNamesOfElements rest := by
  cases e
  rw [plainNamesOfElements]

theorem plainNamesOfMembers_subset (m : Member) (rest : List Member) :
    plainNamesOfMembers rest ⊆ plainNamesOfMembers (m :: rest) := by
  match m with
  | .property _ _ (some _) _ _ | .property _ _ none _ _ | .index _ _ _ _ _ | .other _ => simp [plainNamesOfMembers]

namespace SourceFile

variable {file : SourceFile} {scope : List String}

/-- A declaration in these namespaces refers plainly to a name. -/
def Writes (file : SourceFile) (scope : List String) (name : String) : Prop :=
  ∃ body, Stands file.statements scope body ∧ name ∈ body.plainNames

/-- A reference that is written somewhere, under the name that it means there. -/
def Sourced (file : SourceFile) (target : String) : Prop :=
  ∃ scope name, file.Writes scope name ∧ name ∉ ["Array", "Pick", "Omit", "Partial"] ∧
    (Undotted name → file.Means scope name target)

theorem refs_of_kind (node : Node) : (Node.of node.kind).refs = node.refs := by
  rw [Node.refs_eq, Node.refs_eq]
  rfl

theorem sourced_of_kind {kind : Kind} {node : Node} (hn : node.kind = kind)
    (h : ∀ r ∈ (Node.of kind).refs, file.Sourced r) : ∀ r ∈ node.refs, file.Sourced r := by
  rwa [← hn, refs_of_kind] at h

mutual

theorem Yields.sourced {scope : List String} {t : TypeExpr} {kind : Option Kind} (h : file.Yields scope t kind)
    (hw : ∀ name ∈ t.plainNames, file.Writes scope name) : ∀ r ∈ (Node.of (kind.getD .any)).refs, file.Sourced r := by
  rw [t.plainNames_eq] at hw
  match h with
  | .reference hk hb hm =>
    intro r hr
    rw [hk] at hw
    obtain rfl : r = _ := by simpa [Node.refs_eq, Node.of] using hr
    exact ⟨scope, _, hw _ (by simp [TypeKind.plainNames]), hb, hm⟩
  | .plain _ hrefs =>
    rw [Option.getD_some, hrefs]
    exact nofun
  | .leftOut _ => simp [Node.refs_eq, Node.of]
  | .union hk hall | .intersection hk hall =>
    intro r hr
    rw [hk] at hw
    exact hall.sourced (by simpa [TypeKind.plainNames] using hw) r (by simpa [Node.refs_eq, Node.of] using hr)
  | .parenthesized hk hinner =>
    rw [hk] at hw
    exact hinner.sourced (by simpa [TypeKind.plainNames] using hw)
  | .array hk helement hnode =>
    rw [Option.getD_some, Node.refs_eq]
    refine sourced_of_kind hnode (helement.sourced fun name hn => hw name ?_)
    rcases hk with hk | hk
    · rwa [hk, TypeKind.plainNames]
    · rw [hk]
      simpa [TypeKind.plainNames, plainNamesOf] using hn
  | .tuple hk hall =>
    intro r hr
    rw [hk] at hw
    exact hall.sourced (by simpa [TypeKind.plainNames] using hw) r (by simpa [Node.refs_eq, Node.of] using hr)
  | .object hk hall =>
    rw [hk] at hw
    rw [Option.getD_some, refs_of_kind, Shape.refs_node]
    exact hall.sourced (by simpa [TypeKind.plainNames] using hw) (by simp [Shape.refs])
  | .operator hk _ hsupplies _ =>
    intro r hr
    rw [hk] at hw
    rw [Option.getD_some, refs_of_kind, Shape.refs_node] at hr
    refine hsupplies.sourced (fun name hn => hw name ?_) r (Shape.refs_apply _ _ _ hr)
    simp [TypeKind.plainNames, plainNamesOf, hn]

theorem YieldsAll.sourced {scope : List String} {ts : List TypeExpr} {nodes : List Node}
    (h : file.YieldsAll scope ts nodes) (hw : ∀ name ∈ plainNamesOf ts, file.Writes scope name) :
    ∀ r ∈ refsOf nodes, file.Sourced r := by
  match h with
  | .nil => simp
  | @YieldsAll.cons _ _ _ _ node _ ht hrest =>
    simp only [plainNamesOf, List.mem_append] at hw
    have hfirst := ht.sourced fun name hn => hw name (.inl hn)
    have hothers := hrest.sourced fun name hn => hw name (.inr hn)
    intro r hr
    rw [refsOf_append, List.mem_append] at hr
    rcases hr with hr | hr
    · cases node with
      | none => simp at hr
      | some node =>
        rw [Option.toList_some, refsOf_cons, refsOf_nil, List.append_nil] at hr
        exact sourced_of_kind rfl hfirst r hr
    · exact hothers r hr

theorem YieldsElements.sourced {scope : List String} {es : List TupleElement} {elements : List Node}
    {additional : Additional} (h : file.YieldsElements scope es elements additional)
    (hw : ∀ name ∈ plainNamesOfElements es, file.Writes scope name) :
    ∀ r ∈ refsOf elements ++ additional.refs, file.Sourced r := by
  match h with
  | .nil => simp
  | .element _ ht hnode hrest =>
    simp only [plainNamesOfElements_cons, List.mem_append] at hw
    have hfirst := sourced_of_kind hnode (ht.sourced fun name hn => hw name (.inl hn))
    have hothers := hrest.sourced fun name hn => hw name (.inr hn)
    intro r hr
    rw [refsOf_cons, List.append_assoc, List.mem_append] at hr
    rcases hr with hr | hr
    · exact hfirst r hr
    · exact hothers r hr
  | .rest _ ht =>
    simp only [plainNamesOfElements_cons, List.mem_append] at hw
    have helement := ht.sourced fun name hn => hw name (.inl hn)
    rw [Option.getD_some, Node.refs_eq] at helement
    rw [refsOf_nil, List.nil_append, Additional.ofRest]
    split
    · simp
    · rwa [Additional.refs_node]
  | .unknownRest _ _ _ => simp
  | .misplacedRest _ hrest =>
    rw [plainNamesOfElements_cons] at hw
    exact hrest.sourced fun name hn => hw name (List.mem_append_right _ hn)

theorem YieldsMembers.sourced {scope : List String} {shape shape' : Shape} {ms : List Member}
    (h : file.YieldsMembers scope shape ms shape') (hw : ∀ name ∈ plainNamesOfMembers ms, file.Writes scope name)
    (hs : ∀ r ∈ shape.refs, file.Sourced r) : ∀ r ∈ shape'.refs, file.Sourced r := by
  match h with
  | .nil => exact hs
  | .property ht hnode hrest =>
    simp only [plainNamesOfMembers, List.mem_append] at hw
    have hfirst := sourced_of_kind hnode (ht.sourced fun name hn => hw name (.inl hn))
    refine hrest.sourced (fun name hn => hw name (.inr hn)) fun r hr => ?_
    rcases List.mem_append.mp (shape.refs_put _ _ _ hr) with hr | hr
    · exact hs r hr
    · exact hfirst r hr
  | .index _ ht hnode hrest =>
    simp only [plainNamesOfMembers, List.mem_append] at hw
    have hvalue := sourced_of_kind hnode (ht.sourced fun name hn => hw name (.inl hn))
    refine hrest.sourced (fun name hn => hw name (.inr hn)) fun r hr => ?_
    rw [Shape.refs, Additional.refs_node, List.mem_append] at hr
    rcases hr with hr | hr
    · exact hs r (List.mem_append_left _ hr)
    · exact hvalue r hr
  | .passedOver _ hrest => exact hrest.sourced (fun name hn => hw name (plainNamesOfMembers_subset _ _ hn)) hs

theorem Supplies.sourced {scope : List String} {t : TypeExpr} {shape : Shape} (h : file.Supplies scope t shape)
    (hw : ∀ name ∈ t.plainNames, file.Writes scope name) : ∀ r ∈ shape.refs, file.Sourced r := by
  match h with
  | .own ht =>
    have hobject := ht.sourced hw
    rwa [Option.getD_some, Node.refs_object rfl] at hobject
  | .named _ hstands hexpands =>
    -- what is expanded is written in the declaration, whatever the subject of the operator refers to
    exact hexpands.sourced hstands

theorem Expands.sourced {scope : List String} {body : DeclarationBody} {shape : Shape}
    (h : file.Expands scope body shape) (hstands : Stands file.statements scope body) :
    ∀ r ∈ shape.refs, file.Sourced r := by
  match h with
  | .typeAlias hvalue =>
    have hobject := hvalue.sourced fun name hn => ⟨_, hstands, hn⟩
    rwa [Option.getD_some, Node.refs_object rfl] at hobject
  | .interface hbase hown =>
    intro r hr
    rcases List.mem_append.mp (Shape.refs_extend _ _ hr) with hr | hr
    · exact hbase.sourced (by simp [Shape.refs]) r hr
    · exact hown.sourced (fun name hn => ⟨_, hstands, List.mem_append_right _ hn⟩) (by simp [Shape.refs]) r hr

theorem Inherits.sourced {scope : List String} {shape shape' : Shape} {parents : List TypeExpr}
    (h : file.Inherits scope shape parents shape') (hs : ∀ r ∈ shape.refs, file.Sourced r) :
    ∀ r ∈ shape'.refs, file.Sourced r := by
  match h with
  | .nil => exact hs
  | .parent _ hleads hexpands hrest =>
    have hmore := hexpands.sourced hleads.stands
    refine hrest.sourced fun r hr => ?_
    rcases List.mem_append.mp (Shape.refs_extend _ _ hr) with hr | hr
    · exact hs r hr
    · exact hmore r hr
  | .passedOver hrest => exact hrest.sourced hs

end

/-- Whatever a type of the document refers to is written somewhere, as a name that means it there. -/
theorem YieldsType.sourced {body : DeclarationBody} {node : Node} (h : file.YieldsType scope body node.kind)
    (hstands : Stands file.statements scope body) : ∀ r ∈ node.refs, file.Sourced r := by
  rw [← refs_of_kind]
  generalize node.kind = kind at h
  cases h with
  | typeAlias hvalue => exact hvalue.sourced fun name hn => ⟨_, hstands, hn⟩
  | interface hparents hown =>
    have hparents := hparents.sourced fun name hn => ⟨_, hstands, List.mem_append_left _ hn⟩
    have hown := hown.sourced (fun name hn => ⟨_, hstands, List.mem_append_right _ hn⟩) (by simp [Shape.refs])
    intro r hr
    rw [refs_of_kind] at hr
    split at hr
    · exact hown r (by rwa [Shape.refs_node] at hr)
    · rw [Node.refs_eq] at hr
      simp only [Node.of, refsOf_append, refsOf_cons, refsOf_nil, Shape.refs_node, List.append_nil, List.mem_append] at hr
      rcases hr with hr | hr
      · exact hparents r hr
      · exact hown r hr

end SourceFile

end TypeSchema
