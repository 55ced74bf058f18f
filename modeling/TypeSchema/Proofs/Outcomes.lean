import TypeSchema.Decode

namespace TypeSchema

/-- Decoding ends with a value, from one log to another. -/
def Ends {α : Type} (m : Decode α) (log : Log) (a : α) (log' : Log) : Prop := m.run.run log = (.ok a, log')

namespace Ends

variable {α β : Type}

theorem pure_iff {a b : α} {log log' : Log} : Ends (pure a) log b log' ↔ b = a ∧ log' = log := by
  constructor
  · rintro ⟨⟩
    exact ⟨rfl, rfl⟩
  · rintro ⟨rfl, rfl⟩
    rfl

theorem bind_iff {m : Decode α} {f : α → Decode β} {log log'' : Log} {b : β} :
    Ends (m >>= f) log b log'' ↔ ∃ a log', Ends m log a log' ∧ Ends (f a) log' b log'' := by
  simp only [Ends, Decode.run_bind]
  cases m.run.run log with
  | mk x log' =>
    cases x with
    | error e =>
      constructor
      · rintro ⟨⟩
      · rintro ⟨_, _, ⟨⟩, _⟩
    | ok a =>
      constructor
      · exact fun h => ⟨a, log', rfl, h⟩
      · rintro ⟨_, _, ⟨⟩, h⟩
        exact h

theorem throw_iff {e : Error} {log log' : Log} {a : α} : Ends (throw e) log a log' ↔ False := by
  constructor
  · rintro ⟨⟩
  · exact False.elim

theorem modify_iff {f : Log → Log} {log log' : Log} {u : Unit} :
    Ends (modify f) log u log' ↔ log' = f log := by
  constructor
  · rintro ⟨⟩
    rfl
  · rintro rfl
    rfl

theorem get_iff {log log' a : Log} : Ends get log a log' ↔ a = log ∧ log' = log := by
  constructor
  · rintro ⟨⟩
    exact ⟨rfl, rfl⟩
  · rintro ⟨rfl, rfl⟩
    rfl

end Ends

/-- Something is left out, with a warning or without one. -/
def Context.LeavesOut (cx : Context) (cause : Unsupported) (span : Option Span) (log log' : Log) : Prop :=
  log' = log ∨ Ends (cx.warn (.unsupported cause) span) log () log'

theorem Context.unsupported_ends {α : Type} {cx : Context} {cause : Unsupported} {span : Option Span} {log log' : Log}
    {a : Option α} (h : Ends (cx.unsupported cause span) log a log') :
    a = none ∧ cx.LeavesOut cause span log log' := by
  unfold unsupported at h
  split at h
  · obtain ⟨rfl, rfl⟩ := Ends.pure_iff.mp h
    exact ⟨rfl, .inl rfl⟩
  · obtain ⟨_, log₁, hwarn, h⟩ := Ends.bind_iff.mp h
    obtain ⟨rfl, rfl⟩ := Ends.pure_iff.mp h
    exact ⟨rfl, .inr hwarn⟩
  · exact (Ends.throw_iff.mp h).elim

theorem Node.shape?_eq_some_iff {node : Node} {shape : Shape} :
    node.shape? = some shape ↔ node.kind = .object shape.properties shape.additional := by
  obtain ⟨properties, additional⟩ := shape
  unfold shape?
  cases node.kind <;> simp

theorem Node.shape?_eq_none_iff {node : Node} :
    node.shape? = none ↔ ∀ properties additional, node.kind ≠ .object properties additional := by
  unfold shape?
  cases node.kind <;> simp

namespace Decode

section

variable (beyond : Beyond) (cx : Context)

/-- What a name is resolved to. -/
inductive ResolveEnds (name : String) (span : Option Span) (log : Log) : Resolved → Log → Prop
  | unknown : cx.table.resolve? cx.scope name = none → ResolveEnds name span log (.ref name) log
  | exported {d : Declaration} : cx.table.resolve? cx.scope name = some d → d.exported →
      ResolveEnds name span log (.ref d.name) log
  | noted {d : Declaration} : cx.table.resolve? cx.scope name = some d → d.exported = false →
      cx.options.nonExported = .includeIfReferenced →
      ResolveEnds name span log (.ref d.name)
        (if d.name ∈ log.referenced then log else { log with referenced := log.referenced ++ [d.name] })
  | inlined {d : Declaration} {node : Option Node} {log' : Log} : cx.table.resolve? cx.scope name = some d →
      d.exported = false → cx.options.nonExported = .inline → Ends (beyond.inline cx d span) log node log' →
      ResolveEnds name span log (.inlined node) log'
  | hidden {d : Declaration} : cx.table.resolve? cx.scope name = some d → d.exported = false →
      cx.options.nonExported ≠ .includeIfReferenced → cx.options.nonExported ≠ .inline →
      ResolveEnds name span log (.ref d.name) log

/-- The shape that the subject of an operator has, if it has one. -/
inductive SubjectEnds (op : Operator) (subject : Node) (subjectSpan span : Option Span) (log : Log) :
    Option Shape → Log → Prop
  | own {shape : Shape} : subject.shape? = some shape → SubjectEnds op subject subjectSpan span log (some shape) log
  | named {name : String} {d : Declaration} {shape : Shape} {log' : Log} : subject.kind = .ref name →
      cx.table.get? name = some d → Ends (beyond.expand cx d subjectSpan) log (some shape) log' →
      SubjectEnds op subject subjectSpan span log (some shape) log'
  | shapeless {name : String} {d : Declaration} {log₁ log' : Log} : subject.kind = .ref name →
      cx.table.get? name = some d → Ends (beyond.expand cx d subjectSpan) log none log₁ →
      cx.LeavesOut (.operatorOfUnknown op name) span log₁ log' → SubjectEnds op subject subjectSpan span log none log'
  | unknown {name : String} {log' : Log} : subject.kind = .ref name → cx.table.get? name = none →
      cx.LeavesOut (.operatorOfUnknown op name) span log log' → SubjectEnds op subject subjectSpan span log none log'
  | other {log' : Log} : subject.shape? = none → (∀ name, subject.kind ≠ .ref name) →
      cx.LeavesOut (.operatorOfKind op subject.kind.tag) span log log' →
      SubjectEnds op subject subjectSpan span log none log'

/-- What an operator makes of its subject. -/
inductive OperatorEnds (op : Operator) (subject : Node) (subjectSpan : Option Span) (keys : Option TypeExpr)
    (span : Option Span) (log : Log) : Option Node → Log → Prop
  | applied {shape : Shape} {listed : List String} {log' : Log} :
      SubjectEnds beyond cx op subject subjectSpan span log (some shape) log' →
      keys.elim (some []) stringKeys? = some listed →
      OperatorEnds op subject subjectSpan keys span log (some (op.apply listed shape).node) log'
  | shapeless {log' : Log} : SubjectEnds beyond cx op subject subjectSpan span log none log' →
      OperatorEnds op subject subjectSpan keys span log none log'
  | unlisted {shape : Shape} {log₁ log' : Log} :
      SubjectEnds beyond cx op subject subjectSpan span log (some shape) log₁ →
      keys.elim (some []) stringKeys? = none → cx.LeavesOut (.operatorKeys op) (keys.bind TypeExpr.span) log₁ log' →
      OperatorEnds op subject subjectSpan keys span log none log'

/-- What a plain name comes to. -/
inductive NameEnds (outer : Path) (name : String) (doc : Option String) (span : Option Span) (log : Log) :
    Option Node → Log → Prop
  | array : name = "Array" →
      NameEnds outer name doc span log
        (some ((Node.of (.array .any)).layer (DocComment.read doc (.other :: outer)))) log
  | operator {op : Operator} {log' : Log} : Operator.ofName? name = some op →
      cx.LeavesOut (.operatorArity op 0) span log log' → NameEnds outer name doc span log none log'
  | ref {target : String} {log' : Log} : name ≠ "Array" → Operator.ofName? name = none →
      ResolveEnds beyond cx name span log (.ref target) log' →
      NameEnds outer name doc span log
        (some ((Node.of (.ref target)).layer (DocComment.read doc (.other :: outer)))) log'
  | inlined {node : Option Node} {log' : Log} : name ≠ "Array" → Operator.ofName? name = none →
      ResolveEnds beyond cx name span log (.inlined node) log' → NameEnds outer name doc span log node log'

/-- What a name with arguments comes to. -/
inductive ApplicationEnds (outer : Path) (name : String) (subject : TypeExpr) (keys : List TypeExpr)
    (doc : Option String) (span : Option Span) (log : Log) : Option Node → Log → Prop
  | array {element : Option Node} {log' : Log} : name = "Array" → keys = [] →
      Ends (type beyond cx (.other :: outer) subject) log element log' →
      ApplicationEnds outer name subject keys doc span log
        (some ((Node.of (.array (element.getD .any))).layer (DocComment.read doc (.other :: outer)))) log'
  | generic {log' : Log} : Operator.ofName? name = none → cx.LeavesOut .generic span log log' →
      ApplicationEnds outer name subject keys doc span log none log'
  | wrongArity {op : Operator} {log' : Log} : Operator.ofName? name = some op → keys.length + 1 ≠ op.arity →
      cx.LeavesOut (.operatorArity op (keys.length + 1)) span log log' →
      ApplicationEnds outer name subject keys doc span log none log'
  | subjectLeftOut {op : Operator} {log' : Log} : Operator.ofName? name = some op →
      Ends (type beyond cx (.other :: outer) subject) log none log' →
      ApplicationEnds outer name subject keys doc span log none log'
  | nothing {op : Operator} {node : Node} {log₁ log' : Log} : Operator.ofName? name = some op →
      Ends (type beyond cx (.other :: outer) subject) log (some node) log₁ →
      OperatorEnds beyond cx op node subject.span keys.head? span log₁ none log' →
      ApplicationEnds outer name subject keys doc span log none log'
  | operator {op : Operator} {node result : Node} {log₁ log' : Log} : Operator.ofName? name = some op →
      keys.length + 1 = op.arity → Ends (type beyond cx (.other :: outer) subject) log (some node) log₁ →
      OperatorEnds beyond cx op node subject.span keys.head? span log₁ (some result) log' →
      ApplicationEnds outer name subject keys doc span log
        (some (result.layer (DocComment.read doc (.other :: outer)))) log'

/-- What the last element of a tuple allows, if it is a rest. -/
inductive RestEnds (outer : Path) (i : Nat) (t : TypeExpr) (log : Log) : TupleShape → Log → Prop
  | array {node element : Node} {log' : Log} : node.kind = .array element →
      Ends (type beyond cx (.rest :: .tuple (some i) :: outer) t) log (some node) log' →
      RestEnds outer i t log { additional := .ofRest (some element) } log'
  | other {node : Node} {log₁ log' : Log} : (∀ element, node.kind ≠ .array element) →
      Ends (type beyond cx (.rest :: .tuple (some i) :: outer) t) log (some node) log₁ →
      cx.LeavesOut .restNotArray t.span log₁ log' →
      RestEnds outer i t log { additional := .allowed true } log'
  | leftOut {log' : Log} : Ends (type beyond cx (.rest :: .tuple (some i) :: outer) t) log none log' →
      RestEnds outer i t log { additional := .allowed true } log'

/-- What a declaration comes to. -/
inductive DeclarationEnds (d : Declaration) (log : Log) : Option Node → Log → Prop
  | generic {log' : Log} : d.isGeneric → cx.LeavesOut .generic d.span log log' → DeclarationEnds d log none log'
  | typeAlias {a : Alias} {node : Option Node} {log' : Log} : d.isGeneric = false → d.body = .typeAlias a →
      Ends (type beyond cx [.declaration d.name] a.value) log node log' →
      DeclarationEnds d log
        (some ((node.getD .any).layer (DocComment.read d.doc [.declaration d.name]))) log'
  | interface {i : Interface} {parents : List Node} {own : Shape} {log₁ log' : Log} : d.isGeneric = false →
      d.body = .interface i → Ends (types beyond cx [.other, .declaration d.name] i.heritage) log parents log₁ →
      Ends (members beyond cx [.declaration d.name] {} i.members) log₁ own log' →
      DeclarationEnds d log
        (some ((if parents.isEmpty then own.node else .of (.and (parents ++ [own.node]))).layer
          (DocComment.read d.doc [.declaration d.name]))) log'

/-- What is inherited from parents, one after the other. -/
inductive InheritedEnds : Shape → List TypeExpr → Log → Shape → Log → Prop
  | nil {shape : Shape} {log : Log} : InheritedEnds shape [] log shape log
  | parent {shape more shape' : Shape} {parent : TypeExpr} {rest : List TypeExpr} {name : String} {qualified : Bool}
      {args : List TypeExpr} {d : Declaration} {log log₁ log' : Log} : parent.kind = .reference name qualified args →
      cx.table.resolve? cx.scope name = some d → Ends (beyond.expand cx d parent.span) log (some more) log₁ →
      InheritedEnds (shape.extend more) rest log₁ shape' log' → InheritedEnds shape (parent :: rest) log shape' log'
  | shapeless {shape shape' : Shape} {parent : TypeExpr} {rest : List TypeExpr} {name : String} {qualified : Bool}
      {args : List TypeExpr} {d : Declaration} {log log₁ log' : Log} : parent.kind = .reference name qualified args →
      cx.table.resolve? cx.scope name = some d → Ends (beyond.expand cx d parent.span) log none log₁ →
      InheritedEnds shape rest log₁ shape' log' → InheritedEnds shape (parent :: rest) log shape' log'
  | passedOver {shape shape' : Shape} {parent : TypeExpr} {rest : List TypeExpr} {log log' : Log} :
      (∀ name qualified args, parent.kind = .reference name qualified args →
        cx.table.resolve? cx.scope name = none) →
      InheritedEnds shape rest log shape' log' → InheritedEnds shape (parent :: rest) log shape' log'

/-- What the members of a declaration come to. -/
inductive ShapeEnds (d : Declaration) (log : Log) : Option Shape → Log → Prop
  | object {a : Alias} {node : Node} {shape : Shape} {log' : Log} : d.body = .typeAlias a →
      node.shape? = some shape → Ends (declaration beyond cx d) log (some node) log' → ShapeEnds d log (some shape) log'
  | other {a : Alias} {node : Option Node} {log' : Log} : d.body = .typeAlias a →
      node.bind Node.shape? = none → Ends (declaration beyond cx d) log node log' → ShapeEnds d log none log'
  | generic {i : Interface} : d.body = .interface i → i.typeParams.isEmpty = false → ShapeEnds d log none log
  | interface {i : Interface} {base own : Shape} {log₁ log' : Log} : d.body = .interface i → i.typeParams.isEmpty →
      InheritedEnds beyond cx {} i.heritage log base log₁ →
      Ends (members beyond cx [.declaration d.name] {} i.members) log₁ own log' →
      ShapeEnds d log (some (base.extend own)) log'

end

variable {beyond : Beyond} {cx : Context} {log log' : Log}

theorem resolve_ends {name : String} {span : Option Span} {r : Resolved}
    (h : Ends (resolve beyond cx name span) log r log') : ResolveEnds beyond cx name span log r log' := by
  unfold resolve at h
  cases hr : cx.table.resolve? cx.scope name with
  | none =>
    simp only [hr, Ends.pure_iff] at h
    obtain ⟨rfl, rfl⟩ := h
    exact .unknown hr
  | some d =>
    simp only [hr] at h
    split at h
    · next he =>
      obtain ⟨rfl, rfl⟩ := Ends.pure_iff.mp h
      exact .exported hr he
    · next he =>
      rw [Bool.not_eq_true] at he
      split at h
      · next hp =>
        simp only [Ends.bind_iff, Ends.modify_iff, Ends.pure_iff] at h
        obtain ⟨_, _, rfl, rfl, rfl⟩ := h
        exact .noted hr he hp
      · next hp =>
        simp only [Ends.bind_iff, Ends.pure_iff] at h
        obtain ⟨node, log₁, hn, rfl, rfl⟩ := h
        exact .inlined hr he hp hn
      · next hnoted hinline =>
        obtain ⟨rfl, rfl⟩ := Ends.pure_iff.mp h
        exact .hidden hr he hnoted hinline

/-- A name is resolved to a reference, unless what it leads to is inlined. -/
theorem ResolveEnds.target {name : String} {span : Option Span} {r : Resolved}
    (h : ResolveEnds beyond cx name span log r log')
    (hkept : ∀ d, cx.table.resolve? cx.scope name = some d → d.exported ∨ cx.options.nonExported ≠ .inline) :
    (∃ d, cx.table.resolve? cx.scope name = some d ∧ r = .ref d.name) ∨
      (cx.table.resolve? cx.scope name = none ∧ r = .ref name) := by
  cases h with
  | unknown hr => exact .inr ⟨hr, rfl⟩
  | exported hr _ | noted hr _ _ | hidden hr _ _ _ => exact .inl ⟨_, hr, rfl⟩
  | inlined hr he hp _ =>
    rcases hkept _ hr with he' | hp'
    · rw [he] at he'
      cases he'
    · exact absurd hp hp'

theorem subjectShape_ends {op : Operator} {subject : Node} {subjectSpan span : Option Span} {shape : Option Shape}
    (h : Ends (subjectShape beyond cx op subject subjectSpan span) log shape log') :
    SubjectEnds beyond cx op subject subjectSpan span log shape log' := by
  unfold subjectShape at h
  split at h
  · next properties additional hk =>
    obtain ⟨rfl, rfl⟩ := Ends.pure_iff.mp h
    exact .own (Node.shape?_eq_some_iff.mpr hk)
  · next name hk =>
    cases hg : cx.table.get? name with
    | none =>
      simp only [hg, pure_bind] at h
      obtain ⟨rfl, hleft⟩ := Context.unsupported_ends h
      exact .unknown hk hg hleft
    | some d =>
      simp only [hg, Ends.bind_iff] at h
      obtain ⟨found, log₁, hf, h⟩ := h
      cases found with
      | some found =>
        obtain ⟨rfl, rfl⟩ := Ends.pure_iff.mp h
        exact .named hk hg hf
      | none =>
        obtain ⟨rfl, hleft⟩ := Context.unsupported_ends h
        exact .shapeless hk hg hf hleft
  · next hobject href =>
    obtain ⟨rfl, hleft⟩ := Context.unsupported_ends h
    exact .other (Node.shape?_eq_none_iff.mpr hobject) href hleft

theorem operator_ends {op : Operator} {subject : Node} {subjectSpan span : Option Span} {keys : Option TypeExpr}
    {node : Option Node} (h : Ends (operator beyond cx op subject subjectSpan keys span) log node log') :
    OperatorEnds beyond cx op subject subjectSpan keys span log node log' := by
  obtain ⟨shape, log₁, hshape, h⟩ := Ends.bind_iff.mp h
  have hshaped := subjectShape_ends hshape
  cases shape with
  | none =>
    obtain ⟨rfl, rfl⟩ := Ends.pure_iff.mp h
    exact .shapeless hshaped
  | some shape =>
    cases keys with
    | none =>
      obtain ⟨rfl, rfl⟩ := Ends.pure_iff.mp h
      exact .applied hshaped rfl
    | some keys =>
      dsimp only at h
      split at h
      · next listed hk =>
        obtain ⟨rfl, rfl⟩ := Ends.pure_iff.mp h
        exact .applied hshaped hk
      · next hk =>
        obtain ⟨rfl, hleft⟩ := Context.unsupported_ends h
        exact .unlisted hshaped hk hleft

theorem name_ends {outer : Path} {name : String} {doc : Option String} {span : Option Span} {node : Option Node}
    (h : Ends (type beyond cx outer ⟨.reference name false [], doc, span⟩) log node log') :
    NameEnds beyond cx outer name doc span log node log' := by
  simp only [type] at h
  split at h
  · next ha =>
    obtain ⟨rfl, rfl⟩ := Ends.pure_iff.mp h
    exact .array ha.1
  · next ha =>
    split at h
    · next op hop =>
      -- every operator has a subject
      rw [if_pos (by cases op <;> simp [Operator.arity])] at h
      obtain ⟨rfl, hleft⟩ := Context.unsupported_ends h
      exact .operator hop hleft
    · next hop =>
      replace ha : name ≠ "Array" := by simpa using ha
      rw [if_neg (by simp)] at h
      obtain ⟨r, log₁, hr, h⟩ := Ends.bind_iff.mp h
      have hresolves := resolve_ends hr
      cases r with
      | ref target =>
        obtain ⟨rfl, rfl⟩ := Ends.pure_iff.mp h
        exact .ref ha hop hresolves
      | inlined node =>
        obtain ⟨rfl, rfl⟩ := Ends.pure_iff.mp h
        exact .inlined ha hop hresolves

theorem application_ends {outer : Path} {name : String} {subject : TypeExpr} {keys : List TypeExpr}
    {doc : Option String} {span : Option Span} {node : Option Node}
    (h : Ends (type beyond cx outer ⟨.reference name false (subject :: keys), doc, span⟩) log node log') :
    ApplicationEnds beyond cx outer name subject keys doc span log node log' := by
  simp only [type] at h
  split at h
  · next ha =>
    simp only [Ends.bind_iff, Ends.pure_iff] at h
    obtain ⟨n, log₁, hn, rfl, rfl⟩ := h
    exact .array ha.1 (by simpa using ha.2) hn
  · split at h
    · next op hop =>
      split at h
      · next harity =>
        obtain ⟨rfl, hleft⟩ := Context.unsupported_ends h
        exact .wrongArity hop harity hleft
      · next harity =>
        obtain ⟨n, log₁, hn, h⟩ := Ends.bind_iff.mp h
        cases n with
        | none =>
          obtain ⟨rfl, rfl⟩ := Ends.pure_iff.mp h
          exact .subjectLeftOut hop hn
        | some n =>
          simp only [Ends.bind_iff, Ends.pure_iff] at h
          obtain ⟨result, log₂, ho, rfl, rfl⟩ := h
          cases result with
          | none => exact .nothing hop hn (operator_ends ho)
          | some result => exact .operator hop (by simpa using harity) hn (operator_ends ho)
    · next hop =>
      rw [if_pos (by simp)] at h
      obtain ⟨rfl, hleft⟩ := Context.unsupported_ends h
      exact .generic hop hleft

theorem rest_ends {outer : Path} {i : Nat} {t : TypeExpr} {label : Option String} {shape : TupleShape}
    (h : Ends (elements beyond cx outer i [⟨.rest, t, label⟩]) log shape log') :
    RestEnds beyond cx outer i t log shape log' := by
  simp only [elements] at h
  obtain ⟨node, log₁, hn, h⟩ := Ends.bind_iff.mp h
  split at h
  · obtain ⟨rfl, rfl⟩ := Ends.pure_iff.mp h
    exact .array rfl hn
  · next node hnot =>
    simp only [Ends.bind_iff, Ends.pure_iff] at h
    obtain ⟨result, log₂, hu, rfl, rfl⟩ := h
    obtain ⟨rfl, hleft⟩ := Context.unsupported_ends hu
    refine .other (fun element heq => ?_) hn hleft
    obtain ⟨kind, c, e, a, l⟩ := node
    exact hnot element c e a l (congrArg (Node.mk · c e a l) heq)
  · obtain ⟨rfl, rfl⟩ := Ends.pure_iff.mp h
    exact .leftOut hn

theorem declaration_ends {d : Declaration} {node : Option Node} (h : Ends (declaration beyond cx d) log node log') :
    DeclarationEnds beyond cx d log node log' := by
  unfold declaration at h
  split at h
  · next hg =>
    obtain ⟨rfl, hleft⟩ := Context.unsupported_ends h
    exact .generic hg hleft
  · next hg =>
    rw [Bool.not_eq_true] at hg
    cases hbody : d.body with
    | typeAlias a =>
      simp only [hbody, Ends.bind_iff, Ends.pure_iff] at h
      obtain ⟨n, log₁, hn, rfl, rfl⟩ := h
      exact .typeAlias hg hbody hn
    | interface i =>
      simp only [hbody, Ends.bind_iff, Ends.pure_iff] at h
      obtain ⟨parents, log₁, hp, own, log₂, ho, rfl, rfl⟩ := h
      exact .interface hg hbody hp ho

theorem inherited_ends {parents : List TypeExpr} {shape shape' : Shape}
    (h : Ends (inherited beyond cx shape parents) log shape' log') :
    InheritedEnds beyond cx shape parents log shape' log' := by
  induction parents generalizing shape log with
  | nil =>
    obtain ⟨rfl, rfl⟩ := Ends.pure_iff.mp h
    exact .nil
  | cons parent rest ih =>
    rw [inherited] at h
    split at h
    · next hk =>
      split at h
      · next hr =>
        obtain ⟨found, log₁, hf, h⟩ := Ends.bind_iff.mp h
        cases found with
        | some more => exact .parent hk hr hf (ih h)
        | none => exact .shapeless hk hr hf (ih h)
      · next name qualified args hk _ hr =>
        refine .passedOver (fun name' qualified' args' hk' => ?_) (ih h)
        cases hk.symm.trans hk'
        exact hr
    · next hk => exact .passedOver (fun name qualified args hk' => absurd hk' (hk name qualified args)) (ih h)

theorem shape_ends {d : Declaration} {found : Option Shape} (h : Ends (shape beyond cx d) log found log') :
    ShapeEnds beyond cx d log found log' := by
  unfold shape at h
  cases hbody : d.body with
  | typeAlias a =>
    simp only [hbody, Ends.bind_iff, Ends.pure_iff] at h
    obtain ⟨node, log₁, hn, rfl, rfl⟩ := h
    cases hfound : node.bind Node.shape? with
    | none => exact .other hbody hfound hn
    | some shape =>
      obtain ⟨node, rfl, hshape⟩ := Option.bind_eq_some_iff.mp hfound
      exact .object hbody hshape hn
  | interface i =>
    simp only [hbody] at h
    split at h
    · next hg =>
      obtain ⟨rfl, rfl⟩ := Ends.pure_iff.mp h
      exact .generic hbody (by simpa using hg)
    · next hg =>
      simp only [Ends.bind_iff, Ends.pure_iff] at h
      obtain ⟨base, log₁, hbase, own, log₂, hown, rfl, rfl⟩ := h
      exact .interface hbody (by simpa using hg) (inherited_ends hbase) hown

end Decode

/-- What is entered has not been entered before. -/
theorem Context.not_entered_of_ends {α : Type} {cx : Context} {expansion : Expansion} {d : Declaration}
    {span : Option Span} {inside : Decode α} {a : α} {log log' : Log}
    (h : Ends (if d.name ∈ cx.entered then cx.cyclic expansion d span else inside) log a log') :
    d.name ∉ cx.entered ∧ Ends inside log a log' := by
  split at h
  · exact (Ends.throw_iff.mp h).elim
  · next hentered => exact ⟨hentered, h⟩

namespace Beyond

variable {depth : Nat} {cx : Context} {d : Declaration} {span : Option Span} {log log' : Log}

/-- Whatever is inlined is decoded inside itself, one step further in. -/
theorem inline_ends {node : Option Node} (h : Ends ((within depth).inline cx d span) log node log') :
    ∃ inner, depth = inner + 1 ∧ d.name ∉ cx.entered ∧
      Ends (Decode.declaration (within inner) (cx.inside d) d) log node log' := by
  cases depth with
  | zero => exact (Ends.throw_iff.mp h).elim
  | succ inner => exact ⟨inner, rfl, Context.not_entered_of_ends h⟩

theorem expand_ends {shape : Option Shape} (h : Ends ((within depth).expand cx d span) log shape log') :
    ∃ inner, depth = inner + 1 ∧ d.name ∉ cx.entered ∧
      Ends (Decode.shape (within inner) (cx.inside d) d) log shape log' := by
  cases depth with
  | zero => exact (Ends.throw_iff.mp h).elim
  | succ inner => exact ⟨inner, rfl, Context.not_entered_of_ends h⟩

end Beyond

end TypeSchema
