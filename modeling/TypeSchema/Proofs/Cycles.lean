import Mathlib.Data.List.Perm.Subperm
import Mathlib.Logic.Relation
import TypeSchema.Proofs.Visits

namespace TypeSchema

/-- A run ends with a cycle if `P`, and else with a value, and without noting a reference. -/
structure CyclesIff {α : Type} (m : Decode α) (P : Prop) : Prop where
  cycles : P → ∀ log, ∃ name place log', m.run.run log = (.error (.malformed (.cyclic .inline name) place), log')
  passes : ¬P → ∀ log, ∃ a log', m.run.run log = (.ok a, log') ∧ log'.referenced = log.referenced

namespace CyclesIff

variable {α β : Type} {m : Decode α} {P Q : Prop}

theorem pure (a : α) : CyclesIff (Pure.pure a : Decode α) False :=
  ⟨False.elim, fun _ log => ⟨a, log, rfl, rfl⟩⟩

theorem mono (h : CyclesIff m P) (hiff : P ↔ Q) : CyclesIff m Q :=
  ⟨fun hq => h.cycles (hiff.mpr hq), fun hq => h.passes fun hp => hq (hiff.mp hp)⟩

theorem bind {f : α → Decode β} (h : CyclesIff m P) (hf : ∀ a, CyclesIff (f a) Q) : CyclesIff (m >>= f) (P ∨ Q) := by
  by_cases hp : P
  · refine ⟨fun _ log => ?_, fun hn => absurd (.inl hp) hn⟩
    obtain ⟨name, place, log', hm⟩ := h.cycles hp log
    exact ⟨name, place, log', by rw [Decode.run_bind, hm]⟩
  · refine ⟨fun hpq log => ?_, fun hn log => ?_⟩
    · obtain ⟨a, log₁, hm, -⟩ := h.passes hp log
      obtain ⟨name, place, log', hrun⟩ := (hf a).cycles (hpq.resolve_left hp) log₁
      exact ⟨name, place, log', by rw [Decode.run_bind, hm]; exact hrun⟩
    · obtain ⟨a, log₁, hm, hlog⟩ := h.passes hp log
      obtain ⟨b, log', hrun, hlog'⟩ := (hf a).passes (fun hq => hn (.inr hq)) log₁
      exact ⟨b, log', by rw [Decode.run_bind, hm]; exact hrun, hlog'.trans hlog⟩

/-- Behind a last step, nothing can go wrong. -/
theorem bind_pure {f : α → β} (h : CyclesIff m P) : CyclesIff (m >>= fun a => Pure.pure (f a)) P :=
  (h.bind fun a => .pure (f a)).mono (or_iff_left id)

theorem cyclic (cx : Context) (d : Declaration) (span : Option Span) :
    CyclesIff (cx.cyclic .inline d span : Decode α) True :=
  ⟨fun _ log => ⟨d.name, cx.place span, log, rfl⟩, fun h => absurd trivial h⟩

theorem warn (cx : Context) (omission : Omission) (span : Option Span) : CyclesIff (cx.warn omission span) False :=
  ⟨False.elim, fun _ _ => ⟨(), _, rfl, rfl⟩⟩

theorem unsupported {cx : Context} (hp : cx.options.unsupported ≠ .error) (cause : Unsupported) (span : Option Span) :
    CyclesIff (cx.unsupported cause span : Decode (Option α)) False := by
  rw [Context.unsupported]
  cases hpolicy : cx.options.unsupported with
  | ignore => exact .pure none
  | warn => exact (CyclesIff.warn cx _ span).bind_pure
  | error => exact absurd hpolicy hp

end CyclesIff

/-- A plain reference among the types leads to a cycle. -/
def Meets (blocked : String → Prop) (parts : List TypeKind) : Prop :=
  ∃ name, .reference name false [] ∈ parts ∧ name ≠ "Array" ∧ blocked name

section

variable {blocked : String → Prop} {kind : TypeKind} {parts more : List TypeKind}

@[simp] theorem meets_nil : Meets blocked [] ↔ False := by
  simp [Meets]

@[simp] theorem meets_append : Meets blocked (parts ++ more) ↔ Meets blocked parts ∨ Meets blocked more := by
  simp only [Meets, List.mem_append]
  grind

@[simp] theorem meets_reference {name : String} {args : List TypeExpr} :
    Meets blocked (.reference name false args :: parts) ↔
      (args = [] ∧ name ≠ "Array" ∧ blocked name) ∨ Meets blocked parts := by
  simp only [Meets, List.mem_cons, TypeKind.reference.injEq]
  grind

/-- Only a plain reference leads anywhere itself. -/
theorem meets_cons (h : ∀ name, kind ≠ .reference name false []) : Meets blocked (kind :: parts) ↔ Meets blocked parts := by
  simp only [Meets, List.mem_cons]
  grind

end

namespace Decode

/-- Resolving a plain reference ends with a cycle if it leads to one, and nothing else fails. -/
structure CyclesAt (beyond : Beyond) (cx : Context) (blocked : String → Prop) : Prop where
  policy : cx.options.unsupported ≠ .error
  resolve : ∀ name span, CyclesIff (Decode.resolve beyond cx name span) (blocked name)

variable {beyond : Beyond} {cx : Context} {blocked : String → Prop}

mutual

theorem type_cyclesIff (h : CyclesAt beyond cx blocked) (outer : Path) (t : TypeExpr) (hop : NoOperator t.parts) :
    CyclesIff (Decode.type beyond cx outer t) (Meets blocked t.parts) := by
  match t with
  | ⟨.union all, doc, span⟩ | ⟨.intersection all, doc, span⟩ =>
    rw [TypeExpr.parts, meets_cons (by simp)]
    simp only [Decode.type]
    exact (types_cyclesIff h _ all (noOperator_cons hop)).bind_pure
  | ⟨.parenthesized inner, doc, span⟩ =>
    rw [TypeExpr.parts, meets_cons (by simp)]
    simp only [Decode.type]
    exact (type_cyclesIff h _ inner (noOperator_cons hop)).bind_pure
  | ⟨.keyword k, doc, span⟩ =>
    rw [TypeExpr.parts, meets_cons (by simp), TypeKind.inner, meets_nil]
    cases k <;> simp only [Decode.type] <;> first | exact .pure _ | exact .unsupported h.policy _ _
    all_goals simp
  | ⟨.literal l, doc, span⟩ =>
    rw [TypeExpr.parts, meets_cons (by simp), TypeKind.inner, meets_nil]
    cases l <;> simp only [Decode.type] <;> first | exact .pure _ | exact .unsupported h.policy _ _
    all_goals simp
  | ⟨.array element, doc, span⟩ =>
    rw [TypeExpr.parts, meets_cons (by simp)]
    simp only [Decode.type]
    exact (type_cyclesIff h _ element (noOperator_cons hop)).bind_pure
  | ⟨.reference name true args, doc, span⟩ =>
    rw [TypeExpr.parts, meets_cons (by simp)]
    simp only [Decode.type, TypeKind.inner, meets_nil]
    exact .unsupported h.policy _ _
  | ⟨.reference name false [], doc, span⟩ =>
    rw [TypeExpr.parts, meets_reference, TypeKind.inner, partsOf, ite_self, meets_nil]
    by_cases hname : name = "Array"
    · simp only [Decode.type, hname, List.length_nil, Nat.zero_le, and_self, if_true]
      exact (CyclesIff.pure _).mono (by simp)
    · have hnone : Operator.ofName? name = none := hop name [] List.mem_cons_self
      simp only [Decode.type, hname, false_and, if_false, hnone]
      refine CyclesIff.mono (P := blocked name ∨ False) ((h.resolve name span).bind fun r => ?_) (by simp [hname])
      cases r with
      | ref target => exact .pure _
      | inlined node => exact .pure _
  | ⟨.reference name false (arg :: args), doc, span⟩ =>
    rw [TypeExpr.parts, meets_cons (by simp), TypeKind.inner]
    by_cases hname : name = "Array" ∧ (arg :: args).length ≤ 1
    · obtain rfl : args = [] := List.eq_nil_of_length_eq_zero (by simpa using hname.2)
      have hop' := noOperator_cons hop
      simp only [TypeKind.inner, if_pos hname, partsOf, List.append_nil] at hop'
      simp only [Decode.type, if_pos hname, partsOf, List.append_nil]
      exact (type_cyclesIff h _ arg hop').bind_pure
    · have hnone : Operator.ofName? name = none := hop name (arg :: args) List.mem_cons_self
      simp only [Decode.type, if_neg hname, hnone, meets_nil]
      exact .unsupported h.policy _ _
  | ⟨.tuple all, doc, span⟩ =>
    rw [TypeExpr.parts, meets_cons (by simp)]
    simp only [Decode.type]
    exact (elements_cyclesIff h outer 0 all (noOperator_cons hop)).bind_pure
  | ⟨.object all, doc, span⟩ =>
    rw [TypeExpr.parts, meets_cons (by simp)]
    simp only [Decode.type]
    exact (members_cyclesIff h _ {} all (noOperator_cons hop)).bind_pure
  | ⟨.unsupported form, doc, span⟩ =>
    rw [TypeExpr.parts, meets_cons (by simp)]
    simp only [Decode.type, TypeKind.inner, meets_nil]
    exact .unsupported h.policy _ _

theorem types_cyclesIff (h : CyclesAt beyond cx blocked) (path : Path) (ts : List TypeExpr)
    (hop : NoOperator (partsOf ts)) : CyclesIff (types beyond cx path ts) (Meets blocked (partsOf ts)) := by
  match ts with
  | [] =>
    rw [partsOf, meets_nil]
    exact .pure _
  | t :: rest =>
    rw [partsOf, noOperator_append] at hop
    rw [partsOf, meets_append]
    simp only [types]
    exact (type_cyclesIff h path t hop.1).bind fun node => (types_cyclesIff h path rest hop.2).bind_pure

theorem elements_cyclesIff (h : CyclesAt beyond cx blocked) (outer : Path) (n : Nat) (es : List TupleElement)
    (hop : NoOperator (partsOfElements es)) :
    CyclesIff (elements beyond cx outer n es) (Meets blocked (partsOfElements es)) := by
  match es with
  | [] =>
    rw [partsOfElements, meets_nil]
    exact .pure _
  | ⟨.required, t, label⟩ :: rest | ⟨.optional, t, label⟩ :: rest =>
    simp only [partsOfElements, noOperator_append] at hop
    simp only [partsOfElements, meets_append, elements]
    exact (type_cyclesIff h _ t hop.1).bind fun node => (elements_cyclesIff h outer (n + 1) rest hop.2).bind_pure
  | [⟨.rest, t, label⟩] =>
    simp only [partsOfElements, List.append_nil] at hop
    simp only [partsOfElements, List.append_nil, elements]
    refine ((type_cyclesIff h _ t hop).bind fun node => ?_).mono (or_iff_left id)
    split
    · exact .pure _
    · exact (CyclesIff.unsupported h.policy _ _).bind_pure
    · exact .pure _
  | ⟨.rest, t, label⟩ :: next :: rest =>
    simp only [partsOfElements] at hop
    simp only [partsOfElements, elements]
    exact ((CyclesIff.unsupported h.policy _ _).bind fun _ =>
      elements_cyclesIff h outer (n + 1) (next :: rest) hop).mono (or_iff_right id)

theorem members_cyclesIff (h : CyclesAt beyond cx blocked) (path : Path) (shape : Shape) (ms : List Member)
    (hop : NoOperator (partsOfMembers ms)) :
    CyclesIff (members beyond cx path shape ms) (Meets blocked (partsOfMembers ms)) := by
  match ms with
  | [] =>
    rw [partsOfMembers, meets_nil]
    exact .pure _
  | .property name optional (some t) doc span :: rest =>
    rw [partsOfMembers, noOperator_append] at hop
    rw [partsOfMembers, meets_append]
    simp only [members]
    exact (type_cyclesIff h _ t hop.1).bind fun node => members_cyclesIff h path _ rest hop.2
  | .property name optional none doc span :: rest =>
    simp only [partsOfMembers] at hop
    simp only [partsOfMembers, members]
    exact members_cyclesIff h path shape rest hop
  | .index param ⟨key, keyDoc, keySpan⟩ value doc span :: rest =>
    by_cases hkey : key = .keyword .string
    · subst hkey
      simp only [partsOfMembers, noOperator_append] at hop
      simp only [partsOfMembers, meets_append, members]
      exact (type_cyclesIff h _ value hop.1).bind fun node => members_cyclesIff h path _ rest hop.2
    · rw [partsOfMembers_index hkey] at hop ⊢
      rw [members_index hkey]
      exact ((CyclesIff.warn cx _ _).bind fun _ => members_cyclesIff h path shape rest hop).mono (or_iff_right id)
  | .other span :: rest =>
    simp only [partsOfMembers] at hop
    simp only [partsOfMembers, members]
    exact members_cyclesIff h path shape rest hop

end

theorem declaration_cyclesIff (h : CyclesAt beyond cx blocked) (d : Declaration) (hop : NoOperator d.parts) :
    CyclesIff (declaration beyond cx d) (Meets blocked d.parts) := by
  unfold declaration
  by_cases hg : d.isGeneric
  · rw [if_pos hg, Declaration.parts, if_pos hg, meets_nil]
    exact .unsupported h.policy _ _
  · rw [Declaration.parts, if_neg hg] at hop
    rw [if_neg hg, Declaration.parts, if_neg hg]
    cases hbody : d.body with
    | typeAlias a =>
      rw [hbody] at hop
      exact (type_cyclesIff h _ a.value hop).bind_pure
    | interface i =>
      simp only [hbody, noOperator_append] at hop
      rw [meets_append]
      exact (types_cyclesIff h _ i.heritage hop.1).bind fun parents =>
        (members_cyclesIff h _ {} i.members hop.2).bind_pure

end Decode

/-- Going into a declaration from inside others comes back to one that has been entered. -/
inductive Table.Returns (table : Table) : List String → Declaration → Prop
  | here {entered : List String} {d : Declaration} (h : d.name ∈ entered) : Returns table entered d
  | further {entered : List String} {d e : Declaration} (huses : table.Uses d e)
      (h : Returns table (d.name :: entered) e) : Returns table entered d

namespace Table

variable {table : Table} {entered : List String} {d e : Declaration}

theorem returns_iff : table.Returns entered d ↔
    d.name ∈ entered ∨ ∃ e, table.Uses d e ∧ table.Returns (d.name :: entered) e := by
  constructor
  · rintro (h | ⟨huses, h⟩)
    · exact .inl h
    · exact .inr ⟨_, huses, h⟩
  · rintro (h | ⟨e, huses, h⟩)
    · exact .here h
    · exact .further huses h

/-- From a declaration, a cycle is reached. -/
def Reaches (table : Table) (d : Declaration) : Prop :=
  ∃ e, Relation.ReflTransGen table.Uses d e ∧ Relation.TransGen table.Uses e e

theorem Reaches.next (h : table.Reaches d) : ∃ e, table.Uses d e ∧ table.Reaches e := by
  obtain ⟨f, hpath, hcycle⟩ := h
  rcases hpath.cases_head with rfl | ⟨e, huses, hrest⟩
  · obtain ⟨e, huses, hback⟩ := Relation.TransGen.head'_iff.mp hcycle
    exact ⟨e, huses, d, hback, hcycle⟩
  · exact ⟨e, huses, f, hrest, hcycle⟩

/-- Names that have been entered: each once, and of declarations. -/
structure Entered (table : Table) (entered : List String) : Prop where
  nodup : entered.Nodup
  names : entered ⊆ table.declarations.map Declaration.name

theorem entered_nil (table : Table) : table.Entered [] := ⟨List.nodup_nil, by simp⟩

theorem Entered.cons (h : table.Entered entered) (hd : d ∈ table.declarations) (hn : d.name ∉ entered) :
    table.Entered (d.name :: entered) :=
  ⟨List.nodup_cons.mpr ⟨hn, h.nodup⟩, List.cons_subset.mpr ⟨List.mem_map_of_mem hd, h.names⟩⟩

theorem Entered.length_le (h : table.Entered entered) : entered.length ≤ table.declarations.length := by
  simpa using (h.nodup.subperm h.names).length_le

/-- Where as many declarations have been entered as there are, each has been entered. -/
theorem Entered.mem (h : table.Entered entered) (hlength : table.declarations.length ≤ entered.length)
    (hd : d ∈ table.declarations) : d.name ∈ entered := by
  by_contra hn
  have := (h.cons hd hn).length_le
  rw [List.length_cons] at this
  omega

/-- What comes back from inside others reaches one of them or a cycle. -/
theorem Returns.reaches (hn : (table.declarations.map Declaration.name).Nodup) (h : table.Returns entered d)
    (hd : d ∈ table.declarations) :
    (∃ f, Relation.ReflTransGen table.Uses d f ∧ f.name ∈ entered) ∨ table.Reaches d := by
  induction h with
  | @here entered d h => exact .inl ⟨d, .refl, h⟩
  | @further entered d e huses _ ih =>
    rcases ih huses.mem with ⟨f, hpath, hf⟩ | ⟨f, hpath, hcycle⟩
    · rcases List.mem_cons.mp hf with hname | hf
      · have hfd : f = d := by
          rcases hpath.cases_tail with rfl | ⟨g, -, hlast⟩
          · exact Option.some.inj (huses.get?.symm.trans (hname ▸ get?_of_mem hn hd))
          · exact Option.some.inj (hlast.get?.symm.trans (hname ▸ get?_of_mem hn hd))
        exact .inr ⟨d, .refl, Relation.TransGen.head' huses (hfd ▸ hpath)⟩
      · exact .inl ⟨f, .head huses hpath, hf⟩
    · exact .inr ⟨f, .head huses hpath, hcycle⟩

/-- What reaches a cycle comes back, from inside whatever others. -/
theorem Reaches.returns (h : table.Reaches d) (hd : d ∈ table.declarations) (hentered : table.Entered entered) :
    table.Returns entered d := by
  induction hk : table.declarations.length - entered.length generalizing entered d with
  | zero => exact .here (hentered.mem (by omega) hd)
  | succ k ih =>
    by_cases hn : d.name ∈ entered
    · exact .here hn
    · obtain ⟨e, huses, he⟩ := h.next
      have hcons := hentered.cons hd hn
      refine .further huses (ih he huses.mem hcons ?_)
      rw [List.length_cons]
      omega

theorem returns_nil_iff (hn : (table.declarations.map Declaration.name).Nodup) (hd : d ∈ table.declarations) :
    table.Returns [] d ↔ table.Reaches d := by
  refine ⟨fun h => ?_, fun h => h.returns hd table.entered_nil⟩
  rcases h.reaches hn hd with ⟨f, -, hf⟩ | h
  · exact absurd hf List.not_mem_nil
  · exact h

end Table

/-- References are inlined, and leaving something out is no error. -/
structure Context.Inlines (cx : Context) : Prop where
  nonExported : cx.options.nonExported = .inline
  unsupported : cx.options.unsupported ≠ .error
  noOperator : ∀ d ∈ cx.table.declarations, NoOperator d.parts

/-- Inlining ends with a cycle where going into the declaration comes back. -/
theorem Decode.resolve_cyclesIff {beyond : Beyond} {cx : Context} (hcx : cx.Inlines)
    (h : ∀ d ∈ cx.table.declarations, ∀ span, CyclesIff (beyond.inline cx d span) (cx.table.Returns cx.entered d)) :
    CyclesAt beyond cx fun name => ∃ e, cx.table.resolve? cx.scope name = some e ∧ e.exported = false ∧
      cx.table.Returns cx.entered e := by
  refine ⟨hcx.unsupported, fun name span => ?_⟩
  unfold Decode.resolve
  cases hr : cx.table.resolve? cx.scope name with
  | none => exact (CyclesIff.pure _).mono (by simp)
  | some d =>
    dsimp only
    cases he : d.exported with
    | true => exact (CyclesIff.pure _).mono (by simp [he])
    | false =>
      rw [hcx.nonExported]
      have hmem := (Table.name_of_get? (Table.get?_of_resolve? hr)).2
      exact ((h d hmem span).bind_pure).mono (by simp [he])

theorem Table.meets_parts {table : Table} {d : Declaration} {entered : List String} :
    Meets (fun name => ∃ e, table.resolve? d.scope name = some e ∧ e.exported = false ∧ table.Returns entered e) d.parts ↔
      ∃ e, table.Uses d e ∧ table.Returns entered e := by
  simp only [Meets, Uses]
  grind

theorem Beyond.within_cyclesIff (depth : Nat) {cx : Context} (hcx : cx.Inlines) (hentered : cx.table.Entered cx.entered)
    (hdepth : cx.table.declarations.length ≤ cx.entered.length + depth) {d : Declaration}
    (hd : d ∈ cx.table.declarations) (span : Option Span) :
    CyclesIff ((within depth).inline cx d span) (cx.table.Returns cx.entered d) := by
  induction depth generalizing cx d span with
  | zero => exact (CyclesIff.cyclic cx d span).mono (iff_of_true trivial (.here (hentered.mem hdepth hd)))
  | succ depth ih =>
    simp only [within]
    split
    · next hmem => exact (CyclesIff.cyclic cx d span).mono (iff_of_true trivial (.here hmem))
    · next hmem =>
      have hinside : (cx.inside d).Inlines := ⟨hcx.nonExported, hcx.unsupported, hcx.noOperator⟩
      have hnext : ∀ e ∈ cx.table.declarations, ∀ span,
          CyclesIff ((within depth).inline (cx.inside d) e span) (cx.table.Returns (d.name :: cx.entered) e) :=
        fun e he span => ih hinside (hentered.cons hd hmem) (by simp only [Context.inside, List.length_cons]; omega) he span
      refine (Decode.declaration_cyclesIff (Decode.resolve_cyclesIff hinside hnext) d (hcx.noOperator d hd)).mono ?_
      rw [Table.returns_iff, or_iff_right hmem]
      exact Table.meets_parts

/-- A declaration cannot be converted just if it reaches a cycle. -/
theorem Context.decodeTop_cyclesIff {cx : Context} (hcx : cx.Inlines)
    (hn : (cx.table.declarations.map Declaration.name).Nodup) {d : Declaration} (hd : d ∈ cx.table.declarations) :
    CyclesIff (cx.decodeTop d) (cx.table.Reaches d) := by
  have htop : Context.Inlines { cx with path := [d.name], scope := d.scope, entered := [] } :=
    ⟨hcx.nonExported, hcx.unsupported, hcx.noOperator⟩
  have hnext := fun e he span => Beyond.within_cyclesIff cx.table.declarations.length htop cx.table.entered_nil
    (by simp) (d := e) he span
  refine (Decode.declaration_cyclesIff (Decode.resolve_cyclesIff htop hnext) d (hcx.noOperator d hd)).mono ?_
  refine Table.meets_parts.trans ⟨?_, fun h => ?_⟩
  · rintro ⟨e, huses, h⟩
    obtain ⟨f, hpath, hcycle⟩ := (Table.returns_nil_iff hn huses.mem).mp h
    exact ⟨f, .head huses hpath, hcycle⟩
  · obtain ⟨e, huses, h⟩ := h.next
    exact ⟨e, huses, (Table.returns_nil_iff hn huses.mem).mpr h⟩

namespace Convert

theorem all_cyclesIff {cx : Context} (hcx : cx.Inlines) (hn : (cx.table.declarations.map Declaration.name).Nodup)
    (p : Progress) (ds : List Declaration) (hds : ds ⊆ cx.table.declarations) :
    CyclesIff (all cx p ds) (∃ d ∈ ds, cx.table.Reaches d) := by
  induction ds generalizing p with
  | nil => exact (CyclesIff.pure p).mono (by simp)
  | cons d rest ih =>
    obtain ⟨hd, hrest⟩ := List.cons_subset.mp hds
    exact ((cx.decodeTop_cyclesIff hcx hn hd).bind fun node => ih _ hrest).mono (by simp)

/-- Inlining notes no references, so there are no further rounds. -/
theorem progress_cycles {cx : Context} (hcx : cx.Inlines) (hn : (cx.table.declarations.map Declaration.name).Nodup)
    (hoistedAway : List String) :
    ((∃ d ∈ cx.table.declarations, d.exported ∧ cx.table.Reaches d) → ∃ name place log,
      (progress cx hoistedAway).run.run {} = (.error (.malformed (.cyclic .inline name) place), log)) ∧
    ((¬∃ d ∈ cx.table.declarations, d.exported ∧ cx.table.Reaches d) → ∃ p log,
      (progress cx hoistedAway).run.run {} = (.ok p, log)) := by
  have hselected : (∃ d ∈ cx.table.declarations.filter (isSelected cx.options), cx.table.Reaches d) ↔
      ∃ d ∈ cx.table.declarations, d.exported ∧ cx.table.Reaches d := by
    simp [isSelected, hcx.nonExported, and_assoc]
  have hall := (all_cyclesIff hcx hn { notConverted := hoistedAway } _ (List.filter_sublist.subset)).mono hselected
  refine ⟨fun h => ?_, fun h => ?_⟩
  · obtain ⟨name, place, log, hrun⟩ := hall.cycles h {}
    exact ⟨name, place, log, by rw [progress, Decode.run_bind, hrun]⟩
  · obtain ⟨p, log, hrun, hlog⟩ := hall.passes h {}
    refine ⟨{ p with done := p.types.map NamedType.name }, log, ?_⟩
    rw [progress, Decode.run_bind, hrun]
    exact rounds_of_none cx _ _ hlog

end Convert

/-- Inlining fails just where an exported declaration leads, over plain references that decoding meets, to declarations
that are not exported and lead back to themselves; and then it says so. -/
theorem SourceFile.convert_inline_cycles (file : SourceFile) (source : String) (options : ReadOptions)
    (hinline : options.nonExported = .inline) (hpolicy : options.unsupported ≠ .error)
    (hop : ∀ d ∈ (Table.collect options.namespaces file).1.declarations, NoOperator d.parts) :
    let table := (Table.collect options.namespaces file).1
    let run := (file.convert source options).result
    ((∃ e, run = .error e) ↔ ∃ d ∈ table.declarations, d.exported ∧ d.isGeneric = false ∧
      ∃ e, Relation.ReflTransGen table.Uses d e ∧ Relation.TransGen table.Uses e e) ∧
    ∀ e, run = .error e → ∃ name place, e = .malformed (.cyclic .inline name) place := by
  intro table run
  have hn : (table.declarations.map Declaration.name).Nodup := Table.nodup_collect options.namespaces file
  let cx : Context := { source := source.toList, options, table }
  have hcx : cx.Inlines := ⟨hinline, hpolicy, hop⟩
  obtain ⟨hcycles, hpasses⟩ := Convert.progress_cycles hcx hn (Table.collect options.namespaces file).2
  have hrun : run = ((Convert.progress cx (Table.collect options.namespaces file).2).run.run {}).1.map fun p => {
      data := ⟨Document.currentVersion, p.types⟩
      converted := p.types.map NamedType.name
      notConverted := p.notConverted } := by
    simp only [run, convert, hinline]
    rfl
  have hgeneric : (∃ d ∈ table.declarations, d.exported ∧ table.Reaches d) ↔
      ∃ d ∈ table.declarations, d.exported ∧ d.isGeneric = false ∧ table.Reaches d := by
    refine exists_congr fun d => and_congr_right fun _ => and_congr_right fun _ => (and_iff_right_of_imp fun h => ?_).symm
    obtain ⟨e, huses, -⟩ := h.next
    exact huses.not_generic
  by_cases h : ∃ d ∈ table.declarations, d.exported ∧ table.Reaches d
  · obtain ⟨name, place, log, hprogress⟩ := hcycles h
    rw [hprogress] at hrun
    refine ⟨iff_of_true ⟨_, hrun⟩ (hgeneric.mp h), fun e he => ⟨name, place, ?_⟩⟩
    exact Except.error.inj (he.symm.trans hrun)
  · obtain ⟨p, log, hprogress⟩ := hpasses h
    rw [hprogress] at hrun
    have hno : ∀ e, run ≠ .error e := fun e he => by cases he.symm.trans hrun
    exact ⟨iff_of_false (fun ⟨e, he⟩ => hno e he) (fun hr => h (hgeneric.mpr hr)), fun e he => absurd he (hno e)⟩

/-- Two properties share a declaration, and a third one leads to a declaration that is an array of itself. -/
theorem SourceFile.convert_inline_cycles_shared :
    let top : Interface := {
      name := "Top", exported := true
      members := [
        .property "left" false (some (.reference "Leaf")) none none,
        .property "right" false (some (.reference "Leaf")) none none,
        .property "knot" true (some (.reference "Knot")) none none] }
    let leaf : Alias := { name := "Leaf", value := .keyword .string }
    let knot : Alias := { name := "Knot", value := .of (.array (.reference "Knot")) }
    let file : SourceFile := ⟨[.interface top, .typeAlias leaf, .typeAlias knot]⟩
    let options : ReadOptions := { nonExported := .inline, unsupported := .warn }
    (∀ d ∈ (Table.collect options.namespaces file).1.declarations, NoOperator d.parts) ∧
      ∃ name place, (file.convert "" options).result = .error (.malformed (.cyclic .inline name) place) := by
  intro top leaf knot file options
  let table := (Table.collect options.namespaces file).1
  let top' : Declaration := ⟨"Top", [], true, .interface top⟩
  let leaf' : Declaration := ⟨"Leaf", [], false, .typeAlias leaf⟩
  let knot' : Declaration := ⟨"Knot", [], false, .typeAlias knot⟩
  have htable : table.declarations = [top', leaf', knot'] := rfl
  have htop : top'.parts = [.reference "Leaf" false [], .reference "Leaf" false [], .reference "Knot" false []] := rfl
  have hleaf : leaf'.parts = [.keyword .string] := rfl
  have hknot : knot'.parts = [.array (.reference "Knot"), .reference "Knot" false []] := rfl
  have hop : ∀ d ∈ table.declarations, NoOperator d.parts := by
    have hnone : ∀ name ∈ ["Leaf", "Knot"], Operator.ofName? name = none := by decide
    simp only [htable, List.forall_mem_cons, NoOperator, htop, hleaf, hknot]
    grind
  obtain ⟨hiff, hcause⟩ := file.convert_inline_cycles "" options rfl (by decide) hop
  have henter : table.Uses top' knot' := ⟨rfl, "Knot", by simp [htop], by decide, rfl⟩
  have hback : table.Uses knot' knot' := ⟨rfl, "Knot", by simp [hknot], by decide, rfl⟩
  obtain ⟨e, he⟩ := hiff.mpr ⟨top', List.mem_cons_self, rfl, rfl, knot', .single henter, .single hback⟩
  obtain ⟨name, place, hname⟩ := hcause e he
  exact ⟨hop, name, place, he.trans (congrArg _ hname)⟩

end TypeSchema
