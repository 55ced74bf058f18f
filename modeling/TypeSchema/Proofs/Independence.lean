import TypeSchema.Proofs.Closure
import TypeSchema.Proofs.Parallel

namespace TypeSchema

namespace Log

/-- What was noted later comes behind; a reference that has been noted is not noted again. -/
def append (log more : Log) : Log where
  warnings := log.warnings ++ more.warnings
  referenced := log.referenced ++ more.referenced.filter (· ∉ log.referenced)

instance : Append Log := ⟨append⟩

variable (log log' log'' : Log)

@[simp] theorem warnings_append : (log ++ log').warnings = log.warnings ++ log'.warnings := rfl

@[simp] theorem referenced_append :
    (log ++ log').referenced = log.referenced ++ log'.referenced.filter (· ∉ log.referenced) := rfl

@[simp] theorem append_empty : log ++ ({} : Log) = log := by
  obtain ⟨warnings, referenced⟩ := log
  change Log.mk (warnings ++ []) (referenced ++ []) = _
  rw [List.append_nil, List.append_nil]

@[simp] theorem empty_append : ({} : Log) ++ log = log := by
  obtain ⟨warnings, referenced⟩ := log
  change Log.mk warnings (referenced.filter (· ∉ [])) = _
  simp

theorem append_assoc : log ++ log' ++ log'' = log ++ (log' ++ log'') := by
  obtain ⟨warnings, referenced⟩ := log
  obtain ⟨warnings', referenced'⟩ := log'
  obtain ⟨warnings'', referenced''⟩ := log''
  change Log.mk _ _ = Log.mk _ _
  simp only [Log.mk.injEq, warnings_append, referenced_append, List.append_assoc, List.filter_append, true_and,
    List.filter_filter]
  congr 2
  apply List.filter_congr
  intro name _
  by_cases h : name ∈ referenced <;> by_cases h' : name ∈ referenced' <;> simp [h, h']

theorem append_note (name : String) :
    log ++ ⟨[], [name]⟩ =
      if name ∈ log.referenced then log else { log with referenced := log.referenced ++ [name] } := by
  obtain ⟨warnings, referenced⟩ := log
  change Log.mk (warnings ++ []) (referenced ++ [name].filter (· ∉ referenced)) = _
  by_cases h : name ∈ referenced <;> simp [h]

theorem mem_referenced_append {name : String} :
    name ∈ (log ++ log').referenced ↔ name ∈ log.referenced ∨ name ∈ log'.referenced := by
  by_cases h : name ∈ log.referenced <;> simp [h]

end Log

/-- Runs under some policies for declarations that are not exported come to the same and warn of the same, whatever
was noted before. Only where declarations are included if they are referenced are references noted. -/
def Agree {ι : Type} (policies : ι → NonExportedPolicy) {α : Type} (m : ι → Decode α) : Prop :=
  ∃ result warnings, ∀ i, ∃ noted : List String, (policies i ≠ .includeIfReferenced → noted = []) ∧
    ∀ log, (m i).run.run log = (result, log ++ ⟨warnings, noted⟩)

namespace Agree

variable {ι : Type} {policies : ι → NonExportedPolicy} {α β : Type}

/-- A run that notes nothing. -/
theorem of_run {m : ι → Decode α} (result : Except Error α) (warnings : List Warning)
    (h : ∀ i log, (m i).run.run log = (result, log ++ ⟨warnings, []⟩)) : Agree policies m :=
  ⟨result, warnings, fun i => ⟨[], fun _ => rfl, h i⟩⟩

theorem pure (a : α) : Agree policies fun _ => Pure.pure a := by
  apply of_run (.ok a) []
  intro i log
  exact congrArg _ log.append_empty.symm

theorem throw (e : Error) : Agree policies fun _ => (throw e : Decode α) := by
  apply of_run (.error e) []
  intro i log
  exact congrArg _ log.append_empty.symm

theorem bind {m : ι → Decode α} {f : ι → α → Decode β} (h : Agree policies m)
    (hf : ∀ a, Agree policies fun i => f i a) : Agree policies fun i => m i >>= f i := by
  obtain ⟨result, warnings, hm⟩ := h
  cases result with
  | error e =>
    refine ⟨.error e, warnings, fun i => ?_⟩
    obtain ⟨noted, hnoted, hrun⟩ := hm i
    refine ⟨noted, hnoted, fun log => ?_⟩
    rw [Decode.run_bind, hrun]
  | ok a =>
    obtain ⟨result', more, hn⟩ := hf a
    refine ⟨result', warnings ++ more, fun i => ?_⟩
    obtain ⟨noted, hnoted, hrun⟩ := hm i
    obtain ⟨noted', hnoted', hrun'⟩ := hn i
    refine ⟨noted ++ noted'.filter (· ∉ noted), fun hp => by simp [hnoted hp, hnoted' hp], fun log => ?_⟩
    rw [Decode.run_bind, hrun]
    dsimp only
    rw [hrun', Log.append_assoc]
    rfl

end Agree

/-- Runs under the policies agree. -/
def Parallel.agree {ι : Type} (policies : ι → NonExportedPolicy) : Parallel ι :=
  ⟨Agree policies, Agree.pure, Agree.bind⟩

namespace Context

/-- The context under another policy for declarations that are not exported. -/
def selecting (cx : Context) (policy : NonExportedPolicy) : Context :=
  { cx with options := { cx.options with nonExported := policy } }

variable {ι : Type} {policies : ι → NonExportedPolicy} (cx : Context)

@[simp] theorem selecting_table (policy : NonExportedPolicy) : (cx.selecting policy).table = cx.table := rfl

@[simp] theorem selecting_scope (policy : NonExportedPolicy) : (cx.selecting policy).scope = cx.scope := rfl

@[simp] theorem selecting_entered (policy : NonExportedPolicy) : (cx.selecting policy).entered = cx.entered := rfl

@[simp] theorem selecting_unsupported (policy : NonExportedPolicy) :
    (cx.selecting policy).options.unsupported = cx.options.unsupported := rfl

@[simp] theorem selecting_nonExported (policy : NonExportedPolicy) :
    (cx.selecting policy).options.nonExported = policy := rfl

theorem cyclic_agree {α : Type} (expansion : Expansion) (d : Declaration) (span : Option Span) :
    Agree policies fun i => ((cx.selecting (policies i)).cyclic expansion d span : Decode α) :=
  .throw (.malformed (.cyclic expansion d.name) (cx.place span))

theorem warn_agree (omission : Omission) (span : Option Span) :
    Agree policies fun i => (cx.selecting (policies i)).warn omission span := by
  apply Agree.of_run (.ok ()) [⟨omission, cx.place span⟩]
  intro i log
  change (_, Log.mk (log.warnings ++ _) log.referenced) = (_, Log.mk _ (log.referenced ++ []))
  rw [List.append_nil]
  rfl

theorem unsupported_agree {α : Type} (cause : Unsupported) (span : Option Span) :
    Agree policies fun i => ((cx.selecting (policies i)).unsupported cause span : Decode (Option α)) := by
  simp only [unsupported, selecting_unsupported]
  cases cx.options.unsupported with
  | ignore => exact .pure none
  | warn => exact .bind (cx.warn_agree _ span) fun _ => .pure none
  | error => exact .throw (.unsupported cause (cx.place span))

end Context

/-- The ways into a declaration agree under the policies. -/
structure Beyond.Agree {ι : Type} (beyond : Beyond) (policies : ι → NonExportedPolicy) : Prop where
  inline : ∀ (cx : Context) d span, TypeSchema.Agree policies fun i => beyond.inline (cx.selecting (policies i)) d span
  expand : ∀ (cx : Context) d span, TypeSchema.Agree policies fun i => beyond.expand (cx.selecting (policies i)) d span

/-- The policies inline all declarations that are not exported, or none. -/
def InlineAlike {ι : Type} (policies : ι → NonExportedPolicy) : Prop :=
  (∀ i, policies i = .inline) ∨ ∀ i, policies i ≠ .inline

namespace Beyond.Agree

variable {ι : Type} {policies : ι → NonExportedPolicy} {beyond : Beyond}

/-- Where nothing is inlined, a reference stays what it is, and at most is noted. -/
theorem reference (hp : ∀ i, policies i ≠ .inline) (cx : Context) {d : Declaration} (he : d.exported = false)
    {name : String} (hr : cx.table.resolve? cx.scope name = some d) (span : Option Span) :
    TypeSchema.Agree policies fun i => Decode.resolve beyond (cx.selecting (policies i)) name span := by
  refine ⟨.ok (.ref d.name), [], fun i => ?_⟩
  refine ⟨if policies i = .includeIfReferenced then [d.name] else [], fun h => if_neg h, fun log => ?_⟩
  simp only [Decode.resolve, Context.selecting_table, Context.selecting_scope, Context.selecting_nonExported, hr, he]
  cases hpolicy : policies i with
  | inline => exact absurd hpolicy (hp i)
  | includeIfReferenced =>
    rw [if_pos rfl, Log.append_note]
    rfl
  | _ => exact congrArg _ log.append_empty.symm

variable (h : beyond.Agree policies) (hp : InlineAlike policies) (cx : Context)
include h hp

theorem resolve (name : String) (span : Option Span) :
    TypeSchema.Agree policies fun i => Decode.resolve beyond (cx.selecting (policies i)) name span := by
  cases hr : cx.table.resolve? cx.scope name with
  | none =>
    simp only [Decode.resolve, Context.selecting_table, Context.selecting_scope, hr]
    exact .pure _
  | some d =>
    cases he : d.exported with
    | true =>
      simp only [Decode.resolve, Context.selecting_table, Context.selecting_scope, hr, he]
      exact .pure _
    | false =>
      rcases hp with hinline | hnot
      · simp only [Decode.resolve, Context.selecting_table, Context.selecting_scope, Context.selecting_nonExported, hr, he,
          hinline]
        exact .bind (by simpa only [hinline] using h.inline cx d span) fun node => .pure _
      · exact reference hnot cx he hr span

theorem steps : Decode.Steps (.agree policies) (fun _ => beyond) fun i => cx.selecting (policies i) where
  unsupported := cx.unsupported_agree
  warn := cx.warn_agree .nonStringIndex
  resolve := h.resolve hp cx
  expand name span := by
    simp only [Context.selecting_table]
    cases cx.table.get? name with
    | none => exact .pure _
    | some d => exact h.expand cx d span
  inherit name span := by
    simp only [Context.selecting_table, Context.selecting_scope]
    cases cx.table.resolve? cx.scope name with
    | none => exact .pure _
    | some d => exact h.expand cx d span

end Beyond.Agree

section

variable {ι : Type} {policies : ι → NonExportedPolicy} (hp : InlineAlike policies)
include hp

theorem Beyond.within_agree (depth : Nat) : (within depth).Agree policies := by
  induction depth with
  | zero => exact ⟨fun cx d span => cx.cyclic_agree .inline d span, fun cx d span => cx.cyclic_agree .expand d span⟩
  | succ depth ih =>
    refine ⟨fun cx d span => ?_, fun cx d span => ?_⟩ <;> by_cases hd : d.name ∈ cx.entered <;>
      simp only [within, Context.selecting_entered, hd, if_true, if_false]
    · exact cx.cyclic_agree .inline d span
    · exact Decode.declaration_holds (ih.steps hp (cx.inside d)) d
    · exact cx.cyclic_agree .expand d span
    · exact Decode.shape_holds (ih.steps hp (cx.inside d)) d

theorem Context.decodeTop_agree (cx : Context) (d : Declaration) :
    Agree policies fun i => (cx.selecting (policies i)).decodeTop d :=
  Decode.declaration_holds ((Beyond.within_agree hp cx.table.declarations.length).steps hp
    { cx with path := [d.name], scope := d.scope, entered := [] }) d

end

namespace Context

variable (cx : Context)

/-- What a declaration comes to when it is decoded first. -/
def alone (d : Declaration) : Except Error (Option Node) × Log := (cx.decodeTop d).run.run {}

theorem alone_agree {ι : Type} {policies : ι → NonExportedPolicy} (hp : InlineAlike policies) (d : Declaration) :
    ∃ result warnings, ∀ i, ∃ noted : List String, (policies i ≠ .includeIfReferenced → noted = []) ∧
      (cx.selecting (policies i)).alone d = (result, ⟨warnings, noted⟩) ∧
      ∀ log, ((cx.selecting (policies i)).decodeTop d).run.run log = (result, log ++ ⟨warnings, noted⟩) := by
  obtain ⟨result, warnings, hagree⟩ := cx.decodeTop_agree hp d
  refine ⟨result, warnings, fun i => ?_⟩
  obtain ⟨noted, hnoted, hrun⟩ := hagree i
  refine ⟨noted, hnoted, ?_, hrun⟩
  rw [alone, hrun, Log.empty_append]

theorem inlineAlike_self : InlineAlike fun _ : Unit => cx.options.nonExported := by
  by_cases h : cx.options.nonExported = .inline
  · exact .inl fun _ => h
  · exact .inr fun _ => h

/-- What a declaration comes to does not depend on what was noted before, and only adds to it. -/
theorem decodeTop_run (d : Declaration) (log : Log) :
    (cx.decodeTop d).run.run log = ((cx.alone d).1, log ++ (cx.alone d).2) := by
  obtain ⟨result, warnings, hagree⟩ := cx.alone_agree cx.inlineAlike_self d
  obtain ⟨noted, -, halone, hrun⟩ := hagree ()
  -- the context under its own policy is the context itself
  change cx.alone d = _ at halone
  rw [halone]
  exact hrun log

/-- Nothing is noted but where declarations are included if they are referenced. -/
theorem referenced_alone {d : Declaration} (h : cx.options.nonExported ≠ .includeIfReferenced) :
    (cx.alone d).2.referenced = [] := by
  obtain ⟨result, warnings, hagree⟩ := cx.alone_agree cx.inlineAlike_self d
  obtain ⟨noted, hnoted, halone, -⟩ := hagree ()
  change cx.alone d = _ at halone
  rw [halone]
  exact hnoted h

/-- Where nothing is inlined, what a declaration comes to does not depend on the policy. -/
theorem alone_selecting {policy policy' : NonExportedPolicy} (h : policy ≠ .inline) (h' : policy' ≠ .inline)
    (d : Declaration) : ((cx.selecting policy).alone d).1 = ((cx.selecting policy').alone d).1 := by
  have hp : InlineAlike fun first : Bool => if first then policy else policy' :=
    .inr fun first => by cases first <;> assumption
  obtain ⟨result, warnings, hagree⟩ := cx.alone_agree hp d
  obtain ⟨_, -, hfirst, -⟩ := hagree true
  obtain ⟨_, -, hsecond, -⟩ := hagree false
  change (cx.selecting policy).alone d = _ at hfirst
  change (cx.selecting policy').alone d = _ at hsecond
  rw [hfirst, hsecond]

/-- A declaration can be decoded, though it may be left out. -/
def Decodes (d : Declaration) : Prop := ∃ node, (cx.alone d).1 = .ok node

/-- The type that a declaration becomes. -/
def type? (d : Declaration) : Option NamedType :=
  match (cx.alone d).1 with
  | .ok (some node) => some ⟨d.name, node⟩
  | _ => none

/-- The name of a declaration that is left out. -/
def leftOut? (d : Declaration) : Option String :=
  match (cx.alone d).1 with
  | .ok none => some d.name
  | _ => none

end Context

/-- How far a conversion has come when some more declarations have been converted. -/
def Progress.plus (p : Progress) (cx : Context) (ds : List Declaration) : Progress :=
  { p with
    types := p.types ++ ds.filterMap cx.type?
    notConverted := p.notConverted ++ ds.filterMap cx.leftOut? }

/-- What is noted when some declarations are decoded. -/
def Context.notes (cx : Context) : List Declaration → Log
  | [] => {}
  | d :: rest => (cx.alone d).2 ++ notes cx rest

theorem Context.mem_referenced_notes {cx : Context} {ds : List Declaration} {name : String} :
    name ∈ (cx.notes ds).referenced ↔ ∃ d ∈ ds, name ∈ (cx.alone d).2.referenced := by
  induction ds with
  | nil => simp [notes]
  | cons d rest ih => rw [notes, Log.mem_referenced_append, ih, List.exists_mem_cons_iff]

theorem Context.warnings_notes (cx : Context) (ds : List Declaration) :
    (cx.notes ds).warnings = ds.flatMap fun d => (cx.alone d).2.warnings := by
  induction ds with
  | nil => rfl
  | cons d rest ih => rw [notes, Log.warnings_append, ih, List.flatMap_cons]

theorem Context.referenced_notes {cx : Context} (h : cx.options.nonExported ≠ .includeIfReferenced)
    (ds : List Declaration) : (cx.notes ds).referenced = [] := by
  rw [List.eq_nil_iff_forall_not_mem]
  intro name hname
  obtain ⟨d, -, hd⟩ := mem_referenced_notes.mp hname
  rw [cx.referenced_alone h] at hd
  exact List.not_mem_nil hd

namespace Convert

variable {cx : Context}

/-- Declarations that can be decoded one by one can be decoded in turn, and come to the same. -/
theorem all_run (p : Progress) {ds : List Declaration} (h : ∀ d ∈ ds, cx.Decodes d) (log : Log) :
    (all cx p ds).run.run log = (.ok (p.plus cx ds), log ++ cx.notes ds) := by
  induction ds generalizing p log with
  | nil =>
    have hp : p.plus cx [] = p := by simp [Progress.plus]
    rw [Context.notes, Log.append_empty, hp]
    rfl
  | cons d rest ih =>
    obtain ⟨⟨node, hnode⟩, hrest⟩ := List.forall_mem_cons.mp h
    rw [all, Decode.run_bind, cx.decodeTop_run, hnode]
    dsimp only
    rw [ih _ hrest, Log.append_assoc, Context.notes]
    congr 2
    cases node <;> simp [Progress.plus, Progress.add, Context.type?, Context.leftOut?, hnode]

/-- Declarations that can be decoded in turn can be decoded one by one. -/
theorem all_ends_iff {p p' : Progress} {ds : List Declaration} {log log' : Log} :
    Ends (all cx p ds) log p' log' ↔
      (∀ d ∈ ds, cx.Decodes d) ∧ p' = p.plus cx ds ∧ log' = log ++ cx.notes ds := by
  constructor
  · intro h
    have hall : ∀ d ∈ ds, cx.Decodes d := by
      induction ds generalizing p log with
      | nil => simp
      | cons d rest ih =>
        rw [all, Ends.bind_iff] at h
        obtain ⟨node, log₁, hd, h⟩ := h
        rw [Ends, cx.decodeTop_run, Prod.mk.injEq] at hd
        exact List.forall_mem_cons.mpr ⟨⟨node, hd.1⟩, ih h⟩
    rw [Ends, all_run p hall, Prod.mk.injEq, Except.ok.injEq] at h
    exact ⟨hall, h.1.symm, h.2.symm⟩
  · rintro ⟨hall, rfl, rfl⟩
    exact all_run p hall log

/-- Rounds only add types, and names of declarations that are left out. -/
theorem rounds_extends {n : Nat} {p p' : Progress} {log log' : Log} (h : Ends (rounds cx n p) log p' log') :
    p.types <+: p'.types ∧ p.notConverted <+: p'.notConverted := by
  induction n generalizing p log with
  | zero =>
    obtain ⟨rfl, -⟩ := Ends.pure_iff.mp h
    exact ⟨List.prefix_rfl, List.prefix_rfl⟩
  | succ n ih =>
    rw [rounds_succ_iff] at h
    split at h
    · obtain ⟨rfl, -⟩ := h
      exact ⟨List.prefix_rfl, List.prefix_rfl⟩
    · obtain ⟨p₁, log₂, hall, h⟩ := h
      obtain ⟨-, rfl, -⟩ := all_ends_iff.mp hall
      obtain ⟨htypes, hnot⟩ := ih h
      exact ⟨(List.prefix_append _ _).trans htypes, (List.prefix_append _ _).trans hnot⟩

/-- The progress after the first pass. -/
def selected (cx : Context) (hoistedAway : List String) : Progress :=
  let p := Progress.plus { notConverted := hoistedAway } cx (cx.table.declarations.filter (isSelected cx.options))
  { p with done := p.types.map NamedType.name }

theorem progress_ends_iff {hoistedAway : List String} {p : Progress} {log : Log} :
    Ends (progress cx hoistedAway) {} p log ↔
      (∀ d ∈ cx.table.declarations.filter (isSelected cx.options), cx.Decodes d) ∧
        Ends (rounds cx (cx.table.declarations.length + 1) (selected cx hoistedAway))
          (cx.notes (cx.table.declarations.filter (isSelected cx.options))) p log := by
  rw [progress, Ends.bind_iff]
  constructor
  · rintro ⟨p₀, log₀, hall, h⟩
    obtain ⟨hdec, rfl, rfl⟩ := all_ends_iff.mp hall
    rw [Log.empty_append] at h
    exact ⟨hdec, h⟩
  · rintro ⟨hdec, h⟩
    exact ⟨_, _, all_run _ hdec {}, by rwa [Log.empty_append]⟩

end Convert

/-- What a conversion yields in the end. -/
def Progress.conversion (p : Progress) : Conversion Document where
  data := ⟨Document.currentVersion, p.types⟩
  converted := p.types.map NamedType.name
  notConverted := p.notConverted

/-- The outcome of a run. -/
def Outcome.ofRun (run : Except Error Progress × Log) : Outcome where
  result := run.1.map Progress.conversion
  warnings := run.2.warnings

/-- A conversion succeeds if it yields names. -/
theorem Conversion.exists_of_names {result : Except Error (Conversion Document)} {names : List String}
    (h : result.toOption.map Conversion.converted = some names) : ∃ c, result = .ok c ∧ c.converted = names := by
  cases result with
  | error e => cases h
  | ok c => exact ⟨c, rfl, Option.some.inj h⟩

namespace SourceFile

variable {file : SourceFile} {source : String} {options : ReadOptions}

/-- Where the declarations of a file are decoded. -/
def context (file : SourceFile) (source : String) (options : ReadOptions) : Context where
  source := source.toList
  options := options
  table := (Table.collect options.namespaces file).1

/-- The progress of a file's conversion. -/
def progress (file : SourceFile) (source : String) (options : ReadOptions) : Decode Progress :=
  Convert.progress (file.context source options) (Table.collect options.namespaces file).2

/-- Declarations that are not exported are no failure. -/
def Admitted (file : SourceFile) (options : ReadOptions) : Prop :=
  options.nonExported = .fail → ∀ d ∈ (Table.collect options.namespaces file).1.declarations, d.exported

/-- A conversion that has no hidden declaration to refuse comes to what its progress comes to. -/
theorem convert_of_admitted (ha : file.Admitted options) :
    file.convert source options = .ofRun ((file.progress source options).run.run {}) := by
  have hhidden : (if options.nonExported = .fail then
      (Table.collect options.namespaces file).1.declarations.find? (!·.exported) else none) = none := by
    split
    · next hf =>
      apply List.find?_eq_none.mpr
      intro d hd
      simp [ha hf d hd]
    · rfl
  simp only [convert, hhidden]
  rfl

/-- The first hidden declaration is refused where there must be none. -/
theorem convert_of_not_admitted (ha : ¬file.Admitted options) :
    ∃ place, file.convert source options = { result := .error (.malformed .nonExported place) } := by
  simp only [Admitted, Classical.not_imp, not_forall] at ha
  obtain ⟨hf, d, hd, he⟩ := ha
  cases hfind : (Table.collect options.namespaces file).1.declarations.find? (!·.exported) with
  | none => exact absurd (List.find?_eq_none.mp hfind d hd) (by simpa using he)
  | some first =>
    simp only [convert, if_pos hf, hfind]
    exact ⟨_, rfl⟩

theorem convert_of_ends (ha : file.Admitted options) {p : Progress} {log : Log}
    (h : Ends (file.progress source options) {} p log) :
    file.convert source options = { result := .ok p.conversion, warnings := log.warnings } := by
  rw [convert_of_admitted ha, h]
  rfl

/-- A conversion succeeds just where no declaration is a failure and its progress ends. -/
theorem convert_ok_iff {c : Conversion Document} : (file.convert source options).result = .ok c ↔
    file.Admitted options ∧ ∃ p log, Ends (file.progress source options) {} p log ∧ c = p.conversion := by
  constructor
  · exact convert_ends
  · rintro ⟨ha, p, log, h, rfl⟩
    rw [convert_of_ends ha h]

end SourceFile

end TypeSchema
