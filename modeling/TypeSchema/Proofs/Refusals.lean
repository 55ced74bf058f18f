import Mathlib.Data.List.TakeWhile
import TypeSchema.Convert
import TypeSchema.Proofs.Parallel

namespace TypeSchema

/-- The error in place of a warning that a construct was left out. -/
def Warning.refusal? (w : Warning) : Option Error :=
  match w.omission with
  | .unsupported cause => some (.unsupported cause w.place)
  | .nonStringIndex => none

/-- The error in place of the first warning that a construct was left out. -/
def firstRefusal? (warnings : List Warning) : Option Error := warnings.findSome? Warning.refusal?

namespace UnsupportedPolicy

variable {α : Type}

/-- What is reported of everything there is to warn of. -/
def reported (policy : UnsupportedPolicy) (warnings : List Warning) : List Warning :=
  match policy with
  | ignore => warnings.filter (·.refusal?.isNone)
  | warn => warnings
  | error => warnings.takeWhile (·.refusal?.isNone)

/-- How a run ends that ends with `result` where warnings are no errors. -/
def judged (policy : UnsupportedPolicy) (warnings : List Warning) (result : Except Error α) : Except Error α :=
  match policy with
  | ignore | warn => result
  | error => ((firstRefusal? warnings).map .error).getD result

/-- Does a run end at one of the warnings? -/
def Stops (policy : UnsupportedPolicy) (warnings : List Warning) : Prop :=
  policy = error ∧ firstRefusal? warnings ≠ none

variable {policy : UnsupportedPolicy} {warnings : List Warning}

theorem reported_nil : policy.reported [] = [] := by
  cases policy <;> rfl

theorem judged_nil (result : Except Error α) : policy.judged [] result = result := by
  cases policy <;> rfl

theorem judged_of_not_stops (h : ¬policy.Stops warnings) (result : Except Error α) :
    policy.judged warnings result = result := by
  cases policy with
  | error =>
    have hnone : firstRefusal? warnings = none := by simpa [Stops] using h
    rw [judged, hnone]
    rfl
  | _ => rfl

theorem judged_of_stops (h : policy.Stops warnings) :
    ∃ refusal : Error, ∀ {β : Type} (result : Except Error β), policy.judged warnings result = .error refusal := by
  obtain ⟨rfl, hsome⟩ := h
  obtain ⟨refusal, hr⟩ := Option.ne_none_iff_exists'.mp hsome
  refine ⟨refusal, fun result => ?_⟩
  rw [judged, hr]
  rfl

theorem stops_append {more : List Warning} :
    policy.Stops (warnings ++ more) ↔ policy.Stops warnings ∨ policy.Stops more := by
  simp only [Stops, firstRefusal?, List.findSome?_append, ne_eq, Option.or_eq_none_iff]
  grind

theorem judged_append_of_stops (h : policy.Stops warnings) (more : List Warning) {β : Type} (result : Except Error α)
    (other : Except Error β) (refusal : Error) (hr : policy.judged warnings other = .error refusal) :
    policy.judged (warnings ++ more) result = .error refusal := by
  obtain ⟨rfl, hsome⟩ := h
  obtain ⟨found, hf⟩ := Option.ne_none_iff_exists'.mp hsome
  rw [judged, hf] at hr
  rw [judged, firstRefusal?, List.findSome?_append, ← firstRefusal?, hf]
  simpa using hr

theorem judged_append_of_not_stops (h : ¬policy.Stops warnings) (more : List Warning) (result : Except Error α) :
    policy.judged (warnings ++ more) result = policy.judged more result := by
  cases policy with
  | error =>
    have hnone : warnings.findSome? Warning.refusal? = none := by simpa [Stops, firstRefusal?] using h
    rw [judged, judged, firstRefusal?, firstRefusal?, List.findSome?_append, hnone, Option.none_or]
  | _ => rfl

/-- Nothing is reported behind the warning at which a run ends. -/
theorem reported_append_of_stops (h : policy.Stops warnings) (more : List Warning) :
    policy.reported (warnings ++ more) = policy.reported warnings := by
  obtain ⟨rfl, hsome⟩ := h
  obtain ⟨refusal, hr⟩ := Option.ne_none_iff_exists'.mp hsome
  obtain ⟨w, hw, hwr⟩ := List.exists_of_findSome?_eq_some hr
  rw [reported, reported, List.takeWhile_append, if_neg]
  intro hlength
  have hall := List.takeWhile_eq_self_iff.mp
    ((List.takeWhile_prefix (p := fun w : Warning => w.refusal?.isNone)).eq_of_length hlength) w hw
  rw [hwr] at hall
  cases hall

theorem reported_append_of_not_stops (h : ¬policy.Stops warnings) (more : List Warning) :
    policy.reported (warnings ++ more) = policy.reported warnings ++ policy.reported more := by
  cases policy with
  | ignore => exact List.filter_append ..
  | warn => rfl
  | error =>
    have hnone : ∀ w ∈ warnings, w.refusal? = none := by simpa [Stops, firstRefusal?] using h
    have hall : ∀ w ∈ warnings, w.refusal?.isNone = true := fun w hw => by rw [hnone w hw]; rfl
    rw [reported, reported, reported, List.takeWhile_append_of_pos hall, List.takeWhile_eq_self_iff.mpr hall]

end UnsupportedPolicy

/-- Runs under each policy find the same: a result, and what there is to warn of. Only a run that ends at a warning
may note fewer references. -/
def Alike {α : Type} (m : UnsupportedPolicy → Decode α) : Prop :=
  ∀ referenced, ∃ result warnings referenced', ∀ (policy : UnsupportedPolicy) (before : List Warning),
    ∃ noted, (m policy).run.run ⟨before, referenced⟩ =
        (policy.judged warnings result, ⟨before ++ policy.reported warnings, noted⟩) ∧
      (¬policy.Stops warnings → noted = referenced')

namespace Alike

variable {α β : Type}

theorem pure (a : α) : Alike fun _ => Pure.pure a := by
  intro referenced
  refine ⟨.ok a, [], referenced, fun policy before => ⟨referenced, ?_, fun _ => rfl⟩⟩
  rw [UnsupportedPolicy.judged_nil, UnsupportedPolicy.reported_nil, List.append_nil]
  rfl

theorem throw (e : Error) : Alike fun _ => (throw e : Decode α) := by
  intro referenced
  refine ⟨.error e, [], referenced, fun policy before => ⟨referenced, ?_, fun _ => rfl⟩⟩
  rw [UnsupportedPolicy.judged_nil, UnsupportedPolicy.reported_nil, List.append_nil]
  rfl

theorem bind {m : UnsupportedPolicy → Decode α} {f : UnsupportedPolicy → α → Decode β} (h : Alike m)
    (hf : ∀ a, Alike fun policy => f policy a) : Alike fun policy => m policy >>= f policy := by
  intro referenced
  obtain ⟨result, warnings, referenced', hm⟩ := h referenced
  cases result with
  | error e =>
    refine ⟨.error e, warnings, referenced', fun policy before => ?_⟩
    obtain ⟨noted, hrun, hnoted⟩ := hm policy before
    refine ⟨noted, ?_, hnoted⟩
    rw [Decode.run_bind, hrun]
    by_cases hs : policy.Stops warnings
    · obtain ⟨refusal, hr⟩ := UnsupportedPolicy.judged_of_stops hs
      rw [hr, hr]
    · rw [UnsupportedPolicy.judged_of_not_stops hs, UnsupportedPolicy.judged_of_not_stops hs]
  | ok a =>
    obtain ⟨result', more, referenced'', hn⟩ := hf a referenced'
    refine ⟨result', warnings ++ more, referenced'', fun policy before => ?_⟩
    obtain ⟨noted, hrun, hnoted⟩ := hm policy before
    by_cases hs : policy.Stops warnings
    · -- The first run ends at a warning, so the second does not take place.
      obtain ⟨refusal, hr⟩ := UnsupportedPolicy.judged_of_stops hs
      refine ⟨noted, ?_, fun h => absurd (UnsupportedPolicy.stops_append.mpr (.inl hs)) h⟩
      rw [Decode.run_bind, hrun, hr, UnsupportedPolicy.reported_append_of_stops hs,
        UnsupportedPolicy.judged_append_of_stops hs more result' (.ok a) refusal (hr _)]
    · obtain ⟨noted', hrun', hnoted'⟩ := hn policy (before ++ policy.reported warnings)
      refine ⟨noted', ?_, fun h => hnoted' fun hs' => h (UnsupportedPolicy.stops_append.mpr (.inr hs'))⟩
      rw [Decode.run_bind, hrun, UnsupportedPolicy.judged_of_not_stops hs, hnoted hs]
      dsimp only
      rw [hrun', UnsupportedPolicy.judged_append_of_not_stops hs, UnsupportedPolicy.reported_append_of_not_stops hs,
        List.append_assoc]

/-- A step that asks for what has been referred to. -/
theorem get {k : UnsupportedPolicy → List String → Decode α} (h : ∀ referenced, Alike fun policy => k policy referenced) :
    Alike fun policy => (MonadState.get : Decode Log) >>= fun log => k policy log.referenced :=
  fun referenced => h referenced referenced

/-- A step that notes references. -/
theorem note (f : List String → List String) :
    Alike fun _ => (modify fun log => { log with referenced := f log.referenced } : Decode Unit) := by
  intro referenced
  refine ⟨.ok (), [], f referenced, fun policy before => ⟨f referenced, ?_, fun _ => rfl⟩⟩
  rw [UnsupportedPolicy.judged_nil, UnsupportedPolicy.reported_nil, List.append_nil]
  rfl

end Alike

/-- Runs under each policy find the same. -/
def Parallel.alike : Parallel UnsupportedPolicy := ⟨Alike, Alike.pure, Alike.bind⟩

namespace Context

/-- The context under another policy for what cannot be converted. -/
def under (cx : Context) (policy : UnsupportedPolicy) : Context :=
  { cx with options := { cx.options with unsupported := policy } }

variable (cx : Context)

@[simp] theorem under_table (policy : UnsupportedPolicy) : (cx.under policy).table = cx.table := rfl

@[simp] theorem under_scope (policy : UnsupportedPolicy) : (cx.under policy).scope = cx.scope := rfl

@[simp] theorem under_entered (policy : UnsupportedPolicy) : (cx.under policy).entered = cx.entered := rfl

@[simp] theorem under_nonExported (policy : UnsupportedPolicy) :
    (cx.under policy).options.nonExported = cx.options.nonExported := rfl

theorem cyclic_alike {α : Type} (expansion : Expansion) (d : Declaration) (span : Option Span) :
    Alike fun policy => ((cx.under policy).cyclic expansion d span : Decode α) :=
  .throw (.malformed (.cyclic expansion d.name) (cx.place span))

theorem unsupported_alike {α : Type} (cause : Unsupported) (span : Option Span) :
    Alike fun policy => ((cx.under policy).unsupported cause span : Decode (Option α)) := by
  intro referenced
  refine ⟨.ok none, [⟨.unsupported cause, cx.place span⟩], referenced, fun policy before => ⟨referenced, ?_, fun _ => rfl⟩⟩
  cases policy with
  | ignore => simp [UnsupportedPolicy.reported, Warning.refusal?]; rfl
  | warn => rfl
  | error => simp [UnsupportedPolicy.reported, Warning.refusal?]; rfl

theorem warn_alike (span : Option Span) : Alike fun policy => (cx.under policy).warn .nonStringIndex span := by
  intro referenced
  refine ⟨.ok (), [⟨.nonStringIndex, cx.place span⟩], referenced, fun policy before => ⟨referenced, ?_, fun _ => rfl⟩⟩
  cases policy <;> rfl

end Context

/-- The ways into a declaration find the same under each policy. -/
structure Beyond.Alike (beyond : Beyond) : Prop where
  inline : ∀ (cx : Context) d span, TypeSchema.Alike fun policy => beyond.inline (cx.under policy) d span
  expand : ∀ (cx : Context) d span, TypeSchema.Alike fun policy => beyond.expand (cx.under policy) d span

namespace Beyond.Alike

variable {beyond : Beyond} (h : beyond.Alike) (cx : Context)
include h

theorem resolve (name : String) (span : Option Span) :
    TypeSchema.Alike fun policy => Decode.resolve beyond (cx.under policy) name span := by
  simp only [Decode.resolve, Context.under_table, Context.under_scope, Context.under_nonExported]
  cases cx.table.resolve? cx.scope name with
  | none => exact .pure _
  | some d =>
    dsimp only
    split
    · exact .pure _
    · cases cx.options.nonExported with
      | includeIfReferenced =>
        have hnote : (fun log : Log =>
              if d.name ∈ log.referenced then log else { log with referenced := log.referenced ++ [d.name] }) =
            fun log => { log with
              referenced := if d.name ∈ log.referenced then log.referenced else log.referenced ++ [d.name] } := by
          funext log
          split <;> rfl
        simp only [hnote]
        exact .bind (.note fun names => if d.name ∈ names then names else names ++ [d.name]) fun _ => .pure _
      | inline => exact .bind (h.inline cx d span) fun node => .pure _
      | _ => exact .pure _

theorem steps : Decode.Steps .alike (fun _ => beyond) cx.under where
  unsupported := cx.unsupported_alike
  warn := cx.warn_alike
  resolve := h.resolve cx
  expand name span := by
    simp only [Context.under_table]
    cases cx.table.get? name with
    | none => exact .pure _
    | some d => exact h.expand cx d span
  inherit name span := by
    simp only [Context.under_table, Context.under_scope]
    cases cx.table.resolve? cx.scope name with
    | none => exact .pure _
    | some d => exact h.expand cx d span

end Beyond.Alike

theorem Beyond.within_alike (depth : Nat) : (within depth).Alike := by
  induction depth with
  | zero => exact ⟨fun cx d span => cx.cyclic_alike .inline d span, fun cx d span => cx.cyclic_alike .expand d span⟩
  | succ depth ih =>
    refine ⟨fun cx d span => ?_, fun cx d span => ?_⟩ <;> by_cases hd : d.name ∈ cx.entered <;>
      simp only [within, Context.under_entered, hd, if_true, if_false]
    · exact cx.cyclic_alike .inline d span
    · exact Decode.declaration_holds (ih.steps (cx.inside d)) d
    · exact cx.cyclic_alike .expand d span
    · exact Decode.shape_holds (ih.steps (cx.inside d)) d

namespace Convert

variable (cx : Context)

theorem decodeTop_alike (d : Declaration) : Alike fun policy => (cx.under policy).decodeTop d :=
  have hsteps := (Beyond.within_alike cx.table.declarations.length).steps
    { cx with path := [d.name], scope := d.scope, entered := [] }
  Decode.declaration_holds hsteps d

theorem all_alike (p : Progress) (ds : List Declaration) : Alike fun policy => all (cx.under policy) p ds := by
  induction ds generalizing p with
  | nil => exact .pure _
  | cons d rest ih => exact .bind (decodeTop_alike cx d) fun node => ih _

theorem rounds_alike (n : Nat) (p : Progress) : Alike fun policy => rounds (cx.under policy) n p := by
  induction n generalizing p with
  | zero => exact .pure _
  | succ n ih =>
    refine .get (k := fun policy referenced =>
      if (pending p referenced).isEmpty then Pure.pure p
      else do
        let p ← all (cx.under policy) { p with done := p.done ++ pending p referenced }
          ((pending p referenced).filterMap cx.table.get?)
        rounds (cx.under policy) n p) fun referenced => ?_
    split
    · exact .pure _
    · exact .bind (all_alike cx _ _) fun p => ih p

theorem progress_alike (hoistedAway : List String) : Alike fun policy => progress (cx.under policy) hoistedAway :=
  .bind (all_alike cx { notConverted := hoistedAway } (cx.table.declarations.filter (isSelected cx.options)))
    fun _ => rounds_alike cx (cx.table.declarations.length + 1) _

end Convert

theorem UnsupportedPolicy.judged_map {α β : Type} (policy : UnsupportedPolicy) (warnings : List Warning)
    (result : Except Error α) (f : α → β) :
    (policy.judged warnings result).map f = policy.judged warnings (result.map f) := by
  cases policy with
  | error =>
    simp only [judged]
    cases firstRefusal? warnings <;> rfl
  | _ => rfl

/-- The outcome under any policy is what that policy makes of the outcome where everything is only warned of. -/
theorem SourceFile.convert_judged (file : SourceFile) (source : String) (options : ReadOptions)
    (policy : UnsupportedPolicy) :
    let warned := file.convert source { options with unsupported := .warn }
    file.convert source { options with unsupported := policy } =
      { result := policy.judged warned.warnings warned.result, warnings := policy.reported warned.warnings } := by
  let cx : Context := { source := source.toList, options, table := (Table.collect options.namespaces file).1 }
  -- Which declaration is hidden, if that is a failure, does not depend on the policy.
  obtain ⟨hidden, hconvert⟩ : ∃ hidden : Option Declaration, ∀ policy : UnsupportedPolicy,
      file.convert source { options with unsupported := policy } =
        hidden.elim
          (let run := (Convert.progress (cx.under policy) (Table.collect options.namespaces file).2).run.run {}
          { warnings := run.2.warnings
            result := run.1.map fun p => {
              data := ⟨Document.currentVersion, p.types⟩
              converted := p.types.map NamedType.name
              notConverted := p.notConverted } })
          fun d => { result := .error (.malformed .nonExported ({ cx with path := [d.name] }.place d.span)) } := by
    refine ⟨if options.nonExported = .fail then cx.table.declarations.find? (!·.exported) else none, fun policy => ?_⟩
    rw [convert]
    dsimp only
    cases if options.nonExported = .fail then cx.table.declarations.find? (!·.exported) else none <;> rfl
  simp only [hconvert]
  cases hidden with
  | some d => simp only [Option.elim_some, UnsupportedPolicy.judged_nil, UnsupportedPolicy.reported_nil]
  | none =>
    obtain ⟨result, warnings, referenced, hrun⟩ := Convert.progress_alike cx (Table.collect options.namespaces file).2 []
    obtain ⟨noted, hwarn, -⟩ := hrun .warn []
    obtain ⟨noted', hpolicy, -⟩ := hrun policy []
    simp only [hwarn, hpolicy, UnsupportedPolicy.judged_map]
    rfl

theorem firstRefusal?_eq_none {warnings : List Warning} :
    firstRefusal? warnings = none ↔ ∀ w ∈ warnings, w.omission = .nonStringIndex := by
  rw [firstRefusal?, List.findSome?_eq_none_iff]
  refine forall₂_congr fun w _ => ?_
  cases h : w.omission <;> simp [Warning.refusal?, h]

theorem Warning.refusal?_isNone (w : Warning) : w.refusal?.isNone = (w.omission == .nonStringIndex) := by
  cases h : w.omission <;> simp [refusal?, h]

/-- The policy for what cannot be converted is a filter on what is reported. To ignore gives the result of warning, with
the warnings of index signatures alone. Where nothing else is warned of, errors make no difference; otherwise the first
other warning is the error, and what was reported before it stays reported. -/
theorem SourceFile.convert_policies (file : SourceFile) (source : String) (options : ReadOptions) :
    let run (policy : UnsupportedPolicy) := file.convert source { options with unsupported := policy }
    (run .ignore).result = (run .warn).result ∧
      (run .ignore).warnings = (run .warn).warnings.filter (·.omission == .nonStringIndex) ∧
      ((∀ w ∈ (run .warn).warnings, w.omission = .nonStringIndex) → run .error = run .warn) ∧
      ∀ before w after cause, (run .warn).warnings = before ++ w :: after →
        (∀ v ∈ before, v.omission = .nonStringIndex) → w.omission = .unsupported cause →
        run .error = { result := .error (.unsupported cause w.place), warnings := before } ∧
          w.omission.message = cause.message := by
  intro run
  have hjudged (policy : UnsupportedPolicy) : run policy =
      { result := policy.judged (run .warn).warnings (run .warn).result,
        warnings := policy.reported (run .warn).warnings } := file.convert_judged source options policy
  refine ⟨?_, ?_, fun h => ?_, fun before w after cause hw hbefore hcause => ⟨?_, by rw [hcause]; rfl⟩⟩
  · rw [hjudged .ignore]
    rfl
  · rw [hjudged .ignore]
    simp only [UnsupportedPolicy.reported, Warning.refusal?_isNone]
  · have hnot : ¬UnsupportedPolicy.error.Stops (run .warn).warnings :=
      fun hs => hs.2 (firstRefusal?_eq_none.mpr h)
    have hall : ∀ v ∈ (run .warn).warnings, v.refusal?.isNone = true := fun v hv => by
      rw [Warning.refusal?_isNone, h v hv]
      rfl
    rw [hjudged .error, UnsupportedPolicy.judged_of_not_stops hnot, UnsupportedPolicy.reported,
      List.takeWhile_eq_self_iff.mpr hall]
  · have hfirst : firstRefusal? (run .warn).warnings = some (.unsupported cause w.place) := by
      have hnone : before.findSome? Warning.refusal? = none := firstRefusal?_eq_none.mpr hbefore
      rw [hw, firstRefusal?, List.findSome?_append, hnone, Option.none_or, List.findSome?_cons]
      simp [Warning.refusal?, hcause]
    have hall : ∀ v ∈ before, v.refusal?.isNone = true := fun v hv => by
      rw [Warning.refusal?_isNone, hbefore v hv]
      rfl
    have hstop : w.refusal?.isNone = false := by
      rw [Warning.refusal?_isNone, hcause]
      rfl
    rw [hjudged .error, UnsupportedPolicy.judged, hfirst, UnsupportedPolicy.reported, hw,
      List.takeWhile_append_of_pos hall, List.takeWhile_cons_of_neg (by simp [hstop]), List.append_nil]
    rfl

/-- A conversion that warns of an index signature and of a keyword, and then meets a cycle. -/
theorem SourceFile.convert_policies_cycle :
    let source := "[slot: number]: string; lost: never"
    let file : SourceFile := ⟨[
      .interface {
        name := "Shelf", exported := true
        members := [
          .index "slot" { kind := .keyword .number, span := some ⟨7, 13⟩ } (.keyword .string) none none,
          .property "lost" false (some { kind := .keyword .never, span := some ⟨30, 35⟩ }) none none,
          .property "loop" false (some (.reference "Loop")) none none] },
      .typeAlias { name := "Loop", value := .reference "Loop" }]⟩
    let number : Place :=
      { loc := some ⟨7, 13⟩, range := some ⟨⟨7, 1, 8⟩, ⟨13, 1, 14⟩⟩, snippet := some "number", path := ["Shelf"] }
    let never : Place :=
      { loc := some ⟨30, 35⟩, range := some ⟨⟨30, 1, 31⟩, ⟨35, 1, 36⟩⟩, snippet := some "never", path := ["Shelf"] }
    let run (policy : UnsupportedPolicy) := file.convert source { nonExported := .inline, unsupported := policy }
    let cyclic : Except Error (Conversion Document) := .error (.malformed (.cyclic .inline "Loop") { path := ["Shelf"] })
    (run .warn).result = cyclic ∧
      (run .warn).warnings = [⟨.nonStringIndex, number⟩, ⟨.unsupported (.type "never"), never⟩] ∧
      (run .ignore).result = cyclic ∧ (run .ignore).warnings = [⟨.nonStringIndex, number⟩] ∧
      run .error = {
        result := .error (.unsupported (.type "never") never)
        warnings := [⟨.nonStringIndex, number⟩] } := by
  intro source file number never run cyclic
  have hresult : (run .warn).result = cyclic := rfl
  have hwarnings : (run .warn).warnings = [⟨.nonStringIndex, number⟩, ⟨.unsupported (.type "never"), never⟩] := by
    decide
  obtain ⟨hsame, hindex, -, herror⟩ := file.convert_policies source { nonExported := .inline }
  refine ⟨hresult, hwarnings, hsame.trans hresult, hindex.trans ?_, ?_⟩
  · rw [hwarnings]
    rfl
  · exact (herror [⟨.nonStringIndex, number⟩] ⟨.unsupported (.type "never"), never⟩ [] (.type "never") hwarnings
      (by simp) rfl).1

end TypeSchema
