import TypeSchema.Proofs.Cycles
import TypeSchema.Proofs.Independence

namespace TypeSchema

instance (table : Table) (entered : List String) : Decidable (table.Entered entered) :=
  decidable_of_iff (entered.Nodup ∧ entered ⊆ table.declarations.map Declaration.name)
    ⟨fun h => ⟨h.1, h.2⟩, fun h => ⟨h.nodup, h.names⟩⟩

/-- The way into declarations under watch. `otherwise` takes over where a declaration would be entered deeper than
allowed, or so that the names of those that have been entered were not distinct names of the table. -/
def Beyond.watched (otherwise : Beyond) : Nat → Beyond
  | 0 =>
    { inline := fun cx d span =>
        if d.name ∈ cx.entered then cx.cyclic .inline d span else otherwise.inline cx d span
      expand := fun cx d span =>
        if d.name ∈ cx.entered then cx.cyclic .expand d span else otherwise.expand cx d span }
  | depth + 1 =>
    let inner := watched otherwise depth
    { inline := fun cx d span =>
        if d.name ∈ cx.entered then cx.cyclic .inline d span
        else if cx.table.Entered (d.name :: cx.entered) then Decode.declaration inner (cx.inside d) d
        else otherwise.inline cx d span
      expand := fun cx d span =>
        if d.name ∈ cx.entered then cx.cyclic .expand d span
        else if cx.table.Entered (d.name :: cx.entered) then Decode.shape inner (cx.inside d) d
        else otherwise.expand cx d span }

namespace Beyond

/-- From a context, the ways into the declarations of its table are the same. -/
structure SameFrom {ι : Type} (beyond : ι → Beyond) (cx : Context) : Prop where
  inline : ∀ d ∈ cx.table.declarations, ∀ span, (Parallel.same ι).Holds fun i => (beyond i).inline cx d span
  expand : ∀ d ∈ cx.table.declarations, ∀ span, (Parallel.same ι).Holds fun i => (beyond i).expand cx d span

/-- Decoding in a context goes only into declarations of its table, and only from that context. -/
theorem SameFrom.steps {ι : Type} {beyond : ι → Beyond} {cx : Context} (h : SameFrom beyond cx) :
    Decode.Steps (.same ι) beyond fun _ => cx := by
  change Decode.Steps (.same ι) beyond fun _ => cx.across cx.table
  exact .same (fun _ => rfl) (fun _ => rfl) h.inline h.expand

variable {beyond beyond' otherwise : Beyond} {cx : Context}

theorem SameFrom.of_eq
    (hi : ∀ d ∈ cx.table.declarations, ∀ span, beyond.inline cx d span = beyond'.inline cx d span)
    (he : ∀ d ∈ cx.table.declarations, ∀ span, beyond.expand cx d span = beyond'.expand cx d span) :
    SameFrom (fun first : Bool => if first then beyond else beyond') cx := by
  refine ⟨fun d hd span => ?_, fun d hd span => ?_⟩ <;> intro first second <;> cases first <;> cases second
  all_goals simp [hi d hd span, he d hd span]

/-- No declaration is entered inside itself. -/
structure Refuses (beyond : Beyond) : Prop where
  inline : ∀ (cx : Context) (d : Declaration) (span : Option Span), d.name ∈ cx.entered →
    beyond.inline cx d span = cx.cyclic .inline d span
  expand : ∀ (cx : Context) (d : Declaration) (span : Option Span), d.name ∈ cx.entered →
    beyond.expand cx d span = cx.cyclic .expand d span

theorem within_refuses (depth : Nat) : (within depth).Refuses := by
  cases depth with
  | zero => exact ⟨fun _ _ _ _ => rfl, fun _ _ _ _ => rfl⟩
  | succ depth => exact ⟨fun _ _ _ h => if_pos h, fun _ _ _ h => if_pos h⟩

theorem watched_refuses (depth : Nat) : (watched otherwise depth).Refuses := by
  cases depth <;> exact ⟨fun _ _ _ h => if_pos h, fun _ _ _ h => if_pos h⟩

/-- Where there is room for the declarations that have not been entered, the watch notices nothing, and no limit is
met. -/
theorem watched_sameFrom (depth depth' : Nat) (hentered : cx.table.Entered cx.entered)
    (h : cx.table.declarations.length ≤ cx.entered.length + depth)
    (h' : cx.table.declarations.length ≤ cx.entered.length + depth') :
    SameFrom (fun watch : Bool => if watch then watched otherwise depth else within depth') cx := by
  induction depth generalizing depth' cx with
  | zero =>
    apply SameFrom.of_eq
    · intro d hd span
      have hm := hentered.mem h hd
      rw [(watched_refuses 0).inline cx d span hm, (within_refuses depth').inline cx d span hm]
    · intro d hd span
      have hm := hentered.mem h hd
      rw [(watched_refuses 0).expand cx d span hm, (within_refuses depth').expand cx d span hm]
  | succ depth ih =>
    -- inside a declaration that has not been entered, there is room for one less
    have hinside : ∀ d ∈ cx.table.declarations, d.name ∉ cx.entered → cx.table.Entered (d.name :: cx.entered) ∧
        ∃ rest, depth' = rest + 1 ∧
          SameFrom (fun watch : Bool => if watch then watched otherwise depth else within rest) (cx.inside d) := by
      intro d hd hm
      have hcons := hentered.cons hd hm
      have hlength := hcons.length_le
      rw [List.length_cons] at hlength
      obtain ⟨rest, rfl⟩ : ∃ rest, depth' = rest + 1 := ⟨depth' - 1, by omega⟩
      refine ⟨hcons, rest, rfl, ih rest hcons ?_ ?_⟩
      · change cx.table.declarations.length ≤ (d.name :: cx.entered).length + depth
        rw [List.length_cons]
        omega
      · change cx.table.declarations.length ≤ (d.name :: cx.entered).length + rest
        rw [List.length_cons]
        omega
    apply SameFrom.of_eq
    · intro d hd span
      by_cases hm : d.name ∈ cx.entered
      · rw [(watched_refuses _).inline cx d span hm, (within_refuses _).inline cx d span hm]
      · obtain ⟨hcons, rest, rfl, hsame⟩ := hinside d hd hm
        simp only [watched, within, if_neg hm, if_pos hcons]
        exact Decode.declaration_holds hsame.steps d true false
    · intro d hd span
      by_cases hm : d.name ∈ cx.entered
      · rw [(watched_refuses _).expand cx d span hm, (within_refuses _).expand cx d span hm]
      · obtain ⟨hcons, rest, rfl, hsame⟩ := hinside d hd hm
        simp only [watched, within, if_neg hm, if_pos hcons]
        exact Decode.shape_holds hsame.steps d true false

end Beyond

/-- A declaration as a type of the document, decoded under watch. -/
def Context.decodeWatched (cx : Context) (otherwise : Beyond) (depth : Nat) (d : Declaration) : Decode (Option Node) :=
  Decode.declaration (.watched otherwise depth) { cx with path := [d.name], scope := d.scope, entered := [] } d

theorem Context.decodeWatched_eq {cx : Context} (otherwise : Beyond) {depth : Nat}
    (h : cx.table.declarations.length ≤ depth) (d : Declaration) :
    cx.decodeWatched otherwise depth d = cx.decodeTop d := by
  have hsame : Beyond.SameFrom
      (fun watch : Bool => if watch then .watched otherwise depth else .within cx.table.declarations.length)
      { cx with path := [d.name], scope := d.scope, entered := [] } :=
    Beyond.watched_sameFrom _ _ cx.table.entered_nil (by simpa using h) (by simp)
  exact Decode.declaration_holds hsame.steps d true false

namespace Convert

variable (cx : Context) (decode : Declaration → Decode (Option Node))

/-- Convert declarations in turn, each decoded in the given way. -/
def allBy (p : Progress) : List Declaration → Decode Progress
  | [] => return p
  | d :: rest => do
    let node ← decode d
    allBy (p.add d.name node) rest

/-- Rounds as they come, with each declaration decoded in the given way. After so many rounds, `late` takes over. -/
def roundsBy (late : Progress → Decode Progress) : Nat → Progress → Decode Progress
  | 0, p => late p
  | n + 1, p => do
    let names := pending p (← get).referenced
    if names.isEmpty then return p
    else
      let p ← allBy decode { p with done := p.done ++ names } (names.filterMap cx.table.get?)
      roundsBy late n p

/-- The whole conversion, with each declaration decoded in the given way and a limit to the rounds. -/
def progressBy (late : Progress → Decode Progress) (turns : Nat) (hoistedAway : List String) : Decode Progress := do
  let p ← allBy decode { notConverted := hoistedAway } (cx.table.declarations.filter (isSelected cx.options))
  roundsBy cx decode late turns { p with done := p.types.map NamedType.name }

theorem allBy_decodeTop (p : Progress) (ds : List Declaration) : allBy cx.decodeTop p ds = all cx p ds := by
  induction ds generalizing p with
  | nil => rfl
  | cons d rest ih =>
    rw [allBy, all]
    exact bind_congr fun node => ih _

/-- The declarations that are neither exported nor settled. -/
def unsettled (p : Progress) : List Declaration :=
  (cx.table.declarations.filter (!·.exported)).filter (·.name ∉ p.done)

variable {cx}

/-- A round settles what is pending, and another one follows; where nothing is pending, it is the last one. -/
theorem roundsBy_succ_run (decode : Declaration → Decode (Option Node)) (late : Progress → Decode Progress) (n : Nat)
    (p : Progress) (log : Log) : (roundsBy cx decode late (n + 1) p).run.run log =
      if (pending p log.referenced).isEmpty then (.ok p, log)
      else (allBy decode { p with done := p.done ++ pending p log.referenced }
        ((pending p log.referenced).filterMap cx.table.get?) >>= roundsBy cx decode late n).run.run log := by
  rw [roundsBy, Decode.run_bind]
  change (if _ then _ else _ : Decode Progress).run.run log = _
  split <;> rfl

theorem rounds_eq_roundsBy (n : Nat) (p : Progress) : rounds cx n p = roundsBy cx cx.decodeTop pure n p := by
  induction n generalizing p with
  | zero => rfl
  | succ n ih =>
    rw [rounds, roundsBy]
    apply bind_congr
    intro log
    dsimp only
    split
    · rfl
    · rw [allBy_decodeTop]
      exact bind_congr ih

/-- The rounds are over before the limit: each but the last settles a declaration that is not exported. -/
theorem roundsBy_run {n m : Nat} (late late' : Progress → Decode Progress) {p : Progress} {log : Log}
    (hs : cx.Sound log) (hn : (unsettled cx p).length < n) (hm : (unsettled cx p).length < m) :
    (roundsBy cx cx.decodeTop late n p).run.run log = (roundsBy cx cx.decodeTop late' m p).run.run log := by
  induction n generalizing m p log with
  | zero => exact absurd hn (Nat.not_lt_zero _)
  | succ n ih =>
    obtain ⟨m, rfl⟩ : ∃ k, m = k + 1 := ⟨m - 1, by omega⟩
    rw [roundsBy_succ_run, roundsBy_succ_run]
    split
    · rfl
    · next hsome =>
      rw [allBy_decodeTop, Decode.run_bind, Decode.run_bind]
      rcases hrun : (all cx { p with done := p.done ++ pending p log.referenced }
        ((pending p log.referenced).filterMap cx.table.get?)).run.run log with ⟨result, log₁⟩
      cases result with
      | error e => rfl
      | ok p₁ =>
        obtain ⟨types, -, -, -, hdone, hkeeps⟩ := all_ends hrun
        obtain ⟨d, hd, hhidden, hname, hnew⟩ := exists_of_pending hs hsome
        have hamong : d ∈ cx.table.declarations.filter (!·.exported) := List.mem_filter.mpr ⟨hd, by simp [hhidden]⟩
        have hlt : (unsettled cx p₁).length < (unsettled cx p).length :=
          length_filter_lt hamong hnew (by simp [hdone, hname]) (by simp [hdone])
        exact ih (hkeeps.sound hs) (by omega) (by omega)

/-- A whole conversion is over before the limit to its rounds. -/
theorem progressBy_run {turns : Nat} (late : Progress → Decode Progress) (hoistedAway : List String)
    (h : (cx.table.declarations.filter (!·.exported)).length < turns) :
    (progressBy cx cx.decodeTop late turns hoistedAway).run.run {} = (progress cx hoistedAway).run.run {} := by
  rw [progressBy, progress, allBy_decodeTop, Decode.run_bind, Decode.run_bind]
  rcases hrun : (all cx { notConverted := hoistedAway }
    (cx.table.declarations.filter (isSelected cx.options))).run.run {} with ⟨result, log⟩
  cases result with
  | error e => rfl
  | ok p =>
    obtain ⟨types, -, -, -, -, hkeeps⟩ := all_ends hrun
    have hs : cx.Sound log := hkeeps.sound ⟨by simp, by simp⟩
    have hfew : (unsettled cx { p with done := p.types.map NamedType.name }).length ≤
        (cx.table.declarations.filter (!·.exported)).length := List.length_filter_le _ _
    have hall : (cx.table.declarations.filter (!·.exported)).length ≤ cx.table.declarations.length :=
      List.length_filter_le _ _
    dsimp only
    rw [rounds_eq_roundsBy]
    exact roundsBy_run late pure hs (by omega) (by omega)

end Convert

/-- Conversions end. The names that are entered are distinct names of the table, so that there are no more of them than
declarations, and there is at most one round more than there are declarations that are not exported: whatever took over
where this failed, the outcome would be the same. -/
theorem SourceFile.convert_terminates (file : SourceFile) (source : String) (options : ReadOptions) :
    let cx := file.context source options
    let hoistedAway := (Table.collect options.namespaces file).2
    (file.Admitted options → ∀ otherwise late depth turns, cx.table.declarations.length ≤ depth →
      (cx.table.declarations.filter (!·.exported)).length < turns →
      file.convert source options =
        .ofRun ((Convert.progressBy cx (cx.decodeWatched otherwise depth) late turns hoistedAway).run.run {})) ∧
    (¬file.Admitted options →
      ∃ place, file.convert source options = { result := .error (.malformed .nonExported place) }) := by
  intro cx hoistedAway
  refine ⟨fun ha otherwise late depth turns hdepth hturns => ?_, convert_of_not_admitted⟩
  have hdecode : cx.decodeWatched otherwise depth = cx.decodeTop := funext (cx.decodeWatched_eq otherwise hdepth)
  rw [hdecode, Convert.progressBy_run late hoistedAway hturns]
  exact convert_of_admitted ha

/-- A list extends a cell, which is expanded in place; the cell leads to ping and pong, which lead to one another and to
a loop. Where they are referenced they take three rounds; where they are to be inlined, they are a failure. -/
theorem SourceFile.convert_terminates_pong :
    let file : SourceFile := ⟨[
      .interface {
        name := "List", exported := true
        heritage := [.of (.reference "Partial" false [.reference "Cell"])]
        members := [] },
      .interface { name := "Cell", members := [.property "item" false (some (.reference "Ping")) none none] },
      .typeAlias { name := "Ping", value := .of (.array (.reference "Pong")) },
      .typeAlias { name := "Pong", value := .of (.union [.reference "Ping", .reference "Loop"]) },
      .typeAlias { name := "Loop", value := .of (.array (.reference "Loop")) }]⟩
    let options (policy : NonExportedPolicy) : ReadOptions := { nonExported := policy }
    let watched (policy : NonExportedPolicy) (otherwise : Beyond) (late : Progress → Decode Progress) :=
      let cx := file.context "" (options policy)
      Outcome.ofRun ((Convert.progressBy cx (cx.decodeWatched otherwise 5) late 5 []).run.run {})
    (file.convert "" (options .includeIfReferenced)).result.toOption.map Conversion.converted =
        some ["List", "Ping", "Pong", "Loop"] ∧
      (∃ place, (file.convert "" (options .inline)).result = .error (.malformed (.cyclic .inline "Ping") place)) ∧
      ∀ policy ≠ .fail, ∀ otherwise late, file.convert "" (options policy) = watched policy otherwise late := by
  intro file options watched
  have hdepth : (file.context "" {}).table.declarations.length ≤ 5 := by decide
  have hturns : ((file.context "" {}).table.declarations.filter (!·.exported)).length < 5 := by decide
  refine ⟨by decide +kernel, ⟨_, rfl⟩, fun policy hp otherwise late => ?_⟩
  obtain ⟨hends, -⟩ := file.convert_terminates "" (options policy)
  exact hends (fun hf => absurd hf hp) otherwise late 5 5 hdepth hturns

end TypeSchema
