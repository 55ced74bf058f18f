import TypeSchema.Proofs.Parallel
import TypeSchema.Proofs.References

namespace TypeSchema

/-- Where the first of two runs ends, the second ends with the same value, whatever was noted before. -/
def Parallel.follows : Parallel Bool where
  Holds m := ∀ log a log', Ends (m true) log a log' → ∀ more, ∃ more', Ends (m false) more a more'
  pure a := by
    intro log b log' h more
    obtain ⟨rfl, -⟩ := Ends.pure_iff.mp h
    exact ⟨more, Ends.pure_iff.mpr ⟨rfl, rfl⟩⟩
  bind := by
    intro α β m f hm hf log b log' h more
    obtain ⟨a, log₁, ha, hb⟩ := Ends.bind_iff.mp h
    obtain ⟨more₁, ha'⟩ := hm log a log₁ ha more
    obtain ⟨more₂, hb'⟩ := hf a log₁ b log' hb more₁
    exact ⟨more₂, Ends.bind_iff.mpr ⟨a, more₁, ha', hb'⟩⟩

namespace Context

/-- The context at another place: in another declaration, after others have been entered. -/
def moved (cx : Context) (path scope entered : List String) : Context := { cx with path, scope, entered }

variable (cx : Context) (path scope entered : List String)

@[simp] theorem moved_table : (cx.moved path scope entered).table = cx.table := rfl

@[simp] theorem moved_scope : (cx.moved path scope entered).scope = scope := rfl

@[simp] theorem moved_options : (cx.moved path scope entered).options = cx.options := rfl

/-- The declaration of that name is not expanded anywhere after all these have been entered. -/
def Stuck (name : String) : Prop :=
  ∀ d, cx.table.get? name = some d → ∀ depth path scope more span log shape log', entered ⊆ more →
    ¬Ends ((Beyond.within depth).expand (cx.moved path scope more) d span) log shape log'

/-- To have entered `more` is no hindrance where decoding ends after `entered`. -/
def Covers (more : List String) : Prop := ∀ name ∈ more, name ∈ entered ∨ cx.Stuck entered name

variable {cx entered}

theorem Covers.of_subset {more : List String} (h : more ⊆ entered) : cx.Covers entered more :=
  fun _ hm => .inl (h hm)

theorem Covers.refl : cx.Covers entered entered := .of_subset (List.Subset.refl entered)

theorem Covers.cons {more : List String} (h : cx.Covers entered more) (name : String) :
    cx.Covers (name :: entered) (name :: more) := by
  intro other hm
  rcases List.mem_cons.mp hm with rfl | hm
  · exact .inl List.mem_cons_self
  · rcases h other hm with hin | hstuck
    · exact .inl (List.mem_cons_of_mem _ hin)
    · refine .inr fun d hd depth path scope further span log shape log' hsub => ?_
      exact hstuck d hd depth path scope further span log shape log' fun _ hin => hsub (List.mem_cons_of_mem _ hin)

end Context

namespace Decode

variable {cx : Context} {path entered : Bool → List String}

/-- A run goes on like another one in all its steps if it does in the expansion of declarations. -/
theorem Steps.follows {beyond : Bool → Beyond} {scope : List String} (hp : cx.options.nonExported ≠ .inline)
    (h : ∀ d, cx.table.get? d.name = some d → ∀ span, Parallel.follows.Holds fun i =>
      (beyond i).expand (cx.moved (path i) scope (entered i)) d span) :
    Steps .follows beyond fun i => cx.moved (path i) scope (entered i) where
  unsupported cause span := by
    intro log a log' hends more
    simp only [Context.unsupported, Context.moved_options] at hends ⊢
    cases hpolicy : cx.options.unsupported with
    | ignore =>
      rw [hpolicy] at hends
      obtain ⟨rfl, -⟩ := Ends.pure_iff.mp hends
      exact ⟨more, Ends.pure_iff.mpr ⟨rfl, rfl⟩⟩
    | warn =>
      rw [hpolicy] at hends
      obtain ⟨_, _, -, hends⟩ := Ends.bind_iff.mp hends
      obtain ⟨rfl, -⟩ := Ends.pure_iff.mp hends
      exact ⟨_, Ends.bind_iff.mpr ⟨(), _, Ends.modify_iff.mpr rfl, Ends.pure_iff.mpr ⟨rfl, rfl⟩⟩⟩
    | error =>
      rw [hpolicy] at hends
      exact (Ends.throw_iff.mp hends).elim
  warn span := fun _ _ _ _ _ => ⟨_, Ends.modify_iff.mpr rfl⟩
  resolve name span := by
    simp only [Decode.resolve, Context.moved_table, Context.moved_scope, Context.moved_options]
    cases cx.table.resolve? scope name with
    | none => exact Parallel.follows.pure _
    | some d =>
      dsimp only
      split
      · exact Parallel.follows.pure _
      · cases hpolicy : cx.options.nonExported with
        | inline => exact absurd hpolicy hp
        | includeIfReferenced =>
          exact Parallel.follows.bind (fun _ _ _ _ _ => ⟨_, Ends.modify_iff.mpr rfl⟩) fun _ => Parallel.follows.pure _
        | _ => exact Parallel.follows.pure _
  expand name span := by
    simp only [Context.moved_table]
    cases hget : cx.table.get? name with
    | none => exact Parallel.follows.pure _
    | some d => exact h d ((Table.name_of_get? hget).1 ▸ hget) span
  inherit name span := by
    simp only [Context.moved_table, Context.moved_scope]
    cases hresolve : cx.table.resolve? scope name with
    | none => exact Parallel.follows.pure _
    | some d => exact h d (Table.get?_of_resolve? hresolve) span

end Decode

namespace Beyond

variable {cx : Context}

/-- A declaration that is expanded is expanded with more depth too, and after others have been entered that are not
expanded on the way. -/
theorem within_follows (hp : cx.options.nonExported ≠ .inline) (depth : Bool → Nat)
    (path scope entered : Bool → List String) (hdepth : depth true ≤ depth false)
    (hcovers : cx.Covers (entered true) (entered false)) {d : Declaration} (hd : cx.table.get? d.name = some d)
    (span : Option Span) :
    Parallel.follows.Holds fun i => (within (depth i)).expand (cx.moved (path i) (scope i) (entered i)) d span := by
  -- on the depth of the first run; the second one has at least as much at each step
  obtain ⟨n, hn⟩ : ∃ n, n = depth true := ⟨_, rfl⟩
  induction n generalizing depth entered scope d span with
  | zero =>
    intro log shape log' h
    dsimp only at h
    rw [← hn] at h
    exact (Ends.throw_iff.mp h).elim
  | succ n ih =>
    obtain ⟨m, hm⟩ : ∃ m, depth false = m + 1 := ⟨depth false - 1, by omega⟩
    have hinner : Parallel.follows.Holds fun i =>
        Decode.shape (within (depth i - 1)) (cx.moved (path i) d.scope (d.name :: entered i)) d := by
      refine Decode.shape_holds (.follows hp fun e he span => ?_) d
      exact ih (fun i => depth i - 1) (fun _ => d.scope) _ (by omega) (hcovers.cons d.name) he span (by omega)
    intro log shape log' h more
    have hends := h
    dsimp only at h ⊢
    rw [← hn] at h
    simp only [within] at h
    split at h
    · exact (Ends.throw_iff.mp h).elim
    · next hnew =>
      -- What was expanded here is not stuck, so that it is entered only if it was entered before.
      have hnew' : d.name ∉ (cx.moved (path false) (scope false) (entered false)).entered := by
        intro hin
        rcases hcovers d.name hin with hin | hstuck
        · exact hnew hin
        · exact hstuck d hd _ _ _ _ _ _ _ _ (List.Subset.refl _) hends
      have hrun := hinner log shape log'
      dsimp only at hrun
      rw [← hn, hm, Nat.add_sub_cancel, Nat.add_sub_cancel] at hrun
      rw [hm]
      simp only [within, if_neg hnew']
      exact hrun h more

variable {depth depth' : Nat} {path path' scope entered entered' : List String} {log log' : Log}

/-- Members that are decoded are decoded with more depth too, and after such others have been entered. -/
theorem members_follow (hp : cx.options.nonExported ≠ .inline) (hdepth : depth ≤ depth')
    (hcovers : cx.Covers entered entered') {place : Path} {shape shape' : Shape} {ms : List Member}
    (h : Ends (Decode.members (within depth) (cx.moved path scope entered) place shape ms) log shape' log')
    (more : Log) :
    ∃ more', Ends (Decode.members (within depth') (cx.moved path' scope entered') place shape ms) more shape' more' := by
  let deep (i : Bool) : Nat := bif i then depth else depth'
  let on (i : Bool) : List String := bif i then path else path'
  let behind (i : Bool) : List String := bif i then entered else entered'
  have hsteps : Decode.Steps .follows (fun i => within (deep i)) fun i => cx.moved (on i) scope (behind i) := by
    apply Decode.Steps.follows hp
    intro d hd span
    exact within_follows hp deep on (fun _ => scope) behind hdepth hcovers hd span
  exact Decode.members_holds hsteps place shape ms log shape' log' h more

end Beyond

end TypeSchema
