import Mathlib.Tactic.Common

/-!
# Runs of a labelled transition system

A system is a partial step function on labelled actions. A run performs a list of
actions one after the other. An invariant that the guarded steps preserve holds in
every state reached, as long as every step of the run meets its guard. Where the
guard is met exactly by the good steps, a run is good exactly if it meets the guard;
this is how a system with steps that are not always right is compared with its
specification.
-/

namespace Transition

variable {σ α : Type*} (step : σ → α → Option σ)

/-- The state after a list of actions, if each of them is possible. -/
def run (s : σ) : List α → Option σ
  | [] => some s
  | a :: as => (step s a).bind fun s' => run s' as

/-- A run of no actions. -/
@[simp] theorem run_nil (s : σ) : run step s [] = some s := rfl

/-- A run performs its first action and goes on from there. -/
theorem run_cons_eq_some {s s' : σ} {a : α} {as : List α} :
    run step s (a :: as) = some s' ↔ ∃ t, step s a = some t ∧ run step t as = some s' := by
  rw [run, Option.bind_eq_some_iff]

/-- Two runs one after the other. -/
theorem run_append (s : σ) (as bs : List α) :
    run step s (as ++ bs) = (run step s as).bind fun s' => run step s' bs := by
  induction as generalizing s with
  | nil => rfl
  | cons a as ih =>
    rw [List.cons_append, run, run, Option.bind_assoc]
    exact congrArg _ (funext ih)

/-- A run followed by one more action. -/
theorem run_concat_eq_some {s s' : σ} {a : α} {as : List α} :
    run step s (as ++ [a]) = some s' ↔ ∃ t, run step s as = some t ∧ step t a = some s' := by
  rw [run_append, Option.bind_eq_some_iff]
  simp [run]

/-- Every step of a run meets a guard, which may look at the state before the step. -/
def Along (guard : σ → α → Prop) (s : σ) : List α → Prop
  | [] => True
  | a :: as => guard s a ∧ ∀ s', step s a = some s' → Along guard s' as

/-- Whether every step of a given run meets a guard can be decided. -/
instance Along.decidable {guard : σ → α → Prop} [∀ s a, Decidable (guard s a)] :
    ∀ (s : σ) (as : List α), Decidable (Along step guard s as)
  | _, [] => isTrue trivial
  | s, a :: as =>
    match hstep : step s a with
    | none => decidable_of_iff (guard s a) (by simp [Along, hstep])
    | some t =>
      have : Decidable (Along step guard t as) := Along.decidable t as
      decidable_of_iff (guard s a ∧ Along step guard t as) (by simp [Along, hstep])

variable {step}

/-- **Invariant rule.** What every guarded step preserves holds after a guarded run. -/
theorem Along.invariant {guard : σ → α → Prop} {Inv : σ → Prop}
    (hstep : ∀ s a s', Inv s → guard s a → step s a = some s' → Inv s')
    {s s' : σ} {as : List α} (hs : Inv s) (hguard : Along step guard s as)
    (hrun : run step s as = some s') : Inv s' := by
  induction as generalizing s with
  | nil =>
    obtain rfl : s = s' := by simpa using hrun
    exact hs
  | cons a as ih =>
    obtain ⟨t, ht, hrun⟩ := (run_cons_eq_some step).mp hrun
    exact ih (hstep s a t hs hguard.1 ht) (hguard.2 t ht) hrun

/-- A guard that looks at the actions only is met along a run if all its actions meet it. -/
theorem along_of_forall {guard : σ → α → Prop} {as : List α} (h : ∀ a ∈ as, ∀ s, guard s a)
    (s : σ) : Along step guard s as := by
  induction as generalizing s with
  | nil => trivial
  | cons a as ih =>
    rw [List.forall_mem_cons] at h
    exact ⟨h.1 s, fun s' _ => ih h.2 s'⟩

variable (step) in
/-- The weights of the steps of a run, added up. -/
def cost (weight : σ → α → ℕ) (s : σ) : List α → ℕ
  | [] => 0
  | a :: as => weight s a + (step s a).elim 0 fun s' => cost weight s' as

/-- **Potential rule.** If every step lowers a potential by its weight at least, a run costs
no more than the potential that it uses up. -/
theorem Along.cost_add_le {guard : σ → α → Prop} {weight : σ → α → ℕ} {potential : σ → ℕ}
    (hstep : ∀ s a s', guard s a → step s a = some s' → weight s a + potential s' ≤ potential s)
    {s s' : σ} {as : List α} (hguard : Along step guard s as) (hrun : run step s as = some s') :
    cost step weight s as + potential s' ≤ potential s := by
  induction as generalizing s with
  | nil =>
    obtain rfl : s = s' := by simpa using hrun
    exact Nat.le_of_eq (Nat.zero_add _)
  | cons a as ih =>
    obtain ⟨t, ht, hrun⟩ := (run_cons_eq_some step).mp hrun
    have hfirst := hstep s a t hguard.1 ht
    have hrest := ih (hguard.2 t ht) hrun
    rw [cost, ht, Option.elim_some]
    omega

/-- **Exact guards.** Where a guard is met exactly by the good steps, in every state of an
invariant that the good steps preserve, all steps of a run are good exactly if all
of them meet the guard. -/
theorem along_iff {good guard : σ → α → Prop} {Inv : σ → Prop}
    (hiff : ∀ s a, Inv s → (good s a ↔ guard s a))
    (hstep : ∀ s a s', Inv s → good s a → step s a = some s' → Inv s')
    {s : σ} (hs : Inv s) (as : List α) : Along step good s as ↔ Along step guard s as := by
  induction as generalizing s with
  | nil => exact Iff.rfl
  | cons a as ih =>
    rw [Along, Along, hiff s a hs]
    refine and_congr_right fun hguard => forall_congr' fun s' => imp_congr_right fun hs' => ?_
    exact ih (hstep s a s' hs ((hiff s a hs).mpr hguard) hs')

/-- Every state that a run reaches has a property if the first one has it and every step
leads to one that has it. -/
theorem along_reached_iff {P : σ → Prop} {s : σ} {as : List α} :
    (P s ∧ Along step (fun s a => ∀ s', step s a = some s' → P s') s as) ↔
      ∀ bs, bs <+: as → ∀ s', run step s bs = some s' → P s' := by
  induction as generalizing s with
  | nil =>
    constructor
    · rintro ⟨hs, -⟩ bs hbs s' hrun
      rw [List.prefix_nil.mp hbs, run_nil] at hrun
      exact Option.some.inj hrun ▸ hs
    · intro h
      exact ⟨h [] List.nil_prefix s rfl, trivial⟩
  | cons a as ih =>
    constructor
    · rintro ⟨hs, hfirst, hrest⟩ bs hbs s' hrun
      rcases bs with _ | ⟨b, bs⟩
      · exact Option.some.inj hrun ▸ hs
      · obtain ⟨rfl, hbs'⟩ := List.cons_prefix_cons.mp hbs
        obtain ⟨t, ht, hrun⟩ := (run_cons_eq_some step).mp hrun
        exact ih.mp ⟨hfirst t ht, hrest t ht⟩ bs hbs' s' hrun
    · intro h
      have hlater (t : σ) (ht : step s a = some t) :
          P t ∧ Along step (fun s a => ∀ s', step s a = some s' → P s') t as := by
        refine ih.mpr fun bs hbs s' hrun => ?_
        exact h (a :: bs) (List.cons_prefix_cons.mpr ⟨rfl, hbs⟩) s'
          ((run_cons_eq_some step).mpr ⟨t, ht, hrun⟩)
      exact ⟨h [] List.nil_prefix s rfl, fun t ht => (hlater t ht).1, fun t ht => (hlater t ht).2⟩

section Refinement

variable {τ : Type*} (f : σ → α → σ) (spec : τ → α → τ) (abs : σ → τ)

/-- A system in which every action is possible. -/
def total (s : σ) (a : α) : Option σ := some (f s a)

/-- A run of a system in which every action is possible. -/
@[simp] theorem run_total (s : σ) (as : List α) : run (total f) s as = some (as.foldl f s) := by
  induction as generalizing s with
  | nil => rfl
  | cons a as ih => exact ih (f s a)

/-- The first step of a run is followed by one other state. -/
theorem along_total_cons {guard : σ → α → Prop} {s : σ} {a : α} {as : List α} :
    Along (total f) guard s (a :: as) ↔ guard s a ∧ Along (total f) guard (f s a) as := by
  simp [Along, total]

/-- **Refinement rule.** If the steps that do to the abstract state what the specification
does are those that meet a guard, then a run follows the specification from its
beginning to its end exactly if all its steps meet the guard. -/
theorem refines_iff {guard : σ → α → Prop}
    (hstep : ∀ s a, abs (f s a) = spec (abs s) a ↔ guard s a) (s : σ) (as : List α) :
    (∀ bs, bs <+: as → abs (bs.foldl f s) = bs.foldl spec (abs s)) ↔
      Along (total f) guard s as := by
  induction as generalizing s with
  | nil => exact iff_of_true (fun bs hbs => by rw [List.prefix_nil.mp hbs]; rfl) trivial
  | cons a as ih =>
    rw [along_total_cons, ← ih (f s a)]
    constructor
    · intro h
      have hfirst : abs (f s a) = spec (abs s) a := h [a] ⟨as, rfl⟩
      refine ⟨(hstep s a).mp hfirst, fun bs hbs => ?_⟩
      have hrest := h (a :: bs) (List.cons_prefix_cons.mpr ⟨rfl, hbs⟩)
      rw [List.foldl_cons, List.foldl_cons] at hrest
      rw [hrest, hfirst]
    · rintro ⟨hguard, hrest⟩ bs hbs
      rcases bs with _ | ⟨b, bs⟩
      · rfl
      · obtain ⟨rfl, hbs'⟩ := List.cons_prefix_cons.mp hbs
        rw [List.foldl_cons, List.foldl_cons, hrest bs hbs', (hstep s b).mpr hguard]

end Refinement

end Transition
