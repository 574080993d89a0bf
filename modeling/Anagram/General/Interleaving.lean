-- Systems whose parties take steps one at a time, in any order. A run is the
-- list of its steps. The laws turn facts of one step into facts of every run:
-- invariants, what holds as long as the steps meet a condition, and what one
-- system does that another one allows.
import Mathlib

namespace interleaving

variable {σ α : Type}

/-! ## Runs -/

/-- The state after the steps from `s`. There is none when a step is not possible where it is
taken. -/
def run (step : σ → α → Option σ) : σ → List α → Option σ
  | s, [] => some s
  | s, a :: as => (step s a).bind fun t => run step t as

/-- `Q` holds in every state that the run passes through. -/
def Always (step : σ → α → Option σ) (Q : σ → Prop) : σ → List α → Prop
  | s, [] => Q s
  | s, a :: as => Q s ∧ ∀ t, step s a = some t → Always step Q t as

/-- Every step that the run takes meets `P` in the state where it is taken. -/
def Along (step : σ → α → Option σ) (P : σ → α → Prop) : σ → List α → Prop
  | _, [] => True
  | s, a :: as => ∀ t, step s a = some t → P s a ∧ Along step P t as

instance Along.decidable (step : σ → α → Option σ) (P : σ → α → Prop)
    [∀ s a, Decidable (P s a)] : ∀ s as, Decidable (Along step P s as)
  | _, [] => isTrue trivial
  | s, a :: as =>
    match h : step s a with
    | none => isTrue (by simp [Along, h])
    | some t =>
      have := Along.decidable step P t as
      decidable_of_iff (P s a ∧ Along step P t as) (by simp [Along, h])

variable {step : σ → α → Option σ} {s t : σ} {as bs : List α}

@[simp] theorem run_nil : run step s [] = some s := rfl

theorem run_cons {a : α} (h : step s a = some t) : run step s (a :: as) = run step t as := by
  rw [run, h, Option.bind_some]

theorem run_append (h : run step s as = some t) : run step s (as ++ bs) = run step t bs := by
  induction as generalizing s with
  | nil =>
    cases h
    rfl
  | cons a as ih =>
    obtain ⟨u, hu, hrun⟩ := Option.bind_eq_some_iff.mp h
    rw [List.cons_append, run_cons hu, ih hrun]

theorem run_snoc {a : α} {u : σ} (h : run step s as = some t) (ha : step t a = some u) :
    run step s (as ++ [a]) = some u := (run_append h).trans (run_cons ha)

/-! ## From one step to a run -/

/-- An invariant of the steps that meet the condition holds throughout a run of such steps. -/
theorem always_of_along {I Q : σ → Prop} {P : σ → α → Prop}
    (hstep : ∀ s a t, I s → P s a → step s a = some t → I t) (hQ : ∀ s, I s → Q s) (hs : I s)
    (h : Along step P s as) : Always step Q s as := by
  induction as generalizing s with
  | nil => exact hQ s hs
  | cons a as ih =>
    refine ⟨hQ s hs, fun t ht => ?_⟩
    obtain ⟨hp, hrest⟩ := h t ht
    exact ih (hstep s a t hs hp ht) hrest

theorem along_of_all {P : σ → α → Prop} (h : ∀ s a, P s a) : Along step P s as := by
  induction as generalizing s with
  | nil => trivial
  | cons a as ih => exact fun t _ => ⟨h s a, ih⟩

theorem Along.append {P : σ → α → Prop} (h : Along step P s as) (hrun : run step s as = some t)
    (h' : Along step P t bs) : Along step P s (as ++ bs) := by
  induction as generalizing s with
  | nil =>
    cases hrun
    exact h'
  | cons a as ih =>
    intro u hu
    obtain ⟨hp, hrest⟩ := h u hu
    rw [run_cons hu] at hrun
    exact ⟨hp, ih hrest hrun⟩

/-- What the condition says of a step alone holds of all steps of a run. -/
theorem Along.forall_mem {P : σ → α → Prop} {Q : α → Prop} (h : Along step P s as)
    (hrun : run step s as = some t) (hQ : ∀ s a, P s a → Q a) : ∀ a ∈ as, Q a := by
  induction as generalizing s with
  | nil =>
    intro a ha
    cases ha
  | cons a as ih =>
    obtain ⟨u, hu, hrest⟩ := Option.bind_eq_some_iff.mp hrun
    obtain ⟨hp, halong⟩ := h u hu
    exact List.forall_mem_cons.mpr ⟨hQ s a hp, ih halong hrest⟩

theorem along_of_forall_mem {P : σ → α → Prop} (h : ∀ a ∈ as, ∀ s, P s a) : Along step P s as := by
  induction as generalizing s with
  | nil => trivial
  | cons a as ih =>
    exact fun t _ => ⟨h a List.mem_cons_self s, ih fun b hb => h b (List.mem_cons_of_mem _ hb)⟩

/-- When every other step leads out of `Q`, the condition is exact. -/
theorem always_iff_along {I Q : σ → Prop} {P : σ → α → Prop}
    (hstep : ∀ s a t, I s → P s a → step s a = some t → I t) (hQ : ∀ s, I s → Q s)
    (hbad : ∀ s a t, I s → ¬ P s a → step s a = some t → ¬ Q t) (hs : I s) :
    Always step Q s as ↔ Along step P s as := by
  refine ⟨fun h => ?_, always_of_along hstep hQ hs⟩
  induction as generalizing s with
  | nil => trivial
  | cons a as ih =>
    intro t ht
    have hrest := h.2 t ht
    have hqt : Q t := by
      cases as with
      | nil => exact hrest
      | cons b bs => exact hrest.1
    have hp : P s a := by
      by_contra hp
      exact hbad s a t hs hp ht hqt
    exact ⟨hp, ih (hstep s a t hs hp ht) hrest⟩

/-- What always holds holds at the end. -/
theorem Always.of_run {Q : σ → Prop} (h : Always step Q s as) (hrun : run step s as = some t) :
    Q t := by
  induction as generalizing s with
  | nil =>
    cases hrun
    exact h
  | cons a as ih =>
    obtain ⟨u, hu, hrest⟩ := Option.bind_eq_some_iff.mp hrun
    exact ih (h.2 u hu) hrest

/-- When the state remembers in `R` whether all steps so far met `P`, the state at the end tells
it of the whole run. -/
theorem along_iff_of_run {I R : σ → Prop} {P P' : σ → α → Prop}
    (hstep : ∀ s a t, I s → P' s a → step s a = some t → I t ∧ (R t ↔ R s ∧ P s a)) (hs : I s)
    (h : Along step P' s as) (hrun : run step s as = some t) :
    I t ∧ (R t ↔ R s ∧ Along step P s as) := by
  induction as generalizing s with
  | nil =>
    cases hrun
    exact ⟨hs, by simp [Along]⟩
  | cons a as ih =>
    obtain ⟨u, hu, hrest⟩ := Option.bind_eq_some_iff.mp hrun
    obtain ⟨hp, halong⟩ := h u hu
    obtain ⟨hi, hr⟩ := hstep s a u hs hp hu
    obtain ⟨hit, hrt⟩ := ih hi halong hrest
    refine ⟨hit, ?_⟩
    rw [hrt, hr, and_assoc]
    refine and_congr_right fun _ => ⟨fun h v hv => ?_, fun h => h u hu⟩
    rw [hu] at hv
    cases hv
    exact h

/-! ## Runs that end -/

/-- When each step makes a rank smaller, the rank bounds the length of a run. -/
theorem length_add_rank_le {I : σ → Prop} {P : σ → α → Prop} {rank : σ → Nat}
    (hstep : ∀ s a t, I s → P s a → step s a = some t → I t ∧ rank t < rank s) (hs : I s)
    (h : Along step P s as) (hrun : run step s as = some t) : as.length + rank t ≤ rank s := by
  induction as generalizing s with
  | nil =>
    cases hrun
    simp
  | cons a as ih =>
    obtain ⟨u, hu, hrest⟩ := Option.bind_eq_some_iff.mp hrun
    obtain ⟨hp, halong⟩ := h u hu
    obtain ⟨hi, hlt⟩ := hstep s a u hs hp hu
    have hle := ih hi halong hrest
    rw [List.length_cons]
    omega

/-- When moreover a step is possible wherever the goal is not yet reached, some run reaches it. -/
theorem exists_run_to {I Goal : σ → Prop} {P : σ → α → Prop} {rank : σ → Nat}
    (hstep : ∀ s a t, I s → P s a → step s a = some t → I t ∧ rank t < rank s)
    (hmove : ∀ s, I s → ¬ Goal s → ∃ a t, P s a ∧ step s a = some t) (hs : I s) :
    ∃ as t, run step s as = some t ∧ Along step P s as ∧ Goal t := by
  induction hn : rank s using Nat.strong_induction_on generalizing s with
  | _ n ih =>
    subst hn
    by_cases hgoal : Goal s
    · exact ⟨[], s, rfl, trivial, hgoal⟩
    · obtain ⟨a, u, hp, hu⟩ := hmove s hs hgoal
      obtain ⟨hi, hlt⟩ := hstep s a u hs hp hu
      obtain ⟨as, t, hrun, halong, ht⟩ := ih _ hlt hi rfl
      refine ⟨a :: as, t, (run_cons hu).trans hrun, fun v hv => ?_, ht⟩
      rw [hu] at hv
      cases hv
      exact ⟨hp, halong⟩

/-! ## Simulation -/

/-- When each step that meets the condition is matched by steps of another system, so is every
run of such steps. -/
theorem run_simulates {τ β : Type} {stepA : τ → β → Option τ} {R : σ → τ → Prop}
    {P : σ → α → Prop} (visible : α → List β)
    (hstep : ∀ s a t m, R s m → P s a → step s a = some t →
      ∃ n, run stepA m (visible a) = some n ∧ R t n)
    {m : τ} (hs : R s m) (h : Along step P s as) (hrun : run step s as = some t) :
    ∃ n, run stepA m (as.flatMap visible) = some n ∧ R t n := by
  induction as generalizing s m with
  | nil =>
    cases hrun
    exact ⟨m, rfl, hs⟩
  | cons a as ih =>
    obtain ⟨u, hu, hrest⟩ := Option.bind_eq_some_iff.mp hrun
    obtain ⟨hp, halong⟩ := h u hu
    obtain ⟨n, hn, hr⟩ := hstep s a u m hs hp hu
    obtain ⟨k, hk, hrk⟩ := ih hr halong hrest
    exact ⟨k, by rw [List.flatMap_cons, run_append hn, hk], hrk⟩

/-! ## What can be reached -/

/-- Steps that meet the condition lead from `s` to `t`. -/
def Leads (step : σ → α → Option σ) (P : σ → α → Prop) (s t : σ) : Prop :=
  ∃ as, run step s as = some t ∧ Along step P s as

theorem Leads.refl {P : σ → α → Prop} (s : σ) : Leads step P s s := ⟨[], rfl, trivial⟩

theorem Leads.single {P : σ → α → Prop} {a : α} (h : step s a = some t) (hp : P s a) :
    Leads step P s t := by
  refine ⟨[a], (run_cons h).trans rfl, fun u _ => ⟨hp, trivial⟩⟩

theorem Leads.trans {P : σ → α → Prop} {u : σ} (h : Leads step P s t) (h' : Leads step P t u) :
    Leads step P s u := by
  obtain ⟨as, hrun, halong⟩ := h
  obtain ⟨bs, hrun', halong'⟩ := h'
  exact ⟨as ++ bs, (run_append hrun).trans hrun', halong.append hrun halong'⟩

theorem Leads.keeps {I : σ → Prop} {P : σ → α → Prop}
    (hstep : ∀ s a t, I s → P s a → step s a = some t → I t) (h : Leads step P s t) (hs : I s) :
    I t := by
  obtain ⟨as, hrun, halong⟩ := h
  exact (always_of_along hstep (fun _ hi => hi) hs halong).of_run hrun

/-- When another system can match each step, it can match what the steps lead to. -/
theorem Leads.matched {τ β : Type} {stepA : τ → β → Option τ} {R : σ → τ → Prop}
    {P : σ → α → Prop} {PA : τ → β → Prop}
    (hstep : ∀ s a t m, R s m → P s a → step s a = some t → ∃ n, Leads stepA PA m n ∧ R t n)
    (h : Leads step P s t) {m : τ} (hs : R s m) : ∃ n, Leads stepA PA m n ∧ R t n := by
  obtain ⟨as, hrun, halong⟩ := h
  induction as generalizing s m with
  | nil =>
    cases hrun
    exact ⟨m, .refl m, hs⟩
  | cons a as ih =>
    obtain ⟨u, hu, hrest⟩ := Option.bind_eq_some_iff.mp hrun
    obtain ⟨hp, halong'⟩ := halong u hu
    obtain ⟨n, hn, hr⟩ := hstep s a u m hs hp hu
    obtain ⟨k, hk, hrk⟩ := ih hr hrest halong'
    exact ⟨k, hn.trans hk, hrk⟩

/-! ## A mutex -/

section Mutex

variable {ι : Type} [DecidableEq ι]

/-- A mutex is its holder, if it has one. -/
abbrev Mutex (ι : Type) := Option ι

inductive MutexAct (ι : Type)
  | acquire (i : ι)
  | release (i : ι)
deriving DecidableEq

/-- It is acquired only when free, and released only by its holder. -/
def mutexStep (m : Mutex ι) : MutexAct ι → Option (Mutex ι)
  | .acquire i => if m = none then some (some i) else none
  | .release i => if m = some i then some none else none

theorem mutexStep_acquire {m n : Mutex ι} {i : ι} :
    mutexStep m (.acquire i) = some n ↔ m = none ∧ n = some i := by
  simp [mutexStep, eq_comm]

theorem mutexStep_release {m n : Mutex ι} {i : ι} :
    mutexStep m (.release i) = some n ↔ m = some i ∧ n = none := by
  simp [mutexStep, eq_comm]

end Mutex

end interleaving
