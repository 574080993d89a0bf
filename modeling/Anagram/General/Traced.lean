-- Computations that keep a record of their steps, up to the step at which they
-- fail. The record tells what a run did on the way to its value.
import Anagram.General.Outcome

open outcome

namespace traced

variable {τ ε α β : Type}

/-- A computation with the record of its steps, oldest first. -/
structure Traced (τ ε α : Type) where
  steps : List τ
  result : Except ε α

/-- A computation that is one step. -/
def note (t : τ) (x : Except ε α) : Traced τ ε α := ⟨[t], x⟩

/-- A computation without a step. -/
def quiet (x : Except ε α) : Traced τ ε α := ⟨[], x⟩

/-- One computation after another, which takes no step when the first one has failed. -/
def Traced.bind (x : Traced τ ε α) (f : α → Traced τ ε β) : Traced τ ε β :=
  match x.result with
  | .ok a => ⟨x.steps ++ (f a).steps, (f a).result⟩
  | .error e => ⟨x.steps, .error e⟩

instance : Monad (Traced τ ε) where
  pure a := quiet (.ok a)
  bind := Traced.bind

/-! ## Steps and results -/

@[simp] theorem steps_note (t : τ) (x : Except ε α) : (note t x).steps = [t] := rfl

@[simp] theorem result_note (t : τ) (x : Except ε α) : (note t x).result = x := rfl

@[simp] theorem steps_quiet (x : Except ε α) : (quiet x : Traced τ ε α).steps = [] := rfl

@[simp] theorem result_quiet (x : Except ε α) : (quiet x : Traced τ ε α).result = x := rfl

@[simp] theorem steps_pure (a : α) : (pure a : Traced τ ε α).steps = [] := rfl

@[simp] theorem result_pure (a : α) : (pure a : Traced τ ε α).result = .ok a := rfl

theorem bind_of_ok {x : Traced τ ε α} {a : α} (h : x.result = .ok a) (f : α → Traced τ ε β) :
    (x >>= f) = ⟨x.steps ++ (f a).steps, (f a).result⟩ := by
  change Traced.bind x f = _
  unfold Traced.bind
  rw [h]

theorem bind_of_error {x : Traced τ ε α} {e : ε} (h : x.result = .error e)
    (f : α → Traced τ ε β) : (x >>= f) = ⟨x.steps, .error e⟩ := by
  change Traced.bind x f = _
  unfold Traced.bind
  rw [h]

@[simp] theorem result_bind (x : Traced τ ε α) (f : α → Traced τ ε β) :
    (x >>= f).result = x.result >>= fun a => (f a).result := by
  cases h : x.result with
  | error e => rw [bind_of_error h, bind_error]
  | ok a => rw [bind_of_ok h, bind_ok]

theorem steps_bind_pure (x : Traced τ ε α) (f : α → β) :
    (do let a ← x; pure (f a)).steps = x.steps := by
  cases h : x.result with
  | error e => rw [bind_of_error h]
  | ok a => rw [bind_of_ok h, steps_pure, List.append_nil]

@[simp] theorem note_ok_bind (t : τ) (a : α) (f : α → Traced τ ε β) :
    (note t (.ok a) >>= f) = ⟨t :: (f a).steps, (f a).result⟩ := rfl

@[simp] theorem note_error_bind (t : τ) (e : ε) (f : α → Traced τ ε β) :
    (note t (.error e) >>= f) = ⟨[t], .error e⟩ := rfl

@[simp] theorem quiet_ok_bind (a : α) (f : α → Traced τ ε β) : (quiet (.ok a) >>= f) = f a := rfl

@[simp] theorem quiet_error_bind (e : ε) (f : α → Traced τ ε β) :
    (quiet (.error e) >>= f) = ⟨[], .error e⟩ := rfl

/-- A step of a sequence is one of its first part, or one of the second part after the first has
ended. -/
theorem mem_steps_bind {x : Traced τ ε α} {f : α → Traced τ ε β} {t : τ} :
    t ∈ (x >>= f).steps ↔ t ∈ x.steps ∨ ∃ a, x.result = .ok a ∧ t ∈ (f a).steps := by
  cases h : x.result with
  | error e => simp [bind_of_error h]
  | ok a => simp [bind_of_ok h]

theorem all_steps_bind {x : Traced τ ε α} {f : α → Traced τ ε β} {P : τ → Prop} :
    (∀ t ∈ (x >>= f).steps, P t) ↔
      (∀ t ∈ x.steps, P t) ∧ ∀ a, x.result = .ok a → ∀ t ∈ (f a).steps, P t := by
  simp only [mem_steps_bind]
  constructor
  · exact fun h => ⟨fun t ht => h t (Or.inl ht), fun a ha t ht => h t (Or.inr ⟨a, ha, ht⟩)⟩
  · rintro ⟨hfirst, hthen⟩ t (ht | ⟨a, ha, ht⟩)
    · exact hfirst t ht
    · exact hthen a ha t ht

/-- What takes no step leaves the steps to what follows it. -/
theorem all_steps_quiet_bind {x : Except ε α} {f : α → Traced τ ε β} {P : τ → Prop} :
    (∀ t ∈ ((quiet x : Traced τ ε α) >>= f).steps, P t) ↔
      ∀ a, x = .ok a → ∀ t ∈ (f a).steps, P t := by
  rw [all_steps_bind]
  exact ⟨fun h => h.2, fun h => ⟨by simp, h⟩⟩

theorem all_steps_note (t : τ) (x : Except ε α) {P : τ → Prop} :
    (∀ u ∈ (note t x).steps, P u) ↔ P t := by simp

/-! ## Loops -/

theorem result_foldlM (f : β → α → Traced τ ε β) (xs : List α) (s : β) :
    (xs.foldlM f s).result = xs.foldlM (fun s x => (f s x).result) s := by
  induction xs generalizing s with
  | nil => rfl
  | cons x xs ih =>
    rw [List.foldlM_cons, List.foldlM_cons, result_bind]
    simp only [ih]

/-- A loop ends when each turn does whose steps have a property, and then all turns have been
taken: what holds after the turns done carries the next one. -/
theorem foldlM_ok_of_steps {f : β → α → Traced τ ε β} {P : τ → Prop} {I : List α → β → Prop}
    (xs : List α)
    (step : ∀ done x rest s, xs = done ++ x :: rest → I done s → (∀ t ∈ (f s x).steps, P t) →
      ∃ s', (f s x).result = .ok s' ∧ I (done ++ [x]) s') {s : β} (h : I [] s)
    (hall : ∀ t ∈ (xs.foldlM f s).steps, P t) :
    ∃ s', (xs.foldlM f s).result = .ok s' ∧ I xs s' := by
  suffices hgo : ∀ rest done s, xs = done ++ rest → I done s →
      (∀ t ∈ (rest.foldlM f s).steps, P t) →
      ∃ s', (rest.foldlM f s).result = .ok s' ∧ I xs s' from hgo xs [] s rfl h hall
  intro rest
  induction rest with
  | nil =>
    intro done s hxs hs _
    rw [List.append_nil] at hxs
    exact ⟨s, rfl, hxs ▸ hs⟩
  | cons x rest ih =>
    intro done s hxs hs hall
    rw [List.foldlM_cons, all_steps_bind] at hall
    obtain ⟨s₁, hs₁, hI⟩ := step done x rest s hxs hs hall.1
    obtain ⟨s', hs', hI'⟩ := ih (done ++ [x]) s₁ (by simp [hxs]) hI (hall.2 s₁ hs₁)
    refine ⟨s', ?_, hI'⟩
    rw [List.foldlM_cons, result_bind, hs₁, bind_ok]
    exact hs'

/-- The steps of a loop have a property when those of each turn do. -/
theorem all_steps_foldlM {f : β → α → Traced τ ε β} {P : τ → Prop} {I : β → Prop} (xs : List α)
    (step : ∀ x ∈ xs, ∀ s, I s →
      (∀ t ∈ (f s x).steps, P t) ∧ ∀ s', (f s x).result = .ok s' → I s') {s : β} (h : I s) :
    (∀ t ∈ (xs.foldlM f s).steps, P t) ∧ ∀ s', (xs.foldlM f s).result = .ok s' → I s' := by
  induction xs generalizing s with
  | nil =>
    refine ⟨by simp, fun s' hs' => ?_⟩
    cases hs'
    exact h
  | cons x xs ih =>
    obtain ⟨hfirst, hnext⟩ := step x List.mem_cons_self s h
    have hrest := fun s₁ (hs₁ : (f s x).result = .ok s₁) =>
      ih (fun y hy => step y (List.mem_cons_of_mem _ hy)) (hnext s₁ hs₁)
    rw [List.foldlM_cons, all_steps_bind]
    refine ⟨⟨hfirst, fun s₁ hs₁ => (hrest s₁ hs₁).1⟩, fun s' hs' => ?_⟩
    rw [result_bind] at hs'
    obtain ⟨s₁, hs₁, hs'⟩ := bind_eq_ok.mp hs'
    exact (hrest s₁ hs₁).2 s' hs'

end traced
