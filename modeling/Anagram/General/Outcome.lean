-- Computations that give a value or fail: the rules of one bind.
import Mathlib

namespace outcome

variable {ε α β : Type}

@[simp] theorem bind_ok (a : α) (f : α → Except ε β) : (Except.ok a >>= f) = f a := rfl

@[simp] theorem bind_error (e : ε) (f : α → Except ε β) :
    ((Except.error e : Except ε α) >>= f) = Except.error e := rfl

/-- A bind that gives a value has two halves that give one. -/
theorem bind_eq_ok {x : Except ε α} {f : α → Except ε β} {b : β} :
    (x >>= f) = .ok b ↔ ∃ a, x = .ok a ∧ f a = .ok b := by
  cases x with
  | error e => simp
  | ok a => simp

/-- A bind gives some value when its first half does, and the second half does for it. -/
theorem exists_ok_bind {x : Except ε α} {f : α → Except ε β} :
    (∃ b, (x >>= f) = .ok b) ↔ (∃ a, x = .ok a) ∧ ∀ a, x = .ok a → ∃ b, f a = .ok b := by
  cases x with
  | error e => simp
  | ok a => simp

/-- A mapped computation gives a value when the computation does. -/
theorem map_eq_ok {x : Except ε α} {f : α → β} {b : β} :
    x.map f = .ok b ↔ ∃ a, x = .ok a ∧ f a = b := by
  cases x with
  | error e => simp [Except.map]
  | ok a => simp [Except.map]

/-- A computation that carries more along: what it does to the rest is read off part by part. -/
theorem map_bind_eq {α' β' : Type} {p : α → α'} {q : β → β'} {x : Except ε α} {y : Except ε α'}
    {f : α → Except ε β} {g : α' → Except ε β'} (hx : x.map p = y)
    (hf : ∀ a, (f a).map q = g (p a)) : (x >>= f).map q = (y >>= g) := by
  subst hx
  cases x with
  | error e => rfl
  | ok a => exact hf a

/-- A loop gives a value when each turn does, as long as what holds after the turns done carries
the next one. -/
theorem foldlM_ok {f : β → α → Except ε β} {P : List α → β → Prop} (xs : List α)
    (step : ∀ done x rest s, xs = done ++ x :: rest → P done s →
      ∃ s', f s x = .ok s' ∧ P (done ++ [x]) s') {s : β} (h : P [] s) :
    ∃ s', xs.foldlM f s = .ok s' ∧ P xs s' := by
  suffices hgo : ∀ rest done s, xs = done ++ rest → P done s →
      ∃ s', rest.foldlM f s = .ok s' ∧ P xs s' from hgo xs [] s rfl h
  intro rest
  induction rest with
  | nil =>
    intro done s hxs hs
    rw [List.append_nil] at hxs
    exact ⟨s, rfl, hxs ▸ hs⟩
  | cons x rest ih =>
    intro done s hxs hs
    obtain ⟨s₁, hs₁, hP⟩ := step done x rest s hxs hs
    obtain ⟨s', hs', hP'⟩ := ih (done ++ [x]) s₁ (by simp [hxs]) hP
    refine ⟨s', ?_, hP'⟩
    rw [List.foldlM_cons, hs₁]
    exact hs'

/-- A loop that gives a value has another loop beside it do so too, when its turns keep up. -/
theorem foldlM_simulates {σ τ : Type} {f : σ → α → Except ε σ} {g : τ → α → Except ε τ}
    {Q : τ → σ → Prop} (xs : List α)
    (step : ∀ x ∈ xs, ∀ t s s', Q t s → f s x = .ok s' → ∃ t', g t x = .ok t' ∧ Q t' s')
    {t : τ} {s s' : σ} (h : Q t s) (hrun : xs.foldlM f s = .ok s') :
    ∃ t', xs.foldlM g t = .ok t' ∧ Q t' s' := by
  induction xs generalizing t s with
  | nil =>
    cases hrun
    exact ⟨t, rfl, h⟩
  | cons x xs ih =>
    rw [List.foldlM_cons] at hrun
    obtain ⟨s₁, hs₁, hrun⟩ := bind_eq_ok.mp hrun
    obtain ⟨t₁, ht₁, h₁⟩ := step x List.mem_cons_self t s s₁ h hs₁
    obtain ⟨t', ht', h'⟩ := ih (fun y hy => step y (List.mem_cons_of_mem _ hy)) h₁ hrun
    refine ⟨t', ?_, h'⟩
    rw [List.foldlM_cons, ht₁]
    exact ht'

/-- What a loop that ends leaves: what holds after the turns done carries each turn. -/
theorem foldlM_keeps {f : β → α → Except ε β} {I : List α → β → Prop} (xs : List α)
    (step : ∀ done x rest s s', xs = done ++ x :: rest → I done s → f s x = .ok s' →
      I (done ++ [x]) s') {s s' : β} (h : I [] s) (hrun : xs.foldlM f s = .ok s') : I xs s' := by
  suffices hgo : ∀ rest done s, xs = done ++ rest → I done s → rest.foldlM f s = .ok s' → I xs s'
    from hgo xs [] s rfl h hrun
  intro rest
  induction rest with
  | nil =>
    intro done s hxs hs hrun
    cases hrun
    rw [List.append_nil] at hxs
    exact hxs ▸ hs
  | cons x rest ih =>
    intro done s hxs hs hrun
    rw [List.foldlM_cons] at hrun
    obtain ⟨s₁, hs₁, hrun⟩ := bind_eq_ok.mp hrun
    exact ih (done ++ [x]) s₁ (by simp [hxs]) (step done x rest s s₁ hxs hs hs₁) hrun

/-! ## Two computations side by side -/

/-- Both give values in the relation, or both fail in the same way. -/
def Related (R : α → α → Prop) : Except ε α → Except ε α → Prop
  | .ok a, .ok b => R a b
  | .error e, .error e' => e = e'
  | _, _ => False

theorem related_bind {R : α → α → Prop} {S : β → β → Prop} {x y : Except ε α}
    {f g : α → Except ε β} (h : Related R x y) (hfg : ∀ a b, R a b → Related S (f a) (g b)) :
    Related S (x >>= f) (y >>= g) := by
  cases x with
  | error e =>
    cases y with
    | error e' => exact h
    | ok b => exact h.elim
  | ok a =>
    cases y with
    | error e' => exact h.elim
    | ok b => exact hfg a b h

/-- What follows is the same when it does not tell related values apart. -/
theorem bind_eq_of_related {R : α → α → Prop} {x y : Except ε α} {f : α → Except ε β}
    (h : Related R x y) (hf : ∀ a b, R a b → f a = f b) : (x >>= f) = (y >>= f) := by
  cases x with
  | error e =>
    cases y with
    | error e' => exact congrArg Except.error h
    | ok b => exact h.elim
  | ok a =>
    cases y with
    | error e' => exact h.elim
    | ok b => exact hf a b h

end outcome
