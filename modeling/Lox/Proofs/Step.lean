/-!
# Steps that may fail

Parsing, resolving and evaluating are steps of a state, and each of them may fail. What a step
made of two steps does is decided by what the two do, and that is said here once.

A step that fails leaves a state too. `Leads` is about that state, and does not ask how the step
ended. `Ensures` is about an invariant of the states, and about what a step gives if it succeeds.
-/

namespace Lox.Step

variable {ε σ α β : Type} {x : EStateM ε σ α} {f : α → EStateM ε σ β} {s s' s₁ : σ}

/-- The second step starts where the first one ended. -/
theorem bind_of_ok {a : α} (h : x s = .ok a s₁) : (x >>= f) s = f a s₁ := by
  show EStateM.bind x f s = _
  rw [EStateM.bind, h]

/-- A first step that fails is the end. -/
theorem bind_of_error {e : ε} (h : x s = .error e s₁) : (x >>= f) s = .error e s₁ := by
  show EStateM.bind x f s = _
  rw [EStateM.bind, h]

/-- Two steps succeed if the first one does and then the second one. -/
theorem bind_ok {a : α} {b : β} (h : x s = .ok a s₁) (hf : f a s₁ = .ok b s') :
    (x >>= f) s = .ok b s' := (bind_of_ok h).trans hf

/-- And they do not succeed in any other way. -/
theorem bind_eq_ok {b : β} :
    (x >>= f) s = .ok b s' ↔ ∃ a s₁, x s = .ok a s₁ ∧ f a s₁ = .ok b s' := by
  cases hx : x s with
  | ok a s₁ =>
      rw [bind_of_ok hx]
      constructor
      · intro h; exact ⟨a, s₁, rfl, h⟩
      · rintro ⟨_, _, h, hf⟩; cases h; exact hf
  | error e s₁ =>
      rw [bind_of_error hx]
      constructor
      · intro h; cases h
      · rintro ⟨_, _, h, _⟩; cases h

/-- Two steps fail if the first one does, or else the second one. -/
theorem bind_eq_error {e : ε} :
    (x >>= f) s = .error e s' ↔
      x s = .error e s' ∨ ∃ a s₁, x s = .ok a s₁ ∧ f a s₁ = .error e s' := by
  cases hx : x s with
  | ok a s₁ =>
      rw [bind_of_ok hx]
      constructor
      · intro h; exact Or.inr ⟨a, s₁, rfl, h⟩
      · rintro (h | ⟨_, _, h, hf⟩)
        · cases h
        · cases h; exact hf
  | error e' s₁ =>
      rw [bind_of_error hx]
      constructor
      · intro h; cases h; exact Or.inl rfl
      · rintro (h | ⟨_, _, h, _⟩)
        · cases h; rfl
        · cases h

/-- A step whose result is only made into something else fails as it does without that. -/
theorem bind_pure_eq_error {g : α → β} {e : ε} :
    (x >>= fun a => pure (g a)) s = .error e s' ↔ x s = .error e s' := by
  rw [bind_eq_error]
  constructor
  · rintro (h | ⟨_, _, _, hf⟩)
    · exact h
    · cases hf
  · intro h
    exact Or.inl h

theorem pure_eq_ok {a b : α} : (pure a : EStateM ε σ α) s = .ok b s' ↔ a = b ∧ s = s' := by
  show EStateM.Result.ok a s = .ok b s' ↔ _
  constructor
  · intro h; cases h; exact ⟨rfl, rfl⟩
  · rintro ⟨rfl, rfl⟩; rfl

/-- What is done finally is done behind a step that succeeds. -/
theorem finally_of_ok {g : σ → σ} {a : α} (h : x s = .ok a s') :
    (try x finally modify g : EStateM ε σ α) s = .ok a (g s') := by
  simp only [tryFinally, tryFinally', Functor.map, EStateM.map, h]
  rfl

/-- And it is done behind a step that fails. -/
theorem finally_of_error {g : σ → σ} {e : ε} (h : x s = .error e s') :
    (try x finally modify g : EStateM ε σ α) s = .error e (g s') := by
  simp only [tryFinally, tryFinally', Functor.map, EStateM.map, h]
  rfl

/-! ## Where a step ends -/

/-- The state a step ends in, whether or not it fails. -/
def after : EStateM.Result ε σ α → σ
  | .ok _ s => s
  | .error _ s => s

/-- What a step gives, without the state it ends in. -/
def outcome : EStateM.Result ε σ α → Except ε α
  | .ok a _ => .ok a
  | .error e _ => .error e

/-- A step that always ends in a state related to the one it started in. -/
def Leads (R : σ → σ → Prop) (x : EStateM ε σ α) : Prop := ∀ s, R s (after (x s))

/-- Two steps lead as far as a transitive relation goes, also if the second one is not made. -/
theorem Leads.bind {R : σ → σ → Prop} (htrans : ∀ {a b c}, R a b → R b c → R a c)
    (h : Leads R x) (h' : ∀ a, Leads R (f a)) : Leads R (x >>= f) := by
  intro s
  have hs := h s
  cases hx : x s with
  | ok a s₁ =>
      rw [hx] at hs
      rw [bind_of_ok hx]
      exact htrans hs (h' a s₁)
  | error e s₁ =>
      rw [hx] at hs
      rw [bind_of_error hx]
      exact hs

/-- From states with a property a step leads to such states, and if it gives anything then something
that has a property too. -/
def Ensures (P : σ → Prop) (Q : α → Prop) (x : EStateM ε σ α) : Prop :=
  ∀ s, P s → P (after (x s)) ∧ ∀ a s', x s = .ok a s' → Q a

section

variable {P : σ → Prop} {Q : α → Prop} {R : β → Prop}

theorem Ensures.pure {a : α} (h : Q a) : Ensures P Q (Pure.pure a : EStateM ε σ α) := by
  intro s hs
  refine ⟨hs, fun b s' hgives => ?_⟩
  cases hgives
  exact h

theorem Ensures.throw (e : ε) : Ensures P Q (MonadExcept.throw e : EStateM ε σ α) :=
  fun _ hs => ⟨hs, nofun⟩

/-- The second step can count on what the first one gives. -/
theorem Ensures.bind (h : Ensures P Q x) (h' : ∀ a, Q a → Ensures P R (f a)) :
    Ensures P R (x >>= f) := by
  intro s hs
  obtain ⟨hafter, hgives⟩ := h s hs
  cases hx : x s with
  | ok a s₁ =>
      rw [hx] at hafter
      rw [bind_of_ok hx]
      exact h' a (hgives a s₁ hx) s₁ hafter
  | error e s₁ =>
      rw [hx] at hafter
      rw [bind_of_error hx]
      exact ⟨hafter, nofun⟩

end

end Lox.Step
