import Lox.Proofs.Step

/-!
# Steps side by side

Two steps are compared here that start in states related by `S`. They are parallel if both succeed,
with results related by `A`, or both fail, with errors related by `E`, and the states they end in
are related again. What is made of parallel steps is parallel, so it is enough to compare two
programs where they do something by themselves.

With equality for `S`, two programs are compared in one state. With one program on both sides, the
relations say what the program does not look at; and with a property in place of a relation, they
say what it keeps.
-/

namespace Lox.Step

variable {ε σ α β : Type} {S : σ → σ → Prop} {E : ε → ε → Prop} {A : α → α → Prop}
  {B : β → β → Prop}

/-- What two steps came to is the same but for these relations. -/
inductive Ends (S : σ → σ → Prop) (E : ε → ε → Prop) (A : α → α → Prop) :
    EStateM.Result ε σ α → EStateM.Result ε σ α → Prop where
  | ok {a a' : α} {s s' : σ} : A a a' → S s s' → Ends S E A (.ok a s) (.ok a' s')
  | error {e e' : ε} {s s' : σ} : E e e' → S s s' → Ends S E A (.error e s) (.error e' s')

/-- Results that are the same but for these relations, where no state is left to compare. -/
inductive SameOutcome (E : ε → ε → Prop) (A : α → α → Prop) :
    Except ε α → Except ε α → Prop where
  | ok {a a' : α} : A a a' → SameOutcome E A (.ok a) (.ok a')
  | error {e e' : ε} : E e e' → SameOutcome E A (.error e) (.error e')

theorem SameOutcome.bind {x x' : Except ε α} {f f' : α → Except ε β}
    (h : SameOutcome E A x x') (h' : ∀ a a', A a a' → SameOutcome E B (f a) (f' a')) :
    SameOutcome E B (x >>= f) (x' >>= f') := by
  cases h with
  | ok ha => exact h' _ _ ha
  | error he => exact .error he

theorem SameOutcome.imp {E' : ε → ε → Prop} {A' : α → α → Prop} {x x' : Except ε α}
    (h : SameOutcome E A x x') (hE : ∀ e e', E e e' → E' e e') (hA : ∀ a a', A a a' → A' a a') :
    SameOutcome E' A' x x' := by
  cases h with
  | ok ha => exact .ok (hA _ _ ha)
  | error he => exact .error (hE _ _ he)

/-- From related states, two steps come to the same but for these relations. -/
def Parallel (S : σ → σ → Prop) (E : ε → ε → Prop) (A : α → α → Prop) (x x' : EStateM ε σ α) :
    Prop :=
  ∀ s s', S s s' → Ends S E A (x s) (x' s')

/-- A step can give this result. -/
def Gives (x : EStateM ε σ α) (a : α) : Prop := ∃ s s', x s = .ok a s'

namespace Parallel

variable {x x' : EStateM ε σ α} {f f' : α → EStateM ε σ β}

theorem pure {a a' : α} (h : A a a') :
    Parallel S E A (Pure.pure a : EStateM ε σ α) (Pure.pure a') := fun _ _ hs => .ok h hs

theorem throw {e e' : ε} (h : E e e') :
    Parallel S E A (MonadExcept.throw e : EStateM ε σ α) (MonadExcept.throw e') :=
  fun _ _ hs => .error h hs

/-- The state is the first to be compared, as what a step looks at is in there. -/
theorem get : Parallel S E S (MonadState.get : EStateM ε σ σ) MonadState.get :=
  fun _ _ hs => .ok hs hs

theorem change {g g' : σ → σ} (h : ∀ s s', S s s' → S (g s) (g' s')) :
    Parallel S E (fun _ _ => True) (modify g : EStateM ε σ PUnit) (modify g') :=
  fun s s' hs => .ok trivial (h s s' hs)

/-- **The second steps are compared on related results**, which the first ones can give. -/
theorem bind (h : Parallel S E A x x')
    (h' : ∀ a a', A a a' → Gives x a → Parallel S E B (f a) (f' a')) :
    Parallel S E B (x >>= f) (x' >>= f') := by
  intro s s' hs
  have hends := h s s' hs
  cases hx : x s with
  | ok a s₁ =>
      rw [hx] at hends
      cases hx' : x' s' with
      | ok a' s₁' =>
          rw [hx'] at hends
          cases hends with
          | ok ha hs₁ =>
              rw [bind_of_ok hx, bind_of_ok hx']
              exact h' a a' ha ⟨s, s₁, hx⟩ s₁ s₁' hs₁
      | error e' s₁' => rw [hx'] at hends; cases hends
  | error e s₁ =>
      rw [hx] at hends
      cases hx' : x' s' with
      | ok a' s₁' => rw [hx'] at hends; cases hends
      | error e' s₁' =>
          rw [hx'] at hends
          cases hends with
          | error he hs₁ =>
              rw [bind_of_error hx, bind_of_error hx']
              exact .error he hs₁

end Parallel

end Lox.Step
