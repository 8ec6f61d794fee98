import Mathlib.Order.Basic

/-! # Progress under weak fairness

As long as the goal is not met some actor helps: it can move, its moves lower the measure, and until it moves
every other move lowers the measure or leaves it helping.
-/
namespace Fairness
set_option autoImplicit false

variable {σ α : Type*}

/-- An infinite run whose steps are made by an actor, or by none. -/
structure Run (step : σ → Option α → σ → Prop) (enabled : α → σ → Prop) where
  state : Nat → σ
  actor : Nat → Option α
  steps : ∀ k, step (state k) (actor k) (state (k + 1))
  fair : ∀ a k, (∀ m, k ≤ m → enabled a (state m)) → ∃ m, k ≤ m ∧ actor m = some a

namespace Run
variable {step : σ → Option α → σ → Prop} {enabled : α → σ → Prop}

/-- Where nobody can move, doing nothing is fair. -/
def rest (s : σ) (hStay : step s none s) (hQuiet : ∀ a, ¬ enabled a s) : Run step enabled where
  state _ := s
  actor _ := none
  steps _ := hStay
  fair a k h := absurd (h k (Nat.le_refl k)) (hQuiet a)

/-- One step in front of a run. -/
def cons (s : σ) (a : Option α) (ρ : Run step enabled) (h : step s a (ρ.state 0)) : Run step enabled where
  state
    | 0 => s
    | k + 1 => ρ.state k
  actor
    | 0 => a
    | k + 1 => ρ.actor k
  steps
    | 0 => h
    | k + 1 => ρ.steps k
  fair b k hAll := by
    obtain ⟨m, hm, hActor⟩ := ρ.fair b k fun m hm => hAll (m + 1) (Nat.le_succ_of_le hm)
    exact ⟨m + 1, Nat.le_succ_of_le hm, hActor⟩

end Run

/-- What a step does that does not reach the goal. -/
structure Helps (step : σ → Option α → σ → Prop) (enabled : α → σ → Prop) (inv goal : σ → Prop)
    (measure : σ → Nat) (helper : σ → α) : Prop where
  enabled : ∀ s, inv s → ¬ goal s → enabled (helper s) s
  step : ∀ s a s', inv s → ¬ goal s → step s a s' →
    goal s' ∨ measure s' < measure s ∨ measure s' = measure s ∧ helper s' = helper s ∧ a ≠ some (helper s)

section Run
variable {step : σ → Option α → σ → Prop} {enabled : α → σ → Prop} {inv goal : σ → Prop} {measure : σ → Nat}
  {helper : σ → α} (ρ : Run step enabled)

/-- Without a lower measure the same actor helps for ever, and never moves. -/
theorem Run.helper_eq (hHelps : Helps step enabled inv goal measure helper) (hInv : ∀ k, inv (ρ.state k)) {k : Nat}
    (hGoal : ∀ m, k ≤ m → ¬ goal (ρ.state m))
    (hMeasure : ∀ m, k ≤ m → measure (ρ.state k) ≤ measure (ρ.state m)) (d : Nat) :
    measure (ρ.state (k + d)) = measure (ρ.state k) ∧ helper (ρ.state (k + d)) = helper (ρ.state k) ∧
      ρ.actor (k + d) ≠ some (helper (ρ.state k)) := by
  have hStep : ∀ e, measure (ρ.state (k + e)) = measure (ρ.state k) →
      measure (ρ.state (k + e + 1)) = measure (ρ.state (k + e)) ∧
        helper (ρ.state (k + e + 1)) = helper (ρ.state (k + e)) ∧
        ρ.actor (k + e) ≠ some (helper (ρ.state (k + e))) := by
    intro e hEq
    have hLe := hMeasure (k + e + 1) (by omega)
    obtain hMet | hLess | hSame :=
      hHelps.step _ _ _ (hInv _) (hGoal (k + e) (Nat.le_add_right k e)) (ρ.steps (k + e))
    · exact absurd hMet (hGoal _ (by omega))
    · omega
    · exact hSame
  have hAll : measure (ρ.state (k + d)) = measure (ρ.state k) ∧
      helper (ρ.state (k + d)) = helper (ρ.state k) := by
    induction d with
    | zero => exact ⟨rfl, rfl⟩
    | succ d ih =>
      obtain ⟨hNext, hHelper, _⟩ := hStep d ih.1
      exact ⟨hNext.trans ih.1, hHelper.trans ih.2⟩
  obtain ⟨hEq, hHelper⟩ := hAll
  obtain ⟨_, _, hActor⟩ := hStep d hEq
  rw [hHelper] at hActor
  exact ⟨hEq, hHelper, hActor⟩

theorem Run.reaches (hHelps : Helps step enabled inv goal measure helper) (hInv : ∀ k, inv (ρ.state k)) (k : Nat) :
    ∃ m, k ≤ m ∧ goal (ρ.state m) := by
  induction hn : measure (ρ.state k) using Nat.strongRecOn generalizing k with
  | _ n ih =>
    subst hn
    by_contra hNever
    have hGoal : ∀ m, k ≤ m → ¬ goal (ρ.state m) := fun m hm hMet => hNever ⟨m, hm, hMet⟩
    have hMeasure : ∀ m, k ≤ m → measure (ρ.state k) ≤ measure (ρ.state m) := by
      intro m hm
      by_contra hLess
      obtain ⟨m', hm', hMet⟩ := ih _ (Nat.lt_of_not_le hLess) m rfl
      exact hGoal m' (Nat.le_trans hm hm') hMet
    have hSame := ρ.helper_eq hHelps hInv hGoal hMeasure
    have hEnabled : ∀ m, k ≤ m → enabled (helper (ρ.state k)) (ρ.state m) := by
      intro m hm
      obtain ⟨d, rfl⟩ := Nat.exists_eq_add_of_le hm
      rw [← (hSame d).2.1]
      exact hHelps.enabled _ (hInv _) (hGoal _ hm)
    obtain ⟨m, hm, hActor⟩ := ρ.fair _ k hEnabled
    obtain ⟨d, rfl⟩ := Nat.exists_eq_add_of_le hm
    exact (hSame d).2.2 hActor

end Run
end Fairness
