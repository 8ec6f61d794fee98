import Mathlib.Data.List.Forall2

/-! # Simulating a fallible computation

Two computations are related when they both return, with related results, or both fail, with
related errors. The relation goes through binds and through loops that consume two lists in step.
-/
namespace Simulation
set_option autoImplicit false

universe u v
variable {ε ε' : Type*} {α β γ : Type u} {α' β' γ' : Type v}

inductive Rel (E : ε → ε' → Prop) (R : α → α' → Prop) : Except ε α → Except ε' α' → Prop
  | ok {a : α} {a' : α'} (h : R a a') : Rel E R (.ok a) (.ok a')
  | error {e : ε} {e' : ε'} (h : E e e') : Rel E R (.error e) (.error e')

namespace Rel
variable {E : ε → ε' → Prop} {R : α → α' → Prop} {x : Except ε α} {x' : Except ε' α'}

theorem bind {S : β → β' → Prop} {f : α → Except ε β} {f' : α' → Except ε' β'} (h : Rel E R x x')
    (hNext : ∀ a a', R a a' → Rel E S (f a) (f' a')) : Rel E S (x >>= f) (x' >>= f') := by
  cases h with
  | ok h => exact hNext _ _ h
  | error h => exact .error h

theorem flip (h : Rel E R x x') : Rel (fun e' e => E e e') (fun a' a => R a a') x' x := by
  cases h with
  | ok h => exact .ok h
  | error h => exact .error h

theorem exists_ok {a : α} (h : Rel E R x x') (hx : x = .ok a) : ∃ a', x' = .ok a' ∧ R a a' := by
  subst hx
  cases h with
  | ok h => exact ⟨_, rfl, h⟩

/-- Where the errors do not matter, it is enough that either success is matched. -/
theorem of_ok (hForward : ∀ a, x = .ok a → ∃ a', x' = .ok a' ∧ R a a')
    (hBackward : ∀ a', x' = .ok a' → ∃ a, x = .ok a) : Rel (fun _ _ => True) R x x' := by
  cases x with
  | ok a =>
    obtain ⟨a', rfl, h⟩ := hForward a rfl
    exact .ok h
  | error e =>
    cases x' with
    | ok a' =>
      obtain ⟨a, ha⟩ := hBackward a' rfl
      cases ha
    | error e' => exact .error trivial

/-- The invariant speaks about the items still to come. -/
theorem foldlM {R : List γ → List γ' → β → β' → Prop} {f : β → γ → Except ε β} {f' : β' → γ' → Except ε' β'}
    (hStep : ∀ c cs c' cs' b b', R (c :: cs) (c' :: cs') b b' → Rel E (R cs cs') (f b c) (f' b' c'))
    {cs : List γ} {cs' : List γ'} (hLength : cs.length = cs'.length) {b : β} {b' : β'} (h : R cs cs' b b') :
    Rel E (R [] []) (cs.foldlM f b) (cs'.foldlM f' b') := by
  induction cs generalizing cs' b b' with
  | nil =>
    obtain rfl := List.eq_nil_of_length_eq_zero hLength.symm
    exact .ok h
  | cons c cs ih =>
    cases cs' with
    | nil => cases hLength
    | cons c' cs' =>
      rw [List.foldlM_cons, List.foldlM_cons]
      exact (hStep c cs c' cs' b b' h).bind fun _ _ => ih (Nat.succ.inj hLength)

end Rel

/-! ## One run -/

/-- The invariant speaks about the items already consumed. -/
theorem foldlM_consumed {I : List γ → β → Prop} {f : β → γ → Except ε β}
    (hStep : ∀ cs c b b', I cs b → f b c = .ok b' → I (cs ++ [c]) b') {cs done : List γ} {b b' : β}
    (h : I done b) (hRun : cs.foldlM f b = .ok b') : I (done ++ cs) b' := by
  induction cs generalizing done b with
  | nil =>
    cases hRun
    rwa [List.append_nil]
  | cons c cs ih =>
    rw [List.foldlM_cons] at hRun
    cases hFirst : f b c with
    | error e =>
      rw [hFirst] at hRun
      cases hRun
    | ok next =>
      rw [hFirst] at hRun
      have hRest := ih (hStep done c b next h hFirst) hRun
      rwa [List.append_assoc] at hRest

/-- What a loop carries along, where its steps do not depend on it. -/
theorem foldlM_map_fst {f : α × β → γ → Except ε (α × β)} {g : α → γ → Except ε α}
    (hStep : ∀ a b c, (f (a, b) c).map Prod.fst = g a c) (cs : List γ) (a : α) (b : β) :
    (cs.foldlM f (a, b)).map Prod.fst = cs.foldlM g a := by
  induction cs generalizing a b with
  | nil => rfl
  | cons c cs ih =>
    have hFirst := hStep a b c
    rw [List.foldlM_cons, List.foldlM_cons, ← hFirst]
    cases f (a, b) c with
    | error e => rfl
    | ok next => exact ih next.1 next.2

/-! ## Lists in step -/

section Lists
variable {R S : α → α' → Prop} {as : List α} {bs : List α'}

theorem forall₂_imp_of_mem (h : List.Forall₂ R as bs) (hImp : ∀ a ∈ as, ∀ b ∈ bs, R a b → S a b) :
    List.Forall₂ S as bs := by
  induction h with
  | nil => exact .nil
  | cons h _ ih =>
    refine .cons (hImp _ List.mem_cons_self _ List.mem_cons_self h) (ih fun a ha b hb => ?_)
    exact hImp a (List.mem_cons_of_mem _ ha) b (List.mem_cons_of_mem _ hb)

theorem exists_left (h : List.Forall₂ R as bs) {b : α'} (hb : b ∈ bs) : ∃ a ∈ as, R a b := by
  induction h with
  | nil => cases hb
  | cons h _ ih =>
    obtain rfl | hb := List.mem_cons.mp hb
    · exact ⟨_, List.mem_cons_self, h⟩
    · obtain ⟨a, ha, hR⟩ := ih hb
      exact ⟨a, List.mem_cons_of_mem _ ha, hR⟩

theorem exists_right (h : List.Forall₂ R as bs) {a : α} (ha : a ∈ as) : ∃ b ∈ bs, R a b := exists_left h.flip ha

end Lists
end Simulation
