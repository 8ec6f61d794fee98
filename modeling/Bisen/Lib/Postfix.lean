import Mathlib.Order.BooleanAlgebra.Set
import Mathlib.Data.List.Basic

/-! # Boolean expressions in postfix form

A postfix token list is run on a stack over any carrier with a complement, a meet and a join.
Running the postorder of an expression pushes its value; conversely a list that leaves exactly
one value is the postorder of an expression. The converse goes through the free carrier, whose
values are the expressions themselves.
-/
namespace Postfix
set_option autoImplicit false

variable {α β γ : Type*}

inductive Expr (α : Type*) where
  | atom (a : α)
  | neg (e : Expr α)
  | conj (l r : Expr α)
  | disj (l r : Expr α)
  deriving DecidableEq, Repr

inductive Token (α : Type*) where
  | operand (a : α)
  | neg
  | conj
  | disj
  deriving DecidableEq, Repr

structure Ops (β : Type*) where
  neg : β → β
  conj : β → β → β
  disj : β → β → β

def Ops.boolean (β : Type*) [BooleanAlgebra β] : Ops β := ⟨(·ᶜ), (· ⊓ ·), (· ⊔ ·)⟩

def Ops.free (α : Type*) : Ops (Expr α) := ⟨.neg, .conj, .disj⟩

namespace Expr

def postorder : Expr α → List (Token α)
  | .atom a => [.operand a]
  | .neg e => e.postorder ++ [.neg]
  | .conj l r => l.postorder ++ r.postorder ++ [.conj]
  | .disj l r => l.postorder ++ r.postorder ++ [.disj]

def fold (O : Ops β) (ρ : α → β) : Expr α → β
  | .atom a => ρ a
  | .neg e => O.neg (e.fold O ρ)
  | .conj l r => O.conj (l.fold O ρ) (r.fold O ρ)
  | .disj l r => O.disj (l.fold O ρ) (r.fold O ρ)

def eval [BooleanAlgebra β] (ρ : α → β) (e : Expr α) : β := e.fold (.boolean β) ρ

@[simp] theorem eval_atom [BooleanAlgebra β] (ρ : α → β) (a : α) : (atom a).eval ρ = ρ a := rfl
@[simp] theorem eval_neg [BooleanAlgebra β] (ρ : α → β) (e : Expr α) : (neg e).eval ρ = (e.eval ρ)ᶜ := rfl
@[simp] theorem eval_conj [BooleanAlgebra β] (ρ : α → β) (l r : Expr α) :
    (conj l r).eval ρ = l.eval ρ ⊓ r.eval ρ := rfl
@[simp] theorem eval_disj [BooleanAlgebra β] (ρ : α → β) (l r : Expr α) :
    (disj l r).eval ρ = l.eval ρ ⊔ r.eval ρ := rfl

def map (f : α → γ) : Expr α → Expr γ
  | .atom a => .atom (f a)
  | .neg e => .neg (e.map f)
  | .conj l r => .conj (l.map f) (r.map f)
  | .disj l r => .disj (l.map f) (r.map f)

def atoms : Expr α → List α
  | .atom a => [a]
  | .neg e => e.atoms
  | .conj l r => l.atoms ++ r.atoms
  | .disj l r => l.atoms ++ r.atoms

end Expr

def Token.map (f : α → γ) : Token α → Token γ
  | .operand a => .operand (f a)
  | .neg => .neg
  | .conj => .conj
  | .disj => .disj

@[simp] theorem Expr.postorder_map (f : α → γ) (e : Expr α) :
    (e.map f).postorder = e.postorder.map (Token.map f) := by
  induction e with
  | atom a => rfl
  | neg e ih => simp [Expr.map, Expr.postorder, Token.map, ih]
  | conj l r ihl ihr => simp [Expr.map, Expr.postorder, Token.map, ihl, ihr]
  | disj l r ihl ihr => simp [Expr.map, Expr.postorder, Token.map, ihl, ihr]

theorem Expr.eval_map [BooleanAlgebra β] (f : α → γ) (ρ : γ → β) (e : Expr α) :
    (e.map f).eval ρ = e.eval (ρ ∘ f) := by
  induction e with
  | atom a => rfl
  | neg e ih => rw [Expr.map, eval_neg, eval_neg, ih]
  | conj l r ihl ihr => rw [Expr.map, eval_conj, eval_conj, ihl, ihr]
  | disj l r ihl ihr => rw [Expr.map, eval_disj, eval_disj, ihl, ihr]

theorem Expr.atoms_map (f : α → γ) (e : Expr α) : (e.map f).atoms = e.atoms.map f := by
  induction e with
  | atom a => rfl
  | neg e ih => exact ih
  | conj l r ihl ihr => rw [Expr.map, atoms, atoms, ihl, ihr, List.map_append]
  | disj l r ihl ihr => rw [Expr.map, atoms, atoms, ihl, ihr, List.map_append]

theorem Expr.eval_congr [BooleanAlgebra β] {ρ ρ' : α → β} {e : Expr α} (h : ∀ a ∈ e.atoms, ρ a = ρ' a) :
    e.eval ρ = e.eval ρ' := by
  induction e with
  | atom a => exact h a (List.mem_singleton_self a)
  | neg e ih => rw [eval_neg, eval_neg, ih h]
  | conj l r ihl ihr =>
    obtain ⟨hLeft, hRight⟩ := List.forall_mem_append.mp h
    rw [eval_conj, eval_conj, ihl hLeft, ihr hRight]
  | disj l r ihl ihr =>
    obtain ⟨hLeft, hRight⟩ := List.forall_mem_append.mp h
    rw [eval_disj, eval_disj, ihl hLeft, ihr hRight]

theorem Expr.mem_eval (ρ : α → Set γ) (e : Expr α) (i : γ) : i ∈ e.eval ρ ↔ e.eval fun a => i ∈ ρ a := by
  induction e with
  | atom a => exact Iff.rfl
  | neg e ih => exact not_congr ih
  | conj l r ihl ihr => exact and_congr ihl ihr
  | disj l r ihl ihr => exact or_congr ihl ihr

theorem Expr.eval_eq_true (ρ : α → Bool) (e : Expr α) : e.eval ρ = true ↔ e.eval fun a => ρ a = true := by
  induction e with
  | atom a => exact Iff.rfl
  | neg e ih =>
    change (!e.eval ρ) = true ↔ ¬ e.eval fun a => ρ a = true
    rw [← ih, Bool.not_eq_true', Bool.not_eq_true]
  | conj l r ihl ihr => exact (Bool.and_eq_true_iff).trans (and_congr ihl ihr)
  | disj l r ihl ihr => exact (Bool.or_eq_true_iff).trans (or_congr ihl ihr)

def operands : List (Token α) → List α
  | [] => []
  | .operand a :: ts => a :: operands ts
  | _ :: ts => operands ts

theorem operands_append (ts us : List (Token α)) : operands (ts ++ us) = operands ts ++ operands us := by
  induction ts with
  | nil => rfl
  | cons t ts ih =>
    cases t with
    | operand a => exact congrArg (List.cons a) ih
    | neg => exact ih
    | conj => exact ih
    | disj => exact ih

theorem operands_postorder (e : Expr α) : operands e.postorder = e.atoms := by
  induction e with
  | atom a => rfl
  | neg e ih => rw [Expr.postorder, operands_append, ih]; exact List.append_nil _
  | conj l r ihl ihr =>
    rw [Expr.postorder, operands_append, operands_append, ihl, ihr]
    exact List.append_nil _
  | disj l r ihl ihr =>
    rw [Expr.postorder, operands_append, operands_append, ihl, ihr]
    exact List.append_nil _

/-- Only a lone operand ends in an operand. -/
theorem Expr.postorder_operand {e : Expr α} {ts : List (Token α)} {a : α}
    (h : e.postorder = ts ++ [.operand a]) : ts = [] := by
  cases e with
  | atom b =>
    obtain ⟨hNil, _⟩ | ⟨_, hOperand⟩ := List.append_eq_singleton_iff.mp h.symm
    · exact hNil
    · cases hOperand
  | neg e => cases (List.append_inj' h rfl).2
  | conj l r => cases (List.append_inj' h rfl).2
  | disj l r => cases (List.append_inj' h rfl).2

theorem mem_operands {ts : List (Token α)} {a : α} (h : .operand a ∈ ts) : a ∈ operands ts := by
  induction ts with
  | nil => cases h
  | cons t ts ih =>
    obtain rfl | hTail := List.mem_cons.mp h
    · exact List.mem_cons_self
    · cases t with
      | operand b => exact List.mem_cons_of_mem _ (ih hTail)
      | neg => exact ih hTail
      | conj => exact ih hTail
      | disj => exact ih hTail

/-- One token on a stack whose head is its top; the right operand is popped first. -/
def step (O : Ops β) (ρ : α → β) : Token α → List β → Option (List β)
  | .operand a, s => some (ρ a :: s)
  | .neg, x :: s => some (O.neg x :: s)
  | .conj, y :: x :: s => some (O.conj x y :: s)
  | .disj, y :: x :: s => some (O.disj x y :: s)
  | _, _ => none

def run (O : Ops β) (ρ : α → β) : List (Token α) → List β → Option (List β)
  | [], s => some s
  | t :: ts, s => (step O ρ t s).bind (run O ρ ts)

theorem run_append (O : Ops β) (ρ : α → β) (ts us : List (Token α)) (s : List β) :
    run O ρ (ts ++ us) s = (run O ρ ts s).bind (run O ρ us) := by
  induction ts generalizing s with
  | nil => rfl
  | cons t ts ih =>
    rw [List.cons_append, run, run, Option.bind_assoc]
    exact congrArg _ (funext ih)

theorem run_map (O : Ops β) (f : α → γ) (ρ : γ → β) (ts : List (Token α)) (s : List β) :
    run O ρ (ts.map (Token.map f)) s = run O (ρ ∘ f) ts s := by
  induction ts generalizing s with
  | nil => rfl
  | cons t ts ih =>
    have hStep : step O ρ (t.map f) s = step O (ρ ∘ f) t s := by
      rcases t with a | _ | _ | _ <;> rcases s with _ | ⟨x, _ | ⟨y, s⟩⟩ <;> rfl
    rw [List.map_cons, run, run, hStep]
    exact congrArg _ (funext ih)

theorem run_postorder (O : Ops β) (ρ : α → β) (e : Expr α) (s : List β) :
    run O ρ e.postorder s = some (e.fold O ρ :: s) := by
  induction e generalizing s with
  | atom a => rfl
  | neg e ih => rw [Expr.postorder, run_append, ih]; rfl
  | conj l r ihl ihr => rw [Expr.postorder, run_append, run_append, ihl, Option.bind_some, ihr]; rfl
  | disj l r ihl ihr => rw [Expr.postorder, run_append, run_append, ihl, Option.bind_some, ihr]; rfl

theorem run_fold (O : Ops β) (ρ : α → β) (ts : List (Token α)) (s : List (Expr α)) :
    run O ρ ts (s.map (Expr.fold O ρ)) = (run (.free α) .atom ts s).map (List.map (Expr.fold O ρ)) := by
  induction ts generalizing s with
  | nil => rfl
  | cons t ts ih =>
    have hStep : step O ρ t (s.map (Expr.fold O ρ)) =
        (step (.free α) .atom t s).map (List.map (Expr.fold O ρ)) := by
      rcases t with a | _ | _ | _ <;> rcases s with _ | ⟨x, _ | ⟨y, s⟩⟩ <;> rfl
    rw [run, run, hStep]
    cases step (.free α) .atom t s with
    | none => rfl
    | some s' => exact ih s'

/-- What is on the stack, written out, is what was there followed by the tokens read. -/
theorem run_free_postorder (ts : List (Token α)) (s s' : List (Expr α))
    (h : run (.free α) .atom ts s = some s') :
    s'.reverse.flatMap Expr.postorder = s.reverse.flatMap Expr.postorder ++ ts := by
  induction ts generalizing s with
  | nil =>
    cases h
    rw [List.append_nil]
  | cons t ts ih =>
    obtain ⟨s₁, hStep, hRest⟩ := Option.bind_eq_some_iff.mp h
    have hWritten : s₁.reverse.flatMap Expr.postorder = s.reverse.flatMap Expr.postorder ++ [t] := by
      rcases t with a | _ | _ | _ <;> rcases s with _ | ⟨x, _ | ⟨y, s⟩⟩ <;> cases hStep <;>
        simp [Expr.postorder, Ops.free]
    rw [ih s₁ hRest, hWritten, List.append_assoc, List.singleton_append]

def WellFormed (ts : List (Token α)) : Prop := ∃ e : Expr α, e.postorder = ts

theorem run_eq_singleton_iff (O : Ops β) (ρ : α → β) (ts : List (Token α)) (b : β) :
    run O ρ ts [] = some [b] ↔ ∃ e : Expr α, e.postorder = ts ∧ e.fold O ρ = b := by
  constructor
  · intro h
    have hFree := run_fold O ρ ts []
    rw [List.map_nil, h] at hFree
    obtain ⟨s, hRun, hMap⟩ := Option.map_eq_some_iff.mp hFree.symm
    obtain ⟨e, rfl, hValue⟩ := List.map_eq_singleton_iff.mp hMap
    have hWritten := run_free_postorder ts [] [e] hRun
    exact ⟨e, by simpa using hWritten, hValue⟩
  · rintro ⟨e, rfl, rfl⟩
    exact run_postorder O ρ e []

theorem wellFormed_iff (O : Ops β) (ρ : α → β) (ts : List (Token α)) :
    WellFormed ts ↔ ∃ b, run O ρ ts [] = some [b] := by
  simp only [run_eq_singleton_iff]
  constructor
  · rintro ⟨e, he⟩
    exact ⟨_, e, he, rfl⟩
  · rintro ⟨_, e, he, _⟩
    exact ⟨e, he⟩

theorem not_wellFormed_neg (ts : List (Token α)) : ¬ WellFormed (.neg :: ts) := by
  rw [wellFormed_iff (.free α) .atom]
  rintro ⟨b, h⟩
  cases h

theorem wellFormed_map (f : α → γ) (ts : List (Token α)) :
    WellFormed (ts.map (Token.map f)) ↔ WellFormed ts := by
  rw [wellFormed_iff (.free γ) .atom, wellFormed_iff (.free γ) (Expr.atom ∘ f), run_map]

end Postfix
