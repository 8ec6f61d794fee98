import Bisen.Lib.ReadOnce
import Bisen.SseClient
import Mathlib.Data.Nat.Bits
import Mathlib.Tactic.Tauto

/-! # Infix queries and what the parser makes of them

An infix query is a tree of words, negations, conjunctions, disjunctions and parentheses. Its
tokens are parsed by precedence when no operator stands under one that binds tighter. The parser
pops a `!` that stands directly before another `!`, so that it lands behind whatever was complete
by then; `coded` is the expression that comes out.
-/
namespace Bisen
open Wire QueryParser
set_option autoImplicit false

inductive Infix (α : Type) where
  | word (a : α)
  | not (e : Infix α)
  | and (e f : Infix α)
  | or (e f : Infix α)
  | paren (e : Infix α)
  deriving DecidableEq, Repr

namespace Infix
variable {α β : Type}

def tokens : Infix Bytes → List ClientToken
  | .word w => [wordTkn w]
  | .not e => opTkn notToken :: e.tokens
  | .and e f => e.tokens ++ opTkn andToken :: f.tokens
  | .or e f => e.tokens ++ opTkn orToken :: f.tokens
  | .paren e => opTkn openToken :: e.tokens ++ [opTkn closeToken]

def level : Infix α → Int
  | .word _ => 3
  | .not _ => 3
  | .and _ _ => 2
  | .or _ _ => 1
  | .paren _ => 3

/-- Every operand binds at least as tightly as its context, on the right of a binary operator more
tightly. -/
def Respects : Infix α → Prop
  | .word _ => True
  | .not e => 3 ≤ e.level ∧ e.Respects
  | .and e f => 2 ≤ e.level ∧ 3 ≤ f.level ∧ e.Respects ∧ f.Respects
  | .or e f => 2 ≤ f.level ∧ e.Respects ∧ f.Respects
  | .paren e => e.Respects

def expr : Infix α → Postfix.Expr α
  | .word a => .atom a
  | .not e => .neg e.expr
  | .and e f => .conj e.expr f.expr
  | .or e f => .disj e.expr f.expr
  | .paren e => e.expr

def words : Infix α → List α
  | .word a => [a]
  | .not e => e.words
  | .and e f => e.words ++ f.words
  | .or e f => e.words ++ f.words
  | .paren e => e.words

def map (g : α → β) : Infix α → Infix β
  | .word a => .word (g a)
  | .not e => .not (e.map g)
  | .and e f => .and (e.map g) (f.map g)
  | .or e f => .or (e.map g) (f.map g)
  | .paren e => .paren (e.map g)

/-! ## Negations that come out too early -/

def isNot : Infix α → Bool
  | .not _ => true
  | _ => false

/-- The number of `!` written before the first word. -/
def surplus : Infix α → Nat
  | .word _ => 0
  | .not e => if e.isNot then e.surplus + 1 else e.surplus
  | .and e _ => e.surplus
  | .or e _ => e.surplus
  | .paren e => e.surplus

def coded : Infix α → Postfix.Expr α
  | .word a => .atom a
  | .not e => if e.isNot then e.coded else .neg e.coded
  | .and e f => .conj (Postfix.Expr.neg^[f.surplus] e.coded) f.coded
  | .or e f => .disj (Postfix.Expr.neg^[f.surplus] e.coded) f.coded
  | .paren e => e.coded

def rpn (e : Infix α) : List (Postfix.Token α) := List.replicate e.surplus .neg ++ e.coded.postorder

/-- Whether an odd number of its own `!` is missing. -/
def inverted : Infix α → Bool
  | .word _ => false
  | .not e => if e.isNot then !e.inverted else e.inverted
  | .and _ _ => false
  | .or _ _ => false
  | .paren e => e.inverted

/-- Behind every binary operator, no `!` is missing, and before it those that are missing come back
from behind it, always up to an even number. -/
def Balanced : Infix α → Prop
  | .word _ => True
  | .not e => e.Balanced
  | .and e f => e.Balanced ∧ f.Balanced ∧ e.inverted = f.surplus.bodd ∧ f.inverted = false
  | .or e f => e.Balanced ∧ f.Balanced ∧ e.inverted = f.surplus.bodd ∧ f.inverted = false
  | .paren e => e.Balanced

theorem inverted_of_surplus {e : Infix α} (h : e.surplus = 0) : e.inverted = false := by
  induction e with
  | word a => rfl
  | not e ih =>
    rw [surplus] at h
    rw [inverted]
    split at h
    · cases h
    · case isFalse hNot =>
      rw [if_neg hNot]
      exact ih h
  | and e f => rfl
  | or e f => rfl
  | paren e ih => exact ih h

theorem atoms_neg_iterate (n : Nat) (x : Postfix.Expr α) : (Postfix.Expr.neg^[n] x).atoms = x.atoms := by
  induction n generalizing x with
  | zero => rfl
  | succ n ih => exact ih (.neg x)

theorem atoms_coded (e : Infix α) : e.coded.atoms = e.words := by
  induction e with
  | word a => rfl
  | not e ih =>
    rw [coded, words, ← ih]
    split <;> rfl
  | and e f ihe ihf => rw [coded, words, Postfix.Expr.atoms, atoms_neg_iterate, ihe, ihf]
  | or e f ihe ihf => rw [coded, words, Postfix.Expr.atoms, atoms_neg_iterate, ihe, ihf]
  | paren e ih => exact ih

section Map
variable (g : α → β) (e : Infix α)

theorem map_map {γ : Type} (g' : β → γ) : (e.map g).map g' = e.map (g' ∘ g) := by
  induction e with
  | word a => rfl
  | not e ih => exact congrArg Infix.not ih
  | and e f ihe ihf => exact congrArg₂ Infix.and ihe ihf
  | or e f ihe ihf => exact congrArg₂ Infix.or ihe ihf
  | paren e ih => exact congrArg Infix.paren ih

theorem map_id : e.map id = e := by
  induction e with
  | word a => rfl
  | not e ih => exact congrArg Infix.not ih
  | and e f ihe ihf => exact congrArg₂ Infix.and ihe ihf
  | or e f ihe ihf => exact congrArg₂ Infix.or ihe ihf
  | paren e ih => exact congrArg Infix.paren ih

theorem words_map : (e.map g).words = e.words.map g := by
  induction e with
  | word a => rfl
  | not e ih => exact ih
  | and e f ihe ihf => rw [map, words, words, List.map_append, ihe, ihf]
  | or e f ihe ihf => rw [map, words, words, List.map_append, ihe, ihf]
  | paren e ih => exact ih

@[simp] theorem isNot_map : (e.map g).isNot = e.isNot := by
  cases e <;> rfl

@[simp] theorem surplus_map : (e.map g).surplus = e.surplus := by
  induction e with
  | word a => rfl
  | not e ih => rw [map, surplus, surplus, isNot_map, ih]
  | and e f ih _ => exact ih
  | or e f ih _ => exact ih
  | paren e ih => exact ih

@[simp] theorem inverted_map : (e.map g).inverted = e.inverted := by
  induction e with
  | word a => rfl
  | not e ih => rw [map, inverted, inverted, isNot_map, ih]
  | and e f _ _ => rfl
  | or e f _ _ => rfl
  | paren e ih => exact ih

theorem balanced_map : (e.map g).Balanced ↔ e.Balanced := by
  induction e with
  | word a => exact Iff.rfl
  | not e ih => exact ih
  | and e f ihe ihf => simp only [map, Balanced, inverted_map, surplus_map, ihe, ihf]
  | or e f ihe ihf => simp only [map, Balanced, inverted_map, surplus_map, ihe, ihf]
  | paren e ih => exact ih

theorem expr_map : (e.map g).expr = e.expr.map g := by
  induction e with
  | word a => rfl
  | not e ih => exact congrArg Postfix.Expr.neg ih
  | and e f ihe ihf => exact congrArg₂ Postfix.Expr.conj ihe ihf
  | or e f ihe ihf => exact congrArg₂ Postfix.Expr.disj ihe ihf
  | paren e ih => exact ih

theorem map_neg_iterate (n : Nat) (x : Postfix.Expr α) :
    (Postfix.Expr.neg^[n] x).map g = Postfix.Expr.neg^[n] (x.map g) := by
  induction n generalizing x with
  | zero => rfl
  | succ n ih => exact ih (.neg x)

theorem coded_map : (e.map g).coded = e.coded.map g := by
  induction e with
  | word a => rfl
  | not e ih =>
    rw [map, coded, coded, isNot_map, ih]
    split <;> rfl
  | and e f ihe ihf => rw [map, coded, coded, Postfix.Expr.map, map_neg_iterate, surplus_map, ihe, ihf]
  | or e f ihe ihf => rw [map, coded, coded, Postfix.Expr.map, map_neg_iterate, surplus_map, ihe, ihf]
  | paren e ih => exact ih

theorem rpn_map : (e.map g).rpn = e.rpn.map (Postfix.Token.map g) := by
  rw [rpn, rpn, surplus_map, coded_map, Postfix.Expr.postorder_map, List.map_append, List.map_replicate]
  rfl

end Map

theorem operands_replicate_neg (n : Nat) :
    Postfix.operands (List.replicate n (.neg : Postfix.Token α)) = [] := by
  induction n with
  | zero => rfl
  | succ n ih => exact ih

theorem operands_rpn (e : Infix α) : Postfix.operands e.rpn = e.words := by
  rw [rpn, Postfix.operands_append, operands_replicate_neg, Postfix.operands_postorder, atoms_coded]
  rfl

section Values
variable [BooleanAlgebra β] (ρ : α → β)

theorem eval_neg_iterate (n : Nat) (x : Postfix.Expr α) :
    (Postfix.Expr.neg^[n] x).eval ρ = if n.bodd then (x.eval ρ)ᶜ else x.eval ρ := by
  induction n generalizing x with
  | zero => rfl
  | succ n ih =>
    rw [Function.iterate_succ_apply, ih, Nat.bodd_succ, Postfix.Expr.eval_neg]
    cases n.bodd <;> simp

/-- On a balanced query, the negations that are missing are those at its front. -/
theorem eval_coded {e : Infix α} (h : e.Balanced) :
    e.coded.eval ρ = if e.inverted then (e.expr.eval ρ)ᶜ else e.expr.eval ρ := by
  induction e with
  | word a => rfl
  | not e ih =>
    rw [coded, inverted, expr, Postfix.Expr.eval_neg]
    split
    · rw [ih h]
      cases e.inverted <;> simp
    · rw [Postfix.Expr.eval_neg, ih h]
      cases e.inverted <;> simp
  | and e f ihe ihf =>
    obtain ⟨he, hf, hLeft, hRight⟩ := h
    rw [coded, expr, Postfix.Expr.eval_conj, Postfix.Expr.eval_conj, eval_neg_iterate, ihe he, ihf hf, hLeft,
      hRight]
    cases f.surplus.bodd <;> simp [inverted]
  | or e f ihe ihf =>
    obtain ⟨he, hf, hLeft, hRight⟩ := h
    rw [coded, expr, Postfix.Expr.eval_disj, Postfix.Expr.eval_disj, eval_neg_iterate, ihe he, ihf hf, hLeft,
      hRight]
    cases f.surplus.bodd <;> simp [inverted]
  | paren e ih => exact ih h

end Values

/-! ## Every other query goes wrong -/

section Pairs
open ReadOnce

/-- What the coded expression and the meant one can both be, over all values of the words. -/
def pairs : Infix α → Pairs
  | .word _ => input
  | .not e => invert (!e.isNot) true e.pairs
  | .and e f => combine Bool.and (invert f.surplus.bodd false e.pairs) f.pairs
  | .or e f => combine Bool.or (invert f.surplus.bodd false e.pairs) f.pairs
  | .paren e => e.pairs

theorem varied_pairs (e : Infix α) : Varied e.pairs := by
  induction e with
  | word a => exact varied_input
  | not e ih => exact ih.invert _ _
  | and e f ihe ihf => exact (ihe.invert _ _).combine gate_and ihf
  | or e f ihe ihf => exact (ihe.invert _ _).combine gate_or ihf
  | paren e ih => exact ih

theorem differs_and_agrees_gate {op : Bool → Bool → Bool} {u : Bool} (hGate : Gate op u) {e f : Infix α}
    (ihe : (Differs e.pairs ↔ ¬ (e.Balanced ∧ e.inverted = false)) ∧
      (Agrees e.pairs ↔ ¬ (e.Balanced ∧ e.inverted = true)))
    (ihf : Differs f.pairs ↔ ¬ (f.Balanced ∧ f.inverted = false)) :
    (Differs (combine op (invert f.surplus.bodd false e.pairs) f.pairs) ↔
        ¬ (e.Balanced ∧ f.Balanced ∧ e.inverted = f.surplus.bodd ∧ f.inverted = false)) ∧
      Agrees (combine op (invert f.surplus.bodd false e.pairs) f.pairs) := by
  have hLeft := (varied_pairs e).invert f.surplus.bodd false
  refine ⟨?_, agrees_combine hGate hLeft (varied_pairs f)⟩
  rw [differs_combine hGate hLeft (varied_pairs f), differs_invert, ihe.1, ihe.2, ihf]
  cases f.surplus.bodd <;> cases e.inverted <;> cases f.inverted <;> simp <;> tauto

theorem differs_and_agrees (e : Infix α) :
    (Differs e.pairs ↔ ¬ (e.Balanced ∧ e.inverted = false)) ∧
      (Agrees e.pairs ↔ ¬ (e.Balanced ∧ e.inverted = true)) := by
  induction e with
  | word a => exact ⟨by simp [pairs, not_differs_input, Balanced, inverted],
      by simp [pairs, agrees_input, inverted]⟩
  | not e ih =>
    rw [pairs, differs_invert, agrees_invert, ih.1, ih.2, Balanced, inverted]
    cases e.isNot <;> simp
  | and e f ihe ihf =>
    obtain ⟨hDiffers, hAgrees⟩ := differs_and_agrees_gate gate_and ihe ihf.1
    exact ⟨by simpa [pairs, Balanced, inverted] using hDiffers, by simpa [pairs, inverted] using hAgrees⟩
  | or e f ihe ihf =>
    obtain ⟨hDiffers, hAgrees⟩ := differs_and_agrees_gate gate_or ihe ihf.1
    exact ⟨by simpa [pairs, Balanced, inverted] using hDiffers, by simpa [pairs, inverted] using hAgrees⟩
  | paren e ih => exact ih

theorem exists_of_mem_pairs {e : Infix α} {p : Bool × Bool} (h : p ∈ e.pairs) :
    ∃ q : Infix (α × Bool), q.map Prod.fst = e ∧ q.coded.eval Prod.snd = p.1 ∧ q.expr.eval Prod.snd = p.2 := by
  induction e generalizing p with
  | word a => exact ⟨.word (a, p.1), rfl, rfl, h⟩
  | not e ih =>
    obtain ⟨p, hp, rfl⟩ := h
    obtain ⟨q, rfl, hCoded, hMeant⟩ := ih hp
    refine ⟨.not q, rfl, ?_, ?_⟩
    · rw [isNot_map, coded]
      cases q.isNot <;> simp [hCoded]
    · simp [expr, hMeant]
  | and e f ihe ihf =>
    obtain ⟨_, ⟨p, hp, rfl⟩, p', hp', rfl⟩ := h
    obtain ⟨q, rfl, hCoded, hMeant⟩ := ihe hp
    obtain ⟨q', rfl, hCoded', hMeant'⟩ := ihf hp'
    refine ⟨.and q q', rfl, ?_, ?_⟩
    · rw [surplus_map, coded, Postfix.Expr.eval_conj, eval_neg_iterate, hCoded, hCoded']
      cases q'.surplus.bodd <;> simp
    · simp [expr, hMeant, hMeant']
  | or e f ihe ihf =>
    obtain ⟨_, ⟨p, hp, rfl⟩, p', hp', rfl⟩ := h
    obtain ⟨q, rfl, hCoded, hMeant⟩ := ihe hp
    obtain ⟨q', rfl, hCoded', hMeant'⟩ := ihf hp'
    refine ⟨.or q q', rfl, ?_, ?_⟩
    · rw [surplus_map, coded, Postfix.Expr.eval_disj, eval_neg_iterate, hCoded, hCoded']
      cases q'.surplus.bodd <;> simp
    · simp [expr, hMeant, hMeant']
  | paren e ih =>
    obtain ⟨q, rfl, hCoded, hMeant⟩ := ih h
    exact ⟨.paren q, rfl, hCoded, hMeant⟩

/-- A query that is not balanced comes out with another meaning, for some values of its words. -/
theorem exists_coded_ne {e : Infix α} (h : ¬ e.Balanced) :
    ∃ q : Infix (α × Bool), q.map Prod.fst = e ∧ q.coded.eval Prod.snd ≠ q.expr.eval Prod.snd := by
  obtain ⟨p, hp, hNe⟩ := (differs_and_agrees e).1.mpr fun hBoth => h hBoth.1
  obtain ⟨q, hShape, hCoded, hMeant⟩ := exists_of_mem_pairs hp
  exact ⟨q, hShape, by rwa [hCoded, hMeant]⟩

end Pairs
end Infix
end Bisen
