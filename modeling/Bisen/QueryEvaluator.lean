import Bisen.Lib.Postfix
import Bisen.VecToken

/-! # The boolean evaluator

`evaluate` runs the decoded query on a `vec_token` stack. Its meaning is the abstract postfix
run over sets of document numbers: it fails exactly where that run gets stuck or leaves a number
of values other than one, and otherwise returns a list that denotes the value.
-/
namespace Bisen.QueryEvaluator
open Wire VecInt VecToken
set_option autoImplicit false

/-- `iee_token res` with the two fields that `evaluate` assigns. -/
def resultOf (docs : VecInt) : IeeToken := { IeeToken.zero with type := resultToken, docs := docs }

def popDocs (stack : VecToken) : Except Fault (VecInt × VecToken) := do
  let top ← stack.vtPeekBack
  pure (top.docs, stack.vtPopBack)

def evaluateToken (nDocs : BitVec 32) (s : VecToken × List UInt8) (tkn : IeeToken) :
    Except Fault (VecToken × List UInt8) :=
  let (evalStack, count) := s
  if tkn.type = andToken then
    if evalStack.vtSize < 2 then .error .insufficientOperandsForAnd
    else do
      let (and1, evalStack) ← popDocs evalStack
      let (and2, evalStack) ← popDocs evalStack
      let (setInter, count) ← viVecIntersection and1 and2 count nDocs.toNat
      pure (evalStack.vtPushBack (resultOf setInter), count)
  else if tkn.type = orToken then
    if evalStack.vtSize < 2 then .error .insufficientOperandsForOr
    else do
      let (or1, evalStack) ← popDocs evalStack
      let (or2, evalStack) ← popDocs evalStack
      let (setUn, count) ← viVecUnion or1 or2 count nDocs.toNat
      pure (evalStack.vtPushBack (resultOf setUn), count)
  else if tkn.type = notToken then
    if evalStack.vtSize < 1 then .error .insufficientOperandsForNot
    else do
      let (negate, evalStack) ← popDocs evalStack
      let (setDiff, count) ← getNotDocs nDocs negate count
      pure (evalStack.vtPushBack (resultOf setDiff), count)
  else .ok (evalStack.vtPushBack tkn, count)

/-- The returned buffer is the caller's scratch buffer as the set operations left it. -/
def evaluate (rpnExpr : VecToken) (nDocs : BitVec 32) (count : List UInt8) :
    Except Fault (VecInt × List UInt8) := do
  let (evalStack, count) ← rpnExpr.elems.foldlM (evaluateToken nDocs) (vtInit maxQueryTokens, count)
  if evalStack.vtSize ≠ 1 then .error .wrongNumberOfOperandsLeft
  else do
    let top ← evalStack.vtPeekBack
    pure (top.docs, count)

/-! ## The abstract machine it refines -/

def abstractToken (tkn : IeeToken) : Postfix.Token VecInt :=
  if tkn.type = andToken then .conj
  else if tkn.type = orToken then .disj
  else if tkn.type = notToken then .neg
  else .operand tkn.docs

def docSet (n : Nat) (v : VecInt) : Set (Fin n) := {i | BitVec.ofNat 32 i ∈ v.elems}

/-- A duplicate-free list of document numbers below `n`. -/
def Valid (n : Nat) (v : VecInt) : Prop := Denotes n v (docSet n v)

theorem denotes_iff {n : Nat} {v : VecInt} {S : Set (Fin n)} : Denotes n v S ↔ Valid n v ∧ S = docSet n v := by
  constructor
  · intro h
    refine ⟨⟨h.sound, h.nodup, h.lt, fun _ => Iff.rfl⟩, ?_⟩
    ext i
    exact (h.mem i).symm
  · rintro ⟨h, rfl⟩
    exact h

/-- The concrete stack, read top first, denotes the abstract one. -/
structure Refines (n : Nat) (s : VecToken × List UInt8) (abs : List (Set (Fin n))) : Prop where
  sound : s.1.Sound
  stack : List.Forall₂ (fun t S => Denotes n t.docs S) s.1.elems.reverse abs
  count : n ≤ s.2.length

theorem Refines.size {n : Nat} {s : VecToken × List UInt8} {abs : List (Set (Fin n))} (h : Refines n s abs) :
    s.1.vtSize = abs.length := by
  rw [vtSize, ← length_elems h.sound, ← List.length_reverse, h.stack.length_eq]

theorem Refines.pop {n : Nat} {s : VecToken × List UInt8} {S : Set (Fin n)} {abs : List (Set (Fin n))}
    (h : Refines n s (S :: abs)) :
    ∃ docs, popDocs s.1 = .ok (docs, s.1.vtPopBack) ∧ Denotes n docs S ∧
    Refines n (s.1.vtPopBack, s.2) abs := by
  obtain ⟨top, rest, hTop, hRest, hStack⟩ := List.forall₂_cons_right_iff.mp h.stack
  have hElems : s.1.elems = rest.reverse ++ [top] := by
    rw [← List.reverse_reverse s.1.elems, hStack, List.reverse_cons]
  refine ⟨top.docs, ?_, hTop, vtPopBack_sound h.sound, ?_, h.count⟩
  · rw [popDocs, vtPeekBack_eq h.sound hElems]
    rfl
  · rw [elems_vtPopBack h.sound, hElems, List.dropLast_concat, List.reverse_reverse]
    exact hRest

theorem Refines.push {n : Nat} {s : VecToken × List UInt8} {abs : List (Set (Fin n))}
    (h : Refines n s abs) {t : IeeToken} {S : Set (Fin n)} (ht : Denotes n t.docs S) {count : List UInt8}
    (hCount : count.length = s.2.length) : Refines n (s.1.vtPushBack t, count) (S :: abs) := by
  refine ⟨vtPushBack_sound h.sound t, ?_, by rw [hCount]; exact h.count⟩
  rw [elems_vtPushBack h.sound, List.reverse_append]
  exact List.Forall₂.cons ht h.stack

/-! ## One token, then the whole list -/

/-- What one step must do when the abstract machine goes to `next`, or is stuck. -/
def Follows (n : Nat) (s : VecToken × List UInt8) (r : Except Fault (VecToken × List UInt8)) :
    Option (List (Set (Fin n))) → Prop
  | some abs => ∃ s', r = .ok s' ∧ Refines n s' abs ∧ s'.2.length = s.2.length
  | none => ∃ e, r = .error e ∧ e.ofEvaluate = true

section Steps
variable {n : Nat} (hn : n ≤ intMax) {s : VecToken × List UInt8} {abs : List (Set (Fin n))}
  (h : Refines n s abs)

include hn h

theorem evaluateToken_and {tkn : IeeToken} (ht : tkn.type = andToken) :
    Follows n s (evaluateToken (.ofNat 32 n) s tkn) (Postfix.step (.boolean _) (docSet n) .conj abs) := by
  have hSize := h.size
  have hStep : evaluateToken (.ofNat 32 n) s tkn =
      if s.1.vtSize < 2 then .error .insufficientOperandsForAnd else _ := if_pos ht
  rw [hStep, hSize]
  obtain _ | ⟨T, _ | ⟨S, abs⟩⟩ := abs
  · exact ⟨_, if_pos (by simp), rfl⟩
  · exact ⟨_, if_pos (by simp), rfl⟩
  · obtain ⟨and1, hPop₁, hDen₁, hRef₁⟩ := h.pop
    obtain ⟨and2, hPop₂, hDen₂, hRef₂⟩ := hRef₁.pop
    obtain ⟨v, c, hInter, hLength, hDen⟩ := viVecIntersection_denotes hn hDen₁ hDen₂ h.count
    rw [Set.inter_comm] at hDen
    rw [if_neg (by simp)]
    refine ⟨_, ?_, hRef₂.push (t := resultOf v) hDen hLength, hLength⟩
    simp only [hPop₁, hPop₂, toNat_ofNat hn, hInter, bind, Except.bind]
    rfl

theorem evaluateToken_or {tkn : IeeToken} (ht : tkn.type = orToken) :
    Follows n s (evaluateToken (.ofNat 32 n) s tkn) (Postfix.step (.boolean _) (docSet n) .disj abs) := by
  have hSize := h.size
  have hStep : evaluateToken (.ofNat 32 n) s tkn =
      if s.1.vtSize < 2 then .error .insufficientOperandsForOr else _ :=
    (if_neg (by rw [ht]; decide)).trans (if_pos ht)
  rw [hStep, hSize]
  obtain _ | ⟨T, _ | ⟨S, abs⟩⟩ := abs
  · exact ⟨_, if_pos (by simp), rfl⟩
  · exact ⟨_, if_pos (by simp), rfl⟩
  · obtain ⟨or1, hPop₁, hDen₁, hRef₁⟩ := h.pop
    obtain ⟨or2, hPop₂, hDen₂, hRef₂⟩ := hRef₁.pop
    obtain ⟨v, c, hUnion, hLength, hDen⟩ := viVecUnion_denotes hn hDen₁ hDen₂ h.count
    rw [Set.union_comm] at hDen
    rw [if_neg (by simp)]
    refine ⟨_, ?_, hRef₂.push (t := resultOf v) hDen hLength, hLength⟩
    simp only [hPop₁, hPop₂, toNat_ofNat hn, hUnion, bind, Except.bind]
    rfl

theorem evaluateToken_not {tkn : IeeToken} (ht : tkn.type = notToken) :
    Follows n s (evaluateToken (.ofNat 32 n) s tkn) (Postfix.step (.boolean _) (docSet n) .neg abs) := by
  have hSize := h.size
  have hStep : evaluateToken (.ofNat 32 n) s tkn =
      if s.1.vtSize < 1 then .error .insufficientOperandsForNot else _ :=
    (if_neg (by rw [ht]; decide)).trans ((if_neg (by rw [ht]; decide)).trans (if_pos ht))
  rw [hStep, hSize]
  obtain _ | ⟨S, abs⟩ := abs
  · exact ⟨_, if_pos (by simp), rfl⟩
  · obtain ⟨negate, hPop, hDenN, hRef⟩ := h.pop
    obtain ⟨v, c, hNot, hLength, hDen⟩ := getNotDocs_denotes hn hDenN h.count
    rw [if_neg (by simp)]
    refine ⟨_, ?_, hRef.push (t := resultOf v) hDen hLength, hLength⟩
    simp only [hPop, hNot, bind, Except.bind]
    rfl

theorem evaluateToken_refines (tkn : IeeToken)
    (hOperand : ∀ docs, abstractToken tkn = .operand docs → Valid n docs) :
    Follows n s (evaluateToken (.ofNat 32 n) s tkn)
      (Postfix.step (.boolean _) (docSet n) (abstractToken tkn) abs) := by
  by_cases hAnd : tkn.type = andToken
  · rw [abstractToken, if_pos hAnd]
    exact evaluateToken_and hn h hAnd
  by_cases hOr : tkn.type = orToken
  · rw [abstractToken, if_neg hAnd, if_pos hOr]
    exact evaluateToken_or hn h hOr
  by_cases hNot : tkn.type = notToken
  · rw [abstractToken, if_neg hAnd, if_neg hOr, if_pos hNot]
    exact evaluateToken_not hn h hNot
  have hToken : abstractToken tkn = .operand tkn.docs := by
    rw [abstractToken, if_neg hAnd, if_neg hOr, if_neg hNot]
  rw [hToken]
  refine ⟨(s.1.vtPushBack tkn, s.2), ?_, h.push (hOperand _ hToken) rfl, rfl⟩
  exact (if_neg hAnd).trans ((if_neg hOr).trans (if_neg hNot))

theorem evaluateTokens_refines (tkns : List IeeToken)
    (hOperands : ∀ tkn, tkn ∈ tkns → ∀ docs, abstractToken tkn = .operand docs → Valid n docs) :
    Follows n s (tkns.foldlM (evaluateToken (.ofNat 32 n)) s)
      (Postfix.run (.boolean _) (docSet n) (tkns.map abstractToken) abs) := by
  induction tkns generalizing s abs with
  | nil => exact ⟨s, rfl, h, rfl⟩
  | cons tkn tkns ih =>
    have hStep := evaluateToken_refines hn h tkn (hOperands tkn List.mem_cons_self)
    rw [List.map_cons, Postfix.run, List.foldlM_cons]
    cases hAbs : Postfix.step (.boolean _) (docSet n) (abstractToken tkn) abs with
    | none =>
      rw [hAbs] at hStep
      obtain ⟨e, hError, hExit⟩ := hStep
      exact ⟨e, by rw [hError]; rfl, hExit⟩
    | some abs' =>
      rw [hAbs] at hStep
      obtain ⟨s', hOk, hRef, hLength⟩ := hStep
      have hRest := ih hRef fun t ht => hOperands t (List.mem_cons_of_mem _ ht)
      rw [Option.bind_some, hOk]
      cases hRun : Postfix.run (.boolean _) (docSet n) (tkns.map abstractToken) abs' with
      | none =>
        rw [hRun] at hRest
        exact hRest
      | some last =>
        rw [hRun] at hRest
        obtain ⟨s'', hOk', hRef', hLength'⟩ := hRest
        exact ⟨s'', hOk', hRef', hLength'.trans hLength⟩

end Steps

section Evaluate
variable {n : Nat} (hn : n ≤ intMax) {rpn : VecToken} {count : List UInt8}
  (hOperands : ∀ tkn, tkn ∈ rpn.elems → ∀ docs, abstractToken tkn = .operand docs → Valid n docs)
  (hCount : n ≤ count.length)
include hn hOperands hCount

private theorem evaluate_follows :
    Follows n (vtInit maxQueryTokens, count)
      (rpn.elems.foldlM (evaluateToken (.ofNat 32 n)) (vtInit maxQueryTokens, count))
      (Postfix.run (.boolean _) (docSet n) (rpn.elems.map abstractToken) []) :=
  evaluateTokens_refines hn ⟨vtInit_sound (by decide), by simp, hCount⟩ rpn.elems hOperands

theorem evaluate_wellFormed {e : Postfix.Expr VecInt} (he : e.postorder = rpn.elems.map abstractToken) :
    ∃ v c, evaluate rpn (.ofNat 32 n) count = .ok (v, c) ∧ Denotes n v (e.eval (docSet n)) ∧
      c.length = count.length := by
  have hRun := evaluate_follows hn hOperands hCount
  rw [← he, Postfix.run_postorder] at hRun
  obtain ⟨s, hOk, hRef, hLength⟩ := hRun
  obtain ⟨docs, hPop, hDen, _⟩ := hRef.pop
  have hSize : s.1.vtSize = 1 := hRef.size
  have hPeek : ∃ top, s.1.vtPeekBack = .ok top ∧ top.docs = docs := by
    rw [popDocs] at hPop
    cases hTop : s.1.vtPeekBack with
    | error e => rw [hTop] at hPop; cases hPop
    | ok top =>
      rw [hTop] at hPop
      cases hPop
      exact ⟨top, rfl, rfl⟩
  obtain ⟨top, hTop, rfl⟩ := hPeek
  refine ⟨top.docs, s.2, ?_, hDen, hLength⟩
  rw [evaluate, hOk]
  simp only [bind, Except.bind, hSize, hTop]
  rfl

/-- Any other query ends in one of the four exits. -/
theorem evaluate_malformed (h : ¬ Postfix.WellFormed (rpn.elems.map abstractToken)) :
    ∃ e, evaluate rpn (.ofNat 32 n) count = .error e ∧ e.ofEvaluate = true := by
  have hRun := evaluate_follows hn hOperands hCount
  cases hAbs : Postfix.run (.boolean _) (docSet n) (rpn.elems.map abstractToken) [] with
  | none =>
    rw [hAbs] at hRun
    obtain ⟨e, hError, hExit⟩ := hRun
    exact ⟨e, by rw [evaluate, hError]; rfl, hExit⟩
  | some abs =>
    rw [hAbs] at hRun
    obtain ⟨s, hOk, hRef, _⟩ := hRun
    have hSize : s.1.vtSize ≠ 1 := by
      rw [hRef.size]
      intro hOne
      obtain ⟨S, rfl⟩ := List.length_eq_one_iff.mp hOne
      exact h ((Postfix.wellFormed_iff _ _ _).mpr ⟨S, hAbs⟩)
    refine ⟨.wrongNumberOfOperandsLeft, ?_, rfl⟩
    rw [evaluate, hOk]
    exact if_pos hSize

end Evaluate
end Bisen.QueryEvaluator
