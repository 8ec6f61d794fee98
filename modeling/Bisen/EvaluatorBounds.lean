import Bisen.QueryEvaluator

/-! # The evaluator over any operands

Against a peer that answers as it likes, the lists of a query can hold anything. The shape of the
query alone then still decides the evaluator's exits: a well-formed query reaches none of them,
and fails at most in an access outside the scratch buffer.
-/
namespace Bisen.EvaluatorBounds
open Wire VecInt VecToken QueryEvaluator
set_option autoImplicit false

/-- A computation whose only failure is an access outside its buffer. -/
def BoundsOnly {α : Type} (x : Except Fault α) : Prop := ∀ e, x = .error e → e = .outOfBounds

theorem BoundsOnly.ok {α : Type} (a : α) : BoundsOnly (.ok a) := fun _ h => (by cases h)

theorem BoundsOnly.bind {α β : Type} {x : Except Fault α} {f : α → Except Fault β} (hx : BoundsOnly x)
    (hf : ∀ a, BoundsOnly (f a)) : BoundsOnly (x >>= f) := by
  intro e h
  cases hEq : x with
  | error e' =>
    rw [hEq] at h
    cases h
    exact hx e hEq
  | ok a =>
    rw [hEq] at h
    exact hf a e h

theorem BoundsOnly.foldlM {α β : Type} {f : β → α → Except Fault β} (hf : ∀ b a, BoundsOnly (f b a))
    (xs : List α)
    (b : β) : BoundsOnly (xs.foldlM f b) := by
  induction xs generalizing b with
  | nil => exact .ok b
  | cons x xs ih =>
    rw [List.foldlM_cons]
    exact (hf b x).bind ih

theorem boundsOnly_ite {α : Type} {p : Prop} [Decidable p] (a : α) :
    BoundsOnly (if p then .ok a else .error .outOfBounds) := by
  intro e h
  split at h
  · cases h
  · cases h
    rfl

theorem boundsOnly_memset (count : List UInt8) (n : Nat) : BoundsOnly (memset count n) := boundsOnly_ite _

theorem boundsOnly_mark (xs : List (BitVec 32)) (count : List UInt8) : BoundsOnly (mark xs count) :=
  .foldlM (fun _ _ => boundsOnly_ite _) xs count

theorem boundsOnly_countUp (hit : UInt8) (xs : List (BitVec 32)) (count : List UInt8) (ops : Nat) :
    BoundsOnly (countUp hit xs count ops) :=
  .foldlM (fun _ _ => BoundsOnly.bind (boundsOnly_ite _) fun _ => .ok _) xs (count, ops)

theorem boundsOnly_union (a b : VecInt) (count : List UInt8) (n : Nat) : BoundsOnly (viVecUnion a b count n) :=
  (boundsOnly_memset count n).bind fun c => (boundsOnly_mark a.elems c).bind fun c =>
    (boundsOnly_countUp 1 b.elems c _).bind fun _ => .ok _

theorem boundsOnly_intersection (a b : VecInt) (count : List UInt8) (n : Nat) :
    BoundsOnly (viVecIntersection a b count n) :=
  (boundsOnly_memset count n).bind fun c => (boundsOnly_mark a.elems c).bind fun c =>
    (boundsOnly_countUp 2 b.elems c _).bind fun _ => .ok _

theorem boundsOnly_notDocs (nDocs : BitVec 32) (a : VecInt) (count : List UInt8) :
    BoundsOnly (getNotDocs nDocs a count) :=
  (boundsOnly_memset count _).bind fun c => (boundsOnly_mark a.elems c).bind fun _ => .ok _

theorem boundsOnly_peek (stack : VecToken) : BoundsOnly stack.vtPeekBack := by
  intro e h
  unfold vtPeekBack at h
  split at h
  · cases h
    rfl
  · split at h
    · cases h
    · cases h
      rfl

/-- A step that the abstract machine can make fails in an access only, and keeps the stack's size. -/
structure Shaped (s : VecToken × List UInt8) (r : Except Fault (VecToken × List UInt8))
    (size : Nat) : Prop where
  bounds : BoundsOnly r
  sound : ∀ s', r = .ok s' → s'.1.Sound
  size : ∀ s', r = .ok s' → s'.1.vtSize = size

section Shape
variable (nDocs : BitVec 32) {s : VecToken × List UInt8} (hSound : s.1.Sound)

theorem popDocs_ok {stack stack' : VecToken} {docs : VecInt} (h : popDocs stack = .ok (docs, stack')) :
    stack' = stack.vtPopBack := by
  obtain ⟨top, _, hRet⟩ := bind_eq_ok_iff.mp h
  cases hRet
  rfl

theorem boundsOnly_popDocs (stack : VecToken) : BoundsOnly (popDocs stack) :=
  (boundsOnly_peek stack).bind fun _ => .ok _

theorem vtSize_vtPopBack (v : VecToken) : v.vtPopBack.vtSize = v.vtSize - 1 := by
  unfold vtPopBack vtSize
  split
  · rfl
  · omega

theorem vtSize_vtPushBack (v : VecToken) (e : IeeToken) : (v.vtPushBack e).vtSize = v.vtSize + 1 := by
  unfold vtPushBack vtSize
  split <;> rfl

include hSound

theorem shaped_binary {op : VecInt → VecInt → Except Fault (VecInt × List UInt8)}
    (hOp : ∀ a b, BoundsOnly (op a b)) :
    Shaped s (do
      let (a, stack) ← popDocs s.1
      let (b, stack) ← popDocs stack
      let (set, count) ← op a b
      pure (stack.vtPushBack (resultOf set), count)) (s.1.vtSize - 1 - 1 + 1) := by
  refine ⟨(boundsOnly_popDocs _).bind fun p => (boundsOnly_popDocs _).bind fun q => (hOp _ _).bind fun _ =>
    .ok _,
    fun s' h => ?_, fun s' h => ?_⟩
  all_goals
    obtain ⟨⟨a, stack₁⟩, hPop₁, hRest⟩ := bind_eq_ok_iff.mp h
    obtain ⟨⟨b, stack₂⟩, hPop₂, hRest⟩ := bind_eq_ok_iff.mp hRest
    obtain ⟨⟨set, count⟩, _, hRet⟩ := bind_eq_ok_iff.mp hRest
    cases hRet
    rw [popDocs_ok hPop₂, popDocs_ok hPop₁]
  · exact vtPushBack_sound (vtPopBack_sound (vtPopBack_sound hSound)) _
  · rw [vtSize_vtPushBack, vtSize_vtPopBack, vtSize_vtPopBack]

theorem shaped_unary {op : VecInt → Except Fault (VecInt × List UInt8)} (hOp : ∀ a, BoundsOnly (op a)) :
    Shaped s (do
      let (a, stack) ← popDocs s.1
      let (set, count) ← op a
      pure (stack.vtPushBack (resultOf set), count)) (s.1.vtSize - 1 + 1) := by
  refine ⟨(boundsOnly_popDocs _).bind fun p => (hOp _).bind fun _ => .ok _, fun s' h => ?_, fun s' h => ?_⟩
  all_goals
    obtain ⟨⟨a, stack₁⟩, hPop₁, hRest⟩ := bind_eq_ok_iff.mp h
    obtain ⟨⟨set, count⟩, _, hRet⟩ := bind_eq_ok_iff.mp hRest
    cases hRet
    rw [popDocs_ok hPop₁]
  · exact vtPushBack_sound (vtPopBack_sound hSound) _
  · rw [vtSize_vtPushBack, vtSize_vtPopBack]

theorem evaluateToken_shaped (tkn : IeeToken) {abs abs' : List Unit} (hSize : abs.length = s.1.vtSize)
    (hStep : Postfix.step (.boolean Unit) (fun _ => ()) (abstractToken tkn) abs = some abs') :
    Shaped s (evaluateToken nDocs s tkn) abs'.length := by
  obtain ⟨stack, count⟩ := s
  simp only at hSound hSize
  unfold evaluateToken
  unfold abstractToken at hStep
  simp only
  by_cases hAnd : tkn.type = andToken
  · rw [if_pos hAnd] at hStep ⊢
    rcases abs with _ | ⟨y, _ | ⟨x, abs⟩⟩ <;> cases hStep
    rw [List.length_cons, List.length_cons] at hSize
    rw [if_neg (by omega), List.length_cons, show abs.length + 1 = stack.vtSize - 1 - 1 + 1 by omega]
    exact shaped_binary (s := (stack, count)) hSound fun a b => boundsOnly_intersection a b count _
  rw [if_neg hAnd] at hStep ⊢
  by_cases hOr : tkn.type = orToken
  · rw [if_pos hOr] at hStep ⊢
    rcases abs with _ | ⟨y, _ | ⟨x, abs⟩⟩ <;> cases hStep
    rw [List.length_cons, List.length_cons] at hSize
    rw [if_neg (by omega), List.length_cons, show abs.length + 1 = stack.vtSize - 1 - 1 + 1 by omega]
    exact shaped_binary (s := (stack, count)) hSound fun a b => boundsOnly_union a b count _
  rw [if_neg hOr] at hStep ⊢
  by_cases hNot : tkn.type = notToken
  · rw [if_pos hNot] at hStep ⊢
    rcases abs with _ | ⟨x, abs⟩ <;> cases hStep
    rw [List.length_cons] at hSize
    rw [if_neg (by omega), List.length_cons, show abs.length + 1 = stack.vtSize - 1 + 1 by omega]
    exact shaped_unary (s := (stack, count)) hSound fun a => boundsOnly_notDocs _ a count
  rw [if_neg hNot] at hStep ⊢
  cases hStep
  refine ⟨.ok _, fun s' h => ?_, fun s' h => ?_⟩
  · cases h
    exact vtPushBack_sound hSound tkn
  · cases h
    rw [vtSize_vtPushBack, List.length_cons, hSize]

theorem evaluateTokens_shaped (tkns : List IeeToken) {abs abs' : List Unit} (hSize : abs.length = s.1.vtSize)
    (hRun : Postfix.run (.boolean Unit) (fun _ => ()) (tkns.map abstractToken) abs = some abs') :
    Shaped s (tkns.foldlM (evaluateToken nDocs) s) abs'.length := by
  induction tkns generalizing s abs with
  | nil =>
    cases hRun
    refine ⟨.ok s, fun s' h => ?_, fun s' h => ?_⟩
    · cases h
      exact hSound
    · cases h
      exact hSize.symm
  | cons tkn tkns ih =>
    rw [List.map_cons, Postfix.run] at hRun
    obtain ⟨abs₁, hStep, hRest⟩ := Option.bind_eq_some_iff.mp hRun
    obtain ⟨hBounds, hSound₁, hSize₁⟩ := evaluateToken_shaped nDocs hSound tkn hSize hStep
    rw [List.foldlM_cons]
    cases hTkn : evaluateToken nDocs s tkn with
    | error e =>
      refine ⟨fun e' h => ?_, fun s' h => ?_, fun s' h => ?_⟩
      · cases h
        exact hBounds e hTkn
      · cases h
      · cases h
    | ok s₁ =>
      obtain ⟨hBounds', hSound', hSize'⟩ := ih (hSound₁ s₁ hTkn) (hSize₁ s₁ hTkn).symm hRest
      exact ⟨hBounds', hSound', hSize'⟩

end Shape

theorem evaluate_boundsOnly {rpn : VecToken} (h : Postfix.WellFormed (rpn.elems.map abstractToken))
    (nDocs : BitVec 32)
    (count : List UInt8) : BoundsOnly (evaluate rpn nDocs count) := by
  obtain ⟨_, hRun⟩ := (Postfix.wellFormed_iff (.boolean Unit) (fun _ => ()) _).mp h
  have hEmpty : ([] : List Unit).length = (vtInit maxQueryTokens).vtSize := rfl
  have hSound : (vtInit maxQueryTokens).Sound := vtInit_sound (by decide)
  obtain ⟨hBounds, _, hSize⟩ := evaluateTokens_shaped nDocs (s := (vtInit maxQueryTokens, count)) hSound
    rpn.elems
    hEmpty hRun
  intro e hError
  rw [evaluate] at hError
  cases hTkns : rpn.elems.foldlM (evaluateToken nDocs) (vtInit maxQueryTokens, count) with
  | error e' =>
    rw [hTkns] at hError
    cases hError
    exact hBounds e hTkns
  | ok s =>
    rw [hTkns] at hError
    have hOne : s.1.vtSize = 1 := hSize s hTkns
    simp only [bind, Except.bind, hOne] at hError
    exact (BoundsOnly.bind (boundsOnly_peek s.1) fun _ => .ok _) e hError

end Bisen.EvaluatorBounds
