import Bisen.QueryEvaluator

/-! # The evaluator as set semantics

A query of valid lists is completed exactly when it is well formed, and then returns the set its
expression denotes: in ascending order after any operator, and as stored for a single word. In
every step of the run, the capacity computed by the counting pass is the number of later pushes.
-/
namespace Bisen.EvaluatorSets
open Wire VecInt VecToken QueryEvaluator
set_option autoImplicit false

def isOperator (tkn : IeeToken) : Prop := tkn.type = andToken ∨ tkn.type = orToken ∨ tkn.type = notToken

/-- The capacity and the number of pushes of the vector that the token makes, if it makes one. -/
def passes (nDocs : BitVec 32) (s : VecToken × List UInt8) (tkn : IeeToken) : Except Fault (Nat × Nat) :=
  if tkn.type = andToken then do
    let (and1, evalStack) ← popDocs s.1
    let (and2, _) ← popDocs evalStack
    let (count, ops) ← countingPass 2 0 and1 and2 s.2 nDocs.toNat
    pure (ops, pushes (· == 2) count nDocs.toNat)
  else if tkn.type = orToken then do
    let (or1, evalStack) ← popDocs s.1
    let (or2, _) ← popDocs evalStack
    let (count, ops) ← countingPass 1 or1.counter or1 or2 s.2 nDocs.toNat
    pure (ops, pushes (0 < ·) count nDocs.toNat)
  else if tkn.type = notToken then do
    let (negate, _) ← popDocs s.1
    let (count, ops) ← notPass nDocs negate s.2
    pure (ops, pushes (· == 0) count nDocs.toNat)
  else pure (0, 0)

/-! ## One operator -/

section Passes
variable {n : Nat} (hn : n ≤ intMax) {s : VecToken × List UInt8} {abs : List (Set (Fin n))}
  (h : Refines n s abs)
include h

theorem popDocs_denotes {docs : VecInt} {stack : VecToken} (hPop : popDocs s.1 = .ok (docs, stack)) :
    ∃ (S : Set (Fin n)) (abs' : List (Set (Fin n))), Denotes n docs S ∧ Refines n (stack, s.2) abs' := by
  obtain _ | ⟨S, abs⟩ := abs
  · have hEmpty : s.1.counter = 0 := h.size
    rw [popDocs, vtPeekBack, if_pos hEmpty] at hPop
    cases hPop
  · obtain ⟨_, hPop', hDen, hRef⟩ := h.pop
    rw [hPop'] at hPop
    cases hPop
    exact ⟨S, abs, hDen, hRef⟩

/-- After an operator token: its vector is on top, full, and its pushes came in ascending order. -/
structure Filled (nDocs : BitVec 32) (s s' : VecToken × List UInt8) (tkn : IeeToken) (v : VecInt) : Prop where
  sound : s'.1.Sound
  top : ∃ rest, s'.1.elems = rest ++ [resultOf v]
  passes : passes nDocs s tkn = .ok (v.maxSize, v.counter)
  full : v.counter = v.maxSize
  ascending : v.Ascending

omit h in
include hn in
theorem filled_of_push {s' : VecToken × List UInt8} {tkn : IeeToken} {stack : VecToken} {c : List UInt8}
    {f : Nat → UInt8} (keep : UInt8 → Bool) (hStack : stack.Sound) (hCounts : Counts n c f)
    (hPush : s' = (stack.vtPushBack (resultOf (collect keep c n (pushes keep c n))), c))
    (hPasses : passes (.ofNat 32 n) s tkn = .ok (pushes keep c n, pushes keep c n)) :
    ∃ v, Filled (.ofNat 32 n) s s' tkn v := by
  have hMax := maxSize_collect keep c n (pushes keep c n)
  have hCounter := counter_collect keep hCounts
  refine ⟨collect keep c n (pushes keep c n), ?_, ?_, ?_, ?_, collect_ascending hn _ _ _⟩
  · rw [hPush]
    exact vtPushBack_sound hStack _
  · rw [hPush]
    exact ⟨_, elems_vtPushBack hStack _⟩
  · rw [hMax, hCounter]
    exact hPasses
  · rw [hMax, hCounter]

include hn

theorem evaluateToken_filled {s' : VecToken × List UInt8} {tkn : IeeToken} (hOperator : isOperator tkn)
    (hStep : evaluateToken (.ofNat 32 n) s tkn = .ok s') : ∃ v, Filled (.ofNat 32 n) s s' tkn v := by
  unfold evaluateToken at hStep
  have hSound := h.sound
  have hCount := h.count
  simp only [toNat_ofNat hn] at hStep
  split at hStep
  · case isTrue hAnd =>
    split at hStep
    · cases hStep
    obtain ⟨⟨and1, stack₁⟩, hPop₁, hStep⟩ := bind_eq_ok_iff.mp hStep
    obtain ⟨⟨and2, stack₂⟩, hPop₂, hStep⟩ := bind_eq_ok_iff.mp hStep
    obtain ⟨S, abs₁, hDen₁, hRef₁⟩ := popDocs_denotes h hPop₁
    obtain ⟨T, abs₂, hDen₂, hRef₂⟩ := popDocs_denotes hRef₁ hPop₂
    obtain ⟨c, hPass, _, hCounts⟩ := countingPass_intersection hn hDen₁ hDen₂ hCount
    rw [viVecIntersection_eq, hPass] at hStep
    cases hStep
    apply filled_of_push hn (· == 2) hRef₂.sound hCounts rfl
    unfold passes
    rw [if_pos hAnd, toNat_ofNat hn, hPop₁]
    simp only [bind, Except.bind, hPop₂, hPass]
    rfl
  split at hStep
  · case isTrue hAnd hOr =>
    split at hStep
    · cases hStep
    obtain ⟨⟨or1, stack₁⟩, hPop₁, hStep⟩ := bind_eq_ok_iff.mp hStep
    obtain ⟨⟨or2, stack₂⟩, hPop₂, hStep⟩ := bind_eq_ok_iff.mp hStep
    obtain ⟨S, abs₁, hDen₁, hRef₁⟩ := popDocs_denotes h hPop₁
    obtain ⟨T, abs₂, hDen₂, hRef₂⟩ := popDocs_denotes hRef₁ hPop₂
    obtain ⟨c, hPass, _, hCounts⟩ := countingPass_union hn hDen₁ hDen₂ hCount
    rw [viVecUnion_eq, hPass] at hStep
    cases hStep
    apply filled_of_push hn (0 < ·) hRef₂.sound hCounts rfl
    unfold passes
    rw [if_neg hAnd, if_pos hOr, toNat_ofNat hn, hPop₁]
    simp only [bind, Except.bind, hPop₂, hPass]
    rfl
  split at hStep
  · case isTrue hAnd hOr hNot =>
    split at hStep
    · cases hStep
    obtain ⟨⟨negate, stack⟩, hPop, hStep⟩ := bind_eq_ok_iff.mp hStep
    obtain ⟨S, abs₁, hDen, hRef⟩ := popDocs_denotes h hPop
    obtain ⟨c, hPass, _, hCounts⟩ := notPass_counts hn hDen hCount
    rw [getNotDocs_eq, hPass] at hStep
    simp only [toNat_ofNat hn] at hStep
    cases hStep
    apply filled_of_push hn (· == 0) hRef.sound hCounts rfl
    unfold passes
    rw [if_neg hAnd, if_neg hOr, if_pos hNot, toNat_ofNat hn, hPop]
    simp only [bind, Except.bind, hPass]
    rfl
  · rcases hOperator with hType | hType | hType <;> contradiction

end Passes

/-! ## The whole query -/

theorem abstractToken_of_not_operator {tkn : IeeToken} (h : ¬ isOperator tkn) :
    abstractToken tkn = .operand tkn.docs := by
  obtain ⟨hAnd, hOr, hNot⟩ : tkn.type ≠ andToken ∧ tkn.type ≠ orToken ∧ tkn.type ≠ notToken := by
    simpa only [isOperator, not_or] using h
  rw [abstractToken, if_neg hAnd, if_neg hOr, if_neg hNot]

/-- The first token of a query can only be pushed. -/
theorem evaluateToken_first {nDocs : BitVec 32} {count : List UInt8} {tkn : IeeToken}
    {s : VecToken × List UInt8} (h : evaluateToken nDocs (vtInit maxQueryTokens, count) tkn = .ok s) :
    s = ((vtInit maxQueryTokens).vtPushBack tkn, count) := by
  unfold evaluateToken at h
  have hTwo : (vtInit maxQueryTokens).vtSize < 2 := by decide
  have hOne : (vtInit maxQueryTokens).vtSize < 1 := by decide
  simp only [if_pos hTwo, if_pos hOne] at h
  split at h
  · cases h
  split at h
  · cases h
  split at h
  · cases h
  · cases h
    rfl

/-- What a completed evaluation of `rpn` over documents below `n` returns. -/
structure Meaning (n : Nat) (rpn : VecToken) (v : VecInt) : Prop where
  denotes : ∀ e : Postfix.Expr VecInt, e.postorder = rpn.elems.map abstractToken →
    Denotes n v (e.eval (docSet n))
  ascending : (∃ tkn, tkn ∈ rpn.elems ∧ isOperator tkn) → v.Ascending
  stored : ∀ tkn, rpn.elems = [tkn] → v = tkn.docs

theorem mem_of_denotes {n : Nat} {v w : VecInt} {S : Set (Fin n)} (hv : Denotes n v S) (hw : Denotes n w S)
    {x : BitVec 32} (hx : x ∈ v.elems) : x ∈ w.elems := by
  have hLt := hv.lt x hx
  have hSame : BitVec.ofNat 32 (⟨x.toNat, hLt⟩ : Fin n) = x := by
    rw [BitVec.ofNat_toNat, BitVec.setWidth_eq]
  rw [← hSame] at hx ⊢
  rw [hv.mem] at hx
  rwa [hw.mem]

theorem elems_eq_of_ascending {n : Nat} {v w : VecInt} {S : Set (Fin n)} (hv : Denotes n v S)
    (hw : Denotes n w S) (hvAscending : v.Ascending) (hwAscending : w.Ascending) : v.elems = w.elems := by
  have hPerm : v.elems.Perm w.elems := by
    rw [List.perm_ext_iff_of_nodup hv.nodup hw.nodup]
    exact fun x => ⟨mem_of_denotes hv hw, mem_of_denotes hw hv⟩
  refine List.Perm.eq_of_pairwise ?_ hvAscending hwAscending hPerm
  intro x y _ _ hLt hGt
  exact absurd hLt (Nat.lt_asymm hGt)

/-- A query of words and operators is one word, or has an operator. -/
theorem single_or_operator {elems : List IeeToken} (h : Postfix.WellFormed (elems.map abstractToken)) :
    (∃ tkn, elems = [tkn]) ∨ ∃ tkn, tkn ∈ elems ∧ isOperator tkn := by
  obtain ⟨e, he⟩ := h
  have hLast : ∀ {t : Postfix.Token VecInt}, (∀ docs, t ≠ .operand docs) → t ∈ elems.map abstractToken →
      ∃ tkn, tkn ∈ elems ∧ isOperator tkn := by
    intro t ht hMem
    obtain ⟨tkn, hTkn, rfl⟩ := List.mem_map.mp hMem
    refine ⟨tkn, hTkn, ?_⟩
    by_contra hNot
    exact ht tkn.docs (abstractToken_of_not_operator hNot)
  cases e with
  | atom docs =>
    obtain ⟨tkn, rest, rfl, _, hRest⟩ := List.map_eq_cons_iff.mp he.symm
    rw [List.map_eq_nil_iff.mp hRest]
    exact .inl ⟨tkn, rfl⟩
  | neg e =>
    refine .inr (hLast (t := .neg) (fun _ h => by cases h) ?_)
    rw [← he]
    exact List.mem_append_right _ (List.mem_singleton_self _)
  | conj l r =>
    refine .inr (hLast (t := .conj) (fun _ h => by cases h) ?_)
    rw [← he]
    exact List.mem_append_right _ (List.mem_singleton_self _)
  | disj l r =>
    refine .inr (hLast (t := .disj) (fun _ h => by cases h) ?_)
    rw [← he]
    exact List.mem_append_right _ (List.mem_singleton_self _)

/-- The list that is returned is determined by the query alone. -/
theorem Meaning.elems_unique {n : Nat} {rpn : VecToken} {v w : VecInt} (hv : Meaning n rpn v)
    (hw : Meaning n rpn w) (hWellFormed : Postfix.WellFormed (rpn.elems.map abstractToken)) :
    v.elems = w.elems := by
  obtain ⟨tkn, hSingle⟩ | hOperator := single_or_operator hWellFormed
  · rw [hv.stored tkn hSingle, hw.stored tkn hSingle]
  · obtain ⟨e, he⟩ := hWellFormed
    exact elems_eq_of_ascending (hv.denotes e he) (hw.denotes e he) (hv.ascending hOperator)
      (hw.ascending hOperator)

section Query
variable {n : Nat} (hn : n ≤ intMax) {rpn : VecToken} {count : List UInt8}
  (hOperands : ∀ tkn, tkn ∈ rpn.elems → ∀ docs, abstractToken tkn = .operand docs → Valid n docs)
  (hCount : n ≤ count.length)
include hn hOperands hCount

/-- Where a prefix of the query got through, the stack denotes sets. -/
theorem prefix_refines {pre post : List IeeToken} (hSplit : rpn.elems = pre ++ post)
    {s : VecToken × List UInt8}
    (hRun : pre.foldlM (evaluateToken (.ofNat 32 n)) (vtInit maxQueryTokens, count) = .ok s) :
    ∃ abs : List (Set (Fin n)), Refines n s abs := by
  have hInit : Refines n (vtInit maxQueryTokens, count) [] :=
    ⟨vtInit_sound (by decide), by simp, hCount⟩
  have hFollows := evaluateTokens_refines hn hInit pre fun tkn hMem =>
    hOperands tkn (hSplit ▸ List.mem_append_left _ hMem)
  cases hAbs : Postfix.run (.boolean _) (docSet n) (pre.map abstractToken) [] with
  | none =>
    rw [hAbs, hRun] at hFollows
    obtain ⟨e, hError, _⟩ := hFollows
    cases hError
  | some abs =>
    rw [hAbs, hRun] at hFollows
    obtain ⟨s', hOk, hRef, _⟩ := hFollows
    cases hOk
    exact ⟨abs, hRef⟩

theorem evaluate_operator {pre : List IeeToken} {tkn : IeeToken} (hSplit : rpn.elems = pre ++ [tkn])
    (hOperator : isOperator tkn) {v : VecInt} {c : List UInt8}
    (hEval : evaluate rpn (.ofNat 32 n) count = .ok (v, c)) : v.Ascending := by
  rw [evaluate, hSplit, List.foldlM_append] at hEval
  obtain ⟨s', hRun, hTop⟩ := bind_eq_ok_iff.mp hEval
  obtain ⟨s, hPre, hLast⟩ := bind_eq_ok_iff.mp hRun
  obtain ⟨s₁, hLast, hNil⟩ := bind_eq_ok_iff.mp hLast
  cases hNil
  obtain ⟨abs, hRef⟩ := prefix_refines hn hOperands hCount hSplit hPre
  obtain ⟨w, hFilled⟩ := evaluateToken_filled hn hRef hOperator hLast
  obtain ⟨rest, hElems⟩ := hFilled.top
  simp only at hTop
  split at hTop
  · cases hTop
  · rw [vtPeekBack_eq hFilled.sound hElems] at hTop
    cases hTop
    exact hFilled.ascending

theorem evaluate_meaning {v : VecInt} {c : List UInt8}
    (hEval : evaluate rpn (.ofNat 32 n) count = .ok (v, c))
    (hWellFormed : Postfix.WellFormed (rpn.elems.map abstractToken)) : Meaning n rpn v where
  denotes := by
    intro e he
    obtain ⟨w, d, hOk, hDenotes, _⟩ := evaluate_wellFormed hn hOperands hCount he
    rw [hEval] at hOk
    cases hOk
    exact hDenotes
  ascending := by
    rintro ⟨op, hMem, hOp⟩
    obtain ⟨e, he⟩ := hWellFormed
    obtain hNil | ⟨pre, tkn, hSplit⟩ := List.eq_nil_or_concat' rpn.elems
    · rw [hNil] at hMem
      cases hMem
    by_cases hOperator : isOperator tkn
    · exact evaluate_operator hn hOperands hCount hSplit hOperator hEval
    · rw [hSplit, List.map_append, List.map_singleton, abstractToken_of_not_operator hOperator] at he
      have hPre := List.map_eq_nil_iff.mp (Postfix.Expr.postorder_operand he)
      rw [hSplit, hPre, List.nil_append, List.mem_singleton] at hMem
      exact absurd (hMem ▸ hOp) hOperator
  stored := by
    intro tkn hSingle
    rw [evaluate, hSingle] at hEval
    obtain ⟨s, hRun, hTop⟩ := bind_eq_ok_iff.mp hEval
    obtain ⟨s₁, hStep, hNil⟩ := bind_eq_ok_iff.mp hRun
    cases hNil
    cases evaluateToken_first hStep
    cases hTop
    rfl

theorem evaluate_sets :
    ((∃ v c, evaluate rpn (.ofNat 32 n) count = .ok (v, c)) ↔
      Postfix.WellFormed (rpn.elems.map abstractToken)) ∧
    (∀ v c, evaluate rpn (.ofNat 32 n) count = .ok (v, c) → Meaning n rpn v) ∧
    ∀ pre tkn post s s', rpn.elems = pre ++ tkn :: post →
      pre.foldlM (evaluateToken (.ofNat 32 n)) (vtInit maxQueryTokens, count) = .ok s →
      isOperator tkn → evaluateToken (.ofNat 32 n) s tkn = .ok s' →
      ∃ v, Filled (.ofNat 32 n) s s' tkn v := by
  have hCompletes : (∃ v c, evaluate rpn (.ofNat 32 n) count = .ok (v, c)) ↔
      Postfix.WellFormed (rpn.elems.map abstractToken) := by
    constructor
    · rintro ⟨v, c, hEval⟩
      by_contra hMalformed
      obtain ⟨e, hError, _⟩ := evaluate_malformed hn hOperands hCount hMalformed
      rw [hEval] at hError
      cases hError
    · rintro ⟨e, he⟩
      obtain ⟨v, c, hEval, _⟩ := evaluate_wellFormed hn hOperands hCount he
      exact ⟨v, c, hEval⟩
  refine ⟨hCompletes, ?_, ?_⟩
  · intro v c hEval
    exact evaluate_meaning hn hOperands hCount hEval (hCompletes.mp ⟨v, c, hEval⟩)
  · intro pre tkn post s s' hSplit hRun hOperator hStep
    obtain ⟨abs, hRef⟩ := prefix_refines hn hOperands hCount hSplit hRun
    exact evaluateToken_filled hn hRef hOperator hStep

end Query

def wordOf (docs : List (BitVec 32)) : IeeToken :=
  { IeeToken.zero with type := wordToken, counter := docs.length, docs := ⟨docs, docs.length, docs.length⟩ }

def opOf (type : UInt8) : IeeToken := { IeeToken.zero with type := type }

theorem valid_wordOf {n : Nat} {docs : List (BitVec 32)} (hNodup : docs.Nodup)
    (hLt : ∀ x, x ∈ docs → x.toNat < n) : Valid n (wordOf docs).docs := by
  have hElems : (wordOf docs).docs.elems = docs := List.take_length
  refine ⟨⟨rfl, Nat.le_refl _⟩, ?_, ?_, fun _ => Iff.rfl⟩
  · rwa [hElems]
  · rwa [hElems]

/-- The query `a ! b &` over three documents, of which the words list `[2, 0]` and `[1, 2]`. -/
def negatedPair : VecToken := ⟨[wordOf [2, 0], opOf notToken, wordOf [1, 2], opOf andToken], 4, 4⟩

theorem evaluate_sets_negatedPair :
    (∃ v c, evaluate negatedPair (.ofNat 32 3) [7, 7, 7] = .ok (v, c)) ∧
    ∀ v c, evaluate negatedPair (.ofNat 32 3) [7, 7, 7] = .ok (v, c) → v.Ascending := by
  have hOperands : ∀ tkn, tkn ∈ negatedPair.elems → ∀ docs, abstractToken tkn = .operand docs →
      Valid 3 docs := by
    intro tkn hMem docs hOperand
    have hTokens : tkn ∈ [wordOf [2, 0], opOf notToken, wordOf [1, 2], opOf andToken] := hMem
    simp only [List.mem_cons, List.not_mem_nil, or_false] at hTokens
    obtain rfl | rfl | rfl | rfl := hTokens
    · cases hOperand
      exact valid_wordOf (by decide) (by simp)
    · cases hOperand
    · cases hOperand
      exact valid_wordOf (by decide) (by simp)
    · cases hOperand
  obtain ⟨hCompletes, hMeaning, _⟩ := evaluate_sets (show 3 ≤ intMax by decide) hOperands
    (show 3 ≤ ([7, 7, 7] : List UInt8).length by decide)
  refine ⟨hCompletes.mpr ⟨.conj (.neg (.atom (wordOf [2, 0]).docs)) (.atom (wordOf [1, 2]).docs), rfl⟩, ?_⟩
  intro v c hEval
  exact (hMeaning v c hEval).ascending ⟨opOf andToken, by decide, .inl rfl⟩

end Bisen.EvaluatorSets
