import Bisen.PostingArrays

/-! # The evaluator on the arrays

The evaluation on the heap follows the one on values step by step: it owns the arrays of the
stack and of the words still to be read, so no operand is missed and none is removed twice. An
operator consumes its operands, and whatever it leaves is new.
-/
namespace Bisen.PostingArrays
open Wire VecInt VecToken EvaluatorSets
set_option autoImplicit false

/-! ## Following the evaluator on values -/

abbrev Follows {α β : Type} : (α → β → Prop) → Except Fault α → Except StoreFault β → Prop :=
  Simulation.Rel fun e e' => e' = .fault e

theorem liftFault_follows {α : Type} (x : Except Fault α) : Follows Eq x (liftFault x) := by
  cases x with
  | ok a => exact .ok rfl
  | error e => exact .error rfl

theorem popDocs_eq {stack : VecToken} (hSound : stack.Sound) {t : IeeToken} {rest : List IeeToken}
    (hElems : stack.elems.reverse = t :: rest) :
    QueryEvaluator.popDocs stack = .ok (t.docs, stack.vtPopBack) ∧ stack.vtPopBack.Sound ∧
      stack.vtPopBack.elems.reverse = rest := by
  have hConcat : stack.elems = rest.reverse ++ [t] := by
    rw [← List.reverse_reverse stack.elems, hElems, List.reverse_cons]
  refine ⟨?_, vtPopBack_sound hSound, ?_⟩
  · rw [QueryEvaluator.popDocs, vtPeekBack_eq hSound hConcat]
    rfl
  · rw [elems_vtPopBack hSound, hConcat, List.dropLast_concat, List.reverse_reverse]

/-- A token still to be read: what it points to, if it is a word, is there. -/
structure Pending (whole : List Nat) (store : Store) (t : IeeToken) (r : TokenRef) : Prop where
  kind : t.type = wordToken ∨ isOperator t
  type : r.type = t.type
  docs : t.type = wordToken → r.docs.array ∈ whole ∧ r.docs.read store = .ok t.docs

/-- The stack and the tokens still to be read point to what their values say, and own it. -/
structure Related (fetched : Store) (whole : List Nat) (ts : List IeeToken) (rs : List TokenRef)
    (s : VecToken × List UInt8) (S : State) : Prop where
  sound : s.1.Sound
  stack : List.Forall₂ (fun t r => VecRef.read r.docs S.store = .ok t.docs) s.1.elems.reverse S.evalStack
  count : S.count = s.2
  pending : List.Forall₂ (Pending whole S.store) ts rs
  run : fetched.Consumes whole (wordArrays rs) (S.evalStack.map (·.docs.array)) S.store

theorem Related.size {fetched : Store} {whole : List Nat} {ts : List IeeToken} {rs : List TokenRef}
    {s : VecToken × List UInt8} {S : State} (h : Related fetched whole ts rs s S) :
    s.1.vtSize = S.evalStack.length := by
  rw [vtSize, ← length_elems h.sound, ← List.length_reverse, h.stack.length_eq]

section Steps
variable {fetched : Store} {whole : List Nat} {ts : List IeeToken} {rs : List TokenRef}

theorem foldlM_viDestroy {store store' : Store} {operands : List TokenRef}
    (h : store.freeAll (operands.map (·.docs.array)) = some store') :
    (operands.map (·.docs)).foldlM viDestroy store = .ok store' := by
  induction operands generalizing store with
  | nil =>
    cases h
    rfl
  | cons r operands ih =>
    rw [List.map_cons, Heap.freeAll, List.foldlM_cons] at h
    obtain ⟨store₁, hFree, hRest⟩ := Option.bind_eq_some_iff.mp h
    rw [List.map_cons, List.foldlM_cons, viDestroy, hFree]
    exact ih hRest

theorem Pending.wordArrays_cons {store : Store} {t : IeeToken} {r : TokenRef} (h : Pending whole store t r)
    (hWord : t.type = wordToken) : wordArrays (r :: rs) = r.docs.array :: wordArrays rs := by
  have hType : r.type = wordToken := h.type.trans hWord
  simp [wordArrays, hType]

/-- Pushing a result keeps the relation, whatever operands make room for it. -/
theorem pushResult_related {s : VecToken × List UInt8} {S : State} {stack : VecToken}
    {operands rest : List TokenRef} (h : Related fetched whole ts rs s S)
    (hStack : S.evalStack = operands ++ rest) (hSound : stack.Sound)
    (hRest : List.Forall₂ (fun t r => VecRef.read r.docs S.store = .ok t.docs) stack.elems.reverse rest)
    (set : VecInt) (count : List UInt8) :
    ∃ S', pushResult set count operands rest S.store = .ok S' ∧
      Related fetched whole ts rs (stack.vtPushBack (QueryEvaluator.resultOf set), count) S' := by
  have hRun := h.run
  rw [hStack, List.map_append] at hRun
  obtain ⟨hFree, hRun'⟩ := hRun.replace set.array
  obtain ⟨hSet, hSame⟩ := hRun.get_replace set.array
  refine ⟨⟨resultOf ⟨S.store.next, set.maxSize, set.counter⟩ :: rest, count,
    (S.store.alloc set.array).removeAll (operands.map fun r : TokenRef => r.docs.array)⟩, ?_,
    vtPushBack_sound hSound _, ?_, rfl, ?_, hRun'⟩
  · rw [pushResult, place]
    simp only [foldlM_viDestroy hFree]
    rfl
  · rw [elems_vtPushBack hSound, List.reverse_append]
    refine .cons (read_of_get hSet) (Simulation.forall₂_imp_of_mem hRest fun t _ r hr hRead => ?_)
    exact (read_congr (hSame _ (List.mem_append_left _ (List.mem_map_of_mem hr)))).trans hRead
  · refine Simulation.forall₂_imp_of_mem h.pending fun t _ r hr hPending =>
      ⟨hPending.kind, hPending.type, fun hWord => ?_⟩
    obtain ⟨hWhole, hRead⟩ := hPending.docs hWord
    have hMem := mem_wordArrays hr (hPending.type.trans hWord)
    exact ⟨hWhole, (read_congr (hSame _ (List.mem_append_right _ hMem))).trans hRead⟩

/-- An operator that pops its operands one by one, on both sides. -/
theorem binary_follows {s : VecToken × List UInt8} {S : State} (h : Related fetched whole ts rs s S)
    (op : VecInt → VecInt → List UInt8 → Except Fault (VecInt × List UInt8)) (insufficient : Fault) :
    Follows (Related fetched whole ts rs)
      (if s.1.vtSize < 2 then .error insufficient
      else do
        let (a, stack) ← QueryEvaluator.popDocs s.1
        let (b, stack) ← QueryEvaluator.popDocs stack
        let (set, count) ← op a b s.2
        pure (stack.vtPushBack (QueryEvaluator.resultOf set), count))
      (binary op insufficient S) := by
  have hSize := h.size
  have hStack := h.stack
  rw [hSize]
  rcases hEval : S.evalStack with _ | ⟨top, _ | ⟨next, rest⟩⟩
  · rw [if_pos (by simp), binary, hEval]
    exact .error rfl
  · rw [if_pos (by simp), binary, hEval]
    exact .error rfl
  · rw [hEval] at hStack
    obtain ⟨a, as, hTop, hStack, hElems⟩ := List.forall₂_cons_right_iff.mp hStack
    obtain ⟨b, bs, hNext, hRest, rfl⟩ := List.forall₂_cons_right_iff.mp hStack
    obtain ⟨hPop₁, hSound₁, hElems₁⟩ := popDocs_eq h.sound hElems
    obtain ⟨hPop₂, hSound₂, hElems₂⟩ := popDocs_eq hSound₁ hElems₁
    have hOperands : S.evalStack = [top, next] ++ rest := hEval
    rw [if_neg (by simp), hPop₁, binary, hEval]
    simp only [hTop, hNext]
    change Follows _ (QueryEvaluator.popDocs s.1.vtPopBack >>= _) (liftFault (op a.docs b.docs S.count) >>= _)
    rw [hPop₂, h.count]
    apply (liftFault_follows (op a.docs b.docs s.2)).bind
    rintro ⟨set, count⟩ _ rfl
    obtain ⟨S', hPush, hRelated⟩ := pushResult_related h hOperands hSound₂ (hElems₂ ▸ hRest) set count
    rw [hPush]
    exact .ok hRelated

theorem unary_follows {s : VecToken × List UInt8} {S : State} (h : Related fetched whole ts rs s S)
    (op : VecInt → List UInt8 → Except Fault (VecInt × List UInt8)) (insufficient : Fault) :
    Follows (Related fetched whole ts rs)
      (if s.1.vtSize < 1 then .error insufficient
      else do
        let (a, stack) ← QueryEvaluator.popDocs s.1
        let (set, count) ← op a s.2
        pure (stack.vtPushBack (QueryEvaluator.resultOf set), count))
      (unary op insufficient S) := by
  have hSize := h.size
  have hStack := h.stack
  rw [hSize]
  rcases hEval : S.evalStack with _ | ⟨top, rest⟩
  · rw [if_pos (by simp), unary, hEval]
    exact .error rfl
  · rw [hEval] at hStack
    obtain ⟨a, as, hTop, hRest, hElems⟩ := List.forall₂_cons_right_iff.mp hStack
    obtain ⟨hPop, hSound, hElems'⟩ := popDocs_eq h.sound hElems
    have hOperands : S.evalStack = [top] ++ rest := hEval
    rw [if_neg (by simp), hPop, unary, hEval]
    simp only [hTop]
    change Follows _ (op a.docs s.2 >>= _) (liftFault (op a.docs S.count) >>= _)
    rw [h.count]
    apply (liftFault_follows (op a.docs s.2)).bind
    rintro ⟨set, count⟩ _ rfl
    obtain ⟨S', hPush, hRelated⟩ := pushResult_related h hOperands hSound (hElems' ▸ hRest) set count
    rw [hPush]
    exact .ok hRelated

theorem push_related {t : IeeToken} {r : TokenRef} {s : VecToken × List UInt8} {S : State}
    (hWord : t.type = wordToken) (h : Related fetched whole (t :: ts) (r :: rs) s S) :
    Related fetched whole ts rs (s.1.vtPushBack t, s.2) { S with evalStack := r :: S.evalStack } := by
  obtain ⟨hPending, hRest⟩ := List.forall₂_cons.mp h.pending
  obtain ⟨hWhole, hRead⟩ := hPending.docs hWord
  have hRun := h.run
  rw [hPending.wordArrays_cons hWord] at hRun
  refine ⟨vtPushBack_sound h.sound t, ?_, h.count, hRest, hRun.take hWhole⟩
  rw [elems_vtPushBack h.sound, List.reverse_append]
  exact .cons hRead h.stack

theorem operator_related {t : IeeToken} {r : TokenRef} {s : VecToken × List UInt8} {S : State}
    (hOperator : isOperator t) (h : Related fetched whole (t :: ts) (r :: rs) s S) :
    Related fetched whole ts rs s S := by
  obtain ⟨hPending, hRest⟩ := List.forall₂_cons.mp h.pending
  have hType : r.type ≠ wordToken := by
    rw [hPending.type]
    rcases hOperator with hType | hType | hType <;> rw [hType] <;> decide
  have hRun := h.run
  rw [wordArrays, List.filter_cons_of_neg (by simpa using hType)] at hRun
  exact ⟨h.sound, h.stack, h.count, hRest, hRun⟩

theorem evaluateToken_follows (nDocs : BitVec 32) (t : IeeToken) (ts : List IeeToken) (r : TokenRef)
    (rs : List TokenRef) (s : VecToken × List UInt8) (S : State)
    (h : Related fetched whole (t :: ts) (r :: rs) s S) :
    Follows (Related fetched whole ts rs) (QueryEvaluator.evaluateToken nDocs s t) (evaluateToken nDocs S r) := by
  obtain ⟨hPending, _⟩ := List.forall₂_cons.mp h.pending
  obtain ⟨evalStack, count⟩ := s
  unfold QueryEvaluator.evaluateToken evaluateToken
  simp only [hPending.type]
  split
  · case isTrue hAnd =>
    exact binary_follows (operator_related (.inl hAnd) h) (fun a b c => viVecIntersection a b c nDocs.toNat) _
  split
  · case isTrue hOr =>
    exact binary_follows (operator_related (.inr (.inl hOr)) h) (fun a b c => viVecUnion a b c nDocs.toNat) _
  split
  · case isTrue hNot => exact unary_follows (operator_related (.inr (.inr hNot)) h) _ _
  · case isFalse hAnd hOr hNot =>
    have hWord : t.type = wordToken := by
      obtain hWord | hType | hType | hType := hPending.kind
      · exact hWord
      · exact absurd hType hAnd
      · exact absurd hType hOr
      · exact absurd hType hNot
    exact .ok (push_related hWord h)

end Steps
/-! ## What a step can do -/

theorem viDestroy_next {store store' : Store} {v : VecRef} (h : viDestroy store v = .ok store') :
    store'.next = store.next := by
  unfold viDestroy Heap.free at h
  split at h
  · case h_1 hFree =>
    split at hFree
    · cases hFree
      cases h
      rfl
    · cases hFree
  · cases h

theorem foldlM_viDestroy_next {vs : List VecRef} {store store' : Store}
    (h : vs.foldlM viDestroy store = .ok store') : store'.next = store.next := by
  induction vs generalizing store with
  | nil =>
    cases h
    rfl
  | cons v vs ih =>
    rw [List.foldlM_cons] at h
    obtain ⟨store₁, hDestroy, hRest⟩ := bind_eq_ok_iff.mp h
    exact (ih hRest).trans (viDestroy_next hDestroy)

/-- A step with an operator leaves a new list on top. -/
structure Pushed (S S' : State) : Prop where
  top : ∃ res rest, S'.evalStack = res :: rest ∧ res.docs.array = S.store.next
  next_lt : S.store.next < S'.store.next

theorem pushed_of_pushResult {S S' : State} {set : VecInt} {count : List UInt8} {operands rest : List TokenRef}
    (h : pushResult set count operands rest S.store = .ok S') : Pushed S S' := by
  obtain ⟨store, hDestroy, hRet⟩ := bind_eq_ok_iff.mp h
  cases hRet
  refine ⟨⟨_, _, rfl, rfl⟩, ?_⟩
  rw [foldlM_viDestroy_next hDestroy]
  exact Nat.lt_succ_self _

theorem pushed_of_binary {op : VecInt → VecInt → List UInt8 → Except Fault (VecInt × List UInt8)}
    {insufficient : Fault} {S S' : State} (h : binary op insufficient S = .ok S') : Pushed S S' := by
  unfold binary at h
  split at h
  · obtain ⟨a, _, h⟩ := bind_eq_ok_iff.mp h
    obtain ⟨b, _, h⟩ := bind_eq_ok_iff.mp h
    obtain ⟨⟨set, count⟩, _, h⟩ := bind_eq_ok_iff.mp h
    exact pushed_of_pushResult h
  · cases h

theorem pushed_of_unary {op : VecInt → List UInt8 → Except Fault (VecInt × List UInt8)} {insufficient : Fault}
    {S S' : State} (h : unary op insufficient S = .ok S') : Pushed S S' := by
  unfold unary at h
  split at h
  · obtain ⟨a, _, h⟩ := bind_eq_ok_iff.mp h
    obtain ⟨⟨set, count⟩, _, h⟩ := bind_eq_ok_iff.mp h
    exact pushed_of_pushResult h
  · cases h

def Operates (type : UInt8) : Prop := type = andToken ∨ type = orToken ∨ type = notToken

theorem evaluateToken_cases {nDocs : BitVec 32} {S S' : State} {r : TokenRef}
    (h : evaluateToken nDocs S r = .ok S') :
    Operates r.type ∧ S.evalStack ≠ [] ∧ Pushed S S' ∨
      ¬ Operates r.type ∧ S' = { S with evalStack := r :: S.evalStack } := by
  unfold evaluateToken at h
  split at h
  · case isTrue hAnd =>
    refine .inl ⟨.inl hAnd, ?_, pushed_of_binary h⟩
    intro hEmpty
    rw [binary, hEmpty] at h
    cases h
  split at h
  · case isTrue hOr =>
    refine .inl ⟨.inr (.inl hOr), ?_, pushed_of_binary h⟩
    intro hEmpty
    rw [binary, hEmpty] at h
    cases h
  split at h
  · case isTrue hNot =>
    refine .inl ⟨.inr (.inr hNot), ?_, pushed_of_unary h⟩
    intro hEmpty
    rw [unary, hEmpty] at h
    cases h
  · case isFalse hAnd hOr hNot =>
    cases h
    refine .inr ⟨?_, rfl⟩
    rintro (hType | hType | hType)
    · exact hAnd hType
    · exact hOr hType
    · exact hNot hType

theorem run_next_le {nDocs : BitVec 32} {rs : List TokenRef} {S S' : State}
    (h : rs.foldlM (evaluateToken nDocs) S = .ok S') : S.store.next ≤ S'.store.next := by
  induction rs generalizing S with
  | nil =>
    cases h
    exact Nat.le_refl _
  | cons r rs ih =>
    rw [List.foldlM_cons] at h
    obtain ⟨S₁, hStep, hRest⟩ := bind_eq_ok_iff.mp h
    have hRun := ih hRest
    obtain ⟨_, _, hPushed⟩ | ⟨_, rfl⟩ := evaluateToken_cases hStep
    · exact Nat.le_trans (Nat.le_of_lt hPushed.next_lt) hRun
    · exact hRun

theorem run_ne_nil {nDocs : BitVec 32} {rs : List TokenRef} {r : TokenRef} {S S' : State}
    (h : (rs ++ [r]).foldlM (evaluateToken nDocs) S = .ok S') : S'.evalStack ≠ [] := by
  rw [List.foldlM_append] at h
  obtain ⟨S₁, _, h⟩ := bind_eq_ok_iff.mp h
  obtain ⟨S₂, hStep, hNil⟩ := bind_eq_ok_iff.mp h
  cases hNil
  obtain ⟨_, _, ⟨res, rest, hTop, _⟩, _⟩ | ⟨_, rfl⟩ := evaluateToken_cases hStep
  · rw [hTop]
    exact List.cons_ne_nil _ _
  · exact List.cons_ne_nil _ _

theorem run_first {nDocs : BitVec 32} {r : TokenRef} {rs : List TokenRef} {count : List UInt8} {store : Store}
    {S : State} (h : (r :: rs).foldlM (evaluateToken nDocs) ⟨[], count, store⟩ = .ok S) : ¬ Operates r.type := by
  rw [List.foldlM_cons] at h
  obtain ⟨S₁, hStep, _⟩ := bind_eq_ok_iff.mp h
  obtain ⟨_, hEmpty, _⟩ | ⟨hWord, _⟩ := evaluateToken_cases hStep
  · exact absurd rfl hEmpty
  · exact hWord

/-- A run that ends with one list ends with a new one, or was one word. -/
theorem run_singleton {nDocs : BitVec 32} {rs : List TokenRef} {count : List UInt8} {store : Store} {S : State}
    {top : TokenRef} (h : rs.foldlM (evaluateToken nDocs) ⟨[], count, store⟩ = .ok S)
    (hTop : S.evalStack = [top]) :
    store.next ≤ top.docs.array ∧ (∃ r ∈ rs, ¬ Operates r.type) ∧ (∃ r ∈ rs, Operates r.type) ∨
      rs = [top] ∧ ¬ Operates top.type ∧ S.store = store := by
  obtain rfl | ⟨pre, last, rfl⟩ := List.eq_nil_or_concat' rs
  · cases h
    cases hTop
  have hWhole := h
  rw [List.foldlM_append] at h
  obtain ⟨S₁, hPre, h⟩ := bind_eq_ok_iff.mp h
  obtain ⟨S₂, hStep, hNil⟩ := bind_eq_ok_iff.mp h
  cases hNil
  obtain ⟨hOperates, _, ⟨res, rest, hRes, hNew⟩, _⟩ | ⟨hWord, rfl⟩ := evaluateToken_cases hStep
  · left
    rw [hRes] at hTop
    cases hTop
    refine ⟨hNew ▸ run_next_le hPre, ?_, last, List.mem_append_right _ (List.mem_singleton_self _), hOperates⟩
    obtain ⟨r, rs, hFirst⟩ := List.exists_cons_of_ne_nil (List.append_ne_nil_of_right_ne_nil pre
      (List.cons_ne_nil last []))
    rw [hFirst] at hWhole ⊢
    exact ⟨r, List.mem_cons_self, run_first hWhole⟩
  · right
    obtain ⟨rfl, hEmpty⟩ := List.cons.inj hTop
    obtain rfl | ⟨pre', r, rfl⟩ := List.eq_nil_or_concat' pre
    · cases hPre
      exact ⟨rfl, hWord, rfl⟩
    · exact absurd hEmpty (run_ne_nil hPre)

/-! ## One search -/

/-- How the evaluation of a list of tokens on a store ends. -/
structure Ended (fetched : Store) (rs : List TokenRef) (p : VecInt × List UInt8) (q : VecRef × State) : Prop where
  docs : q.1.read q.2.store = .ok p.1
  count : q.2.count = p.2
  run : fetched.Consumes (wordArrays rs) [] [q.1.array] q.2.store

section Search
variable (store₀ : Store) {query : VecToken} (nDocs : BitVec 32) (count : List UInt8)
  (hTokens : ∀ t ∈ query.elems, t.type = wordToken ∨ isOperator t)
include hTokens

theorem load_related :
    Related (load query.elems store₀).2 (wordArrays (load query.elems store₀).1) query.elems
      (load query.elems store₀).1 (vtInit maxQueryTokens, count) ⟨[], count, (load query.elems store₀).2⟩ := by
  have hLoaded := load_loaded query.elems store₀
  have hOwns : (load query.elems store₀).2.Owns (wordArrays (load query.elems store₀).1) :=
    ⟨fun a ha => hLoaded.owns.live a (List.mem_append_left _ ha), (List.nodup_append.mp hLoaded.owns.nodup).1⟩
  refine ⟨vtInit_sound (by decide), ?_, rfl, ?_, .refl hOwns⟩
  · rw [elems_vtInit]
    exact .nil
  · refine Simulation.forall₂_imp_of_mem hLoaded.stored fun t ht r hr hStored =>
      ⟨hTokens t ht, hStored.type, fun hWord => ?_⟩
    exact ⟨mem_wordArrays hr (hStored.type.trans hWord), hStored.docs hWord⟩

/-- The evaluation on the store ends as the one on values does. -/
theorem evaluate_follows :
    Follows (Ended (load query.elems store₀).2 (load query.elems store₀).1)
      (QueryEvaluator.evaluate query nDocs count)
      (evaluate (load query.elems store₀).1 nDocs count (load query.elems store₀).2) := by
  have hLoaded := load_loaded query.elems store₀
  have hFold := Simulation.Rel.foldlM (evaluateToken_follows nDocs)
    hLoaded.stored.length_eq (load_related store₀ count hTokens)
  apply hFold.bind
  rintro ⟨stack, c⟩ S hRelated
  have hSize : stack.vtSize = S.evalStack.length := hRelated.size
  have hStack := hRelated.stack
  have hRun := hRelated.run
  simp only [hSize]
  rcases hEval : S.evalStack with _ | ⟨top, _ | ⟨next, rest⟩⟩
  · exact .error rfl
  · rw [hEval] at hStack hRun
    obtain ⟨t, ts, hRead, hNil, hElems⟩ := List.forall₂_cons_right_iff.mp hStack
    obtain rfl := List.forall₂_nil_right_iff.mp hNil
    have hConcat : stack.elems = [] ++ [t] := by
      rw [← List.reverse_reverse stack.elems, hElems]
      rfl
    rw [vtPeekBack_eq hRelated.sound hConcat]
    exact .ok ⟨hRead, hRelated.count, hRun⟩
  · exact .error rfl

end Search

end Bisen.PostingArrays
