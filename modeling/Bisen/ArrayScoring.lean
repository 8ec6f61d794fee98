import Bisen.ArrayEvaluation

/-! # What is left for scoring

Scoring indexes the lists of the words by the documents found. After a query with an operator they
are all gone; a query that is one word keeps its list, until the end of the call removes it once.
-/
namespace Bisen.PostingArrays
open Wire VecInt VecToken EvaluatorSets
set_option autoImplicit false

/-! ## Scoring -/

/-- What scoring needs of a token: the sizes of its list, and the list itself unless it is empty. -/
structure Readable (store : Store) (t : IeeToken) (r : TokenRef) : Prop where
  type : r.type = t.type
  counter : t.type = wordToken → r.docs.counter = t.docs.counter
  lists : t.type = wordToken → t.docs.counter ≠ 0 →
    r.docs.read store = .ok t.docs ∧ r.docFrequencies.read store = .ok t.docFrequencies

section Terms
variable (B : Build) {store : Store}

theorem viIndexOf_of_empty {v : VecInt} (h : v.counter = 0) (e : BitVec 32) : VecInt.viIndexOf v e = -1 := by
  rw [VecInt.viIndexOf, VecInt.elems, h]
  rfl

theorem viIndexOf_eq {t : IeeToken} {r : TokenRef} (h : Readable store t r) (hWord : t.type = wordToken)
    (e : BitVec 32) : viIndexOf r.docs e store = .ok (VecInt.viIndexOf t.docs e) := by
  rw [viIndexOf, h.counter hWord]
  split
  · case isTrue hZero => rw [viIndexOf_of_empty hZero]
  · case isFalse hCounter =>
    rw [(h.lists hWord hCounter).1]
    rfl

theorem addTerm_eq {t : IeeToken} {r : TokenRef} (h : Readable store t r) (hWord : t.type = wordToken)
    (currDoc : BitVec 32) (acc idf : B.R) :
    addTerm B currDoc store acc (r, idf) = .ok (
      let pos := VecInt.viIndexOf t.docs currDoc
      if pos ≠ -1 then
        B.doubles.add acc (B.doubles.mul (B.doubles.ofInt (t.docFrequencies.array.getD pos.toNat 0)) idf)
      else acc) := by
  rw [addTerm, viIndexOf_eq h hWord]
  simp only [bind, Except.bind]
  split
  · case isTrue hFound =>
    have hCounter : t.docs.counter ≠ 0 := fun hZero => hFound (viIndexOf_of_empty hZero currDoc)
    rw [(h.lists hWord hCounter).2]
    rfl
  · rfl

theorem idfOf_eq {t : IeeToken} {r : TokenRef} (h : Readable store t r) (hWord : t.type = wordToken)
    (nDocs : BitVec 32) : idfOf B nDocs r = Response.idfOf B nDocs t := by
  rw [idfOf, h.counter hWord]
  rfl

theorem calcIdf_cons_word {r : TokenRef} {rs : List TokenRef} (hWord : r.type = wordToken) (nDocs : BitVec 32) :
    calcIdf B (r :: rs) nDocs = (r, idfOf B nDocs r) :: calcIdf B rs nDocs := by
  rw [calcIdf, List.filter_cons_of_pos (by simpa using hWord)]
  rfl

theorem calcIdf_cons_other {r : TokenRef} {rs : List TokenRef} (hOther : r.type ≠ wordToken) (nDocs : BitVec 32) :
    calcIdf B (r :: rs) nDocs = calcIdf B rs nDocs := by
  rw [calcIdf, List.filter_cons_of_neg (by simpa using hOther)]
  rfl

/-- Where every list that is indexed is there, scoring reads what it would read from the values. -/
theorem tfIdf_eq {ts : List IeeToken} {rs : List TokenRef} (h : List.Forall₂ (Readable store) ts rs)
    (nDocs currDoc : BitVec 32) (acc : B.R) :
    (calcIdf B rs nDocs).foldlM (addTerm B currDoc store) acc =
      .ok (((ts.filter (·.type = wordToken)).map fun t => (t, Response.idfOf B nDocs t)).foldl
        (fun acc (t, idf) =>
          let pos := VecInt.viIndexOf t.docs currDoc
          if pos ≠ -1 then
            B.doubles.add acc (B.doubles.mul (B.doubles.ofInt (t.docFrequencies.array.getD pos.toNat 0)) idf)
          else acc) acc) := by
  induction h generalizing acc with
  | nil => rfl
  | @cons t r ts rs hReadable _ ih =>
    by_cases hWord : t.type = wordToken
    · rw [calcIdf_cons_word B (hReadable.type.trans hWord), List.foldlM_cons, addTerm_eq B hReadable hWord,
        idfOf_eq B hReadable hWord, List.filter_cons_of_pos (by simpa using hWord)]
      exact ih _
    · rw [calcIdf_cons_other B (hReadable.type ▸ hWord), List.filter_cons_of_neg (by simpa using hWord)]
      exact ih acc

theorem calcTfidf_eq {query : VecToken} {rs : List TokenRef} (h : List.Forall₂ (Readable store) query.elems rs)
    (nDocs : BitVec 32) (docs : VecInt) :
    calcTfidf B (calcIdf B rs nDocs) docs.elems store =
      .ok (Response.calcTfidf B (Response.calcIdf B query nDocs) docs) := by
  rw [calcTfidf, Response.calcTfidf]
  induction docs.elems with
  | nil => rfl
  | cons currDoc rest ih =>
    rw [List.mapM_cons, ih, tfIdf, tfIdf_eq B h]
    rfl

/-- With every list gone, the first one that is indexed stops the scoring. -/
theorem tfIdf_absent {rs : List TokenRef} (hGone : ∀ r ∈ rs, r.type = wordToken → store.get r.docs.array = none)
    (hIndexed : ∃ r ∈ rs, r.type = wordToken ∧ r.docs.counter ≠ 0) (nDocs currDoc : BitVec 32) (acc : B.R) :
    (calcIdf B rs nDocs).foldlM (addTerm B currDoc store) acc = .error .absent := by
  induction rs generalizing acc with
  | nil =>
    obtain ⟨_, hMem, _⟩ := hIndexed
    cases hMem
  | cons r rs ih =>
    have hTail : (∃ u ∈ rs, u.type = wordToken ∧ u.docs.counter ≠ 0) → ∀ acc,
        (calcIdf B rs nDocs).foldlM (addTerm B currDoc store) acc = .error .absent :=
      fun hRest => ih (fun u hu => hGone u (List.mem_cons_of_mem _ hu)) hRest
    obtain ⟨u, hMem, hWord, hCounter⟩ := hIndexed
    by_cases hType : r.type = wordToken
    · rw [calcIdf_cons_word B hType, List.foldlM_cons, addTerm, viIndexOf]
      split
      · case isTrue hZero =>
        obtain rfl | hRest := List.mem_cons.mp hMem
        · exact absurd hZero hCounter
        · exact hTail ⟨u, hRest, hWord, hCounter⟩ acc
      · rw [VecRef.read, hGone r List.mem_cons_self hType]
        rfl
    · rw [calcIdf_cons_other B hType]
      obtain rfl | hRest := List.mem_cons.mp hMem
      · exact absurd hWord hType
      · exact hTail ⟨u, hRest, hWord, hCounter⟩ acc

theorem calcTfidf_absent {rs : List TokenRef} {docs : List (BitVec 32)} (hDocs : docs ≠ [])
    (hGone : ∀ r ∈ rs, r.type = wordToken → store.get r.docs.array = none)
    (hIndexed : ∃ r ∈ rs, r.type = wordToken ∧ r.docs.counter ≠ 0) (nDocs : BitVec 32) :
    calcTfidf B (calcIdf B rs nDocs) docs store = .error .absent := by
  obtain ⟨currDoc, rest, rfl⟩ := List.exists_cons_of_ne_nil hDocs
  rw [calcTfidf, List.mapM_cons, tfIdf, tfIdf_absent B hGone hIndexed]
  rfl

end Terms

/-! ## What a search leaves for scoring -/

/-- The lists of every word are there as they were fetched. -/
def Usable (query : List IeeToken) (r : Search) : Prop :=
  List.Forall₂ (fun t u => t.type = wordToken →
    u.docs.read r.evaluated = .ok t.docs ∧ u.docFrequencies.read r.evaluated = .ok t.docFrequencies) query r.query

/-- Scoring finds every list that it indexes, and computes what the values say. -/
def Scores (B : Build) (query : VecToken) (nDocs : BitVec 32) (docs : VecInt) (r : Search) : Prop :=
  calcTfidf B (calcIdf B r.query nDocs) docs.elems r.evaluated =
    .ok (Response.calcTfidf B (Response.calcIdf B query nDocs) docs)

/-- How a search stands after an evaluation: one word with nothing freed, or all words freed. -/
structure Evaluation (query : List IeeToken) (docs : VecInt) (r : Search) : Prop where
  loaded : ∃ store₀, Loaded store₀ r.fetched query r.query
  docs : r.responseDocs.read r.evaluated = .ok docs
  lists : (∀ t ∈ query, ¬ isOperator t) ∧ r.evaluated = r.fetched ∨
    (∃ t ∈ query, isOperator t) ∧ (∃ u ∈ r.query, u.type = wordToken) ∧
      ∀ u ∈ r.query, u.type = wordToken → r.evaluated.get u.docs.array = none

theorem not_read {store : Store} {v : VecRef} (h : store.get v.array = none) (list : VecInt) :
    v.read store ≠ .ok list := by
  rw [VecRef.read, h]
  exact fun hRead => (by cases hRead)

theorem counter_of_read {store : Store} {v : VecRef} {list : VecInt} (h : v.read store = .ok list) :
    v.counter = list.counter := by
  unfold VecRef.read at h
  split at h
  · cases h
    rfl
  · cases h

namespace Evaluation
variable {docs : VecInt} {r : Search}

theorem usable_iff {query : List IeeToken} (h : Evaluation query docs r) :
    Usable query r ↔ ∀ t ∈ query, ¬ isOperator t := by
  obtain ⟨store₀, hLoaded⟩ := h.loaded
  obtain ⟨hWords, hSame⟩ | ⟨⟨op, hOp, hOperator⟩, ⟨u, hu, hWord⟩, hGone⟩ := h.lists
  · refine iff_of_true ?_ hWords
    rw [Usable, hSame]
    exact hLoaded.stored.imp fun t u hStored hWord => ⟨hStored.docs hWord, hStored.docFrequencies hWord⟩
  · refine iff_of_false ?_ fun hWords => hWords op hOp hOperator
    intro hUsable
    have hBoth := List.Forall₂.mp (fun _ _ => And.intro) hLoaded.stored hUsable
    obtain ⟨t, _, hStored, hRead⟩ := Simulation.exists_left hBoth hu
    exact not_read (hGone u hu hWord) _ (hRead (hStored.type ▸ hWord)).1

theorem scores_iff (B : Build) {query : VecToken} {nDocs : BitVec 32} (h : Evaluation query.elems docs r) :
    Scores B query nDocs docs r ↔ (∀ t ∈ query.elems, ¬ isOperator t) ∨ docs.elems = [] ∨
      ∀ t ∈ query.elems, t.type = wordToken → t.docs.counter = 0 := by
  obtain ⟨store₀, hLoaded⟩ := h.loaded
  constructor
  · intro hScores
    obtain ⟨hWords, _⟩ | ⟨_, _, hGone⟩ := h.lists
    · exact .inl hWords
    by_contra hNot
    simp only [not_or, not_forall] at hNot
    obtain ⟨_, hDocs, t, ht, hWord, hCounter⟩ := hNot
    obtain ⟨u, hu, hStored⟩ := Simulation.exists_right hLoaded.stored ht
    have hCounter' : u.docs.counter ≠ 0 := counter_of_read (hStored.docs hWord) ▸ hCounter
    rw [Scores, calcTfidf_absent B hDocs hGone ⟨u, hu, hStored.type.trans hWord, hCounter'⟩] at hScores
    cases hScores
  · rintro (hWords | hDocs | hEmpty)
    · obtain ⟨_, hSame⟩ | ⟨⟨op, hOp, hOperator⟩, _, _⟩ := h.lists
      · rw [Scores, hSame]
        exact calcTfidf_eq B (hLoaded.stored.imp fun t u hStored =>
          ⟨hStored.type, fun hWord => counter_of_read (hStored.docs hWord),
            fun hWord _ => ⟨hStored.docs hWord, hStored.docFrequencies hWord⟩⟩) nDocs docs
      · exact absurd hOperator (hWords op hOp)
    · rw [Scores, Response.calcTfidf, hDocs]
      rfl
    · refine calcTfidf_eq B (Simulation.forall₂_imp_of_mem hLoaded.stored fun t ht u _ hStored => ?_) nDocs docs
      exact ⟨hStored.type, fun hWord => counter_of_read (hStored.docs hWord),
        fun hWord hCounter => absurd (hEmpty t ht hWord) hCounter⟩

end Evaluation

theorem evaluate_eq_ok {rs : List TokenRef} {nDocs : BitVec 32} {count : List UInt8} {store : Store}
    {v : VecRef} {S : State} (h : evaluate rs nDocs count store = .ok (v, S)) :
    rs.foldlM (evaluateToken nDocs) ⟨[], count, store⟩ = .ok S ∧ ∃ top, S.evalStack = [top] ∧ top.docs = v := by
  obtain ⟨S', hFold, hRet⟩ := bind_eq_ok_iff.mp h
  split at hRet
  · case h_1 top hTop =>
    cases hRet
    exact ⟨hFold, top, hTop, rfl⟩
  · cases hRet

section Searches
variable (store₀ : Store) {query : VecToken} {nDocs : BitVec 32} {count c : List UInt8} {docs : VecInt}
  (hTokens : ∀ t ∈ query.elems, t.type = wordToken ∨ isOperator t)
  (hAccepts : QueryEvaluator.evaluate query nDocs count = .ok (docs, c))
include hTokens hAccepts

/-- Every accepted query is searched without an array removed twice, or missed while evaluating. -/
theorem search_evaluation : ∃ r, search query.elems nDocs count store₀ = .ok r ∧ Evaluation query.elems docs r := by
  have hLoaded := load_loaded query.elems store₀
  obtain ⟨⟨v, S⟩, hEval, hEnded⟩ := (evaluate_follows store₀ nDocs count hTokens).exists_ok hAccepts
  obtain ⟨hFold, top, hTop, rfl⟩ := evaluate_eq_ok hEval
  have hLive : (S.store.get top.docs.array).isSome := hEnded.run.owns.live _ (List.mem_append_left _
    (List.mem_singleton_self _))
  have hEnd : viDestroy S.store top.docs = .ok (S.store.remove top.docs.array) := by
    rw [viDestroy, Heap.free, if_pos hLive]
  refine ⟨⟨(load query.elems store₀).1, (load query.elems store₀).2, S.store, top.docs,
    S.store.remove top.docs.array⟩, ?_, ⟨store₀, hLoaded⟩, hEnded.docs, ?_⟩
  · change (evaluate (load query.elems store₀).1 nDocs count (load query.elems store₀).2 >>= _) = _
    rw [hEval]
    simp only [bind, Except.bind, hEnd]
    rfl
  obtain ⟨hNew, ⟨u, hu, hWord⟩, ⟨w, hw, hOperates⟩⟩ | ⟨hSingle, hWord, hSame⟩ := run_singleton hFold hTop
  · right
    obtain ⟨t, ht, hStored⟩ := Simulation.exists_left hLoaded.stored hu
    obtain ⟨t', ht', hStored'⟩ := Simulation.exists_left hLoaded.stored hw
    have hOperator : Operates t'.type := hStored'.type ▸ hOperates
    refine ⟨⟨t', ht', hOperator⟩, ⟨u, hu, ?_⟩, ?_⟩
    · rw [hStored.type] at hWord ⊢
      exact (hTokens t ht).resolve_right hWord
    · intro u hu hType
      have hMem := mem_wordArrays hu hType
      exact hEnded.run.gone hNew hMem (hLoaded.owns.lt_next (List.mem_append_left _ hMem))
  · left
    refine ⟨?_, hSame⟩
    intro t ht hOperator
    obtain ⟨u, hu, hStored⟩ := Simulation.exists_right hLoaded.stored ht
    rw [hSingle, List.mem_singleton] at hu
    subst hu
    exact hWord (hStored.type ▸ hOperator)

/-- No array is removed twice and the evaluator misses none; the posting lists are left for
scoring exactly when the query has no operator. Otherwise scoring does without them only where
it indexes none. -/
theorem search_usable_iff : ∃ r, search query.elems nDocs count store₀ = .ok r ∧
    r.responseDocs.read r.evaluated = .ok docs ∧
    (Usable query.elems r ↔ ∀ t ∈ query.elems, ¬ isOperator t) ∧
    ∀ B : Build, Scores B query nDocs docs r ↔ (∀ t ∈ query.elems, ¬ isOperator t) ∨ docs.elems = [] ∨
      ∀ t ∈ query.elems, t.type = wordToken → t.docs.counter = 0 := by
  obtain ⟨r, hSearch, hEvaluation⟩ := search_evaluation store₀ hTokens hAccepts
  exact ⟨r, hSearch, hEvaluation.docs, hEvaluation.usable_iff, fun B => hEvaluation.scores_iff B⟩

end Searches

/-- A word that was fetched with these documents, once in each. -/
def fetchedWord (docs : List (BitVec 32)) : IeeToken :=
  { wordOf docs with docFrequencies := ⟨List.replicate docs.length 1, docs.length, 0⟩ }

/-- The query `a`, over two documents that both contain it. -/
def single : VecToken := ⟨[fetchedWord [0, 1]], 1, 1⟩

theorem search_usable_iff_single : ∃ r, search single.elems 2 [0, 0] .empty = .ok r ∧ Usable single.elems r := by
  have hWords : ∀ t ∈ single.elems, t.type = wordToken ∧ ¬ isOperator t := by
    intro t ht
    obtain rfl := List.mem_singleton.mp ht
    exact ⟨rfl, by rintro (h | h | h) <;> cases h⟩
  have hAccepts : QueryEvaluator.evaluate single 2 [0, 0] = .ok (⟨[0, 1], 2, 2⟩, [0, 0]) := by decide
  obtain ⟨r, hSearch, _, hUsable, _⟩ := search_usable_iff .empty (fun t ht => .inl (hWords t ht).1) hAccepts
  exact ⟨r, hSearch, hUsable.mpr fun t ht => (hWords t ht).2⟩

/-- The query `a b &` over one document that contains both words. -/
def pair : VecToken := ⟨[fetchedWord [0], fetchedWord [0], opOf andToken], 3, 3⟩

theorem not_usable_pair : QueryEvaluator.evaluate pair 1 [0] = .ok (⟨[0], 1, 1⟩, [2]) ∧
    ∃ r, search pair.elems 1 [0] .empty = .ok r ∧ ¬ Usable pair.elems r ∧
      ∀ B, ¬ Scores B pair 1 ⟨[0], 1, 1⟩ r := by
  have hAccepts : QueryEvaluator.evaluate pair 1 [0] = .ok (⟨[0], 1, 1⟩, [2]) := by decide
  have hTokens : ∀ t ∈ pair.elems, t.type = wordToken ∨ isOperator t := by
    intro t ht
    have hMem : t ∈ [fetchedWord [0], fetchedWord [0], opOf andToken] := ht
    simp only [List.mem_cons, List.not_mem_nil, or_false] at hMem
    obtain rfl | rfl | rfl := hMem
    · exact .inl rfl
    · exact .inl rfl
    · exact .inr (.inl rfl)
  have hOperator : ¬ ∀ t ∈ pair.elems, ¬ isOperator t := fun h => h (opOf andToken) (by decide) (.inl rfl)
  obtain ⟨r, hSearch, hEvaluation⟩ := search_evaluation .empty hTokens hAccepts
  refine ⟨hAccepts, r, hSearch, fun hUsable => hOperator (hEvaluation.usable_iff.mp hUsable), ?_⟩
  intro B hScores
  obtain hWords | hDocs | hEmpty := (hEvaluation.scores_iff B).mp hScores
  · exact hOperator hWords
  · cases hDocs
  · cases hEmpty (fetchedWord [0]) (by decide) rfl

end Bisen.PostingArrays
