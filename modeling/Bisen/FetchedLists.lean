import Bisen.HonestRetrieval
import Bisen.Reference

/-! # What fetching leaves behind

Every pair of a word token and a position below its counter is requested exactly once, in batches
that are neither empty nor too large, and every cell ends with what is stored under its own label,
whatever the shuffle did. The loop counts the labels in an `int`, so there must be fewer than 2^31.
-/
namespace Bisen.FetchedLists
open Wire Socket SseIee VecToken Retrieval HonestRetrieval
set_option autoImplicit false

/-- The frequency and the document stored under a label. -/
abbrev Stored := Bytes → BitVec 32 × BitVec 32

def sealedEntry (P : Platform) (stored : Stored) (label : Bytes) : Bytes :=
  Tcrypto.encrypt P (unencData label (stored label).1 (stored label).2) zeroKey zeroCtr

/-- The service is inside a search and holds an entry under every label of the query. -/
structure Honest (P : Platform) (stored : Stored) (query : VecToken) (storage : Storage) : Prop where
  started : 0 < storage.nrSearches
  entries : ∀ t, t ∈ query.elems → t.type = wordToken → ∀ j, j < t.counter →
    storage.I (labelOf P t.kW (.ofNat 32 j)) = some (sealedEntry P stored (labelOf P t.kW (.ofNat 32 j)))

/-- The word tokens have allocated as many cells as their counters say. -/
structure Allocated (query : VecToken) : Prop where
  sound : query.Sound
  cells : ∀ t, t ∈ query.elems → t.type = wordToken →
    t.docs.array.length = t.counter ∧ t.docFrequencies.array.length = t.counter

/-- The `unsigned` sum of the counters. -/
def countLabels (query : VecToken) : Nat := (wordCounters query).sum % 2 ^ 32

def fillToken (P : Platform) (stored : Stored) (t : IeeToken) : IeeToken :=
  if t.type = wordToken then
    let cells := (List.range t.counter).map fun j => stored (labelOf P t.kW (.ofNat 32 j))
    { t with
      docs := { t.docs with array := cells.map Prod.snd }
      docFrequencies := { t.docFrequencies with array := cells.map Prod.fst } }
  else t

section Fetching
variable (P : Platform) (r : Nat → Nat) (enclave : Enclave) (stored : Stored) (query : VecToken)
  (storage : Storage)

structure Fetching (labels : List LabelRequest) (batches : List (List LabelRequest)) : Prop where
  filled : fillLabels r (max enclave.labelsSize (countLabels query)) query = .ok labels
  nodup : labels.Nodup
  pairs : ∀ req, req ∈ labels ↔
    ∃ t, query.elems[req.tkn]? = some t ∧ t.type = wordToken ∧ req.counterVal < t.counter
  split : batches.flatten = labels
  size : ∀ batch, batch ∈ batches → batch ≠ [] ∧ batch.length ≤ maxBatchSearch
  run : ∃ enclave' query' inn,
    Runs Link.peer (getDocsFromServer P r enclave query (countLabels query)) (.opened storage)
      (enclave', query') (.opened storage)
      (batches.map fun batch => SseServer.encodeSearch (batch.map (requestLabel P query))) inn ∧
    query'.elems = query.elems.map (fillToken P stored)

def Fetches : Prop := ∃ labels batches, Fetching P r enclave stored query storage labels batches

end Fetching

/-! ## The batches -/

theorem requestsFrom_batches (f : LabelRequest → Bytes) {labels : List LabelRequest} {total : Nat}
    (hTotal : total ≤ labels.length) {fuel labelPos : Nat} (hFuel : total - labelPos ≤ fuel) :
    ∃ batches : List (List LabelRequest),
      requestsFrom (labels.map f) total fuel labelPos =
        batches.map (fun batch => SseServer.encodeSearch (batch.map f)) ∧
      batches.flatten = (labels.drop labelPos).take (total - labelPos) ∧
      ∀ batch, batch ∈ batches → batch ≠ [] ∧ batch.length ≤ maxBatchSearch := by
  induction fuel generalizing labelPos with
  | zero =>
    rw [Nat.le_zero.mp hFuel]
    exact ⟨[], rfl, by simp, by simp⟩
  | succ fuel ih =>
    rw [requestsFrom]
    split
    · case isTrue hMore =>
      obtain ⟨hPos, hBatch, _⟩ := batchSize_bounds (Nat.sub_pos_of_lt hMore)
      have hMax : min (total - labelPos) maxBatchSearch ≤ maxBatchSearch := Nat.min_le_right _ _
      generalize min (total - labelPos) maxBatchSearch = batchSize at hPos hBatch hMax ⊢
      obtain ⟨batches, hRequests, hFlatten, hSize⟩ :=
        ih (show total - (labelPos + batchSize) ≤ fuel by omega)
      have hLength : ((labels.drop labelPos).take batchSize).length = batchSize := by
        rw [List.length_take, List.length_drop]
        omega
      refine ⟨(labels.drop labelPos).take batchSize :: batches, ?_, ?_, ?_⟩
      · simp only [hRequests, List.map_cons, List.map_take, List.map_drop]
      · rw [List.flatten_cons, hFlatten, take_batch labels hBatch]
      · intro batch hMem
        obtain rfl | hMem := List.mem_cons.mp hMem
        · constructor
          · intro hNil
            rw [hNil, List.length_nil] at hLength
            omega
          · rwa [hLength]
        · exact hSize batch hMem
    · rw [show total - labelPos = 0 by omega]
      exact ⟨[], rfl, by simp, by simp⟩

/-! ## The cells -/

section Honestly
variable {P : Platform} (hP : P.Documented) {stored : Stored} {query : VecToken} {storage : Storage}

include hP in
theorem answersOf_sealed (query : VecToken) (req : LabelRequest) :
    answersOf P (fun req => sealedEntry P stored (requestLabel P query req)) req =
      stored (requestLabel P query req) := by
  have hLabel : (requestLabel P query req).length = Tcrypto.sha256OutputSize :=
    Tcrypto.length_hmacSha256 hP _ _
  rw [answersOf]
  exact Prod.ext (frequencyOf_encrypt P hP hLabel _ _) (docIdOf_encrypt P hP hLabel _ _)

theorem mapIdx_all {l : List (BitVec 32)} {n : Nat} (hLength : l.length = n) (keep : Nat → Prop)
    [DecidablePred keep] (hKeep : ∀ j, j < n → keep j) (g : Nat → BitVec 32) :
    l.mapIdx (fun j x => if keep j then g j else x) = (List.range n).map g := by
  apply List.ext_getElem
  · rw [List.length_mapIdx, List.length_map, List.length_range, hLength]
  · intro j hj _
    rw [List.length_mapIdx, hLength] at hj
    simp [hKeep j hj]

include hP in
theorem overwrite_eq_fillToken (hAllocated : Allocated query) {labels : List LabelRequest}
    (hPairs : ∀ req, req ∈ labels ↔
      ∃ t, query.elems[req.tkn]? = some t ∧ t.type = wordToken ∧ req.counterVal < t.counter)
    {i : Nat} {t : IeeToken} (ht : query.elems[i]? = some t) :
    overwrite (answersOf P fun req => sealedEntry P stored (requestLabel P query req)) labels i t =
      fillToken P stored t := by
  have hMem := List.mem_of_getElem? ht
  unfold overwrite fillToken
  simp only [answersOf_sealed hP]
  split
  · case isTrue hType =>
    have hAll : ∀ j, j < t.counter → (⟨i, j⟩ : LabelRequest) ∈ labels :=
      fun j hj => (hPairs ⟨i, j⟩).mpr ⟨t, ht, hType, hj⟩
    have hLabels : ∀ j, requestLabel P query ⟨i, j⟩ = labelOf P t.kW (.ofNat 32 j) := by
      intro j
      rw [requestLabel, tokenAt_eq ht]
    obtain ⟨hDocs, hFrequencies⟩ := hAllocated.cells t hMem hType
    rw [mapIdx_all hDocs _ hAll, mapIdx_all hFrequencies _ hAll]
    simp only [hLabels, List.map_map]
    rfl
  · case isFalse hType =>
    have hNone : ∀ j, (⟨i, j⟩ : LabelRequest) ∉ labels := by
      intro j hIn
      obtain ⟨u, hu, hWord, _⟩ := (hPairs _).mp hIn
      rw [ht] at hu
      cases hu
      exact hType hWord
    simp [hNone, List.mapIdx_eq_zipIdx_map]

include hP in
theorem fetches_of_lt (r : Nat → Nat) (enclave : Enclave) (hAllocated : Allocated query)
    (hHonest : Honest P stored query storage) (hSum : (wordCounters query).sum < 2 ^ 31) :
    Fetches P r enclave stored query storage := by
  have hCount : countLabels query = (visited query).length := by
    rw [countLabels, length_visited, Nat.mod_eq_of_lt (by omega)]
  have hRoom : (visited query).length ≤ min (max enclave.labelsSize (countLabels query)) intMax := by
    rw [hCount, length_visited]
    unfold intMax
    omega
  have hFill := fillLabels_ok r hRoom
  have hPerm := Shuffle.shuffle_perm r (visited query)
  have hPairs : ∀ req, req ∈ Shuffle.shuffle r (visited query) ↔
      ∃ t, query.elems[req.tkn]? = some t ∧ t.type = wordToken ∧ req.counterVal < t.counter :=
    fun req => hPerm.mem_iff.trans mem_visited
  have hLength : (Shuffle.shuffle r (visited query)).length = countLabels query := by
    rw [Shuffle.length_shuffle, hCount]
  generalize Shuffle.shuffle r (visited query) = labels at hFill hPerm hPairs hLength
  have hLabel : ∀ req, (requestLabel P query req).length = SseServer.lSize :=
    fun req => Tcrypto.length_hmacSha256 hP _ _
  have hFound : ∀ req, req ∈ labels → storage.I (requestLabel P query req) =
      some (sealedEntry P stored (requestLabel P query req)) := by
    intro req hReq
    obtain ⟨t, ht, hType, hj⟩ := (hPairs req).mp hReq
    rw [requestLabel, tokenAt_eq ht]
    exact hHonest.entries t (List.mem_of_getElem? ht) hType req.counterVal hj
  have hWidth : ∀ req, req ∈ labels → (sealedEntry P stored (requestLabel P query req)).length = resLen := by
    intro req _
    rw [sealedEntry, Tcrypto.length_encrypt hP, unencData, List.length_append, List.length_append, hLabel,
      length_word32, length_word64]
    rfl
  have hFuel : countLabels query - 0 ≤ countLabels query := Nat.sub_le _ _
  obtain ⟨out, inn, hLoop⟩ := requestLoop_honest (P := P) hHonest.started (requestLabel P query)
    (fun req => sealedEntry P stored (requestLabel P query req)) hLabel hFound hWidth
    (fun req _ => verified_encrypt P hP (hLabel req) _ _) rfl hLength.ge hFuel
  obtain ⟨rfl, _⟩ := requestLoop_runs P hFuel hLoop
  rw [List.drop_zero, Nat.sub_zero, List.take_of_length_le hLength.le] at hLoop
  obtain ⟨batches, hRequests, hFlatten, hSize⟩ := requestsFrom_batches (requestLabel P query) hLength.ge
    hFuel
  rw [List.drop_zero, Nat.sub_zero, List.take_of_length_le hLength.le] at hFlatten
  refine ⟨labels, batches, hFill, hPerm.nodup_iff.mpr (nodup_visited query), hPairs, hFlatten, hSize,
    { enclave with labelsSize := max enclave.labelsSize (countLabels query) },
    setDocs (answersOf P fun req => sealedEntry P stored (requestLabel P query req)) query labels, inn, ?_, ?_⟩
  · rw [← hRequests, getDocsFromServer]
    simp only [hFill, Program.lift_ok, Program.ret_bind]
    rw [← List.append_nil (requestsFrom _ _ _ _), ← List.append_nil inn]
    exact hLoop.bind rfl
  · rw [elems_setDocs hAllocated.sound]
    apply List.ext_getElem?
    intro i
    rw [List.getElem?_mapIdx, List.getElem?_map]
    cases ht : query.elems[i]? with
    | none => rfl
    | some t => exact congrArg some (overwrite_eq_fillToken hP hAllocated hPairs ht)

theorem lt_of_fetches {r : Nat → Nat} {enclave : Enclave} (h : Fetches P r enclave stored query storage) :
    (wordCounters query).sum < 2 ^ 31 := by
  obtain ⟨labels, batches, hFetching⟩ := h
  have hRoom := (fillLabels_eq_ok r hFetching.filled).2
  rw [length_visited] at hRoom
  unfold intMax at hRoom
  omega

include hP in
theorem fetches_iff (r : Nat → Nat) (enclave : Enclave) (hAllocated : Allocated query)
    (hHonest : Honest P stored query storage) :
    Fetches P r enclave stored query storage ↔ (wordCounters query).sum < 2 ^ 31 :=
  ⟨lt_of_fetches, fetches_of_lt hP r enclave hAllocated hHonest⟩

end Honestly

/-- A service that would find any label. -/
def fullStorage (P : Platform) (stored : Stored) : Storage := ⟨fun label => some (sealedEntry P stored label), 1⟩

theorem honest_fullStorage (P : Platform) (stored : Stored) (query : VecToken) :
    Honest P stored query (fullStorage P stored) := ⟨Nat.one_pos, fun _ _ _ _ _ => rfl⟩

theorem allocated_wordTkn (counter : BitVec 32) (kW : Bytes) :
    (wordTkn counter kW).docs.array.length = (wordTkn counter kW).counter ∧
      (wordTkn counter kW).docFrequencies.array.length = (wordTkn counter kW).counter :=
  ⟨List.length_replicate, List.length_replicate⟩

/-- Two words and the operator on them. -/
def pairQuery (counter counter' : BitVec 32) : VecToken :=
  ⟨[wordTkn counter [], wordTkn counter' [], { IeeToken.zero with type := andToken }], 3, 3⟩

theorem allocated_pairQuery (counter counter' : BitVec 32) : Allocated (pairQuery counter counter') := by
  have hElems : (pairQuery counter counter').elems =
      [wordTkn counter [], wordTkn counter' [], { IeeToken.zero with type := andToken }] := rfl
  refine ⟨⟨rfl, Nat.le_refl _, Nat.succ_pos _⟩, ?_⟩
  intro t ht hType
  rw [hElems] at ht
  simp only [List.mem_cons, List.not_mem_nil, or_false] at ht
  obtain rfl | rfl | rfl := ht
  · exact allocated_wordTkn _ _
  · exact allocated_wordTkn _ _
  · cases hType

theorem wordCounters_pairQuery (counter counter' : BitVec 32) :
    wordCounters (pairQuery counter counter') = [counter.toNat, counter'.toNat] := rfl

theorem fetches_iff_pair :
    Fetches Reference.platform fixedChoice ⟨0, [], 0, 1⟩ (fun _ => (4, 7)) (pairQuery 1500 0)
      (fullStorage Reference.platform fun _ => (4, 7)) := by
  refine (fetches_iff Reference.documented fixedChoice _ (allocated_pairQuery _ _)
    (honest_fullStorage _ _ _)).mpr ?_
  rw [wordCounters_pairQuery]
  decide

/-- Two words in 2^30 and in 2^30 + 1 documents: when the last label is stored, the `int` that is its index has already
overflowed. -/
theorem not_fetches_overflowed :
    ¬ ∀ (P : Platform), P.Documented → ∀ (r : Nat → Nat) (enclave : Enclave) (stored : Stored) (query : VecToken)
      (storage : Storage), Allocated query → Honest P stored query storage →
      Fetches P r enclave stored query storage := by
  intro hAll
  have hFetches := hAll Reference.platform Reference.documented fixedChoice ⟨0, [], 0, 1⟩ (fun _ => (4, 7))
    (pairQuery 0x40000000 0x40000001) (fullStorage Reference.platform fun _ => (4, 7))
    (allocated_pairQuery _ _) (honest_fullStorage _ _ _)
  have hSum := lt_of_fetches hFetches
  rw [wordCounters_pairQuery] at hSum
  exact absurd hSum (by decide)

end Bisen.FetchedLists
