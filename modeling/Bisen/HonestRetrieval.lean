import Bisen.Retrieval

/-! # Fetching posting lists from the storage service

When the service holds an entry that passes the check under every requested label, fetching
completes, leaves the service as it was, and fills every cell of every posting list from the
entry stored under that cell's own label.
-/
namespace Bisen.HonestRetrieval
open Wire Socket SseIee VecToken Retrieval
set_option autoImplicit false

/-! ## Writing all cells -/

abbrev Answers := LabelRequest → BitVec 32 × BitVec 32

/-- The cells of token `i` that `reqs` name, overwritten with their frequencies and numbers. -/
def overwrite (answers : Answers) (reqs : List LabelRequest) (i : Nat) (t : IeeToken) : IeeToken := { t with
  docs := { t.docs with
    array := t.docs.array.mapIdx fun j x => if ⟨i, j⟩ ∈ reqs then (answers ⟨i, j⟩).2 else x }
  docFrequencies := { t.docFrequencies with
    array := t.docFrequencies.array.mapIdx fun j x => if ⟨i, j⟩ ∈ reqs then (answers ⟨i, j⟩).1 else x } }

def setDocs (answers : Answers) (query : VecToken) (reqs : List LabelRequest) : VecToken :=
  reqs.foldl (fun query req => setDoc query req (answers req).1 (answers req).2) query

theorem setDocs_append (answers : Answers) (query : VecToken) (reqs reqs' : List LabelRequest) :
    setDocs answers query (reqs ++ reqs') = setDocs answers (setDocs answers query reqs) reqs' :=
  List.foldl_append ..

theorem mapIdx_set (g : Nat → BitVec 32) (keep : Nat → Prop) [DecidablePred keep] (l : List (BitVec 32))
    (k : Nat) :
    (l.set k (g k)).mapIdx (fun j x => if keep j then g j else x) =
      l.mapIdx fun j x => if j = k ∨ keep j then g j else x := by
  apply List.ext_getElem (by simp)
  intro j _ _
  simp only [List.getElem_mapIdx, List.getElem_set]
  by_cases hj : j = k
  · subst hj
    simp
  · simp [hj, Ne.symm hj]

theorem tokenAt_setDocs (answers : Answers) (reqs : List LabelRequest) (query : VecToken) {i : Nat}
    (hi : i < query.array.length) :
    tokenAt (setDocs answers query reqs) i = overwrite answers reqs i (tokenAt query i) := by
  induction reqs generalizing query with
  | nil => simp [setDocs, overwrite, List.mapIdx_eq_zipIdx_map]
  | cons req reqs ih =>
    have hLength : (setDoc query req (answers req).1 (answers req).2).array.length = query.array.length := by
      simp [setDoc]
    rw [setDocs, List.foldl_cons]
    refine (ih _ (by omega)).trans ?_
    rw [tokenAt_setDoc]
    by_cases hEq : i = req.tkn
    · have hMem : ∀ j, (⟨i, j⟩ : LabelRequest) ∈ req :: reqs ↔ j = req.counterVal ∨ ⟨i, j⟩ ∈ reqs := by
        intro j
        rw [List.mem_cons, hEq]
        exact or_congr_left ⟨fun h => congrArg LabelRequest.counterVal h, fun h => by rw [h]⟩
      have hReq : req = ⟨i, req.counterVal⟩ := by rw [hEq]
      rw [if_pos ⟨hEq, hi⟩]
      simp only [overwrite, hMem]
      have hDocs := mapIdx_set (fun j => (answers ⟨i, j⟩).2) (fun j => ⟨i, j⟩ ∈ reqs)
        (tokenAt query i).docs.array req.counterVal
      have hFrequencies := mapIdx_set (fun j => (answers ⟨i, j⟩).1) (fun j => ⟨i, j⟩ ∈ reqs)
        (tokenAt query i).docFrequencies.array req.counterVal
      rw [← hReq] at hDocs hFrequencies
      rw [hDocs, hFrequencies]
    · have hMem : ∀ j, (⟨i, j⟩ : LabelRequest) ∈ req :: reqs ↔ ⟨i, j⟩ ∈ reqs := by
        intro j
        rw [List.mem_cons]
        exact or_iff_right fun h => hEq (congrArg LabelRequest.tkn h)
      rw [if_neg fun h => hEq h.1]
      simp only [overwrite, hMem]

theorem setDocs_shape (answers : Answers) (reqs : List LabelRequest) (query : VecToken) :
    (setDocs answers query reqs).array.length = query.array.length ∧
      (setDocs answers query reqs).counter = query.counter ∧
      (setDocs answers query reqs).maxSize = query.maxSize := by
  induction reqs generalizing query with
  | nil => exact ⟨rfl, rfl, rfl⟩
  | cons req reqs ih =>
    obtain ⟨hLength, hCounter, hMax⟩ := ih (setDoc query req (answers req).1 (answers req).2)
    exact ⟨hLength.trans (by simp [setDoc]), hCounter, hMax⟩

theorem setDocs_sound {answers : Answers} {reqs : List LabelRequest} {query : VecToken} (h : query.Sound) :
    (setDocs answers query reqs).Sound := by
  obtain ⟨hLength, hCounter, hMax⟩ := setDocs_shape answers reqs query
  exact ⟨by rw [hLength, hMax, h.length], by rw [hCounter, hMax]; exact h.counter, by rw [hMax]; exact h.room⟩

theorem getElem?_elems {query : VecToken} (h : query.Sound) (i : Nat) :
    query.elems[i]? = if i < query.counter then some (tokenAt query i) else none := by
  have hCounter := h.counter
  have hLength := h.length
  rw [elems, List.getElem?_take]
  split
  · case isTrue hi => rw [tokenAt, List.getD_eq_getElem _ _ (by omega), List.getElem?_eq_getElem (by omega)]
  · rfl

theorem elems_setDocs {answers : Answers} {reqs : List LabelRequest} {query : VecToken} (h : query.Sound) :
    (setDocs answers query reqs).elems = query.elems.mapIdx (overwrite answers reqs) := by
  obtain ⟨_, hCounter, _⟩ := setDocs_shape answers reqs query
  have hLe := h.counter
  have hLength := h.length
  apply List.ext_getElem?
  intro i
  rw [getElem?_elems (setDocs_sound h), List.getElem?_mapIdx, getElem?_elems h, hCounter]
  split
  · rw [tokenAt_setDocs answers reqs query (by omega), Option.map_some]
  · rfl

def filledTkn (answers : Answers) (i : Nat) (counter : BitVec 32) (kW : Bytes) : IeeToken :=
  let cells := (List.range counter.toNat).map fun j => answers ⟨i, j⟩
  { wordTkn counter kW with
    docs := ⟨cells.map Prod.snd, counter.toNat, counter.toNat⟩
    docFrequencies := ⟨cells.map Prod.fst, counter.toNat, 0⟩ }

theorem overwrite_word {answers : Answers} {reqs : List LabelRequest} {i : Nat} {counter : BitVec 32}
    {kW : Bytes} (hAll : ∀ j, j < counter.toNat → ⟨i, j⟩ ∈ reqs) :
    overwrite answers reqs i (wordTkn counter kW) = filledTkn answers i counter kW := by
  have hCells : ∀ g : BitVec 32 × BitVec 32 → BitVec 32,
      (List.replicate counter.toNat 0).mapIdx (fun j x => if ⟨i, j⟩ ∈ reqs then g (answers ⟨i, j⟩) else x) =
        ((List.range counter.toNat).map fun j => answers ⟨i, j⟩).map g := by
    intro g
    apply List.ext_getElem (by simp)
    intro j hj _
    rw [List.length_mapIdx, List.length_replicate] at hj
    simp [hAll j hj]
  unfold overwrite filledTkn wordTkn VecInt.viInit
  simp only [hCells]

theorem overwrite_other {answers : Answers} {reqs : List LabelRequest} {i : Nat} {t : IeeToken}
    (hNone : ∀ j, (⟨i, j⟩ : LabelRequest) ∉ reqs) : overwrite answers reqs i t = t := by
  simp [overwrite, hNone, List.mapIdx_eq_zipIdx_map]

/-! ## The loop against the service -/

theorem mapM_eq_some_map {α β γ : Type} {g : α → Option β} (f : γ → α) (h : γ → β) {xs : List γ}
    (hAll : ∀ x, x ∈ xs → g (f x) = some (h x)) : (xs.map f).mapM g = some (xs.map h) := by
  induction xs with
  | nil => rfl
  | cons x xs ih =>
    rw [List.map_cons, List.mapM_cons, hAll x List.mem_cons_self,
      ih fun y hy => hAll y (List.mem_cons_of_mem _ hy)]
    rfl

theorem search_runs {storage : Storage} (hStarted : 0 < storage.nrSearches) {labels entries : List Bytes}
    (hLabels : ∀ l, l ∈ labels → l.length = SseServer.lSize) (hSize : labels.length < 2 ^ 32)
    (hFound : labels.mapM storage.I = some entries) {n : Nat} (hn : entries.flatten.length = n)
    {α : Type} {next : Bytes → Enclaved α} {a : α} {l : Link} {out inn : List Bytes}
    (h : Runs Link.peer (next entries.flatten) (.opened storage) a l out inn) :
    Runs Link.peer (.send (SseServer.encodeSearch labels) (.recv n next)) (.opened storage) a l
      (SseServer.encodeSearch labels :: out) (entries.flatten :: inn) := by
  have hDecode : SseServer.decodeRequest ([] ++ SseServer.encodeSearch labels) =
      some (.search labels.length labels.flatten, []) := by
    have hAppend := SseServer.decodeRequest_encodeSearch labels hLabels hSize []
    rwa [List.append_nil] at hAppend
  have hHandle := SseServer.handle_search labels storage hStarted hLabels
  rw [hFound] at hHandle
  have hPush : Link.peer.push (.opened storage) (SseServer.encodeSearch labels) =
      ⟨storage, [], [] ++ entries.flatten, none⟩ := by
    rw [Link.peer_push]
    exact Link.push_whole hDecode hHandle
  rw [List.nil_append] at hPush
  have hPull : Link.peer.pull ⟨storage, [], entries.flatten, none⟩ n =
      .ok (entries.flatten, .opened storage) := by
    rw [Link.peer_pull, Link.pull]
    simp only [hn, le_refl, if_true]
    rw [List.take_of_length_le hn.le, List.drop_of_length_le hn.le]
    rfl
  exact Runs.send hPush (Runs.recv hPull h)

section Loop
variable {P : Platform} (hP : P.Documented) {storage : Storage} (hStarted : 0 < storage.nrSearches)
  {labels : List LabelRequest} (label : LabelRequest → Bytes) (entryAt : LabelRequest → Bytes)
  (hLabel : ∀ req, (label req).length = SseServer.lSize)
  (hFound : ∀ req, req ∈ labels → storage.I (label req) = some (entryAt req))
  (hWidth : ∀ req, req ∈ labels → (entryAt req).length = resLen)
  (hVerified : ∀ req, req ∈ labels → Verified P (label req) (entryAt req))

def answersOf (P : Platform) (entryAt : LabelRequest → Bytes) : Answers :=
  fun req => (frequencyOf P (entryAt req), docIdOf P (entryAt req))

theorem foldl_writeReply (entryAt : LabelRequest → Bytes) (reqs : List LabelRequest) (query : VecToken) :
    (reqs.zip (reqs.map entryAt)).foldl (writeReply P) query = setDocs (answersOf P entryAt) query reqs := by
  induction reqs generalizing query with
  | nil => rfl
  | cons req reqs ih =>
    rw [List.map_cons, List.zip_cons_cons, List.foldl_cons, ih]
    rfl

theorem requestLabel_setDocs (entryAt : LabelRequest → Bytes) (reqs : List LabelRequest) (query : VecToken) :
    requestLabel P (setDocs (answersOf P entryAt) query reqs) = requestLabel P query := by
  rw [← foldl_writeReply, requestLabel_foldl]

theorem mem_zip_map {reqs : List LabelRequest} {p : LabelRequest × Bytes}
    (hp : p ∈ reqs.zip (reqs.map entryAt)) : p.1 ∈ reqs ∧ p.2 = entryAt p.1 := by
  induction reqs with
  | nil => cases hp
  | cons req reqs ih =>
    rw [List.map_cons, List.zip_cons_cons] at hp
    obtain rfl | hp := List.mem_cons.mp hp
    · exact ⟨List.mem_cons_self, rfl⟩
    · exact ⟨List.mem_cons_of_mem _ (ih hp).1, (ih hp).2⟩

include hVerified in
theorem storeReplies_honest {reqs : List LabelRequest} {query : VecToken} (hQuery : requestLabel P query = label)
    (hMem : ∀ req, req ∈ reqs → req ∈ labels) :
    storeReplies P query reqs (reqs.map entryAt) = .ok (setDocs (answersOf P entryAt) query reqs) := by
  rw [storeReplies_eq_ok_iff, foldl_writeReply, hQuery]
  refine ⟨fun p hp => ?_, rfl⟩
  obtain ⟨hReq, hEntry⟩ := mem_zip_map entryAt hp
  rw [hEntry]
  exact hVerified p.1 (hMem p.1 hReq)

include hStarted hLabel hFound hWidth hVerified

theorem requestLoop_honest {totalLabels fuel labelPos : Nat} {query : VecToken}
    (hQuery : requestLabel P query = label) (hTotal : totalLabels ≤ labels.length)
    (hFuel : totalLabels - labelPos ≤ fuel) :
    ∃ out inn, Runs Link.peer (requestLoop P labels totalLabels fuel labelPos query) (.opened storage)
      (setDocs (answersOf P entryAt) query ((labels.drop labelPos).take (totalLabels - labelPos)))
      (.opened storage) out inn := by
  induction fuel generalizing labelPos query with
  | zero =>
    rw [Nat.le_zero.mp hFuel]
    exact ⟨[], [], rfl⟩
  | succ fuel ih =>
    rw [requestLoop]
    split
    · case isTrue hMore =>
      obtain ⟨hPos, hBatch, hSmall⟩ := batchSize_bounds (Nat.sub_pos_of_lt hMore)
      generalize min (totalLabels - labelPos) maxBatchSearch = batchSize at hBatch hPos hSmall ⊢
      have hMem : ∀ req, req ∈ (labels.drop labelPos).take batchSize → req ∈ labels :=
        fun req hReq => List.mem_of_mem_drop (List.mem_of_mem_take hReq)
      have hLength : ((labels.drop labelPos).take batchSize).length = batchSize := by
        rw [List.length_take, List.length_drop]
        omega
      have hNext : nextBatch labels labelPos batchSize = .ok ((labels.drop labelPos).take batchSize) := by
        rw [nextBatch]
        exact if_neg (by omega)
      generalize hReqs : (labels.drop labelPos).take batchSize = reqs at hMem hLength hNext
      have hEntries : ∀ e, e ∈ reqs.map entryAt → e.length = resLen := by
        intro e he
        obtain ⟨req, hReq, rfl⟩ := List.mem_map.mp he
        exact hWidth req (hMem req hReq)
      have hLabels : ∀ l, l ∈ reqs.map label → l.length = SseServer.lSize := by
        intro l hl
        obtain ⟨req, _, rfl⟩ := List.mem_map.mp hl
        exact hLabel req
      have hChunks : chunks resLen batchSize (reqs.map entryAt).flatten = reqs.map entryAt := by
        have hAll := chunks_flatten (reqs.map entryAt) hEntries
        rwa [List.length_map, hLength] at hAll
      have hFuel : totalLabels - (labelPos + batchSize) ≤ fuel := by omega
      obtain ⟨out, inn, hRest⟩ := ih ((requestLabel_setDocs entryAt reqs query).trans hQuery) hFuel
      have hFlat : (reqs.map entryAt).flatten.length = resLen * batchSize := by
        rw [length_flatten_of_width _ hEntries, List.length_map, hLength, Nat.mul_comm]
      simp only [hNext, Program.lift_ok, Program.ret_bind, Program.put_bind, Program.get_bind, hQuery]
      refine ⟨SseServer.encodeSearch (reqs.map label) :: out, (reqs.map entryAt).flatten :: inn, ?_⟩
      refine search_runs hStarted hLabels (by rw [List.length_map]; omega)
        (mapM_eq_some_map label entryAt fun req hReq => hFound req (hMem req hReq)) hFlat ?_
      rw [hChunks, ← hQuery]
      change Runs _ (Program.lift (storeReplies P query reqs (reqs.map entryAt)) >>= _) _ _ _ _ _
      rw [storeReplies_honest label entryAt hVerified hQuery hMem, Program.lift_ok, Program.ret_bind,
        take_batch labels hBatch, hReqs, setDocs_append]
      exact hRest
    · rw [show totalLabels - labelPos = 0 by omega]
      exact ⟨[], [], rfl⟩

end Loop
end Bisen.HonestRetrieval
