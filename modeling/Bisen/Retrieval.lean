import Bisen.SseIee
import Mathlib.Data.List.Nodup

/-! # Fetching posting lists, against any peer

Which labels are requested, in which order and in which batches is fixed by the word tokens of
the query. What the peer answers only reaches the cells of the posting lists, one reply entry
each, and only after its first 32 decrypted bytes matched the requested label.
-/
namespace Bisen.Retrieval
open Wire Socket SseIee VecToken
set_option autoImplicit false

/-! ## The requests -/

theorem mem_visitToken {t : IeeToken} {i : Nat} {req : LabelRequest} :
    req ∈ visitToken t i ↔ t.type = wordToken ∧ req.tkn = i ∧ req.counterVal < t.counter := by
  unfold visitToken
  by_cases hType : t.type = wordToken
  · rw [if_pos hType, List.mem_map]
    constructor
    · rintro ⟨j, hj, rfl⟩
      exact ⟨hType, rfl, List.mem_range.mp hj⟩
    · rintro ⟨_, rfl, hj⟩
      exact ⟨req.counterVal, List.mem_range.mpr hj, rfl⟩
  · rw [if_neg hType]
    simp [hType]

theorem mem_visited {query : VecToken} {req : LabelRequest} :
    req ∈ visited query ↔
      ∃ t, query.elems[req.tkn]? = some t ∧ t.type = wordToken ∧ req.counterVal < t.counter := by
  simp only [visited, List.mem_flatMap, mem_visitToken]
  constructor
  · rintro ⟨⟨t, i⟩, hZip, hType, rfl, hj⟩
    exact ⟨t, List.mem_zipIdx_iff_getElem?.mp hZip, hType, hj⟩
  · rintro ⟨t, hGet, hType, hj⟩
    exact ⟨(t, req.tkn), List.mem_zipIdx_iff_getElem?.mpr hGet, hType, rfl, hj⟩

theorem nodup_visited (query : VecToken) : (visited query).Nodup := by
  rw [visited, List.nodup_flatMap]
  constructor
  · rintro ⟨t, i⟩ _
    unfold visitToken
    split
    · exact List.nodup_range.map fun _ _ hEq => (LabelRequest.mk.inj hEq).2
    · exact List.nodup_nil
  · have hIndex : (query.elems.zipIdx.map Prod.snd).Nodup := by
      rw [List.zipIdx_map_snd]
      exact List.nodup_range'
    apply (List.pairwise_map.mp hIndex).imp
    intro p q hNe req hLeft hRight
    exact hNe ((mem_visitToken.mp hLeft).2.1.symm.trans (mem_visitToken.mp hRight).2.1)

/-- The counters of the word tokens, whose sum is the number of visits. -/
def wordCounters (query : VecToken) : List Nat :=
  (query.elems.filter (·.type = wordToken)).map IeeToken.counter

theorem length_visitToken (t : IeeToken) (i : Nat) :
    (visitToken t i).length = if t.type = wordToken then t.counter else 0 := by
  unfold visitToken
  split
  · rw [List.length_map, List.length_range]
  · rfl

theorem length_visited (query : VecToken) : (visited query).length = (wordCounters query).sum := by
  have hRun : ∀ (ts : List IeeToken) (k : Nat),
      ((ts.zipIdx k).flatMap fun p => visitToken p.1 p.2).length =
        ((ts.filter (·.type = wordToken)).map IeeToken.counter).sum := by
    intro ts
    induction ts with
    | nil => intro k; rfl
    | cons t ts ih =>
      intro k
      rw [List.zipIdx_cons, List.flatMap_cons, List.length_append, ih, List.filter_cons, length_visitToken]
      by_cases hType : t.type = wordToken <;> simp [hType]
  exact hRun query.elems 0

section Fill
variable (r : Nat → Nat) {labelsSize : Nat}

private theorem foldlM_fillLabel (reqs labels : List LabelRequest) :
    (labels.length + reqs.length ≤ min labelsSize intMax →
      reqs.foldlM (fillLabel r labelsSize) labels =
        .ok (reqs.foldl (fun l req => Shuffle.place (r l.length) req l) labels)) ∧
    (labels.length ≤ min labelsSize intMax → min labelsSize intMax < labels.length + reqs.length →
      ∃ e, reqs.foldlM (fillLabel r labelsSize) labels = .error e ∧
        (e = .outOfBounds ∨ e = .signedOverflow)) := by
  induction reqs generalizing labels with
  | nil =>
    refine ⟨fun _ => rfl, ?_⟩
    intro hLe hLt
    rw [List.length_nil] at hLt
    omega
  | cons req reqs ih =>
    have hNext : labels.length < min labelsSize intMax → fillLabel r labelsSize labels req =
        .ok (Shuffle.place (r labels.length) req labels) := by
      intro hLt
      rw [fillLabel, if_neg (by omega), if_neg (by omega)]
    obtain ⟨ihOk, ihError⟩ := ih (Shuffle.place (r labels.length) req labels)
    rw [Shuffle.length_place] at ihOk ihError
    rw [List.length_cons, List.foldlM_cons, List.foldl_cons]
    constructor
    · intro hLe
      rw [hNext (by omega)]
      exact ihOk (by omega)
    · intro hLe hLt
      by_cases hRoom : labels.length < min labelsSize intMax
      · rw [hNext hRoom]
        exact ihError (by omega) (by omega)
      · by_cases hSize : labelsSize ≤ labels.length
        · refine ⟨.outOfBounds, ?_, .inl rfl⟩
          rw [fillLabel, if_pos hSize]
          rfl
        · refine ⟨.signedOverflow, ?_, .inr rfl⟩
          rw [fillLabel, if_neg hSize, if_pos (by omega)]
          rfl

variable {query : VecToken}

theorem fillLabels_ok (h : (visited query).length ≤ min labelsSize intMax) :
    fillLabels r labelsSize query = .ok (Shuffle.shuffle r (visited query)) :=
  (foldlM_fillLabel r (visited query) []).1 (by rwa [List.length_nil, Nat.zero_add])

theorem fillLabels_error (h : min labelsSize intMax < (visited query).length) :
    ∃ e, fillLabels r labelsSize query = .error e ∧ (e = .outOfBounds ∨ e = .signedOverflow) :=
  (foldlM_fillLabel r (visited query) []).2 (Nat.zero_le _) (by rwa [List.length_nil, Nat.zero_add])

theorem fillLabels_eq_ok {labels : List LabelRequest} (h : fillLabels r labelsSize query = .ok labels) :
    labels = Shuffle.shuffle r (visited query) ∧ (visited query).length ≤ min labelsSize intMax := by
  by_cases hRoom : (visited query).length ≤ min labelsSize intMax
  · rw [fillLabels_ok r hRoom] at h
    cases h
    exact ⟨rfl, hRoom⟩
  · obtain ⟨e, hError, _⟩ := fillLabels_error r (Nat.lt_of_not_le hRoom)
    rw [hError] at h
    cases h

end Fill

/-! ## What a reply entry writes -/

section Replies
variable (P : Platform)

def plain (entry : Bytes) : Bytes := Tcrypto.decrypt P entry zeroKey zeroCtr

def frequencyOf (entry : Bytes) : BitVec 32 := readWord32 (slice (plain P entry) 32 4)

def docIdOf (entry : Bytes) : BitVec 32 := (readWord64 (slice (plain P entry) 36 8)).setWidth 32

def Verified (label entry : Bytes) : Prop := (plain P entry).take Tcrypto.sha256OutputSize = label

def writeReply (query : VecToken) (p : LabelRequest × Bytes) : VecToken :=
  setDoc query p.1 (frequencyOf P p.2) (docIdOf P p.2)

section Stored
variable (hP : P.Documented) {label : Bytes} (hLabel : label.length = Tcrypto.sha256OutputSize)
  (frequency docId : BitVec 32)
include hP

theorem plain_encrypt : plain P (Tcrypto.encrypt P (unencData label frequency docId) zeroKey zeroCtr) =
    label ++ (word32 frequency ++ word64 (docId.signExtend 64)) := by
  rw [plain, Tcrypto.decrypt_encrypt hP, unencData, List.append_assoc]

include hLabel

theorem verified_encrypt :
    Verified P label (Tcrypto.encrypt P (unencData label frequency docId) zeroKey zeroCtr) := by
  rw [Verified, plain_encrypt P hP]
  exact List.take_left' hLabel

theorem frequencyOf_encrypt :
    frequencyOf P (Tcrypto.encrypt P (unencData label frequency docId) zeroKey zeroCtr) = frequency := by
  have hSlice := slice_append (b := word64 (docId.signExtend 64)) hLabel (length_word32 frequency)
  rw [frequencyOf, plain_encrypt P hP]
  exact (congrArg readWord32 hSlice).trans (readWord32_word32 _)

theorem docIdOf_encrypt :
    docIdOf P (Tcrypto.encrypt P (unencData label frequency docId) zeroKey zeroCtr) = docId := by
  have hSlice : slice (label ++ (word32 frequency ++ word64 (docId.signExtend 64))) 36 8 =
      word64 (docId.signExtend 64) := by
    rw [← List.append_assoc, ← List.append_nil (word64 _)]
    refine slice_append ?_ (length_word64 _)
    rw [List.length_append, length_word32, hLabel]
    rfl
  rw [docIdOf, plain_encrypt P hP, hSlice, readWord64_word64]
  ext i hi
  have hWide : i < 64 := by omega
  rw [BitVec.getElem_setWidth, BitVec.getLsbD_signExtend, if_pos hi, BitVec.getLsbD_eq_getElem hi]
  simp [hWide]

end Stored

def storeReplies (query : VecToken) (reqs : List LabelRequest) (entries : List Bytes) : Except Fault VecToken :=
  (reqs.zip ((reqs.map (requestLabel P query)).zip entries)).foldlM (storeReply P) query

theorem tokenAt_setDoc (query : VecToken) (req : LabelRequest) (frequency docId : BitVec 32) (i : Nat) :
    tokenAt (setDoc query req frequency docId) i =
      if i = req.tkn ∧ i < query.array.length then
        { tokenAt query i with
          docs := { (tokenAt query i).docs with
            array := (tokenAt query i).docs.array.set req.counterVal docId }
          docFrequencies := { (tokenAt query i).docFrequencies with
            array := (tokenAt query i).docFrequencies.array.set req.counterVal frequency } }
      else tokenAt query i := by
  unfold tokenAt setDoc
  by_cases hi : i < query.array.length
  · rw [List.getD_eq_getElem _ _ (by simpa using hi), List.getD_eq_getElem _ _ hi, List.getElem_modify]
    by_cases hEq : req.tkn = i
    · rw [if_pos hEq, if_pos ⟨hEq.symm, hi⟩]
    · rw [if_neg hEq, if_neg fun h => hEq h.1.symm]
  · rw [List.getD_eq_default _ _ (by simpa using hi), List.getD_eq_default _ _ (by omega),
      if_neg fun h => hi h.2]

theorem kW_setDoc (query : VecToken) (req : LabelRequest) (frequency docId : BitVec 32) (i : Nat) :
    (tokenAt (setDoc query req frequency docId) i).kW = (tokenAt query i).kW := by
  rw [tokenAt_setDoc]
  split <;> rfl

@[simp] theorem requestLabel_writeReply (query : VecToken) (p : LabelRequest × Bytes) :
    requestLabel P (writeReply P query p) = requestLabel P query :=
  funext fun req => congrArg (labelOf P · _) (kW_setDoc query p.1 _ _ req.tkn)

@[simp] theorem requestLabel_foldl (ps : List (LabelRequest × Bytes)) (query : VecToken) :
    requestLabel P (ps.foldl (writeReply P) query) = requestLabel P query := by
  induction ps generalizing query with
  | nil => rfl
  | cons p ps ih => rw [List.foldl_cons, ih, requestLabel_writeReply]

theorem storeReply_eq (query : VecToken) (req : LabelRequest) (label entry : Bytes) :
    storeReply P query (req, label, entry) =
      if (plain P entry).take Tcrypto.sha256OutputSize ≠ label then .error .labelVerificationDoesntMatch
      else .ok (writeReply P query (req, entry)) := rfl

theorem storeReplies_eq_ok_iff {query query' : VecToken} {reqs : List LabelRequest} {entries : List Bytes} :
    storeReplies P query reqs entries = .ok query' ↔
      (∀ p, p ∈ reqs.zip entries → Verified P (requestLabel P query p.1) p.2) ∧
        query' = (reqs.zip entries).foldl (writeReply P) query := by
  have hRun : ∀ (reqs : List LabelRequest) (entries : List Bytes) (query₀ : VecToken),
      requestLabel P query₀ = requestLabel P query →
      ((reqs.zip ((reqs.map (requestLabel P query)).zip entries)).foldlM (storeReply P) query₀ = .ok query' ↔
        (∀ p, p ∈ reqs.zip entries → Verified P (requestLabel P query p.1) p.2) ∧
          query' = (reqs.zip entries).foldl (writeReply P) query₀) := by
    intro reqs
    induction reqs with
    | nil =>
      intro entries query₀ _
      simp [pure, Except.pure, eq_comm]
    | cons req reqs ih =>
      intro entries query₀ hLabel
      cases entries with
      | nil => simp [pure, Except.pure, eq_comm]
      | cons entry entries =>
        rw [List.map_cons, List.zip_cons_cons, List.zip_cons_cons, List.zip_cons_cons, List.foldlM_cons,
          storeReply_eq, List.foldl_cons, List.forall_mem_cons]
        by_cases hVerified : (plain P entry).take Tcrypto.sha256OutputSize = requestLabel P query req
        · rw [if_neg (not_not_intro hVerified)]
          refine (ih entries (writeReply P query₀ (req, entry)) (by simpa using hLabel)).trans ?_
          exact ⟨fun h => ⟨⟨hVerified, h.1⟩, h.2⟩, fun h => ⟨h.1.2, h.2⟩⟩
        · rw [if_pos hVerified]
          constructor
          · intro h
            cases h
          · rintro ⟨⟨h, _⟩, _⟩
            exact absurd h hVerified
  exact hRun reqs entries query rfl

theorem storeReplies_append {query query₁ query' : VecToken} {reqs₁ reqs₂ : List LabelRequest}
    {entries₁ entries₂ : List Bytes} (hLength : reqs₁.length = entries₁.length)
    (h₁ : storeReplies P query reqs₁ entries₁ = .ok query₁)
    (h₂ : storeReplies P query₁ reqs₂ entries₂ = .ok query') :
    storeReplies P query (reqs₁ ++ reqs₂) (entries₁ ++ entries₂) = .ok query' := by
  obtain ⟨hVerified₁, rfl⟩ := (storeReplies_eq_ok_iff P).mp h₁
  obtain ⟨hVerified₂, rfl⟩ := (storeReplies_eq_ok_iff P).mp h₂
  rw [requestLabel_foldl] at hVerified₂
  rw [storeReplies_eq_ok_iff, List.zip_append hLength, List.foldl_append]
  refine ⟨fun p hp => ?_, rfl⟩
  obtain hp | hp := List.mem_append.mp hp
  · exact hVerified₁ p hp
  · exact hVerified₂ p hp

end Replies

/-! ## The loop -/

/-- The requests that go out from position `labelPos` on. -/
def requestsFrom (labels : List Bytes) (totalLabels : Nat) : Nat → Nat → List Bytes
  | 0, _ => []
  | fuel + 1, labelPos =>
    if labelPos < totalLabels then
      let batchSize := min (totalLabels - labelPos) maxBatchSearch
      SseServer.encodeSearch ((labels.drop labelPos).take batchSize) ::
        requestsFrom labels totalLabels fuel (labelPos + batchSize)
    else []

section Loop
variable (P : Platform) {labels : List LabelRequest} {totalLabels : Nat} {σ : Type} {peer : Peer Fault σ}

theorem take_batch (l : List LabelRequest) {labelPos batchSize : Nat} (h : batchSize ≤ totalLabels - labelPos) :
    (l.drop labelPos).take (totalLabels - labelPos) = (l.drop labelPos).take batchSize ++
      (l.drop (labelPos + batchSize)).take (totalLabels - (labelPos + batchSize)) := by
  rw [show totalLabels - labelPos = batchSize + (totalLabels - (labelPos + batchSize)) by omega, List.take_add,
    List.drop_drop]

theorem nextBatch_eq_ok {labelPos batchSize : Nat} {batch : List LabelRequest}
    (h : nextBatch labels labelPos batchSize = .ok batch) :
    batch = (labels.drop labelPos).take batchSize ∧ batch.length = batchSize := by
  unfold nextBatch at h
  simp only at h
  split at h
  · cases h
  · case isFalse hLength =>
    injection h with h
    have hLe := List.length_take_le batchSize (labels.drop labelPos)
    exact ⟨h.symm, by rw [← h]; omega⟩

theorem batchSize_bounds {n : Nat} (h : 0 < n) :
    0 < min n maxBatchSearch ∧ min n maxBatchSearch ≤ n ∧ min n maxBatchSearch < 2 ^ 32 := by
  unfold maxBatchSearch
  omega

/-- A completed loop sent the fixed requests, and its result is one batch of all the entries received. -/
theorem requestLoop_runs {fuel labelPos : Nat} {query query' : VecToken} {s s' : σ} {out inn : List Bytes}
    (hFuel : totalLabels - labelPos ≤ fuel)
    (h : Runs peer (requestLoop P labels totalLabels fuel labelPos query) s query' s' out inn) :
    out = requestsFrom (labels.map (requestLabel P query)) totalLabels fuel labelPos ∧
      ∃ entries, entries.flatten = inn.flatten ∧ (∀ e, e ∈ entries → e.length = resLen) ∧
        entries.length = totalLabels - labelPos ∧
        ((labels.drop labelPos).take (totalLabels - labelPos)).length = totalLabels - labelPos ∧
        storeReplies P query ((labels.drop labelPos).take (totalLabels - labelPos)) entries = .ok query' := by
  induction fuel generalizing labelPos query s out inn with
  | zero =>
    obtain ⟨rfl, _, rfl, rfl⟩ := runs_ret_iff.mp h
    rw [Nat.le_zero.mp hFuel]
    exact ⟨rfl, [], rfl, by simp, rfl, by simp, rfl⟩
  | succ fuel ih =>
    rw [requestLoop] at h
    rw [requestsFrom]
    by_cases hMore : labelPos < totalLabels
    · rw [if_pos hMore] at h ⊢
      obtain ⟨hPos, hBatch, _⟩ := batchSize_bounds (Nat.sub_pos_of_lt hMore)
      generalize min (totalLabels - labelPos) maxBatchSearch = batchSize at h hBatch hPos ⊢
      obtain ⟨batch, _, _, _, _, _, hLift, hSend, rfl, rfl⟩ := runs_bind_iff.mp h
      obtain ⟨hNext, rfl, rfl, rfl⟩ := runs_lift_iff.mp hLift
      obtain ⟨rfl, hLength⟩ := nextBatch_eq_ok hNext
      simp only [Program.put_bind, Program.get_bind] at hSend
      obtain ⟨_, rfl, hRecv⟩ := runs_send_iff.mp hSend
      obtain ⟨res, _, _, hPull, rfl, hReply⟩ := runs_recv_iff.mp hRecv
      obtain ⟨query₁, _, _, _, _, _, hLift', hLoop, rfl, rfl⟩ := runs_bind_iff.mp hReply
      obtain ⟨hStore, rfl, rfl, rfl⟩ := runs_lift_iff.mp hLift'
      have hRes : res.length = batchSize * resLen := by
        rw [peer.pull_length _ _ _ _ hPull, Nat.mul_comm]
      have hLabels : requestLabel P query₁ = requestLabel P query := by
        rw [((storeReplies_eq_ok_iff P).mp hStore).2, requestLabel_foldl]
      obtain ⟨hOut, entries, hFlatten, hWidth, hCount, hTake, hRest⟩ := ih (by omega) hLoop
      refine ⟨?_, chunks resLen batchSize res ++ entries, ?_, ?_, ?_, ?_, ?_⟩
      · simp only [hOut, hLabels, List.nil_append, List.map_take, List.map_drop]
      · rw [List.flatten_append, hFlatten, flatten_chunks hRes]
        rfl
      · intro e he
        obtain he | he := List.mem_append.mp he
        · exact length_of_mem_chunks hRes he
        · exact hWidth e he
      · rw [List.length_append, length_chunks, hCount]
        omega
      · rw [take_batch labels hBatch, List.length_append, hLength, hTake]
        omega
      · rw [take_batch labels hBatch]
        exact storeReplies_append P (by rw [hLength, length_chunks]) hStore hRest
    · rw [if_neg hMore] at h ⊢
      obtain ⟨rfl, _, rfl, rfl⟩ := runs_ret_iff.mp h
      rw [show totalLabels - labelPos = 0 by omega]
      exact ⟨rfl, [], rfl, by simp, rfl, by simp, rfl⟩

variable {r : Nat → Nat} {s s' : σ} {out inn : List Bytes}

/-- What a completed `get_docs_from_server` did, whoever answered. -/
structure Fetched (enclave enclave' : Enclave) (query query' : VecToken) (total : Nat) (r : Nat → Nat)
    (out inn : List Bytes) : Prop where
  room : (visited query).length ≤ min (max enclave.labelsSize total) intMax
  filled : total ≤ (visited query).length
  enclave : enclave' = { enclave with labelsSize := max enclave.labelsSize total }
  sent : out = requestsFrom ((Shuffle.shuffle r (visited query)).map (requestLabel P query)) total total 0
  entries : ∃ entries : List Bytes, entries.flatten = inn.flatten ∧ (∀ e, e ∈ entries → e.length = resLen) ∧
    entries.length = total ∧
    storeReplies P query ((Shuffle.shuffle r (visited query)).take total) entries = .ok query'

theorem getDocsFromServer_runs {enclave enclave' : Enclave} {query query' : VecToken} {total : Nat}
    (h : Runs peer (getDocsFromServer P r enclave query total) s (enclave', query') s' out inn) :
    Fetched P enclave enclave' query query' total r out inn := by
  rw [getDocsFromServer] at h
  obtain ⟨labels, _, _, _, _, _, hLift, hRest, rfl, rfl⟩ := runs_bind_iff.mp h
  obtain ⟨hFill, rfl, rfl, rfl⟩ := runs_lift_iff.mp hLift
  obtain ⟨rfl, hRoom⟩ := fillLabels_eq_ok r hFill
  obtain ⟨_, _, _, _, _, _, hLoop, hRet, rfl, rfl⟩ := runs_bind_iff.mp hRest
  obtain ⟨hPair, rfl, rfl, rfl⟩ := runs_ret_iff.mp hRet
  cases hPair
  obtain ⟨hSent, entries, hFlatten, hWidth, hCount, hTake, hStore⟩ := requestLoop_runs P (by omega) hLoop
  rw [List.drop_zero, Nat.sub_zero] at hTake hStore
  refine ⟨hRoom, ?_, rfl, ?_, entries, ?_, hWidth, hCount, hStore⟩
  · rw [List.length_take, Shuffle.length_shuffle] at hTake
    omega
  · rw [hSent, List.nil_append, List.append_nil]
  · rw [hFlatten, List.nil_append, List.append_nil]

theorem retrieve_runs {enclave enclave' : Enclave} {inp : Bytes} {ev : Evaluated}
    (h : Runs peer (retrieve P r enclave inp) s (enclave', ev) s' out inn) :
    ∃ d enclave₁ count out₁, decode inp = .ok d ∧
      Fetched P { enclave with nrSearches := enclave.nrSearches + 1 } enclave₁ d.query ev.query d.countLabels r
        out₁ inn ∧
      out = [opStartSearch] :: out₁ ∧ ev.nDocs = d.nDocs ∧
      QueryEvaluator.evaluate ev.query d.nDocs (growAuxBool enclave₁ d.nDocs).auxBool =
        .ok (ev.responseDocs, count) ∧
      enclave' = { growAuxBool enclave₁ d.nDocs with auxBool := count } := by
  rw [retrieve, Program.put_bind] at h
  obtain ⟨out₁, rfl, hBody⟩ := runs_send_iff.mp h
  obtain ⟨d, _, _, _, _, _, hLift, hRest, rfl, rfl⟩ := runs_bind_iff.mp hBody
  obtain ⟨hDecode, rfl, rfl, rfl⟩ := runs_lift_iff.mp hLift
  obtain ⟨⟨enclave₁, query⟩, _, _, _, _, _, hDocs, hEval, rfl, rfl⟩ := runs_bind_iff.mp hRest
  obtain ⟨⟨docs, count⟩, _, _, _, _, _, hLift', hRet, rfl, rfl⟩ := runs_bind_iff.mp hEval
  obtain ⟨hEvaluate, rfl, rfl, rfl⟩ := runs_lift_iff.mp hLift'
  obtain ⟨hPair, rfl, rfl, rfl⟩ := runs_ret_iff.mp hRet
  cases hPair
  simp only [List.append_nil, List.nil_append]
  exact ⟨d, enclave₁, count, _, hDecode, getDocsFromServer_runs P hDocs, rfl, rfl, hEvaluate, rfl⟩

end Loop

/-! ## The decoded query -/

/-- The word tokens of a query by counter and key, in order. -/
def wordKeys (query : VecToken) : List (Nat × Bytes) :=
  (query.elems.filter (·.type = wordToken)).map fun t => (t.counter, t.kW)

/-- What every decoding state keeps: the vector, the label count, and freshly made word tokens. -/
structure Consistent (d : Decoded) : Prop where
  sound : d.query.Sound
  labels : d.countLabels = (wordCounters d.query).sum % 2 ^ 32
  words : ∀ t, t ∈ d.query.elems → t.type = wordToken → ∃ counter kW, t = wordTkn counter kW

theorem wordCounters_vtPushBack {query : VecToken} (h : query.Sound) (t : IeeToken) :
    wordCounters (query.vtPushBack t) =
      wordCounters query ++ if t.type = wordToken then [t.counter] else [] := by
  rw [wordCounters, wordCounters, elems_vtPushBack h, List.filter_append, List.map_append]
  by_cases hType : t.type = wordToken <;> simp [hType]

theorem Consistent.push {d : Decoded} (h : Consistent d) {t : IeeToken}
    (hWord : t.type = wordToken → ∃ counter kW, t = wordTkn counter kW) {d' : Decoded}
    (hQuery : d'.query = d.query.vtPushBack t)
    (hLabels : d'.countLabels = (d.countLabels + if t.type = wordToken then t.counter else 0) % 2 ^ 32) :
    Consistent d' := by
  refine ⟨hQuery ▸ vtPushBack_sound h.sound t, ?_, ?_⟩
  · rw [hLabels, hQuery, wordCounters_vtPushBack h.sound, List.sum_append, h.labels]
    by_cases hType : t.type = wordToken <;> simp [hType]
  · intro u hu hType
    rw [hQuery, elems_vtPushBack h.sound] at hu
    obtain hu | hu := List.mem_append.mp hu
    · exact h.words u hu hType
    · rw [List.mem_singleton.mp hu] at hType ⊢
      exact hWord hType

theorem readToken_consistent {inp : Bytes} {d d' : Decoded} (h : Consistent d)
    (hRead : readToken inp d = .ok d') : Consistent d' := by
  rw [readToken] at hRead
  obtain ⟨⟨type, pos₁⟩, _, hRead⟩ := bind_eq_ok_iff.mp hRead
  simp only at hRead
  split at hRead
  · obtain ⟨⟨counter, pos₂⟩, _, hRead⟩ := bind_eq_ok_iff.mp hRead
    obtain ⟨⟨kW, pos₃⟩, _, hRead⟩ := bind_eq_ok_iff.mp hRead
    cases hRead
    exact h.push (t := wordTkn (readWord32 counter) kW) (fun _ => ⟨_, _, rfl⟩) rfl rfl
  · case isFalse hWord =>
    split at hRead
    · obtain ⟨⟨nDocs, pos₂⟩, _, hRead⟩ := bind_eq_ok_iff.mp hRead
      cases hRead
      exact ⟨h.sound, h.labels, h.words⟩
    · cases hRead
      apply h.push (t := { IeeToken.zero with type := type.getD 0 0 }) (fun hType => absurd hType hWord) rfl
      rw [if_neg hWord, Nat.add_zero, h.labels, Nat.mod_mod]

theorem decode_consistent {inp : Bytes} {d : Decoded} (h : decode inp = .ok d) : Consistent d := by
  have hLoop : ∀ (fuel : Nat) (d₀ : Decoded), Consistent d₀ → decodeLoop inp fuel d₀ = .ok d →
    Consistent d := by
    intro fuel
    induction fuel with
    | zero =>
      intro d₀ h₀ hEq
      cases hEq
      exact h₀
    | succ fuel ih =>
      intro d₀ h₀ hEq
      rw [decodeLoop] at hEq
      split at hEq
      · obtain ⟨d₁, hRead, hRest⟩ := bind_eq_ok_iff.mp hEq
        exact ih d₁ (readToken_consistent h₀ hRead) hRest
      · cases hEq
        exact h₀
  refine hLoop inp.length _ ⟨vtInit_sound (by decide), ?_, ?_⟩ h
  · simp [wordCounters]
  · simp

theorem tokenAt_eq {query : VecToken} {i : Nat} {t : IeeToken} (h : query.elems[i]? = some t) :
    tokenAt query i = t := by
  obtain ⟨hi, hGet⟩ := List.getElem?_eq_some_iff.mp h
  rw [elems, List.length_take] at hi
  rw [tokenAt, List.getD_eq_getElem _ _ (by omega), ← hGet]
  simp only [elems, List.getElem_take]

theorem map_requestLabel_visited (P : Platform) (query : VecToken) :
    (visited query).map (requestLabel P query) =
      (wordKeys query).flatMap fun w => (List.range w.1).map fun j => labelOf P w.2 (.ofNat 32 j) := by
  have hToken : ∀ p, p ∈ query.elems.zipIdx → (visitToken p.1 p.2).map (requestLabel P query) =
      if p.1.type = wordToken then
        (List.range p.1.counter).map fun j => labelOf P p.1.kW (.ofNat 32 j) else [] := by
    intro p hp
    have hAt := tokenAt_eq (List.mem_zipIdx_iff_getElem?.mp hp)
    unfold visitToken
    split
    · rw [List.map_map]
      apply List.map_congr_left
      intro j _
      rw [Function.comp_apply, requestLabel, hAt]
    · rfl
  have hFilter : ∀ (ts : List IeeToken) (k : Nat),
      ((ts.zipIdx k).flatMap fun p => if p.1.type = wordToken then
        (List.range p.1.counter).map fun j => labelOf P p.1.kW (.ofNat 32 j) else []) =
      ((ts.filter (·.type = wordToken)).map fun t => (t.counter, t.kW)).flatMap fun w =>
        (List.range w.1).map fun j => labelOf P w.2 (.ofNat 32 j) := by
    intro ts
    induction ts with
    | nil => intro k; rfl
    | cons t ts ih =>
      intro k
      rw [List.zipIdx_cons, List.flatMap_cons, List.filter_cons, ih]
      by_cases hType : t.type = wordToken <;> simp [hType]
  rw [visited, List.map_flatMap, List.flatMap_congr hToken]
  exact hFilter query.elems 0

end Bisen.Retrieval
