import Bisen.CounterReuse
import Bisen.HonestRetrieval
import Bisen.Leakage

/-! # What the verification protects

The enclave compares the first 32 decrypted bytes of a reply entry with the label it asked for.
Against any peer this fixes the first 32 bytes of the entry, and nothing after them: frequency and
document number are the encrypted ones exactly if the peer also left the next eight bytes alone.
-/
namespace Bisen.Integrity
open Wire Socket SseIee VecToken Retrieval HonestRetrieval
set_option autoImplicit false

/-! ## One entry -/

section Entry
variable {P : Platform} (hP : P.Documented) (hX : P.XorsKeystream) {entry stored : Bytes}
  (hEntry : entry.length = resLen) (hStored : stored.length = resLen)

include hX hEntry hStored

theorem slice_plain_eq_iff {i n : Nat} (hn : i + n ≤ resLen) :
    slice (plain P entry) i n = slice (plain P stored) i n ↔ slice entry i n = slice stored i n := by
  obtain ⟨stream, hStream⟩ := hX
  have hPlain : ∀ e : Bytes, e.length = resLen →
      plain P e = xor e ((List.range resLen).map (stream zeroKey zeroCtr Tcrypto.ctrIncBits)) := by
    intro e he
    rw [plain, Tcrypto.decrypt, (hStream _ _ _ _).2, he]
  rw [hPlain entry hEntry, hPlain stored hStored, slice_xor, slice_xor]
  refine xor_right_inj ?_ ?_
  · rw [length_slice (by omega), length_slice (by rw [List.length_map, List.length_range]; omega)]
  · rw [length_slice (by omega), length_slice (by rw [List.length_map, List.length_range]; omega)]

theorem verified_iff {label : Bytes} (hVerified : Verified P label stored) :
    Verified P label entry ↔ entry.take 32 = stored.take 32 := by
  have hSlices := slice_plain_eq_iff hX hEntry hStored (show 0 + 32 ≤ resLen by decide)
  rw [← slice_zero entry, ← slice_zero stored, ← hSlices, slice_zero, slice_zero]
  rw [Verified, Tcrypto.sha256OutputSize] at hVerified
  rw [hVerified]
  exact Iff.rfl

include hP

theorem answer_eq_iff :
    frequencyOf P entry = frequencyOf P stored ∧ docIdOf P entry = docIdOf P stored ↔
      slice entry 32 8 = slice stored 32 8 := by
  have hPlain : (plain P entry).length = entry.length := hP.decrypt_length ..
  have hPlain' : (plain P stored).length = stored.length := hP.decrypt_length ..
  have hLen : resLen = 44 := rfl
  have hFrequency : frequencyOf P entry = frequencyOf P stored ↔ slice entry 32 4 = slice stored 32 4 := by
    rw [← slice_plain_eq_iff hX hEntry hStored (show 32 + 4 ≤ resLen by decide)]
    exact ⟨readWord32_inj (length_slice (by omega)) (length_slice (by omega)), congrArg readWord32⟩
  have hDocId : docIdOf P entry = docIdOf P stored ↔ slice entry 36 4 = slice stored 36 4 := by
    have hLow : ∀ e : Bytes, (plain P e).length = resLen →
        docIdOf P e = readWord32 (slice (plain P e) 36 4) := by
      intro e he
      rw [docIdOf, setWidth_readWord64 _ (by rw [length_slice (by omega)]; omega), slice, List.take_take]
      rfl
    rw [← slice_plain_eq_iff hX hEntry hStored (show 36 + 4 ≤ resLen by decide), hLow _ (by omega),
      hLow _ (by omega)]
    exact ⟨readWord32_inj (length_slice (by omega)) (length_slice (by omega)), congrArg readWord32⟩
  rw [hFrequency, hDocId, slice_add entry 32 4 4, slice_add stored 32 4 4]
  constructor
  · rintro ⟨hFirst, hSecond⟩
    rw [hFirst, hSecond]
  · intro hEq
    exact List.append_inj hEq (by rw [length_slice (by omega), length_slice (by omega)])

end Entry

/-! ## A completed fetch -/

def storedEntry (P : Platform) (record : Bytes) : Bytes := (entryOf P record).2.run P

section Fetch
variable {P : Platform} {r : Nat → Nat} {σ : Type} {peer : Peer Fault σ} {s s' : σ} {enclave enclave' : Enclave}
  {inp : Bytes} {d : Decoded} {v : VecToken} {out inn : List Bytes} (hDecode : decode inp = .ok d)
  (hRun : Runs peer (getDocsFromServer P r enclave d.query d.countLabels) s (enclave', v) s' out inn)
include hDecode hRun

theorem fetched_entries :
    ∃ entryAt : LabelRequest → Bytes,
      ((Shuffle.shuffle r (visited d.query)).map entryAt).flatten = inn.flatten ∧
      (∀ req, req ∈ visited d.query →
        (entryAt req).length = resLen ∧ Verified P (requestLabel P d.query req) (entryAt req)) ∧
      v.elems = d.query.elems.mapIdx (overwrite (answersOf P entryAt)
      (Shuffle.shuffle r (visited d.query))) := by
  obtain ⟨hRoom, _, _, _, entries, hFlatten, hWidth, hCount, hStore⟩ := getDocsFromServer_runs P hRun
  have hConsistent := decode_consistent hDecode
  have hTotal : d.countLabels = (visited d.query).length := by
    rw [hConsistent.labels, ← length_visited]
    exact Nat.mod_eq_of_lt (by unfold intMax at hRoom; omega)
  have hPerm := Shuffle.shuffle_perm r (visited d.query)
  have hNodup : (Shuffle.shuffle r (visited d.query)).Nodup := hPerm.nodup_iff.mpr (nodup_visited d.query)
  have hLength : (Shuffle.shuffle r (visited d.query)).length = entries.length := by
    rw [hCount, hTotal, Shuffle.length_shuffle]
  rw [hTotal, ← Shuffle.length_shuffle r, List.take_length] at hStore
  generalize Shuffle.shuffle r (visited d.query) = reqs at hPerm hNodup hLength hStore
  let entryAt : LabelRequest → Bytes := fun req => entries.getD (reqs.idxOf req) []
  have hEntries : reqs.map entryAt = entries := by
    apply List.ext_getElem (by rw [List.length_map, hLength])
    intro k hk _
    rw [List.length_map] at hk
    rw [List.getElem_map]
    simp only [entryAt, hNodup.idxOf_getElem k hk]
    exact List.getD_eq_getElem _ _ (by omega)
  rw [← hEntries, storeReplies_eq_ok_iff, foldl_writeReply] at hStore
  obtain ⟨hVerified, rfl⟩ := hStore
  refine ⟨entryAt, by rw [hEntries, hFlatten], ?_, elems_setDocs hConsistent.sound⟩
  intro req hReq
  have hMem := hPerm.mem_iff.mpr hReq
  refine ⟨hWidth _ (hEntries ▸ List.mem_map_of_mem hMem), hVerified (req, entryAt req) ?_⟩
  rw [← List.map_prod_left_eq_zip]
  exact List.mem_map.mpr ⟨req, hMem, rfl⟩

omit hRun in
theorem fetched_cells {entryAt : LabelRequest → Bytes}
    (hElems : v.elems =
      d.query.elems.mapIdx (overwrite (answersOf P entryAt) (Shuffle.shuffle r (visited d.query))))
    {i j : Nat} {t : IeeToken} (hToken : d.query.elems[i]? = some t) (hType : t.type = wordToken)
    (hj : j < t.counter) :
    ∃ t', v.elems[i]? = some t' ∧ t'.docs.elems[j]? = some (docIdOf P (entryAt ⟨i, j⟩)) ∧
      t'.docFrequencies.array[j]? = some (frequencyOf P (entryAt ⟨i, j⟩)) := by
  obtain ⟨counter, kW, rfl⟩ := (decode_consistent hDecode).words t (List.mem_of_getElem? hToken) hType
  have hAll : ∀ k, k < counter.toNat → (⟨i, k⟩ : LabelRequest) ∈ Shuffle.shuffle r (visited d.query) :=
    fun k hk => (Shuffle.shuffle_perm r _).mem_iff.mpr (mem_visited.mpr ⟨_, hToken, rfl, hk⟩)
  have hj : j < counter.toNat := hj
  have hRange : (List.range counter.toNat)[j]? = some j := List.getElem?_range hj
  refine ⟨filledTkn (answersOf P entryAt) i counter kW, ?_, ?_, ?_⟩
  · rw [hElems, List.getElem?_mapIdx, hToken, Option.map_some, overwrite_word hAll]
  · rw [filledTkn, VecInt.elems, List.getElem?_take_of_lt hj, List.getElem?_map, List.getElem?_map, hRange]
    rfl
  · rw [filledTkn, List.getElem?_map, List.getElem?_map, hRange]
    rfl

end Fetch

theorem length_storedEntry {P : Platform} (hP : P.Documented) (record : Bytes) :
    (storedEntry P record).length = resLen := by
  rw [storedEntry, Encryption.run, Tcrypto.length_encrypt hP]
  exact CounterReuse.length_data hP record

/-- Whatever the peer sends, a completed fetch has cut it into entries of 44 bytes, one for every cell; each agrees with
the stored one on its first 32 bytes, and the cell is right exactly if the next eight bytes agree as well. -/
theorem fetched_iff_unmodified {P : Platform} (hP : P.Documented) (hX : P.XorsKeystream) {r : Nat → Nat}
    {σ : Type}
    {peer : Peer Fault σ} {s s' : σ} {enclave enclave' : Enclave} {inp : Bytes} {d : Decoded} {v : VecToken}
    {out inn : List Bytes} (hDecode : decode inp = .ok d)
    (hRun : Runs peer (getDocsFromServer P r enclave d.query d.countLabels) s (enclave', v) s' out inn) :
    ∃ entryAt : LabelRequest → Bytes,
      ((Shuffle.shuffle r (visited d.query)).map entryAt).flatten = inn.flatten ∧
      (∀ req ∈ visited d.query, (entryAt req).length = resLen) ∧
      ∀ (i j : Nat) (t : IeeToken), d.query.elems[i]? = some t → t.type = wordToken → j < t.counter →
        ∃ t' id frequency, v.elems[i]? = some t' ∧ t'.docs.elems[j]? = some id ∧
          t'.docFrequencies.array[j]? = some frequency ∧
          ∀ record, readWord32 (slice record 4 4) = .ofNat 32 j → slice record 12 32 = t.kW →
            (entryAt ⟨i, j⟩).take 32 = (storedEntry P record).take 32 ∧
            (frequency = readWord32 (slice record 8 4) ∧ id = readWord32 (slice record 0 4) ↔
              slice (entryAt ⟨i, j⟩) 32 8 = slice (storedEntry P record) 32 8) := by
  obtain ⟨entryAt, hFlatten, hEntries, hElems⟩ := fetched_entries hDecode hRun
  refine ⟨entryAt, hFlatten, fun req hReq => (hEntries req hReq).1, fun i j t hToken hType hj => ?_⟩
  obtain ⟨t', hGet, hDocs, hFrequencies⟩ := fetched_cells hDecode hElems hToken hType hj
  refine ⟨t', _, _, hGet, hDocs, hFrequencies, fun record hCounter hKey => ?_⟩
  obtain ⟨hLength, hVerified⟩ := hEntries ⟨i, j⟩ (mem_visited.mpr ⟨t, hToken, hType, hj⟩)
  have hStored := length_storedEntry hP record
  have hLabel : requestLabel P d.query ⟨i, j⟩ = (entryOf P record).1 := by
    rw [requestLabel, tokenAt_eq hToken, ← hKey, ← hCounter]
    rfl
  have hLabelLength : (entryOf P record).1.length = Tcrypto.sha256OutputSize := Tcrypto.length_hmacSha256 hP _ _
  have hSealed : Verified P (entryOf P record).1 (storedEntry P record) :=
    verified_encrypt P hP hLabelLength _ _
  rw [hLabel, verified_iff hX hLength hStored hSealed] at hVerified
  refine ⟨hVerified, ?_⟩
  rw [← answer_eq_iff hP hX hLength hStored]
  have hFrequency : frequencyOf P (storedEntry P record) = readWord32 (slice record 8 4) :=
    frequencyOf_encrypt P hP hLabelLength _ _
  have hDocId : docIdOf P (storedEntry P record) = readWord32 (slice record 0 4) :=
    docIdOf_encrypt P hP hLabelLength _ _
  rw [hFrequency, hDocId]

/-! ## A modified reply -/

def recordOfA : Bytes := SseClient.record 0 0 1 Leakage.keyOfA

def messageForA : Bytes := opSrc :: wordToken :: (word32 1 ++ Leakage.keyOfA ++ [] ++ metaToken :: word32 1)

/-- The stored entry with the lowest bit of the document number flipped. -/
def tampered : Bytes :=
  (storedEntry Reference.platform recordOfA).modify 36 (· ^^^ 1)

def fetchA (entry : Bytes) : Outcome Fault (List Bytes) (Enclave × VecToken) :=
  (getDocsFromServer Reference.platform fixedChoice ⟨0, [], 0, 0⟩ (Leakage.queryForA []) 1).run
    (.scripted .blocked)
    [entry]

theorem decode_messageForA : decode messageForA = .ok ⟨Leakage.queryForA [], 1, 1, 1, 43⟩ := by decide +kernel

/-- The enclave accepts the modified entry and records document 1. -/
theorem docs_fetchA :
    ((fetchA tampered).result.toOption.bind fun p => p.2.elems[0]?.bind fun t => t.docs.elems[0]?) =
    some 1 := by
  decide +kernel

theorem isOk_fetchA : (fetchA tampered).result.isOk = true := by
  have hDocs := docs_fetchA
  cases hResult : (fetchA tampered).result with
  | error e =>
    rw [hResult] at hDocs
    cases hDocs
  | ok p => rfl

theorem fetched_iff_unmodified_tampered :
    ∃ entry, entry.take 32 = (storedEntry Reference.platform recordOfA).take 32 ∧
      entry = (fetchA tampered).received.flatten := by
  obtain ⟨⟨_, _⟩, hRun⟩ := Program.runs_of_isOk isOk_fetchA
  obtain ⟨entryAt, hFlatten, _, hCells⟩ := fetched_iff_unmodified Reference.documented
    Reference.counterMode.xorsKeystream decode_messageForA hRun
  obtain ⟨_, _, _, _, _, _, hRecord⟩ := hCells 0 0 (wordTkn 1 Leakage.keyOfA) (by decide) (by decide)
    (by decide)
  refine ⟨entryAt ⟨0, 0⟩, (hRecord recordOfA (by decide) (by decide)).1, ?_⟩
  rw [← List.append_nil (entryAt ⟨0, 0⟩)]
  exact hFlatten

/-- Document 1 was never encrypted by `update`. -/
theorem not_authentic_tampered :
    ¬ ∀ (P : Platform), P.Documented → P.XorsKeystream → ∀ records : List Bytes,
      (records.map fun record => (entryOf P record).1).Nodup →
      ∀ (r : Nat → Nat) (σ : Type) (peer : Peer Fault σ) (s s' : σ) (enclave enclave' : Enclave) (inp : Bytes)
        (d : Decoded) (v : VecToken) (out inn : List Bytes), decode inp = .ok d →
        Runs peer (getDocsFromServer P r enclave d.query d.countLabels) s (enclave', v) s' out inn →
        ∀ (i j : Nat) (t : IeeToken) (record : Bytes), d.query.elems[i]? = some t → t.type = wordToken →
        j < t.counter → record ∈ records →
          readWord32 (slice record 4 4) = .ofNat 32 j → slice record 12 32 = t.kW →
          ∃ t', v.elems[i]? = some t' ∧ t'.docs.elems[j]? = some (readWord32 (slice record 0 4)) ∧
            t'.docFrequencies.array[j]? = some (readWord32 (slice record 8 4)) := by
  intro hAll
  obtain ⟨⟨enclave', v⟩, hRun⟩ := Program.runs_of_isOk isOk_fetchA
  obtain ⟨t', hGet, hDocs, _⟩ := hAll Reference.platform Reference.documented
    Reference.counterMode.xorsKeystream
    [recordOfA] (List.nodup_singleton _) fixedChoice _ _ _ _ _ _ _ _ _ _ _ decode_messageForA hRun 0 0
    (wordTkn 1 Leakage.keyOfA) recordOfA (by decide) (by decide) (by decide) List.mem_cons_self (by decide)
      (by decide)
  have hId := docs_fetchA
  rw [fetchA, hRun.result] at hId
  change (v.elems[0]?.bind fun t => t.docs.elems[0]?) = some 1 at hId
  rw [hGet, Option.bind_some, hDocs] at hId
  exact absurd hId (by decide)

end Bisen.Integrity
