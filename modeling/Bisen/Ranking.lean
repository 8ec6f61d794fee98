import Bisen.Reference

/-! # The ranked reply

The score of a document is defined once more, from the posting lists as lists of pairs. The reply
that the client reads back holds the best ten documents by this score, or without scoring the
whole list.
-/
namespace Bisen.Ranking
open Wire VecInt VecToken Response
set_option autoImplicit false

section Score
variable (B : Build)

def frequency (t : IeeToken) (d : BitVec 32) : BitVec 32 :=
  ((t.docs.elems.zip t.docFrequencies.array).lookup d).getD 0

def idf (nDocs : BitVec 32) (t : IeeToken) : B.R :=
  if t.docs.elems = [] then B.doubles.zero
  else B.doubles.log10 (B.doubles.div (B.doubles.ofUnsigned nDocs.toNat)
    (B.doubles.ofUnsigned t.docs.elems.length))

/-- The word tokens whose posting list contains a document. -/
def hits (query : VecToken) (d : BitVec 32) : List IeeToken :=
  query.elems.filter fun t => t.type = wordToken ∧ t.docs.elems.contains d

def score (query : VecToken) (nDocs d : BitVec 32) : B.R :=
  ((hits query d).map fun t => B.doubles.mul (B.doubles.ofInt (frequency t d)) (idf B nDocs t)).foldl
    B.doubles.add
    B.doubles.zero

end Score

/-- A posting list whose frequencies lie beside its documents. -/
structure Aligned (t : IeeToken) : Prop where
  sound : t.docs.Sound
  frequencies : t.docs.elems.length ≤ t.docFrequencies.array.length

/-! ## The scores -/

theorem idfOf_eq (B : Build) (nDocs : BitVec 32) {t : IeeToken} (h : Aligned t) :
    idfOf B nDocs t = idf B nDocs t := by
  have hSize : viSize t.docs = t.docs.elems.length := (length_elems h.sound).symm
  simp only [idfOf, idf, hSize, List.length_eq_zero_iff]

theorem getD_idxOf (d : BitVec 32) (ids frequencies : List (BitVec 32))
    (hLength : ids.length ≤ frequencies.length) :
    d ∈ ids → frequencies.getD (ids.idxOf d) 0 = ((ids.zip frequencies).lookup d).getD 0 := by
  induction ids generalizing frequencies with
  | nil => exact fun h => (by cases h)
  | cons id ids ih =>
    intro hMem
    cases frequencies with
    | nil => cases hLength
    | cons frequency frequencies =>
      rw [List.zip_cons_cons]
      by_cases hEq : d = id
      · rw [hEq, List.idxOf_cons_self, List.lookup_cons_self]
        rfl
      · have hRest : d ∈ ids := (List.mem_cons.mp hMem).resolve_left hEq
        rw [List.idxOf_cons_ne _ (Ne.symm hEq), List.lookup_cons, beq_false_of_ne hEq]
        exact ih frequencies (Nat.le_of_succ_le_succ hLength) hRest

theorem viIndexOf_eq (v : VecInt) (d : BitVec 32) :
    viIndexOf v d = if d ∈ v.elems then (v.elems.idxOf d : Int) else -1 := by
  unfold viIndexOf
  by_cases hMem : d ∈ v.elems
  · obtain ⟨i, hi⟩ := Option.isSome_iff_exists.mp (List.isSome_idxOf?.mpr hMem)
    rw [if_pos hMem, List.idxOf_eq_getD_idxOf?, hi]
    rfl
  · rw [if_neg hMem, List.idxOf?_eq_none_iff.mpr hMem]

theorem tfIdf_step (B : Build) (nDocs d : BitVec 32) {t : IeeToken} (h : Aligned t) (acc : B.R) :
    (if viIndexOf t.docs d ≠ -1 then
      B.doubles.add acc (B.doubles.mul (B.doubles.ofInt
      (t.docFrequencies.array.getD (viIndexOf t.docs d).toNat 0))
        (idfOf B nDocs t))
    else acc) =
    if d ∈ t.docs.elems then
      B.doubles.add acc (B.doubles.mul (B.doubles.ofInt (frequency t d)) (idf B nDocs t)) else acc := by
  rw [viIndexOf_eq, idfOf_eq B nDocs h]
  by_cases hMem : d ∈ t.docs.elems
  · have hFound : (t.docs.elems.idxOf d : Int) ≠ -1 := by omega
    rw [if_pos hMem, if_pos hMem, if_pos hFound, Int.toNat_natCast, getD_idxOf d _ _ h.frequencies hMem]
    rfl
  · rw [if_neg hMem, if_neg hMem, if_neg (not_not_intro rfl)]

theorem tfIdf_eq_score (B : Build) {query : VecToken} (nDocs d : BitVec 32)
    (h : ∀ t, t ∈ query.elems → t.type = wordToken → Aligned t) :
    tfIdf B (calcIdf B query nDocs) d = score B query nDocs d := by
  have hRun : ∀ (ts : List IeeToken) (acc : B.R), (∀ t, t ∈ ts → t.type = wordToken → Aligned t) →
      ((ts.filter (·.type = wordToken)).map fun t => (t, idfOf B nDocs t)).foldl (fun acc p =>
        if viIndexOf p.1.docs d ≠ -1 then
          B.doubles.add acc
            (B.doubles.mul (B.doubles.ofInt (p.1.docFrequencies.array.getD (viIndexOf p.1.docs d).toNat 0)) p.2)
        else acc) acc =
      ((ts.filter fun t => t.type = wordToken ∧ t.docs.elems.contains d).map fun t =>
        B.doubles.mul (B.doubles.ofInt (frequency t d)) (idf B nDocs t)).foldl B.doubles.add acc := by
    intro ts
    induction ts with
    | nil => exact fun _ _ => rfl
    | cons t ts ih =>
      intro acc hTs
      have hRest : ∀ u, u ∈ ts → u.type = wordToken → Aligned u := fun u hu => hTs u (List.mem_cons_of_mem _ hu)
      by_cases hType : t.type = wordToken
      · rw [List.filter_cons_of_pos (by simpa using hType), List.map_cons, List.foldl_cons, ih _ hRest]
        simp only
        rw [tfIdf_step B nDocs d (hTs t List.mem_cons_self hType)]
        by_cases hMem : d ∈ t.docs.elems
        · rw [if_pos hMem, List.filter_cons_of_pos (by simpa using ⟨hType, hMem⟩), List.map_cons,
            List.foldl_cons]
        · rw [if_neg hMem, List.filter_cons_of_neg (by simpa [hType] using hMem)]
      · rw [List.filter_cons_of_neg (by simpa using hType), List.filter_cons_of_neg (by simp [hType])]
        exact ih acc hRest
  exact hRun query.elems B.doubles.zero h

/-! ## The reply as the client reads it -/

section Reply
variable (B : Build) {query : VecToken} {nDocs : BitVec 32} {responseDocs : VecInt}

theorem compare_le_zero_iff (a b : Bytes) :
    compareResultsRbisen B a b ≤ 0 ↔ B.doubles.ofBytes (slice b 4 8) ≤ B.doubles.ofBytes (slice a 4 8) := by
  unfold compareResultsRbisen
  simp only
  obtain hLt | hEq | hGt := lt_trichotomy (B.doubles.ofBytes (slice a 4 8)) (B.doubles.ofBytes (slice b 4 8))
  · rw [if_neg hLt.ne, if_pos hLt]
    exact ⟨fun h => absurd h (by decide), fun h => absurd h (not_le.mpr hLt)⟩
  · rw [if_pos hEq]
    exact ⟨fun _ => hEq.ge, fun _ => le_refl 0⟩
  · rw [if_neg hGt.ne', if_neg (not_lt.mpr hGt.le)]
    exact ⟨fun _ => hGt.le, fun _ => by decide⟩

theorem compare_consistent : ConsistentComparator (compareResultsRbisen B) where
  swap a b := by
    have hSwap : compareResultsRbisen B b a = -compareResultsRbisen B a b := by
      unfold compareResultsRbisen
      simp only
      obtain hLt | hEq | hGt :=
        lt_trichotomy (B.doubles.ofBytes (slice a 4 8)) (B.doubles.ofBytes (slice b 4 8))
      · rw [if_neg hLt.ne', if_neg hLt.ne, if_neg (not_lt.mpr hLt.le), if_pos hLt]
      · rw [if_pos hEq.symm, if_pos hEq]
        rfl
      · rw [if_neg hGt.ne, if_neg hGt.ne', if_pos hGt, if_neg (not_lt.mpr hGt.le)]
        rfl
    omega
  trans a b c hab hbc := by
    rw [compare_le_zero_iff] at hab hbc ⊢
    exact hbc.trans hab

def resultRecord (query : VecToken) (nDocs d : BitVec 32) : Bytes :=
  word32 d ++ if B.bisenScoring then B.doubles.toBytes (score B query nDocs d) else []

def resultPair (query : VecToken) (nDocs d : BitVec 32) : BitVec 32 × Option B.R :=
  (d, if B.bisenScoring then some (score B query nDocs d) else none)

variable {B} (hB : B.Documented)
include hB

theorem length_resultRecord (d : BitVec 32) : (resultRecord B query nDocs d).length = pairLen B := by
  rw [resultRecord, List.length_append, length_word32, pairLen]
  split
  · rw [hB.toBytes_length]
  · rfl

theorem resultRecord_score (d : BitVec 32) (hScoring : B.bisenScoring = true) :
    B.doubles.ofBytes (slice (resultRecord B query nDocs d) 4 8) = score B query nDocs d := by
  have hSlice : slice (resultRecord B query nDocs d) 4 8 = B.doubles.toBytes (score B query nDocs d) := by
    rw [resultRecord, if_pos hScoring, slice, List.drop_left' (length_word32 d)]
    exact List.take_of_length_le (hB.toBytes_length _).le
  rw [hSlice, hB.ofBytes_toBytes]

theorem results_eq (hAligned : ∀ t, t ∈ query.elems → t.type = wordToken → Aligned t) :
    ∃ ids : List (BitVec 32), ids.Perm responseDocs.elems ∧
      results B query nDocs responseDocs = ids.map (resultRecord B query nDocs) ∧
      (B.bisenScoring = true → ids.Pairwise fun d d' => score B query nDocs d' ≤ score B query nDocs d) ∧
      (B.bisenScoring = false → ids = responseDocs.elems) := by
  by_cases hScoring : B.bisenScoring = true
  · have hRecords : calcTfidf B (calcIdf B query nDocs) responseDocs =
        responseDocs.elems.map (resultRecord B query nDocs) := by
      apply List.map_congr_left
      intro d _
      rw [tfIdf_eq_score B nDocs d hAligned, resultRecord, if_pos hScoring]
    have hPerm := hB.qsort_perm _ (compare_consistent B) (responseDocs.elems.map (resultRecord B query nDocs))
    have hSorted := hB.qsort_sorted _ (compare_consistent B)
      (responseDocs.elems.map (resultRecord B query nDocs))
    have hResults : results B query nDocs responseDocs =
        B.qsort (compareResultsRbisen B) (responseDocs.elems.map (resultRecord B query nDocs)) := by
      rw [results, if_pos hScoring, hRecords]
    generalize B.qsort (compareResultsRbisen B) (responseDocs.elems.map (resultRecord B query nDocs)) = records
      at hPerm hSorted hResults
    have hIds : (records.map fun p => readWord32 (p.take 4)).Perm responseDocs.elems := by
      have hMap := hPerm.map fun p => readWord32 (p.take 4)
      rw [List.map_map] at hMap
      refine hMap.trans (List.Perm.of_eq ?_)
      refine (List.map_congr_left fun d _ => ?_).trans (List.map_id _)
      rw [Function.comp_apply, resultRecord, List.take_left' (length_word32 d), readWord32_word32, id]
    have hRecord : ∀ p, p ∈ records → resultRecord B query nDocs (readWord32 (p.take 4)) = p := by
      intro p hp
      obtain ⟨d, _, rfl⟩ := List.mem_map.mp (hPerm.mem_iff.mp hp)
      have hId : readWord32 ((resultRecord B query nDocs d).take 4) = d := by
        rw [resultRecord, List.take_left' (length_word32 d), readWord32_word32]
      rw [hId]
    refine ⟨_, hIds, ?_, fun _ => ?_, fun hOff => ?_⟩
    · rw [hResults, List.map_map]
      exact ((List.map_congr_left hRecord).trans (List.map_id _)).symm
    · rw [List.pairwise_map]
      apply hSorted.imp_of_mem
      intro p q hp hq hLe
      rw [compare_le_zero_iff, ← hRecord p hp, ← hRecord q hq, resultRecord_score hB _ hScoring,
        resultRecord_score hB _ hScoring] at hLe
      exact hLe
    · rw [hScoring] at hOff
      cases hOff
  · have hOff : B.bisenScoring = false := Bool.not_eq_true _ ▸ hScoring
    refine ⟨responseDocs.elems, List.Perm.refl _, ?_, fun h => absurd h hScoring, fun _ => rfl⟩
    rw [results, if_neg hScoring]
    apply List.map_congr_left
    intro d _
    rw [resultRecord, if_neg hScoring, List.append_nil]

theorem decode_records {elements : Nat} (hSmall : elements < 2 ^ 64) {top : List (BitVec 32)} {body : Bytes}
    (hBody : chunks (pairLen B) elements body = top.map (resultRecord B query nDocs)) :
    decode B (word64 (.ofNat 64 elements) ++ [if B.bisenScoring then 1 else 0] ++ body) =
      top.map (resultPair B query nDocs) := by
  have hHead : (word64 (.ofNat 64 elements) ++ [if B.bisenScoring then 1 else 0] ++ body).take 8 =
      word64 (.ofNat 64 elements) := by
    rw [List.append_assoc]
    exact List.take_left' (length_word64 _)
  have hFlag : slice (word64 (.ofNat 64 elements) ++ [if B.bisenScoring then 1 else 0] ++ body) 8 1 =
      [if B.bisenScoring then 1 else 0] := by
    rw [List.append_assoc]
    exact slice_append (length_word64 _) rfl
  have hDrop : (word64 (.ofNat 64 elements) ++ [if B.bisenScoring then 1 else 0] ++ body).drop 9 = body :=
    List.drop_left' (by rw [List.length_append, length_word64]; rfl)
  have hToNat : (BitVec.ofNat 64 elements).toNat = elements := by
    rw [BitVec.toNat_ofNat, Nat.mod_eq_of_lt hSmall]
  have hPair : ∀ d, readWord32 ((resultRecord B query nDocs d).take 4) = d := by
    intro d
    rw [resultRecord, List.take_left' (length_word32 d), readWord32_word32]
  unfold decode
  simp only [hHead, hFlag, hDrop, readWord64_word64, hToNat, List.getD_cons_zero]
  by_cases hScoring : B.bisenScoring = true
  · have hLen : pairLen B = 4 + 8 := if_pos hScoring
    have hOn : (1 : UInt8) ≠ 0 := by decide
    rw [hLen] at hBody
    simp only [if_pos hScoring, if_pos hOn, hBody, List.map_map]
    apply List.map_congr_left
    intro d _
    rw [Function.comp_apply, hPair, resultPair, if_pos hScoring, resultRecord, if_pos hScoring,
      List.drop_left' (length_word32 d), hB.ofBytes_toBytes]
  · have hLen : pairLen B = 4 := if_neg hScoring
    rw [hLen] at hBody
    simp only [if_neg hScoring, if_neg (not_not_intro (rfl : (0 : UInt8) = 0)), hBody, List.map_map]
    apply List.map_congr_left
    intro d _
    rw [Function.comp_apply, hPair, resultPair, if_neg hScoring]

theorem decode_respond (hWidth : viSize responseDocs < 2 ^ 32)
    {ids : List (BitVec 32)} (hLength : ids.length = viSize responseDocs)
    (hResults : results B query nDocs responseDocs = ids.map (resultRecord B query nDocs)) :
    decode B (respond B query nDocs responseDocs) =
      (ids.take (if B.bisenScoring then threshold else viSize responseDocs)).map
        (resultPair B query nDocs) := by
  have hBuffer : (if viSize responseDocs ≠ 0 then (results B query nDocs responseDocs).flatten else []) =
      (ids.map (resultRecord B query nDocs)).flatten := by
    by_cases hEmpty : viSize responseDocs = 0
    · rw [if_neg (not_not_intro hEmpty), List.length_eq_zero_iff.mp (hLength.trans hEmpty)]
      rfl
    · rw [if_pos hEmpty, hResults]
  have hRecords : ∀ records : List (BitVec 32), ∀ p, p ∈ records.map (resultRecord B query nDocs) →
      p.length = pairLen B := by
    intro records p hp
    obtain ⟨d, _, rfl⟩ := List.mem_map.mp hp
    exact length_resultRecord hB d
  unfold respond
  simp only
  generalize (if B.bisenScoring then threshold else viSize responseDocs) = limit
  have hTake : ids.take limit = ids.take (min limit (viSize responseDocs)) := by
    rw [← hLength, List.take_eq_take_min]
  have hCount : (ids.take (min limit (viSize responseDocs))).length = min limit (viSize responseDocs) := by
    rw [List.length_take, hLength]
    omega
  have hSmall : min limit (viSize responseDocs) < 2 ^ 64 := by omega
  rw [hTake, hBuffer, take_flatten_of_width _ (hRecords ids), ← List.map_take]
  generalize hElements : min limit (viSize responseDocs) = elements at hCount hSmall
  generalize ids.take elements = top at hCount
  have hChunks := chunks_flatten (top.map (resultRecord B query nDocs)) (hRecords top)
  have hFlat := length_flatten_of_width (top.map (resultRecord B query nDocs)) (hRecords top)
  rw [List.length_map, hCount] at hChunks hFlat
  generalize (List.replicate (limit * pairLen B) (0 : UInt8)).drop _ = padding
  have hAppend := chunks_append hFlat padding
  rw [hChunks] at hAppend
  exact decode_records hB hSmall hAppend

end Reply

/-- The best documents by score, each with its score, best first. -/
structure Ranked (B : Build) (query : VecToken) (nDocs : BitVec 32) (responseDocs : VecInt)
    (pairs : List (BitVec 32 × Option B.R)) : Prop where
  count : pairs.length = min 10 (viSize responseDocs)
  listed : ∀ p, p ∈ pairs → p.1 ∈ responseDocs.elems ∧ p.2 = some (score B query nDocs p.1)
  nodup : responseDocs.elems.Nodup → (pairs.map Prod.fst).Nodup
  sorted : pairs.Pairwise fun p q => score B query nDocs q.1 ≤ score B query nDocs p.1
  best : ∀ d, d ∈ responseDocs.elems → d ∉ pairs.map Prod.fst →
    ∀ p, p ∈ pairs → score B query nDocs d ≤ score B query nDocs p.1

theorem ranked_take {B : Build} {query : VecToken} {nDocs : BitVec 32} {responseDocs : VecInt}
    (hSound : responseDocs.Sound) (hScoring : B.bisenScoring = true) {ids : List (BitVec 32)}
    (hPerm : ids.Perm responseDocs.elems)
    (hSorted : ids.Pairwise fun d d' => score B query nDocs d' ≤ score B query nDocs d) :
    Ranked B query nDocs responseDocs ((ids.take 10).map (resultPair B query nDocs)) := by
  have hIds : ((ids.take 10).map (resultPair B query nDocs)).map Prod.fst = ids.take 10 := by
    rw [List.map_map]
    exact List.map_id _
  have hSplit : (ids.take 10 ++ ids.drop 10).Pairwise
      fun d d' => score B query nDocs d' ≤ score B query nDocs d := by rwa [List.take_append_drop]
  obtain ⟨hTake, _, hCross⟩ := List.pairwise_append.mp hSplit
  refine ⟨?_, ?_, ?_, ?_, ?_⟩
  · rw [List.length_map, List.length_take, hPerm.length_eq, length_elems hSound]
    rfl
  · intro p hp
    obtain ⟨d, hd, rfl⟩ := List.mem_map.mp hp
    exact ⟨hPerm.mem_iff.mp (List.mem_of_mem_take hd), if_pos hScoring⟩
  · intro hNodup
    rw [hIds]
    exact (hPerm.nodup_iff.mpr hNodup).sublist (List.take_sublist 10 ids)
  · rw [List.pairwise_map]
    exact hTake
  · intro d hd hOut p hp
    obtain ⟨d', hd', rfl⟩ := List.mem_map.mp hp
    rw [hIds] at hOut
    have hMem : d ∈ ids.take 10 ++ ids.drop 10 := by rw [List.take_append_drop]; exact hPerm.mem_iff.mpr hd
    exact hCross d' hd' d ((List.mem_append.mp hMem).resolve_left hOut)

/-- With scoring the client reads the best ten documents with their scores, without it all of them. -/
theorem decode_respond_ranked {B : Build} (hB : B.Documented) {query : VecToken} (nDocs : BitVec 32)
    {responseDocs : VecInt} (hAligned : ∀ t, t ∈ query.elems → t.type = wordToken → Aligned t)
    (hSound : responseDocs.Sound) (hWidth : viSize responseDocs < 2 ^ 32) :
    (B.bisenScoring = true → Ranked B query nDocs responseDocs
    (decode B (respond B query nDocs responseDocs))) ∧
      (B.bisenScoring = false →
        decode B (respond B query nDocs responseDocs) = responseDocs.elems.map fun d => (d, none)) := by
  obtain ⟨ids, hPerm, hResults, hSorted, hAll⟩ := results_eq hB hAligned
  have hLength : ids.length = viSize responseDocs := hPerm.length_eq.trans (length_elems hSound)
  rw [decode_respond hB hWidth hLength hResults]
  constructor
  · intro hScoring
    rw [if_pos hScoring]
    exact ranked_take hSound hScoring hPerm (hSorted hScoring)
  · intro hOff
    rw [hOff, if_neg Bool.false_ne_true, ← hLength, List.take_length, hAll hOff]
    apply List.map_congr_left
    intro d _
    rw [resultPair, hOff, if_neg Bool.false_ne_true]

def twoWords : VecToken :=
  ⟨[⟨wordToken, 1, [], ⟨[2], 1, 1⟩, ⟨[5], 1, 0⟩⟩, ⟨wordToken, 1, [], ⟨[0], 1, 1⟩, ⟨[3], 1, 0⟩⟩], 2, 2⟩

theorem decode_respond_ranked_twoWords :
    Ranked (Reference.build true) twoWords 10 ⟨[0, 2], 2, 2⟩
      (decode (Reference.build true) (respond (Reference.build true) twoWords 10 ⟨[0, 2], 2, 2⟩)) := by
  have hAligned : ∀ t, t ∈ twoWords.elems → t.type = wordToken → Aligned t := by
    intro t ht _
    have hCases : t.docs.array.length = t.docs.maxSize ∧ t.docs.counter ≤ t.docs.maxSize ∧
        t.docs.elems.length ≤ t.docFrequencies.array.length := by
      revert t
      decide
    exact ⟨⟨hCases.1, hCases.2.1⟩, hCases.2.2⟩
  exact (decode_respond_ranked (Reference.build_documented true) 10 hAligned ⟨rfl, le_refl 2⟩ (by decide)).1 rfl

end Bisen.Ranking
