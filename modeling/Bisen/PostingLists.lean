import Bisen.QueryMessage
import Bisen.Retrieval
import Mathlib.Data.List.Induction
import Mathlib.Data.Set.Function

/-! # Posting lists

The specification of the index: for every word the documents that contain it, in order of
addition, and the label and the entry under which the service should hold each of them.
-/
namespace Bisen.PostingLists
open Wire SseClient SseIee QueryMessage Retrieval
set_option autoImplicit false

/-- The documents that contain a word, in order of addition, with its frequency there. -/
def posting (docs : List WordMap) (word : Bytes) : List (Nat × BitVec 32) :=
  docs.zipIdx.filterMap fun p => (p.1.frequency word).map fun frequency => (p.2, frequency)

theorem posting_concat (docs : List WordMap) (words : WordMap) (word : Bytes) :
    posting (docs ++ [words]) word =
      posting docs word ++ ((words.frequency word).map fun frequency => (docs.length, frequency)).toList := by
  rw [posting, List.zipIdx_append, List.filterMap_append]
  congr 1
  rw [List.zipIdx_singleton, Nat.zero_add]
  cases hFind : words.frequency word <;> simp [hFind]

theorem posting_append_of_some {docs : List WordMap} {word : Bytes} {j : Nat} {p : Nat × BitVec 32}
    (h : (posting docs word)[j]? = some p) (more : List WordMap) :
    (posting (docs ++ more) word)[j]? = some p := by
  have hj := (List.getElem?_eq_some_iff.mp h).1
  rw [posting] at h hj
  rw [posting, List.zipIdx_append, List.filterMap_append, List.getElem?_append_left hj]
  exact h

theorem mem_posting {docs : List WordMap} {word : Bytes} {id : Nat} {frequency : BitVec 32} :
    (id, frequency) ∈ posting docs word ↔
      ∃ words, docs[id]? = some words ∧ words.frequency word = some frequency := by
  rw [posting, List.mem_filterMap]
  constructor
  · rintro ⟨⟨words, i⟩, hZip, hSome⟩
    obtain ⟨g, hFind, hEq⟩ := Option.map_eq_some_iff.mp hSome
    obtain ⟨rfl, rfl⟩ := Prod.mk.inj hEq
    exact ⟨words, List.mem_zipIdx_iff_getElem?.mp hZip, hFind⟩
  · rintro ⟨words, hGet, hFind⟩
    exact ⟨(words, id), List.mem_zipIdx_iff_getElem?.mpr hGet, by rw [hFind]; rfl⟩

theorem lt_of_mem_posting {docs : List WordMap} {word : Bytes} {p : Nat × BitVec 32}
    (h : p ∈ posting docs word) : p.1 < docs.length := by
  obtain ⟨words, hGet, _⟩ := mem_posting.mp h
  exact (List.getElem?_eq_some_iff.mp hGet).1

theorem nodup_posting (docs : List WordMap) (word : Bytes) : ((posting docs word).map Prod.fst).Nodup := by
  induction docs using List.reverseRecOn with
  | nil => exact List.nodup_nil
  | append_singleton docs words ih =>
    rw [posting_concat]
    cases words.frequency word with
    | none => simpa using ih
    | some frequency =>
      rw [Option.map_some, Option.toList_some, List.map_append, List.map_singleton]
      refine List.nodup_append.mpr ⟨ih, List.nodup_singleton _, ?_⟩
      intro id hId id' hId' hEq
      obtain ⟨p, hp, rfl⟩ := List.mem_map.mp hId
      have hLt := lt_of_mem_posting hp
      rw [List.mem_singleton] at hId'
      omega

theorem length_posting_le (docs : List WordMap) (word : Bytes) : (posting docs word).length ≤ docs.length := by
  have h := List.length_filterMap_le (fun p : WordMap × Nat =>
    (p.1.frequency word).map fun frequency => (p.2, frequency)) docs.zipIdx
  rwa [List.length_zipIdx] at h

theorem posting_concat_length (docs : List WordMap) (words : WordMap) (word : Bytes) :
    (posting (docs ++ [words]) word).length =
    (posting docs word).length + (words.frequency word).toList.length := by
  rw [posting_concat, List.length_append]
  cases words.frequency word <;> rfl

theorem frequency_eq_none_iff {words : WordMap} {word : Bytes} :
    words.frequency word = none ↔ word ∉ words.keys := by
  rw [WordMap.frequency, List.lookup_eq_none_iff, WordMap.keys]
  simp only [List.mem_map, not_exists, not_and]
  exact ⟨fun h p hp hEq => by simpa [hEq] using h p hp, fun h p hp => by simpa using fun hEq => h p hp hEq.symm⟩

theorem frequency_of_mem {words : WordMap} {f : Bytes × BitVec 32} (h : f ∈ words.entries) :
    words.frequency f.1 = some f.2 := by
  have hNodup := words.nodup_keys
  unfold WordMap.frequency
  unfold WordMap.keys at hNodup
  generalize words.entries = entries at h hNodup
  induction entries with
  | nil => cases h
  | cons g entries ih =>
    rw [List.map_cons] at hNodup
    obtain ⟨hFresh, hNodup⟩ := List.nodup_cons.mp hNodup
    obtain rfl | hMem := List.mem_cons.mp h
    · exact List.lookup_cons_self
    · have hNe : f.1 ≠ g.1 := fun hEq => hFresh (hEq ▸ List.mem_map_of_mem hMem)
      rw [List.lookup_cons, beq_false_of_ne hNe]
      exact ih hMem hNodup

theorem mem_of_frequency {words : WordMap} {word : Bytes} {frequency : BitVec 32}
    (h : words.frequency word = some frequency) : (word, frequency) ∈ words.entries := by
  have hMem : word ∈ words.keys := by
    by_contra hNot
    rw [frequency_eq_none_iff.mpr hNot] at h
    cases h
  obtain ⟨f, hf, rfl⟩ := List.mem_map.mp hMem
  rw [frequency_of_mem hf] at h
  cases h
  exact hf

theorem length_posting (docs : List WordMap) (word : Bytes) :
    (posting docs word).length = docs.countP fun words => word ∈ words.keys := by
  induction docs using List.reverseRecOn with
  | nil => rfl
  | append_singleton docs words ih =>
    rw [posting_concat_length, ih, List.countP_append, List.countP_singleton]
    by_cases hMem : word ∈ words.keys
    · obtain ⟨f, hf, rfl⟩ := List.mem_map.mp hMem
      rw [frequency_of_mem hf, if_pos (decide_eq_true hMem)]
      rfl
    · rw [frequency_eq_none_iff.mpr hMem, if_neg (by simpa using hMem)]
      rfl

theorem length_posting_of_sublist {docs docs' : List WordMap} (h : docs'.Sublist docs) (word : Bytes) :
    (posting docs' word).length ≤ (posting docs word).length := by
  rw [length_posting, length_posting]
  exact h.countP_le

/-! ## Keys, labels and entries -/

def indexedWords (docs : List WordMap) : Set Bytes := {word | ∃ words, words ∈ docs ∧ word ∈ words.keys}

def key (P : Platform) (word : Bytes) : Bytes := P.cryptoAuthHmacsha256 word clientKF

def labelFor (P : Platform) (word : Bytes) (j : Nat) : Bytes := labelOf P (key P word) (.ofNat 32 j)

def entryFor (P : Platform) (word : Bytes) (j : Nat) (p : Nat × BitVec 32) : Bytes :=
  Tcrypto.encrypt P (unencData (labelFor P word j) p.2 (.ofNat 32 p.1)) zeroKey zeroCtr

/-- HMAC-SHA256 has no collision among the inputs that the session uses. -/
structure CollisionFree (P : Platform) (docs : List WordMap) : Prop where
  keys : Set.InjOn (key P) (indexedWords docs)
  labels : Set.InjOn (fun p : Bytes × Bytes => Tcrypto.hmacSha256 P p.1 p.2)
    {p | ∃ word, word ∈ indexedWords docs ∧ ∃ j, j < (posting docs word).length ∧
      p = (word32 (.ofNat 32 j), key P word)}

theorem mem_indexedWords_of_posting {docs : List WordMap} {word : Bytes} (h : 0 < (posting docs word).length) :
    word ∈ indexedWords docs := by
  obtain ⟨p, hp⟩ := List.exists_mem_of_length_pos h
  obtain ⟨words, hGet, hFind⟩ := mem_posting.mp (show (p.1, p.2) ∈ posting docs word from hp)
  exact ⟨words, List.mem_of_getElem? hGet, List.mem_map_of_mem (mem_of_frequency hFind)⟩

/-- The counters of the labels are 32 bits wide, however many documents there are. -/
theorem CollisionFree.labelFor_inj_of_lt {P : Platform} {docs : List WordMap} (h : CollisionFree P docs)
    {word word' : Bytes} {j j' : Nat} (hj : j < (posting docs word).length)
    (hj' : j' < (posting docs word').length) (hSmall : j < 2 ^ 32) (hSmall' : j' < 2 ^ 32)
    (hEq : labelFor P word j = labelFor P word' j') : word = word' ∧ j = j' := by
  have hWord : word ∈ indexedWords docs := mem_indexedWords_of_posting (by omega)
  have hWord' : word' ∈ indexedWords docs := mem_indexedWords_of_posting (by omega)
  have hPair := h.labels ⟨word, hWord, j, hj, rfl⟩ ⟨word', hWord', j', hj', rfl⟩ hEq
  obtain ⟨hCounter, hKey⟩ := Prod.mk.inj hPair
  have hNumber := congrArg BitVec.toNat (word32_inj hCounter)
  rw [BitVec.toNat_ofNat, BitVec.toNat_ofNat, Nat.mod_eq_of_lt hSmall, Nat.mod_eq_of_lt hSmall'] at hNumber
  exact ⟨h.keys hWord hWord' hKey, hNumber⟩

theorem CollisionFree.labelFor_inj {P : Platform} {docs : List WordMap} (h : CollisionFree P docs)
    (hDocs : docs.length < 2 ^ 31) {word word' : Bytes} {j j' : Nat} (hj : j < (posting docs word).length)
    (hj' : j' < (posting docs word').length) (hEq : labelFor P word j = labelFor P word' j') :
    word = word' ∧ j = j' := by
  have hLe := length_posting_le docs word
  have hLe' := length_posting_le docs word'
  exact h.labelFor_inj_of_lt hj hj' (by omega) (by omega) hEq

theorem CollisionFree.sublist {P : Platform} {docs docs' : List WordMap} (h : CollisionFree P docs)
    (hSublist : docs'.Sublist docs) : CollisionFree P docs' := by
  have hWords : indexedWords docs' ⊆ indexedWords docs := by
    rintro word ⟨d, hd, hMem⟩
    exact ⟨d, hSublist.subset hd, hMem⟩
  refine ⟨h.keys.mono hWords, h.labels.mono ?_⟩
  rintro p ⟨word, hWord, j, hj, rfl⟩
  exact ⟨word, hWords hWord, j, Nat.lt_of_lt_of_le hj (length_posting_of_sublist hSublist word), rfl⟩

theorem CollisionFree.prefix {P : Platform} {docs : List WordMap} {words : WordMap}
    (h : CollisionFree P (docs ++ [words])) : CollisionFree P docs := h.sublist (List.sublist_append_left _ _)

/-- The keys of all words and their labels begin differently. -/
theorem collisionFree_of_heads {P : Platform} {docs : List WordMap} (words keyHeads labelHeads : List Bytes)
    (hWords : ∀ d ∈ docs, ∀ word ∈ d.keys, word ∈ words)
    (hKeys : (words.map fun word => (key P word).take 2) = keyHeads) (hKeyHeads : keyHeads.Nodup)
    (hLabels : ((words.flatMap fun word => (List.range (posting docs word).length).map fun j => (word, j)).map
      fun p => (labelFor P p.1 p.2).take 2) = labelHeads) (hLabelHeads : labelHeads.Nodup) : CollisionFree P docs := by
  subst hKeys hLabels
  have hListed : ∀ word ∈ indexedWords docs, word ∈ words := by
    rintro word ⟨d, hd, hMem⟩
    exact hWords d hd word hMem
  refine ⟨fun word hWord word' hWord' hEq => ?_, ?_⟩
  · exact List.inj_on_of_nodup_map hKeyHeads (hListed word hWord) (hListed word' hWord') (congrArg (List.take 2) hEq)
  · rintro p ⟨word, hWord, j, hj, rfl⟩ p' ⟨word', hWord', j', hj', rfl⟩ hEq
    have hMem : ∀ w ∈ indexedWords docs, ∀ k < (posting docs w).length,
        (w, k) ∈ words.flatMap fun word => (List.range (posting docs word).length).map fun j => (word, j) :=
      fun w hw k hk => List.mem_flatMap.mpr ⟨w, hListed w hw, List.mem_map_of_mem (List.mem_range.mpr hk)⟩
    have hSame := List.inj_on_of_nodup_map hLabelHeads (hMem word hWord j hj) (hMem word' hWord' j' hj')
      (congrArg (List.take 2) hEq)
    obtain ⟨rfl, rfl⟩ := Prod.mk.inj hSame
    rfl

/-! ## What an entry holds -/

theorem kW_eq_key (P : Platform) {word : Bytes} (h : NulFree word) : kW P word = key P word := kW_of_nulFree P h

section Entries
variable {P : Platform} (hP : P.Documented) (word : Bytes) (j : Nat) (p : Nat × BitVec 32)
include hP

theorem length_labelFor : (labelFor P word j).length = SseServer.lSize := Tcrypto.length_hmacSha256 hP _ _

theorem length_entryFor : (entryFor P word j p).length = SseServer.dSize := by
  rw [entryFor, Tcrypto.length_encrypt hP, unencData]
  simp only [List.length_append, length_word32, length_word64, length_labelFor hP]
  rfl

theorem verified_entryFor : Verified P (labelFor P word j) (entryFor P word j p) :=
  verified_encrypt P hP (length_labelFor hP word j) p.2 _

theorem frequencyOf_entryFor : frequencyOf P (entryFor P word j p) = p.2 :=
  frequencyOf_encrypt P hP (length_labelFor hP word j) p.2 _

theorem docIdOf_entryFor : docIdOf P (entryFor P word j p) = .ofNat 32 p.1 :=
  docIdOf_encrypt P hP (length_labelFor hP word j) p.2 _

omit hP in
theorem slice_record {kW : Bytes} (hKey : kW.length = 32) (docId c freq : BitVec 32) :
    slice (record docId c freq kW) 0 4 = word32 docId ∧ slice (record docId c freq kW) 4 4 = word32 c ∧
      slice (record docId c freq kW) 8 4 = word32 freq ∧ slice (record docId c freq kW) 12 32 = kW := by
  unfold record
  refine ⟨?_, ?_, ?_, ?_⟩
  · rw [List.append_assoc, List.append_assoc]
    exact slice_append (a := []) rfl (length_word32 docId)
  · rw [List.append_assoc, List.append_assoc]
    exact slice_append (length_word32 docId) (length_word32 c)
  · rw [List.append_assoc]
    exact slice_append (by simp) (length_word32 freq)
  · have hLast := slice_append (a := word32 docId ++ word32 c ++ word32 freq) (b := []) (i := 12) (by simp) hKey
    rwa [List.append_nil] at hLast

theorem pairOf_record (hNul : NulFree word) :
    pairOf P (record (.ofNat 32 p.1) (.ofNat 32 j) p.2 (kW P word)) =
    labelFor P word j ++ entryFor P word j p := by
  have hKey := length_kW hP word
  obtain ⟨hDoc, hCounter, hFrequency, hWord⟩ := slice_record hKey (.ofNat 32 p.1) (.ofNat 32 j) p.2
  simp only [pairOf, entryOf, hDoc, hCounter, hFrequency, Tcrypto.sha256OutputSize, hWord, readWord32_word32]
  rw [kW_eq_key P hNul]
  rfl

end Entries
end Bisen.PostingLists
