import Bisen.HonestRetrieval
import Bisen.Indexing
import Bisen.PostingLists

/-! # A client's session

One client sets up the enclave over a storage service with any earlier contents, adds documents
and searches. The invariant ties the three parties together: the client's counters, the entries
in the service's map, and the documents added so far, which only the specification remembers.
-/
namespace Bisen.Session
open Wire Socket SseClient SseIee SseServer QueryMessage Retrieval PostingLists
set_option autoImplicit false

structure System where
  client : SseClient
  enclave : Enclave
  link : Link

/-- The states of one session, with the documents added so far: every message ran to its end. -/
inductive Reached (P : Platform) (B : Build) (r : Nat → Nat) (storage₀ : Storage) (enclave₀ : Enclave) :
    List WordMap → System → Prop
  | setup {enclave : Enclave} {reply : Bytes} {link : Link} {out inn : List Bytes}
      (hRun : Runs Link.peer (processMessage P B r enclave₀ generateSetupMsg) (.opened storage₀)
        (enclave, reply) link out inn) :
      Reached P B r storage₀ enclave₀ [] ⟨SseClient.init, enclave, link⟩
  | add {docs : List WordMap} {s : System} {words : WordMap} {client : SseClient} {msg : Bytes}
      {enclave : Enclave} {reply : Bytes} {link : Link} {out inn : List Bytes}
      (h : Reached P B r storage₀ enclave₀ docs s)
      (hMsg : s.client.addNewDocument P words = .ok (client, msg))
      (hRun : Runs Link.peer (f P B r s.enclave msg) s.link (enclave, reply) link out inn) :
      Reached P B r storage₀ enclave₀ (docs ++ [words]) ⟨client, enclave, link⟩
  | search {docs : List WordMap} {s : System} {stem : Bytes → Bytes} {query : Bytes} {b : Buffer}
      {enclave : Enclave} {reply : Bytes} {link : Link} {out inn : List Bytes}
      (h : Reached P B r storage₀ enclave₀ docs s)
      (hMsg : s.client.search P stem query = .ok b)
      (hRun : Runs Link.peer (processMessage P B r s.enclave b.written) s.link (enclave, reply) link out inn) :
      Reached P B r storage₀ enclave₀ docs ⟨s.client, enclave, link⟩

structure Indexed (P : Platform) (docs : List WordMap) (s : System) : Prop where
  nDocs : s.client.nDocs = .ofNat 32 docs.length
  counters : ∀ word, s.client.counterOf word = .ofNat 32 (posting docs word).length
  link : s.link = .opened s.link.storage
  entries : ∀ word j p, (posting docs word)[j]? = some p →
    s.link.storage.I (labelFor P word j) = some (entryFor P word j p)
  scratch : s.enclave.auxBool.length = s.enclave.lastNdocs

/-! ## Setting up -/

section Setup
variable (P : Platform) (B : Build) (r : Nat → Nat) (storage : Storage)

theorem push_init : Link.peer.push (.opened storage) [opUeeInit] = .opened storage := by
  rw [Link.peer_push]
  exact Link.push_whole (show decodeRequest ([] ++ [opUeeInit]) = some (.init, []) from rfl) rfl

theorem setup_runs (enclave : Enclave) :
    Runs Link.peer (processMessage P B r enclave generateSetupMsg) (.opened storage)
      ({ enclave with auxBool := [], lastNdocs := 0 }, ok) (.opened storage) [[opUeeInit]] [] := by
  have hSetup : processMessage P B r enclave generateSetupMsg =
      .send [opUeeInit] (.ret ({ enclave with auxBool := [], lastNdocs := 0 }, ok)) := rfl
  rw [hSetup]
  exact Runs.send (push_init storage) rfl

theorem setup_indexed (enclave : Enclave) :
    Indexed P [] ⟨SseClient.init, { enclave with auxBool := [], lastNdocs := 0 }, .opened storage⟩ :=
  ⟨rfl, fun _ => rfl, rfl, fun _ _ _ h => (by cases h), rfl⟩

end Setup

/-! ## Adding a document -/

def newPairs (P : Platform) (docs : List WordMap) (words : WordMap) : List Bytes :=
  words.entries.map fun f => labelFor P f.1 (posting docs f.1).length ++
    entryFor P f.1 (posting docs f.1).length (docs.length, f.2)

section Add
variable {P : Platform} (hP : P.Documented) {docs : List WordMap} {words : WordMap} {s : System}
  (h : Indexed P docs s) (hNul : ∀ word, word ∈ words.keys → NulFree word)

theorem toInt_ofNat {n : Nat} (hn : n < 2 ^ 31) : (BitVec.ofNat 32 n).toInt = n := by
  rw [BitVec.toInt_eq_toNat_of_lt] <;> rw [BitVec.toNat_ofNat, Nat.mod_eq_of_lt (by omega)]
  omega

include h in
theorem addNewDocument_indexed (hDocs : docs.length + 1 < 2 ^ 31) :
    s.client.addNewDocument P words =
      .ok ({ s.client.countWords words.keys with nDocs := s.client.nDocs + 1 },
        opAdd :: (s.client.records P s.client.nDocs words).flatten) := by
  refine addNewDocument_eq P s.client words ?_ fun word _ => ?_
  · rw [h.nDocs, toInt_ofNat (by omega)]
    unfold intMax
    omega
  · have hLe := length_posting_le docs word
    rw [h.counters, toInt_ofNat (by omega)]
    unfold intMax
    omega

include hP

theorem length_newPairs {pair : Bytes} (hPair : pair ∈ newPairs P docs words) : pair.length = pairLen := by
  obtain ⟨f, _, rfl⟩ := List.mem_map.mp hPair
  rw [List.length_append, length_labelFor hP, length_entryFor hP]
  rfl

include h hNul in
theorem recordsOf_addMsg :
    (recordsOf (opAdd :: (s.client.records P s.client.nDocs words).flatten)).map (pairOf P) =
      newPairs P docs words := by
  have hWidth : ∀ b, b ∈ s.client.records P s.client.nDocs words → b.length = recvLen := by
    intro b hb
    obtain ⟨f, _, rfl⟩ := List.mem_map.mp hb
    exact length_record hP _ _ _ _
  have hCount : ((opAdd :: (s.client.records P s.client.nDocs words).flatten).length - 1) / recvLen =
      (s.client.records P s.client.nDocs words).length := by
    rw [List.length_cons, Nat.add_sub_cancel, length_flatten_of_width _ hWidth]
    exact Nat.mul_div_cancel _ (by decide)
  rw [recordsOf, hCount, List.drop_one, List.tail_cons, chunks_flatten _ hWidth, records, newPairs,
    List.map_map]
  apply List.map_congr_left
  intro f hf
  rw [Function.comp_apply, h.nDocs, h.counters]
  exact pairOf_record hP f.1 _ (docs.length, f.2) (hNul f.1 (List.mem_map_of_mem hf))

include h hNul in
theorem add_runs (B : Build) (r : Nat → Nat) :
    ∃ out, Runs Link.peer
      (f P B r s.enclave (opAdd :: (s.client.records P s.client.nDocs words).flatten)) s.link (s.enclave, ok)
      (.opened { s.link.storage with I := insertPairs s.link.storage.I (newPairs P docs words) }) out [] := by
  have hPairs := recordsOf_addMsg hP h hNul
  have hWidth : ∀ p, p ∈ (recordsOf (opAdd :: (s.client.records P s.client.nDocs words).flatten)).map
    (pairOf P) →
      p.length = pairLen := fun p hp => length_newPairs hP (hPairs ▸ hp)
  obtain ⟨out, hLoop⟩ := Indexing.updateLoop_honest s.link.storage hWidth (le_refl _)
  rw [hPairs, ← h.link] at hLoop
  refine ⟨out ++ [], ?_⟩
  rw [f, if_neg (by decide), if_pos rfl, update]
  exact hLoop.bind rfl

end Add

section Entries
variable {P : Platform} (hP : P.Documented) {docs : List WordMap} {words : WordMap}
  (hDocs : docs.length + 1 < 2 ^ 31) (hFree : CollisionFree P (docs ++ [words]))

theorem posting_concat_of_mem {f : Bytes × BitVec 32} (hf : f ∈ words.entries) :
    posting (docs ++ [words]) f.1 = posting docs f.1 ++ [(docs.length, f.2)] := by
  rw [posting_concat, frequency_of_mem hf]
  rfl

theorem length_posting_lt_concat {f : Bytes × BitVec 32} (hf : f ∈ words.entries) :
    (posting docs f.1).length < (posting (docs ++ [words]) f.1).length := by
  rw [posting_concat_of_mem hf, List.length_append, List.length_singleton]
  omega

include hDocs hFree

theorem labelFor_new_inj {f : Bytes × BitVec 32} (hf : f ∈ words.entries) {word : Bytes} {j : Nat}
    (hj : j < (posting (docs ++ [words]) word).length)
    (hEq : labelFor P f.1 (posting docs f.1).length = labelFor P word j) :
    f.1 = word ∧ (posting docs f.1).length = j := by
  refine hFree.labelFor_inj ?_ (length_posting_lt_concat hf) hj hEq
  rwa [List.length_append, List.length_singleton]

include hP

theorem nodup_newLabels : ((newPairs P docs words).map (·.take lSize)).Nodup := by
  have hLabels : (newPairs P docs words).map (·.take lSize) =
      words.entries.map fun f => labelFor P f.1 (posting docs f.1).length := by
    rw [newPairs, List.map_map]
    exact List.map_congr_left fun f _ => List.take_left' (length_labelFor hP _ _)
  rw [hLabels]
  refine List.Nodup.map_on ?_ (List.Nodup.of_map Prod.fst words.nodup_keys)
  intro f hf g hg hEq
  have hWord := (labelFor_new_inj hDocs hFree hf (length_posting_lt_concat hg) hEq).1
  have hFrequency := frequency_of_mem hf
  rw [hWord, frequency_of_mem hg] at hFrequency
  exact Prod.ext hWord (Option.some.inj hFrequency).symm

theorem insertPairs_new (I : Bytes → Option Bytes) {f : Bytes × BitVec 32} (hf : f ∈ words.entries) :
    insertPairs I (newPairs P docs words) (labelFor P f.1 (posting docs f.1).length) =
      some (entryFor P f.1 (posting docs f.1).length (docs.length, f.2)) := by
  have hInsert := insertPairs_of_mem (newPairs P docs words) I (nodup_newLabels hP hDocs hFree)
    (List.mem_map_of_mem hf)
  rwa [List.take_left' (length_labelFor hP _ _), List.drop_left' (length_labelFor hP _ _)] at hInsert

omit hDocs hFree in
theorem insertPairs_old (I : Bytes → Option Bytes) {l : Bytes}
    (h : ∀ f, f ∈ words.entries → labelFor P f.1 (posting docs f.1).length ≠ l) :
    insertPairs I (newPairs P docs words) l = I l := by
  apply insertPairs_of_not_mem _ _
  intro pair hPair
  obtain ⟨f, hf, rfl⟩ := List.mem_map.mp hPair
  rw [List.take_left' (length_labelFor hP _ _)]
  exact h f hf

theorem insertPairs_newPairs {I : Bytes → Option Bytes}
    (hOld : ∀ word j p, (posting docs word)[j]? = some p → I (labelFor P word j) = some (entryFor P word j p))
    {word : Bytes} {j : Nat} {p : Nat × BitVec 32} (hp : (posting (docs ++ [words]) word)[j]? = some p) :
    insertPairs I (newPairs P docs words) (labelFor P word j) = some (entryFor P word j p) := by
  have hj := (List.getElem?_eq_some_iff.mp hp).1
  by_cases hLt : j < (posting docs word).length
  · rw [insertPairs_old hP]
    · rw [posting_concat, List.getElem?_append_left hLt] at hp
      exact hOld word j p hp
    · intro f hf hEq
      obtain ⟨rfl, hPosition⟩ := labelFor_new_inj hDocs hFree hf hj hEq
      omega
  · rw [posting_concat, List.getElem?_append_right (by omega)] at hp
    cases hFind : words.frequency word with
    | none =>
      rw [hFind] at hp
      cases hp
    | some frequency =>
      rw [posting_concat, hFind, List.length_append, Option.map_some, Option.toList_some,
        List.length_singleton] at hj
      have hPosition : j = (posting docs word).length := by omega
      rw [hFind, hPosition, Nat.sub_self] at hp
      cases hp
      have hInsert := insertPairs_new hP hDocs hFree I (mem_of_frequency hFind)
      rw [hPosition]
      exact hInsert

end Entries

theorem counters_countWords {docs : List WordMap} {words : WordMap} {client : SseClient}
    (h : ∀ word, client.counterOf word = .ofNat 32 (posting docs word).length) (word : Bytes) :
    (client.countWords words.keys).counterOf word = .ofNat 32 (posting (docs ++ [words]) word).length := by
  by_cases hMem : word ∈ words.keys
  · obtain ⟨f, hf, rfl⟩ := List.mem_map.mp hMem
    have hCounter : (client.countWords words.keys).counterOf f.1 = client.counterOf f.1 + 1 := by
      simp only [counterOf, countWords, if_pos hMem, Option.getD_some]
    rw [hCounter, h, posting_concat_of_mem hf, List.length_append, List.length_singleton, BitVec.ofNat_add]
    rfl
  · have hCounter : (client.countWords words.keys).counterOf word = client.counterOf word := by
      simp only [counterOf, countWords, if_neg hMem]
    rw [hCounter, h, posting_concat, frequency_eq_none_iff.mpr hMem, Option.map_none, Option.toList_none,
      List.append_nil]

theorem add_indexed {P : Platform} (hP : P.Documented) {docs : List WordMap} {words : WordMap} {s : System}
    (h : Indexed P docs s) (hDocs : docs.length + 1 < 2 ^ 31) (hFree : CollisionFree P (docs ++ [words])) :
    Indexed P (docs ++ [words]) ⟨{ s.client.countWords words.keys with nDocs := s.client.nDocs + 1 }, s.enclave,
      .opened { s.link.storage with I := insertPairs s.link.storage.I (newPairs P docs words) }⟩ where
  nDocs := by
    rw [List.length_append, List.length_singleton, BitVec.ofNat_add, ← h.nDocs]
    rfl
  counters := counters_countWords h.counters
  link := rfl
  entries _ _ _ hp := insertPairs_newPairs hP hDocs hFree h.entries hp
  scratch := h.scratch

end Bisen.Session
