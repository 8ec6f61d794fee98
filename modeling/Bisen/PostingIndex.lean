import Bisen.ParsedQuery
import Bisen.Reference
import Bisen.SessionSearch

/-! # The index over whole sessions

Every state that a session reaches is indexed: setting up starts the invariant over any earlier
map, adding a document extends it, and searching leaves it alone. A search from such a state never
meets a missing or a foreign entry.
-/
namespace Bisen.PostingIndex
open Wire Socket SseClient SseIee SseServer VecToken QueryMessage Retrieval PostingLists Session SessionSearch
set_option autoImplicit false

section Outcome
variable {P : Platform} (hP : P.Documented) (B : Build) (r : Nat → Nat) {docs : List WordMap} {s : System}
  (h : Indexed P docs s) (hDocs : docs.length < 2 ^ 31)
  (hNul : ∀ words, words ∈ docs → ∀ word, word ∈ words.keys → NulFree word)

theorem search_bind (enclave : Enclave) (inp : Bytes) :
    SseIee.search P B r enclave inp = retrieve P r enclave inp >>= fun p =>
      .ret (p.1, Response.respond B (B.reread p.2.query) p.2.nDocs p.2.responseDocs) := rfl

include hP in
theorem searchRpn_ok {client : SseClient} {query : List (Postfix.Token Bytes)} {b : Buffer}
    (hMsg : client.searchRpn P (query.map clientTkn) = .ok b) :
    dataSize (query.map clientTkn) ≤ intMax ∧ b =
    ⟨dataSize (query.map clientTkn), client.searchMsg P query⟩ := by
  rw [searchRpn_eq hP] at hMsg
  split at hMsg
  · cases hMsg
  · case isFalse hMax =>
    cases hMsg
    exact ⟨Nat.le_of_not_lt hMax, rfl⟩

include hP h hDocs hNul

theorem processMessage_outcome {query : List (Postfix.Token Bytes)}
    (hMax : dataSize (query.map clientTkn) ≤ intMax) :
    ((processMessage P B r s.enclave (s.client.searchMsg P query)).run Link.peer s.link).state =
        .opened (started s.link.storage) ∧
      ∀ e, ((processMessage P B r s.enclave (s.client.searchMsg P query)).run Link.peer s.link).result =
      .error e →
        e.ofEvaluate = true ∨ (intMax < labelCount s.client query ∧
        (e = .outOfBounds ∨ e = .signedOverflow)) := by
  rw [processMessage_searchMsg, search_bind]
  by_cases hCount : intMax < labelCount s.client query
  · obtain ⟨e, hResult, hState, hKind⟩ := retrieve_overflows hP h hMax r hCount
    obtain ⟨hResult', hState'⟩ := Program.run_bind_error hResult fun p =>
      .ret (p.1, Response.respond B (B.reread p.2.query) p.2.nDocs p.2.responseDocs)
    refine ⟨hState'.trans hState, fun e' he' => ?_⟩
    cases hResult'.symm.trans he'
    exact .inr ⟨hCount, hKind⟩
  by_cases hFormed : Postfix.WellFormed query
  · obtain ⟨expr, hExpr⟩ := hFormed
    obtain ⟨enclave, ev, out, inn, hRun, _⟩ :=
      retrieve_found hP h hDocs hNul hMax r (Nat.le_of_not_lt hCount) hExpr
    obtain ⟨hResult, hState⟩ := hRun.run_bind fun p =>
      .ret (p.1, Response.respond B (B.reread p.2.query) p.2.nDocs p.2.responseDocs)
    refine ⟨hState, fun e he => ?_⟩
    cases hResult.symm.trans he
  · obtain ⟨e, hResult, hState, hExit⟩ :=
      retrieve_malformed hP h hDocs hNul hMax r (Nat.le_of_not_lt hCount) hFormed
    obtain ⟨hResult', hState'⟩ := Program.run_bind_error hResult fun p =>
      .ret (p.1, Response.respond B (B.reread p.2.query) p.2.nDocs p.2.responseDocs)
    refine ⟨hState'.trans hState, fun e' he' => ?_⟩
    cases hResult'.symm.trans he'
    exact .inl hExit

omit B in
/-- Whether a search completes is a matter of the query and the client's counters. -/
theorem retrieve_completes_iff {query : List (Postfix.Token Bytes)}
    (hMax : dataSize (query.map clientTkn) ≤ intMax) :
    (∃ a link out inn, Runs Link.peer (retrieve P r s.enclave (s.client.searchMsg P query).tail) s.link a link
      out inn) ↔ labelCount s.client query ≤ intMax ∧ Postfix.WellFormed query := by
  constructor
  · rintro ⟨a, link, out, inn, hRun⟩
    have hCount : labelCount s.client query ≤ intMax := by
      by_contra hCount
      obtain ⟨e, hResult, _⟩ := retrieve_overflows hP h hMax r (Nat.lt_of_not_le hCount)
      cases hRun.result.symm.trans hResult
    refine ⟨hCount, ?_⟩
    by_contra hFormed
    obtain ⟨e, hResult, _⟩ := retrieve_malformed hP h hDocs hNul hMax r hCount hFormed
    cases hRun.result.symm.trans hResult
  · rintro ⟨hCount, expr, hExpr⟩
    obtain ⟨enclave, ev, out, inn, hRun, _⟩ := retrieve_found hP h hDocs hNul hMax r hCount hExpr
    exact ⟨_, _, out, inn, hRun⟩

theorem search_indexed {query : List (Postfix.Token Bytes)} (hMax : dataSize (query.map clientTkn) ≤ intMax)
    {enclave : Enclave} {reply : Bytes} {link : Link} {out inn : List Bytes}
    (hRun : Runs Link.peer (processMessage P B r s.enclave (s.client.searchMsg P query)) s.link (enclave, reply)
      link out inn) : Indexed P docs ⟨s.client, enclave, link⟩ := by
  rw [processMessage_searchMsg, search_bind] at hRun
  obtain ⟨⟨enclave₁, ev⟩, link₁, out₁, inn₁, _, _, hRetrieve, hRet, _, _⟩ := runs_bind_iff.mp hRun
  obtain ⟨hPair, rfl, _, _⟩ := runs_ret_iff.mp hRet
  cases hPair
  obtain ⟨hCount, expr, hExpr⟩ := (retrieve_completes_iff hP r h hDocs hNul hMax).mp ⟨_, _, _, _, hRetrieve⟩
  obtain ⟨enclave', ev', out', inn', hFound, _, _, _, hScratch⟩ :=
    retrieve_found hP h hDocs hNul hMax r hCount hExpr
  obtain ⟨hPair, rfl, _, _⟩ := hRetrieve.unique hFound
  cases hPair
  exact ⟨h.nDocs, h.counters, rfl, h.entries, hScratch⟩

end Outcome

section Sessions
variable {P : Platform} (hP : P.Documented) (B : Build) (r : Nat → Nat) (storage₀ : Storage)
  (enclave₀ : Enclave)

include hP

theorem reached_indexed {docs : List WordMap} {s : System} (hDocs : docs.length < 2 ^ 31)
    (hNul : ∀ words, words ∈ docs → ∀ word, word ∈ words.keys → NulFree word) (hFree : CollisionFree P docs)
    (h : Reached P B r storage₀ enclave₀ docs s) : Indexed P docs s := by
  induction h with
  | setup hRun =>
    obtain ⟨hPair, rfl, _, _⟩ := hRun.unique (setup_runs P B r storage₀ enclave₀)
    cases hPair
    exact setup_indexed P storage₀ enclave₀
  | @add docs s words client msg enclave reply link out inn _ hMsg hRun ih =>
    rw [List.length_append, List.length_singleton] at hDocs
    have hOld := ih (by omega) (fun d hd => hNul d (List.mem_append_left _ hd)) hFree.prefix
    have hNew : ∀ word, word ∈ words.keys → NulFree word :=
      hNul words (List.mem_append_right _ (List.mem_singleton_self words))
    rw [addNewDocument_indexed hOld hDocs] at hMsg
    cases hMsg
    obtain ⟨_, hHonest⟩ := add_runs hP hOld hNew B r
    obtain ⟨hPair, rfl, _, _⟩ := hRun.unique hHonest
    cases hPair
    exact add_indexed hP hOld hDocs hFree
  | search _ hMsg hRun ih =>
    have hOld := ih hDocs hNul hFree
    obtain ⟨query, _, hRpn⟩ := ParsedQuery.search_eq hMsg
    obtain ⟨hMax, rfl⟩ := searchRpn_ok hP hRpn
    exact search_indexed hP B r hOld hDocs hNul hMax hRun

theorem exists_reached {docs : List WordMap} (hDocs : docs.length < 2 ^ 31)
    (hNul : ∀ words, words ∈ docs → ∀ word, word ∈ words.keys → NulFree word) (hFree : CollisionFree P docs) :
    ∃ s, Reached P B r storage₀ enclave₀ docs s := by
  induction docs using List.reverseRecOn with
  | nil => exact ⟨_, .setup (setup_runs P B r storage₀ enclave₀)⟩
  | append_singleton docs words ih =>
    rw [List.length_append, List.length_singleton] at hDocs
    have hNulOld : ∀ d, d ∈ docs → ∀ word, word ∈ d.keys → NulFree word :=
      fun d hd => hNul d (List.mem_append_left _ hd)
    obtain ⟨s, hs⟩ := ih (by omega) hNulOld hFree.prefix
    have hIndexed := reached_indexed hP B r storage₀ enclave₀ (by omega) hNulOld hFree.prefix hs
    obtain ⟨_, hRun⟩ := add_runs hP hIndexed
      (hNul words (List.mem_append_right _ (List.mem_singleton_self words))) B r
    exact ⟨_, .add hs (addNewDocument_indexed hIndexed hDocs) hRun⟩

end Sessions

/-! ## What a search from such a state can rely on -/

structure SafeSearch (P : Platform) (B : Build) (r : Nat → Nat) (s : System) (msg : Bytes) : Prop where
  served : ((processMessage P B r s.enclave msg).run Link.peer s.link).state.stopped = none
  found : ((processMessage P B r s.enclave msg).run Link.peer s.link).result ≠ .error .labelNotFound
  verified : ((processMessage P B r s.enclave msg).run Link.peer s.link).result ≠
    .error .labelVerificationDoesntMatch
  fetched : ∀ d enclave v link out inn, decode msg.tail = .ok d →
    Runs Link.peer
      (getDocsFromServer P r { s.enclave with nrSearches := s.enclave.nrSearches + 1 } d.query d.countLabels)
      (.opened (started s.link.storage)) (enclave, v) link out inn →
    d.nDocs = s.client.nDocs ∧
      (∀ t, t ∈ v.elems → t.type = wordToken →
        t.docs.elems.Nodup ∧ ∀ id, id ∈ t.docs.elems → id.toNat < d.nDocs.toNat) ∧
      (growAuxBool enclave d.nDocs).auxBool.length = (growAuxBool enclave d.nDocs).lastNdocs ∧
      QueryEvaluator.evaluate v d.nDocs (growAuxBool enclave d.nDocs).auxBool ≠ .error .outOfBounds

section Safe
variable {P : Platform} (hP : P.Documented) (B : Build) (r : Nat → Nat) {docs : List WordMap} {s : System}
  (h : Indexed P docs s) (hDocs : docs.length < 2 ^ 31)
  (hNul : ∀ words, words ∈ docs → ∀ word, word ∈ words.keys → NulFree word)
  {query : List (Postfix.Token Bytes)}

include h hDocs in
theorem toNat_nDocs : s.client.nDocs.toNat = docs.length := by
  rw [h.nDocs, BitVec.toNat_ofNat, Nat.mod_eq_of_lt (by omega)]

include hDocs in
theorem fetchedTkn_valid {client : SseClient} {t : IeeToken} (ht : t ∈ query.map (fetchedTkn P docs client))
    (hType : t.type = wordToken) : t.docs.elems.Nodup ∧ ∀ id, id ∈ t.docs.elems → id.toNat < docs.length := by
  obtain ⟨u, _, rfl⟩ := List.mem_map.mp ht
  cases u with
  | operand word =>
    have hDenotes := listOf_denotes hDocs word
    exact ⟨hDenotes.nodup, hDenotes.lt⟩
  | neg => exact absurd hType (show ¬ notToken = wordToken by decide)
  | conj => exact absurd hType (show ¬ andToken = wordToken by decide)
  | disj => exact absurd hType (show ¬ orToken = wordToken by decide)

include hDocs in
theorem evaluate_inBounds {client : SseClient} {v : VecToken} {count : List UInt8}
    (hElems : v.elems = query.map (fetchedTkn P docs client)) (hCount : docs.length ≤ count.length) :
    QueryEvaluator.evaluate v (.ofNat 32 docs.length) count ≠ .error .outOfBounds := by
  intro hError
  by_cases hFormed : Postfix.WellFormed query
  · obtain ⟨e, he⟩ := hFormed
    obtain ⟨list, c, hEval, _⟩ := evaluate_postorder hDocs hElems hCount he
    cases hEval.symm.trans hError
  · obtain ⟨e, hEval, hExit⟩ := evaluate_exits hDocs hElems hCount hFormed
    cases hEval.symm.trans hError
    cases hExit

include hP h hDocs hNul

theorem fetched_lists {d : Decoded} (hMax : dataSize (query.map clientTkn) ≤ intMax)
    (hDecode : decode (s.client.searchMsg P query).tail = .ok d) {enclave enclave' : Enclave} {v : VecToken}
    {link : Link} {out inn : List Bytes}
    (hRun : Runs Link.peer (getDocsFromServer P r enclave d.query d.countLabels)
      (.opened (started s.link.storage)) (enclave', v) link out inn) :
    d.nDocs = s.client.nDocs ∧ v.elems = query.map (fetchedTkn P docs s.client) ∧
      enclave'.auxBool = enclave.auxBool ∧ enclave'.lastNdocs = enclave.lastNdocs := by
  obtain ⟨d', hDecode', hSound, hElems, hNDocs, hLabels, _⟩ := decode_searchMsg hP s.client query hMax
  cases hDecode.symm.trans hDecode'
  have hRoom := (getDocsFromServer_runs P hRun).room
  have hCount : labelCount s.client query ≤ intMax := by
    rw [length_visited_eq hElems] at hRoom
    omega
  rw [hLabels, Nat.mod_eq_of_lt (by unfold intMax at hCount; omega)] at hRun
  have hIndex : (started s.link.storage).I = s.link.storage.I := rfl
  obtain ⟨v', out', inn', hFetched, hHonest⟩ := getDocsFromServer_honest hP h hDocs hNul hElems hSound r enclave
    hIndex (Nat.succ_pos _) hCount
  obtain ⟨hPair, _, _, _⟩ := hRun.unique hHonest
  cases hPair
  exact ⟨hNDocs, hFetched, rfl, rfl⟩

theorem safeSearch (hMax : dataSize (query.map clientTkn) ≤ intMax) :
    SafeSearch P B r s (s.client.searchMsg P query) := by
  obtain ⟨hState, hError⟩ := processMessage_outcome hP B r h hDocs hNul hMax
  refine ⟨by rw [hState]; rfl, fun hFound => ?_, fun hVerified => ?_, ?_⟩
  · obtain hExit | ⟨_, hKind | hKind⟩ := hError _ hFound
    · cases hExit
    · cases hKind
    · cases hKind
  · obtain hExit | ⟨_, hKind | hKind⟩ := hError _ hVerified
    · cases hExit
    · cases hKind
    · cases hKind
  · intro d enclave v link out inn hDecode hRun
    obtain ⟨hNDocs, hElems, hAux, hLast⟩ := fetched_lists hP r h hDocs hNul hMax hDecode hRun
    have hScratch := growAuxBool_length enclave (by rw [hAux, hLast]; exact h.scratch) d.nDocs
    have hToNat : d.nDocs.toNat = docs.length := by rw [hNDocs, toNat_nDocs h hDocs]
    refine ⟨hNDocs, fun t ht hType => ?_, hScratch.1, ?_⟩
    · rw [hToNat]
      exact fetchedTkn_valid hDocs (hElems ▸ ht) hType
    · have hBounds := evaluate_inBounds hDocs hElems (hToNat ▸ hScratch.2)
      rwa [← h.nDocs, ← hNDocs] at hBounds

end Safe

/-- In every state of every session the three parties agree on the posting lists, and no search
from there can miss an entry, reject one, or index past the scratch buffer. -/
theorem reached_postings {P : Platform} (hP : P.Documented) (B : Build) (r : Nat → Nat) (storage₀ : Storage)
    (enclave₀ : Enclave) {docs : List WordMap} {s : System} (hDocs : docs.length < 2 ^ 31)
    (hNul : ∀ words, words ∈ docs → ∀ word, word ∈ words.keys → NulFree word) (hFree : CollisionFree P docs)
    (h : Reached P B r storage₀ enclave₀ docs s) :
    s.client.nDocs.toNat = docs.length ∧
      (∀ word, (s.client.counterOf word).toNat = docs.countP fun words => word ∈ words.keys) ∧
      (∀ word j, j < (s.client.counterOf word).toNat → ∃ id frequency,
        (posting docs word)[j]? = some (id, frequency) ∧
        s.link.storage.I (labelOf P (kW P word) (.ofNat 32 j)) =
          some (Tcrypto.encrypt P (unencData (labelOf P (kW P word) (.ofNat 32 j)) frequency (.ofNat 32 id))
            zeroKey zeroCtr)) ∧
      ∀ stem query b, s.client.search P stem query = .ok b → SafeSearch P B r s b.written := by
  have hIndexed := reached_indexed hP B r storage₀ enclave₀ hDocs hNul hFree h
  refine ⟨toNat_nDocs hIndexed hDocs, fun word => ?_, fun word j hj => ?_, fun stem query b hMsg => ?_⟩
  · rw [toNat_counterOf hIndexed hDocs, length_posting]
  · rw [toNat_counterOf hIndexed hDocs] at hj
    have hGet : (posting docs word)[j]? = some (posting docs word)[j] := List.getElem?_eq_getElem hj
    refine ⟨_, _, hGet, ?_⟩
    rw [kW_eq_key P (nulFree_of_posting hNul (by omega))]
    exact hIndexed.entries word j _ hGet
  · obtain ⟨tokens, _, hRpn⟩ := ParsedQuery.search_eq hMsg
    obtain ⟨hMax, rfl⟩ := searchRpn_ok hP hRpn
    exact safeSearch hP B r hIndexed hDocs hNul hMax

def note (word : Bytes) (frequency : BitVec 32) : WordMap := ⟨[(word, frequency)], by simp⟩

theorem collisionFree_note (P : Platform) (word : Bytes) (frequency : BitVec 32) :
    CollisionFree P [note word frequency] := by
  have hWord : ∀ w, w ∈ indexedWords [note word frequency] → w = word := by
    rintro w ⟨d, hd, hw⟩
    rw [List.mem_singleton] at hd
    rw [hd] at hw
    exact List.mem_singleton.mp hw
  refine ⟨fun w hw w' hw' _ => (hWord w hw).trans (hWord w' hw').symm, ?_⟩
  rintro p ⟨w, hw, j, hj, rfl⟩ p' ⟨w', hw', j', hj', rfl⟩ _
  have hLe := length_posting_le [note word frequency] w
  have hLe' := length_posting_le [note word frequency] w'
  rw [List.length_singleton] at hLe hLe'
  obtain rfl : j = 0 := by omega
  obtain rfl : j' = 0 := by omega
  rw [hWord w hw, hWord w' hw']

/-- Two documents that share the word `a`, the second with `b` as well. -/
def twoNotes : List WordMap := [note [0x61] 2, ⟨[([0x61], 1), ([0x62], 3)], by decide⟩]

theorem nulFree_twoNotes : ∀ words, words ∈ twoNotes → ∀ word, word ∈ words.keys → NulFree word := by decide

theorem collisionFree_twoNotes : CollisionFree Reference.platform twoNotes :=
  collisionFree_of_heads [[0x61], [0x62]] [[150, 21], [99, 3]] [[114, 23], [49, 22], [211, 32]] (by decide)
    (by decide +kernel) (by decide) (by decide +kernel) (by decide)

theorem reached_postings_twoNotes :
    ∃ s, Reached Reference.platform (Reference.build true) fixedChoice ⟨fun _ => none, 0⟩ ⟨0, [], 0, 0⟩ twoNotes s ∧
      s.client.nDocs.toNat = 2 ∧ (s.client.counterOf [0x61]).toNat = 2 ∧ (s.client.counterOf [0x62]).toNat = 1 ∧
      s.link.storage.I (labelOf Reference.platform (kW Reference.platform [0x61]) 1) =
        some (Tcrypto.encrypt Reference.platform
          (unencData (labelOf Reference.platform (kW Reference.platform [0x61]) 1) 1 1) zeroKey zeroCtr) := by
  obtain ⟨s, hs⟩ := exists_reached Reference.documented (Reference.build true) fixedChoice ⟨fun _ => none, 0⟩
    ⟨0, [], 0, 0⟩ (by decide) nulFree_twoNotes collisionFree_twoNotes
  obtain ⟨hDocs, hCounters, hEntries, _⟩ := reached_postings Reference.documented (Reference.build true) fixedChoice
    ⟨fun _ => none, 0⟩ ⟨0, [], 0, 0⟩ (by decide) nulFree_twoNotes collisionFree_twoNotes hs
  have hA : (s.client.counterOf [0x61]).toNat = 2 := (hCounters [0x61]).trans (by decide)
  obtain ⟨id, frequency, hPosting, hEntry⟩ := hEntries [0x61] 1 (by omega)
  have hSecond : (posting twoNotes [0x61])[1]? = some (1, 1) := by decide
  obtain ⟨rfl, rfl⟩ := Prod.mk.inj (Option.some.inj (hPosting.symm.trans hSecond))
  exact ⟨s, hs, hDocs, hA, (hCounters [0x62]).trans (by decide), hEntry⟩

end Bisen.PostingIndex
