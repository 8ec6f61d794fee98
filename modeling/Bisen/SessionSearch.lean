import Bisen.Session

/-! # A search in a session

Over an index that agrees with the client's counters, fetching fills every posting list of the
query exactly, as long as the number of labels is an `int`; with more labels nothing is
requested. What evaluation then does is a matter of the query's shape alone.
-/
namespace Bisen.SessionSearch
open Wire Socket SseClient SseIee SseServer VecToken QueryMessage Retrieval HonestRetrieval PostingLists Session
set_option autoImplicit false

/-- The posting list of a word, as the enclave holds it. -/
def listOf (docs : List WordMap) (word : Bytes) : VecInt :=
  ⟨(posting docs word).map fun p => .ofNat 32 p.1, (posting docs word).length, (posting docs word).length⟩

def fetchedTkn (P : Platform) (docs : List WordMap) (client : SseClient) : Postfix.Token Bytes → IeeToken
  | .operand word => { wordTkn (client.counterOf word) (kW P word) with
      docs := listOf docs word
      docFrequencies := ⟨(posting docs word).map Prod.snd, (posting docs word).length, 0⟩ }
  | t => ieeTkn P client t

def entryAt (P : Platform) (docs : List WordMap) (query : List (Postfix.Token Bytes))
    (req : LabelRequest) : Bytes :=
  match query[req.tkn]? with
  | some (.operand word) => entryFor P word req.counterVal ((posting docs word).getD req.counterVal (0, 0))
  | _ => []

theorem ieeTkn_type_eq_word {P : Platform} {client : SseClient} {t : Postfix.Token Bytes}
    (h : (ieeTkn P client t).type = wordToken) : ∃ word, t = .operand word := by
  cases t with
  | operand word => exact ⟨word, rfl⟩
  | neg => exact absurd h (show ¬ notToken = wordToken by decide)
  | conj => exact absurd h (show ¬ andToken = wordToken by decide)
  | disj => exact absurd h (show ¬ orToken = wordToken by decide)

theorem wordCounters_eq {P : Platform} {client : SseClient} {query : List (Postfix.Token Bytes)} {v : VecToken}
    (hElems : v.elems = query.map (ieeTkn P client)) :
    wordCounters v = (wordsOf query).map fun word => (client.counterOf word).toNat := by
  rw [wordCounters, hElems]
  clear hElems
  induction query with
  | nil => rfl
  | cons t query ih =>
    cases t with
    | operand word =>
      rw [List.map_cons, List.filter_cons_of_pos (by rfl), List.map_cons, ih]
      rfl
    | neg => exact ih
    | conj => exact ih
    | disj => exact ih

theorem length_visited_eq {P : Platform} {client : SseClient} {query : List (Postfix.Token Bytes)}
    {v : VecToken}
    (hElems : v.elems = query.map (ieeTkn P client)) : (visited v).length = labelCount client query := by
  rw [length_visited, wordCounters_eq hElems]
  rfl

section Fetch
variable {P : Platform} (hP : P.Documented) {docs : List WordMap} {s : System} (h : Indexed P docs s)
  (hDocs : docs.length < 2 ^ 31) (hNul : ∀ words, words ∈ docs → ∀ word, word ∈ words.keys → NulFree word)
  {query : List (Postfix.Token Bytes)} {v : VecToken} (hElems : v.elems = query.map (ieeTkn P s.client))

include h hDocs in
theorem toNat_counterOf (word : Bytes) : (s.client.counterOf word).toNat = (posting docs word).length := by
  have hLe := length_posting_le docs word
  rw [h.counters, BitVec.toNat_ofNat, Nat.mod_eq_of_lt (by omega)]

include hNul in
theorem nulFree_of_posting {word : Bytes} (hWord : 0 < (posting docs word).length) : NulFree word := by
  obtain ⟨words, hMem, hKey⟩ := mem_indexedWords_of_posting hWord
  exact hNul words hMem word hKey

include h hDocs hElems in
theorem requested {req : LabelRequest} (hReq : req ∈ visited v) :
    ∃ word, query[req.tkn]? = some (.operand word) ∧ req.counterVal < (posting docs word).length ∧
      tokenAt v req.tkn = wordTkn (s.client.counterOf word) (kW P word) := by
  obtain ⟨t, hGet, hType, hCounter⟩ := mem_visited.mp hReq
  have hAt := tokenAt_eq hGet
  rw [hElems, List.getElem?_map] at hGet
  obtain ⟨u, hToken, rfl⟩ := Option.map_eq_some_iff.mp hGet
  obtain ⟨word, rfl⟩ := ieeTkn_type_eq_word hType
  refine ⟨word, hToken, ?_, hAt⟩
  rw [← toNat_counterOf h hDocs]
  exact hCounter

include h hDocs hNul hElems in
theorem requestLabel_eq {req : LabelRequest} (hReq : req ∈ visited v) :
    ∃ word p, (posting docs word)[req.counterVal]? = some p ∧
      requestLabel P v req = labelFor P word req.counterVal ∧
      entryAt P docs query req = entryFor P word req.counterVal p := by
  obtain ⟨word, hGet, hCounter, hAt⟩ := requested h hDocs hElems hReq
  refine ⟨word, (posting docs word)[req.counterVal], List.getElem?_eq_getElem hCounter, ?_, ?_⟩
  · rw [requestLabel, hAt, labelFor, ← kW_eq_key P (nulFree_of_posting hNul (by omega))]
    rfl
  · simp only [entryAt, hGet]
    rw [List.getD_eq_getElem _ _ hCounter]

include hP h hDocs in
theorem filledTkn_eq {i : Nat} {word : Bytes} (hGet : query[i]? = some (.operand word)) :
    filledTkn (answersOf P (entryAt P docs query)) i (s.client.counterOf word) (kW P word) =
      fetchedTkn P docs s.client (.operand word) := by
  have hCells : (List.range (s.client.counterOf word).toNat).map
      (fun j => answersOf P (entryAt P docs query) ⟨i, j⟩) =
        (posting docs word).map fun p => (p.2, .ofNat 32 p.1) := by
    rw [toNat_counterOf h hDocs]
    apply List.ext_getElem (by simp)
    intro j hj _
    rw [List.length_map, List.length_range] at hj
    rw [List.getElem_map, List.getElem_map, List.getElem_range]
    simp only [answersOf, entryAt, hGet, List.getD_eq_getElem _ _ hj, frequencyOf_entryFor hP,
      docIdOf_entryFor hP]
  unfold filledTkn fetchedTkn
  simp only [hCells]
  simp only [List.map_map, toNat_counterOf h hDocs]
  rfl

include hP h hDocs hElems in
theorem elems_fetched (hSound : v.Sound) {labels : List LabelRequest} (hPerm : labels.Perm (visited v)) :
    (setDocs (answersOf P (entryAt P docs query)) v labels).elems = query.map (fetchedTkn P docs s.client) := by
  rw [elems_setDocs hSound, hElems]
  apply List.ext_getElem?
  intro i
  rw [List.getElem?_mapIdx, List.getElem?_map, List.getElem?_map]
  cases hGet : query[i]? with
  | none => rfl
  | some t =>
    have hToken : v.elems[i]? = some (ieeTkn P s.client t) := by
      rw [hElems, List.getElem?_map, hGet, Option.map_some]
    rw [Option.map_some, Option.map_some, Option.map_some]
    by_cases hType : (ieeTkn P s.client t).type = wordToken
    · obtain ⟨word, rfl⟩ := ieeTkn_type_eq_word hType
      have hAll : ∀ j, j < (s.client.counterOf word).toNat → (⟨i, j⟩ : LabelRequest) ∈ labels :=
        fun j hj => hPerm.mem_iff.mpr (mem_visited.mpr ⟨_, hToken, hType, hj⟩)
      rw [ieeTkn, overwrite_word hAll, filledTkn_eq hP h hDocs hGet]
    · have hNone : ∀ j, (⟨i, j⟩ : LabelRequest) ∉ labels := by
        intro j hMem
        obtain ⟨u, hu, hWord, _⟩ := mem_visited.mp (hPerm.mem_iff.mp hMem)
        rw [hToken] at hu
        exact hType (Option.some.inj hu ▸ hWord)
      rw [overwrite_other hNone]
      cases t with
      | operand word => exact absurd rfl hType
      | neg => rfl
      | conj => rfl
      | disj => rfl

/-- The decoded query with every cell overwritten, in the order of the shuffled requests. -/
def fetchedQuery (P : Platform) (r : Nat → Nat) (docs : List WordMap) (query : List (Postfix.Token Bytes))
    (v : VecToken) : VecToken :=
  setDocs (answersOf P (entryAt P docs query)) v (Shuffle.shuffle r (visited v))

include hP h hDocs hElems in
theorem elems_fetchedQuery (hSound : v.Sound) (r : Nat → Nat) :
    (fetchedQuery P r docs query v).elems = query.map (fetchedTkn P docs s.client) :=
  elems_fetched hP h hDocs hElems hSound (Shuffle.shuffle_perm r (visited v))

include hP h hDocs hNul hElems in
theorem getDocsFromServer_filled (r : Nat → Nat) (enclave : Enclave) {storage : Storage}
    (hIndex : storage.I = s.link.storage.I) (hStarted : 0 < storage.nrSearches)
    (hCount : labelCount s.client query ≤ intMax) :
    ∃ out inn, Runs Link.peer (getDocsFromServer P r enclave v (labelCount s.client query)) (.opened storage)
      ({ enclave with labelsSize := max enclave.labelsSize (labelCount s.client query) },
        fetchedQuery P r docs query v) (.opened storage) out inn := by
  have hVisited := length_visited_eq hElems
  have hPerm := Shuffle.shuffle_perm r (visited v)
  have hMem : ∀ req, req ∈ Shuffle.shuffle r (visited v) → req ∈ visited v := fun req => hPerm.mem_iff.mp
  have hFill : fillLabels r (max enclave.labelsSize (labelCount s.client query)) v =
      .ok (Shuffle.shuffle r (visited v)) := fillLabels_ok r (by omega)
  have hFound : ∀ req, req ∈ Shuffle.shuffle r (visited v) →
      storage.I (requestLabel P v req) = some (entryAt P docs query req) := by
    intro req hReq
    obtain ⟨word, p, hGet, hLabel, hEntry⟩ := requestLabel_eq h hDocs hNul hElems (hMem req hReq)
    rw [hIndex, hLabel, hEntry]
    exact h.entries word _ p hGet
  have hWidth : ∀ req, req ∈ Shuffle.shuffle r (visited v) → (entryAt P docs query req).length = resLen := by
    intro req hReq
    obtain ⟨word, p, _, _, hEntry⟩ := requestLabel_eq h hDocs hNul hElems (hMem req hReq)
    rw [hEntry, length_entryFor hP]
    rfl
  have hVerified : ∀ req, req ∈ Shuffle.shuffle r (visited v) →
      Verified P (requestLabel P v req) (entryAt P docs query req) := by
    intro req hReq
    obtain ⟨word, p, _, hLabel, hEntry⟩ := requestLabel_eq h hDocs hNul hElems (hMem req hReq)
    rw [hLabel, hEntry]
    exact verified_entryFor hP word _ p
  obtain ⟨out, inn, hLoop⟩ := requestLoop_honest hStarted (requestLabel P v) (entryAt P docs query)
    (fun req => Tcrypto.length_hmacSha256 hP _ _) hFound hWidth hVerified rfl
    (show labelCount s.client query ≤ _ by rw [Shuffle.length_shuffle, hVisited])
    (show labelCount s.client query - 0 ≤ labelCount s.client query from le_refl _)
  have hAll : ((Shuffle.shuffle r (visited v)).drop 0).take (labelCount s.client query - 0) =
      Shuffle.shuffle r (visited v) := by
    rw [List.drop_zero, Nat.sub_zero, ← hVisited, ← Shuffle.length_shuffle r, List.take_length]
  rw [hAll] at hLoop
  refine ⟨out ++ [], inn ++ [], ?_⟩
  rw [getDocsFromServer]
  simp only [hFill, Program.lift_ok, Program.ret_bind]
  exact hLoop.bind rfl

include hP h hDocs hNul hElems in
theorem getDocsFromServer_honest (hSound : v.Sound) (r : Nat → Nat) (enclave : Enclave) {storage : Storage}
    (hIndex : storage.I = s.link.storage.I) (hStarted : 0 < storage.nrSearches)
    (hCount : labelCount s.client query ≤ intMax) :
    ∃ v' out inn, v'.elems = query.map (fetchedTkn P docs s.client) ∧
      Runs Link.peer (getDocsFromServer P r enclave v (labelCount s.client query)) (.opened storage)
        ({ enclave with labelsSize := max enclave.labelsSize (labelCount s.client query) }, v')
        (.opened storage) out inn := by
  obtain ⟨out, inn, hRun⟩ := getDocsFromServer_filled hP h hDocs hNul hElems r enclave hIndex hStarted hCount
  exact ⟨_, out, inn, elems_fetchedQuery hP h hDocs hElems hSound r, hRun⟩

end Fetch

/-! ## Evaluating what was fetched -/

def containing (docs : List WordMap) (word : Bytes) : Set (Fin docs.length) := {i | word ∈ docs[i].keys}

theorem listOf_denotes {docs : List WordMap} (hDocs : docs.length < 2 ^ 31) (word : Bytes) :
    VecInt.Denotes docs.length (listOf docs word) (containing docs word) := by
  have hElems : (listOf docs word).elems = (posting docs word).map fun p => .ofNat 32 p.1 := by
    rw [VecInt.elems, listOf]
    exact List.take_of_length_le (by rw [List.length_map])
  have hToNat : ∀ p, p ∈ posting docs word → (BitVec.ofNat 32 p.1).toNat = p.1 := by
    intro p hp
    have hLt := lt_of_mem_posting hp
    rw [BitVec.toNat_ofNat, Nat.mod_eq_of_lt (by omega)]
  refine ⟨⟨by simp [listOf], by simp [listOf]⟩, ?_, ?_, ?_⟩
  · rw [hElems]
    refine List.Nodup.map_on ?_ (List.Nodup.of_map Prod.fst (nodup_posting docs word))
    intro p hp q hq hEq
    have hId := congrArg BitVec.toNat hEq
    rw [hToNat p hp, hToNat q hq] at hId
    exact List.inj_on_of_nodup_map (nodup_posting docs word) hp hq hId
  · intro x hx
    rw [hElems] at hx
    obtain ⟨p, hp, rfl⟩ := List.mem_map.mp hx
    rw [hToNat p hp]
    exact lt_of_mem_posting hp
  · intro i
    rw [hElems, List.mem_map]
    constructor
    · rintro ⟨p, hp, hEq⟩
      have hId := congrArg BitVec.toNat hEq
      rw [hToNat p hp, BitVec.toNat_ofNat, Nat.mod_eq_of_lt (by omega)] at hId
      obtain ⟨words, hGet, hFind⟩ := mem_posting.mp (show (p.1, p.2) ∈ posting docs word from hp)
      obtain ⟨_, hWords⟩ := List.getElem?_eq_some_iff.mp hGet
      have hKey : word ∈ words.keys := List.mem_map_of_mem (mem_of_frequency hFind)
      rw [← hWords] at hKey
      simpa [containing, hId] using hKey
    · intro hMem
      obtain ⟨f, hf, rfl⟩ := List.mem_map.mp hMem
      exact ⟨(i, f.2), mem_posting.mpr ⟨docs[i], by simp, frequency_of_mem hf⟩, rfl⟩

theorem abstractToken_fetchedTkn (P : Platform) (docs : List WordMap) (client : SseClient)
    (t : Postfix.Token Bytes) :
    QueryEvaluator.abstractToken (fetchedTkn P docs client t) = t.map (listOf docs) := by
  cases t with
  | operand word => rfl
  | neg => rfl
  | conj => rfl
  | disj => rfl

section Evaluate
variable {P : Platform} {docs : List WordMap} {client : SseClient} (hDocs : docs.length < 2 ^ 31)
  {query : List (Postfix.Token Bytes)} {v : VecToken} (hElems : v.elems = query.map (fetchedTkn P docs client))
  {count : List UInt8} (hCount : docs.length ≤ count.length)

include hElems in
theorem map_abstractToken :
    v.elems.map QueryEvaluator.abstractToken = query.map (Postfix.Token.map (listOf docs)) := by
  rw [hElems, List.map_map]
  exact List.map_congr_left fun t _ => abstractToken_fetchedTkn P docs client t

include hDocs

theorem docSet_listOf (word : Bytes) :
    QueryEvaluator.docSet docs.length (listOf docs word) = containing docs word :=
  (QueryEvaluator.denotes_iff.mp (listOf_denotes hDocs word)).2.symm

include hElems

theorem operands_valid {tkn : IeeToken} (hTkn : tkn ∈ v.elems) {list : VecInt}
    (hOperand : QueryEvaluator.abstractToken tkn = .operand list) : QueryEvaluator.Valid docs.length list := by
  rw [hElems] at hTkn
  obtain ⟨t, _, rfl⟩ := List.mem_map.mp hTkn
  rw [abstractToken_fetchedTkn] at hOperand
  cases t with
  | operand word =>
    cases hOperand
    exact (QueryEvaluator.denotes_iff.mp (listOf_denotes hDocs word)).1
  | neg => cases hOperand
  | conj => cases hOperand
  | disj => cases hOperand

include hCount

theorem evaluate_postorder {e : Postfix.Expr Bytes} (he : e.postorder = query) :
    ∃ list c, QueryEvaluator.evaluate v (.ofNat 32 docs.length) count = .ok (list, c) ∧
      VecInt.Denotes docs.length list (e.eval (containing docs)) ∧ c.length = count.length := by
  have hPostorder : (e.map (listOf docs)).postorder = v.elems.map QueryEvaluator.abstractToken := by
    rw [Postfix.Expr.postorder_map, he, map_abstractToken hElems]
  have hSets : QueryEvaluator.docSet docs.length ∘ listOf docs = containing docs := funext (docSet_listOf hDocs)
  have hEval := QueryEvaluator.evaluate_wellFormed (show docs.length ≤ intMax by unfold intMax; omega)
    (fun tkn hTkn list => operands_valid hDocs hElems hTkn) hCount hPostorder
  rwa [Postfix.Expr.eval_map, hSets] at hEval

theorem evaluate_exits (hMalformed : ¬ Postfix.WellFormed query) :
    ∃ e, QueryEvaluator.evaluate v (.ofNat 32 docs.length) count = .error e ∧ e.ofEvaluate = true := by
  refine QueryEvaluator.evaluate_malformed (show docs.length ≤ intMax by unfold intMax; omega)
    (fun tkn hTkn list => operands_valid hDocs hElems hTkn) hCount ?_
  rwa [map_abstractToken hElems, Postfix.wellFormed_map]

end Evaluate

/-! ## The whole search -/

def started (storage : Storage) : Storage := { storage with nrSearches := storage.nrSearches + 1 }

theorem push_startSearch (storage : Storage) :
    Link.peer.push (.opened storage) [opStartSearch] = .opened (started storage) := by
  rw [Link.peer_push]
  exact Link.push_whole (show decodeRequest ([] ++ [opStartSearch]) = some (.startSearch, []) from rfl) rfl

theorem growAuxBool_length (enclave : Enclave) (h : enclave.auxBool.length = enclave.lastNdocs)
    (nDocs : BitVec 32) :
    (growAuxBool enclave nDocs).auxBool.length = (growAuxBool enclave nDocs).lastNdocs ∧
      nDocs.toNat ≤ (growAuxBool enclave nDocs).auxBool.length := by
  unfold growAuxBool
  split
  · simp only [List.length_append, List.length_replicate]
    omega
  · exact ⟨h, by omega⟩

theorem grown_scratch {P : Platform} {docs : List WordMap} {s : System} (h : Indexed P docs s)
    (hDocs : docs.length < 2 ^ 31) {enclave : Enclave} (hAux : enclave.auxBool = s.enclave.auxBool)
    (hLast : enclave.lastNdocs = s.enclave.lastNdocs) :
    (growAuxBool enclave s.client.nDocs).auxBool.length = (growAuxBool enclave s.client.nDocs).lastNdocs ∧
      docs.length ≤ (growAuxBool enclave s.client.nDocs).auxBool.length := by
  obtain ⟨hLength, hRoom⟩ := growAuxBool_length enclave (by rw [hAux, hLast, h.scratch]) s.client.nDocs
  rw [h.nDocs, BitVec.toNat_ofNat, Nat.mod_eq_of_lt (by omega), ← h.nDocs] at hRoom
  exact ⟨hLength, hRoom⟩

section Retrieve
variable {P : Platform} (hP : P.Documented) {docs : List WordMap} {s : System} (h : Indexed P docs s)
  (hDocs : docs.length < 2 ^ 31) (hNul : ∀ words, words ∈ docs → ∀ word, word ∈ words.keys → NulFree word)
  {query : List (Postfix.Token Bytes)} (hMax : dataSize (query.map clientTkn) ≤ intMax) (r : Nat → Nat)
include hP h hDocs hMax

/-- What is left of `retrieve` once the posting lists are there. -/
def finish (enclave : Enclave) (v : VecToken) (nDocs : BitVec 32) : Enclaved (Enclave × Evaluated) := do
  let enclave := growAuxBool enclave nDocs
  let (responseDocs, auxBool) ← Program.lift (QueryEvaluator.evaluate v nDocs enclave.auxBool)
  pure ({ enclave with auxBool := auxBool }, ⟨v, nDocs, responseDocs⟩)

include hNul in
theorem retrieve_filled {d : Decoded} (hDecode : decode (s.client.searchMsg P query).tail = .ok d)
    (hCount : labelCount s.client query ≤ intMax) :
    (fetchedQuery P r docs query d.query).elems = query.map (fetchedTkn P docs s.client) ∧
    ∃ enclave out inn, enclave.auxBool = s.enclave.auxBool ∧ enclave.lastNdocs = s.enclave.lastNdocs ∧
      ∃ fetch : Enclaved (Enclave × VecToken),
        retrieve P r s.enclave (s.client.searchMsg P query).tail =
          (fetch >>= fun p => finish p.1 p.2 s.client.nDocs) ∧
        Runs Link.peer fetch s.link (enclave, fetchedQuery P r docs query d.query)
          (.opened (started s.link.storage)) out inn := by
  obtain ⟨_, hDecode', hSound, hElems, hNDocs, hLabels, _⟩ := decode_searchMsg hP s.client query hMax
  cases hDecode.symm.trans hDecode'
  rw [Nat.mod_eq_of_lt (by unfold intMax at hCount; omega)] at hLabels
  have hIndex : (started s.link.storage).I = s.link.storage.I := rfl
  obtain ⟨out, inn, hRun⟩ := getDocsFromServer_filled hP h hDocs hNul hElems r
    { s.enclave with nrSearches := s.enclave.nrSearches + 1 } hIndex (Nat.succ_pos _) hCount
  refine ⟨elems_fetchedQuery hP h hDocs hElems hSound r, _, [opStartSearch] :: out, inn, ?_, ?_, .send [opStartSearch]
    (getDocsFromServer P r { s.enclave with nrSearches := s.enclave.nrSearches + 1 } d.query
      (labelCount s.client query)), ?_, Runs.send ?_ hRun⟩
  · rfl
  · rfl
  · rw [retrieve]
    simp only [Program.put_bind, hDecode, Program.lift_ok, Program.ret_bind, Program.send_bind, hLabels, hNDocs]
    rfl
  · rw [h.link]
    exact push_startSearch _

include hNul in
theorem retrieve_fetched (hCount : labelCount s.client query ≤ intMax) :
    ∃ v enclave out inn, v.elems = query.map (fetchedTkn P docs s.client) ∧
      enclave.auxBool = s.enclave.auxBool ∧ enclave.lastNdocs = s.enclave.lastNdocs ∧
      ∃ fetch : Enclaved (Enclave × VecToken),
        retrieve P r s.enclave (s.client.searchMsg P query).tail =
          (fetch >>= fun p => finish p.1 p.2 s.client.nDocs) ∧
        Runs Link.peer fetch s.link (enclave, v) (.opened (started s.link.storage)) out inn := by
  obtain ⟨d, hDecode, _⟩ := decode_searchMsg hP s.client query hMax
  obtain ⟨hElems, enclave, out, inn, hFetch⟩ := retrieve_filled hP h hDocs hNul hMax r hDecode hCount
  exact ⟨_, enclave, out, inn, hElems, hFetch⟩

include hNul in
theorem retrieve_found (hCount : labelCount s.client query ≤ intMax) {e : Postfix.Expr Bytes}
    (he : e.postorder = query) :
    ∃ enclave ev out inn, Runs Link.peer (retrieve P r s.enclave (s.client.searchMsg P query).tail) s.link
        (enclave, ev) (.opened (started s.link.storage)) out inn ∧
      ev.nDocs = s.client.nDocs ∧ ev.query.elems = query.map (fetchedTkn P docs s.client) ∧
      VecInt.Denotes docs.length ev.responseDocs (e.eval (containing docs)) ∧
      enclave.auxBool.length = enclave.lastNdocs := by
  obtain ⟨v, enclave, out, inn, hElems, hAux, hLast, fetch, hRetrieve, hFetch⟩ :=
    retrieve_fetched hP h hDocs hNul hMax r hCount
  obtain ⟨hScratch, hRoom⟩ := grown_scratch h hDocs hAux hLast
  obtain ⟨list, count, hEval, hDenotes, hLength⟩ := evaluate_postorder hDocs hElems hRoom he
  rw [← h.nDocs] at hEval
  refine ⟨{ growAuxBool enclave s.client.nDocs with auxBool := count }, ⟨v, s.client.nDocs, list⟩, out ++ [],
    inn ++ [], ?_, rfl, hElems, hDenotes, hLength.trans hScratch⟩
  rw [hRetrieve]
  apply hFetch.bind
  simp only [finish, hEval, Program.lift_ok, Program.ret_bind]
  rfl

include hNul in
theorem retrieve_malformed (hCount : labelCount s.client query ≤ intMax)
    (hMalformed : ¬ Postfix.WellFormed query) :
    ∃ e, ((retrieve P r s.enclave (s.client.searchMsg P query).tail).run Link.peer s.link).result = .error e ∧
      ((retrieve P r s.enclave (s.client.searchMsg P query).tail).run Link.peer s.link).state =
        .opened (started s.link.storage) ∧ e.ofEvaluate = true := by
  obtain ⟨v, enclave, out, inn, hElems, hAux, hLast, fetch, hRetrieve, hFetch⟩ :=
    retrieve_fetched hP h hDocs hNul hMax r hCount
  obtain ⟨hScratch, hRoom⟩ := grown_scratch h hDocs hAux hLast
  obtain ⟨e, hEval, hExit⟩ := evaluate_exits hDocs hElems hRoom hMalformed
  rw [← h.nDocs] at hEval
  have hFinish : finish enclave v s.client.nDocs = .fail e := by
    simp only [finish, hEval, Program.lift_error, Program.fail_bind]
  obtain ⟨hResult, hState⟩ := hFetch.run_bind fun p => finish p.1 p.2 s.client.nDocs
  rw [hFinish] at hResult hState
  rw [hRetrieve]
  exact ⟨e, hResult, hState, hExit⟩

omit hDocs in
theorem retrieve_overflows (hCount : intMax < labelCount s.client query) :
    ∃ e, ((retrieve P r s.enclave (s.client.searchMsg P query).tail).run Link.peer s.link).result = .error e ∧
      ((retrieve P r s.enclave (s.client.searchMsg P query).tail).run Link.peer s.link).state =
        .opened (started s.link.storage) ∧ (e = .outOfBounds ∨ e = .signedOverflow) := by
  obtain ⟨d, hDecode, _, hElems, _, _, _⟩ := decode_searchMsg hP s.client query hMax
  have hVisited := length_visited_eq hElems
  obtain ⟨e, hFill, hKind⟩ := fillLabels_error r
    (show min (max s.enclave.labelsSize d.countLabels) intMax < (visited d.query).length by omega)
  have hRetrieve : retrieve P r s.enclave (s.client.searchMsg P query).tail =
    .send [opStartSearch] (.fail e) := by
    rw [retrieve]
    simp only [Program.put_bind, hDecode, Program.lift_ok, Program.ret_bind, getDocsFromServer, hFill,
      Program.lift_error, Program.fail_bind]
  rw [hRetrieve, h.link]
  exact ⟨e, rfl, push_startSearch _, hKind⟩

end Retrieve
end Bisen.SessionSearch
