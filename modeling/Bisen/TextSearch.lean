import Bisen.Ranking
import Bisen.TextIndexing

/-! # Searching the texts of a directory

Over any earlier contents of the service, the program indexes its files and every query finds the texts it
describes: all of them, or ten of them where the build ranks them. The files must be read without a fault and the
messages and counts must fit an `int`; the last message stops the service.
-/
namespace Bisen.TextSearch
open Wire Socket SseClient SseIee QueryMessage WordBuffer PorterWords PrintedQuery PostingLists Session ClientProgram
open TextQuery Response PorterStemmer TextIndexing
set_option autoImplicit false

/-! ## Reading a reply -/

section Reply
variable {B : Build} (hB : B.Documented) (query : VecToken) (nDocs : BitVec 32) (responseDocs : VecInt)

/-- How many documents a reply holds at most. -/
def limit (B : Build) (found : Nat) : Nat := if B.bisenScoring then threshold else found

def idOf (p : Bytes) : BitVec 32 := readWord32 (p.take 4)

theorem idOf_record (d : BitVec 32) (rest : Bytes) : idOf (word32 d ++ rest) = d := by
  rw [idOf, List.take_left' (length_word32 d), readWord32_word32]

include hB in
/-- Whatever the scores are, every document has its record, and every record its document. -/
theorem results_records :
    (∀ p ∈ results B query nDocs responseDocs, p.length = pairLen B) ∧
      ((results B query nDocs responseDocs).map idOf).Perm responseDocs.elems := by
  rw [results, pairLen]
  split
  · case isTrue hScoring =>
    have hPerm := hB.qsort_perm _ (Bisen.Ranking.compare_consistent B)
      (calcTfidf B (calcIdf B query nDocs) responseDocs)
    constructor
    · intro p hp
      obtain ⟨d, _, rfl⟩ := List.mem_map.mp (hPerm.mem_iff.mp hp)
      rw [List.length_append, length_word32, hB.toBytes_length]
    · refine (hPerm.map idOf).trans (List.Perm.of_eq ?_)
      rw [calcTfidf, List.map_map]
      exact (List.map_congr_left fun d _ => idOf_record d _).trans (List.map_id _)
  · case isFalse hOff =>
    constructor
    · intro p hp
      obtain ⟨d, _, rfl⟩ := List.mem_map.mp hp
      exact length_word32 d
    · rw [List.map_map]
      refine List.Perm.of_eq ((List.map_congr_left fun d _ => ?_).trans (List.map_id _))
      rw [Function.comp_apply, ← List.append_nil (word32 d), idOf_record, id]

theorem length_respond_eq : (respond B query nDocs responseDocs).length =
    9 + limit B responseDocs.viSize * pairLen B := by
  have hCopied : ∀ buffer : Bytes, (buffer.take (min (limit B responseDocs.viSize) responseDocs.viSize *
      pairLen B)).length ≤ limit B responseDocs.viSize * pairLen B := by
    intro buffer
    rw [List.length_take]
    exact (Nat.min_le_left _ _).trans (Nat.mul_le_mul_right _ (Nat.min_le_left _ _))
  have hCopied := hCopied (if responseDocs.viSize ≠ 0 then (results B query nDocs responseDocs).flatten else [])
  rw [respond]
  simp only [← limit.eq_1, List.length_append, length_word64, List.length_singleton, List.length_drop,
    List.length_replicate]
  omega

variable {responseDocs} in
theorem length_respond_lt (hSize : responseDocs.viSize < 2 ^ 31) :
    (respond B query nDocs responseDocs).length < 2 ^ 64 := by
  have hPair : pairLen B ≤ 12 := by
    rw [pairLen]
    split
    · exact Nat.le_refl _
    · decide
  have hLimit : limit B responseDocs.viSize ≤ 2 ^ 31 := by
    rw [limit]
    split
    · decide
    · exact hSize.le
  rw [length_respond_eq]
  have hRecords := Nat.mul_le_mul hLimit hPair
  omega

/-- The client reads the count and the flag that were written, and the records behind them. -/
theorem readReply_records {elements : Nat} (hSmall : elements < 2 ^ 64) {top : List Bytes} {body : Bytes}
    (hBody : chunks (pairLen B) elements body = top) (hLength : elements * pairLen B ≤ body.length) :
    ∃ docs, readReply B (word64 (.ofNat 64 elements) ++ [if B.bisenScoring then 1 else 0] ++ body) = .ok docs ∧
      docs.map Prod.fst = top.map idOf := by
  have hHead : (word64 (.ofNat 64 elements) ++ [if B.bisenScoring then 1 else 0] ++ body).take 8 =
      word64 (.ofNat 64 elements) := by
    rw [List.append_assoc]
    exact List.take_left' (length_word64 _)
  have hFlag : slice (word64 (.ofNat 64 elements) ++ [if B.bisenScoring then 1 else 0] ++ body) 8 1 =
      [if B.bisenScoring then 1 else 0] := by
    rw [List.append_assoc]
    exact slice_append (length_word64 _) rfl
  have hDrop : (word64 (.ofNat 64 elements) ++ [if B.bisenScoring then 1 else 0] ++ body).drop 9 = body :=
    List.drop_left' (by rw [List.length_append, length_word64]; rfl)
  have hToNat : (BitVec.ofNat 64 elements).toNat = elements := by
    rw [BitVec.toNat_ofNat, Nat.mod_eq_of_lt hSmall]
  have hPair : (if ([if B.bisenScoring then 1 else 0] : Bytes).getD 0 0 ≠ 0 then 4 + 8 else 4) = pairLen B := by
    rw [pairLen]
    cases B.bisenScoring <;> rfl
  have hFits : ¬ (word64 (.ofNat 64 elements) ++ [if B.bisenScoring then 1 else 0] ++ body).length <
      9 + elements * pairLen B := by
    rw [List.length_append, List.length_append, length_word64, List.length_singleton]
    omega
  refine ⟨Response.decode B (word64 (.ofNat 64 elements) ++ [if B.bisenScoring then 1 else 0] ++ body), ?_, ?_⟩
  · rw [readReply]
    simp only [hHead, hFlag, readWord64_word64, hToNat, hPair]
    exact if_neg hFits
  · rw [Response.decode]
    simp only [hHead, hFlag, hDrop, readWord64_word64, hToNat, hPair, hBody, List.map_map]
    rfl

include hB in
theorem readReply_respond (hSound : responseDocs.Sound) (hWidth : responseDocs.viSize < 2 ^ 32) :
    ∃ docs, ∃ ids : List (BitVec 32), readReply B (respond B query nDocs responseDocs) = .ok docs ∧
      ids.Perm responseDocs.elems ∧ docs.map Prod.fst = ids.take (limit B responseDocs.viSize) := by
  obtain ⟨hRecords, hPerm⟩ := results_records hB query nDocs responseDocs
  have hCount : (results B query nDocs responseDocs).length = responseDocs.viSize := by
    have hLength := hPerm.length_eq
    rwa [List.length_map, VecInt.length_elems hSound] at hLength
  generalize hElements : min (limit B responseDocs.viSize) responseDocs.viSize = elements
  have hTop : ∀ p ∈ (results B query nDocs responseDocs).take elements, p.length = pairLen B :=
    fun p hp => hRecords p (List.mem_of_mem_take hp)
  have hTopLength : ((results B query nDocs responseDocs).take elements).length = elements := by
    rw [List.length_take, hCount]
    omega
  have hCopied : (if responseDocs.viSize ≠ 0 then (results B query nDocs responseDocs).flatten else []).take
      (elements * pairLen B) = ((results B query nDocs responseDocs).take elements).flatten := by
    split
    · exact take_flatten_of_width _ hRecords elements
    · case isFalse hNone =>
      have hZero : elements = 0 := by omega
      rw [hZero, Nat.zero_mul, List.take_zero, List.take_zero, List.flatten_nil]
  have hFlat := length_flatten_of_width _ hTop
  rw [hTopLength] at hFlat
  have hChunks : ∀ rest, chunks (pairLen B) elements (((results B query nDocs responseDocs).take elements).flatten ++
      rest) = (results B query nDocs responseDocs).take elements := by
    intro rest
    rw [chunks_append hFlat rest]
    have hAll := chunks_flatten _ hTop
    rwa [hTopLength] at hAll
  generalize hRest : (List.replicate (limit B responseDocs.viSize * pairLen B) (0 : UInt8)).drop
    ((results B query nDocs responseDocs).take elements).flatten.length = rest
  obtain ⟨docs, hRead, hDocs⟩ := readReply_records (B := B) (by omega : elements < 2 ^ 64) (hChunks rest)
    (by rw [List.length_append]; omega)
  refine ⟨docs, (results B query nDocs responseDocs).map idOf, ?_, hPerm, ?_⟩
  · rw [respond]
    simp only [← limit.eq_1, hElements, hCopied, hRest]
    exact hRead
  · rw [hDocs, List.map_take, ← hElements]
    have hLength : ((results B query nDocs responseDocs).map idOf).length = responseDocs.viSize := by
      rw [List.length_map, hCount]
    rw [← hLength, ← List.take_eq_take_min]

end Reply

/-! ## One query -/

/-- A query that writes out an expression over words, and whose message and labels fit an `int`. -/
structure Asks (texts : List Bytes) (e : Postfix.Expr Bytes) (query : Bytes) : Prop where
  renders : Renders e query
  words : ∀ w ∈ e.atoms, Writable w
  message : 7 + e.postorder.length + 36 * e.atoms.length < 2 ^ 31
  labels : mentionTotal texts e < 2 ^ 31

/-- The ids are texts that the expression describes, each once: all of them, or ten where they are ranked. -/
structure Answers (B : Build) (texts : List Bytes) (e : Postfix.Expr Bytes) (ids : List (BitVec 32)) : Prop where
  nodup : ids.Nodup
  described : ∀ id ∈ ids, ∃ text, texts[id.toNat]? = some text ∧ Describes e text
  complete : (∀ i text, texts[i]? = some text → Describes e text → BitVec.ofNat 32 i ∈ ids) ∨
    B.bisenScoring = true ∧ ids.length = threshold
  short : B.bisenScoring = true → ids.length ≤ threshold

theorem answers_take {B : Build} {texts : List Bytes} {e : Postfix.Expr Bytes} {ids : List (BitVec 32)}
    (hNodup : ids.Nodup) (hTexts : texts.length < 2 ^ 31)
    (hIds : ∀ id, id ∈ ids ↔ ∃ text, texts[id.toNat]? = some text ∧ Describes e text) :
    Answers B texts e (ids.take (limit B ids.length)) where
  nodup := hNodup.sublist (List.take_sublist _ _)
  described id hId := (hIds id).mp (List.mem_of_mem_take hId)
  complete := by
    have hAll : ∀ i text, texts[i]? = some text → Describes e text → BitVec.ofNat 32 i ∈ ids := by
      intro i text hGet hHolds
      have hLt := (List.getElem?_eq_some_iff.mp hGet).1
      refine (hIds _).mpr ⟨text, ?_, hHolds⟩
      rw [BitVec.toNat_ofNat, Nat.mod_eq_of_lt (by omega), hGet]
    by_cases hFits : ids.length ≤ limit B ids.length
    · rw [List.take_of_length_le hFits]
      exact .inl hAll
    · rw [limit] at hFits ⊢
      split at hFits
      · case isTrue hScoring =>
        rw [if_pos hScoring]
        exact .inr ⟨hScoring, List.length_take_of_le (by omega)⟩
      · case isFalse => exact absurd (Nat.le_refl _) hFits
  short hScoring := by
    rw [limit, if_pos hScoring]
    exact List.length_take_le _ _

theorem length_elems_le {n : Nat} {v : VecInt} {S : Set (Fin n)} (h : VecInt.Denotes n v S) :
    v.elems.length ≤ n := by
  have hNodup : (v.elems.map BitVec.toNat).Nodup := h.nodup.map fun _ _ => BitVec.eq_of_toNat_eq
  have hRange : v.elems.map BitVec.toNat ⊆ List.range n := by
    intro i hi
    obtain ⟨x, hx, rfl⟩ := List.mem_map.mp hi
    exact List.mem_range.mpr (h.lt x hx)
  have hLe := (List.subperm_of_subset hNodup hRange).length_le
  rwa [List.length_map, List.length_range] at hLe

/-- The reply was made of what was fetched of an index of the texts, and read. -/
def Found (P : Platform) (B : Build) (texts : List Bytes) (e : Postfix.Expr Bytes)
    (results : List (BitVec 32 × Option B.R)) : Prop :=
  ∃ (client : SseClient) (ev : Evaluated),
    ev.query.elems = (e.map (QueryParser.stemWord porter)).postorder.map
      (SessionSearch.fetchedTkn P (texts.map keywords) client) ∧
    ev.nDocs = .ofNat 32 texts.length ∧
    VecInt.Denotes (texts.map keywords).length ev.responseDocs
      ((e.map (QueryParser.stemWord porter)).eval (SessionSearch.containing (texts.map keywords))) ∧
    readReply B (respond B (B.reread ev.query) ev.nDocs ev.responseDocs) = .ok results

section Search
variable {P : Platform} (hP : P.Documented) {B : Build} (hB : B.Documented) (r : Nat → Nat) {texts : List Bytes}
  (hTexts : texts.length < 2 ^ 31)

theorem size_of_denotes {docs : VecInt} {S : Set (Fin (texts.map keywords).length)} (hTexts : texts.length < 2 ^ 31)
    (h : VecInt.Denotes (texts.map keywords).length docs S) : VecInt.viSize docs < 2 ^ 31 := by
  have hLe := length_elems_le h
  rw [VecInt.length_elems h.sound, List.length_map] at hLe
  exact hLe.trans_lt hTexts

/-- The documents found are the texts described. -/
theorem mem_denoted_texts {e : Postfix.Expr Bytes} (hWords : ∀ w ∈ e.atoms, Writable w) {docs : VecInt}
    (h : VecInt.Denotes (texts.map keywords).length docs
      ((e.map (QueryParser.stemWord porter)).eval (SessionSearch.containing (texts.map keywords)))) (id : BitVec 32) :
    id ∈ docs.elems ↔ ∃ text, texts[id.toNat]? = some text ∧ Describes e text := by
  rw [EndToEnd.mem_denoted h id]
  simp only [List.getElem?_map, Option.map_eq_some_iff]
  constructor
  · rintro ⟨_, ⟨text, hGet, rfl⟩, hHolds⟩
    exact ⟨text, hGet, (satisfies_iff hWords text).mp hHolds⟩
  · rintro ⟨text, hGet, hHolds⟩
    exact ⟨_, ⟨text, hGet, rfl⟩, (satisfies_iff hWords text).mpr hHolds⟩

include hB hTexts in
theorem Found.answers {e : Postfix.Expr Bytes} {results : List (BitVec 32 × Option B.R)}
    (h : Found P B texts e results) (hWords : ∀ w ∈ e.atoms, Writable w) :
    Answers B texts e (results.map Prod.fst) := by
  obtain ⟨client, ev, _, _, hDenotes, hRead⟩ := h
  have hSize := size_of_denotes hTexts hDenotes
  obtain ⟨docs, ids, hReply, hPerm, hIds⟩ :=
    readReply_respond hB (B.reread ev.query) ev.nDocs ev.responseDocs hDenotes.sound (hSize.trans (by decide))
  rw [hRead] at hReply
  cases hReply
  have hLength : VecInt.viSize ev.responseDocs = ids.length := by
    rw [hPerm.length_eq, VecInt.length_elems hDenotes.sound, VecInt.viSize]
  rw [hIds, hLength]
  refine answers_take (hPerm.nodup_iff.mpr hDenotes.nodup) hTexts fun id => ?_
  rw [hPerm.mem_iff, mem_denoted_texts hWords hDenotes]

include hP hB hTexts

theorem search_found {sse : SseClient} {encl : Enclave} {link : Link}
    (h : Indexed P (texts.map keywords) ⟨sse, encl, link⟩) {e : Postfix.Expr Bytes} {query : Bytes}
    (hAsks : Asks texts e query) (old : Int) :
    ∃ data j reply results encl' link', search P sse query old = .ok (data, j) ∧
      Completes P B r (ieeSend data.written >>= fun _ => ieeRecv) (encl, link) reply (encl', link') ∧
      readReply B reply = .ok results ∧ Found P B texts e results ∧
      Indexed P (texts.map keywords) ⟨sse, encl', link'⟩ := by
  have hDocs : (texts.map keywords).length < 2 ^ 31 := by rwa [List.length_map]
  have hNul : ∀ words ∈ texts.map keywords, ∀ word ∈ words.keys, NulFree word := by
    intro words hMem word hWord
    obtain ⟨text, _, rfl⟩ := List.mem_map.mp hMem
    exact nulFree_keywords hWord
  generalize hExpr : e.map (QueryParser.stemWord porter) = expr
  have hMax : dataSize (expr.postorder.map clientTkn) ≤ intMax := by
    have hMessage := hAsks.message
    rw [dataSize_eq, EndToEnd.wordsOf_postorder, ← hExpr, Postfix.Expr.atoms_map, List.length_map,
      Postfix.Expr.postorder_map, List.length_map]
    unfold intMax
    omega
  have hCount : labelCount sse expr.postorder ≤ intMax := by
    have hLabels := hAsks.labels
    rw [← labelTotal_eq hAsks.words, hExpr, ← EndToEnd.labelCount_eq h hDocs] at hLabels
    exact Nat.le_sub_one_of_lt hLabels
  have hMsg : sse.searchRpn P (expr.postorder.map clientTkn) =
      .ok ⟨dataSize (expr.postorder.map clientTkn), sse.searchMsg P expr.postorder⟩ := by
    rw [searchRpn_eq hP, if_neg (by omega)]
  obtain ⟨j, hSearch⟩ := search_eq P sse query old
  rw [search_renders hAsks.words P sse hAsks.renders, hExpr, hMsg] at hSearch
  obtain ⟨encl', ev, out, inn, hRun, hNDocs, hElems, hDenotes, _⟩ :=
    SessionSearch.retrieve_found hP h hDocs hNul hMax r hCount rfl
  have hReply : Runs Link.peer (processMessage P B r encl (sse.searchMsg P expr.postorder)) link
      (encl', respond B (B.reread ev.query) ev.nDocs ev.responseDocs) (.opened (SessionSearch.started link.storage))
      (out ++ []) (inn ++ []) := by
    rw [processMessage_searchMsg, PostingIndex.search_bind]
    exact hRun.bind rfl
  have hSize := size_of_denotes hTexts hDenotes
  obtain ⟨results, _, hRead, _, _⟩ :=
    readReply_respond hB (B.reread ev.query) ev.nDocs ev.responseDocs hDenotes.sound (hSize.trans (by decide))
  have hFound : Found P B texts e results := by
    refine ⟨sse, ev, ?_, ?_, ?_, hRead⟩
    · rw [hExpr, hElems]
    · have hSame : ev.nDocs = .ofNat 32 (texts.map keywords).length := hNDocs.trans h.nDocs
      rwa [List.length_map] at hSame
    · rw [hExpr]
      exact hDenotes
  have hReplyLength := length_respond_lt (B := B) (B.reread ev.query) ev.nDocs hSize
  have hWritten : (sse.searchMsg P expr.postorder).length < 2 ^ 64 := by
    rw [length_searchMsg hP]
    unfold intMax at hMax
    omega
  exact ⟨_, j, _, results, _, _, hSearch, exchange_completes hReply hWritten hReplyLength, hRead, hFound,
    PostingIndex.search_indexed hP B r h hDocs hNul hMax hReply⟩

theorem bisenSearch_completes {exprs : List (Postfix.Expr Bytes)} {queries : List Bytes} {client : Client}
    {encl : Enclave} {link : Link} (h : Indexed P (texts.map keywords) ⟨client.sse, encl, link⟩)
    (hAsks : List.Forall₂ (Asks texts) exprs queries) :
    ∃ client' results encl' link', Completes P B r (ClientProgram.bisenSearch P B queries client) (encl, link)
        (client', results) (encl', link') ∧
      List.Forall₂ (Found P B texts) exprs results ∧
      Indexed P (texts.map keywords) ⟨client'.sse, encl', link'⟩ := by
  induction hAsks generalizing client encl link with
  | nil => exact ⟨client, [], encl, link, Completes.ret _ _, .nil, h⟩
  | @cons e query exprs queries hAsk _ ih =>
    obtain ⟨data, j, reply, docs, encl₁, link₁, hSearch, hExchange, hRead, hFound, hIndexed⟩ :=
      search_found hP hB r hTexts h hAsk client.j
    have hClient : Indexed P (texts.map keywords) ⟨({ client with j := j } : Client).sse, encl₁, link₁⟩ := hIndexed
    obtain ⟨client', results, encl', link', hRest, hAll, hLast⟩ := ih hClient
    refine ⟨client', docs :: results, encl', link', ?_, .cons hFound hAll, hLast⟩
    rw [ClientProgram.bisenSearch, hSearch, Program.lift_ok, Program.ret_bind]
    dsimp only
    rw [← Program.bind_assoc]
    refine hExchange.bind ?_
    rw [hRead, Program.lift_ok, Program.ret_bind]
    exact hRest.bind (Completes.ret _ _)

end Search

/-! ## The program -/

/-- The service reads the operation and its flag, prints, and then fails to read on the socket it has closed. -/
theorem push_dumpBench (storage : Storage) :
    Link.peer.push (.opened storage) [opUeeDumpBench, 0] = ⟨storage, [], [], some .errorReadingFromSocket⟩ := rfl

theorem dumpBench_completes (P : Platform) (B : Build) (r : Nat → Nat) (encl : Enclave) (storage : Storage) :
    Completes P B r (ieeComm [opRbisen, opIeeDumpBench, 0]) (encl, .opened storage) ()
      ({ encl with nrSearches := 0 }, ⟨storage, [], [], some .errorReadingFromSocket⟩) := by
  have hDump : processMessage P B r encl [opRbisen, opIeeDumpBench, 0] =
      .send [opUeeDumpBench, 0] (.ret ({ encl with nrSearches := 0 }, [])) := rfl
  have hRun : Runs Link.peer (processMessage P B r encl [opRbisen, opIeeDumpBench, 0]) (.opened storage)
      ({ encl with nrSearches := 0 }, []) ⟨storage, [], [], some .errorReadingFromSocket⟩ [[opUeeDumpBench, 0]] [] := by
    rw [hDump]
    exact Runs.send (push_dumpBench storage) rfl
  exact ieeComm_completes hRun (by decide) (by decide)

def indexedFiles (settings : Configs) : List File :=
  updated settings.bisenDocType settings.bisenNrDocs (txtPaths settings.bisenDatasetDir) 0

/-- The texts that are indexed, in the order of their ids. -/
def indexedTexts (settings : Configs) : List Bytes := textsOfAll settings.bisenDocType (indexedFiles settings)

/-- What the program needs to index a directory and run queries for these expressions. -/
structure Runnable (P : Platform) (settings : Configs) (exprs : List (Postfix.Expr Bytes)) : Prop where
  known : settings.bisenDocType = wiki ∨ settings.bisenDocType = normal
  readable : ∀ doc ∈ indexedFiles settings, Readable settings.bisenDocType doc.content
  texts : (indexedTexts settings).length < 2 ^ 31
  free : CollisionFree P ((indexedTexts settings).map keywords)
  asks : List.Forall₂ (Asks (indexedTexts settings)) exprs settings.bisenQueries

theorem Runnable.found_imp {P : Platform} {B : Build} {settings : Configs} {exprs : List (Postfix.Expr Bytes)}
    (h : Runnable P settings exprs) {R : Postfix.Expr Bytes → List (BitVec 32 × Option B.R) → Prop}
    (hImp : ∀ e results, (∀ w ∈ e.atoms, Writable w) → Found P B (indexedTexts settings) e results → R e results)
    {results : List (List (BitVec 32 × Option B.R))}
    (hFound : List.Forall₂ (Found P B (indexedTexts settings)) exprs results) : List.Forall₂ R exprs results := by
  refine Simulation.forall₂_imp_of_mem hFound fun e he _ _ => hImp e _ ?_
  obtain ⟨query, _, hAsk⟩ := Simulation.exists_right h.asks he
  exact hAsk.words

section Tests
variable {P : Platform} (hP : P.Documented) {B : Build} (hB : B.Documented) (r : Nat → Nat)
  (memory : Nat → Nat → UInt8) (storage₀ : Storage) (enclave₀ : Enclave) {settings : Configs}
  {exprs : List (Postfix.Expr Bytes)} (h : Runnable P settings exprs)
include hP hB h

theorem separatedTests_finds :
    ∃ results s, Completes P B r (separatedTests P B memory settings) (enclave₀, .opened storage₀) results s ∧
      List.Forall₂ (Found P B (indexedTexts settings)) exprs results ∧
      s.2.stopped = some .errorReadingFromSocket := by
  have hSetup : Completes P B r bisenSetup (enclave₀, .opened storage₀) () _ :=
    ieeComm_completes (setup_runs P B r storage₀ enclave₀) (by decide) (by decide)
  have hClean : Clean (⟨SseClient.init, create memory, 0⟩ : Client).analyzer := create_clean memory
  have hEmpty : Indexed P (([] : List Bytes).map keywords) ⟨(⟨SseClient.init, create memory, 0⟩ : Client).sse,
      { enclave₀ with auxBool := [], lastNdocs := 0 }, .opened storage₀⟩ := setup_indexed P storage₀ enclave₀
  obtain ⟨client, encl, link, hUpdate, hIndexed⟩ :=
    bisenUpdate_completes hP B r memory h.known hClean hEmpty h.readable h.texts h.free
  have hIndexed : Indexed P ((indexedTexts settings).map keywords) ⟨client.sse, encl, link⟩ := hIndexed
  obtain ⟨client', results, encl', link', hSearch, hFound, hLast⟩ :=
    bisenSearch_completes hP hB r h.texts hIndexed h.asks
  have hDump := dumpBench_completes P B r encl' link'.storage
  rw [← hLast.link] at hDump
  exact ⟨results, _, hSetup.bind (hUpdate.bind (hSearch.bind (hDump.bind (Completes.ret _ _)))), hFound, rfl⟩

end Tests

/-- A file of nineteen articles, of which the first two have words that are counted. -/
def petFiles : List File :=
  [⟨ascii "pets.txt", ascii "<doc >\ncat cat dog .\n</doc>\n<doc >\nCats .\n</doc>\n" ++
    (List.replicate 17 (ascii "<doc >\nthe .\n</doc>\n")).flatten⟩, ⟨ascii ".txt", []⟩]

def pets (queries : List Bytes) : Configs where
  bisenDocType := wiki
  bisenDatasetDir := petFiles
  bisenQueries := queries

/-- The articles, and the text behind the last one. -/
def petTexts : List Bytes :=
  ascii "cat cat dog .\n" :: ascii "Cats .\n" :: List.replicate 17 (ascii "the .\n") ++ [[WikiExtractor.newline]]

theorem indexedTexts_pets (queries : List Bytes) : indexedTexts (pets queries) = petTexts := by
  change textsOfAll wiki (updated wiki 1000 (txtPaths petFiles) 0) = petTexts
  decide +kernel

theorem collisionFree_pets : CollisionFree Reference.platform (petTexts.map keywords) :=
  collisionFree_of_heads [ascii "cat", ascii "dog"] [[5, 255], [47, 109]] [[134, 85], [120, 222], [191, 183]]
    (by decide +kernel) (by decide +kernel) (by decide) (by decide +kernel) (by decide)

theorem pets_runnable {exprs : List (Postfix.Expr Bytes)} {queries : List Bytes}
    (h : List.Forall₂ (Asks petTexts) exprs queries) : Runnable Reference.platform (pets queries) exprs := by
  have hTexts := indexedTexts_pets queries
  have hOther : wiki ≠ normal := by decide
  have hSizes : ∀ doc ∈ updated wiki 1000 (txtPaths petFiles) 0, doc.content.length < 2 ^ 57 := by decide +kernel
  constructor
  case known => exact .inl rfl
  case readable => exact fun doc hDoc => ⟨fun hNormal => absurd hNormal hOther, hSizes doc hDoc⟩
  case texts =>
    rw [hTexts]
    decide
  case free =>
    rw [hTexts]
    exact collisionFree_pets
  case asks =>
    rw [hTexts]
    exact h

theorem asks_cat : Asks petTexts (.atom (ascii "cat")) (ascii "cat") := by
  have hPrints : Prints [QueryParser.wordTkn (ascii "cat")] (ascii "cat") := by
    have hWord := Prints.word 0 (w := ascii "cat") (.nil 0)
    rwa [List.replicate_zero, List.nil_append, List.append_nil] at hWord
  refine ⟨⟨.word (ascii "cat"), rfl, trivial, hPrints⟩, ?_, by decide, by decide +kernel⟩
  intro w hw
  rw [List.mem_singleton.mp hw]
  exact ⟨by decide, by decide +kernel⟩

/-- The texts with `cat` and without `dog`. -/
def catsOnly : Postfix.Expr Bytes := .conj (.atom (ascii "cats")) (.neg (.atom (ascii "dog")))

theorem asks_catsOnly : Asks petTexts catsOnly (ascii "cats & !dog") := by
  let e : Infix Bytes := .and (.word (ascii "cats")) (.not (.word (ascii "dog")))
  have hParens : e.Parenthesized := by simp [e, Infix.Parenthesized, Infix.level, Infix.isNot]
  have hPrints : Prints e.tokens (ascii "cats & !dog") := .word 0 (.single 1 rfl (.single 1 rfl (.word 0 (.nil 0))))
  have hWords : ∀ w ∈ [ascii "cats", ascii "dog"], w ≠ [] ∧ ∀ c ∈ w, QueryParser.isWordChar c = true := by
    decide +kernel
  exact ⟨⟨e, rfl, hParens, hPrints⟩, hWords, by decide, by decide +kernel⟩

end Bisen.TextSearch
