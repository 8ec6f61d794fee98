import Bisen.EvaluatorSets
import Bisen.PostingIndex

/-! # One search in two states

Two states that are indexed for the same documents and whose clients agree give the same reply to
the same query, or none in both: what else the enclave and the service hold has no say in it.
-/
namespace Bisen.SearchAgreement
open Wire Socket SseClient SseIee QueryMessage Retrieval PostingLists Session SessionSearch PostingIndex
set_option autoImplicit false

section Search
variable {P : Platform} (hP : P.Documented) (B : Build) (r : Nat → Nat) {docs : List WordMap} {s : System}
  (h : Indexed P docs s) (hDocs : docs.length < 2 ^ 31)
  (hNul : ∀ words, words ∈ docs → ∀ word, word ∈ words.keys → NulFree word)
  {query : List (Postfix.Token Bytes)} (hMax : dataSize (query.map clientTkn) ≤ intMax)

include hP h hDocs hNul hMax

/-- What a completed search went by: the query it filled, and the list its evaluation means. -/
structure Evaluates (docs : List WordMap) (client : SseClient) (v : VecToken) (ev : Evaluated) : Prop where
  query : ev.query = v
  nDocs : ev.nDocs = client.nDocs
  sound : ev.responseDocs.Sound
  meaning : EvaluatorSets.Meaning docs.length v ev.responseDocs
  wellFormed : Postfix.WellFormed (v.elems.map QueryEvaluator.abstractToken)

theorem retrieve_evaluates {d : Decoded} (hDecode : decode (s.client.searchMsg P query).tail = .ok d)
    {enclave : Enclave} {ev : Evaluated} {link : Link} {out inn : List Bytes}
    (hRun : Runs Link.peer (retrieve P r s.enclave (s.client.searchMsg P query).tail) s.link (enclave, ev) link
      out inn) : Evaluates docs s.client (fetchedQuery P r docs query d.query) ev := by
  obtain ⟨hCount, hFormed⟩ := (retrieve_completes_iff hP r h hDocs hNul hMax).mp ⟨_, _, _, _, hRun⟩
  obtain ⟨hElems, enclave₁, out₁, inn₁, hAux, hLast, fetch, hRetrieve, hFetch⟩ :=
    retrieve_filled hP h hDocs hNul hMax r hDecode hCount
  rw [hRetrieve, runs_bind_iff] at hRun
  obtain ⟨_, _, _, _, _, _, hFetch', hFinish, _, _⟩ := hRun
  obtain ⟨hPair, rfl, _, _⟩ := hFetch'.unique hFetch
  cases hPair
  rw [finish] at hFinish
  obtain ⟨⟨list, count⟩, _, _, _, _, _, hEval, hRet, _, _⟩ := runs_bind_iff.mp hFinish
  rw [runs_lift_iff] at hEval
  rw [h.nDocs] at hEval
  obtain ⟨hPair, _, _, _⟩ := runs_ret_iff.mp hRet
  cases hPair
  obtain ⟨_, hRoom⟩ := grown_scratch h hDocs hAux hLast
  have hWellFormed : Postfix.WellFormed
      ((fetchedQuery P r docs query d.query).elems.map QueryEvaluator.abstractToken) := by
    rwa [map_abstractToken hElems, Postfix.wellFormed_map]
  rw [h.nDocs] at hRoom
  have hMeaning := EvaluatorSets.evaluate_meaning (show docs.length ≤ intMax by unfold intMax; omega)
    (fun tkn hTkn list => operands_valid hDocs hElems hTkn) hRoom hEval.1 hWellFormed
  obtain ⟨e, he⟩ := hWellFormed
  exact ⟨rfl, rfl, (hMeaning.denotes e he).sound, hMeaning, ⟨e, he⟩⟩

end Search

theorem Evaluates.respond_eq {B : Build} {docs : List WordMap} {client : SseClient} {v : VecToken}
    {ev ev' : Evaluated} (h : Evaluates docs client v ev) (h' : Evaluates docs client v ev') :
    Response.respond B (B.reread ev.query) ev.nDocs ev.responseDocs =
      Response.respond B (B.reread ev'.query) ev'.nDocs ev'.responseDocs := by
  have hElems := h.meaning.elems_unique h'.meaning h.wellFormed
  have hCounter : ev.responseDocs.counter = ev'.responseDocs.counter := by
    rw [← VecInt.length_elems h.sound, ← VecInt.length_elems h'.sound, hElems]
  rw [h.query, h'.query, h.nDocs, h'.nDocs]
  exact Response.respond_congr B _ _ hElems hCounter

section Twice
variable {P : Platform} (hP : P.Documented) (B : Build) (r : Nat → Nat) {docs : List WordMap} {s t : System}
  (hs : Indexed P docs s) (ht : Indexed P docs t) (hClient : s.client = t.client) (hDocs : docs.length < 2 ^ 31)
  (hNul : ∀ words, words ∈ docs → ∀ word, word ∈ words.keys → NulFree word)
  {query : List (Postfix.Token Bytes)} (hMax : dataSize (query.map clientTkn) ≤ intMax)

include hP hs ht hClient hDocs hNul hMax

theorem processMessage_agrees {enclave : Enclave} {reply : Bytes} {link : Link} {out inn : List Bytes}
    (hRun : Runs Link.peer (processMessage P B r s.enclave (s.client.searchMsg P query)) s.link (enclave, reply)
      link out inn) :
    ∃ enclave' link' out' inn', Runs Link.peer (processMessage P B r t.enclave (t.client.searchMsg P query))
      t.link (enclave', reply) link' out' inn' := by
  rw [processMessage_searchMsg, search_bind] at hRun
  obtain ⟨⟨enclave₁, ev⟩, _, out₁, inn₁, _, _, hRetrieve, hRet, _, _⟩ := runs_bind_iff.mp hRun
  obtain ⟨hPair, _, _, _⟩ := runs_ret_iff.mp hRet
  cases hPair
  have hCompletes := (retrieve_completes_iff hP r hs hDocs hNul hMax).mp ⟨_, _, _, _, hRetrieve⟩
  rw [hClient] at hCompletes
  obtain ⟨⟨enclave', ev'⟩, link', out', inn', hTheirs⟩ :=
    (retrieve_completes_iff hP r ht hDocs hNul hMax).mpr hCompletes
  obtain ⟨d, hDecode, _⟩ := decode_searchMsg hP s.client query hMax
  have hEvaluates := retrieve_evaluates hP r hs hDocs hNul hMax hDecode hRetrieve
  rw [hClient] at hDecode hEvaluates
  have hEvaluates' := retrieve_evaluates hP r ht hDocs hNul hMax hDecode hTheirs
  refine ⟨enclave', link', out' ++ [], inn' ++ [], ?_⟩
  rw [processMessage_searchMsg, search_bind, hEvaluates.respond_eq hEvaluates']
  exact hTheirs.bind rfl

end Twice
end Bisen.SearchAgreement
