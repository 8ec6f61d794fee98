import Bisen.EndToEnd
import Bisen.EvaluatorBounds
import Bisen.Integrity

/-! # Which accepted queries end the enclave

The parser accepts every query with balanced parentheses; only the evaluator counts operands. An
accepted query is harmless exactly if its postfix list is the postorder of an expression: then no
peer can drive the evaluator into an exit, and otherwise an honest session always does.
-/
namespace Bisen.QueryExits
open Wire Socket SseClient SseIee VecToken QueryParser QueryMessage Retrieval HonestRetrieval QueryEvaluator
open PostingLists Session SessionSearch PostingIndex
set_option autoImplicit false

/-! ## The shape of a fetched query -/

def shape (t : IeeToken) : Postfix.Token Unit := (abstractToken t).map fun _ => ()

theorem wellFormed_shape (ts : List IeeToken) :
    Postfix.WellFormed (ts.map abstractToken) ↔ Postfix.WellFormed (ts.map shape) := by
  rw [← Postfix.wellFormed_map (fun _ : VecInt => ()), List.map_map]
  rfl

theorem shape_eq (t : IeeToken) : shape t = if t.type = andToken then .conj else if t.type = orToken then .disj
    else if t.type = notToken then .neg else .operand () := by
  unfold shape abstractToken
  simp only [apply_ite (Postfix.Token.map _)]
  rfl

theorem shape_overwrite (answers : Answers) (reqs : List LabelRequest) (i : Nat) (t : IeeToken) :
    shape (overwrite answers reqs i t) = shape t := by
  rw [shape_eq, shape_eq]
  rfl

theorem map_shape_mapIdx (answers : Answers) (reqs : List LabelRequest) (ts : List IeeToken) :
    (ts.mapIdx (overwrite answers reqs)).map shape = ts.map shape := by
  apply List.ext_getElem (by simp)
  intro i _ _
  rw [List.getElem_map, List.getElem_map, List.getElem_mapIdx, shape_overwrite]

theorem shape_ieeTkn (P : Platform) (client : SseClient) (t : Postfix.Token Bytes) :
    shape (ieeTkn P client t) = t.map fun _ => () := by
  cases t with
  | operand word => rfl
  | neg => rfl
  | conj => rfl
  | disj => rfl

section Fetched
variable {P : Platform} (hP : P.Documented) {client : SseClient} {query : List (Postfix.Token Bytes)}
  (hMax : dataSize (query.map clientTkn) ≤ intMax) {d : Decoded}
  (hDecode : decode (client.searchMsg P query).tail = .ok d) {r : Nat → Nat} {σ : Type} {peer : Peer Fault σ}
  {s s' : σ} {enclave enclave' : Enclave} {v : VecToken} {out inn : List Bytes}
  (hRun : Runs peer (getDocsFromServer P r enclave d.query d.countLabels) s (enclave', v) s' out inn)
include hP hMax hDecode hRun

theorem wellFormed_fetched : Postfix.WellFormed (v.elems.map abstractToken) ↔ Postfix.WellFormed query := by
  obtain ⟨d', hDecode', _, hElems, _⟩ := decode_searchMsg hP client query hMax
  cases hDecode.symm.trans hDecode'
  obtain ⟨entryAt, _, _, hFetched⟩ := Integrity.fetched_entries hDecode hRun
  rw [wellFormed_shape, hFetched, map_shape_mapIdx, hElems, List.map_map]
  have hShape : (query.map (shape ∘ ieeTkn P client)) = query.map (Postfix.Token.map fun _ => ()) :=
    List.map_congr_left fun t _ => shape_ieeTkn P client t
  rw [hShape, Postfix.wellFormed_map]

end Fetched

/-! ## Exits -/

def Exits (P : Platform) (B : Build) (r : Nat → Nat) (s : System) (msg : Bytes) : Prop :=
  ∃ e, ((processMessage P B r s.enclave msg).run Link.peer s.link).result = .error e ∧ e.ofEvaluate = true

theorem exits_iff {P : Platform} (hP : P.Documented) (B : Build) (r : Nat → Nat) {docs : List WordMap}
    {s : System}
    (h : Indexed P docs s) (hDocs : docs.length < 2 ^ 31)
    (hNul : ∀ words, words ∈ docs → ∀ word, word ∈ words.keys → NulFree word)
    {query : List (Postfix.Token Bytes)} (hMax : dataSize (query.map clientTkn) ≤ intMax)
    (hCount : labelCount s.client query ≤ intMax) :
    Exits P B r s (s.client.searchMsg P query) ↔ ¬ Postfix.WellFormed query := by
  rw [Exits, processMessage_searchMsg, search_bind]
  constructor
  · rintro ⟨e, hError, _⟩ ⟨expr, hExpr⟩
    obtain ⟨enclave, ev, out, inn, hRun, _⟩ := retrieve_found hP h hDocs hNul hMax r hCount hExpr
    obtain ⟨hResult, _⟩ := hRun.run_bind fun p =>
      .ret (p.1, Response.respond B (B.reread p.2.query) p.2.nDocs p.2.responseDocs)
    cases hResult.symm.trans hError
  · intro hMalformed
    obtain ⟨e, hResult, _, hExit⟩ := retrieve_malformed hP h hDocs hNul hMax r hCount hMalformed
    obtain ⟨hResult', _⟩ := Program.run_bind_error hResult fun p =>
      .ret (p.1, Response.respond B (B.reread p.2.query) p.2.nDocs p.2.responseDocs)
    exact ⟨e, hResult', hExit⟩

/-- An accepted query with a well-formed postfix list reaches no exit of the evaluator, whoever answers
the enclave; with any other list, a session that can request its labels always reaches one. -/
theorem accepted_exits_iff {P : Platform} (hP : P.Documented) (stem : Bytes → Bytes) (client : SseClient)
    (queryString : Bytes) {b : Buffer} (hMsg : client.search P stem queryString = .ok b) :
    ∃ query : List (Postfix.Token Bytes),
      shuntingYard (tokenize stem queryString) = .ok (query.map clientTkn) ∧
      (Postfix.WellFormed query → ∀ (r : Nat → Nat) (σ : Type) (peer : Peer Fault σ) (s s' : σ)
        (enclave enclave' : Enclave) (d : Decoded) (v : VecToken) (out inn : List Bytes),
        decode b.written.tail = .ok d →
        Runs peer (getDocsFromServer P r enclave d.query d.countLabels) s (enclave', v) s' out inn →
        ∀ (count : List UInt8) (e : Fault), evaluate v d.nDocs count = .error e → e.ofEvaluate = false) ∧
      ∀ (B : Build) (r : Nat → Nat) (storage₀ : Storage) (enclave₀ : Enclave) (docs : List WordMap) (s : System),
        docs.length < 2 ^ 31 → (∀ words, words ∈ docs → ∀ word, word ∈ words.keys → NulFree word) →
        CollisionFree P docs → Reached P B r storage₀ enclave₀ docs s → s.client = client →
        labelCount client query < 2 ^ 31 → (Exits P B r s b.written ↔ ¬ Postfix.WellFormed query) := by
  obtain ⟨query, hRpn, hSearch⟩ := ParsedQuery.search_eq hMsg
  obtain ⟨hMax, rfl⟩ := searchRpn_ok hP hSearch
  refine ⟨query, hRpn, ?_, ?_⟩
  · intro hFormed r σ peer s s' enclave enclave' d v out inn hDecode hRun count e hError
    have hShape := (wellFormed_fetched hP hMax hDecode hRun).mpr hFormed
    rw [EvaluatorBounds.evaluate_boundsOnly hShape d.nDocs count e hError]
    rfl
  · intro B r storage₀ enclave₀ docs s hDocs hNul hFree hReached hClient hCount
    subst hClient
    have hIndexed := reached_indexed hP B r storage₀ enclave₀ hDocs hNul hFree hReached
    exact exits_iff hP B r hIndexed hDocs hNul hMax (Nat.le_sub_one_of_lt hCount)

/-! ## An operator alone -/

def ampersand : Bytes := [andToken]

theorem shuntingYard_ampersand :
    shuntingYard (tokenize id ampersand) = .ok ([Postfix.Token.conj].map clientTkn) := by rfl

theorem search_ampersand (client : SseClient) : client.search Reference.platform id ampersand =
    .ok ⟨8, client.searchMsg Reference.platform [.conj]⟩ := by
  rw [SseClient.search, shuntingYard_ampersand]
  exact searchRpn_eq Reference.documented client [.conj]

theorem not_wellFormed_conj : ¬ Postfix.WellFormed [(.conj : Postfix.Token Bytes)] := by
  rw [Postfix.wellFormed_iff (.boolean Unit) (fun _ => ())]
  rintro ⟨_, hRun⟩
  cases hRun

section Fresh
variable (storage : Storage) (enclave : Enclave)

def fresh : System := ⟨SseClient.init, { enclave with auxBool := [], lastNdocs := 0 }, .opened storage⟩

theorem fresh_reached (P : Platform) (B : Build) (r : Nat → Nat) :
    Reached P B r storage enclave [] (fresh storage enclave) := .setup (setup_runs P B r storage enclave)

theorem collisionFree_nil (P : Platform) : CollisionFree P [] := by
  have hNote : CollisionFree P ([] ++ [note [0x61] 1]) := collisionFree_note P [0x61] 1
  exact hNote.prefix

end Fresh

/-- After two documents were added. -/
theorem accepted_exits_iff_ampersand :
    ∃ s, Reached Reference.platform (Reference.build true) fixedChoice ⟨fun _ => none, 0⟩ ⟨0, [], 0, 0⟩ twoNotes s ∧
      ∃ query : List (Postfix.Token Bytes), shuntingYard (tokenize id ampersand) = .ok (query.map clientTkn) ∧
        (Exits Reference.platform (Reference.build true) fixedChoice s
          (s.client.searchMsg Reference.platform [.conj]) ↔ ¬ Postfix.WellFormed query) := by
  obtain ⟨s, hs⟩ := exists_reached Reference.documented (Reference.build true) fixedChoice ⟨fun _ => none, 0⟩
    ⟨0, [], 0, 0⟩ (by decide) nulFree_twoNotes collisionFree_twoNotes
  obtain ⟨query, hRpn, _, hExits⟩ := accepted_exits_iff Reference.documented id s.client ampersand
    (search_ampersand s.client)
  have hQuery : query.map clientTkn = [Postfix.Token.conj].map clientTkn := by
    have hEq := hRpn.symm.trans shuntingYard_ampersand
    injection hEq
  have hCount : labelCount s.client query < 2 ^ 31 := by
    match query, hQuery with
    | [.conj], _ => exact Nat.two_pow_pos 31
  exact ⟨s, hs, query, hRpn, hExits (Reference.build true) fixedChoice _ _ twoNotes s (by decide) nulFree_twoNotes
    collisionFree_twoNotes hs rfl hCount⟩

/-- The client accepts the query `&`, and it ends the enclave. -/
theorem not_accepted_harmless :
    ¬ ∀ (P : Platform), P.Documented → ∀ (stem : Bytes → Bytes) (B : Build) (r : Nat → Nat) (storage₀ : Storage)
      (enclave₀ : Enclave) (docs : List WordMap) (s : System), docs.length < 2 ^ 31 →
      (∀ words, words ∈ docs → ∀ word, word ∈ words.keys → NulFree word) → CollisionFree P docs →
      Reached P B r storage₀ enclave₀ docs s → ∀ (queryString : Bytes) (b : Buffer),
        s.client.search P stem queryString = .ok b → ¬ Exits P B r s b.written := by
  intro hAll
  let s := fresh ⟨fun _ => none, 0⟩ ⟨0, [], 0, 0⟩
  have hHarmless := hAll Reference.platform Reference.documented id (Reference.build true) fixedChoice
    ⟨fun _ => none, 0⟩ ⟨0, [], 0, 0⟩ [] s (by decide) (by simp) (collisionFree_nil _) (fresh_reached _ _ _ _ _)
    ampersand _ (search_ampersand _)
  refine hHarmless ((exits_iff Reference.documented (Reference.build true) fixedChoice
    (setup_indexed Reference.platform _ _) (by decide) (by simp) ?_ ?_).mpr not_wellFormed_conj)
  · decide
  · decide

end Bisen.QueryExits
