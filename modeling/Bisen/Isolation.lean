import Bisen.SharedEnclave

/-! # Isolation of the clients

As long as no two clients differ in an entry for the same word and place, the index serves all of
them: the enclave and the service hold for every client what a session of its own would have left
there. The answers of a client then do not tell whether there are others.
-/
namespace Bisen.Isolation
open Wire Socket SseClient SseIee SseServer QueryMessage PostingLists Session SessionSearch PostingIndex
  Noninterference SharedEnclave
set_option autoImplicit false

variable {ι : Type} [DecidableEq ι] {P : Platform}

/-- After `past`, the shared state is indexed for every client. -/
structure Served (P : Platform) (past : List (ι × ClientRequest)) (s : Shared ι) : Prop where
  room : ∀ c, (documents (own c past)).length < 2 ^ 31
  indexed : ∀ c, Indexed P (documents (own c past)) ⟨s.clients c, s.enclave, s.link⟩
  opened : ∀ c, (c, .setup) ∈ past → s.opened = true

theorem start_served (storage : Storage) : Served P [] (start storage : Shared ι) where
  room _ := (by decide : 0 < 2 ^ 31)
  indexed _ := ⟨rfl, fun _ => rfl, rfl, fun _ _ _ h => (by cases h), rfl⟩
  opened _ h := by cases h

theorem nulFree_own {past : List (ι × ClientRequest)} (h : Allowed P past) (c : ι) :
    ∀ words, words ∈ documents (own c past) → ∀ word, word ∈ words.keys → NulFree word :=
  fun words hWords => h.nulFree words ((documents_own_sublist c past).subset hWords)

/-! ## Adding a document next to the entries of another client -/

section Entries
variable {all docs others : List WordMap} {words : WordMap} (hP : P.Documented) (hFree : CollisionFree P all)
  (hMine : (docs ++ [words]).Sublist all) (hTheirs : others.Sublist all) (hDocs : docs.length + 1 < 2 ^ 31)
  (hOthers : others.length < 2 ^ 31)

include hP hFree hMine hTheirs hDocs hOthers

theorem insertPairs_others {I : Bytes → Option Bytes} {word : Bytes} {j : Nat} {q : Nat × BitVec 32}
    (hSame : ∀ p, (posting (docs ++ [words]) word)[j]? = some p → p = q)
    (hOld : I (labelFor P word j) = some (entryFor P word j q)) (hq : (posting others word)[j]? = some q) :
    insertPairs I (newPairs P docs words) (labelFor P word j) = some (entryFor P word j q) := by
  by_cases hHit : ∃ f, f ∈ words.entries ∧ labelFor P f.1 (posting docs f.1).length = labelFor P word j
  · obtain ⟨f, hf, hLabel⟩ := hHit
    have hj := (List.getElem?_eq_some_iff.mp hq).1
    have hLe := length_posting_le docs f.1
    have hLe' := length_posting_le others word
    obtain ⟨rfl, rfl⟩ := hFree.labelFor_inj_of_lt
      (Nat.lt_of_lt_of_le (length_posting_lt_concat hf) (length_posting_of_sublist hMine f.1))
      (Nat.lt_of_lt_of_le hj (length_posting_of_sublist hTheirs word)) (by omega) (by omega) hLabel
    have hNew : (posting (docs ++ [words]) f.1)[(posting docs f.1).length]? = some (docs.length, f.2) := by
      rw [posting_concat_of_mem hf, List.getElem?_concat_length]
    rw [insertPairs_new hP hDocs (hFree.sublist hMine) I hf, hSame _ hNew]
  · rw [insertPairs_old hP I fun f hf hLabel => hHit ⟨f, hf, hLabel⟩]
    exact hOld

end Entries

/-! ## What one request leaves -/

section Step
variable (hP : P.Documented) {B : Build} {r : Nat → Nat} {stem : Bytes → Bytes} {past : List (ι × ClientRequest)}
  {s s' : Shared ι} {c : ι} (h : Served P past s)

include h

theorem setup_served :
    Served P (past ++ [(c, .setup)]) { s with enclave := { s.enclave with auxBool := [], lastNdocs := 0 },
                                              opened := true, link := .opened s.link.storage } where
  room d := by
    rw [documents_own_of_none rfl]
    exact h.room d
  indexed d := by
    rw [documents_own_of_none rfl]
    exact ⟨(h.indexed d).nDocs, (h.indexed d).counters, rfl, (h.indexed d).entries, rfl⟩
  opened _ _ := rfl

theorem opened_of_allowed {a : ClientRequest} (hAllowed : Allowed P (past ++ [(c, a)])) (ha : a ≠ .setup) :
    s.opened = true := h.opened c (hAllowed.mem_setup ha)

theorem room_of_add {words : WordMap} {client : SseClient} {msg : Bytes}
    (hMsg : (s.clients c).addNewDocument P words = .ok (client, msg)) :
    (documents (own c past)).length + 1 < 2 ^ 31 := by
  obtain ⟨_, hLt⟩ := BulkUpdate.nDocs_addNewDocument hMsg
  have hRoom := h.room c
  have hNDocs := (h.indexed c).nDocs
  simp only at hNDocs
  rw [hNDocs, toInt_ofNat hRoom] at hLt
  unfold intMax at hLt
  omega

include hP

theorem add_served {words : WordMap} {answer : Option (List (BitVec 32 × Option B.R))}
    (hAllowed : Allowed P (past ++ [(c, .add words)]))
    (hStep : perform P B r stem s c (.add words) = .ok (s', answer)) : Served P (past ++ [(c, .add words)]) s' := by
  obtain ⟨client, msg, enclave, link, reply, out, inn, hMsg, hOpened, hRun, rfl, rfl⟩ := perform_add_iff.mp hStep
  have hDocs := room_of_add h hMsg
  have hOld := h.indexed c
  have hNul := nulFree_own hAllowed c
  have hFree := (hAllowed.alone c).free
  rw [documents_own_add] at hNul hFree
  obtain ⟨_, hHonest⟩ := add_runs hP hOld
    (hNul words (List.mem_append_right _ (List.mem_singleton_self words))) B r
  cases hMsg.symm.trans (addNewDocument_indexed hOld hDocs)
  obtain ⟨hPair, rfl, _, _⟩ := hRun.unique hHonest
  cases hPair
  have hIndexed := add_indexed hP hOld hDocs hFree
  constructor
  case room =>
    intro d
    obtain rfl | hOwn := eq_or_ne c d
    · rw [documents_own_add, List.length_append, List.length_singleton]
      exact hDocs
    · rw [documents_own_of_ne hOwn]
      exact h.room d
  case indexed =>
    intro d
    obtain rfl | hOwn := eq_or_ne c d
    · simp only [Function.update_self]
      rw [documents_own_add]
      exact hIndexed
    · have hTheirs := h.indexed d
      have hSublist := documents_own_sublist c (past ++ [(c, .add words)])
      have hSublist' := documents_own_sublist d (past ++ [(c, .add words)])
      have hSeparate := hAllowed.separate c d hOwn
      rw [documents_own_add] at hSublist
      rw [documents_own_of_ne hOwn] at hSublist'
      rw [documents_own_add, documents_own_of_ne hOwn] at hSeparate
      simp only [Function.update_of_ne hOwn.symm]
      rw [documents_own_of_ne hOwn]
      refine ⟨hTheirs.nDocs, hTheirs.counters, rfl, ?_, hTheirs.scratch⟩
      intro word j q hq
      apply insertPairs_others hP hAllowed.free hSublist hSublist' hDocs (h.room d) _ (hTheirs.entries word j q hq) hq
      exact fun p hp => hSeparate word j p q hp hq
  case opened => exact fun _ _ => hOpened

theorem search_served {query : Bytes} {answer : Option (List (BitVec 32 × Option B.R))}
    (hAllowed : Allowed P (past ++ [(c, .search query)]))
    (hStep : perform P B r stem s c (.search query) = .ok (s', answer)) :
    Served P (past ++ [(c, .search query)]) s' := by
  obtain ⟨b, enclave, link, reply, out, inn, hMsg, hOpened, hRun, rfl, _⟩ := perform_search_iff.mp hStep
  obtain ⟨tokens, _, hRpn⟩ := ParsedQuery.search_eq hMsg
  obtain ⟨hMax, rfl⟩ := searchRpn_ok hP hRpn
  have hNul := nulFree_own hAllowed c
  rw [documents_own_of_none rfl] at hNul
  have hMine := search_indexed hP B r (h.indexed c) (h.room c) hNul hMax hRun
  have hState := (processMessage_outcome hP B r (h.indexed c) (h.room c) hNul hMax).1
  obtain rfl := hRun.state.symm.trans hState
  constructor
  case room =>
    intro d
    rw [documents_own_of_none rfl]
    exact h.room d
  case indexed =>
    intro d
    rw [documents_own_of_none rfl]
    exact ⟨(h.indexed d).nDocs, (h.indexed d).counters, rfl, (h.indexed d).entries, hMine.scratch⟩
  case opened => exact fun _ _ => hOpened

theorem perform_served {a : ClientRequest} {answer : Option (List (BitVec 32 × Option B.R))}
    (hAllowed : Allowed P (past ++ [(c, a)])) (hStep : perform P B r stem s c a = .ok (s', answer)) :
    Served P (past ++ [(c, a)]) s' := by
  cases a with
  | setup =>
    rw [perform_setup] at hStep
    cases hStep
    exact setup_served h
  | add words => exact add_served hP h hAllowed hStep
  | search query => exact search_served hP h hAllowed hStep

end Step

/-! ## The same request in two states -/

section Agree
variable (hP : P.Documented) {B : Build} {r : Nat → Nat} {stem : Bytes → Bytes}
  {past past' : List (ι × ClientRequest)} {s s' t : Shared ι} {c : ι} (hs : Served P past s) (ht : Served P past' t)
  (hOwn : own c past = own c past') (hClient : s.clients c = t.clients c)
  {answer : Option (List (BitVec 32 × Option B.R))}

include hP ht hClient

theorem add_agrees {words : WordMap} (hAllowed : Allowed P (past ++ [(c, .add words)]))
    (hOpened : t.opened = true) (hStep : perform P B r stem s c (.add words) = .ok (s', answer)) :
    ∃ t', perform P B r stem t c (.add words) = .ok (t', answer) ∧ s'.clients c = t'.clients c := by
  obtain ⟨client, msg, _, _, _, _, _, hMsg, _, _, rfl, rfl⟩ := perform_add_iff.mp hStep
  have hNul := nulFree_own hAllowed c
  rw [documents_own_add] at hNul
  rw [hClient] at hMsg
  obtain ⟨out, hRun⟩ := add_runs hP (ht.indexed c)
    (hNul words (List.mem_append_right _ (List.mem_singleton_self words))) B r
  have hDocs := room_of_add ht hMsg
  have hMsg' := hMsg
  cases hMsg'.symm.trans (addNewDocument_indexed (ht.indexed c) hDocs)
  refine ⟨_, perform_add_iff.mpr ⟨_, _, _, _, _, _, _, hMsg, hOpened, hRun, rfl, rfl⟩, ?_⟩
  simp only [Function.update_self]

include hs hOwn

theorem search_agrees {query : Bytes} (hAllowed : Allowed P (past ++ [(c, .search query)]))
    (hOpened : t.opened = true) (hStep : perform P B r stem s c (.search query) = .ok (s', answer)) :
    ∃ t', perform P B r stem t c (.search query) = .ok (t', answer) ∧ s'.clients c = t'.clients c := by
  obtain ⟨b, _, _, _, _, _, hMsg, _, hRun, rfl, rfl⟩ := perform_search_iff.mp hStep
  obtain ⟨tokens, _, hRpn⟩ := ParsedQuery.search_eq hMsg
  obtain ⟨hMax, rfl⟩ := searchRpn_ok hP hRpn
  have hNul := nulFree_own hAllowed c
  rw [documents_own_of_none rfl] at hNul
  have hTheirs := ht.indexed c
  rw [← hOwn] at hTheirs
  obtain ⟨_, _, _, _, hRun'⟩ := SearchAgreement.processMessage_agrees hP B r (hs.indexed c) hTheirs hClient
    (hs.room c) hNul hMax hRun
  rw [hClient] at hMsg
  exact ⟨_, perform_search_iff.mpr ⟨_, _, _, _, _, _, hMsg, hOpened, hRun', rfl, rfl⟩, hClient⟩

theorem perform_agrees {a : ClientRequest} (hAllowed : Allowed P (past ++ [(c, a)]))
    (hAllowed' : Allowed P (past' ++ [(c, a)])) (hStep : perform P B r stem s c a = .ok (s', answer)) :
    ∃ t', perform P B r stem t c a = .ok (t', answer) ∧ s'.clients c = t'.clients c := by
  cases a with
  | setup =>
    rw [perform_setup] at hStep
    cases hStep
    exact ⟨_, perform_setup P B r stem t c, hClient⟩
  | add words =>
    have hOpened := opened_of_allowed ht hAllowed' (fun h => by cases h)
    exact add_agrees hP ht hClient hAllowed hOpened hStep
  | search query =>
    have hOpened := opened_of_allowed ht hAllowed' (fun h => by cases h)
    exact search_agrees hP hs ht hOwn hClient hAllowed hOpened hStep

end Agree

/-! ## Whole runs -/

/-- After `past`, `s` is shared by all and `t` is what client `c` reaches alone. -/
structure Alike (P : Platform) (c : ι) (past : List (ι × ClientRequest)) (s t : Shared ι) : Prop where
  shared : Served P past s
  alone : Served P (own c past) t
  client : s.clients c = t.clients c

section Runs
variable (hP : P.Documented) (B : Build) (r : Nat → Nat) (stem : Bytes → Bytes)

include hP

theorem unwinding (c : ι) : Unwinding (perform P B r stem) (Allowed P) c (Alike P c) where
  lockstep past a s t hAllowed h := by
    have hAlone := hAllowed.alone c
    rw [own_append, own_cons_self, own_nil] at hAlone
    have hOwn := own_own_self (c := c) past
    refine Simulation.Rel.of_ok ?_ ?_
    · rintro ⟨s', answer⟩ hStep
      obtain ⟨t', hStep', hClient⟩ :=
        perform_agrees hP h.shared h.alone hOwn.symm h.client hAllowed hAlone hStep
      refine ⟨(t', answer), hStep', ⟨perform_served hP h.shared hAllowed hStep, ?_, hClient⟩, rfl⟩
      rw [own_append, own_cons_self, own_nil]
      exact perform_served hP h.alone hAlone hStep'
    · rintro ⟨t', answer⟩ hStep
      obtain ⟨s', hStep', _⟩ :=
        perform_agrees hP h.alone h.shared hOwn h.client.symm hAlone hAllowed hStep
      exact ⟨(s', answer), hStep'⟩
  unseen past d a s s' t answer hNe hAllowed h hStep := by
    refine ⟨perform_served hP h.shared hAllowed hStep, ?_, ?_⟩
    · rw [own_append, own_cons_of_ne hNe, own_nil, List.append_nil]
      exact h.alone
    · rw [clients_perform hNe hStep]
      exact h.client

end Runs

/-! ## Two clients and one word -/

/-- The documents that the searches of a run return. -/
def found (events : List (Bool × ClientRequest)) : Except Fault (List (Bool × List (BitVec 32))) :=
  (run (perform Reference.platform (Reference.build false) fixedChoice id) (start ⟨fun _ => none, 0⟩) events).map
    fun p => p.2.map fun answer => (answer.1, answer.2.map Prod.fst)

theorem found_own {events : List (Bool × ClientRequest)} {answers : List (Bool × List (BitVec 32))}
    (h : Undisturbed (perform Reference.platform (Reference.build false) fixedChoice id)
      (start ⟨fun _ => none, 0⟩) events) (hFound : found events = .ok answers) (c : Bool) :
    found (own c events) = .ok (own c answers) := by
  unfold found at hFound ⊢
  rcases hRun : run (perform Reference.platform (Reference.build false) fixedChoice id)
    (start ⟨fun _ => none, 0⟩) events with e | ⟨s, replies⟩
  · rw [hRun] at hFound
    cases hFound
  · rw [hRun] at hFound
    cases hFound
    obtain ⟨t, hAlone⟩ := h.answers s replies hRun c
    rw [hAlone, own_map]
    rfl

theorem collisionFree_twice {docs : List WordMap} {word : Bytes}
    (hWord : ∀ words, words ∈ docs → ∀ w, w ∈ words.keys → w = word) (hLength : (posting docs word).length ≤ 2)
    (hNe : labelFor Reference.platform word 0 ≠ labelFor Reference.platform word 1) :
    CollisionFree Reference.platform docs := by
  have hIndexed : ∀ w, w ∈ indexedWords docs → w = word := by
    rintro w ⟨words, hWords, hKey⟩
    exact hWord words hWords w hKey
  refine ⟨fun w hw w' hw' _ => (hIndexed w hw).trans (hIndexed w' hw').symm, ?_⟩
  rintro p ⟨w, hw, j, hj, rfl⟩ p' ⟨w', hw', j', hj', rfl⟩ hEq
  obtain rfl := hIndexed w hw
  obtain rfl := hIndexed w' hw'
  have hSame : j = j' := by
    by_contra hDiffer
    have hCases : j = 0 ∧ j' = 1 ∨ j = 1 ∧ j' = 0 := by omega
    obtain ⟨rfl, rfl⟩ | ⟨rfl, rfl⟩ := hCases
    · exact hNe hEq
    · exact hNe hEq.symm
  rw [hSame]

theorem labelFor_note_ne :
    labelFor Reference.platform [0x61] 0 ≠ labelFor Reference.platform [0x61] 1 := by decide +kernel

/-- Both clients add the same first document, and both search for its word. -/
def sameNote : List (Bool × ClientRequest) :=
  [(false, .setup), (true, .setup), (false, .add (note [0x61] 1)), (true, .add (note [0x61] 1)),
   (false, .search [0x61]), (true, .search [0x61])]

/-- Client `true` adds its second document under the label of the other client's first. -/
def sharedWord : List (Bool × ClientRequest) :=
  [(false, .setup), (true, .setup), (false, .add (note [0x61] 1)), (true, .add .empty),
   (true, .add (note [0x61] 1)), (false, .search [0x61])]

theorem words_note {words : WordMap} (h : words = note [0x61] 1 ∨ words.keys = []) :
    ∀ word, word ∈ words.keys → word = [0x61] := by
  intro word hWord
  obtain rfl | hNone := h
  · exact List.mem_singleton.mp hWord
  · rw [hNone] at hWord
    cases hWord

end Bisen.Isolation
