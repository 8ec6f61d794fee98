import Bisen.BulkUpdate
import Bisen.Lib.Noninterference
import Bisen.SearchAgreement

/-! # Clients that share one enclave

Every client has its own counters; the enclave, its socket and the service's map are shared. A
request is carried out whole before the next one. All clients derive their labels from the same
zero key, so two clients that add the same word write under the same labels.
-/
namespace Bisen.SharedEnclave
open Wire Socket SseClient SseIee SseServer QueryMessage PostingLists Session PostingIndex Noninterference
set_option autoImplicit false

/-- An `add` is one document's message; a bulk update is several of them in a row. -/
inductive ClientRequest where
  | setup
  | add (words : WordMap)
  | search (query : Bytes)

/-- `opened` tells whether `init_pipes` has been called, so that `server_socket` is a connection. -/
structure Shared (ι : Type) where
  clients : ι → SseClient
  enclave : Enclave
  opened : Bool
  link : Link

variable {ι : Type}

def start (storage : Storage) : Shared ι := ⟨fun _ => SseClient.init, ⟨0, [], 0, 0⟩, false, .opened storage⟩

/-- One message to the enclave, with all it exchanges with the service. -/
def exchange (p : Enclaved (Enclave × Bytes)) (link : Link) : Except Fault (Enclave × Link × Bytes) :=
  let o := p.run Link.peer link
  o.result.map fun a => (a.1, o.state, a.2)

/-- Before the first setup there is no connection, and nobody answers. -/
def Shared.send (s : Shared ι) (p : Enclaved (Enclave × Bytes)) : Except Fault (Enclave × Link × Bytes) :=
  if s.opened then exchange p s.link else .error .blocked

theorem exchange_eq_ok_iff {p : Enclaved (Enclave × Bytes)} {link link' : Link} {enclave : Enclave}
    {reply : Bytes} :
    exchange p link = .ok (enclave, link', reply) ↔
      ∃ out inn, Runs Link.peer p link (enclave, reply) link' out inn := by
  unfold exchange Runs
  constructor
  · intro h
    rcases hRun : p.run Link.peer link with ⟨e | a, l, out, inn⟩
    · rw [hRun] at h
      cases h
    · rw [hRun] at h
      cases h
      exact ⟨out, inn, rfl⟩
  · rintro ⟨out, inn, h⟩
    rw [h]
    rfl

theorem send_eq_ok_iff {s : Shared ι} {p : Enclaved (Enclave × Bytes)} {enclave : Enclave} {link : Link}
    {reply : Bytes} :
    s.send p = .ok (enclave, link, reply) ↔
      s.opened = true ∧ ∃ out inn, Runs Link.peer p s.link (enclave, reply) link out inn := by
  rw [Shared.send]
  split
  · case isTrue hOpened => rw [exchange_eq_ok_iff, and_iff_right hOpened]
  · case isFalse hClosed =>
    constructor
    · intro h
      cases h
    · rintro ⟨hOpened, _⟩
      exact absurd hOpened hClosed

section Perform
variable [DecidableEq ι] (P : Platform) (B : Build) (r : Nat → Nat) (stem : Bytes → Bytes)

/-- A request of client `c`, with what its search returns. Every setup opens a new connection. -/
def perform (s : Shared ι) (c : ι) : ClientRequest → Except Fault (Shared ι × Option (List (BitVec 32 × Option B.R)))
  | .setup => do
    let (enclave, link, _) ← exchange (processMessage P B r s.enclave generateSetupMsg) (.opened s.link.storage)
    pure ({ s with enclave := enclave, opened := true, link := link }, none)
  | .add words => do
    let (client, msg) ← (s.clients c).addNewDocument P words
    let (enclave, link, _) ← s.send (f P B r s.enclave msg)
    pure ({ s with clients := Function.update s.clients c client, enclave := enclave, link := link }, none)
  | .search query => do
    let b ← (s.clients c).search P stem query
    let (enclave, link, reply) ← s.send (processMessage P B r s.enclave b.written)
    pure ({ s with enclave := enclave, link := link }, some (Response.decode B reply))

/-! ## What a request can do -/

theorem perform_setup (s : Shared ι) (c : ι) :
    perform P B r stem s c .setup =
      .ok ({ s with enclave := { s.enclave with auxBool := [], lastNdocs := 0 }, opened := true,
                    link := .opened s.link.storage }, none) := by
  have hExchange := exchange_eq_ok_iff.mpr ⟨_, _, setup_runs P B r s.link.storage s.enclave⟩
  rw [perform, hExchange]
  rfl

variable {P B r stem}

theorem perform_add_iff {s s' : Shared ι} {c : ι} {words : WordMap}
    {answer : Option (List (BitVec 32 × Option B.R))} :
    perform P B r stem s c (.add words) = .ok (s', answer) ↔
      ∃ client msg enclave link reply out inn, (s.clients c).addNewDocument P words = .ok (client, msg) ∧
        s.opened = true ∧ Runs Link.peer (f P B r s.enclave msg) s.link (enclave, reply) link out inn ∧
        s' = { s with clients := Function.update s.clients c client, enclave := enclave, link := link } ∧
        answer = none := by
  rw [perform]
  constructor
  · intro h
    obtain ⟨⟨client, msg⟩, hMsg, h⟩ := bind_eq_ok_iff.mp h
    obtain ⟨⟨enclave, link, reply⟩, hSend, h⟩ := bind_eq_ok_iff.mp h
    cases h
    obtain ⟨hOpened, out, inn, hRun⟩ := send_eq_ok_iff.mp hSend
    exact ⟨client, msg, enclave, link, reply, out, inn, hMsg, hOpened, hRun, rfl, rfl⟩
  · rintro ⟨client, msg, enclave, link, reply, out, inn, hMsg, hOpened, hRun, rfl, rfl⟩
    have hSend := send_eq_ok_iff.mpr ⟨hOpened, out, inn, hRun⟩
    rw [hMsg]
    simp only [bind, Except.bind, hSend]
    rfl

theorem perform_search_iff {s s' : Shared ι} {c : ι} {query : Bytes}
    {answer : Option (List (BitVec 32 × Option B.R))} :
    perform P B r stem s c (.search query) = .ok (s', answer) ↔
      ∃ b enclave link reply out inn, (s.clients c).search P stem query = .ok b ∧ s.opened = true ∧
        Runs Link.peer (processMessage P B r s.enclave b.written) s.link (enclave, reply) link out inn ∧
        s' = { s with enclave := enclave, link := link } ∧ answer = some (Response.decode B reply) := by
  rw [perform]
  constructor
  · intro h
    obtain ⟨b, hMsg, h⟩ := bind_eq_ok_iff.mp h
    obtain ⟨⟨enclave, link, reply⟩, hSend, h⟩ := bind_eq_ok_iff.mp h
    cases h
    obtain ⟨hOpened, out, inn, hRun⟩ := send_eq_ok_iff.mp hSend
    exact ⟨b, enclave, link, reply, out, inn, hMsg, hOpened, hRun, rfl, rfl⟩
  · rintro ⟨b, enclave, link, reply, out, inn, hMsg, hOpened, hRun, rfl, rfl⟩
    have hSend := send_eq_ok_iff.mpr ⟨hOpened, out, inn, hRun⟩
    rw [hMsg]
    simp only [bind, Except.bind, hSend]
    rfl

theorem clients_perform {s s' : Shared ι} {c d : ι} {a : ClientRequest}
    {answer : Option (List (BitVec 32 × Option B.R))} (hNe : d ≠ c)
    (h : perform P B r stem s d a = .ok (s', answer)) : s'.clients c = s.clients c := by
  cases a with
  | setup =>
    rw [perform_setup] at h
    cases h
    rfl
  | add words =>
    obtain ⟨client, _, _, _, _, _, _, _, _, _, rfl, _⟩ := perform_add_iff.mp h
    exact Function.update_of_ne hNe.symm ..
  | search query =>
    obtain ⟨_, _, _, _, _, _, _, _, _, rfl, _⟩ := perform_search_iff.mp h
    rfl

end Perform

/-! ## The documents of each client -/

def ClientRequest.added : ClientRequest → Option WordMap
  | .add words => some words
  | _ => none

def documents (events : List (ι × ClientRequest)) : List WordMap := events.filterMap fun e => e.2.added

theorem documents_append (pre post : List (ι × ClientRequest)) :
    documents (pre ++ post) = documents pre ++ documents post := List.filterMap_append ..

variable [DecidableEq ι]

theorem documents_own_sublist (c : ι) (events : List (ι × ClientRequest)) :
    (documents (own c events)).Sublist (documents events) := List.filter_sublist.filterMap _

theorem documents_own_of_ne {c d : ι} (h : c ≠ d) (past : List (ι × ClientRequest)) (a : ClientRequest) :
    documents (own d (past ++ [(c, a)])) = documents (own d past) := by
  rw [own_append, own_cons_of_ne h, own_nil, List.append_nil]

theorem documents_own_of_none {a : ClientRequest} (h : a.added = none) (past : List (ι × ClientRequest)) (c d : ι) :
    documents (own d (past ++ [(c, a)])) = documents (own d past) := by
  obtain rfl | hOwn := eq_or_ne c d
  · rw [own_append, own_cons_self, documents_append]
    simp [documents, h]
  · exact documents_own_of_ne hOwn past a

theorem documents_own_add (past : List (ι × ClientRequest)) (c : ι) (words : WordMap) :
    documents (own c (past ++ [(c, .add words)])) = documents (own c past) ++ [words] := by
  rw [own_append, own_cons_self, documents_append]
  rfl

/-- The first request of every client is its setup. -/
def SetsUpFirst (events : List (ι × ClientRequest)) : Prop :=
  ∀ c e, (own c events).head? = some e → e.2 = .setup

/-- Where two clients have an entry for the same word at the same place, it is the same entry. -/
def Separate (events : List (ι × ClientRequest)) : Prop :=
  ∀ c d, c ≠ d → ∀ (word : Bytes) (j : Nat) (p q : Nat × BitVec 32),
    (posting (documents (own c events)) word)[j]? = some p →
    (posting (documents (own d events)) word)[j]? = some q → p = q

structure Allowed (P : Platform) (events : List (ι × ClientRequest)) : Prop where
  first : SetsUpFirst events
  nulFree : ∀ words, words ∈ documents events → ∀ word, word ∈ words.keys → NulFree word
  free : CollisionFree P (documents events)
  separate : Separate events

namespace Allowed
variable {P : Platform} {events pre post past : List (ι × ClientRequest)}

theorem of_append (h : Allowed P (pre ++ post)) : Allowed P pre where
  first c e he := by
    apply h.first c e
    rw [own_append, List.head?_append, he, Option.some_or]
  nulFree words hWords := h.nulFree words (documents_append pre post ▸ List.mem_append_left _ hWords)
  free := by
    have hFree := h.free
    rw [documents_append] at hFree
    exact hFree.sublist (List.sublist_append_left _ _)
  separate c d hNe word j p q hp hq := by
    have hSame := h.separate c d hNe word j p q
    rw [own_append, own_append, documents_append, documents_append] at hSame
    exact hSame (posting_append_of_some hp _) (posting_append_of_some hq _)

theorem alone (h : Allowed P events) (c : ι) : Allowed P (own c events) where
  first d e he := by
    obtain rfl | hOwn := eq_or_ne c d
    · rw [own_own_self] at he
      exact h.first c e he
    · rw [own_own_of_ne hOwn] at he
      cases he
  nulFree words hWords := h.nulFree words ((documents_own_sublist c events).subset hWords)
  free := h.free.sublist (documents_own_sublist c events)
  separate d d' hNe word j p q hp hq := by
    obtain rfl | hOwn := eq_or_ne c d
    · rw [own_own_of_ne hNe] at hq
      cases hq
    · rw [own_own_of_ne hOwn] at hp
      cases hp

/-- A request that is no setup comes after a setup of the same client. -/
theorem mem_setup {c : ι} {a : ClientRequest} (h : Allowed P (past ++ [(c, a)])) (ha : a ≠ .setup) :
    (c, .setup) ∈ past := by
  have hFirst := h.first c
  rw [own_append, own_cons_self] at hFirst
  rcases hPast : own c past with _ | ⟨e, rest⟩
  · rw [hPast] at hFirst
    exact absurd (hFirst (c, a) rfl) ha
  · rw [hPast] at hFirst
    have hMem : e ∈ own c past := by
      rw [hPast]
      exact List.mem_cons_self
    obtain ⟨hMem, hOwner⟩ := List.mem_filter.mp hMem
    have hSetup := hFirst e rfl
    have hOwn := of_decide_eq_true hOwner
    rwa [← hOwn, ← hSetup]

end Allowed
end Bisen.SharedEnclave
