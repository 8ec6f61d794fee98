import Bisen.QueryMessage
import Bisen.Retrieval

/-! # What the storage service sees of a search

The traffic from the enclave is a function of the counters and keys of the word tokens. Nothing
of the operators, their positions, the number of documents, or the entries that come back is in it.
-/
namespace Bisen.Leakage
open Wire Socket SseIee Retrieval
set_option autoImplicit false

/-- The traffic of a search for the given words. -/
def trace (P : Platform) (r : Nat → Nat) (words : List (Nat × Bytes)) : List Bytes :=
  let labels := Shuffle.shuffle r
    (words.flatMap fun w => (List.range w.1).map fun j => labelOf P w.2 (.ofNat 32 j))
  let total := (words.map Prod.fst).sum % 2 ^ 32
  [opStartSearch] :: requestsFrom labels total total 0

theorem wordCounters_eq (query : VecToken) : wordCounters query = (wordKeys query).map Prod.fst := by
  rw [wordCounters, wordKeys, List.map_map]
  rfl

theorem retrieve_sends {P : Platform} {r : Nat → Nat} {σ : Type} {peer : Peer Fault σ} {s s' : σ}
    {enclave enclave' : Enclave} {inp : Bytes} {ev : Evaluated} {out inn : List Bytes}
    (h : Runs peer (retrieve P r enclave inp) s (enclave', ev) s' out inn) :
    ∃ d, decode inp = .ok d ∧ out = trace P r (wordKeys d.query) := by
  obtain ⟨d, _, _, out₁, hDecode, hFetched, rfl, _⟩ := retrieve_runs P h
  refine ⟨d, hDecode, ?_⟩
  rw [hFetched.sent, (decode_consistent hDecode).labels, wordCounters_eq, Shuffle.map_shuffle,
    map_requestLabel_visited]
  rfl

theorem search_runs {P : Platform} {B : Build} {r : Nat → Nat} {σ : Type} {peer : Peer Fault σ} {s s' : σ}
    {enclave enclave' : Enclave} {inp reply : Bytes} {out inn : List Bytes}
    (h : Runs peer (SseIee.search P B r enclave inp) s (enclave', reply) s' out inn) :
    ∃ ev, Runs peer (retrieve P r enclave inp) s (enclave', ev) s' out inn ∧
      reply = Response.respond B (B.reread ev.query) ev.nDocs ev.responseDocs := by
  rw [SseIee.search] at h
  obtain ⟨⟨enclave₁, ev⟩, _, _, _, _, _, hRetrieve, hRet, rfl, rfl⟩ := runs_bind_iff.mp h
  obtain ⟨hPair, rfl, rfl, rfl⟩ := runs_ret_iff.mp hRet
  cases hPair
  exact ⟨ev, by rwa [List.append_nil, List.append_nil], rfl⟩

/-- Two accepted searches with the same words send the same bytes, over any two peers, and with
scoring their replies are equally long. -/
theorem search_reveals_only_words (P : Platform) (B : Build) (r : Nat → Nat) {σ₁ σ₂ : Type}
    (peer₁ : Peer Fault σ₁) (peer₂ : Peer Fault σ₂) {s₁ s₁' : σ₁} {s₂ s₂' : σ₂}
    {enclave₁ enclave₁' enclave₂ enclave₂' : Enclave} {inp₁ inp₂ reply₁ reply₂ : Bytes} {d₁ d₂ : Decoded}
    {out₁ inn₁ out₂ inn₂ : List Bytes} (hDecode₁ : decode inp₁ = .ok d₁) (hDecode₂ : decode inp₂ = .ok d₂)
    (hWords : wordKeys d₁.query = wordKeys d₂.query)
    (hRun₁ : Runs peer₁ (SseIee.search P B r enclave₁ inp₁) s₁ (enclave₁', reply₁) s₁' out₁ inn₁)
    (hRun₂ : Runs peer₂ (SseIee.search P B r enclave₂ inp₂) s₂ (enclave₂', reply₂) s₂' out₂ inn₂) :
    out₁ = out₂ ∧ (B.bisenScoring = true → reply₁.length = reply₂.length) := by
  obtain ⟨ev₁, hRetrieve₁, rfl⟩ := search_runs hRun₁
  obtain ⟨ev₂, hRetrieve₂, rfl⟩ := search_runs hRun₂
  obtain ⟨d₁', hEq₁, hOut₁⟩ := retrieve_sends hRetrieve₁
  obtain ⟨d₂', hEq₂, hOut₂⟩ := retrieve_sends hRetrieve₂
  cases hDecode₁.symm.trans hEq₁
  cases hDecode₂.symm.trans hEq₂
  refine ⟨by rw [hOut₁, hOut₂, hWords], fun hScoring => ?_⟩
  rw [Response.length_respond B hScoring, Response.length_respond B hScoring]

def keyOfA : Bytes :=
  [0x96, 0x15, 0xa9, 0x5d, 0x4a, 0x33, 0x61, 0x18, 0xc4, 0x35, 0xb9, 0xcd, 0x54, 0xc5, 0xe8, 0x64,
   0x4a, 0xb9, 0x56, 0xb5, 0x73, 0xaa, 0x29, 0x26, 0x27, 0x4a, 0x12, 0x80, 0xb6, 0x67, 0x47, 0x13]

/-- A query message for `a` followed by operators, answered with one entry. -/
def searchForA (operators : Bytes) (nDocs docId frequency : BitVec 32) :
    Outcome Fault (List Bytes) (Enclave × Bytes) :=
  let entry := (entryOf Reference.platform (SseClient.record docId 0 frequency keyOfA)).2
  (SseIee.search Reference.platform (Reference.build true) fixedChoice ⟨0, [], 0, 0⟩
    (opSrc :: wordToken :: (word32 1 ++ keyOfA ++ operators ++ metaToken :: word32 nDocs))).run
      (.scripted .blocked) [entry.run Reference.platform]

def queryForA (operators : Bytes) : VecToken :=
  (operators.map fun op => { IeeToken.zero with type := op }).foldl VecToken.vtPushBack
    ((VecToken.vtInit VecToken.maxQueryTokens).vtPushBack (wordTkn 1 keyOfA))

theorem sent_searchForA_eq : (searchForA [] 1 0 1).sent = (searchForA [notToken, notToken] 3 2 5).sent := by
  have hPlain : (searchForA [] 1 0 1).result.isOk = true := by decide +kernel
  have hNegated : (searchForA [notToken, notToken] 3 2 5).result.isOk = true := by decide +kernel
  obtain ⟨⟨_, _⟩, hRun₁⟩ := Program.runs_of_isOk hPlain
  obtain ⟨⟨_, _⟩, hRun₂⟩ := Program.runs_of_isOk hNegated
  have hDecode₁ : decode (opSrc :: wordToken :: (word32 1 ++ keyOfA ++ [] ++ metaToken :: word32 1)) =
      .ok ⟨queryForA [], 1, 1, 1, 43⟩ := by decide +kernel
  have hDecode₂ : decode (opSrc :: wordToken :: (word32 1 ++ keyOfA ++ [notToken, notToken] ++
      metaToken :: word32 3)) = .ok ⟨queryForA [notToken, notToken], 3, 1, 1, 45⟩ := by decide +kernel
  exact (search_reveals_only_words _ _ _ _ _ hDecode₁ hDecode₂ (by decide +kernel) hRun₁ hRun₂).1

end Bisen.Leakage
