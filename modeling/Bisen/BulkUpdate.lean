import Bisen.Lib.Packet
import Bisen.Reference
import Bisen.Session

/-! # A bulk update

`bisen_update` packs the add messages of several documents into one message. The enclave passes
every one of them to `f` once, with exactly its own bytes, so the bulk message does what the add
messages do one by one.
-/
namespace Bisen.BulkUpdate
open Wire Socket SseClient SseIee Session
set_option autoImplicit false

/-- The add messages of the documents in order, with the client they leave. -/
def addDocuments (P : Platform) (client : SseClient) : List WordMap → Except Fault (SseClient × List Bytes)
  | [] => .ok (client, [])
  | words :: docs => do
    let (client, msg) ← client.addNewDocument P words
    let (client, msgs) ← addDocuments P client docs
    pure (client, msg :: msgs)

/-- The buffer of `bisen_update`: the count, then every message behind its length. -/
def bulkBuffer (msgs : List Bytes) : Bytes :=
  opIeeBisenBulk :: (word64 (.ofNat 64 msgs.length) ++ msgs.flatMap Packet.encode)

def bisenUpdate (P : Platform) (client : SseClient) (docs : List WordMap) : Except Fault (SseClient × Bytes) := do
  let (client, msgs) ← addDocuments P client docs
  pure (client, bulkBuffer msgs)

section Parts
variable (P : Platform) (B : Build) (r : Nat → Nat)

/-- Every message to `f`, as the bulk branch calls it. -/
def passEach (enclave : Enclave) (msgs : List Bytes) : Enclaved Enclave :=
  msgs.foldlM (fun enclave msg => do
    let (enclave, _) ← f P B r enclave msg
    pure enclave) enclave

/-- The runs of the messages sent one by one, each behind the operation byte of the single requests. -/
inductive OneByOne {σ : Type} (peer : Peer Fault σ) :
    Enclave → σ → List Bytes → Enclave → σ → List Bytes → List Bytes → Prop
  | nil (enclave : Enclave) (s : σ) : OneByOne peer enclave s [] enclave s [] []
  | cons {enclave enclave₁ enclave' : Enclave} {s s₁ s' : σ} {msg reply : Bytes} {msgs : List Bytes}
      {out₁ inn₁ out₂ inn₂ : List Bytes}
      (hRun : Runs peer (processMessage P B r enclave (opRbisen :: msg)) s (enclave₁, reply) s₁ out₁ inn₁)
      (hRest : OneByOne peer enclave₁ s₁ msgs enclave' s' out₂ inn₂) :
      OneByOne peer enclave s (msg :: msgs) enclave' s' (out₁ ++ out₂) (inn₁ ++ inn₂)

/-- What the enclave makes of `bulk` is what it makes of `msgs`. -/
structure EqualsParts (msgs : List Bytes) (bulk : Bytes) : Prop where
  count : (readWord64 ((bulk.drop 1).take 8)).toNat = msgs.length
  counted : msgs.length < 2 ^ 32
  nested : Packet.decodeMany msgs.length (bulk.drop 9) = some (msgs, [])
  passed : ∀ enclave, processMessage P B r enclave bulk = passEach P B r enclave msgs >>= fun enclave =>
    pure (enclave, ok)
  runs : ∀ (σ : Type) (peer : Peer Fault σ) (enclave enclave' : Enclave) (reply : Bytes) (s s' : σ)
    (out inn : List Bytes),
    Runs peer (processMessage P B r enclave bulk) s (enclave', reply) s' out inn ↔
      reply = ok ∧ OneByOne P B r peer enclave s msgs enclave' s' out inn

/-! ## The enclave's side -/

theorem bulkLoop_eq {n : Nat} {tmp rest : Bytes} {msgs : List Bytes}
    (h : Packet.decodeMany n tmp = some (msgs, rest)) (enclave : Enclave) :
    bulkLoop P B r n enclave tmp = passEach P B r enclave msgs := by
  induction n generalizing tmp msgs enclave with
  | zero =>
    cases h
    rfl
  | succ n ih =>
    rw [Packet.decodeMany] at h
    obtain ⟨⟨msg, tail⟩, hDecode, h⟩ := Option.bind_eq_some_iff.mp h
    obtain ⟨⟨msgs, _⟩, hRest, hEq⟩ := Option.bind_eq_some_iff.mp h
    cases hEq
    simp only [Packet.decode] at hDecode
    split at hDecode
    · cases hDecode
    · case isFalse hLength =>
      cases hDecode
      rw [bulkLoop, if_neg hLength, Program.lift_ok, Program.ret_bind, passEach, List.foldlM_cons,
        Program.bind_assoc]
      exact congrArg _ (funext fun p => ih hRest p.1)

theorem processMessage_single (enclave : Enclave) (msg : Bytes) :
    processMessage P B r enclave (opRbisen :: msg) = f P B r enclave msg := by
  rw [processMessage, if_neg (by decide), if_pos rfl]

theorem runs_passEach_iff {σ : Type} {peer : Peer Fault σ} {msgs : List Bytes} {enclave enclave' : Enclave}
    {s s' : σ} {out inn : List Bytes} :
    Runs peer (passEach P B r enclave msgs) s enclave' s' out inn ↔
      OneByOne P B r peer enclave s msgs enclave' s' out inn := by
  induction msgs generalizing enclave s out inn with
  | nil =>
    constructor
    · intro h
      obtain ⟨rfl, rfl, rfl, rfl⟩ := runs_ret_iff.mp h
      exact .nil enclave s
    · intro h
      cases h
      rfl
  | cons msg msgs ih =>
    rw [passEach, List.foldlM_cons, Program.bind_assoc]
    constructor
    · intro h
      obtain ⟨⟨enclave₁, reply⟩, s₁, out₁, inn₁, out₂, inn₂, hMsg, hRest, rfl, rfl⟩ := runs_bind_iff.mp h
      rw [← processMessage_single] at hMsg
      exact .cons hMsg (ih.mp hRest)
    · intro h
      cases h with
      | cons hRun hRest =>
        rw [processMessage_single] at hRun
        exact hRun.bind (ih.mpr hRest)

end Parts
/-! ## The client's side -/

section Client
variable {P : Platform} {client client' : SseClient}

theorem nDocs_addWords {docId : BitVec 32} {entries : List (Bytes × BitVec 32)} {data msg : Bytes}
    (h : entries.foldlM (addWord P docId) (client, data) = .ok (client', msg)) : client'.nDocs = client.nDocs := by
  induction entries generalizing client data with
  | nil =>
    cases h
    rfl
  | cons f entries ih =>
    rw [List.foldlM_cons] at h
    obtain ⟨⟨client₁, data₁⟩, hWord, hRest⟩ := bind_eq_ok_iff.mp h
    obtain ⟨c, _, hStep⟩ := bind_eq_ok_iff.mp hWord
    cases hStep
    have hNDocs := ih hRest
    exact hNDocs

theorem toInt_succ {x : BitVec 32} (h : x.toInt ≠ intMax) : (x + 1).toInt = x.toInt + 1 := by
  have hLt := x.isLt
  unfold intMax at h
  rw [BitVec.toInt_eq_toNat_cond] at h
  have hOne : (1 : BitVec 32).toNat = 1 := rfl
  rw [BitVec.toInt_eq_toNat_cond, BitVec.toInt_eq_toNat_cond, BitVec.toNat_add, hOne]
  omega

/-- Every document takes a number of its own. -/
theorem nDocs_addNewDocument {words : WordMap} {msg : Bytes}
    (h : client.addNewDocument P words = .ok (client', msg)) :
    client'.nDocs.toInt = client.nDocs.toInt + 1 ∧ client.nDocs.toInt < intMax := by
  obtain ⟨⟨client₁, id⟩, hNew, hWords⟩ := bind_eq_ok_iff.mp h
  have hLt := client.nDocs.toInt_lt
  rw [newDoc] at hNew
  split at hNew
  · cases hNew
  · case isFalse hRoom =>
    cases hNew
    rw [nDocs_addWords hWords, toInt_succ hRoom]
    unfold intMax at hRoom ⊢
    omega

theorem length_addDocuments {docs : List WordMap} {msgs : List Bytes}
    (h : addDocuments P client docs = .ok (client', msgs)) :
    msgs.length = docs.length ∧ client.nDocs.toInt + docs.length ≤ intMax := by
  induction docs generalizing client msgs with
  | nil =>
    have hLt := client.nDocs.toInt_lt
    cases h
    unfold intMax
    simp only [List.length_nil, true_and]
    omega
  | cons words docs ih =>
    obtain ⟨⟨client₁, msg⟩, hMsg, h⟩ := bind_eq_ok_iff.mp h
    obtain ⟨⟨client₂, msgs⟩, hRest, h⟩ := bind_eq_ok_iff.mp h
    cases h
    obtain ⟨hLength, hDocs⟩ := ih hRest
    obtain ⟨hSucc, _⟩ := nDocs_addNewDocument hMsg
    rw [List.length_cons, List.length_cons, hLength]
    omega

theorem nDocs_addDocuments {docs : List WordMap} {msgs : List Bytes}
    (h : addDocuments P client docs = .ok (client', msgs)) :
    client'.nDocs.toInt = client.nDocs.toInt + docs.length := by
  induction docs generalizing client msgs with
  | nil =>
    cases h
    simp
  | cons words docs ih =>
    obtain ⟨⟨client₁, msg⟩, hMsg, h⟩ := bind_eq_ok_iff.mp h
    obtain ⟨⟨client₂, msgs⟩, hRest, h⟩ := bind_eq_ok_iff.mp h
    cases h
    have hSucc := (nDocs_addNewDocument hMsg).1
    have hDocs := ih hRest
    rw [List.length_cons]
    omega

end Client

section Bulk
variable {P : Platform} (B : Build) (r : Nat → Nat) {client client' : SseClient} {docs : List WordMap}
  {msgs : List Bytes}

theorem equalsParts_of_size (hCount : msgs.length < 2 ^ 32) (hSize : ∀ msg, msg ∈ msgs → msg.length < 2 ^ 64) :
    EqualsParts P B r msgs (bulkBuffer msgs) := by
  have hNested : Packet.decodeMany msgs.length (msgs.flatMap Packet.encode) = some (msgs, []) := by
    have hMany := Packet.decodeMany_encode hSize []
    rwa [List.append_nil] at hMany
  have hTake : (word64 (.ofNat 64 msgs.length) ++ msgs.flatMap Packet.encode).take 8 =
      word64 (.ofNat 64 msgs.length) := List.take_left' (length_word64 _)
  have hDrop : (word64 (.ofNat 64 msgs.length) ++ msgs.flatMap Packet.encode).drop 8 =
      msgs.flatMap Packet.encode := List.drop_left' (length_word64 _)
  have hRead : (readWord64 (word64 (.ofNat 64 msgs.length))).toNat = msgs.length := by
    rw [readWord64_word64, BitVec.toNat_ofNat, Nat.mod_eq_of_lt (by omega)]
  have hPassed : ∀ enclave, processMessage P B r enclave (bulkBuffer msgs) =
      passEach P B r enclave msgs >>= fun enclave => pure (enclave, ok) := by
    intro enclave
    have hRoom : ¬ (word64 (.ofNat 64 msgs.length) ++ msgs.flatMap Packet.encode).length < 8 := by
      rw [List.length_append, length_word64]
      omega
    rw [bulkBuffer, processMessage, if_pos rfl, if_neg hRoom, Program.lift_ok, Program.ret_bind, hTake, hDrop,
      hRead, bulkLoop_eq P B r hNested]
  refine ⟨?_, hCount, ?_, hPassed, ?_⟩
  · rw [bulkBuffer, List.drop_one, List.tail_cons, hTake, hRead]
  · rw [bulkBuffer, List.drop_succ_cons, hDrop, hNested]
  · intro σ peer enclave enclave' reply s s' out inn
    rw [hPassed]
    constructor
    · intro h
      obtain ⟨enclave₁, s₁, out₁, inn₁, out₂, inn₂, hEach, hRet, rfl, rfl⟩ := runs_bind_iff.mp h
      obtain ⟨hPair, rfl, rfl, rfl⟩ := runs_ret_iff.mp hRet
      cases hPair
      rw [List.append_nil, List.append_nil]
      exact ⟨rfl, (runs_passEach_iff P B r).mp hEach⟩
    · rintro ⟨rfl, hEach⟩
      have hRun : Runs peer (passEach P B r enclave msgs >>= fun enclave => pure (enclave, ok)) s (enclave', ok)
          s' (out ++ []) (inn ++ []) := ((runs_passEach_iff P B r).mpr hEach).bind rfl
      rwa [List.append_nil, List.append_nil] at hRun

/-- The sizes of the messages are `size_t`. -/
theorem bisenUpdate_equalsParts (hMsgs : addDocuments P client docs = .ok (client', msgs))
    (hSize : ∀ msg, msg ∈ msgs → msg.length < 2 ^ 64) :
    bisenUpdate P client docs = .ok (client', bulkBuffer msgs) ∧
      EqualsParts P B r msgs (bulkBuffer msgs) := by
  obtain ⟨hLength, hDocs⟩ := length_addDocuments hMsgs
  have hLow := client.nDocs.le_toInt
  unfold intMax at hDocs
  refine ⟨by rw [bisenUpdate, hMsgs]; rfl, equalsParts_of_size B r ?_ hSize⟩
  omega

/-- An empty document and one that contains `a` twice. -/
def twoDocuments : List WordMap := [⟨[], by simp⟩, ⟨[([0x61], 2)], by simp⟩]

theorem bisenUpdate_equalsParts_twoDocuments :
    ∃ client' msgs, bisenUpdate Reference.platform SseClient.init twoDocuments = .ok (client', bulkBuffer msgs) ∧
      EqualsParts Reference.platform (Reference.build true) fixedChoice msgs (bulkBuffer msgs) := by
  have hMsgs : addDocuments Reference.platform SseClient.init twoDocuments =
      .ok (⟨Function.update (fun _ => none) [0x61] (some 1), 2⟩,
        [[opAdd], opAdd :: record 1 0 2 (kW Reference.platform [0x61])]) := rfl
  refine ⟨_, _, bisenUpdate_equalsParts (Reference.build true) fixedChoice hMsgs ?_⟩
  intro msg hMsg
  simp only [List.mem_cons, List.not_mem_nil, or_false] at hMsg
  obtain rfl | rfl := hMsg
  · decide
  · rw [List.length_cons, length_record Reference.documented]
    decide

/-- A bulk update takes a session where its documents would have taken it one by one. -/
theorem reached_bulk {storage₀ : Storage} {enclave₀ enclave : Enclave} {before : List WordMap} {s : System}
    {link : Link} {reply : Bytes} {out inn : List Bytes} (h : Reached P B r storage₀ enclave₀ before s)
    (hMsgs : addDocuments P s.client docs = .ok (client', msgs))
    (hSize : ∀ msg, msg ∈ msgs → msg.length < 2 ^ 64)
    (hRun : Runs Link.peer (processMessage P B r s.enclave (bulkBuffer msgs)) s.link (enclave, reply) link out inn) :
    Reached P B r storage₀ enclave₀ (before ++ docs) ⟨client', enclave, link⟩ := by
  obtain ⟨hLength, hDocs⟩ := length_addDocuments hMsgs
  have hLow := s.client.nDocs.le_toInt
  have hCount : msgs.length < 2 ^ 32 := by
    unfold intMax at hDocs
    omega
  obtain ⟨_, hEach⟩ := ((equalsParts_of_size B r hCount hSize).runs _ _ _ _ _ _ _ _ _).mp hRun
  clear hRun hCount hSize hLow hDocs hLength
  obtain ⟨client, enclave₁, link₁⟩ := s
  induction docs generalizing before client enclave₁ link₁ msgs out inn with
  | nil =>
    cases hMsgs
    cases hEach
    rwa [List.append_nil]
  | cons words docs ih =>
    obtain ⟨⟨client₁, msg⟩, hMsg, hMsgs⟩ := bind_eq_ok_iff.mp hMsgs
    obtain ⟨⟨client₂, rest⟩, hRest, hRet⟩ := bind_eq_ok_iff.mp hMsgs
    cases hRet
    cases hEach with
    | cons hFirst hEach =>
      rw [processMessage_single] at hFirst
      have hNext := ih client₁ _ _ (h.add hMsg hFirst) hRest hEach
      rwa [List.append_assoc] at hNext

end Bulk
end Bisen.BulkUpdate
