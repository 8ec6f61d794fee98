import Bisen.ArticleTexts
import Bisen.BulkUpdate
import Bisen.Lib.Service

/-! # The client program

The program indexes the text files of a directory, each of them a document or a file of articles, and runs its
queries, over one connection to the enclave on which every message is answered by one. The enclave talks to the
storage service while it answers.
-/
namespace Bisen.ClientProgram
open Wire Socket SseClient SseIee EnglishAnalyzer WordBuffer StemmedText PorterStemmer
set_option autoImplicit false

/-! ## The connection -/

section Enclave
variable (P : Platform) (B : Build) (r : Nat → Nat)

/-- What the enclave does with a message, and what it leaves of the storage service. -/
def answer (s : Enclave × Link) (inp : Bytes) : (Enclave × Link) × Except Fault Bytes :=
  let o := (processMessage P B r s.1 inp).run Link.peer s.2
  match o.result with
  | .ok (enclave, out) => ((enclave, o.state), .ok out)
  | .error e => ((s.1, o.state), .error e)

/-- The enclave behind its connection, over the service behind its own. -/
def enclave : Service.Server Bytes Fault (Enclave × Link) := Service.answering .blocked (answer P B r)

end Enclave

def ieeSend (inp : Bytes) : Enclaved Unit := Service.sendPacket inp

def ieeRecv : Enclaved Bytes := Service.receivePacket

def ieeComm (inp : Bytes) : Enclaved Unit := do
  ieeSend inp
  let _ ← ieeRecv
  pure ()

/-! ## The files -/

structure File where
  name : Bytes
  content : Bytes
  deriving DecidableEq, Repr

def dot : UInt8 := 0x2e

/-- `.txt` -/
def txt : Bytes := [dot, 0x74, 0x78, 0x74]

/-- `list_txt_files` on the entries of a directory, as `readdir` returns them. -/
def listTxtFiles (limit : Int) (entries : List File) : List File :=
  let filenames := (entries.filter fun f => f.name.head? ≠ some dot ∧ txt <:+: f.name).mergeSort
    fun f g => f.name ≤ g.name
  if 0 < limit ∧ limit.toNat < filenames.length then filenames.take limit.toNat else filenames

/-- The files in the order in which `separated_tests` indexes them. -/
def txtPaths (entries : List File) : List File :=
  (listTxtFiles (-1) entries).mergeSort fun f g => g.name ≤ f.name

/-! ## The program -/

/-- The directory is the list of its entries. -/
structure Configs where
  bisenNrDocs : Nat := 1000
  bisenDocType : Bytes
  bisenDatasetDir : List File
  bisenQueries : List Bytes

/-- The document types that `bisen_update` knows. -/
def wiki : Bytes := ascii "wiki"

def normal : Bytes := ascii "normal"

/-- The client, the buffer of its analyzer, and the static variable of the stemmer. -/
structure Client where
  sse : SseClient
  analyzer : Analyzer
  j : Int

section Program
variable (P : Platform) (B : Build) (memory : Nat → Nat → UInt8)

def bisenSetup : Enclaved Unit := ieeComm generateSetupMsg

/-- The maps of a file; for a type that is not known the program exits. -/
def extractDocs (docType content : Bytes) (client : Client) : Except Fault (Analyzer × Int × List WordMap) :=
  if docType = wiki then do
    let (docs, j) ← ArticleTexts.extractUniqueKeywordsWiki content client.j
    return (client.analyzer, j, docs)
  else if docType = normal then do
    let (analyzer, j, words) ← readFile memory content.length content client.analyzer client.j .empty
    return (analyzer, j, [words])
  else .error (.invalidArgument "Document type not recognised")

/-- The loop of `bisen_update`. -/
def bisenUpdate (docType : Bytes) (nrDocs : Nat) : List File → Client → Nat → Enclaved Client
  | [], client, _ => pure client
  | doc :: docPaths, client, nrUpdates => do
    let (analyzer, j, docs) ← Program.lift (extractDocs memory docType doc.content client)
    let (sse, buffer) ← Program.lift (BulkUpdate.bisenUpdate P client.sse docs)
    ieeComm buffer
    if 0 < nrDocs ∧ nrDocs ≤ nrUpdates + docs.length then pure ⟨sse, analyzer, j⟩
    else bisenUpdate docType nrDocs docPaths ⟨sse, analyzer, j⟩ (nrUpdates + docs.length)

/-- What `bisen_search` copies out of a reply; copying bytes that are not there is a fault. -/
def readReply (bisenOut : Bytes) : Except Fault (List (BitVec 32 × Option B.R)) :=
  let nDocs := (readWord64 (bisenOut.take 8)).toNat
  let pairLen := if (slice bisenOut 8 1).getD 0 0 ≠ 0 then 4 + 8 else 4
  if bisenOut.length < 9 + nDocs * pairLen then .error .outOfBounds else .ok (Response.decode B bisenOut)

def bisenSearch : List Bytes → Client → Enclaved (Client × List (List (BitVec 32 × Option B.R)))
  | [], client => pure (client, [])
  | query :: queries, client => do
    let (data, j) ← Program.lift (TextQuery.search P client.sse query client.j)
    ieeSend data.written
    let bisenOut ← ieeRecv
    let docs ← Program.lift (readReply B bisenOut)
    let (client, rest) ← bisenSearch queries { client with j := j }
    pure (client, docs :: rest)

/-- `separated_tests`, with what every search returns. -/
def separatedTests (settings : Configs) : Enclaved (List (List (BitVec 32 × Option B.R))) := do
  let txtPaths := txtPaths settings.bisenDatasetDir
  bisenSetup
  let client ← bisenUpdate P memory settings.bisenDocType settings.bisenNrDocs txtPaths
    ⟨SseClient.init, create memory, 0⟩ 0
  let (_, results) ← bisenSearch P B settings.bisenQueries client
  ieeComm [opRbisen, opIeeDumpBench, 0]
  pure results

end Program

/-! ## Parts of it -/

section Complete
variable (P : Platform) (B : Build) (r : Nat → Nat)

/-- A part of the program runs to its end, and no message is left over on the connection. -/
def Completes {α : Type} (p : Enclaved α) (s : Enclave × Link) (a : α) (s' : Enclave × Link) : Prop :=
  ∃ out inn, Runs (Service.peer (enclave P B r)) p (Service.opened s) a (Service.opened s') out inn

variable {P B r} {α β : Type} {s s₁ s' : Enclave × Link}

theorem Completes.ret (a : α) (s : Enclave × Link) : Completes P B r (.ret a) s a s := ⟨[], [], rfl⟩

theorem Completes.bind {p : Enclaved α} {f : α → Enclaved β} {a : α} {b : β} (h₁ : Completes P B r p s a s₁)
    (h₂ : Completes P B r (f a) s₁ b s') : Completes P B r (p >>= f) s b s' := by
  obtain ⟨out₁, inn₁, h₁⟩ := h₁
  obtain ⟨out₂, inn₂, h₂⟩ := h₂
  exact ⟨_, _, h₁.bind h₂⟩

variable {encl encl' : Enclave} {link link' : Link} {msg reply : Bytes} {out inn : List Bytes}

theorem answer_of_runs (h : Runs Link.peer (processMessage P B r encl msg) link (encl', reply) link' out inn) :
    answer P B r (encl, link) msg = ((encl', link'), .ok reply) := by
  unfold Runs at h
  rw [answer, h]

/-- A message that the enclave answers is answered to the client. -/
theorem exchange_completes (h : Runs Link.peer (processMessage P B r encl msg) link (encl', reply) link' out inn)
    (hMsg : msg.length < 2 ^ 64) (hReply : reply.length < 2 ^ 64) :
    Completes P B r (ieeSend msg >>= fun _ => ieeRecv) (encl, link) reply (encl', link') :=
  ⟨_, _, Service.exchange_runs (answer_of_runs h) hMsg hReply⟩

theorem ieeComm_completes (h : Runs Link.peer (processMessage P B r encl msg) link (encl', reply) link' out inn)
    (hMsg : msg.length < 2 ^ 64) (hReply : reply.length < 2 ^ 64) :
    Completes P B r (ieeComm msg) (encl, link) () (encl', link') :=
  (exchange_completes h hMsg hReply).bind (f := fun _ => .ret ()) (Completes.ret () _)

end Complete

end Bisen.ClientProgram
