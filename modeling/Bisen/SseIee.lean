import Bisen.Lib.Shuffle
import Bisen.QueryEvaluator
import Bisen.Response
import Bisen.SseServer

/-! # The enclave

`update` turns an add message into batches of encrypted entries, `search` decodes a query,
fetches its posting lists under shuffled labels, evaluates it and builds the reply. Both talk to
the storage service over the one socket.
-/
namespace Bisen
open Wire Socket
set_option autoImplicit false

/-- The globals `last_ndocs`, `aux_bool`, `labels_size` and the number of benchmarking records. -/
structure Enclave where
  lastNdocs : Nat
  auxBool : List UInt8
  labelsSize : Nat
  nrSearches : Nat
  deriving DecidableEq, Repr

abbrev Enclaved := Program Fault

namespace SseIee
open Tcrypto VecToken

def maxBatchUpdate : Nat := 1000
def maxBatchSearch : Nat := 1000

/-- `SHA256_OUTPUT_SIZE + 3 * sizeof(int)`. -/
def recvLen : Nat := 44

/-- `SHA256_OUTPUT_SIZE + sizeof(size_t) + sizeof(int)`, sent and received. -/
def resLen : Nat := 44

def ok : Bytes := [0x90]

def zeroKey : Bytes := List.replicate aesKeySize 0
def zeroCtr : Bytes := List.replicate aesBlockSize 0

/-! ## Setup and update -/

/-- The key in the message is skipped, once its size has been read. -/
def setup (enclave : Enclave) (inp : Bytes) : Enclaved (Enclave × Bytes) := do
  Program.lift (if inp.length < 9 then .error .outOfBounds else .ok ())
  Program.put [opUeeInit]
  pure ({ enclave with auxBool := [], lastNdocs := 0 }, ok)

def labelOf (P : Platform) (kW : Bytes) (counter : BitVec 32) : Bytes := hmacSha256 P (word32 counter) kW

structure Encryption where
  data : Bytes
  key : Bytes
  ctr : Bytes
  deriving DecidableEq, Repr

def Encryption.run (P : Platform) (c : Encryption) : Bytes := encrypt P c.data c.key c.ctr

def unencData (label : Bytes) (frequency docId : BitVec 32) : Bytes :=
  label ++ word32 frequency ++ word64 (docId.signExtend 64)

def entryOf (P : Platform) (record : Bytes) : Bytes × Encryption :=
  let docId := readWord32 (slice record 0 4)
  let counter := readWord32 (slice record 4 4)
  let frequency := readWord32 (slice record 8 4)
  let kW := slice record 12 sha256OutputSize
  let label := labelOf P kW counter
  (label, { data := unencData label frequency docId, key := zeroKey, ctr := zeroCtr })

def pairOf (P : Platform) (record : Bytes) : Bytes :=
  let (label, c) := entryOf P record
  label ++ c.run P

def sendBatch (pairs : List Bytes) : Enclaved Unit := do
  Program.put [opUeeAdd]
  Program.put (word64 (.ofNat 64 pairs.length))
  Program.put pairs.flatten

/-- The loop `while(to_recv)`; every round takes at least one record. -/
def updateLoop (P : Platform) : Nat → List Bytes → Enclaved Unit
  | 0, _ => pure ()
  | fuel + 1, records =>
    if records.length = 0 then pure ()
    else do
      let batchSize := min records.length maxBatchUpdate
      sendBatch ((records.take batchSize).map (pairOf P))
      updateLoop P fuel (records.drop batchSize)

/-- The records of an add message; bytes past the last whole one are ignored. -/
def recordsOf (inp : Bytes) : List Bytes := chunks recvLen ((inp.length - 1) / recvLen) (inp.drop 1)

def update (P : Platform) (enclave : Enclave) (inp : Bytes) : Enclaved (Enclave × Bytes) := do
  updateLoop P (recordsOf inp).length (recordsOf inp)
  pure (enclave, ok)

/-! ## Decoding a query -/

def readFromArr (inp : Bytes) (pos n : Nat) : Except Fault (Bytes × Nat) :=
  if inp.length < pos + n then .error .outOfBounds
  else if intMax < pos + n then .error .signedOverflow
  else .ok (slice inp pos n, pos + n)

structure Decoded where
  query : VecToken
  nDocs : BitVec 32
  countWords : Nat
  countLabels : Nat
  pos : Nat
  deriving DecidableEq, Repr

/-- A word token whose lists wait for `counter` documents. -/
def wordTkn (counter : BitVec 32) (kW : Bytes) : IeeToken where
  type := wordToken
  counter := counter.toNat
  kW := kW
  docs := { VecInt.viInit counter.toNat with counter := counter.toNat }
  docFrequencies := .viInit counter.toNat

def readToken (inp : Bytes) (d : Decoded) : Except Fault Decoded := do
  let (type, pos) ← readFromArr inp d.pos 1
  let type := type.getD 0 0
  if type = wordToken then do
    let (counter, pos) ← readFromArr inp pos 4
    let counter := readWord32 counter
    let (kW, pos) ← readFromArr inp pos sha256OutputSize
    pure { d with
      query := d.query.vtPushBack (wordTkn counter kW)
      countWords := (d.countWords + 1) % 2 ^ 32
      countLabels := (d.countLabels + counter.toNat) % 2 ^ 32
      pos := pos }
  else if type = metaToken then do
    let (nDocs, pos) ← readFromArr inp pos 4
    pure { d with nDocs := readWord32 nDocs, pos := pos }
  else pure { d with query := d.query.vtPushBack { IeeToken.zero with type := type }, pos := pos }

/-- The loop `while(pos < in_len)`; every round reads at least one byte. -/
def decodeLoop (inp : Bytes) : Nat → Decoded → Except Fault Decoded
  | 0, d => .ok d
  | fuel + 1, d => if d.pos < inp.length then readToken inp d >>= decodeLoop inp fuel else .ok d

def decode (inp : Bytes) : Except Fault Decoded :=
  decodeLoop inp inp.length ⟨vtInit maxQueryTokens, 0, 0, 0, 1⟩

/-! ## Fetching the posting lists -/

/-- `label_request`, with the index of the token in the place of its address. -/
structure LabelRequest where
  tkn : Nat
  counterVal : Nat
  deriving DecidableEq, Repr

/-- The inner loop over the counter of one token; others than words are skipped. -/
def visitToken (t : IeeToken) (i : Nat) : List LabelRequest :=
  if t.type = wordToken then (List.range t.counter).map (LabelRequest.mk i) else []

def visited (query : VecToken) : List LabelRequest := query.elems.zipIdx.flatMap fun p => visitToken p.1 p.2

/-- One visit writes cell `k`, which must exist, and increments the `int` `k`. -/
def fillLabel (r : Nat → Nat) (labelsSize : Nat) (labels : List LabelRequest) (req : LabelRequest) :
    Except Fault (List LabelRequest) :=
  if labelsSize ≤ labels.length then .error .outOfBounds
  else if labels.length = intMax then .error .signedOverflow
  else .ok (Shuffle.place (r labels.length) req labels)

def fillLabels (r : Nat → Nat) (labelsSize : Nat) (query : VecToken) : Except Fault (List LabelRequest) :=
  (visited query).foldlM (fillLabel r labelsSize) []

def tokenAt (query : VecToken) (i : Nat) : IeeToken := query.array.getD i .zero

def requestLabel (P : Platform) (query : VecToken) (req : LabelRequest) : Bytes :=
  labelOf P (tokenAt query req.tkn).kW (.ofNat 32 req.counterVal)

def setDoc (query : VecToken) (req : LabelRequest) (frequency docId : BitVec 32) : VecToken :=
  { query with array := query.array.modify req.tkn fun t => { t with
      docs := { t.docs with array := t.docs.array.set req.counterVal docId }
      docFrequencies := { t.docFrequencies with array := t.docFrequencies.array.set req.counterVal frequency } } }

def storeReply (P : Platform) (query : VecToken) (reply : LabelRequest × Bytes × Bytes) :
    Except Fault VecToken :=
  let (req, label, entry) := reply
  let dec := decrypt P entry zeroKey zeroCtr
  if dec.take sha256OutputSize ≠ label then .error .labelVerificationDoesntMatch
  else
    let frequency := readWord32 (slice dec 32 4)
    let docId := readWord64 (slice dec 36 8)
    .ok (setDoc query req frequency (docId.setWidth 32))

/-- The cells of the next batch; a cell that was never filled holds a null token. -/
def nextBatch (labels : List LabelRequest) (labelPos batchSize : Nat) : Except Fault (List LabelRequest) :=
  let batch := (labels.drop labelPos).take batchSize
  if batch.length < batchSize then .error .outOfBounds else .ok batch

/-- The loop `while (label_pos < total_labels)`; no batch is empty. -/
def requestLoop (P : Platform) (labels : List LabelRequest) (totalLabels : Nat) :
    Nat → Nat → VecToken → Enclaved VecToken
  | 0, _, query => pure query
  | fuel + 1, labelPos, query =>
    if labelPos < totalLabels then do
      let batchSize := min (totalLabels - labelPos) maxBatchSearch
      let batch ← Program.lift (nextBatch labels labelPos batchSize)
      let reqLabels := batch.map (requestLabel P query)
      Program.put (SseServer.encodeSearch reqLabels)
      let res ← Program.get (resLen * batchSize)
      let query ← Program.lift
        ((batch.zip (reqLabels.zip (chunks resLen batchSize res))).foldlM (storeReply P) query)
      requestLoop P labels totalLabels fuel (labelPos + batchSize) query
    else pure query

/-- The shuffle's choices are a parameter: the source has `int r = 0` in the place of a random draw. -/
def getDocsFromServer (P : Platform) (r : Nat → Nat) (enclave : Enclave) (query : VecToken)
    (totalLabels : Nat) : Enclaved (Enclave × VecToken) := do
  let enclave := { enclave with labelsSize := max enclave.labelsSize totalLabels }
  let labels ← Program.lift (fillLabels r enclave.labelsSize query)
  let query ← requestLoop P labels totalLabels totalLabels 0 query
  pure (enclave, query)

def fixedChoice : Nat → Nat := fun _ => 0

/-! ## Search -/

def growAuxBool (enclave : Enclave) (nDocs : BitVec 32) : Enclave :=
  if nDocs.toNat > enclave.lastNdocs then
    { enclave with
      auxBool := enclave.auxBool ++ List.replicate (nDocs.toNat - enclave.auxBool.length) 0
      lastNdocs := nDocs.toNat }
  else enclave

structure Evaluated where
  query : VecToken
  nDocs : BitVec 32
  responseDocs : VecInt
  deriving DecidableEq, Repr

/-- `search` up to the evaluated list. -/
def retrieve (P : Platform) (r : Nat → Nat) (enclave : Enclave) (inp : Bytes) :
    Enclaved (Enclave × Evaluated) := do
  Program.put [opStartSearch]
  let enclave := { enclave with nrSearches := enclave.nrSearches + 1 }
  let d ← Program.lift (decode inp)
  let (enclave, query) ← getDocsFromServer P r enclave d.query d.countLabels
  let enclave := growAuxBool enclave d.nDocs
  let (responseDocs, auxBool) ← Program.lift (QueryEvaluator.evaluate query d.nDocs enclave.auxBool)
  pure ({ enclave with auxBool := auxBool }, ⟨query, d.nDocs, responseDocs⟩)

def search (P : Platform) (B : Build) (r : Nat → Nat) (enclave : Enclave) (inp : Bytes) :
    Enclaved (Enclave × Bytes) := do
  let (enclave, s) ← retrieve P r enclave inp
  pure (enclave, Response.respond B (B.reread s.query) s.nDocs s.responseDocs)

/-- The aggregate flag is `in[1]`. -/
def benchmarkingPrint (enclave : Enclave) (inp : Bytes) : Enclaved (Enclave × Bytes) := do
  let aggregate ← Program.lift (match inp[1]? with
    | some aggregate => .ok aggregate
    | none => .error .outOfBounds)
  Program.lift (if aggregate ≠ 0 ∧ enclave.nrSearches = 0 then .error .divisionByZero else .ok ())
  Program.put [opUeeDumpBench, aggregate]
  pure ({ enclave with nrSearches := 0 }, [])

/-! ## Dispatch -/

section Dispatch
variable (P : Platform) (B : Build) (r : Nat → Nat)

def f (enclave : Enclave) (inp : Bytes) : Enclaved (Enclave × Bytes) :=
  match inp with
  | [] => .fail .outOfBounds
  | op :: _ =>
    if op = opSetup then setup enclave inp
    else if op = opAdd then update P enclave inp
    else if op = opSrc then search P B r enclave inp
    else if op = opIeeDumpBench then benchmarkingPrint enclave inp
    else pure (enclave, [])

def bulkLoop : Nat → Enclave → Bytes → Enclaved Enclave
  | 0, enclave, _ => pure enclave
  | nrUpds + 1, enclave, tmp => do
    let len := (readWord64 (tmp.take 8)).toNat
    Program.lift (if tmp.length < 8 + len then .error .outOfBounds else .ok ())
    let (enclave, _) ← f P B r enclave ((tmp.drop 8).take len)
    bulkLoop nrUpds enclave (tmp.drop (8 + len))

/-- `extern_lib::process_message`; an unknown operation is ignored. -/
def processMessage (enclave : Enclave) (inp : Bytes) : Enclaved (Enclave × Bytes) :=
  match inp with
  | [] => .fail .outOfBounds
  | op :: input =>
    if op = opIeeBisenBulk then do
      Program.lift (if input.length < 8 then .error .outOfBounds else .ok ())
      let enclave ← bulkLoop P B r (readWord64 (input.take 8)).toNat enclave (input.drop 8)
      pure (enclave, ok)
    else if op = opRbisen then f P B r enclave input
    else pure (enclave, [])

end Dispatch
end SseIee
end Bisen
