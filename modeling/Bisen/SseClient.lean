import Bisen.Lib.Postfix
import Bisen.QueryParser
import Mathlib.Logic.Function.Basic

/-! # The client

The client numbers its documents, counts for every word the documents that contain it, and turns
documents and postfix queries into messages. A query message is sized in one pass and written in
another, through an `int` cursor.
-/
namespace Bisen
open Wire
set_option autoImplicit false

/-- The counters `W` and the number of documents added so far. -/
structure SseClient where
  W : Bytes → Option (BitVec 32)
  nDocs : BitVec 32

/-- A `map<string, int>`, as iteration over it yields its pairs. -/
structure WordMap where
  entries : List (Bytes × BitVec 32)
  sorted : (entries.map Prod.fst).Pairwise (· < ·)

namespace WordMap

def empty : WordMap := ⟨[], List.Pairwise.nil⟩

def keys (words : WordMap) : List Bytes := words.entries.map Prod.fst

def frequency (words : WordMap) (w : Bytes) : Option (BitVec 32) := words.entries.lookup w

theorem nodup_keys (words : WordMap) : words.keys.Nodup :=
  List.Pairwise.imp (fun {a b} (hLt : a < b) (hEq : a = b) => List.lt_irrefl b (hEq ▸ hLt)) words.sorted

end WordMap

namespace SseClient
open QueryParser

def init : SseClient := ⟨fun _ => none, 0⟩

def hBytes : Nat := 32
def clientSymBlocksize : Nat := 32
def clientFBlocksize : Nat := 32

def clientKEnc : Bytes := List.replicate clientSymBlocksize 0
def clientKF : Bytes := List.replicate clientFBlocksize 0

/-- `client_c_hmac` of the word up to its first NUL. -/
def kW (P : Platform) (word : Bytes) : Bytes := P.cryptoAuthHmacsha256 (cString word) clientKF

def generateSetupMsg : Bytes :=
  [opRbisen, opSetup] ++ word64 (.ofNat 64 clientSymBlocksize) ++ clientKEnc ++
    word64 (.ofNat 64 clientFBlocksize) ++ clientKF

/-! ## Adding documents -/

def newDoc (client : SseClient) : Except Fault (SseClient × BitVec 32) :=
  if client.nDocs.toInt = intMax then .error .signedOverflow
  else .ok ({ client with nDocs := client.nDocs + 1 }, client.nDocs)

/-- The incremented counter of a word, which starts at 1. -/
def nextCounter (client : SseClient) (word : Bytes) : Except Fault (BitVec 32) :=
  match client.W word with
  | some c => if c.toInt = intMax then .error .signedOverflow else .ok (c + 1)
  | none => .ok 1

def addWord (P : Platform) (docId : BitVec 32) (s : SseClient × Bytes) (f : Bytes × BitVec 32) :
    Except Fault (SseClient × Bytes) := do
  let (client, data) := s
  let c ← client.nextCounter f.1
  pure ({ client with W := Function.update client.W f.1 (some c) },
    data ++ (word32 docId ++ word32 (c - 1) ++ word32 f.2 ++ kW P f.1))

def generateAddMsg (P : Platform) (client : SseClient) (docId : BitVec 32) (words : WordMap) :
    Except Fault (SseClient × Bytes) :=
  words.entries.foldlM (addWord P docId) (client, [opAdd])

def addNewDocument (P : Platform) (client : SseClient) (words : WordMap) :
    Except Fault (SseClient × Bytes) := do
  let (client, id) ← client.newDoc
  client.generateAddMsg P id words

/-! ## Searching -/

/-- A buffer of `size` bytes filled from its start; the cursor `pos` stands after `written`. -/
structure Buffer where
  size : Nat
  written : Bytes
  deriving DecidableEq, Repr

def addToArr (val : Bytes) (b : Buffer) : Except Fault Buffer :=
  if b.size < b.written.length + val.length then .error .outOfBounds
  else if intMax < b.written.length + val.length then .error .signedOverflow
  else .ok { b with written := b.written ++ val }

def withCounter (client : SseClient) (tkn : ClientToken) : ClientToken :=
  if tkn.type = wordToken then { tkn with counter := (client.W tkn.word).getD 0 } else tkn

def tokenSize (tkn : ClientToken) : Nat := if tkn.type = wordToken then 1 + 4 + hBytes else 1

def dataSize (rpn : List ClientToken) : Nat := 2 + (rpn.map tokenSize).sum + (1 + 4)

def putToken (P : Platform) (b : Buffer) (tkn : ClientToken) : Except Fault Buffer := do
  let b ← addToArr [tkn.type] b
  if tkn.type = wordToken then do
    let b ← addToArr (word32 tkn.counter) b
    addToArr (kW P tkn.word) b
  else if tkn.type = metaToken then addToArr (word32 tkn.counter) b
  else pure b

def metaTkn (client : SseClient) : ClientToken := ⟨metaToken, client.nDocs, []⟩

/-- `search` from the postfix list on: first the counters and the size, then the bytes. -/
def searchRpn (P : Platform) (client : SseClient) (rpn : List ClientToken) : Except Fault Buffer := do
  let b ← addToArr [opRbisen] { size := dataSize rpn, written := [] }
  let b ← addToArr [opSrc] b
  (rpn.map client.withCounter ++ [client.metaTkn]).foldlM (putToken P) b

def search (P : Platform) (stem : Bytes → Bytes) (client : SseClient) (query : Bytes) :
    Except Fault Buffer := do
  let rpn ← shuntingYard (tokenize stem query)
  client.searchRpn P rpn

/-! ## Postfix queries as abstract token lists -/

def clientTkn : Postfix.Token Bytes → ClientToken
  | .operand word => wordTkn word
  | .neg => opTkn notToken
  | .conj => opTkn andToken
  | .disj => opTkn orToken

def counterOf (client : SseClient) (word : Bytes) : BitVec 32 := (client.W word).getD 0

/-- What one token contributes to the message. -/
def tokenBytes (P : Platform) (client : SseClient) : Postfix.Token Bytes → Bytes
  | .operand word => wordToken :: (word32 (client.counterOf word) ++ kW P word)
  | .neg => [notToken]
  | .conj => [andToken]
  | .disj => [orToken]

def metaBytes (client : SseClient) : Bytes := metaToken :: word32 client.nDocs

def searchMsg (P : Platform) (client : SseClient) (query : List (Postfix.Token Bytes)) : Bytes :=
  opRbisen :: opSrc :: (query.flatMap (client.tokenBytes P) ++ client.metaBytes)

theorem length_kW {P : Platform} (hP : P.Documented) (word : Bytes) : (kW P word).length = hBytes :=
  hP.hmac_length _ _

theorem length_tokenBytes {P : Platform} (hP : P.Documented) (client : SseClient)
    (t : Postfix.Token Bytes) : (client.tokenBytes P t).length = tokenSize (clientTkn t) := by
  cases t with
  | operand word =>
    rw [tokenBytes, List.length_cons, List.length_append, length_word32, length_kW hP]
    rfl
  | neg => rfl
  | conj => rfl
  | disj => rfl

theorem length_searchMsg {P : Platform} (hP : P.Documented) (client : SseClient)
    (query : List (Postfix.Token Bytes)) :
    (client.searchMsg P query).length = dataSize (query.map clientTkn) := by
  have hTokens : (query.map fun t => (client.tokenBytes P t).length) =
      (query.map clientTkn).map tokenSize := by
    rw [List.map_map]
    exact List.map_congr_left fun t _ => length_tokenBytes hP client t
  simp only [searchMsg, metaBytes, dataSize, List.length_cons, List.length_append, List.length_flatMap,
    length_word32, hTokens]
  omega

/-! ## The writing pass -/

/-- Writing bytes that fit: only the cursor can fail. -/
def fill (bytes : Bytes) (b : Buffer) : Except Fault Buffer :=
  if intMax < b.written.length + bytes.length then .error .signedOverflow
  else .ok { b with written := b.written ++ bytes }

theorem addToArr_eq_fill {val : Bytes} {b : Buffer} (hFits : b.written.length + val.length ≤ b.size) :
    addToArr val b = fill val b :=
  if_neg (by omega)

theorem fill_bind (x y : Bytes) (b : Buffer) : (fill x b >>= fill y) = fill (x ++ y) b := by
  unfold fill
  by_cases hx : intMax < b.written.length + x.length
  · rw [if_pos hx, if_pos (by rw [List.length_append]; omega)]
    rfl
  · rw [if_neg hx]
    simp only [bind, Except.bind, List.length_append, List.append_assoc, Nat.add_assoc]

theorem fill_ok {bytes : Bytes} {b b' : Buffer} (h : fill bytes b = .ok b') :
    b' = { b with written := b.written ++ bytes } := by
  unfold fill at h
  split at h
  · cases h
  · injection h with h
    exact h.symm

theorem addToArr_bind {x y : Bytes} {b : Buffer} {rest : Buffer → Except Fault Buffer}
    (hFits : b.written.length + x.length ≤ b.size)
    (hRest : ∀ b', b'.size = b.size → b'.written.length = b.written.length + x.length →
      rest b' = fill y b') : (addToArr x b >>= rest) = fill (x ++ y) b := by
  rw [addToArr_eq_fill hFits, ← fill_bind]
  cases hFill : fill x b with
  | error e => rfl
  | ok b' =>
    have hEq := fill_ok hFill
    subst hEq
    exact hRest _ rfl List.length_append

section Writer
variable {P : Platform} (hP : P.Documented) (client : SseClient)

theorem putToken_operator {op : UInt8} (hWord : op ≠ wordToken) (hMeta : op ≠ metaToken) {b : Buffer}
    (hFits : b.written.length + 1 ≤ b.size) :
    putToken P b (client.withCounter (opTkn op)) = fill [op] b := by
  have hTkn : client.withCounter (opTkn op) = opTkn op := if_neg hWord
  rw [hTkn, putToken]
  simp only [opTkn, hWord, hMeta, if_false, bind_pure]
  exact addToArr_eq_fill (show b.written.length + [op].length ≤ b.size from hFits)

theorem putMeta_eq_fill {b : Buffer} (hFits : b.written.length + 5 ≤ b.size) :
    putToken P b client.metaTkn = fill client.metaBytes b := by
  have hWord : ¬ metaToken = wordToken := by decide
  rw [putToken]
  simp only [metaTkn, if_neg hWord, if_true]
  refine addToArr_bind (x := [metaToken]) ?_ fun b₁ hSize hLength => ?_
  · rw [List.length_singleton]
    omega
  rw [List.length_singleton] at hLength
  apply addToArr_eq_fill
  rw [length_word32]
  omega

include hP

theorem putToken_eq_fill (t : Postfix.Token Bytes) {b : Buffer}
    (hFits : b.written.length + (client.tokenBytes P t).length ≤ b.size) :
    putToken P b (client.withCounter (clientTkn t)) = fill (client.tokenBytes P t) b := by
  cases t with
  | operand word =>
    have hTkn : client.withCounter (clientTkn (.operand word)) =
        ⟨wordToken, client.counterOf word, word⟩ := if_pos rfl
    simp only [tokenBytes, List.length_cons, List.length_append, length_word32, length_kW hP, hBytes] at hFits
    rw [hTkn, putToken]
    simp only [if_true]
    refine addToArr_bind (x := [wordToken]) ?_ fun b₁ hSize₁ hLength₁ => ?_
    · rw [List.length_singleton]
      omega
    rw [List.length_singleton] at hLength₁
    refine addToArr_bind ?_ fun b₂ hSize₂ hLength₂ => ?_
    · rw [length_word32]
      omega
    rw [length_word32] at hLength₂
    apply addToArr_eq_fill
    rw [length_kW hP, hBytes]
    omega
  | neg => exact putToken_operator client (by decide) (by decide) hFits
  | conj => exact putToken_operator client (by decide) (by decide) hFits
  | disj => exact putToken_operator client (by decide) (by decide) hFits

theorem putTokens_eq_fill (query : List (Postfix.Token Bytes)) {b : Buffer}
    (hFits : b.written.length + (query.flatMap (client.tokenBytes P)).length + 5 ≤ b.size) :
    ((query.map clientTkn).map client.withCounter ++ [client.metaTkn]).foldlM (putToken P) b =
      fill (query.flatMap (client.tokenBytes P) ++ client.metaBytes) b := by
  induction query generalizing b with
  | nil =>
    rw [List.flatMap_nil, List.length_nil] at hFits
    simp only [List.map_nil, List.nil_append, List.foldlM_cons, List.foldlM_nil, bind_pure,
      List.flatMap_nil]
    exact putMeta_eq_fill client (by omega)
  | cons t query ih =>
    rw [List.flatMap_cons, List.length_append] at hFits
    rw [List.map_cons, List.map_cons, List.cons_append, List.foldlM_cons, List.flatMap_cons,
      List.append_assoc, putToken_eq_fill hP client t (by omega), ← fill_bind]
    cases hFill : fill (client.tokenBytes P t) b with
    | error e => rfl
    | ok b' =>
      have hEq := fill_ok hFill
      apply ih
      rw [hEq, List.length_append]
      simp only
      omega

theorem searchRpn_eq (query : List (Postfix.Token Bytes)) :
    client.searchRpn P (query.map clientTkn) =
      if intMax < dataSize (query.map clientTkn) then .error .signedOverflow
      else .ok ⟨dataSize (query.map clientTkn), client.searchMsg P query⟩ := by
  have hLength := length_searchMsg hP client query
  simp only [searchMsg, metaBytes, List.length_cons, List.length_append, length_word32] at hLength
  have hFill : client.searchRpn P (query.map clientTkn) =
      fill (client.searchMsg P query) ⟨dataSize (query.map clientTkn), []⟩ := by
    refine addToArr_bind (x := [opRbisen]) ?_ fun b₁ hSize₁ hLength₁ => ?_
    · simp only [List.length_nil, List.length_singleton]
      omega
    simp only [List.length_nil, List.length_singleton] at hSize₁ hLength₁
    refine addToArr_bind (x := [opSrc]) ?_ fun b₂ hSize₂ hLength₂ => ?_
    · rw [List.length_singleton]
      omega
    rw [List.length_singleton] at hLength₂
    exact putTokens_eq_fill hP client query (by omega)
  rw [hFill, fill, length_searchMsg hP]
  simp only [List.length_nil, Nat.zero_add, List.nil_append]

end Writer

/-! ## What an added document changes -/

/-- One word of an add message: document, zero-based counter, frequency and word key. -/
def record (docId c freq : BitVec 32) (kW : Bytes) : Bytes :=
  word32 docId ++ word32 c ++ word32 freq ++ kW

def records (P : Platform) (client : SseClient) (docId : BitVec 32) (words : WordMap) : List Bytes :=
  words.entries.map fun f => record docId (client.counterOf f.1) f.2 (kW P f.1)

def countWords (client : SseClient) (keys : List Bytes) : SseClient :=
  { client with W := fun w => if w ∈ keys then some (client.counterOf w + 1) else client.W w }

theorem length_record {P : Platform} (hP : P.Documented) (docId c freq : BitVec 32) (word : Bytes) :
    (record docId c freq (kW P word)).length = 44 := by
  simp only [record, List.length_append, length_word32, length_kW hP, hBytes]

theorem nextCounter_eq {client : SseClient} {word : Bytes}
    (hRoom : (client.counterOf word).toInt ≠ intMax) :
    client.nextCounter word = .ok (client.counterOf word + 1) := by
  unfold nextCounter counterOf at *
  cases hFind : client.W word with
  | none => rfl
  | some c =>
    rw [hFind] at hRoom
    exact if_neg hRoom

theorem addWords_eq (P : Platform) (docId : BitVec 32) (entries : List (Bytes × BitVec 32))
    (hNodup : (entries.map Prod.fst).Nodup) (client : SseClient) (data : Bytes)
    (hRoom : ∀ w, w ∈ entries.map Prod.fst → (client.counterOf w).toInt ≠ intMax) :
    entries.foldlM (addWord P docId) (client, data) =
      .ok (client.countWords (entries.map Prod.fst),
        data ++ (entries.map fun f => record docId (client.counterOf f.1) f.2 (kW P f.1)).flatten) := by
  induction entries generalizing client data with
  | nil => simp [countWords, pure, Except.pure]
  | cons f entries ih =>
    rw [List.map_cons] at hNodup hRoom
    obtain ⟨hFresh, hNodup⟩ := List.nodup_cons.mp hNodup
    let client' : SseClient := { client with W := Function.update client.W f.1 (some (client.counterOf f.1 + 1)) }
    have hOther : ∀ w, w ≠ f.1 → client'.counterOf w = client.counterOf w := fun w hw => by
      simp only [client', counterOf, Function.update_of_ne hw]
    have hKeys : ∀ w, w ∈ entries.map Prod.fst → w ≠ f.1 := fun w hw hEq => hFresh (hEq ▸ hw)
    have hStep : addWord P docId (client, data) f =
        .ok (client', data ++ record docId (client.counterOf f.1) f.2 (kW P f.1)) := by
      rw [addWord]
      simp only [nextCounter_eq (hRoom f.1 List.mem_cons_self), bind, Except.bind, pure, Except.pure,
        BitVec.add_sub_cancel, record]
      rfl
    have hRest := ih hNodup client' (data ++ record docId (client.counterOf f.1) f.2 (kW P f.1)) fun w hw => by
      rw [hOther w (hKeys w hw)]
      exact hRoom w (List.mem_cons_of_mem _ hw)
    have hRecords : (entries.map fun g => record docId (client'.counterOf g.1) g.2 (kW P g.1)) =
        entries.map fun g => record docId (client.counterOf g.1) g.2 (kW P g.1) :=
      List.map_congr_left fun g hg => by rw [hOther g.1 (hKeys g.1 (List.mem_map_of_mem hg))]
    rw [List.foldlM_cons, hStep]
    refine hRest.trans ?_
    have hCount : client'.countWords (entries.map Prod.fst) =
      client.countWords (f.1 :: entries.map Prod.fst) := by
      have hW : (client'.countWords (entries.map Prod.fst)).W =
          (client.countWords (f.1 :: entries.map Prod.fst)).W := by
        funext w
        by_cases hw : w = f.1
        · simp only [countWords, hw, hFresh, if_false, List.mem_cons_self, if_true, client',
            Function.update_self]
        · simp only [countWords, List.mem_cons, hw, false_or, hOther w hw]
          simp only [client', Function.update_of_ne hw]
      exact congrArg (SseClient.mk · client.nDocs) hW
    rw [hRecords, hCount, List.map_cons, List.map_cons, List.flatten_cons, List.append_assoc]

theorem addNewDocument_eq (P : Platform) (client : SseClient) (words : WordMap)
    (hDocs : client.nDocs.toInt ≠ intMax)
    (hRoom : ∀ w, w ∈ words.keys → (client.counterOf w).toInt ≠ intMax) :
    client.addNewDocument P words =
      .ok ({ client.countWords words.keys with nDocs := client.nDocs + 1 },
        opAdd :: (client.records P client.nDocs words).flatten) := by
  have hNew : client.newDoc = .ok ({ client with nDocs := client.nDocs + 1 }, client.nDocs) := if_neg hDocs
  rw [addNewDocument, hNew]
  exact addWords_eq P client.nDocs words.entries words.nodup_keys _ [opAdd] hRoom

end SseClient
end Bisen
