import Bisen.Lib.Socket
import Bisen.Platform
import Mathlib.Data.List.Nodup
import Mathlib.Logic.Function.Basic
import Mathlib.Tactic.NormNum

/-! # The storage service

`process_client` reads one operation byte, then what that operation needs, and answers searches.
A connection keeps the bytes that are not yet a whole request and the replies that nobody has
received. The index is the in-memory map; setting up a client does not clear it.
-/
namespace Bisen
open Wire Socket
set_option autoImplicit false

/-- The map `I` and the number of benchmarking records. -/
structure Storage where
  I : Bytes → Option Bytes
  nrSearches : Nat

inductive Request where
  | init
  | add (nrLabels : Nat) (buffer : Bytes)
  | search (nrLabels : Nat) (label : Bytes)
  | startSearch
  | dumpBench (aggregate : UInt8)
  | unknown (op : UInt8)
  deriving DecidableEq, Repr

namespace SseServer

def lSize : Nat := 32
def dSize : Nat := 44
def pairLen : Nat := lSize + dSize

/-- A `size_t` count and that many records of `width` bytes; `none` while bytes are missing. -/
def receiveSized (width : Nat) (inbox : Bytes) : Option (Nat × Bytes × Bytes) :=
  let nrLabels := (readWord64 (inbox.take 8)).toNat
  let len := sizeT (nrLabels * width)
  if inbox.length < 8 + len then none
  else some (nrLabels, (inbox.drop 8).take len, inbox.drop (8 + len))

/-- The request at the front of the received bytes, and what follows it. -/
def decodeRequest : Bytes → Option (Request × Bytes)
  | [] => none
  | op :: inbox =>
    if op = opUeeInit then some (.init, inbox)
    else if op = opUeeAdd then
      (receiveSized pairLen inbox).map fun (nrLabels, buffer, rest) => (.add nrLabels buffer, rest)
    else if op = opUeeSearch then
      (receiveSized lSize inbox).map fun (nrLabels, label, rest) => (.search nrLabels label, rest)
    else if op = opUeeDumpBench then
      inbox.head?.map fun aggregate => (.dumpBench aggregate, inbox.tail)
    else if op = opStartSearch then some (.startSearch, inbox)
    else some (.unknown op, inbox)

def insertPairs (I : Bytes → Option Bytes) (pairs : List Bytes) : Bytes → Option Bytes :=
  pairs.foldl (fun I pair => Function.update I (pair.take lSize) (some (pair.drop lSize))) I

/-- The new storage and the reply. A dump closes its socket and then receives on it. -/
def handle (storage : Storage) : Request → Except Fault (Storage × Bytes)
  | .init => .ok (storage, [])
  | .add nrLabels buffer =>
    if buffer.length < nrLabels * pairLen then .error .outOfBounds
    else .ok ({ storage with I := insertPairs storage.I (chunks pairLen nrLabels buffer) }, [])
  | .search nrLabels label =>
    if storage.nrSearches = 0 then .error .emptyContainer
    else if label.length < nrLabels * lSize then .error .outOfBounds
    else match (chunks lSize nrLabels label).mapM storage.I with
      | none => .error .labelNotFound
      | some ds => .ok (storage, ds.flatten)
  | .startSearch => .ok ({ storage with nrSearches := storage.nrSearches + 1 }, [])
  | .dumpBench aggregate =>
    if aggregate ≠ 0 ∧ storage.nrSearches = 0 then .error .divisionByZero
    else .error .errorReadingFromSocket
  | .unknown op => .error (.unknownCommand op)

end SseServer

/-! ## A connection to it -/

/-- `stopped` is the exit that ended the service. -/
structure Link where
  storage : Storage
  inbox : Bytes
  outbox : Bytes
  stopped : Option Fault

namespace Link
open SseServer

def opened (storage : Storage) : Link := ⟨storage, [], [], none⟩

def serveOne (l : Link) : Option Link :=
  if l.stopped.isSome then none
  else match decodeRequest l.inbox with
    | none => none
    | some (req, rest) => match handle l.storage req with
      | .error e => some { l with inbox := rest, stopped := some e }
      | .ok (storage, reply) =>
        some { l with storage := storage, inbox := rest, outbox := l.outbox ++ reply }

/-- Every round consumes a byte. -/
def serve : Nat → Link → Link
  | 0, l => l
  | fuel + 1, l => match l.serveOne with
    | none => l
    | some l' => serve fuel l'

def push (l : Link) (b : Bytes) : Link :=
  serve (l.inbox.length + b.length) { l with inbox := l.inbox ++ b }

def pull (l : Link) (n : Nat) : Except Fault (Bytes × Link) :=
  if n ≤ l.outbox.length then .ok (l.outbox.take n, { l with outbox := l.outbox.drop n })
  else match l.stopped with
    | some e => .error e
    | none => .error .blocked

def peer : Peer Fault Link where
  push := push
  pull := pull
  pull_length := by
    intro l n b l' h
    unfold pull at h
    split at h
    · case isTrue hLe =>
      injection h with h
      injection h with hBytes _
      rw [← hBytes, List.length_take, Nat.min_eq_left hLe]
    · split at h <;> cases h

end Link

namespace Link

theorem peer_push : peer.push = push := rfl
theorem peer_pull : peer.pull = pull := rfl

end Link

/-! ## Whole requests -/

namespace SseServer

def encodeAdd (pairs : List Bytes) : Bytes :=
  opUeeAdd :: (word64 (.ofNat 64 pairs.length) ++ pairs.flatten)

def encodeSearch (labels : List Bytes) : Bytes :=
  opUeeSearch :: (word64 (.ofNat 64 labels.length) ++ labels.flatten)

theorem sizeT_of_lt {n : Nat} (h : n < 2 ^ 64) : sizeT n = n := Nat.mod_eq_of_lt h

section Sized
variable {width : Nat} (records : List Bytes) (hWidth : ∀ r, r ∈ records → r.length = width)
  (hSize : records.length < 2 ^ 32) (hSmall : width < 2 ^ 32)
include hSize

theorem toNat_count : (BitVec.ofNat 64 records.length).toNat = records.length := by
  rw [BitVec.toNat_ofNat, Nat.mod_eq_of_lt (by omega)]

include hWidth hSmall

theorem sizeT_records : sizeT (records.length * width) = records.flatten.length := by
  rw [length_flatten_of_width records hWidth]
  refine sizeT_of_lt (Nat.lt_of_lt_of_le (Nat.mul_lt_mul'' hSize hSmall) ?_)
  norm_num

theorem receiveSized_whole (rest : Bytes) :
    receiveSized width (word64 (.ofNat 64 records.length) ++ records.flatten ++ rest) =
      some (records.length, records.flatten, rest) := by
  have hTake : (word64 (.ofNat 64 records.length) ++ records.flatten ++ rest).take 8 =
      word64 (.ofNat 64 records.length) := by
    rw [List.append_assoc, List.take_left' (length_word64 _)]
  have hDrop : (word64 (.ofNat 64 records.length) ++ records.flatten ++ rest).drop 8 =
      records.flatten ++ rest := by
    rw [List.append_assoc, List.drop_left' (length_word64 _)]
  simp only [receiveSized, hTake, readWord64_word64, toNat_count records hSize,
    sizeT_records records hWidth hSize hSmall]
  rw [if_neg (by simp only [List.length_append, length_word64]; omega), ← List.drop_drop, hDrop, List.take_left,
    List.drop_left]

theorem receiveSized_count (hPos : 0 < records.length * width) :
    receiveSized width (word64 (.ofNat 64 records.length)) = none := by
  have hTake : (word64 (.ofNat 64 records.length)).take 8 = word64 (.ofNat 64 records.length) :=
    List.take_of_length_le (by rw [length_word64])
  simp only [receiveSized, hTake, readWord64_word64, toNat_count records hSize,
    sizeT_records records hWidth hSize hSmall]
  rw [length_flatten_of_width records hWidth, length_word64]
  exact if_pos (by omega)

end Sized

section Requests
variable (pairs labels : List Bytes)

theorem decodeRequest_encodeAdd (hPairs : ∀ p, p ∈ pairs → p.length = pairLen)
    (hSize : pairs.length < 2 ^ 32) (rest : Bytes) :
    decodeRequest (encodeAdd pairs ++ rest) = some (.add pairs.length pairs.flatten, rest) := by
  have hReceive := receiveSized_whole pairs hPairs hSize (by decide) rest
  rw [encodeAdd, List.cons_append, decodeRequest, if_neg (by decide), if_pos rfl, hReceive]
  rfl

theorem decodeRequest_encodeSearch (hLabels : ∀ l, l ∈ labels → l.length = lSize)
    (hSize : labels.length < 2 ^ 32) (rest : Bytes) :
    decodeRequest (encodeSearch labels ++ rest) = some (.search labels.length labels.flatten, rest) := by
  have hReceive := receiveSized_whole labels hLabels hSize (by decide) rest
  rw [encodeSearch, List.cons_append, decodeRequest, if_neg (by decide), if_neg (by decide), if_pos rfl,
    hReceive]
  rfl

theorem handle_add (storage : Storage) (hPairs : ∀ p, p ∈ pairs → p.length = pairLen) :
    handle storage (.add pairs.length pairs.flatten) =
      .ok ({ storage with I := insertPairs storage.I pairs }, []) := by
  have hLength := length_flatten_of_width pairs hPairs
  rw [handle, if_neg (by omega), chunks_flatten pairs hPairs]

theorem handle_search (storage : Storage) (hStarted : 0 < storage.nrSearches)
    (hLabels : ∀ l, l ∈ labels → l.length = lSize) :
    handle storage (.search labels.length labels.flatten) =
      match labels.mapM storage.I with
      | none => .error .labelNotFound
      | some ds => .ok (storage, ds.flatten) := by
  have hLength := length_flatten_of_width labels hLabels
  rw [handle, if_neg (by omega), if_neg (by omega), chunks_flatten labels hLabels]

end Requests

theorem insertPairs_of_not_mem (pairs : List Bytes) (I : Bytes → Option Bytes) {l : Bytes}
    (h : ∀ pair, pair ∈ pairs → pair.take lSize ≠ l) : insertPairs I pairs l = I l := by
  induction pairs generalizing I with
  | nil => rfl
  | cons pair pairs ih =>
    rw [insertPairs, List.foldl_cons]
    refine (ih _ fun q hq => h q (List.mem_cons_of_mem _ hq)).trans ?_
    exact Function.update_of_ne (h pair List.mem_cons_self).symm ..

theorem insertPairs_of_mem (pairs : List Bytes) (I : Bytes → Option Bytes)
    (hNodup : (pairs.map (·.take lSize)).Nodup) {pair : Bytes} (hPair : pair ∈ pairs) :
    insertPairs I pairs (pair.take lSize) = some (pair.drop lSize) := by
  induction pairs generalizing I with
  | nil => cases hPair
  | cons q pairs ih =>
    rw [List.map_cons] at hNodup
    obtain ⟨hFresh, hNodup⟩ := List.nodup_cons.mp hNodup
    rw [insertPairs, List.foldl_cons]
    obtain rfl | hPair := List.mem_cons.mp hPair
    · have hRest : ∀ p, p ∈ pairs → p.take lSize ≠ pair.take lSize :=
        fun p hp hEq => hFresh (hEq ▸ List.mem_map_of_mem hp)
      exact (insertPairs_of_not_mem pairs _ hRest).trans (Function.update_self ..)
    · exact ih _ hNodup hPair

end SseServer

namespace Link
open SseServer

section Serve
variable {storage storage' : Storage} {inbox b reply rest : Bytes} {req : Request}

theorem serve_of_none {l : Link} (h : l.serveOne = none) (fuel : Nat) : serve fuel l = l := by
  cases fuel with
  | zero => rfl
  | succ fuel => rw [serve, h]

theorem serve_of_some {l l' : Link} (h : l.serveOne = some l') (hLast : l'.serveOne = none) {fuel : Nat}
    (hFuel : 0 < fuel) : serve fuel l = l' := by
  cases fuel with
  | zero => cases hFuel
  | succ fuel => rw [serve, h]; exact serve_of_none hLast fuel

theorem push_partial (h : decodeRequest (inbox ++ b) = none) :
    push ⟨storage, inbox, reply, none⟩ b = ⟨storage, inbox ++ b, reply, none⟩ :=
  serve_of_none (by simp [serveOne, h]) _

theorem push_whole (h : decodeRequest (inbox ++ b) = some (req, []))
    {answer : Bytes} (hHandle : handle storage req = .ok (storage', answer)) :
    push ⟨storage, inbox, reply, none⟩ b = ⟨storage', [], reply ++ answer, none⟩ := by
  apply serve_of_some (by simp [serveOne, h, hHandle]) (by simp [serveOne, decodeRequest])
  cases hAll : inbox ++ b with
  | nil =>
    rw [hAll] at h
    cases h
  | cons op tail =>
    have hLength := congrArg List.length hAll
    rw [List.length_append, List.length_cons] at hLength
    simp only
    omega

end Serve
end Link
end Bisen
