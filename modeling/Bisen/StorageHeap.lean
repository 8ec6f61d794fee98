import Bisen.LabelHash
import Bisen.Lib.Heap
import Bisen.Lib.PointerMap
import Bisen.Lib.Simulation
import Mathlib.Data.List.Dedup

/-! # The map of the storage service in memory

The keys and values of `I` are pointers into the buffers in which the pairs were received; these are never freed.
The labels of a search stand in a buffer of their own, which is freed behind it. The service answers every sequence
of requests as the map from labels to data does. The list of nodes stands for the map of the library, of which
`MAP_TYPE` takes `MAP_TYPE_TBB`: what is used of it is that it goes by `VoidHash` and `VoidEqual`.
-/
namespace Bisen.StorageHeap
open Wire SseServer LabelHash
set_option autoImplicit false

structure Pointer where
  block : Nat
  off : Nat
  deriving DecidableEq, Repr

/-- The `n` bytes behind a pointer. -/
def bytesAt (heap : Heap Bytes) (n : Nat) (p : Pointer) : Option Bytes :=
  (heap.get p.block).bind fun b => if p.off + n ≤ b.length then some (slice b p.off n) else none

structure HeapStorage where
  heap : Heap Bytes
  I : List (Pointer × Pointer)
  nrSearches : Nat

def started : HeapStorage := ⟨.empty, [], 0⟩

section Code
variable (buckets : Nat → Nat)

/-- The bucket of a label in a map with that many elements. -/
def bucket (I : List (Pointer × Pointer)) (l : Bytes) : Nat := (voidHash l).toNat % buckets I.length

/-- Reading a label that is not there is a fault. -/
def label (heap : Heap Bytes) (l : Pointer) : Except Fault Bytes :=
  match bytesAt heap lSize l with
  | some b => .ok b
  | none => .error .outOfBounds

/-- `I[l] = d;` -/
def assign (s : HeapStorage) (l d : Pointer) : Except Fault HeapStorage := do
  let k ← label s.heap l
  match PointerMap.set (bytesAt s.heap lSize) (bucket buckets s.I) l k d s.I with
  | some I => return { s with I := I }
  | none => throw .outOfBounds

/-- `I[l]`, of which `d_size` bytes are copied. A label that is not there ends the service. -/
def fetch (s : HeapStorage) (l : Pointer) : Except Fault Bytes := do
  let k ← label s.heap l
  match PointerMap.get (bytesAt s.heap lSize) (bucket buckets s.I) k s.I with
  | none => throw .outOfBounds
  | some none => throw .labelNotFound
  | some (some d) =>
    match bytesAt s.heap dSize d with
    | some b => return b
    | none => throw .outOfBounds

def add (s : HeapStorage) (nrLabels : Nat) (buffer : Bytes) : Except Fault HeapStorage :=
  let block := s.heap.next
  (List.range nrLabels).foldlM
    (fun s i => assign buckets s ⟨block, i * pairLen⟩ ⟨block, i * pairLen + lSize⟩)
    { s with heap := s.heap.alloc buffer }

def search (s : HeapStorage) (nrLabels : Nat) (labels : Bytes) : Except Fault (HeapStorage × Bytes) := do
  if s.nrSearches = 0 then throw .emptyContainer
  let block := s.heap.next
  let s := { s with heap := s.heap.alloc labels }
  let ds ← (List.range nrLabels).mapM fun i => fetch buckets s ⟨block, i * lSize⟩
  match s.heap.free block with
  | some heap => return ({ s with heap := heap }, ds.flatten)
  | none => throw .outOfBounds

/-- As `SseServer.handle`, in memory. -/
def handle (s : HeapStorage) : Request → Except Fault (HeapStorage × Bytes)
  | .init => .ok (s, [])
  | .add nrLabels buffer => (add buckets s nrLabels buffer).map fun s => (s, [])
  | .search nrLabels labels => search buckets s nrLabels labels
  | .startSearch => .ok ({ s with nrSearches := s.nrSearches + 1 }, [])
  | .dumpBench aggregate =>
    if aggregate ≠ 0 ∧ s.nrSearches = 0 then .error .divisionByZero else .error .errorReadingFromSocket
  | .unknown op => .error (.unknownCommand op)

end Code

/-! ## Memory that stays -/

section Memory
variable {heap : Heap Bytes} {n : Nat} {p : Pointer} {b : Bytes}

theorem bytesAt_of_get (h : heap.get p.block = some b) (hFits : p.off + n ≤ b.length) :
    bytesAt heap n p = some (slice b p.off n) := by
  rw [bytesAt, h]
  exact if_pos hFits

theorem exists_get (h : (bytesAt heap n p).isSome) : ∃ b, heap.get p.block = some b := by
  cases hGet : heap.get p.block with
  | some b => exact ⟨b, rfl⟩
  | none =>
    rw [bytesAt, hGet] at h
    cases h

theorem bytesAt_alloc (h : (bytesAt heap n p).isSome) (x : Bytes) : bytesAt (heap.alloc x) n p = bytesAt heap n p := by
  obtain ⟨b, hGet⟩ := exists_get h
  rw [bytesAt, bytesAt, Heap.get_alloc_of_get hGet, hGet]

/-- A block that was allocated and freed leaves the others as they were. -/
theorem bytesAt_alloc_remove (h : (bytesAt heap n p).isSome) (x : Bytes) :
    bytesAt ((heap.alloc x).remove heap.next) n p = bytesAt heap n p := by
  obtain ⟨b, hGet⟩ := exists_get h
  rw [bytesAt, Heap.get_remove, if_neg (Nat.ne_of_lt (Heap.lt_next hGet)), ← bytesAt_alloc h x]
  rfl

end Memory

/-! ## The map of labels -/

/-- The pointers lead to the labels and data of the map. -/
structure Represents (s : HeapStorage) (storage : Storage) : Prop where
  wf : PointerMap.Wf (bytesAt s.heap lSize) s.I
  data : ∀ n ∈ s.I, (bytesAt s.heap dSize n.2).isSome
  I : ∀ l, storage.I l = (PointerMap.denote (bytesAt s.heap lSize) s.I l).bind (bytesAt s.heap dSize)
  nrSearches : s.nrSearches = storage.nrSearches

section Simulation
variable (buckets : Nat → Nat) {s : HeapStorage} {storage : Storage}

theorem started_represents : Represents started ⟨fun _ => none, 0⟩ :=
  ⟨.nil _, fun _ hn => absurd hn List.not_mem_nil, fun _ => rfl, rfl⟩

/-- Nothing behind the pointers of the map has changed. -/
theorem Represents.frame (h : Represents s storage) {heap : Heap Bytes}
    (hSame : ∀ n p, (bytesAt s.heap n p).isSome → bytesAt heap n p = bytesAt s.heap n p) :
    Represents { s with heap := heap } storage := by
  have hKeys : ∀ n ∈ s.I, bytesAt heap lSize n.1 = bytesAt s.heap lSize n.1 := fun n hn => hSame _ _ (h.wf.live n hn)
  have hData : ∀ n ∈ s.I, bytesAt heap dSize n.2 = bytesAt s.heap dSize n.2 := fun n hn => hSame _ _ (h.data n hn)
  constructor
  case wf => exact h.wf.congr hKeys
  case data =>
    intro n hn
    rw [hData n hn]
    exact h.data n hn
  case I =>
    intro l
    rw [h.I, PointerMap.denote_congr hKeys]
    cases hValue : PointerMap.denote (bytesAt s.heap lSize) s.I l with
    | none => rfl
    | some d =>
      obtain ⟨n, hn, _, rfl⟩ := PointerMap.mem_of_denote hValue
      exact (hData n hn).symm
  case nrSearches => exact h.nrSearches

theorem assign_represents (h : Represents s storage) {l d : Pointer} {k v : Bytes}
    (hl : bytesAt s.heap lSize l = some k) (hd : bytesAt s.heap dSize d = some v) :
    ∃ I, assign buckets s l d = .ok { s with I := I } ∧
      Represents { s with I := I } { storage with I := Function.update storage.I k (some v) } := by
  obtain ⟨I, hSet, hUpdate⟩ := PointerMap.set_eq (bucket buckets s.I) h.wf hl d
  refine ⟨I, ?_, ⟨hUpdate.wf, ?_, ?_, h.nrSearches⟩⟩
  · rw [assign, label, hl]
    change (match PointerMap.set (bytesAt s.heap lSize) (bucket buckets s.I) l k d s.I with
      | some I => (Except.ok { s with I := I } : Except Fault HeapStorage)
      | none => .error .outOfBounds) = _
    rw [hSet]
  · intro n hn
    obtain ⟨hValue, _⟩ | hOld := hUpdate.mem n hn
    · change (bytesAt s.heap dSize n.2).isSome
      rw [hValue, hd]
      rfl
    · exact h.data n hOld
  · intro l'
    change Function.update storage.I k (some v) l' = (PointerMap.denote _ I l').bind _
    rw [hUpdate.denote, Function.update_apply, Function.update_apply, h.I]
    split
    · exact hd.symm
    · rfl

theorem fetch_represents (h : Represents s storage) {l : Pointer} {k : Bytes} (hl : bytesAt s.heap lSize l = some k) :
    fetch buckets s l = match storage.I k with
      | some b => .ok b
      | none => .error .labelNotFound := by
  rw [fetch, label, hl, h.I]
  change (match PointerMap.get (bytesAt s.heap lSize) (bucket buckets s.I) k s.I with
    | none => (Except.error .outOfBounds : Except Fault Bytes)
    | some none => .error .labelNotFound
    | some (some d) => _) = _
  rw [PointerMap.get_eq_denote h.wf]
  cases hValue : PointerMap.denote (bytesAt s.heap lSize) s.I k with
  | none => rfl
  | some d =>
    obtain ⟨n, hn, _, rfl⟩ := PointerMap.mem_of_denote hValue
    obtain ⟨b, hb⟩ := Option.isSome_iff_exists.mp (h.data n hn)
    change (match bytesAt s.heap dSize n.2 with
      | some b => (Except.ok b : Except Fault Bytes)
      | none => .error .outOfBounds) = match bytesAt s.heap dSize n.2 with
      | some b => .ok b
      | none => .error .labelNotFound
    rw [hb]

theorem frame_alloc (h : Represents s storage) (x : Bytes) : Represents { s with heap := s.heap.alloc x } storage :=
  h.frame fun _ _ hSome => bytesAt_alloc hSome x

/-- The pairs of one buffer, whose places are still to come. -/
theorem assigns_represent {buffer : Bytes} {block : Nat} (is : List Nat) (h : Represents s storage)
    (hBlock : s.heap.get block = some buffer) (hFits : ∀ i ∈ is, i * pairLen + pairLen ≤ buffer.length) :
    ∃ I, is.foldlM (fun s i => assign buckets s ⟨block, i * pairLen⟩ ⟨block, i * pairLen + lSize⟩) s =
        .ok { s with I := I } ∧
      Represents { s with I := I }
        { storage with I := insertPairs storage.I (is.map fun i => slice buffer (i * pairLen) pairLen) } := by
  induction is generalizing s storage with
  | nil => exact ⟨s.I, rfl, h⟩
  | cons i is ih =>
    obtain ⟨hFirst, hFits⟩ := List.forall_mem_cons.mp hFits
    have hPair : lSize + dSize = pairLen := rfl
    have hl : bytesAt s.heap lSize ⟨block, i * pairLen⟩ = some (slice buffer (i * pairLen) lSize) :=
      bytesAt_of_get hBlock (by change i * pairLen + lSize ≤ _; omega)
    have hd : bytesAt s.heap dSize ⟨block, i * pairLen + lSize⟩ = some (slice buffer (i * pairLen + lSize) dSize) :=
      bytesAt_of_get hBlock (by change i * pairLen + lSize + dSize ≤ _; omega)
    have hTake : (slice buffer (i * pairLen) pairLen).take lSize = slice buffer (i * pairLen) lSize := by
      rw [slice, slice, List.take_take]
      rfl
    have hDrop : (slice buffer (i * pairLen) pairLen).drop lSize = slice buffer (i * pairLen + lSize) dSize := by
      rw [slice, slice, ← List.drop_drop, List.drop_take]
      rfl
    obtain ⟨I, hAssign, hNext⟩ := assign_represents buckets h hl hd
    obtain ⟨I', hRun, hLast⟩ := ih (s := { s with I := I }) hNext hBlock hFits
    refine ⟨I', ?_, ?_⟩
    · rw [List.foldlM_cons, hAssign]
      exact hRun
    · rw [List.map_cons, insertPairs, List.foldl_cons, hTake, hDrop]
      exact hLast

theorem add_represents (h : Represents s storage) {nrLabels : Nat} {buffer : Bytes}
    (hLength : buffer.length = nrLabels * pairLen) :
    ∃ s', add buckets s nrLabels buffer = .ok s' ∧
      Represents s' { storage with I := insertPairs storage.I (chunks pairLen nrLabels buffer) } := by
  obtain ⟨I, hRun, hRep⟩ := assigns_represent buckets (List.range nrLabels)
    (frame_alloc h buffer) (Heap.get_alloc_next s.heap buffer) fun i hi => by
      have hi := List.mem_range.mp hi
      rw [hLength, ← Nat.succ_mul]
      exact Nat.mul_le_mul_right pairLen hi
  exact ⟨_, hRun, hRep⟩

theorem fetches_represent (is : List Nat) (h : Represents s storage) {labels : Bytes} {block : Nat}
    (hBlock : s.heap.get block = some labels) (hFits : ∀ i ∈ is, i * lSize + lSize ≤ labels.length) :
    is.mapM (fun i => fetch buckets s ⟨block, i * lSize⟩) =
      match (is.map fun i => slice labels (i * lSize) lSize).mapM storage.I with
      | some ds => .ok ds
      | none => .error .labelNotFound := by
  induction is with
  | nil => rfl
  | cons i is ih =>
    obtain ⟨hFirst, hFits⟩ := List.forall_mem_cons.mp hFits
    have hl : bytesAt s.heap lSize ⟨block, i * lSize⟩ = some (slice labels (i * lSize) lSize) :=
      bytesAt_of_get hBlock hFirst
    rw [List.mapM_cons, fetch_represents buckets h hl, List.map_cons, List.mapM_cons, ih hFits]
    cases storage.I (slice labels (i * lSize) lSize) with
    | none => rfl
    | some d =>
      cases (is.map fun i => slice labels (i * lSize) lSize).mapM storage.I with
      | none => rfl
      | some ds => rfl

/-- The buffer of the labels is gone after the search, and nothing in the map led there. -/
theorem search_represents (h : Represents s storage) {nrLabels : Nat} {labels : Bytes}
    (hLength : labels.length = nrLabels * lSize) :
    Simulation.Rel Eq (fun p q => Represents p.1 q.1 ∧ p.2 = q.2) (search buckets s nrLabels labels)
      (SseServer.handle storage (.search nrLabels labels)) := by
  have hFetch := fetches_represent buckets (List.range nrLabels) (frame_alloc h labels)
    (Heap.get_alloc_next s.heap labels) fun i hi => by
      have hi := List.mem_range.mp hi
      rw [hLength, ← Nat.succ_mul]
      exact Nat.mul_le_mul_right lSize hi
  rw [search, SseServer.handle, ← h.nrSearches]
  by_cases hNone : s.nrSearches = 0
  · rw [if_pos hNone, if_pos hNone]
    exact .error rfl
  · rw [if_neg hNone, if_neg hNone, if_neg (by omega), chunks]
    change Simulation.Rel _ _ ((List.range nrLabels).mapM _ >>= _) _
    rw [hFetch]
    cases (List.map (fun i => slice labels (i * lSize) lSize) (List.range nrLabels)).mapM storage.I with
    | none => exact .error rfl
    | some ds =>
      have hFree : (s.heap.alloc labels).free s.heap.next = some ((s.heap.alloc labels).remove s.heap.next) := by
        rw [Heap.free, Heap.get_alloc_next]
        rfl
      change Simulation.Rel _ _ (match (s.heap.alloc labels).free s.heap.next with
        | some heap => Except.ok (({ s with heap := heap } : HeapStorage), ds.flatten)
        | none => .error Fault.outOfBounds) _
      rw [hFree]
      exact .ok ⟨h.frame fun _ _ hSome => bytesAt_alloc_remove hSome labels, rfl⟩

end Simulation

/-! ## Runs -/

/-- Whole records have been received, as many as an `unsigned` can count. -/
def Received : Request → Prop
  | .add nrLabels buffer => buffer.length = nrLabels * pairLen
  | .search nrLabels labels => labels.length = nrLabels * lSize ∧ nrLabels < 2 ^ 32
  | _ => True

theorem handle_represents (buckets : Nat → Nat) {s : HeapStorage} {storage : Storage} (h : Represents s storage)
    {req : Request} (hReq : Received req) :
    Simulation.Rel Eq (fun p q => Represents p.1 q.1 ∧ p.2 = q.2) (handle buckets s req)
      (SseServer.handle storage req) := by
  cases req with
  | init => exact .ok ⟨h, rfl⟩
  | add nrLabels buffer =>
    obtain ⟨s', hAdd, hRep⟩ := add_represents buckets h hReq
    have hLength : buffer.length = nrLabels * pairLen := hReq
    rw [handle, hAdd, SseServer.handle, if_neg (by omega)]
    exact .ok ⟨hRep, rfl⟩
  | search nrLabels labels => exact search_represents buckets h hReq.1
  | startSearch => exact .ok ⟨⟨h.wf, h.data, h.I, congrArg (· + 1) h.nrSearches⟩, rfl⟩
  | dumpBench aggregate =>
    rw [handle, SseServer.handle, ← h.nrSearches]
    split
    · exact .error rfl
    · exact .error rfl
  | unknown op => exact .error rfl

/-- The requests of all connections in the order in which they are served: the last state and the replies. -/
def serveAll {σ : Type} (serve : σ → Request → Except Fault (σ × Bytes)) (s : σ) (reqs : List Request) :
    Except Fault (σ × List Bytes) :=
  reqs.foldlM (fun st req => do
    let r ← serve st.1 req
    return (r.1, st.2 ++ [r.2])) (s, [])

theorem serveAll_represents (buckets : Nat → Nat) {reqs : List Request} (hReqs : ∀ req ∈ reqs, Received req) :
    Simulation.Rel Eq (fun p q => Represents p.1 q.1 ∧ p.2 = q.2) (serveAll (handle buckets) started reqs)
      (serveAll SseServer.handle ⟨fun _ => none, 0⟩ reqs) := by
  have hRun : ∀ {reqs : List Request} {s : HeapStorage} {storage : Storage} {replies : List Bytes},
      (∀ req ∈ reqs, Received req) → Represents s storage →
        Simulation.Rel Eq (fun p q => Represents p.1 q.1 ∧ p.2 = q.2)
          (reqs.foldlM (fun st req => do
            let r ← handle buckets st.1 req
            return (r.1, st.2 ++ [r.2])) (s, replies))
          (reqs.foldlM (fun st req => do
            let r ← SseServer.handle st.1 req
            return (r.1, st.2 ++ [r.2])) (storage, replies)) := by
    intro reqs
    induction reqs with
    | nil => exact fun _ h => .ok ⟨h, rfl⟩
    | cons req reqs ih =>
      intro s storage replies hReqs h
      obtain ⟨hReq, hReqs⟩ := List.forall_mem_cons.mp hReqs
      rw [List.foldlM_cons, List.foldlM_cons, bind_assoc, bind_assoc]
      refine (handle_represents buckets h hReq).bind fun p q hpq => ?_
      obtain ⟨hRep, hReply⟩ := hpq
      simp only [pure_bind, hReply]
      exact ih hReqs hRep
  exact hRun hReqs started_represents

/-- The labels of the pairs of all requests. -/
def addedLabels (reqs : List Request) : List Bytes :=
  reqs.flatMap fun req => match req with
    | .add nrLabels buffer => (chunks pairLen nrLabels buffer).map (·.take lSize)
    | _ => []

theorem addedLabels_append (reqs reqs' : List Request) :
    addedLabels (reqs ++ reqs') = addedLabels reqs ++ addedLabels reqs' := List.flatMap_append

theorem insertPairs_isSome_iff {pairs : List Bytes} {I : Bytes → Option Bytes} {l : Bytes} :
    (insertPairs I pairs l).isSome ↔ (I l).isSome ∨ l ∈ pairs.map (·.take lSize) := by
  induction pairs generalizing I with
  | nil => exact (or_iff_left List.not_mem_nil).symm
  | cons pair pairs ih =>
    rw [insertPairs, List.foldl_cons]
    refine ih.trans ?_
    rw [Function.update_apply, List.map_cons, List.mem_cons]
    split
    · case isTrue h => simp [h]
    · case isFalse h => simp [h]

theorem handle_isSome_iff {storage storage' : Storage} {req : Request} {reply : Bytes}
    (h : SseServer.handle storage req = .ok (storage', reply)) (l : Bytes) :
    (storage'.I l).isSome ↔ (storage.I l).isSome ∨ l ∈ addedLabels [req] := by
  have hOther : l ∉ ([] : List Bytes) := List.not_mem_nil
  cases req with
  | init =>
    cases h
    exact (or_iff_left hOther).symm
  | add nrLabels buffer =>
    rw [SseServer.handle] at h
    split at h
    · cases h
    · cases h
      rw [addedLabels, List.flatMap_singleton]
      exact insertPairs_isSome_iff
  | search nrLabels labels =>
    rw [SseServer.handle] at h
    split at h
    · cases h
    split at h
    · cases h
    split at h
    · cases h
    · cases h
      exact (or_iff_left hOther).symm
  | startSearch =>
    cases h
    exact (or_iff_left hOther).symm
  | dumpBench aggregate =>
    rw [SseServer.handle] at h
    split at h <;> cases h
  | unknown op => cases h

theorem serveAll_isSome_iff {reqs : List Request} {storage : Storage} {replies : List Bytes}
    (h : serveAll SseServer.handle ⟨fun _ => none, 0⟩ reqs = .ok (storage, replies)) (l : Bytes) :
    (storage.I l).isSome ↔ l ∈ addedLabels reqs := by
  have hNone : ((fun _ => none : Bytes → Option Bytes) l).isSome ↔ l ∈ addedLabels [] := by simp [addedLabels]
  apply Simulation.foldlM_consumed (I := fun done st => (st.1.I l).isSome ↔ l ∈ addedLabels done) ?_ hNone h
  intro cs c b b' hInv hStep
  obtain ⟨⟨storage', reply⟩, hHandle, hEq⟩ := bind_eq_ok_iff.mp hStep
  cases hEq
  rw [handle_isSome_iff hHandle, hInv, addedLabels_append, List.mem_append]

/-- The replies are those of the map of labels, whatever the buckets; in particular no pointer dangles. -/
theorem serveAll_replies (buckets : Nat → Nat) {reqs : List Request} (hReqs : ∀ req ∈ reqs, Received req) :
    (serveAll (handle buckets) started reqs).map Prod.snd =
      (serveAll SseServer.handle ⟨fun _ => none, 0⟩ reqs).map Prod.snd := by
  have hRel := serveAll_represents buckets hReqs
  cases hHeap : serveAll (handle buckets) started reqs with
  | error e =>
    rw [hHeap] at hRel
    generalize serveAll SseServer.handle ⟨fun _ => none, 0⟩ reqs = run at hRel ⊢
    cases hRel with
    | error hEq => rw [hEq]; rfl
  | ok p =>
    obtain ⟨q, hMap, _, hReplies⟩ := hRel.exists_ok hHeap
    rw [hMap]
    exact congrArg Except.ok hReplies

/-- The pair of one label twice, and a search for it. -/
def twice : List Request :=
  [.init, .add 2 (List.replicate (2 * pairLen) 1), .startSearch, .search 1 (List.replicate lSize 1)]

theorem twice_received : ∀ req ∈ twice, Received req := by
  intro req hReq
  simp only [twice, List.mem_cons, List.not_mem_nil, or_false] at hReq
  obtain rfl | rfl | rfl | rfl := hReq
  · exact trivial
  · exact List.length_replicate
  · exact trivial
  · exact ⟨List.length_replicate, by decide⟩

theorem serveAll_replies_twice :
    (serveAll (handle (· + 1)) started twice).map Prod.snd =
      (serveAll SseServer.handle ⟨fun _ => none, 0⟩ twice).map Prod.snd :=
  serveAll_replies (· + 1) twice_received

/-- `I.size()` is the number of different labels that have been added. -/
theorem size_eq (buckets : Nat → Nat) {reqs : List Request} (hReqs : ∀ req ∈ reqs, Received req) {s : HeapStorage}
    {replies : List Bytes} (h : serveAll (handle buckets) started reqs = .ok (s, replies)) :
    s.I.length = (addedLabels reqs).dedup.length := by
  obtain ⟨⟨storage, _⟩, hMap, hRep, _⟩ := (serveAll_represents buckets hReqs).exists_ok h
  apply PointerMap.length_eq_of_keys hRep.wf (List.nodup_dedup _)
  intro l
  rw [List.mem_dedup, ← serveAll_isSome_iff hMap l, hRep.I]
  cases hValue : PointerMap.denote (bytesAt s.heap lSize) s.I l with
  | none => rfl
  | some d =>
    obtain ⟨n, hn, _, rfl⟩ := PointerMap.mem_of_denote hValue
    exact iff_of_true rfl (hRep.data n hn)

set_option maxRecDepth 8000 in
theorem size_eq_twice : ∃ s replies, serveAll (handle (· + 1)) started twice = .ok (s, replies) ∧
    s.I.length = (addedLabels twice).dedup.length :=
  ⟨_, _, rfl, size_eq (· + 1) twice_received rfl⟩

end Bisen.StorageHeap
