import Bisen.SseIee
import Mathlib.Data.List.Nodup

/-! # Indexing a document

An add message becomes one `OP_UEE_ADD` request for every thousand records. Whatever the peer,
these requests carry every record's pair once and in order; an honest storage service ends up
with all of them in its map.
-/
namespace Bisen.Indexing
open Wire Socket SseIee SseServer
set_option autoImplicit false

/-- The sends of the update loop for the given pairs. -/
def batchesFrom : Nat → List Bytes → List Bytes
  | 0, _ => []
  | fuel + 1, pairs =>
    if pairs.length = 0 then []
    else
      let batch := pairs.take (min pairs.length maxBatchUpdate)
      [opUeeAdd] :: word64 (.ofNat 64 batch.length) :: batch.flatten ::
        batchesFrom fuel (pairs.drop (min pairs.length maxBatchUpdate))

section AnyPeer
variable {P : Platform} {σ : Type} {peer : Peer Fault σ}

theorem sendBatch_bind (pairs : List Bytes) {α : Type} (next : Unit → Enclaved α) :
    (sendBatch pairs >>= next) = .send [opUeeAdd]
      (.send (word64 (.ofNat 64 pairs.length)) (.send pairs.flatten (next ()))) := rfl

theorem updateLoop_runs {fuel : Nat} {records : List Bytes} {s s' : σ} {out inn : List Bytes}
    (h : Runs peer (updateLoop P fuel records) s () s' out inn) :
    out = batchesFrom fuel (records.map (pairOf P)) ∧ inn = [] := by
  induction fuel generalizing records s out with
  | zero =>
    obtain ⟨_, _, rfl, rfl⟩ := runs_ret_iff.mp h
    exact ⟨rfl, rfl⟩
  | succ fuel ih =>
    rw [updateLoop] at h
    rw [batchesFrom, List.length_map]
    split at h
    · case isTrue hEmpty =>
      obtain ⟨_, _, rfl, rfl⟩ := runs_ret_iff.mp h
      rw [if_pos hEmpty]
      exact ⟨rfl, rfl⟩
    · case isFalse hMore =>
      simp only [sendBatch_bind] at h
      obtain ⟨_, rfl, h₁⟩ := runs_send_iff.mp h
      obtain ⟨_, rfl, h₂⟩ := runs_send_iff.mp h₁
      obtain ⟨_, rfl, h₃⟩ := runs_send_iff.mp h₂
      obtain ⟨rfl, rfl⟩ := ih h₃
      rw [if_neg hMore, List.map_drop]
      simp only [List.map_take]
      exact ⟨trivial, trivial⟩

theorem update_runs {enclave enclave' : Enclave} {inp reply : Bytes} {s s' : σ} {out inn : List Bytes}
    (h : Runs peer (update P enclave inp) s (enclave', reply) s' out inn) :
    out = batchesFrom (recordsOf inp).length ((recordsOf inp).map (pairOf P)) ∧ inn = [] ∧
      enclave' = enclave ∧ reply = ok := by
  rw [update] at h
  obtain ⟨_, _, _, _, _, _, hLoop, hRet, rfl, rfl⟩ := runs_bind_iff.mp h
  obtain ⟨hPair, rfl, rfl, rfl⟩ := runs_ret_iff.mp hRet
  cases hPair
  obtain ⟨rfl, rfl⟩ := updateLoop_runs hLoop
  exact ⟨List.append_nil _, rfl, rfl, rfl⟩

end AnyPeer

/-! ## Against the storage service -/

section Honest
variable {P : Platform}

theorem insertPairs_append (I : Bytes → Option Bytes) (pairs pairs' : List Bytes) :
    insertPairs I (pairs ++ pairs') = insertPairs (insertPairs I pairs) pairs' := List.foldl_append ..

theorem push_batch (storage : Storage) {pairs : List Bytes} (hPairs : ∀ p, p ∈ pairs → p.length = pairLen)
    (hPos : 0 < pairs.length) (hSize : pairs.length < 2 ^ 32) {α : Type} {next : Enclaved α} {a : α}
    {l : Link} {out inn : List Bytes}
    (h : Runs Link.peer next (.opened { storage with I := insertPairs storage.I pairs }) a l out inn) :
    Runs Link.peer (.send [opUeeAdd] (.send (word64 (.ofNat 64 pairs.length)) (.send pairs.flatten next)))
      (.opened storage) a l
      ([opUeeAdd] :: word64 (.ofNat 64 pairs.length) :: pairs.flatten :: out) inn := by
  have hCount := receiveSized_count pairs hPairs hSize (by decide) (Nat.mul_pos hPos (by decide))
  have hWhole := decodeRequest_encodeAdd pairs hPairs hSize []
  rw [List.append_nil, encodeAdd] at hWhole
  have hOp : Link.peer.push (.opened storage) [opUeeAdd] = ⟨storage, [opUeeAdd], [], none⟩ := by
    rw [Link.peer_push]
    exact Link.push_partial rfl
  have hSized : Link.peer.push ⟨storage, [opUeeAdd], [], none⟩ (word64 (.ofNat 64 pairs.length)) =
      ⟨storage, opUeeAdd :: word64 (.ofNat 64 pairs.length), [], none⟩ := by
    rw [Link.peer_push]
    apply Link.push_partial
    rw [List.singleton_append, decodeRequest, if_neg (by decide), if_pos rfl, hCount]
    rfl
  have hPayload : Link.peer.push ⟨storage, opUeeAdd :: word64 (.ofNat 64 pairs.length), [],
    none⟩ pairs.flatten =
      .opened { storage with I := insertPairs storage.I pairs } := by
    rw [Link.peer_push]
    exact Link.push_whole (by rw [List.cons_append]; exact hWhole) (handle_add pairs storage hPairs)
  exact Runs.send hOp (Runs.send hSized (Runs.send hPayload h))

theorem updateLoop_honest {fuel : Nat} {records : List Bytes} (storage : Storage)
    (hPairs : ∀ p, p ∈ records.map (pairOf P) → p.length = pairLen) (hFuel : records.length ≤ fuel) :
    ∃ out, Runs Link.peer (updateLoop P fuel records) (.opened storage) ()
      (.opened { storage with I := insertPairs storage.I (records.map (pairOf P)) }) out [] := by
  induction fuel generalizing records storage with
  | zero =>
    rw [List.length_eq_zero_iff.mp (Nat.le_zero.mp hFuel)]
    exact ⟨[], rfl⟩
  | succ fuel ih =>
    rw [updateLoop]
    split
    · case isTrue hEmpty =>
      rw [List.length_eq_zero_iff.mp hEmpty]
      exact ⟨[], rfl⟩
    · simp only [sendBatch_bind]
      have hPos : 0 < min records.length maxBatchUpdate := by
        unfold maxBatchUpdate
        omega
      have hSmall : min records.length maxBatchUpdate < 2 ^ 32 := by
        unfold maxBatchUpdate
        omega
      have hLe : min records.length maxBatchUpdate ≤ records.length := Nat.min_le_left _ _
      generalize min records.length maxBatchUpdate = batchSize at hPos hSmall hLe ⊢
      have hTake : ((records.take batchSize).map (pairOf P)).length = batchSize := by
        rw [List.length_map, List.length_take, Nat.min_eq_left hLe]
      have hSplit : records.map (pairOf P) =
          (records.take batchSize).map (pairOf P) ++ (records.drop batchSize).map (pairOf P) := by
        rw [← List.map_append, List.take_append_drop]
      rw [hSplit] at hPairs
      have hFewer : (records.drop batchSize).length ≤ fuel := by
        rw [List.length_drop]
        omega
      obtain ⟨out, hRest⟩ := ih
        { storage with I := insertPairs storage.I ((records.take batchSize).map (pairOf P)) }
        (fun p hp => hPairs p (List.mem_append_right _ hp)) hFewer
      rw [hSplit, insertPairs_append]
      exact ⟨_, push_batch storage (fun p hp => hPairs p (List.mem_append_left _ hp)) (by omega) (by omega)
        hRest⟩

end Honest
end Bisen.Indexing
