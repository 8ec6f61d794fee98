import Bisen.Reference
import Bisen.RequestStream
import Bisen.SseIee

/-! # Two enclave threads on one socket

Every client has its own thread in the enclave, and all threads use the one socket to the storage
service, without a lock. A send or a receive is one step. The programs of the threads are arbitrary:
whatever `update`, `search` and the globals they share make a thread send and receive is a program.
-/
namespace Bisen.SharedSocket
open Wire Socket Framing SseServer
set_option autoImplicit false

/-- The connection, with a record of who sent and who received what. A reply byte waits under the tag
of the thread whose send brought it about. -/
structure Traffic where
  link : Link
  stream : Bytes
  waiting : List (Bool × UInt8)
  sent : Bool → Bytes
  received : Bool → Bytes

namespace Traffic

def opened (storage : Storage) : Traffic := ⟨.opened storage, [], [], fun _ => [], fun _ => []⟩

def send (t : Traffic) (i : Bool) (b : Bytes) : Traffic :=
  let link := t.link.push b
  { t with
    link := link
    stream := t.stream ++ b
    waiting := t.waiting ++ (link.outbox.drop t.link.outbox.length).map (Prod.mk i)
    sent := Function.update t.sent i (t.sent i ++ b) }

def recv (t : Traffic) (i : Bool) (n : Nat) : Except Fault (Bytes × Traffic) :=
  (t.link.pull n).map fun (b, link) =>
    (b, { t with
      link := link
      waiting := t.waiting.drop n
      received := Function.update t.received i (t.received i ++ b) })

end Traffic

structure Shared (α : Type) where
  threads : Bool → Enclaved α
  traffic : Traffic

section System
variable {α : Type}

/-- One send or receive of thread `i`, unless it has ended or its receive cannot return. -/
def step (s : Shared α) (i : Bool) : Option (Shared α) :=
  match s.threads i with
  | .send b next => some ⟨Function.update s.threads i next, s.traffic.send i b⟩
  | .recv n next => match s.traffic.recv i n with
    | .ok (b, traffic) => some ⟨Function.update s.threads i (next b), traffic⟩
    | .error _ => none
  | _ => none

/-- The runs of two threads all of whose steps are allowed. -/
inductive Reached (storage : Storage) (start : Bool → Enclaved α) (Allowed : Shared α → Bool → Prop) :
    Shared α → Prop where
  | opened : Reached storage start Allowed ⟨start, .opened storage⟩
  | step {s s' : Shared α} {i : Bool} (hReached : Reached storage start Allowed s) (hAllowed : Allowed s i)
      (hStep : step s i = some s') : Reached storage start Allowed s'

/-- What thread `i` does next is in order: it sends while the other one has no partly sent request, and
receives while the next reply bytes answer its own requests. -/
def InOrder (t : Traffic) (i : Bool) : Enclaved α → Prop
  | .send _ _ => (requests.frames (t.sent !i)).2 = []
  | .recv n _ => ∀ p, p ∈ t.waiting.take n → p.1 = i
  | _ => True

instance (t : Traffic) (i : Bool) : (thread : Enclaved α) → Decidable (InOrder t i thread)
  | .send _ _ => inferInstanceAs (Decidable ((requests.frames (t.sent !i)).2 = []))
  | .recv n _ => List.decidableBAll (fun p : Bool × UInt8 => p.1 = i) (t.waiting.take n)
  | .ret _ => .isTrue trivial
  | .fail _ => .isTrue trivial

abbrev Orderly (s : Shared α) (i : Bool) : Prop := InOrder s.traffic i (s.threads i)

def perform (Allowed : Shared α → Bool → Prop) [∀ s i, Decidable (Allowed s i)] :
    List Bool → Shared α → Option (Shared α)
  | [], s => some s
  | i :: schedule, s => if Allowed s i then step s i >>= perform Allowed schedule else none

end System

/-- The service reads exactly the requests of the two threads, each whole and in the order of its
thread, and each thread receives the replies to its own requests in order. -/
def Faithful (storage : Storage) (t : Traffic) : Prop :=
  ∃ served : List (Bool × Request),
    (requests.frames t.stream).1 = served.map Prod.snd ∧
    (∀ i, (requests.frames (t.sent i)).1 = tagged i served) ∧
    (t.link.stopped = none → after storage served = .ok t.link.storage) ∧
    ∀ i, t.received i <+: (tagged i (answers storage served)).flatten

/-! ## The invariant -/

/-- At most one request is partly sent, and the service waits for the rest of it. -/
structure Consistent (storage : Storage) (t : Traffic) (served : List (Bool × Request)) : Prop where
  stream : (requests.frames t.stream).1 = served.map Prod.snd
  issued : ∀ i, (requests.frames (t.sent i)).1 = tagged i served
  leftover : ∃ i, (requests.frames (t.sent !i)).2 = [] ∧
    (requests.frames (t.sent i)).2 = (requests.frames t.stream).2
  waiting : t.waiting.map Prod.snd = t.link.outbox
  replies : ∀ i, t.received i ++ tagged i t.waiting = (tagged i (answers storage served)).flatten
  service : match after storage served with
    | .ok storage => t.link.stopped = none ∧ t.link.storage = storage ∧
        t.link.inbox = (requests.frames t.stream).2
    | .error e => t.link.stopped = some e

namespace Consistent
variable {storage : Storage} {t : Traffic} {served : List (Bool × Request)} {i : Bool}

theorem faithful (h : Consistent storage t served) : Faithful storage t := by
  refine ⟨served, h.stream, h.issued, ?_, fun i => ⟨tagged i t.waiting, h.replies i⟩⟩
  intro hAlive
  have hService := h.service
  split at hService
  · case h_1 last hAfter => rw [hAfter, hService.2.1]
  · rw [hAlive] at hService
    cases hService

theorem opened (storage : Storage) : Consistent storage (.opened storage) [] where
  stream := by rw [Traffic.opened, Decoder.frames_nil]; rfl
  issued i := by rw [Traffic.opened, Decoder.frames_nil]; rfl
  leftover := ⟨true, congrArg Prod.snd Decoder.frames_nil, rfl⟩
  waiting := rfl
  replies i := rfl
  service := ⟨rfl, rfl, (congrArg Prod.snd Decoder.frames_nil).symm⟩

theorem leftover_eq (h : Consistent storage t served) (hOther : (requests.frames (t.sent !i)).2 = []) :
    (requests.frames (t.sent i)).2 = (requests.frames t.stream).2 := by
  obtain ⟨j, hNone, hEq⟩ := h.leftover
  obtain rfl | rfl := Bool.eq_or_eq_not i j
  · exact hEq
  · rw [Bool.not_not] at hOther
    rw [hNone, ← hEq, hOther]

theorem push (h : Consistent storage t served) (i : Bool) (b : Bytes) {new : List Request × Bytes}
    (hNew : requests.frames ((requests.frames t.stream).2 ++ b) = new) :
    ∃ reply : Bytes, (t.link.push b).outbox = t.link.outbox ++ reply ∧
      (tagged i (answers storage (served ++ new.1.map (Prod.mk i)))).flatten =
        (tagged i (answers storage served)).flatten ++ reply ∧
      (∀ j, i ≠ j →
        tagged j (answers storage (served ++ new.1.map (Prod.mk i))) = tagged j (answers storage served)) ∧
      match after storage (served ++ new.1.map (Prod.mk i)) with
      | .ok storage => (t.link.push b).stopped = none ∧ (t.link.push b).storage = storage ∧
          (t.link.push b).inbox = new.2
      | .error e => (t.link.push b).stopped = some e := by
  have hService := h.service
  cases hAfter : after storage served with
  | error e =>
    rw [hAfter] at hService
    obtain ⟨hEnded, hAnswers⟩ := ended_append hAfter (new.1.map (Prod.mk i))
    rw [hEnded, hAnswers, Link.push_of_stopped hService]
    exact ⟨[], by simp, by simp, fun _ _ => rfl, hService⟩
  | ok last =>
    rw [hAfter] at hService
    obtain ⟨hAlive, rfl, hInbox⟩ := hService
    obtain ⟨hOutbox, hLink⟩ := Link.push_requests i hAlive b
    rw [hInbox, hNew] at hOutbox hLink
    rw [after_append hAfter, answers_append hAfter]
    refine ⟨_, hOutbox, ?_, ?_, hLink⟩
    · rw [tagged_append, tagged_of_forall i fun p hp => tag_of_mem_answers hp, List.flatten_append]
    · intro j hj
      rw [tagged_append, tagged_of_forall_ne (fun p hp => tag_of_mem_answers hp) hj, List.append_nil]

theorem send (h : Consistent storage t served) (hOther : (requests.frames (t.sent !i)).2 = []) (b : Bytes) :
    ∃ served', Consistent storage (t.send i b) served' := by
  have hLeftover := h.leftover_eq hOther
  generalize hNew : requests.frames ((requests.frames t.stream).2 ++ b) = new
  have hStream : requests.frames (t.stream ++ b) = ((requests.frames t.stream).1 ++ new.1, new.2) := by
    rw [Decoder.frames_append, hNew]
  have hSent : requests.frames (t.sent i ++ b) = ((requests.frames (t.sent i)).1 ++ new.1, new.2) := by
    rw [Decoder.frames_append, hLeftover, hNew]
  obtain ⟨reply, hOutbox, hOwn, hOthers, hService⟩ := h.push i b hNew
  have hReply : (t.link.push b).outbox.drop t.link.outbox.length = reply := by
    rw [hOutbox, List.drop_left]
  have hNotSelf : i ≠ !i := (Bool.not_ne_self i).symm
  refine ⟨served ++ new.1.map (Prod.mk i), ?_, ?_, ⟨i, ?_, ?_⟩, ?_, ?_, ?_⟩
  · simp [Traffic.send, hStream, h.stream, Function.comp_def]
  · intro j
    obtain rfl | rfl := Bool.eq_or_eq_not j i
    · simp [Traffic.send, hSent, h.issued]
    · simp [Traffic.send, h.issued, tagged_map_of_ne hNotSelf]
  · simp [Traffic.send, hOther]
  · simp [Traffic.send, hSent, hStream]
  · simp [Traffic.send, hOutbox, h.waiting, Function.comp_def]
  · intro j
    obtain rfl | rfl := Bool.eq_or_eq_not j i
    · rw [hOwn, ← h.replies j]
      simp [Traffic.send, hReply]
    · rw [hOthers _ hNotSelf, ← h.replies]
      simp [Traffic.send, hReply, tagged_map_of_ne hNotSelf]
  · simpa only [Traffic.send, hStream] using hService

theorem recv (h : Consistent storage t served) {n : Nat} (hOwn : ∀ p, p ∈ t.waiting.take n → p.1 = i)
    {b : Bytes} {t' : Traffic} (hRecv : t.recv i n = .ok (b, t')) : Consistent storage t' served := by
  rw [Traffic.recv, Link.pull] at hRecv
  split at hRecv
  case isFalse => split at hRecv <;> cases hRecv
  cases hRecv
  have hTaken : (t.waiting.take n).map Prod.snd = t.link.outbox.take n := by
    rw [List.map_take, h.waiting]
  have hSplit : ∀ j, tagged j t.waiting = tagged j (t.waiting.take n) ++ tagged j (t.waiting.drop n) := by
    intro j
    rw [← tagged_append, List.take_append_drop]
  refine ⟨h.stream, h.issued, h.leftover, ?_, ?_, ?_⟩
  · rw [List.map_drop, h.waiting]
  · intro j
    rw [← h.replies j, hSplit j]
    obtain rfl | rfl := Bool.eq_or_eq_not j i
    · rw [tagged_of_forall j hOwn, hTaken]
      simp
    · rw [tagged_of_forall_ne hOwn (Bool.not_ne_self i).symm]
      simp
  · exact h.service

end Consistent

section Runs
variable {α : Type} {storage : Storage} {start : Bool → Enclaved α} {s s' : Shared α} {i : Bool}

theorem step_consistent {served : List (Bool × Request)} (h : Consistent storage s.traffic served)
    (hOrderly : Orderly s i) (hStep : step s i = some s') :
    ∃ served', Consistent storage s'.traffic served' := by
  rw [step] at hStep
  split at hStep
  · case h_1 hThread =>
    cases hStep
    rw [Orderly, hThread] at hOrderly
    exact h.send hOrderly _
  · case h_2 hThread =>
    rw [Orderly, hThread] at hOrderly
    split at hStep
    · case h_1 hRecv =>
      cases hStep
      exact ⟨served, h.recv hOrderly hRecv⟩
    · cases hStep
  · cases hStep

theorem reached_consistent (h : Reached storage start Orderly s) :
    ∃ served, Consistent storage s.traffic served := by
  induction h with
  | opened => exact ⟨[], Consistent.opened storage⟩
  | step _ hOrderly hStep ih =>
    obtain ⟨served, hServed⟩ := ih
    exact step_consistent hServed hOrderly hStep

theorem reached_perform {Allowed : Shared α → Bool → Prop} [∀ s i, Decidable (Allowed s i)]
    (hReached : Reached storage start Allowed s) {schedule : List Bool}
    (hPerform : perform Allowed schedule s = some s') : Reached storage start Allowed s' := by
  induction schedule generalizing s with
  | nil =>
    cases hPerform
    exact hReached
  | cons i schedule ih =>
    rw [perform] at hPerform
    split at hPerform
    · case isTrue hAllowed =>
      obtain ⟨s₁, hStep, hRest⟩ := Option.bind_eq_some_iff.mp hPerform
      exact ih (hReached.step hAllowed hStep) hRest
    · cases hPerform

/-- In every run whose steps are all orderly, the two threads do not disturb each other. -/
theorem reached_faithful (h : Reached storage start Orderly s) : Faithful storage s.traffic := by
  obtain ⟨served, hServed⟩ := reached_consistent h
  exact hServed.faithful

end Runs

/-! ## One update and one search -/

def emptyStorage : Storage := ⟨fun _ => none, 0⟩

def batchAndSearch (label entry : Bytes) : Bool → Enclaved Bytes
  | false => do
    SseIee.sendBatch [label ++ entry]
    pure []
  | true => do
    Program.put [opStartSearch]
    Program.put (encodeSearch [label])
    Program.get SseIee.resLen

/-- The search starts before the batch and goes on after it. -/
theorem reached_faithful_oneBatch :
    ∃ s, perform Orderly [true, false, false, false, true, true]
        ⟨batchAndSearch (List.replicate 32 1) (List.replicate 44 2), .opened emptyStorage⟩ = some s ∧
      s.traffic.received true = List.replicate 44 2 ∧ Faithful emptyStorage s.traffic := by
  generalize hPerform : perform Orderly [true, false, false, false, true, true]
    ⟨batchAndSearch (List.replicate 32 1) (List.replicate 44 2), .opened emptyStorage⟩ = last
  have hReceived : last.map (fun s => s.traffic.received true) = some (List.replicate 44 2) := by
    rw [← hPerform]
    decide +kernel
  obtain ⟨s, rfl, hBytes⟩ := Option.map_eq_some_iff.mp hReceived
  exact ⟨s, rfl, hBytes, reached_faithful (reached_perform .opened hPerform)⟩

/-- An add message with one record, and a search for one word that is in no document. -/
def updateOrSearch : Bool → Bytes
  | false => opRbisen :: opAdd :: List.replicate 44 0
  | true => opRbisen :: opSrc :: wordToken :: List.replicate 36 0 ++ metaToken :: List.replicate 4 0

theorem length_pairOf {P : Platform} (hP : P.Documented) (record : Bytes) :
    (SseIee.pairOf P record).length = pairLen := by
  rw [SseIee.pairOf, List.length_append, SseIee.Encryption.run, Tcrypto.length_encrypt hP]
  simp only [SseIee.entryOf, SseIee.unencData, SseIee.labelOf, List.length_append, length_word32, length_word64,
    Tcrypto.length_hmacSha256 hP]
  rfl

theorem decode_garbled {payload : Bytes} (h : payload.length = pairLen) :
    requests.decode (opUeeAdd :: opStartSearch :: (word64 1 ++ payload)) = none := by
  have hTake : (opStartSearch :: (word64 1 ++ payload)).take 8 = opStartSearch :: (word64 1).take 7 := rfl
  have hReceive : receiveSized pairLen (opStartSearch :: (word64 1 ++ payload)) = none := by
    simp only [receiveSized, hTake]
    rw [if_pos]
    simp only [List.length_cons, List.length_append, length_word64, h]
    decide
  rw [requests_decode, decodeRequest, if_neg (by decide), if_pos rfl, hReceive]
  rfl

section Threads
variable (P : Platform) (B : Build) (r : Nat → Nat) (enclave : Enclave)

theorem processMessage_update :
    SseIee.processMessage P B r enclave (updateOrSearch false) =
      .send [opUeeAdd] (.send (word64 1) (.send [SseIee.pairOf P (List.replicate 44 0)].flatten
        (.ret (enclave, SseIee.ok)))) := rfl

theorem processMessage_search :
    ∃ next, SseIee.processMessage P B r enclave (updateOrSearch true) = .send [opStartSearch] next := ⟨_, rfl⟩

end Threads

theorem reached_send {α : Type} {storage : Storage} {start threads : Bool → Enclaved α} {t : Traffic} {i : Bool}
    {b : Bytes} {next : Enclaved α} (h : Reached storage start (fun _ _ => True) ⟨threads, t⟩)
    (hThread : threads i = .send b next) :
    Reached storage start (fun _ _ => True) ⟨Function.update threads i next, t.send i b⟩ := by
  apply h.step (i := i) trivial
  simp only [step, hThread]

def garbled (payload : Bytes) : Traffic :=
  (((Traffic.opened emptyStorage).send false [opUeeAdd]).send true [opStartSearch]).send false (word64 1)
    |>.send false payload

theorem not_faithful_garbled {payload : Bytes} (h : payload.length = pairLen) :
    ¬ Faithful emptyStorage (garbled payload) := by
  rintro ⟨served, hStream, hIssued, -, -⟩
  have hBytes : (garbled payload).stream = opUeeAdd :: opStartSearch :: (word64 1 ++ payload) := by
    simp [garbled, Traffic.send, Traffic.opened]
  have hSent : (garbled payload).sent true = [opStartSearch] := by
    simp [garbled, Traffic.send, Traffic.opened]
  have hSearched : requests.frames [opStartSearch] = ([.startSearch], []) := by decide
  have hIssued := hIssued true
  rw [hBytes, Decoder.frames_of_none (decode_garbled h)] at hStream
  have hServed : served = [] := List.map_eq_nil_iff.mp hStream.symm
  rw [hSent, hSearched, hServed] at hIssued
  cases hIssued

/-- Between an update's op byte and its batch size, a search's `'5'` can reach the service. -/
theorem not_faithful_updateOrSearch :
    ¬ ∀ (P : Platform) (B : Build) (r : Nat → Nat) (enclave : Enclave) (messages : Bool → Bytes)
      (s : Shared (Enclave × Bytes)), P.Documented →
      Reached emptyStorage (fun i => SseIee.processMessage P B r enclave (messages i)) (fun _ _ => True) s →
      Faithful emptyStorage s.traffic := by
  intro hClaim
  let P := Reference.platform
  let B := Reference.build true
  let enclave : Enclave := ⟨0, [], 0, 0⟩
  let start i := SseIee.processMessage P B SseIee.fixedChoice enclave (updateOrSearch i)
  obtain ⟨next, hSearch⟩ := processMessage_search P B SseIee.fixedChoice enclave
  have hStart : Reached emptyStorage start (fun _ _ => True) ⟨start, .opened emptyStorage⟩ := .opened
  have hOp := reached_send (i := false) hStart (processMessage_update P B SseIee.fixedChoice enclave)
  have hBetween := reached_send (i := true) hOp hSearch
  have hSize := reached_send (i := false) hBetween rfl
  have hPayload := reached_send (i := false) hSize rfl
  have hLength : [SseIee.pairOf P (List.replicate 44 0)].flatten.length = pairLen := by
    rw [List.flatten_singleton, length_pairOf Reference.documented]
  have hFaithful := hClaim P B _ _ updateOrSearch _ Reference.documented hPayload
  dsimp only at hFaithful
  exact not_faithful_garbled hLength hFaithful

end Bisen.SharedSocket
