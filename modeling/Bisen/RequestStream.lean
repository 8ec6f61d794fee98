import Bisen.Lib.Framing
import Bisen.SseServer

/-! # The stream of requests

`process_client` reads its socket through the framing of its requests, whatever pieces the bytes
come in. What it has stored and answered is a function of the requests it has read.
-/
namespace Bisen
open Wire Socket Framing
set_option autoImplicit false

namespace SseServer

section Sized
variable {width n : Nat} {inbox buffer rest : Bytes}

theorem length_of_receiveSized (h : receiveSized width inbox = some (n, buffer, rest)) :
    rest.length ≤ inbox.length := by
  simp only [receiveSized] at h
  split at h
  · cases h
  · cases h
    rw [List.length_drop]
    exact Nat.sub_le ..

theorem receiveSized_append (h : receiveSized width inbox = some (n, buffer, rest)) (c : Bytes) :
    receiveSized width (inbox ++ c) = some (n, buffer, rest ++ c) := by
  simp only [receiveSized] at h ⊢
  split at h
  · cases h
  · case isFalse hWhole =>
    cases h
    have hTake : (inbox ++ c).take 8 = inbox.take 8 := List.take_append_of_le_length (by omega)
    rw [hTake, if_neg (by rw [List.length_append]; omega), List.drop_append_of_le_length (by omega),
      List.drop_append_of_le_length (by omega), List.take_append_of_le_length (by rw [List.length_drop]; omega)]

end Sized

def requests : Decoder Request where
  decode := decodeRequest
  shrinks := by
    intro b req rest h
    cases b with
    | nil => cases h
    | cons op inbox =>
      rw [List.length_cons, Nat.lt_succ_iff]
      simp only [decodeRequest] at h
      split at h
      · cases h; exact Nat.le_refl _
      split at h
      · obtain ⟨p, hReceive, hEq⟩ := Option.map_eq_some_iff.mp h
        cases hEq
        exact length_of_receiveSized hReceive
      split at h
      · obtain ⟨p, hReceive, hEq⟩ := Option.map_eq_some_iff.mp h
        cases hEq
        exact length_of_receiveSized hReceive
      split at h
      · obtain ⟨aggregate, _, hEq⟩ := Option.map_eq_some_iff.mp h
        cases hEq
        rw [List.length_tail]
        exact Nat.sub_le ..
      split at h <;> (cases h; exact Nat.le_refl _)
  stable := by
    intro b req rest c h
    cases b with
    | nil => cases h
    | cons op inbox =>
      rw [List.cons_append]
      simp only [decodeRequest] at h ⊢
      split at h
      · case isTrue hOp => cases h; rw [if_pos hOp]
      rw [if_neg ‹_›]
      split at h
      · case isTrue hOp =>
        obtain ⟨p, hReceive, hEq⟩ := Option.map_eq_some_iff.mp h
        cases hEq
        rw [if_pos hOp, receiveSized_append hReceive, Option.map_some]
      rw [if_neg ‹_›]
      split at h
      · case isTrue hOp =>
        obtain ⟨p, hReceive, hEq⟩ := Option.map_eq_some_iff.mp h
        cases hEq
        rw [if_pos hOp, receiveSized_append hReceive, Option.map_some]
      rw [if_neg ‹_›]
      split at h
      · case isTrue hOp =>
        cases inbox with
        | nil => cases h
        | cons aggregate inbox =>
          cases h
          rw [if_pos hOp]
          rfl
      rw [if_neg ‹_›]
      split at h
      · case isTrue hOp => cases h; rw [if_pos hOp]
      · case isFalse hOp => cases h; rw [if_neg hOp]

theorem requests_decode (b : Bytes) : requests.decode b = decodeRequest b := rfl

/-! ## Serving them -/

section Served
variable {ι : Type}

/-- The map after the service has handled the requests in order. -/
def after (storage : Storage) : List (ι × Request) → Except Fault Storage
  | [] => .ok storage
  | (_, req) :: served => match handle storage req with
    | .error e => .error e
    | .ok (storage, _) => after storage served

/-- The replies, each under the tag of its request, until a request ends the service. -/
def answers (storage : Storage) : List (ι × Request) → List (ι × Bytes)
  | [] => []
  | (i, req) :: served => match handle storage req with
    | .error _ => []
    | .ok (storage, reply) => (i, reply) :: answers storage served

variable {storage storage' : Storage} {a : List (ι × Request)}

theorem after_append (h : after storage a = .ok storage') (b : List (ι × Request)) :
    after storage (a ++ b) = after storage' b := by
  induction a generalizing storage with
  | nil =>
    cases h
    rfl
  | cons p a ih =>
    simp only [List.cons_append, after] at h ⊢
    split at h
    · cases h
    · exact ih h

theorem answers_append (h : after storage a = .ok storage') (b : List (ι × Request)) :
    answers storage (a ++ b) = answers storage a ++ answers storage' b := by
  induction a generalizing storage with
  | nil =>
    cases h
    rfl
  | cons p a ih =>
    simp only [List.cons_append, after, answers] at h ⊢
    split at h
    · cases h
    · exact congrArg (List.cons _) (ih h)

theorem ended_append {e : Fault} (h : after storage a = .error e) (b : List (ι × Request)) :
    after storage (a ++ b) = .error e ∧ answers storage (a ++ b) = answers storage a := by
  induction a generalizing storage with
  | nil => cases h
  | cons p a ih =>
    simp only [List.cons_append, after, answers] at h ⊢
    split at h
    · exact ⟨h, rfl⟩
    · exact ⟨(ih h).1, congrArg (List.cons _) (ih h).2⟩

theorem answers_map (i : ι) (storage : Storage) (reqs : List Request) :
    answers storage (reqs.map (Prod.mk i)) =
      (answers storage (reqs.map (Prod.mk ()))).map fun p => (i, p.2) := by
  induction reqs generalizing storage with
  | nil => rfl
  | cons req reqs ih =>
    simp only [List.map_cons, answers]
    split
    · rfl
    · rw [List.map_cons, ih]

theorem tag_of_mem_answers {i : ι} {reqs : List Request} {p : ι × Bytes}
    (h : p ∈ answers storage (reqs.map (Prod.mk i))) : p.1 = i := by
  rw [answers_map] at h
  obtain ⟨q, _, rfl⟩ := List.mem_map.mp h
  rfl

end Served
end SseServer

namespace Link
open SseServer

variable {ι : Type} (i : ι)

theorem serve_requests {l : Link} (hAlive : l.stopped = none) {fuel : Nat} (hFuel : l.inbox.length ≤ fuel) :
    let reqs := (requests.frames l.inbox).1.map (Prod.mk i)
    (serve fuel l).outbox = l.outbox ++ ((answers l.storage reqs).map Prod.snd).flatten ∧
      match after l.storage reqs with
      | .ok storage => (serve fuel l).stopped = none ∧ (serve fuel l).storage = storage ∧
          (serve fuel l).inbox = (requests.frames l.inbox).2
      | .error e => (serve fuel l).stopped = some e := by
  induction fuel generalizing l with
  | zero =>
    have hEmpty : l.inbox = [] := List.eq_nil_of_length_eq_zero (Nat.le_zero.mp hFuel)
    rw [hEmpty, Decoder.frames_nil]
    exact ⟨by simp [serve, answers], hAlive, rfl, hEmpty⟩
  | succ fuel ih =>
    cases hDecode : requests.decode l.inbox with
    | none =>
      have hOne : l.serveOne = none := by
        rw [serveOne, hAlive]
        simp only [show decodeRequest l.inbox = none from hDecode]
        rfl
      rw [Decoder.frames_of_none hDecode, serve_of_none hOne]
      exact ⟨by simp [answers], hAlive, rfl, rfl⟩
    | some p =>
      obtain ⟨req, rest⟩ := p
      have hShrinks := requests.shrinks hDecode
      rw [Decoder.frames_of_some hDecode]
      simp only [List.map_cons, answers, after]
      cases hHandle : handle l.storage req with
      | error e =>
        have hOne : l.serveOne = some { l with inbox := rest, stopped := some e } := by
          rw [serveOne, hAlive]
          simp only [show decodeRequest l.inbox = some (req, rest) from hDecode, hHandle]
          rfl
        rw [serve, hOne]
        simp only
        rw [serve_of_none (by simp [serveOne])]
        exact ⟨by simp, rfl⟩
      | ok p =>
        obtain ⟨storage, reply⟩ := p
        have hOne : l.serveOne =
            some { l with storage := storage, inbox := rest, outbox := l.outbox ++ reply } := by
          rw [serveOne, hAlive]
          simp only [show decodeRequest l.inbox = some (req, rest) from hDecode, hHandle]
          rfl
        have hRest := ih (l := { l with storage := storage, inbox := rest, outbox := l.outbox ++ reply })
          hAlive (by simp only; omega)
        rw [serve, hOne]
        simp only at hRest ⊢
        refine ⟨?_, hRest.2⟩
        rw [hRest.1, List.map_cons, List.flatten_cons, List.append_assoc]

theorem push_requests {l : Link} (hAlive : l.stopped = none) (b : Bytes) :
    let reqs := (requests.frames (l.inbox ++ b)).1.map (Prod.mk i)
    (push l b).outbox = l.outbox ++ ((answers l.storage reqs).map Prod.snd).flatten ∧
      match after l.storage reqs with
      | .ok storage => (push l b).stopped = none ∧ (push l b).storage = storage ∧
          (push l b).inbox = (requests.frames (l.inbox ++ b)).2
      | .error e => (push l b).stopped = some e := by
  have hFuel : (l.inbox ++ b).length ≤ l.inbox.length + b.length := Nat.le_of_eq List.length_append
  exact serve_requests i (l := { l with inbox := l.inbox ++ b }) hAlive hFuel

theorem push_of_stopped {l : Link} {e : Fault} (h : l.stopped = some e) (b : Bytes) :
    push l b = { l with inbox := l.inbox ++ b } := by
  have hOne : ({ l with inbox := l.inbox ++ b } : Link).serveOne = none := by
    rw [serveOne, h]
    rfl
  exact serve_of_none hOne _

end Link
end Bisen
