import Bisen.ClientProgram
import Bisen.Lib.Pieces
import Bisen.Reference
import Bisen.TlsConnection

/-! # The client program over TLS

The calls on the client's side may move any number of bytes, and the message loop of the enclave may be given them
in other pieces. As long as every length reaches it whole, a program does what it does over the plain connection,
and the loop has written what the program has received.
-/
namespace Bisen.TlsProgram
open Wire Socket Service Pieces TlsConnection SseIee ClientProgram
set_option autoImplicit false

/-- What the loop calls: it answers what is answered, and where the enclave exits it may be anything. -/
def Calls {σ : Type} (total : σ → Bytes → σ × Bytes) (process : σ → Bytes → σ × Except Fault Bytes) : Prop :=
  ∀ s body s' out, process s body = (s', .ok out) → total s body = (s', out)

section Loop
variable {σ : Type} {process : σ → Bytes → σ × Except Fault Bytes} {total : σ → Bytes → σ × Bytes}
  (hCalls : Calls total process)

theorem foldl_serve_stopped {ρ : Type} (S : Server ρ Fault σ) (reqs : List ρ) (s : σ) (outbox : Bytes) (e : Fault) :
    reqs.foldl (serve S) ⟨s, outbox, some e⟩ = ⟨s, outbox, some e⟩ := by
  induction reqs with
  | nil => rfl
  | cons req reqs ih => exact ih

include hCalls in
/-- A server that has not stopped has answered every message as the loop does. -/
theorem expected_of_served {bodies : List Bytes} {s s' : σ} {w : Bytes}
    (h : bodies.foldl (serve (answering .blocked process)) ⟨s, [], none⟩ = ⟨s', w, none⟩) :
    expected total s bodies = ⟨s', bodies, w, .ok ()⟩ := by
  induction bodies generalizing s w with
  | nil =>
    cases h
    rfl
  | cons body bodies ih =>
    rw [List.foldl_cons] at h
    cases hProcess : process s body with
    | mk s₁ reply => cases reply with
      | error e =>
        have hServed : (answering .blocked process).handle s body = (s₁, .error e) := by
          simp only [answering, hProcess]
          rfl
        rw [serve_error _ hServed, foldl_serve_stopped] at h
        cases h
      | ok out =>
        have hServed : (answering .blocked process).handle s body = (s₁, .ok (Packet.encode out)) := by
          simp only [answering, hProcess]
          rfl
        have hBehind := foldl_serve_behind (answering .blocked process) (Packet.encode out) bodies ⟨s₁, [], none⟩
        rw [serve_ok _ hServed, List.nil_append] at h
        rw [List.append_nil, h] at hBehind
        generalize hRest : bodies.foldl (serve (answering .blocked process)) ⟨s₁, [], none⟩ = rest at hBehind
        obtain ⟨s₂, w', stopped⟩ := rest
        cases hBehind
        simp only [expected, hCalls _ _ _ _ hProcess, ih hRest]

omit hCalls in
theorem packets_of_pushed {s s' : σ} {sent received : Bytes}
    (h : push (answering .blocked process) (opened s) sent = ⟨⟨s', received, none⟩, []⟩) :
    ∃ bodies : List Bytes, sent = bodies.flatMap Packet.encode ∧ (∀ body ∈ bodies, body.length < 2 ^ 64) ∧
      bodies.foldl (serve (answering .blocked process)) ⟨s, [], none⟩ = ⟨s', received, none⟩ := by
  obtain ⟨hSent, hSizes⟩ := frames_packets sent
  rw [push_eq, opened, List.nil_append, answering_decoder] at h
  have hRest : (packets.frames sent).2 = [] := congrArg Conn.inbox h
  rw [hRest, List.append_nil] at hSent
  exact ⟨_, hSent, hSizes, congrArg Conn.served h⟩

end Loop

/-- A message that is answered, as bytes. -/
theorem ieeComm_exchanges {P : Platform} {B : Build} {r : Nat → Nat} {encl encl' : Enclave} {link link' : Link}
    {msg reply : Bytes} {out inn : List Bytes}
    (h : Runs Link.peer (processMessage P B r encl msg) link (encl', reply) link' out inn)
    (hMsg : msg.length < 2 ^ 64) (hReply : reply.length < 2 ^ 64) :
    Exchanges (enclave P B r) (ieeComm msg) (opened (encl, link)) () (opened (encl', link')) (Packet.encode msg)
      (Packet.encode reply) := by
  have hExchange : Runs (peer (enclave P B r)) (ieeSend msg >>= fun _ => ieeRecv) (opened (encl, link)) reply
      (opened (encl', link')) [word64 (.ofNat 64 msg.length), msg] [word64 (.ofNat 64 reply.length), reply] :=
    exchange_runs (answer_of_runs h) hMsg hReply
  refine ⟨_, _, hExchange.bind (f := fun _ => .ret ()) rfl, ?_, ?_⟩
  · rw [List.append_nil, List.flatten_cons, List.flatten_singleton, Packet.encode]
  · rw [List.append_nil, List.flatten_cons, List.flatten_singleton, Packet.encode]

/-- What the enclave answers, and nothing where it exits. -/
def answered (s : Enclave × Link) (body : Bytes) : (Enclave × Link) × Bytes :=
  let (s', out) := answer Reference.platform (Reference.build true) fixedChoice s body
  (s', out.toOption.getD [])

theorem calls_answered : Calls answered (answer Reference.platform (Reference.build true) fixedChoice) := by
  intro s body s' out hOk
  rw [answered, hOk]
  rfl

/-- An enclave that has done nothing, over an empty service. -/
def untouched : Enclave × Link := (⟨0, [], 0, 0⟩, .opened ⟨fun _ => none, 0⟩)

end Bisen.TlsProgram
