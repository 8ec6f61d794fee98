import Bisen.Lib.Framing
import Bisen.Lib.Packet
import Bisen.Lib.Socket

/-! # A service behind a byte stream

A server frames the bytes it receives and handles one frame after the other until one of them stops it. What it
does then does not depend on the pieces in which the bytes came. Where the frames are packets and every packet is
answered by one, a client that sends a packet and waits for one gets the answer to its own.
-/
namespace Service
open Wire Socket Framing
set_option autoImplicit false

structure Server (ρ ε σ : Type) where
  decoder : Decoder ρ
  handle : σ → ρ → σ × Except ε Bytes
  blocked : ε

/-- What the service has done: its state, the bytes nobody has received, and what has stopped it. -/
structure Served (ε σ : Type) where
  state : σ
  outbox : Bytes
  stopped : Option ε

structure Conn (ε σ : Type) where
  served : Served ε σ
  inbox : Bytes

section
variable {ρ ε σ : Type} (S : Server ρ ε σ)

def serve (d : Served ε σ) (req : ρ) : Served ε σ :=
  match d.stopped with
  | some _ => d
  | none => match S.handle d.state req with
    | (s, .ok out) => { d with state := s, outbox := d.outbox ++ out }
    | (s, .error e) => { d with state := s, stopped := some e }

def push (c : Conn ε σ) (b : Bytes) : Conn ε σ :=
  let (reqs, rest) := S.decoder.frames (c.inbox ++ b)
  ⟨reqs.foldl (serve S) c.served, rest⟩

def pull (c : Conn ε σ) (n : Nat) : Except ε (Bytes × Conn ε σ) :=
  if n ≤ c.served.outbox.length then
    .ok (c.served.outbox.take n, { c with served := { c.served with outbox := c.served.outbox.drop n } })
  else .error (c.served.stopped.getD S.blocked)

def peer : Peer ε (Conn ε σ) where
  push := push S
  pull := pull S
  pull_length := by
    intro c n b c' h
    rw [pull] at h
    split at h
    · case isTrue hLe =>
      cases h
      exact List.length_take_of_le hLe
    · cases h

theorem peer_push : (peer S).push = push S := rfl

theorem peer_pull : (peer S).pull = pull S := rfl

def opened (s : σ) : Conn ε σ := ⟨⟨s, [], none⟩, []⟩

theorem push_eq (c : Conn ε σ) (b : Bytes) :
    push S c b = ⟨(S.decoder.frames (c.inbox ++ b)).1.foldl (serve S) c.served,
      (S.decoder.frames (c.inbox ++ b)).2⟩ := rfl

/-- What comes in pieces is served as what comes at once. -/
theorem push_push (c : Conn ε σ) (a b : Bytes) : push S (push S c a) b = push S c (a ++ b) := by
  have hFrames := Decoder.frames_append (D := S.decoder) (c.inbox ++ a) b
  rw [List.append_assoc] at hFrames
  rw [push_eq S c (a ++ b), hFrames, List.foldl_append]
  rfl

/-- One whole request that leaves nothing over. -/
theorem push_whole {d : Served ε σ} {b : Bytes} {req : ρ} (h : S.decoder.decode b = some (req, [])) :
    push S ⟨d, []⟩ b = ⟨serve S d req, []⟩ := by
  rw [push_eq, List.nil_append, Decoder.frames_of_some h, Decoder.frames_nil]
  rfl

theorem serve_ok {s s' : σ} {outbox out : Bytes} {req : ρ} (h : S.handle s req = (s', .ok out)) :
    serve S ⟨s, outbox, none⟩ req = ⟨s', outbox ++ out, none⟩ := by
  rw [serve]
  simp only [h]

theorem serve_error {s s' : σ} {outbox : Bytes} {req : ρ} {e : ε} (h : S.handle s req = (s', .error e)) :
    serve S ⟨s, outbox, none⟩ req = ⟨s', outbox, some e⟩ := by
  rw [serve]
  simp only [h]

/-! ## What a program has received -/

/-- The same connection, with `w` to be received before everything else. -/
def Conn.behind (w : Bytes) (c : Conn ε σ) : Conn ε σ :=
  { c with served := { c.served with outbox := w ++ c.served.outbox } }

theorem behind_behind (a b : Bytes) (c : Conn ε σ) : (c.behind b).behind a = c.behind (a ++ b) := by
  simp only [Conn.behind, List.append_assoc]

theorem opened_behind (w : Bytes) (s : σ) : (opened s : Conn ε σ).behind w = ⟨⟨s, w, none⟩, []⟩ := by
  simp only [Conn.behind, opened, List.append_nil]

/-- No whole request is left among the bytes that have come in. -/
def Settled (c : Conn ε σ) : Prop := S.decoder.frames c.inbox = ([], c.inbox)

theorem settled_opened (s : σ) : Settled S (opened s : Conn ε σ) := Decoder.frames_nil

theorem settled_push (c : Conn ε σ) (b : Bytes) : Settled S (push S c b) := by
  have hFrames := Decoder.frames_append (D := S.decoder) (c.inbox ++ b) []
  rw [List.append_nil, List.append_nil] at hFrames
  have hNone := congrArg (fun p => p.1.length) hFrames
  simp only [List.length_append, Nat.left_eq_add, List.length_eq_zero_iff] at hNone
  exact Prod.ext hNone (congrArg Prod.snd hFrames).symm

theorem push_nil {c : Conn ε σ} (h : Settled S c) : push S c [] = c := by
  rw [push_eq, List.append_nil, h]
  rfl

theorem foldl_serve_behind (w : Bytes) (reqs : List ρ) (d : Served ε σ) :
    reqs.foldl (serve S) { d with outbox := w ++ d.outbox } =
      { reqs.foldl (serve S) d with outbox := w ++ (reqs.foldl (serve S) d).outbox } := by
  induction reqs generalizing d with
  | nil => rfl
  | cons req reqs ih =>
    have hServe : serve S { d with outbox := w ++ d.outbox } req =
        { serve S d req with outbox := w ++ (serve S d req).outbox } := by
      simp only [serve]
      split
      · rfl
      · split
        · rw [List.append_assoc]
        · rfl
    rw [List.foldl_cons, List.foldl_cons, hServe]
    exact ih _

theorem push_behind (w : Bytes) (c : Conn ε σ) (b : Bytes) : push S (c.behind w) b = (push S c b).behind w := by
  rw [push_eq, push_eq, Conn.behind, foldl_serve_behind]
  rfl

theorem pull_ok {c c' : Conn ε σ} {n : Nat} {b : Bytes} (h : pull S c n = .ok (b, c')) : c = c'.behind b := by
  rw [pull] at h
  split at h
  · cases h
    rw [Conn.behind, List.take_append_drop]
  · cases h

theorem settled_pull {c c' : Conn ε σ} {n : Nat} {b : Bytes} (h : Settled S c) (hPull : pull S c n = .ok (b, c')) :
    Settled S c' := by
  rw [pull_ok S hPull] at h
  exact h

/-- What a program has received comes first in what the server puts out when it gets all of what the program has
sent at once. -/
theorem runs_pushed {α : Type} {p : Program ε α} {c c' : Conn ε σ} {a : α} {out inn : List Bytes}
    (hSettled : Settled S c) (h : Runs (peer S) p c a c' out inn) : push S c out.flatten = c'.behind inn.flatten := by
  induction p generalizing c out inn with
  | ret a' =>
    obtain ⟨_, rfl, rfl, rfl⟩ := runs_ret_iff.mp h
    exact push_nil S hSettled
  | fail e => exact absurd h not_runs_fail
  | send b next ih =>
    obtain ⟨rest, rfl, hNext⟩ := runs_send_iff.mp h
    rw [List.flatten_cons, ← push_push]
    exact ih (settled_push S c b) hNext
  | recv n next ih =>
    obtain ⟨b, c₁, rest, hPull, rfl, hNext⟩ := runs_recv_iff.mp h
    have hNext := ih b (settled_pull S hSettled hPull) hNext
    rw [pull_ok S hPull, push_behind, hNext, behind_behind, List.flatten_cons]

end

/-! ## Packets -/

section Packets
variable {ε σ : Type}

theorem decode_shrinks {b body rest : Bytes} (h : Packet.decode b = some (body, rest)) : rest.length < b.length := by
  rw [(Packet.eq_encode_of_decode h).1, List.length_append, Packet.length_encode]
  omega

theorem decode_stable {b body rest : Bytes} (c : Bytes) (h : Packet.decode b = some (body, rest)) :
    Packet.decode (b ++ c) = some (body, rest ++ c) := by
  obtain ⟨hBytes, hSize⟩ := Packet.eq_encode_of_decode h
  rw [hBytes, List.append_assoc]
  exact Packet.decode_encode hSize (rest ++ c)

def packets : Decoder Bytes where
  decode := Packet.decode
  shrinks := decode_shrinks
  stable := decode_stable

theorem packets_decode : packets.decode = Packet.decode := rfl

theorem frames_packets (b : Bytes) :
    b = (packets.frames b).1.flatMap Packet.encode ++ (packets.frames b).2 ∧
      ∀ body ∈ (packets.frames b).1, body.length < 2 ^ 64 := by
  induction b using Decoder.frames_induction (D := packets) with
  | hNone b h =>
    rw [Decoder.frames_of_none h]
    exact ⟨rfl, List.forall_mem_nil _⟩
  | hSome b body rest h ih =>
    obtain ⟨hBytes, hSize⟩ := Packet.eq_encode_of_decode h
    obtain ⟨hRest, hSizes⟩ := ih
    rw [Decoder.frames_of_some h]
    refine ⟨?_, List.forall_mem_cons.mpr ⟨hSize, hSizes⟩⟩
    rw [List.flatMap_cons, List.append_assoc, ← hRest, hBytes]

/-- A packet for every packet. -/
def answering (blocked : ε) (process : σ → Bytes → σ × Except ε Bytes) : Server Bytes ε σ where
  decoder := packets
  handle s body := let r := process s body; (r.1, r.2.map Packet.encode)
  blocked := blocked

theorem answering_decoder (blocked : ε) (process : σ → Bytes → σ × Except ε Bytes) :
    (answering blocked process).decoder = packets := rfl

/-- The length and the body are sent by two calls. -/
def sendPacket (body : Bytes) : Program ε Unit := do
  Program.put (word64 (.ofNat 64 body.length))
  Program.put body

def receivePacket : Program ε Bytes := do
  let len ← Program.get 8
  Program.get (readWord64 len).toNat

variable {blocked : ε} {process : σ → Bytes → σ × Except ε Bytes} {s s' : σ} {body out : Bytes}

theorem sendPacket_runs (h : process s body = (s', .ok out)) (hSize : body.length < 2 ^ 64) :
    Runs (peer (answering blocked process)) (sendPacket body) (opened s) () ⟨⟨s', Packet.encode out, none⟩, []⟩
      [word64 (.ofNat 64 body.length), body] [] := by
  have hServed : (answering blocked process).handle s body = (s', .ok (Packet.encode out)) := by
    simp only [answering, h]
    rfl
  have hDecode : (answering blocked process).decoder.decode (Packet.encode body) = some (body, []) := by
    have hDecode := Packet.decode_encode hSize []
    rw [List.append_nil] at hDecode
    rw [answering_decoder, packets_decode, hDecode]
  have hPush : (peer (answering blocked process)).push ((peer (answering blocked process)).push (opened s)
      (word64 (.ofNat 64 body.length))) body = ⟨⟨s', Packet.encode out, none⟩, []⟩ := by
    rw [peer_push, push_push, opened, ← Packet.encode, push_whole _ hDecode, serve_ok _ hServed, List.nil_append]
  have hSend : (sendPacket body : Program ε Unit) = .send (word64 (.ofNat 64 body.length)) (.send body (.ret ())) := rfl
  rw [hSend]
  exact Runs.send rfl (Runs.send hPush rfl)

theorem receivePacket_runs (S : Server Bytes ε σ) (hSize : out.length < 2 ^ 64) :
    Runs (peer S) receivePacket ⟨⟨s, Packet.encode out, none⟩, []⟩ out (opened s) []
      [word64 (.ofNat 64 out.length), out] := by
  have hTake : (Packet.encode out).take 8 = word64 (.ofNat 64 out.length) := List.take_left' (length_word64 _)
  have hDrop : (Packet.encode out).drop 8 = out := List.drop_left' (length_word64 _)
  have hLength : pull S ⟨⟨s, Packet.encode out, none⟩, []⟩ 8 =
      .ok (word64 (.ofNat 64 out.length), ⟨⟨s, out, none⟩, []⟩) := by
    rw [pull, if_pos (by rw [Packet.length_encode]; omega), hTake, hDrop]
  have hBody : pull S ⟨⟨s, out, none⟩, []⟩ out.length = .ok (out, opened s) := by
    rw [pull, if_pos (Nat.le_refl _), List.take_length, List.drop_length]
    rfl
  have hReceive : (receivePacket : Program ε Bytes) = .recv 8 fun len => .recv (readWord64 len).toNat .ret := rfl
  rw [hReceive]
  refine Runs.recv hLength ?_
  rw [readWord64_word64, Packet.toNat_length hSize]
  exact Runs.recv hBody rfl

/-- The client gets the answer to what it has sent, and nothing is left over. -/
theorem exchange_runs (h : process s body = (s', .ok out)) (hBody : body.length < 2 ^ 64)
    (hOut : out.length < 2 ^ 64) :
    Runs (peer (answering blocked process)) (sendPacket body >>= fun _ => receivePacket) (opened s) out (opened s')
      [word64 (.ofNat 64 body.length), body] [word64 (.ofNat 64 out.length), out] :=
  (sendPacket_runs h hBody).bind (receivePacket_runs _ hOut)

end Packets
end Service
