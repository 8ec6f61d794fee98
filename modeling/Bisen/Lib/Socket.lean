import Bisen.Lib.Wire

/-! # Programs that talk over one byte-stream socket

A program sends byte strings, receives a requested number of bytes, and stops with a value
or with an error. The other end is a peer: any state machine that absorbs sent bytes and
hands out bytes on request. Nothing is assumed of a peer beyond the length of what it hands
out, so a statement about every peer is a statement about every behaviour of the other end.
-/
namespace Socket
open Wire
set_option autoImplicit false

inductive Program (ε α : Type) where
  | ret (a : α)
  | fail (e : ε)
  | send (b : Bytes) (next : Program ε α)
  | recv (n : Nat) (next : Bytes → Program ε α)

namespace Program
variable {ε α β γ : Type}

def bind : Program ε α → (α → Program ε β) → Program ε β
  | .ret a, f => f a
  | .fail e, _ => .fail e
  | .send b next, f => .send b (next.bind f)
  | .recv n next, f => .recv n fun b => (next b).bind f

instance : Monad (Program ε) where
  pure := .ret
  bind := bind

def lift : Except ε α → Program ε α
  | .ok a => .ret a
  | .error e => .fail e

def put (b : Bytes) : Program ε Unit := .send b (.ret ())

def get (n : Nat) : Program ε Bytes := .recv n .ret

@[simp] theorem pure_bind (a : α) (f : α → Program ε β) : (pure a >>= f) = f a := rfl
@[simp] theorem ret_bind (a : α) (f : α → Program ε β) : (ret a >>= f) = f a := rfl
@[simp] theorem fail_bind (e : ε) (f : α → Program ε β) : (fail e >>= f) = fail e := rfl
@[simp] theorem send_bind (b : Bytes) (p : Program ε α) (f : α → Program ε β) :
    (send b p >>= f) = send b (p >>= f) := rfl
@[simp] theorem recv_bind (n : Nat) (p : Bytes → Program ε α) (f : α → Program ε β) :
    (recv n p >>= f) = recv n fun b => p b >>= f := rfl
@[simp] theorem put_bind (b : Bytes) (f : Unit → Program ε α) : (put b >>= f) = send b (f ()) := rfl
@[simp] theorem get_bind (n : Nat) (f : Bytes → Program ε α) : (get n >>= f) = recv n f := rfl
@[simp] theorem lift_ok (a : α) : (lift (.ok a) : Program ε α) = ret a := rfl
@[simp] theorem lift_error (e : ε) : (lift (.error e) : Program ε α) = fail e := rfl

theorem bind_assoc (p : Program ε α) (f : α → Program ε β) (g : β → Program ε γ) :
    (p >>= f) >>= g = p >>= fun a => f a >>= g := by
  induction p with
  | ret a => rfl
  | fail e => rfl
  | send b next ih => exact congrArg (send b) ih
  | recv n next ih => exact congrArg (recv n) (funext ih)

end Program

structure Peer (ε σ : Type) where
  push : σ → Bytes → σ
  pull : σ → Nat → Except ε (Bytes × σ)
  pull_length : ∀ s n b s', pull s n = .ok (b, s') → b.length = n

/-- What one run did: its result, the peer's last state, and both directions of traffic. -/
structure Outcome (ε σ α : Type) where
  result : Except ε α
  state : σ
  sent : List Bytes
  received : List Bytes
  deriving DecidableEq

/-- A peer that ignores what it is sent and answers from a list. -/
def Peer.scripted {ε : Type} (blocked : ε) : Peer ε (List Bytes) where
  push s _ := s
  pull s n := match s with
    | [] => .error blocked
    | b :: rest => if b.length = n then .ok (b, rest) else .error blocked
  pull_length := by
    intro s n b s' h
    cases s with
    | nil => cases h
    | cons c rest =>
      simp only at h
      split at h
      · case isTrue hLength =>
        cases h
        exact hLength
      · cases h

section Runs
variable {ε σ α β : Type}

def Program.run (P : Peer ε σ) : Program ε α → σ → Outcome ε σ α
  | .ret a, s => ⟨.ok a, s, [], []⟩
  | .fail e, s => ⟨.error e, s, [], []⟩
  | .send b next, s =>
    let o := next.run P (P.push s b)
    { o with sent := b :: o.sent }
  | .recv n next, s =>
    match P.pull s n with
    | .error e => ⟨.error e, s, [], []⟩
    | .ok (b, s') =>
      let o := (next b).run P s'
      { o with received := b :: o.received }

/-- The run from `s` returns `a`, leaves the peer in `s'`, and the traffic is as given. -/
def Runs (P : Peer ε σ) (p : Program ε α) (s : σ) (a : α) (s' : σ) (out inn : List Bytes) : Prop :=
  p.run P s = ⟨.ok a, s', out, inn⟩

instance [DecidableEq ε] [DecidableEq σ] [DecidableEq α] (P : Peer ε σ) (p : Program ε α) (s : σ) (a : α)
    (s' : σ) (out inn : List Bytes) : Decidable (Runs P p s a s' out inn) :=
  inferInstanceAs (Decidable (p.run P s = ⟨.ok a, s', out, inn⟩))

theorem runs_ret_iff {P : Peer ε σ} {a b : α} {s s' : σ} {out inn : List Bytes} :
    Runs P (.ret a) s b s' out inn ↔ a = b ∧ s = s' ∧ out = [] ∧ inn = [] := by
  simp [Runs, Program.run, eq_comm]

theorem not_runs_fail {P : Peer ε σ} {e : ε} {a : α} {s s' : σ} {out inn : List Bytes} :
    ¬ Runs P (.fail e) s a s' out inn := by
  simp [Runs, Program.run]

theorem runs_send_iff {P : Peer ε σ} {b : Bytes} {p : Program ε α} {a : α} {s s' : σ}
    {out inn : List Bytes} :
    Runs P (.send b p) s a s' out inn ↔
      ∃ rest, out = b :: rest ∧ Runs P p (P.push s b) a s' rest inn := by
  unfold Runs
  rw [Program.run]
  constructor
  · intro h
    injection h with hResult hState hSent hReceived
    refine ⟨_, hSent.symm, ?_⟩
    rw [← hResult, ← hState, ← hReceived]
  · rintro ⟨rest, rfl, h⟩
    rw [h]

theorem runs_recv_iff {P : Peer ε σ} {n : Nat} {p : Bytes → Program ε α} {a : α} {s s' : σ}
    {out inn : List Bytes} :
    Runs P (.recv n p) s a s' out inn ↔
      ∃ b s₁ rest, P.pull s n = .ok (b, s₁) ∧ inn = b :: rest ∧ Runs P (p b) s₁ a s' out rest := by
  unfold Runs
  rw [Program.run]
  cases hPull : P.pull s n with
  | error e => simp
  | ok r =>
    obtain ⟨b, s₁⟩ := r
    constructor
    · intro h
      injection h with hResult hState hSent hReceived
      refine ⟨b, s₁, _, rfl, hReceived.symm, ?_⟩
      rw [← hResult, ← hState, ← hSent]
    · rintro ⟨_, _, rest, hEq, rfl, h⟩
      cases hEq
      simp only [h]

theorem runs_lift_iff {P : Peer ε σ} {x : Except ε α} {a : α} {s s' : σ} {out inn : List Bytes} :
    Runs P (Program.lift x) s a s' out inn ↔ x = .ok a ∧ s = s' ∧ out = [] ∧ inn = [] := by
  cases x with
  | ok b => simp [runs_ret_iff]
  | error e => simp [not_runs_fail]

theorem runs_bind_iff {P : Peer ε σ} {p : Program ε α} {f : α → Program ε β} {b : β} {s s' : σ}
    {out inn : List Bytes} :
    Runs P (p >>= f) s b s' out inn ↔
      ∃ a s₁ out₁ inn₁ out₂ inn₂, Runs P p s a s₁ out₁ inn₁ ∧ Runs P (f a) s₁ b s' out₂ inn₂ ∧
        out = out₁ ++ out₂ ∧ inn = inn₁ ++ inn₂ := by
  induction p generalizing s out inn with
  | ret a =>
    simp only [Program.ret_bind, runs_ret_iff]
    constructor
    · intro h
      exact ⟨a, s, [], [], out, inn, ⟨rfl, rfl, rfl, rfl⟩, h, rfl, rfl⟩
    · rintro ⟨_, _, _, _, _, _, ⟨rfl, rfl, rfl, rfl⟩, h, rfl, rfl⟩
      exact h
  | fail e =>
    simp only [Program.fail_bind, not_runs_fail, false_and, exists_false]
  | send c next ih =>
    simp only [Program.send_bind, runs_send_iff, ih]
    constructor
    · rintro ⟨_, rfl, a, s₁, out₁, inn₁, out₂, inn₂, h₁, h₂, rfl, rfl⟩
      exact ⟨a, s₁, c :: out₁, inn₁, out₂, inn₂, ⟨out₁, rfl, h₁⟩, h₂, rfl, rfl⟩
    · rintro ⟨a, s₁, _, inn₁, out₂, inn₂, ⟨out₁, rfl, h₁⟩, h₂, rfl, rfl⟩
      exact ⟨out₁ ++ out₂, rfl, a, s₁, out₁, inn₁, out₂, inn₂, h₁, h₂, rfl, rfl⟩
  | recv n next ih =>
    simp only [Program.recv_bind, runs_recv_iff, ih]
    constructor
    · rintro ⟨c, s₂, _, hPull, rfl, a, s₁, out₁, inn₁, out₂, inn₂, h₁, h₂, rfl, rfl⟩
      exact ⟨a, s₁, out₁, c :: inn₁, out₂, inn₂, ⟨c, s₂, inn₁, hPull, rfl, h₁⟩, h₂, rfl, rfl⟩
    · rintro ⟨a, s₁, out₁, _, out₂, inn₂, ⟨c, s₂, inn₁, hPull, rfl, h₁⟩, h₂, rfl, rfl⟩
      exact ⟨c, s₂, inn₁ ++ inn₂, hPull, rfl, a, s₁, out₁, inn₁, out₂, inn₂, h₁, h₂, rfl, rfl⟩

theorem Runs.bind {P : Peer ε σ} {p : Program ε α} {f : α → Program ε β} {a : α} {b : β} {s s₁ s' : σ}
    {out₁ inn₁ out₂ inn₂ : List Bytes} (h₁ : Runs P p s a s₁ out₁ inn₁)
    (h₂ : Runs P (f a) s₁ b s' out₂ inn₂) : Runs P (p >>= f) s b s' (out₁ ++ out₂) (inn₁ ++ inn₂) := by
  rw [runs_bind_iff]
  exact ⟨a, s₁, out₁, inn₁, out₂, inn₂, h₁, h₂, rfl, rfl⟩

theorem Runs.send {P : Peer ε σ} {b : Bytes} {p : Program ε α} {a : α} {s s₁ s' : σ} {out inn : List Bytes}
    (hPush : P.push s b = s₁) (h : Runs P p s₁ a s' out inn) : Runs P (.send b p) s a s' (b :: out) inn := by
  rw [runs_send_iff]
  exact ⟨out, rfl, hPush ▸ h⟩

theorem Runs.recv {P : Peer ε σ} {n : Nat} {p : Bytes → Program ε α} {a : α} {b : Bytes} {s s₁ s' : σ}
    {out inn : List Bytes} (hPull : P.pull s n = .ok (b, s₁)) (h : Runs P (p b) s₁ a s' out inn) :
    Runs P (.recv n p) s a s' out (b :: inn) := by
  rw [runs_recv_iff]
  exact ⟨b, s₁, inn, hPull, rfl, h⟩

theorem Runs.result {P : Peer ε σ} {p : Program ε α} {a : α} {s s' : σ} {out inn : List Bytes}
    (h : Runs P p s a s' out inn) : (p.run P s).result = .ok a := congrArg Outcome.result h

theorem Runs.state {P : Peer ε σ} {p : Program ε α} {a : α} {s s' : σ} {out inn : List Bytes}
    (h : Runs P p s a s' out inn) : (p.run P s).state = s' := congrArg Outcome.state h

theorem Runs.run_bind {P : Peer ε σ} {p : Program ε α} {a : α} {s s' : σ} {out inn : List Bytes}
    (h : Runs P p s a s' out inn) (f : α → Program ε β) :
    ((p >>= f).run P s).result = ((f a).run P s').result ∧ ((p >>= f).run P s).state =
    ((f a).run P s').state := by
  induction p generalizing s out inn with
  | ret b =>
    rw [runs_ret_iff] at h
    obtain ⟨rfl, rfl, _, _⟩ := h
    exact ⟨rfl, rfl⟩
  | fail e => exact absurd h not_runs_fail
  | send b next ih =>
    rw [runs_send_iff] at h
    obtain ⟨_, _, h⟩ := h
    exact ih h
  | recv n next ih =>
    rw [runs_recv_iff] at h
    obtain ⟨b, s₁, _, hPull, _, h⟩ := h
    rw [Program.recv_bind, Program.run, hPull]
    exact ih b h

theorem Program.run_bind_error {P : Peer ε σ} {p : Program ε α} {e : ε} {s : σ}
    (h : (p.run P s).result = .error e) (f : α → Program ε β) :
    ((p >>= f).run P s).result = .error e ∧ ((p >>= f).run P s).state = (p.run P s).state := by
  induction p generalizing s with
  | ret a => cases h
  | fail e =>
    cases h
    exact ⟨rfl, rfl⟩
  | send b next ih => exact ih h
  | recv n next ih =>
    rw [Program.run] at h ⊢
    rw [Program.recv_bind, Program.run]
    cases hPull : P.pull s n with
    | error e =>
      rw [hPull] at h
      cases h
      exact ⟨rfl, rfl⟩
    | ok p =>
      rw [hPull] at h
      exact ih p.1 h

theorem Program.runs_of_isOk {P : Peer ε σ} {p : Program ε α} {s : σ} (h : (p.run P s).result.isOk = true) :
    ∃ a, Runs P p s a (p.run P s).state (p.run P s).sent (p.run P s).received := by
  unfold Runs
  revert h
  obtain ⟨e | a, s', out, inn⟩ := p.run P s
  · intro h
    cases h
  · intro _
    exact ⟨a, rfl⟩

theorem Runs.unique {P : Peer ε σ} {p : Program ε α} {a a' : α} {s s₁ s₂ : σ}
    {out out' inn inn' : List Bytes} (h : Runs P p s a s₁ out inn) (h' : Runs P p s a' s₂ out' inn') :
    a = a' ∧ s₁ = s₂ ∧ out = out' ∧ inn = inn' := by
  have hEq := h.symm.trans h'
  simpa using hEq

end Runs
end Socket
