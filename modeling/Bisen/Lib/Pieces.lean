import Bisen.Lib.Service

/-! # Calls that move less than they are asked to

A send and a receive are loops of calls, each of which moves at least one byte and may move no more. A program
over a service has the same runs then: the same results, and the same bytes in both directions.
-/
namespace Pieces
open Wire Socket Service
set_option autoImplicit false

section Code
variable {ε α : Type} (sizes : Nat → Nat)

/-- How many of `n` bytes the `k`-th call moves. -/
def moved (k n : Nat) : Nat := min (max 1 (sizes k)) n

/-- The loop that sends `b`, and then what follows with the number of calls so far. -/
def sendAll : Nat → Nat → Bytes → (Nat → Program ε α) → Program ε α
  | 0, k, _, next => next k
  | fuel + 1, k, b, next =>
    if b.length = 0 then next k
    else .send (b.take (moved sizes k b.length)) (sendAll fuel (k + 1) (b.drop (moved sizes k b.length)) next)

/-- The loop that receives `n` bytes behind those it has got. -/
def receiveAll : Nat → Nat → Nat → Bytes → (Nat → Bytes → Program ε α) → Program ε α
  | 0, k, _, got, next => next k got
  | fuel + 1, k, n, got, next =>
    if n = 0 then next k got
    else .recv (moved sizes k n) fun b => receiveAll fuel (k + 1) (n - moved sizes k n) (got ++ b) next

def inPieces : Program ε α → Nat → Program ε α
  | .ret a, _ => .ret a
  | .fail e, _ => .fail e
  | .send b next, k => sendAll sizes b.length k b (inPieces next)
  | .recv n next, k => receiveAll sizes n k n [] fun k b => inPieces (next b) k

end Code

/-! ## The loops -/

section Loops
variable {ε α : Type} (sizes : Nat → Nat)

def sends (pieces : List Bytes) (p : Program ε α) : Program ε α := pieces.foldr .send p

def receives : List Nat → Bytes → (Bytes → Program ε α) → Program ε α
  | [], got, next => next got
  | n :: ns, got, next => .recv n fun b => receives ns (got ++ b) next

theorem moved_bounds (k : Nat) {n : Nat} (hn : n ≠ 0) : 0 < moved sizes k n ∧ moved sizes k n ≤ n := by
  unfold moved
  omega

theorem sendAll_eq {fuel : Nat} {b : Bytes} (hFuel : b.length ≤ fuel) (k : Nat) (next : Nat → Program ε α) :
    ∃ k' pieces, pieces.flatten = b ∧ sendAll sizes fuel k b next = sends pieces (next k') := by
  induction fuel generalizing k b with
  | zero => exact ⟨k, [], (List.length_eq_zero_iff.mp (Nat.le_zero.mp hFuel)).symm, rfl⟩
  | succ fuel ih =>
    rw [sendAll]
    split
    · case isTrue hNil => exact ⟨k, [], (List.length_eq_zero_iff.mp hNil).symm, rfl⟩
    · case isFalse hMore =>
      have hMoved := moved_bounds sizes k hMore
      obtain ⟨k', pieces, hPieces, hRest⟩ := ih (b := b.drop (moved sizes k b.length))
        (by rw [List.length_drop]; omega) (k + 1)
      refine ⟨k', b.take (moved sizes k b.length) :: pieces, ?_, ?_⟩
      · rw [List.flatten_cons, hPieces, List.take_append_drop]
      · rw [hRest]
        rfl

/-- How the bytes are asked for does not depend on what they are. -/
theorem receiveAll_eq {fuel n : Nat} (hFuel : n ≤ fuel) (k : Nat) (next : Nat → Bytes → Program ε α) :
    ∃ k' ns, ns.sum = n ∧ ∀ got, receiveAll sizes fuel k n got next = receives ns got (next k') := by
  induction fuel generalizing k n with
  | zero => exact ⟨k, [], (Nat.le_zero.mp hFuel).symm, fun _ => rfl⟩
  | succ fuel ih =>
    by_cases hNil : n = 0
    · refine ⟨k, [], hNil.symm, fun got => ?_⟩
      rw [receiveAll, if_pos hNil]
      rfl
    · have hMoved := moved_bounds sizes k hNil
      obtain ⟨k', ns, hSum, hRest⟩ := ih (n := n - moved sizes k n) (by omega) (k + 1)
      refine ⟨k', moved sizes k n :: ns, ?_, fun got => ?_⟩
      · rw [List.sum_cons, hSum]
        omega
      · rw [receiveAll, if_neg hNil, receives]
        exact congrArg _ (funext fun b => hRest (got ++ b))

end Loops

/-! ## Over a service -/

section Runs
variable {ρ ε σ α : Type} (S : Server ρ ε σ)

theorem pull_behind {b : Bytes} {n : Nat} (h : b.length = n) (c : Conn ε σ) : pull S (c.behind b) n = .ok (b, c) := by
  rw [pull, if_pos (by rw [Conn.behind, List.length_append]; omega), Conn.behind, List.take_left' h,
    List.drop_left' h]

theorem pull_zero (c : Conn ε σ) : pull S c 0 = .ok ([], c) := if_pos (Nat.zero_le _)

theorem pull_add {c c' : Conn ε σ} {m n : Nat} {b : Bytes} :
    pull S c (m + n) = .ok (b, c') ↔
      ∃ b₁ b₂ c₁, pull S c m = .ok (b₁, c₁) ∧ pull S c₁ n = .ok (b₂, c') ∧ b = b₁ ++ b₂ := by
  constructor
  · intro h
    obtain rfl := pull_ok S h
    have hLength := (peer S).pull_length _ _ _ _ h
    refine ⟨b.take m, b.drop m, c'.behind (b.drop m), ?_, ?_, (List.take_append_drop m b).symm⟩
    · have hTake : (b.take m).length = m := by
        rw [List.length_take]
        omega
      have hPull := pull_behind S hTake (c'.behind (b.drop m))
      rwa [behind_behind, List.take_append_drop] at hPull
    · have hDrop : (b.drop m).length = n := by
        rw [List.length_drop]
        omega
      exact pull_behind S hDrop c'
  · rintro ⟨b₁, b₂, c₁, h₁, h₂, rfl⟩
    have hLength₁ := (peer S).pull_length _ _ _ _ h₁
    have hLength₂ := (peer S).pull_length _ _ _ _ h₂
    have hBoth : (b₁ ++ b₂).length = m + n := by rw [List.length_append, hLength₁, hLength₂]
    rw [pull_ok S h₁, pull_ok S h₂, behind_behind]
    exact pull_behind S hBoth c'

theorem sends_runs {p : Program ε α} {pieces : List Bytes} {c c' : Conn ε σ} {a : α} {out inn : List Bytes}
    (hSettled : Settled S c) :
    Runs (peer S) (sends pieces p) c a c' out inn ↔
      ∃ rest, out = pieces ++ rest ∧ Runs (peer S) p (push S c pieces.flatten) a c' rest inn := by
  induction pieces generalizing c out with
  | nil =>
    rw [List.flatten_nil, push_nil S hSettled]
    exact ⟨fun h => ⟨out, rfl, h⟩, fun ⟨_, hOut, h⟩ => hOut ▸ h⟩
  | cons b pieces ih =>
    rw [List.flatten_cons, ← push_push]
    constructor
    · intro h
      obtain ⟨rest, rfl, hNext⟩ := runs_send_iff.mp h
      obtain ⟨rest, rfl, hRest⟩ := (ih (settled_push S c b)).mp hNext
      exact ⟨rest, rfl, hRest⟩
    · rintro ⟨rest, rfl, h⟩
      exact runs_send_iff.mpr ⟨_, rfl, (ih (settled_push S c b)).mpr ⟨rest, rfl, h⟩⟩

theorem of_receives {ns : List Nat} {got : Bytes} {next : Bytes → Program ε α} {c c' : Conn ε σ} {a : α}
    {out inn : List Bytes} (h : Runs (peer S) (receives ns got next) c a c' out inn) :
    ∃ parts rest c₁, pull S c ns.sum = .ok (parts.flatten, c₁) ∧ inn = parts ++ rest ∧
      Runs (peer S) (next (got ++ parts.flatten)) c₁ a c' out rest := by
  induction ns generalizing got c inn with
  | nil =>
    refine ⟨[], inn, c, pull_zero S c, rfl, ?_⟩
    rwa [List.flatten_nil, List.append_nil]
  | cons n ns ih =>
    obtain ⟨b, c₁, rest, hPull, rfl, hNext⟩ := runs_recv_iff.mp h
    obtain ⟨parts, rest, c₂, hRest, rfl, hLast⟩ := ih hNext
    refine ⟨b :: parts, rest, c₂, ?_, rfl, ?_⟩
    · rw [List.sum_cons]
      exact (pull_add S).mpr ⟨b, _, c₁, hPull, hRest, rfl⟩
    · rwa [List.flatten_cons, ← List.append_assoc]

theorem receives_runs {ns : List Nat} {got b : Bytes} {next : Bytes → Program ε α} {c c₁ c' : Conn ε σ} {a : α}
    {out rest : List Bytes} (hPull : pull S c ns.sum = .ok (b, c₁))
    (h : Runs (peer S) (next (got ++ b)) c₁ a c' out rest) :
    ∃ parts, parts.flatten = b ∧ Runs (peer S) (receives ns got next) c a c' out (parts ++ rest) := by
  induction ns generalizing got b c with
  | nil =>
    cases (pull_zero S c).symm.trans hPull
    rw [List.append_nil] at h
    exact ⟨[], rfl, h⟩
  | cons n ns ih =>
    rw [List.sum_cons] at hPull
    obtain ⟨b₁, b₂, c₂, hFirst, hRest, rfl⟩ := (pull_add S).mp hPull
    rw [← List.append_assoc] at h
    obtain ⟨parts, rfl, hNext⟩ := ih hRest h
    exact ⟨b₁ :: parts, rfl, runs_recv_iff.mpr ⟨b₁, c₂, parts ++ rest, hFirst, rfl, hNext⟩⟩

/-- A run with this result in which these bytes were sent and received. -/
def Exchanges (p : Program ε α) (c : Conn ε σ) (a : α) (c' : Conn ε σ) (sent received : Bytes) : Prop :=
  ∃ out inn, Runs (peer S) p c a c' out inn ∧ out.flatten = sent ∧ inn.flatten = received

/-- Whatever the calls move, the program does what it does when every call moves all. -/
theorem exchanges_inPieces_iff (sizes : Nat → Nat) {p : Program ε α} {k : Nat} {c c' : Conn ε σ} {a : α}
    {sent received : Bytes} (hSettled : Settled S c) :
    Exchanges S (inPieces sizes p k) c a c' sent received ↔ Exchanges S p c a c' sent received := by
  induction p generalizing k c sent received with
  | ret a => exact Iff.rfl
  | fail e => exact Iff.rfl
  | send b next ih =>
    obtain ⟨k', pieces, rfl, hEq⟩ := sendAll_eq sizes (Nat.le_refl b.length) k (inPieces sizes next)
    rw [inPieces, hEq]
    constructor
    · rintro ⟨out, inn, hRun, rfl, rfl⟩
      obtain ⟨rest, rfl, hNext⟩ := (sends_runs S hSettled).mp hRun
      obtain ⟨out, inn', hRun, hOut, hInn⟩ := (ih (settled_push S c _)).mp ⟨rest, inn, hNext, rfl, rfl⟩
      refine ⟨_, inn', runs_send_iff.mpr ⟨out, rfl, hRun⟩, ?_, hInn⟩
      rw [List.flatten_cons, hOut, List.flatten_append]
    · rintro ⟨out, inn, hRun, rfl, rfl⟩
      obtain ⟨rest, rfl, hNext⟩ := runs_send_iff.mp hRun
      obtain ⟨out, inn', hRun, hOut, hInn⟩ := (ih (settled_push S c _)).mpr ⟨rest, inn, hNext, rfl, rfl⟩
      refine ⟨_, inn', (sends_runs S hSettled).mpr ⟨out, rfl, hRun⟩, ?_, hInn⟩
      rw [List.flatten_append, hOut, List.flatten_cons]
  | recv n next ih =>
    obtain ⟨k', ns, rfl, hEq⟩ := receiveAll_eq sizes (Nat.le_refl n) k
      fun k b => inPieces sizes (next b) k
    rw [inPieces, hEq]
    constructor
    · rintro ⟨out, inn, hRun, rfl, rfl⟩
      obtain ⟨parts, rest, c₁, hPull, rfl, hNext⟩ := of_receives S hRun
      have hSettled₁ : Settled S c₁ := settled_pull S hSettled hPull
      obtain ⟨out', inn, hRun, hOut, hInn⟩ := (ih _ hSettled₁).mp ⟨out, rest, hNext, rfl, rfl⟩
      refine ⟨out', _, runs_recv_iff.mpr ⟨_, c₁, inn, hPull, rfl, hRun⟩, hOut, ?_⟩
      rw [List.flatten_cons, hInn, List.flatten_append]
    · rintro ⟨out, inn, hRun, rfl, rfl⟩
      obtain ⟨b, c₁, rest, hPull, rfl, hNext⟩ := runs_recv_iff.mp hRun
      have hSettled₁ : Settled S c₁ := settled_pull S hSettled hPull
      obtain ⟨out', inn, hRun, hOut, hInn⟩ := (ih b hSettled₁).mpr ⟨out, rest, hNext, rfl, rfl⟩
      have hReceives : ∃ parts, parts.flatten = b ∧
          Runs (peer S) (receives ns [] fun b => inPieces sizes (next b) k') c a c' out' (parts ++ inn) :=
        receives_runs S hPull hRun
      obtain ⟨parts, rfl, hReceives⟩ := hReceives
      refine ⟨out', _, hReceives, hOut, ?_⟩
      rw [List.flatten_append, hInn, List.flatten_cons]

end Runs

end Pieces
