import Bisen.Lib.Wire
import Mathlib.Data.Nat.Find

/-! # Sending a buffer over TLS

`ssl_send_all` adds whatever `mbedtls_ssl_write` returns to an unsigned total, and only -1 leaves the
loop. Any other error code moves the total back, so bytes that were sent are sent again; the one way out
is a total that wraps past the length.
-/
namespace Bisen.SendAll
open Wire
set_option autoImplicit false

/-- `x += n` on a `size_t`, for a `long` `n`. -/
def sizeTAdd (x : Nat) (n : Int) : Nat := (((x : Int) + n) % 2 ^ 64).toNat

structure Sending where
  total : Nat
  bytesleft : Nat
  deriving DecidableEq, Repr

inductive Progress where
  | sending (s : Sending)
  | returned (ret : Int)
  deriving DecidableEq, Repr

def maxChunk : Nat := 16384

def Sending.chunk (s : Sending) : Nat := if s.bytesleft > maxChunk then maxChunk else s.bytesleft

/-- A positive answer counts bytes that were offered; every other one is an error code. -/
def mbedtlsSslWrite (answer : Int) (size : Nat) : Int := if 0 < answer then min answer size else answer

/-- The head of the loop, and what follows it. -/
def checkTotal (len : Nat) (s : Sending) (n : Int) : Progress :=
  if s.total < len then .sending s
  else .returned (if n = -1 ∨ s.total ≠ len then -1 else 0)

def step (len : Nat) (answer : Int) : Progress → Progress
  | .returned ret => .returned ret
  | .sending s =>
    let n := mbedtlsSslWrite answer s.chunk
    if n = -1 then .returned (-1)
    else checkTotal len ⟨sizeTAdd s.total n, sizeTAdd s.bytesleft (-n)⟩ n

/-- After `k` calls of `mbedtls_ssl_write`. -/
def sslSendAll (len : Nat) (answers : Nat → Int) : Nat → Progress
  | 0 => checkTotal len ⟨0, len⟩ 0
  | k + 1 => step len (answers k) (sslSendAll len answers k)

/-- The range of the buffer that was passed, and the answer. -/
structure Call where
  off : Nat
  size : Nat
  n : Int
  deriving DecidableEq, Repr

def callAt (len : Nat) (answers : Nat → Int) (k : Nat) : Option Call :=
  match sslSendAll len answers k with
  | .sending s => some ⟨s.total, s.chunk, mbedtlsSslWrite (answers k) s.chunk⟩
  | .returned _ => none

def Call.accepted (buf : Bytes) (c : Call) : Bytes := if 0 < c.n then slice buf c.off c.n.toNat else []

/-- What the peer has been sent by the first `k` calls. -/
def accepted (buf : Bytes) (answers : Nat → Int) (k : Nat) : Bytes :=
  (List.range k).flatMap fun j => ((callAt buf.length answers j).map (Call.accepted buf)).getD []

/-- A call returns an `int` and never 0. -/
structure Answers (answers : Nat → Int) : Prop where
  ne_zero : ∀ k, answers k ≠ 0
  int : ∀ k, -2 ^ 31 ≤ answers k ∧ answers k < 2 ^ 31

structure Transmits (buf : Bytes) (answers : Nat → Int) : Prop where
  terminates : (∃ m, ∀ k, m ≤ k → 0 < answers k) → ∃ k ret, sslSendAll buf.length answers k = .returned ret
  inside : ∀ k c, callAt buf.length answers k = some c → 0 < c.size ∧ c.off + c.size ≤ buf.length
  exact : ∀ k, sslSendAll buf.length answers k = .returned 0 → accepted buf answers k = buf
  errors : ∀ k c, callAt buf.length answers k = some c → c.n < 0 →
    sslSendAll buf.length answers (k + 1) = .returned (-1) ∨
      ∃ c', callAt buf.length answers (k + 1) = some c' ∧ c'.off = c.off ∧ c'.size = c.size

/-- The bytes that the first `k` calls accept when none of them fails. -/
def sent (len : Nat) (answers : Nat → Int) : Nat → Nat
  | 0 => 0
  | k + 1 => sent len answers k + min (answers k).toNat (min maxChunk (len - sent len answers k))

/-- The first error is -1, or takes the total below zero and so past the length. -/
def FirstErrorEnds (len : Nat) (answers : Nat → Int) : Prop :=
  ∀ k, (∀ j, j < k → 0 < answers j) → sent len answers k < len → answers k < 0 →
    answers k = -1 ∨ len < sizeTAdd (sent len answers k) (answers k)

section Run
variable {len : Nat} {answers : Nat → Int}

theorem sent_le (k : Nat) : sent len answers k ≤ len := by
  induction k with
  | zero => exact Nat.zero_le len
  | succ k ih =>
    rw [sent]
    omega

theorem chunk_eq (total bytesleft : Nat) : (Sending.mk total bytesleft).chunk = min maxChunk bytesleft := by
  simp only [Sending.chunk]
  split <;> omega

theorem step_positive (hLen : len < 2 ^ 64) {k : Nat} (hPos : 0 < answers k) (hLt : sent len answers k < len) :
    step len (answers k) (.sending ⟨sent len answers k, len - sent len answers k⟩) =
      if sent len answers (k + 1) < len then
        .sending ⟨sent len answers (k + 1), len - sent len answers (k + 1)⟩
      else .returned 0 := by
  have hNext : sent len answers (k + 1) ≤ len := sent_le (k + 1)
  have hAnswer : mbedtlsSslWrite (answers k) (min maxChunk (len - sent len answers k)) =
      (sent len answers (k + 1) : Int) - sent len answers k := by
    rw [mbedtlsSslWrite, if_pos hPos, sent]
    omega
  have hGrows : sent len answers k < sent len answers (k + 1) := by
    rw [sent, maxChunk]
    omega
  have hTotal : sizeTAdd (sent len answers k) ((sent len answers (k + 1) : Int) - sent len answers k) =
      sent len answers (k + 1) := by
    rw [sizeTAdd]
    omega
  have hLeft : sizeTAdd (len - sent len answers k) (-((sent len answers (k + 1) : Int) - sent len answers k)) =
      len - sent len answers (k + 1) := by
    rw [sizeTAdd]
    omega
  rw [step]
  simp only [chunk_eq, hAnswer, hTotal, hLeft]
  rw [if_neg (by omega), checkTotal]
  simp only
  split
  · rfl
  · rw [if_neg (by omega)]

theorem sending_of_positive (hLen : len < 2 ^ 64) {k : Nat} (hPos : ∀ j, j < k → 0 < answers j)
    (hLt : sent len answers k < len) :
    sslSendAll len answers k = .sending ⟨sent len answers k, len - sent len answers k⟩ := by
  induction k with
  | zero =>
    rw [sslSendAll, checkTotal]
    exact if_pos hLt
  | succ k ih =>
    have hBefore : sent len answers k < len := by
      rw [sent] at hLt
      omega
    rw [sslSendAll, ih (fun j hj => hPos j (Nat.lt_succ_of_lt hj)) hBefore,
      step_positive hLen (hPos k (Nat.lt_succ_self k)) hBefore, if_pos hLt]

theorem callAt_of_sending {k total bytesleft : Nat} (h : sslSendAll len answers k = .sending ⟨total, bytesleft⟩) :
    callAt len answers k =
      some ⟨total, min maxChunk bytesleft, mbedtlsSslWrite (answers k) (min maxChunk bytesleft)⟩ := by
  rw [callAt, h]
  simp only [chunk_eq]

theorem callAt_of_returned {k : Nat} {ret : Int} (h : sslSendAll len answers k = .returned ret) :
    callAt len answers k = none := by
  rw [callAt, h]

/-- Every call that accepts something while all have done so takes the send further. -/
theorem le_sent {k : Nat} (hPos : ∀ j, j < k → 0 < answers j) (hLt : sent len answers k < len) :
    k ≤ sent len answers k := by
  induction k with
  | zero => exact Nat.zero_le _
  | succ k ih =>
    have hLast := hPos k (Nat.lt_succ_self k)
    rw [sent, maxChunk] at hLt ⊢
    have hRest := ih (fun j hj => hPos j (Nat.lt_succ_of_lt hj)) (by omega)
    omega

end Run

/-! ## Runs without a code that moves the total back -/

section Stages
variable {buf : Bytes} {answers : Nat → Int}

inductive Stage (buf : Bytes) (answers : Nat → Int) (k : Nat) : Prop where
  | sending (positive : ∀ j, j < k → 0 < answers j) (unsent : sent buf.length answers k < buf.length)
      (accepts : accepted buf answers k = buf.take (sent buf.length answers k))
  | complete (returns : sslSendAll buf.length answers k = .returned 0) (accepts : accepted buf answers k = buf)
  | failed (returns : sslSendAll buf.length answers k = .returned (-1))

theorem accepted_succ (k : Nat) :
    accepted buf answers (k + 1) =
      accepted buf answers k ++ ((callAt buf.length answers k).map (Call.accepted buf)).getD [] := by
  rw [accepted, List.range_succ, List.flatMap_append, List.flatMap_singleton]
  rfl

theorem accepted_positive (hLen : buf.length < 2 ^ 64) {k : Nat} (hPos : ∀ j, j < k + 1 → 0 < answers j)
    (hLt : sent buf.length answers k < buf.length)
    (hAccepts : accepted buf answers k = buf.take (sent buf.length answers k)) :
    accepted buf answers (k + 1) = buf.take (sent buf.length answers (k + 1)) := by
  have hLast := hPos k (Nat.lt_succ_self k)
  have hSending := sending_of_positive hLen (fun j hj => hPos j (Nat.lt_succ_of_lt hj)) hLt
  have hAnswer : mbedtlsSslWrite (answers k) (min maxChunk (buf.length - sent buf.length answers k)) =
      ((min (answers k).toNat (min maxChunk (buf.length - sent buf.length answers k)) : Nat) : Int) := by
    rw [mbedtlsSslWrite, if_pos hLast]
    omega
  have hSome : (0 : Int) <
      ((min (answers k).toNat (min maxChunk (buf.length - sent buf.length answers k)) : Nat) : Int) := by
    rw [maxChunk]
    omega
  rw [accepted_succ, callAt_of_sending hSending, hAccepts, hAnswer]
  simp only [Option.map_some, Option.getD_some, Call.accepted, if_pos hSome, Int.toNat_natCast]
  rw [sent, List.take_add]
  rfl

theorem error_returns (hLen : buf.length < 2 ^ 64) (hFirst : FirstErrorEnds buf.length answers) {k : Nat}
    (hPos : ∀ j, j < k → 0 < answers j) (hLt : sent buf.length answers k < buf.length) (hError : answers k < 0) :
    sslSendAll buf.length answers (k + 1) = .returned (-1) := by
  have hCode : ∀ size, mbedtlsSslWrite (answers k) size = answers k := fun size => if_neg (by omega)
  rw [sslSendAll, sending_of_positive hLen hPos hLt, SendAll.step]
  simp only [hCode]
  obtain hOne | hPast := hFirst k hPos hLt hError
  · exact if_pos hOne
  · split
    · rfl
    · rw [checkTotal, if_neg (Nat.lt_asymm hPast), if_pos (.inr (Nat.ne_of_gt hPast))]

theorem Stage.start : Stage buf answers 0 := by
  obtain hEmpty | hLt := Nat.eq_zero_or_pos buf.length
  · refine .complete ?_ (List.eq_nil_of_length_eq_zero hEmpty).symm
    rw [sslSendAll, checkTotal, hEmpty]
    rfl
  · exact .sending (fun j hj => absurd hj (Nat.not_lt_zero j)) hLt rfl

theorem Stage.step (hLen : buf.length < 2 ^ 64) (hAnswers : Answers answers)
    (hFirst : FirstErrorEnds buf.length answers) {k : Nat} (h : Stage buf answers k) :
    Stage buf answers (k + 1) := by
  cases h with
  | failed hReturns =>
    refine .failed ?_
    rw [sslSendAll, hReturns]
    rfl
  | complete hReturns hAccepts =>
    refine .complete ?_ ?_
    · rw [sslSendAll, hReturns]
      rfl
    · rw [accepted_succ, callAt_of_returned hReturns, hAccepts]
      exact List.append_nil buf
  | sending hPos hLt hAccepts =>
    have hSending := sending_of_positive hLen hPos hLt
    obtain hError | hZero | hLast := lt_trichotomy (answers k) 0
    · exact .failed (error_returns hLen hFirst hPos hLt hError)
    · exact absurd hZero (hAnswers.ne_zero k)
    · have hAll : ∀ j, j < k + 1 → 0 < answers j := by
        intro j hj
        obtain hj | rfl := Nat.lt_succ_iff_lt_or_eq.mp hj
        · exact hPos j hj
        · exact hLast
      have hNext := accepted_positive hLen hAll hLt hAccepts
      obtain hMore | hDone := Nat.lt_or_ge (sent buf.length answers (k + 1)) buf.length
      · exact .sending hAll hMore hNext
      · refine .complete ?_ ?_
        · rw [sslSendAll, hSending, step_positive hLen hLast hLt, if_neg (Nat.not_lt.mpr hDone)]
        · rw [hNext, List.take_of_length_le hDone]

theorem Stage.all (hLen : buf.length < 2 ^ 64) (hAnswers : Answers answers)
    (hFirst : FirstErrorEnds buf.length answers) (k : Nat) : Stage buf answers k := by
  induction k with
  | zero => exact .start
  | succ k ih => exact ih.step hLen hAnswers hFirst

/-- A call is only made in the first stage. -/
theorem Stage.call {k : Nat} (hLen : buf.length < 2 ^ 64) (h : Stage buf answers k) {c : Call}
    (hCall : callAt buf.length answers k = some c) :
    (∀ j, j < k → 0 < answers j) ∧ sent buf.length answers k < buf.length ∧
      c = ⟨sent buf.length answers k, min maxChunk (buf.length - sent buf.length answers k),
        mbedtlsSslWrite (answers k) (min maxChunk (buf.length - sent buf.length answers k))⟩ := by
  cases h with
  | sending hPos hLt _ =>
    rw [callAt_of_sending (sending_of_positive hLen hPos hLt)] at hCall
    exact ⟨hPos, hLt, (Option.some.inj hCall).symm⟩
  | complete hReturns _ =>
    rw [callAt_of_returned hReturns] at hCall
    cases hCall
  | failed hReturns =>
    rw [callAt_of_returned hReturns] at hCall
    cases hCall

end Stages

section Iff
variable {buf : Bytes} {answers : Nat → Int} (hLen : buf.length < 2 ^ 64) (hAnswers : Answers answers)
include hLen hAnswers

theorem transmits_of_firstErrorEnds (hFirst : FirstErrorEnds buf.length answers) : Transmits buf answers := by
  have hStage := Stage.all hLen hAnswers hFirst
  constructor
  case terminates =>
    intro _
    cases hStage buf.length with
    | sending hPos hLt _ => exact absurd (le_sent hPos hLt) (Nat.not_le.mpr hLt)
    | complete hReturns _ => exact ⟨_, _, hReturns⟩
    | failed hReturns => exact ⟨_, _, hReturns⟩
  case inside =>
    intro k c hCall
    obtain ⟨_, hLt, rfl⟩ := (hStage k).call hLen hCall
    simp only [maxChunk]
    omega
  case exact =>
    intro k hReturns
    cases hStage k with
    | sending hPos hLt _ =>
      rw [sending_of_positive hLen hPos hLt] at hReturns
      cases hReturns
    | complete _ hAccepts => exact hAccepts
    | failed hFailed =>
      rw [hFailed] at hReturns
      cases hReturns
  case errors =>
    intro k c hCall hError
    obtain ⟨hPos, hLt, rfl⟩ := (hStage k).call hLen hCall
    refine .inl (error_returns hLen hFirst hPos hLt ?_)
    simp only [mbedtlsSslWrite, maxChunk] at hError
    split at hError <;> omega

/-- A code that leaves the total below the length makes the next call pass another range. -/
theorem firstErrorEnds_of_transmits (h : Transmits buf answers) : FirstErrorEnds buf.length answers := by
  intro k hPos hLt hError
  by_contra hNot
  obtain ⟨hOther, hBack⟩ := not_or.mp hNot
  have hSending := sending_of_positive hLen hPos hLt
  have hCode : ∀ size, mbedtlsSslWrite (answers k) size = answers k := fun size => if_neg (by omega)
  have hInt := hAnswers.int k
  have hMoved : sizeTAdd (sent buf.length answers k) (answers k) ≠ sent buf.length answers k := by
    rw [sizeTAdd]
    omega
  have hNext : sslSendAll buf.length answers (k + 1) =
      checkTotal buf.length ⟨sizeTAdd (sent buf.length answers k) (answers k),
        sizeTAdd (buf.length - sent buf.length answers k) (-answers k)⟩ (answers k) := by
    rw [sslSendAll, hSending, step]
    simp only [hCode, if_neg hOther]
  have hCall := callAt_of_sending hSending
  rw [hCode] at hCall
  simp only [checkTotal] at hNext
  obtain hLast | ⟨c, hAgain, hOff, _⟩ := h.errors k _ hCall hError
  · rw [hLast] at hNext
    split at hNext
    · cases hNext
    · case isFalse hFar =>
      rw [if_neg (by omega)] at hNext
      cases hNext
  · split at hNext
    · rw [callAt_of_sending hNext] at hAgain
      obtain rfl := Option.some.inj hAgain
      exact hMoved hOff
    · rw [callAt_of_returned hNext] at hAgain
      cases hAgain

/-- The buffer arrives, or an error is reported, exactly when the first error leaves the loop. -/
theorem transmits_iff : Transmits buf answers ↔ FirstErrorEnds buf.length answers := by
  constructor
  · exact firstErrorEnds_of_transmits hLen hAnswers
  · exact transmits_of_firstErrorEnds hLen hAnswers

end Iff

/-- A failed send (-0x4e) behind 77 of 200 bytes takes the total below zero, and the failure is reported. -/
theorem transmits_iff_sendFailed :
    let answers : Nat → Int := fun k => if k = 1 then -0x4e else 77
    Transmits (List.replicate 200 0x61) answers ∧ sslSendAll 200 answers 2 = .returned (-1) := by
  intro answers
  have hAnswers : Answers answers := by
    constructor <;> intro k <;> simp only [answers] <;> split <;> decide
  refine ⟨(transmits_iff (by rw [List.length_replicate]; decide) hAnswers).mpr ?_, by decide⟩
  rw [List.length_replicate]
  intro k hPos hLt hError
  obtain rfl : k = 1 := by
    by_contra hOther
    simp only [answers, if_neg hOther] at hError
    exact absurd hError (by decide)
  exact .inr (by decide)

/-- A failed send (-0x4e) after the first chunk: its last 78 bytes go out twice, and 0 is returned. -/
theorem not_transmits_sendFailed :
    let answers : Nat → Int := fun k => if k = 1 then -0x4e else 16384
    sslSendAll 20000 answers 3 = .returned 0 ∧
      callAt 20000 answers 0 = some ⟨0, 16384, 16384⟩ ∧ callAt 20000 answers 2 = some ⟨16306, 3694, 3694⟩ ∧
      ¬ ∀ (buf : Bytes) (answers : Nat → Int), buf.length < 2 ^ 64 → Answers answers → Transmits buf answers := by
  intro answers
  refine ⟨by decide, by decide, by decide, fun h => ?_⟩
  have hAnswers : Answers answers := by
    constructor <;> intro k <;> simp only [answers] <;> split <;> decide
  have hLength : (List.replicate 20000 (0 : UInt8)).length = 20000 := List.length_replicate
  have hLen : (List.replicate 20000 (0 : UInt8)).length < 2 ^ 64 := by rw [hLength]; decide
  have hFirst := firstErrorEnds_of_transmits hLen hAnswers (h _ answers hLen hAnswers)
  rw [hLength] at hFirst
  have hPos : ∀ j, j < 1 → 0 < answers j := by
    intro j hj
    obtain rfl := Nat.lt_one_iff.mp hj
    decide
  obtain hOne | hPast := hFirst 1 hPos (by decide) (by decide)
  · exact absurd hOne (by decide)
  · exact absurd hPast (by decide)

end Bisen.SendAll
