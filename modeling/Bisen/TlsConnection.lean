import Bisen.Lib.Packet
import Bisen.Platform
import Mathlib.Algebra.BigOperators.Group.List.Basic

/-! # The enclave's message loop over TLS

`handle` reads the length of a message with a single call and its body in a loop. A call may give
fewer bytes than asked for, or none yet. The loop sees the messages that were sent exactly when every
length arrives in one piece and no call inside a body has to be repeated.
-/
namespace Bisen.TlsConnection
open Wire
set_option autoImplicit false

/-- What the TLS layer does on one call: ask to be called again, or give at most `n` bytes. -/
inductive Delivery where
  | want
  | bytes (n : Nat) (pos : 0 < n)
  deriving DecidableEq, Repr

/-- The bytes the client has sent and nobody has read; calls after the schedule are served in full. -/
structure Tls where
  stream : Bytes
  schedule : List Delivery
  deriving DecidableEq, Repr

/-- The result of `read_ssl`: -1, -2, or the bytes read. -/
inductive Reading where
  | want
  | closed
  | got (b : Bytes)
  deriving DecidableEq, Repr

namespace Tls

def give (t : Tls) (n : Nat) (schedule : List Delivery) : Reading × Tls :=
  if t.stream = [] then (.closed, { t with schedule := schedule })
  else (.got (t.stream.take n), ⟨t.stream.drop n, schedule⟩)

def readSsl (t : Tls) (len : Nat) : Reading × Tls :=
  match t.schedule with
  | [] => t.give len []
  | .want :: schedule => (.want, { t with schedule := schedule })
  | .bytes n _ :: schedule => t.give (min n len) schedule

end Tls

def maxPiece : Nat := 16384

/-- The loop `while(to_read)`; every round reads at least one byte. -/
def readBody : Nat → Nat → Tls → Except Fault (Bytes × Tls)
  | 0, _, t => .ok ([], t)
  | fuel + 1, toRead, t =>
    if toRead = 0 then .ok ([], t)
    else match t.readSsl (min toRead maxPiece) with
      | (.got b, t) => do
        let (body, t) ← readBody fuel (toRead - b.length) t
        pure (b ++ body, t)
      | _ => .error .errorReadingFromSocket

/-- The loop `while(to_send)`; a write of at most 16384 bytes is complete. -/
def writeBody : Nat → Bytes → Bytes
  | 0, _ => []
  | fuel + 1, out => if out.length = 0 then [] else out.take maxPiece ++ writeBody fuel (out.drop maxPiece)

def respond (out : Bytes) : Bytes := word64 (.ofNat 64 out.length) ++ writeBody out.length out

/-- How one connection went: the bodies that were processed, the bytes written, and the way it ended. -/
structure Ended (σ : Type) where
  state : σ
  passed : List Bytes
  written : Bytes
  ending : Except Fault Unit

section Handle
variable {σ : Type} (process : σ → Bytes → σ × Bytes) (junk : Tls → Bytes)

/-- `in_len` is not initialised: bytes that were not read are whatever the stack holds there. -/
def inLen (t : Tls) (b : Bytes) : Nat := (readWord64 ((b ++ (junk t).drop b.length).take 8)).toNat

/-- The loop `while (1)`; every round uses up a byte or an entry of the schedule. -/
def handleLoop : Nat → Tls → σ → Option (Ended σ)
  | 0, _, _ => none
  | fuel + 1, t, s =>
    match t.readSsl 8 with
    | (.want, t) => handleLoop fuel t s
    | (.closed, _) => some ⟨s, [], [], .ok ()⟩
    | (.got b, t) => match readBody (inLen junk t b) (inLen junk t b) t with
      | .error e => some ⟨s, [], [], .error e⟩
      | .ok (body, t) =>
        let (s, out) := process s body
        (handleLoop fuel t s).map fun e =>
          { e with passed := body :: e.passed, written := respond out ++ e.written }

def handle (t : Tls) (s : σ) : Option (Ended σ) :=
  handleLoop process junk (t.stream.length + t.schedule.length + 1) t s

/-- Every body processed in order, and one length-prefixed response for each. -/
def expected (s : σ) : List Bytes → Ended σ
  | [] => ⟨s, [], [], .ok ()⟩
  | body :: bodies =>
    let (s, out) := process s body
    let e := expected s bodies
    { e with passed := body :: e.passed, written := Packet.encode out ++ e.written }

/-- The connection goes as when every read is served in full, and that is as it should. -/
structure Independent (s : σ) (bodies : List Bytes) (schedule : List Delivery) : Prop where
  full : handle process junk ⟨bodies.flatMap Packet.encode, []⟩ s = some (expected process s bodies)
  same : handle process junk ⟨bodies.flatMap Packet.encode, schedule⟩ s =
    handle process junk ⟨bodies.flatMap Packet.encode, []⟩ s

end Handle

/-- With `toRead` bytes of a body to come and then bodies of the given lengths: no length is delivered
in pieces, and no call inside a body is refused. -/
def Clean : Nat → List Nat → List Delivery → Prop
  | _, _, [] => True
  | 0, [], _ :: _ => True
  | 0, lens, .want :: schedule => Clean 0 lens schedule
  | 0, len :: lens, .bytes n _ :: schedule => 8 ≤ n ∧ Clean len lens schedule
  | _ + 1, _, .want :: _ => False
  | toRead + 1, lens, .bytes n _ :: schedule =>
    Clean (toRead + 1 - min n (min (toRead + 1) maxPiece)) lens schedule

/-! ## One call -/

namespace Tls

theorem readSsl_want {t t' : Tls} {len : Nat} (h : t.readSsl len = (.want, t')) :
    t.schedule = .want :: t'.schedule ∧ t.stream = t'.stream := by
  obtain ⟨stream, schedule⟩ := t
  obtain _ | ⟨d, schedule⟩ := schedule
  · simp only [readSsl, give] at h
    split at h <;> cases h
  · cases d with
    | want =>
      cases h
      exact ⟨rfl, rfl⟩
    | bytes n pos =>
      simp only [readSsl, give] at h
      split at h <;> cases h

theorem readSsl_closed {t t' : Tls} {len : Nat} (h : t.readSsl len = (.closed, t')) : t.stream = [] := by
  obtain ⟨stream, schedule⟩ := t
  obtain _ | ⟨d, schedule⟩ := schedule
  · simp only [readSsl, give] at h
    split at h
    · assumption
    · cases h
  · cases d with
    | want => cases h
    | bytes n pos =>
      simp only [readSsl, give] at h
      split at h
      · assumption
      · cases h

theorem readSsl_got {t t' : Tls} {len : Nat} {b : Bytes} (h : t.readSsl len = (.got b, t')) :
    t.stream = b ++ t'.stream ∧ b.length ≤ len := by
  obtain ⟨stream, schedule⟩ := t
  obtain _ | ⟨d, schedule⟩ := schedule
  · simp only [readSsl, give] at h
    split at h <;> cases h
    exact ⟨(List.take_append_drop _ _).symm, List.length_take_le _ _⟩
  · cases d with
    | want => cases h
    | bytes n pos =>
      simp only [readSsl, give] at h
      split at h <;> cases h
      exact ⟨(List.take_append_drop _ _).symm, (List.length_take_le _ _).trans (Nat.min_le_right _ _)⟩

theorem give_append {b more : Bytes} {n : Nat} {schedule schedule' : List Delivery} (hPos : 0 < n)
    (hn : n ≤ b.length) :
    (⟨b ++ more, schedule⟩ : Tls).give n schedule' = (.got (b.take n), ⟨b.drop n ++ more, schedule'⟩) := by
  have hStream : b ++ more ≠ [] := by
    intro hNil
    rw [(List.append_eq_nil_iff.mp hNil).1, List.length_nil] at hn
    omega
  rw [give, if_neg hStream, List.take_append_of_le_length hn, List.drop_append_of_le_length hn]

end Tls

@[simp] theorem clean_nil (toRead : Nat) (lens : List Nat) : Clean toRead lens [] := by
  cases toRead <;> exact trivial

/-- A call inside a body is refused, or gives a piece of the body and leaves as clean a schedule. -/
theorem readSsl_body {toRead : Nat} (hPos : 0 < toRead) {b : Bytes} (hb : b.length = toRead) (more : Bytes)
    (lens : List Nat) (schedule : List Delivery) :
    (∃ rest, schedule = .want :: rest) ∨ ∃ n schedule', 0 < n ∧ n ≤ toRead ∧
      (⟨b ++ more, schedule⟩ : Tls).readSsl (min toRead maxPiece) =
        (.got (b.take n), ⟨b.drop n ++ more, schedule'⟩) ∧
      (Clean toRead lens schedule ↔ Clean (toRead - n) lens schedule') ∧
      schedule'.length ≤ schedule.length := by
  have hPiece : 0 < min toRead maxPiece ∧ min toRead maxPiece ≤ toRead := by
    unfold maxPiece
    omega
  obtain _ | ⟨d, schedule⟩ := schedule
  · exact .inr ⟨min toRead maxPiece, [], hPiece.1, hPiece.2, Tls.give_append hPiece.1 (by omega), by simp,
      Nat.le_refl _⟩
  cases d with
  | want => exact .inl ⟨schedule, rfl⟩
  | bytes n pos =>
    have hMin : 0 < min n (min toRead maxPiece) ∧ min n (min toRead maxPiece) ≤ toRead := by omega
    refine .inr ⟨_, schedule, hMin.1, hMin.2, Tls.give_append hMin.1 (by omega), ?_, Nat.le_succ _⟩
    obtain ⟨k, rfl⟩ := Nat.exists_eq_succ_of_ne_zero (Nat.pos_iff_ne_zero.mp hPos)
    exact Iff.rfl

/-! ## The loops over the body -/

theorem readBody_stream {fuel toRead : Nat} {t t' : Tls} {body : Bytes}
    (h : readBody fuel toRead t = .ok (body, t')) : t.stream = body ++ t'.stream := by
  induction fuel generalizing toRead t body with
  | zero =>
    cases h
    rfl
  | succ fuel ih =>
    rw [readBody] at h
    split at h
    · cases h
      rfl
    · cases hRead : t.readSsl (min toRead maxPiece) with
      | mk reading t₁ =>
        rw [hRead] at h
        cases reading with
        | want => cases h
        | closed => cases h
        | got b =>
          obtain ⟨⟨body₁, t₂⟩, hRest, hRet⟩ := bind_eq_ok_iff.mp h
          cases hRet
          rw [(Tls.readSsl_got hRead).1, ih hRest, List.append_assoc]

/-- A body that is there is read whole, or the loop is refused a call. -/
theorem readBody_whole {fuel toRead : Nat} {b : Bytes} (hb : b.length = toRead) (hFuel : toRead ≤ fuel)
    (more : Bytes) (lens : List Nat) (schedule : List Delivery) :
    ((∃ e, readBody fuel toRead ⟨b ++ more, schedule⟩ = .error e) ∧ ¬ Clean toRead lens schedule) ∨
    ∃ schedule', readBody fuel toRead ⟨b ++ more, schedule⟩ = .ok (b, ⟨more, schedule'⟩) ∧
      (Clean toRead lens schedule ↔ Clean 0 lens schedule') ∧ schedule'.length ≤ schedule.length := by
  induction fuel generalizing toRead b schedule with
  | zero =>
    have hZero : toRead = 0 := by omega
    rw [hZero] at hb ⊢
    rw [List.length_eq_zero_iff.mp hb]
    exact .inr ⟨schedule, rfl, Iff.rfl, Nat.le_refl _⟩
  | succ fuel ih =>
    rw [readBody]
    split
    · case isTrue hZero =>
      rw [hZero] at hb ⊢
      rw [List.length_eq_zero_iff.mp hb]
      exact .inr ⟨schedule, rfl, Iff.rfl, Nat.le_refl _⟩
    · case isFalse hMore =>
      rcases readSsl_body (Nat.pos_of_ne_zero hMore) hb more lens schedule with
        ⟨rest, rfl⟩ | ⟨n, schedule₁, hPos, hLe, hRead, hClean, hShorter⟩
      · obtain ⟨k, rfl⟩ := Nat.exists_eq_succ_of_ne_zero hMore
        exact .inl ⟨⟨_, rfl⟩, id⟩
      · have hTake : (b.take n).length = n := by
          rw [List.length_take]
          omega
        have hDrop : (b.drop n).length = toRead - n := by rw [List.length_drop, hb]
        rw [hRead]
        simp only [hTake, hClean]
        obtain ⟨⟨e, hError⟩, hNot⟩ | ⟨schedule', hOk, hIff, hLength⟩ := ih hDrop (by omega) schedule₁
        · exact .inl ⟨⟨e, by rw [hError]; rfl⟩, hNot⟩
        · refine .inr ⟨schedule', ?_, hIff, hLength.trans hShorter⟩
          rw [hOk, ← List.take_append_drop n b]
          simp

theorem writeBody_eq {fuel : Nat} {out : Bytes} (hFuel : out.length ≤ fuel) : writeBody fuel out = out := by
  induction fuel generalizing out with
  | zero => rw [List.length_eq_zero_iff.mp (Nat.le_zero.mp hFuel), writeBody]
  | succ fuel ih =>
    rw [writeBody]
    split
    · case isTrue hEmpty => rw [List.length_eq_zero_iff.mp hEmpty]
    · have hRest : (out.drop maxPiece).length ≤ fuel := by
        rw [List.length_drop, maxPiece]
        omega
      rw [ih hRest, List.take_append_drop]

theorem respond_eq (out : Bytes) : respond out = Packet.encode out := by
  rw [respond, writeBody_eq (Nat.le_refl _), Packet.encode]

/-! ## The loop over the messages -/

theorem inLen_word64 (junk : Tls → Bytes) (t : Tls) {body : Bytes} (hSize : body.length < 2 ^ 64) :
    inLen junk t (word64 (.ofNat 64 body.length)) = body.length := by
  rw [inLen, List.take_left' (length_word64 _), readWord64_word64, Packet.toNat_length hSize]

theorem length_stream (bodies : List Bytes) :
    (bodies.flatMap Packet.encode).length = (bodies.map fun body => 8 + body.length).sum := by
  rw [List.length_flatMap]
  simp only [Packet.length_encode]

/-- The call for a length is refused, gives it whole, or gives a part of it. -/
theorem readSsl_length (body more : Bytes) (schedule : List Delivery) :
    (∃ rest, schedule = .want :: rest) ∨
    (∃ schedule', (⟨Packet.encode body ++ more, schedule⟩ : Tls).readSsl 8 =
        (.got (word64 (.ofNat 64 body.length)), ⟨body ++ more, schedule'⟩) ∧
      (∀ lens, Clean 0 (body.length :: lens) schedule ↔ Clean body.length lens schedule') ∧
      schedule'.length ≤ schedule.length) ∨
    ∃ b t, (⟨Packet.encode body ++ more, schedule⟩ : Tls).readSsl 8 = (.got b, t) ∧ b.length < 8 ∧
      ∀ lens, ¬ Clean 0 (body.length :: lens) schedule := by
  have hEncode : Packet.encode body ++ more = word64 (.ofNat 64 body.length) ++ (body ++ more) :=
    List.append_assoc ..
  have hLength := length_word64 (.ofNat 64 body.length)
  have hGive : ∀ schedule', (⟨Packet.encode body ++ more, schedule⟩ : Tls).give 8 schedule' =
      (.got (word64 (.ofNat 64 body.length)), ⟨body ++ more, schedule'⟩) := by
    intro schedule'
    rw [hEncode, Tls.give_append (by decide) hLength.ge, List.take_of_length_le hLength.le,
      List.drop_of_length_le hLength.le, List.nil_append]
  obtain _ | ⟨d, schedule⟩ := schedule
  · exact .inr (.inl ⟨[], hGive [], fun lens => by simp, Nat.le_refl _⟩)
  cases d with
  | want => exact .inl ⟨schedule, rfl⟩
  | bytes n pos =>
    obtain hShort | hWhole := Nat.lt_or_ge n 8
    · have hn : n ≤ (Packet.encode body).length := by
        rw [Packet.length_encode]
        omega
      refine .inr (.inr ⟨(Packet.encode body).take n, ⟨(Packet.encode body).drop n ++ more, schedule⟩, ?_,
        Nat.lt_of_le_of_lt (List.length_take_le _ _) hShort, fun lens hClean => ?_⟩)
      · simp only [Tls.readSsl, Nat.min_eq_left hShort.le]
        exact Tls.give_append pos hn
      · exact absurd hClean.1 (Nat.not_le.mpr hShort)
    · refine .inr (.inl ⟨schedule, ?_, fun lens => and_iff_right hWhole, Nat.le_succ _⟩)
      simp only [Tls.readSsl, Nat.min_eq_right hWhole]
      exact hGive schedule

section Loop
variable {σ : Type} (process : σ → Bytes → σ × Bytes) (junk : Tls → Bytes)

theorem handleLoop_clean {fuel : Nat} {bodies : List Bytes} {schedule : List Delivery} (s : σ)
    (hSize : ∀ body, body ∈ bodies → body.length < 2 ^ 64)
    (hFuel : (bodies.flatMap Packet.encode).length + schedule.length < fuel)
    (hClean : Clean 0 (bodies.map List.length) schedule) :
    handleLoop process junk fuel ⟨bodies.flatMap Packet.encode, schedule⟩ s =
      some (expected process s bodies) := by
  induction fuel generalizing bodies schedule s with
  | zero => cases hFuel
  | succ fuel ih =>
    rw [handleLoop]
    cases bodies with
    | nil =>
      obtain _ | ⟨d, schedule⟩ := schedule
      · rfl
      cases d with
      | want =>
        have hClean' : Clean 0 [] schedule := by cases schedule <;> trivial
        have hNext := ih s hSize (by simpa using hFuel) hClean'
        exact hNext
      | bytes n pos => rfl
    | cons body bodies =>
      have hBody := hSize body List.mem_cons_self
      have hRest : ∀ b, b ∈ bodies → b.length < 2 ^ 64 := fun b hb => hSize b (List.mem_cons_of_mem _ hb)
      rw [List.flatMap_cons]
      rw [List.flatMap_cons, List.length_append, Packet.length_encode] at hFuel
      rcases readSsl_length body (bodies.flatMap Packet.encode) schedule with
        ⟨rest, rfl⟩ | ⟨schedule₁, hRead, hIff, hShorter⟩ | ⟨b, t, _, _, hNot⟩
      · rw [List.length_cons] at hFuel
        have hLess : ((body :: bodies).flatMap Packet.encode).length + rest.length < fuel := by
          rw [List.flatMap_cons, List.length_append, Packet.length_encode]
          omega
        have hNext := ih s hSize hLess hClean
        exact hNext
      · rw [hRead]
        simp only [inLen_word64 junk _ hBody]
        rw [List.map_cons, hIff] at hClean
        rcases readBody_whole rfl (Nat.le_refl _) (bodies.flatMap Packet.encode) (bodies.map List.length)
          schedule₁ with ⟨_, hNot⟩ | ⟨schedule₂, hOk, hIff₂, hShorter₂⟩
        · exact absurd hClean hNot
        · rw [hOk]
          simp only
          rw [ih _ hRest (by omega) (hIff₂.mp hClean), respond_eq]
          rfl
      · exact absurd hClean (hNot _)

/-- A connection that ends gracefully took at least the packets it passed on from the stream. -/
theorem stream_le_of_handleLoop {fuel : Nat} {t : Tls} {s : σ} {e : Ended σ}
    (h : handleLoop process junk fuel t s = some e) (hEnding : e.ending = .ok ()) :
    t.stream.length ≤ (e.passed.map fun body => 8 + body.length).sum := by
  induction fuel generalizing t s e with
  | zero => cases h
  | succ fuel ih =>
    rw [handleLoop] at h
    cases hRead : t.readSsl 8 with
    | mk reading t₁ =>
      rw [hRead] at h
      cases reading with
      | want =>
        rw [(Tls.readSsl_want hRead).2]
        exact ih h hEnding
      | closed =>
        rw [Tls.readSsl_closed hRead]
        exact Nat.zero_le _
      | got b =>
        simp only at h
        cases hBody : readBody (inLen junk t₁ b) (inLen junk t₁ b) t₁ with
        | error f =>
          rw [hBody] at h
          cases h
          cases hEnding
        | ok p =>
          obtain ⟨body, t₂⟩ := p
          rw [hBody] at h
          obtain ⟨e₂, hRest, rfl⟩ := Option.map_eq_some_iff.mp h
          have hLe := ih hRest hEnding
          obtain ⟨hStream, hLength⟩ := Tls.readSsl_got hRead
          rw [hStream, readBody_stream hBody, List.length_append, List.length_append, List.map_cons, List.sum_cons]
          omega

theorem clean_of_handleLoop {fuel : Nat} {bodies : List Bytes} {schedule : List Delivery} {s : σ} {e : Ended σ}
    (hSize : ∀ body, body ∈ bodies → body.length < 2 ^ 64)
    (h : handleLoop process junk fuel ⟨bodies.flatMap Packet.encode, schedule⟩ s = some e)
    (hEnding : e.ending = .ok ()) (hPassed : e.passed = bodies) : Clean 0 (bodies.map List.length) schedule := by
  induction fuel generalizing bodies schedule s e with
  | zero => cases h
  | succ fuel ih =>
    cases bodies with
    | nil => cases schedule <;> trivial
    | cons body bodies =>
      have hRest : ∀ b, b ∈ bodies → b.length < 2 ^ 64 := fun b hb => hSize b (List.mem_cons_of_mem _ hb)
      rw [handleLoop, List.flatMap_cons] at h
      rcases readSsl_length body (bodies.flatMap Packet.encode) schedule with
        ⟨rest, rfl⟩ | ⟨schedule₁, hRead, hIff, _⟩ | ⟨b, t, hRead, hShort, _⟩
      · have hClean : Clean 0 ((body :: bodies).map List.length) rest := ih hSize h hEnding hPassed
        exact hClean
      · rw [hRead] at h
        simp only [inLen_word64 junk _ (hSize body List.mem_cons_self)] at h
        rw [List.map_cons, hIff]
        rcases readBody_whole rfl (Nat.le_refl _) (bodies.flatMap Packet.encode) (bodies.map List.length)
          schedule₁ with ⟨⟨f, hError⟩, _⟩ | ⟨schedule₂, hOk, hIff₂, _⟩
        · rw [hError] at h
          cases h
          cases hEnding
        · rw [hOk] at h
          obtain ⟨e₂, hLoop, rfl⟩ := Option.map_eq_some_iff.mp h
          exact hIff₂.mpr (ih hRest hLoop hEnding (List.tail_eq_of_cons_eq hPassed))
      · -- the connection took too few bytes of a length, so some are left over at its end
        rw [hRead] at h
        simp only at h
        cases hBody : readBody (inLen junk t b) (inLen junk t b) t with
        | error f =>
          rw [hBody] at h
          cases h
          cases hEnding
        | ok p =>
          obtain ⟨body', t₂⟩ := p
          rw [hBody] at h
          obtain ⟨e₂, hLoop, rfl⟩ := Option.map_eq_some_iff.mp h
          have hLe := stream_le_of_handleLoop process junk hLoop hEnding
          obtain ⟨rfl, rfl⟩ := List.cons_eq_cons.mp hPassed
          have hStream := congrArg List.length (Tls.readSsl_got hRead).1
          rw [readBody_stream hBody] at hStream
          simp only [List.length_append, Packet.length_encode, length_stream] at hStream
          omega

theorem ending_expected (s : σ) (bodies : List Bytes) : (expected process s bodies).ending = .ok () := by
  induction bodies generalizing s with
  | nil => rfl
  | cons body bodies ih => exact ih _

theorem passed_expected (s : σ) (bodies : List Bytes) : (expected process s bodies).passed = bodies := by
  induction bodies generalizing s with
  | nil => rfl
  | cons body bodies ih => exact congrArg (List.cons body) (ih _)

variable {bodies : List Bytes} {schedule : List Delivery} {s : σ}
  (hSize : ∀ body, body ∈ bodies → body.length < 2 ^ 64)
include hSize

theorem clean_of_independent (h : Independent process junk s bodies schedule) :
    Clean 0 (bodies.map List.length) schedule :=
  clean_of_handleLoop process junk hSize (h.same.trans h.full) (ending_expected process s bodies)
    (passed_expected process s bodies)

theorem independent_iff :
    Independent process junk s bodies schedule ↔ Clean 0 (bodies.map List.length) schedule := by
  constructor
  · exact clean_of_independent process junk hSize
  · intro hClean
    have hFull := handleLoop_clean process junk s hSize (Nat.lt_succ_self _) (clean_nil 0 _)
    have hSame := handleLoop_clean process junk s hSize (Nat.lt_succ_self _) hClean
    exact ⟨hFull, hSame.trans hFull.symm⟩

end Loop

/-- A message of three bytes in pieces, with calls refused before its length only. -/
theorem independent_iff_pieces :
    Independent (fun (n : Nat) body => (n + body.length, body)) (fun _ => []) 0 [[1, 2, 3]]
      [.want, .bytes 8 (by decide), .bytes 1 (by decide), .bytes 20 (by decide), .want] := by
  refine (independent_iff _ _ ?_).mpr ?_
  · simp
  · exact ⟨Nat.le_refl 8, trivial⟩

/-- One message whose length comes in pieces of seven bytes and one byte. -/
theorem not_independent_split :
    ¬ ∀ (σ : Type) (process : σ → Bytes → σ × Bytes) (junk : Tls → Bytes) (s : σ) (bodies : List Bytes)
      (schedule : List Delivery), (∀ body, body ∈ bodies → body.length < 2 ^ 64) →
      Independent process junk s bodies schedule := by
  intro hAll
  have hSize : ∀ body : Bytes, body ∈ [[0x31]] → body.length < 2 ^ 64 := by simp
  have hClean := clean_of_independent _ _ hSize
    (hAll Unit (fun s body => (s, body)) (fun _ => []) () [[0x31]] [.bytes 7 (by decide)] hSize)
  exact absurd hClean.1 (by decide)

end Bisen.TlsConnection
