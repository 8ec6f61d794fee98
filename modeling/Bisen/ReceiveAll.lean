import Bisen.RequestStream
import Bisen.Lib.Cells

/-! # Receiving until the peer is gone

`receive_all` reads until it has what it was asked for, and gives up on a negative count only. At the end
of a stream `read` returns 0: the count does not move, and the loop asks again for ever. So the service
only notices a peer that leaves when its connection breaks. The allocations before the calls are taken to succeed,
whatever size the peer has named.
-/
namespace Bisen.ReceiveAll
open Wire SseServer Framing
set_option autoImplicit false

/-- What `read` returns once the stream is used up: 0, or -1. -/
inductive Ending where
  | eof
  | failure
  deriving DecidableEq, Repr

/-- The bytes of the peer that have not been read, and the number of reads so far. -/
structure Conn where
  rest : Bytes
  calls : Nat
  deriving DecidableEq, Repr

inductive Halt where
  | running
  | exits (fault : Fault)
  deriving DecidableEq, Repr

/-- What `receive_all` returns and has stored. -/
structure Received where
  r : Nat
  buff : Bytes
  conn : Conn
  deriving DecidableEq, Repr

section Code
variable (sizes : Nat → Nat) (ending : Ending)

/-- `sizes k` is how much the `k`-th read would give; it gives at least a byte while there is one. -/
def read (c : Conn) (count : Nat) : Int × Bytes × Conn :=
  if c.rest.isEmpty then (match ending with | .eof => 0 | .failure => -1, [], ⟨[], c.calls + 1⟩)
  else
    let n := min (max 1 (sizes c.calls)) (min count c.rest.length)
    (n, c.rest.take n, ⟨c.rest.drop n, c.calls + 1⟩)

/-- `fuel` bounds the rounds of the loop. -/
def receiveAll (len : Nat) : Nat → Received → Except Halt Received
  | 0, _ => .error .running
  | fuel + 1, s =>
    if s.r < len then
      let (n, b, conn) := read sizes ending s.conn (len - s.r)
      if n < 0 then .error (.exits .errorReadingFromSocket)
      else receiveAll len fuel ⟨s.r + b.length, Cells.store s.buff s.r b, conn⟩
    else .ok s

/-- The count that `receive_all` returns is never negative. -/
def socketReceive (fuel : Nat) (buff : Bytes) (c : Conn) (len : Nat) : Except Halt (Bytes × Conn) := do
  let s ← receiveAll sizes ending len fuel ⟨0, buff, c⟩
  return (s.buff.take len, s.conn)

/-- A count and that many records of `width` bytes. -/
def receiveRecords (fuel : Nat) (width : Nat) (c : Conn) : Except Halt (Nat × Bytes × Conn) := do
  let (word, c) ← socketReceive sizes ending fuel (List.replicate 8 0) c 8
  let nrLabels := (readWord64 word).toNat
  let len := sizeT (nrLabels * width)
  let (b, c) ← socketReceive sizes ending fuel (List.replicate len 0) c len
  return (nrLabels, b, c)

def receiveRequest (fuel : Nat) (c : Conn) : Except Halt (Request × Conn) := do
  let (ops, c) ← socketReceive sizes ending fuel [0] c 1
  let op := ops.headD 0
  if op = opUeeInit then return (.init, c)
  else if op = opUeeAdd then
    let (nrLabels, buffer, c) ← receiveRecords sizes ending fuel pairLen c
    return (.add nrLabels buffer, c)
  else if op = opUeeSearch then
    let (nrLabels, label, c) ← receiveRecords sizes ending fuel lSize c
    return (.search nrLabels label, c)
  else if op = opUeeDumpBench then
    let (aggregate, c) ← socketReceive sizes ending fuel [0] c 1
    return (.dumpBench (aggregate.headD 0), c)
  else if op = opStartSearch then return (.startSearch, c)
  else return (.unknown op, c)

/-- The loop `while (1)`; what it does with a request is `handle`. -/
def processClient : Nat → Storage → Conn → Halt
  | 0, _, _ => .running
  | fuel + 1, storage, c => match receiveRequest sizes ending fuel c with
    | .error h => h
    | .ok (req, c) => match handle storage req with
      | .error e => .exits e
      | .ok (storage, _) => processClient fuel storage c

end Code

/-! ## One receive -/

section Receive
variable {sizes : Nat → Nat} {ending : Ending}

theorem read_of_nil {c : Conn} (hRest : c.rest = []) (count : Nat) :
    read sizes ending c count = (match ending with | .eof => 0 | .failure => -1, [], ⟨[], c.calls + 1⟩) := by
  unfold read
  rw [hRest]
  rfl

theorem read_of_ne_nil {c : Conn} (hRest : c.rest ≠ []) {count : Nat} (hCount : 0 < count) :
    ∃ n, 0 < n ∧ n ≤ count ∧ n ≤ c.rest.length ∧
      read sizes ending c count = ((n : Int), c.rest.take n, ⟨c.rest.drop n, c.calls + 1⟩) := by
  have hLength := List.length_pos_of_ne_nil hRest
  refine ⟨min (max 1 (sizes c.calls)) (min count c.rest.length), by omega, by omega, by omega, ?_⟩
  unfold read
  rw [if_neg (by simpa using hRest)]

/-- What can come of asking for `len` bytes of `stream` when `r` of them are stored. -/
inductive Fills (ending : Ending) (stream buff : Bytes) (len fuel r : Nat) : Except Halt Received → Prop where
  | running (h : fuel + r ≤ stream.length ∨ stream.length < len ∧ ending = .eof) :
      Fills ending stream buff len fuel r (.error .running)
  | whole (h : len ≤ stream.length) (calls : Nat) :
      Fills ending stream buff len fuel r
        (.ok ⟨len, stream.take len ++ buff.drop len, ⟨stream.drop len, calls⟩⟩)
  | cut (h : stream.length < len) (hEnding : ending = .failure) :
      Fills ending stream buff len fuel r (.error (.exits .errorReadingFromSocket))

/-- A round that stored something, or can only repeat itself. -/
theorem Fills.round {stream buff : Bytes} {len fuel r r' : Nat} {x : Except Halt Received}
    (h : Fills ending stream buff len fuel r' x)
    (hRound : r < r' ∨ stream.length < len ∧ ending = .eof) : Fills ending stream buff len (fuel + 1) r x := by
  cases h with
  | running h =>
    obtain hMore | hStuck := hRound
    · obtain hFuel | hStuck := h
      · exact .running (.inl (by omega))
      · exact .running (.inr hStuck)
    · exact .running (.inr hStuck)
  | whole h calls => exact .whole h calls
  | cut h hEnding => exact .cut h hEnding

theorem store_next (stream buff : Bytes) {r n : Nat} (h : r + n ≤ stream.length) :
    Cells.store (stream.take r ++ buff.drop r) r ((stream.drop r).take n) =
      stream.take (r + n) ++ buff.drop (r + n) := by
  have hr : (stream.take r).length = r := by
    rw [List.length_take]
    omega
  have hn : ((stream.drop r).take n).length = n := by
    rw [List.length_take, List.length_drop]
    omega
  have hStore : Cells.store (stream.take r ++ buff.drop r) (stream.take r).length ((stream.drop r).take n) =
      stream.take r ++ Cells.store (buff.drop r) 0 ((stream.drop r).take n) := Cells.store_append
  rw [hr, Cells.store_zero, hn, List.drop_drop] at hStore
  rw [hStore, List.take_add, List.append_assoc]

theorem receiveAll_fills (stream buff : Bytes) {len : Nat} (fuel r calls : Nat) (hLen : r ≤ len)
    (hStream : r ≤ stream.length) :
    Fills ending stream buff len fuel r
      (receiveAll sizes ending len fuel ⟨r, stream.take r ++ buff.drop r, ⟨stream.drop r, calls⟩⟩) := by
  induction fuel generalizing r calls with
  | zero => exact .running (.inl (by omega))
  | succ fuel ih =>
    rw [receiveAll]
    obtain hDone | hMore := Nat.eq_or_lt_of_le hLen
    · subst hDone
      rw [if_neg (Nat.lt_irrefl r)]
      exact .whole hStream calls
    rw [if_pos hMore]
    obtain hEnd | hRest := Nat.eq_or_lt_of_le hStream
    · -- the stream is used up
      have hNil : stream.drop r = [] := List.drop_eq_nil_of_le (by omega)
      rw [read_of_nil hNil]
      cases ending with
      | failure => exact .cut (by omega) rfl
      | eof =>
        have hAgain := ih r (calls + 1) hLen hStream
        rw [hNil] at hAgain
        have hSame : Cells.store (stream.take r ++ buff.drop r) r [] = stream.take r ++ buff.drop r := by
          rw [Cells.store, List.nil_append, List.length_nil, Nat.add_zero, List.take_append_drop]
        rw [← hSame] at hAgain
        exact hAgain.round (.inr ⟨by omega, rfl⟩)
    · have hSome : stream.drop r ≠ [] := by
        intro hNil
        have hShort := List.drop_eq_nil_iff.mp hNil
        omega
      have hCount : 0 < len - r := by omega
      obtain ⟨n, hPos, hAsked, hThere, hRead⟩ := @read_of_ne_nil sizes ending ⟨stream.drop r, calls⟩ hSome _ hCount
      rw [List.length_drop] at hThere
      have hLength : ((stream.drop r).take n).length = n := by
        rw [List.length_take, List.length_drop]
        omega
      have hNext := ih (r + n) (calls + 1) (by omega) (by omega)
      rw [hRead]
      simp only
      rw [if_neg (by omega), hLength, store_next stream buff (by omega), List.drop_drop]
      exact hNext.round (.inl (by omega))

/-- The three things that can come of `socket_receive`. -/
inductive Gets (ending : Ending) (fuel : Nat) (c : Conn) (len : Nat) : Except Halt (Bytes × Conn) → Prop where
  | running (h : fuel ≤ c.rest.length ∨ c.rest.length < len ∧ ending = .eof) :
      Gets ending fuel c len (.error .running)
  | whole (h : len ≤ c.rest.length) (calls : Nat) :
      Gets ending fuel c len (.ok (c.rest.take len, ⟨c.rest.drop len, calls⟩))
  | cut (h : c.rest.length < len) (hEnding : ending = .failure) :
      Gets ending fuel c len (.error (.exits .errorReadingFromSocket))

theorem socketReceive_gets (fuel : Nat) (buff : Bytes) (c : Conn) (len : Nat) :
    Gets ending fuel c len (socketReceive sizes ending fuel buff c len) := by
  have hFills : Fills ending c.rest buff len fuel 0 (receiveAll sizes ending len fuel ⟨0, buff, c⟩) :=
    receiveAll_fills c.rest buff fuel 0 c.calls (Nat.zero_le _) (Nat.zero_le _)
  rw [socketReceive]
  generalize receiveAll sizes ending len fuel ⟨0, buff, c⟩ = x at hFills ⊢
  cases hFills with
  | running h => exact .running h
  | whole h calls =>
    have hTake : (c.rest.take len ++ buff.drop len).take len = c.rest.take len :=
      List.take_left' (by rw [List.length_take]; omega)
    have hWhole : Gets ending fuel c len (.ok (c.rest.take len, ⟨c.rest.drop len, calls⟩)) := .whole h calls
    rw [← hTake] at hWhole
    exact hWhole
  | cut h hEnding => exact .cut h hEnding

/-! ## One request -/

inductive GetsRequest (ending : Ending) (fuel : Nat) (c : Conn) : Except Halt (Request × Conn) → Prop where
  | running (h : fuel ≤ c.rest.length ∨ decodeRequest c.rest = none ∧ ending = .eof) :
      GetsRequest ending fuel c (.error .running)
  | whole {req : Request} {rest : Bytes} (h : decodeRequest c.rest = some (req, rest)) (calls : Nat) :
      GetsRequest ending fuel c (.ok (req, ⟨rest, calls⟩))
  | cut (h : decodeRequest c.rest = none) (hEnding : ending = .failure) :
      GetsRequest ending fuel c (.error (.exits .errorReadingFromSocket))

inductive GetsRecords (ending : Ending) (fuel width : Nat) (c : Conn) :
    Except Halt (Nat × Bytes × Conn) → Prop where
  | running (h : fuel ≤ c.rest.length ∨ receiveSized width c.rest = none ∧ ending = .eof) :
      GetsRecords ending fuel width c (.error .running)
  | whole {n : Nat} {b rest : Bytes} (h : receiveSized width c.rest = some (n, b, rest)) (calls : Nat) :
      GetsRecords ending fuel width c (.ok (n, b, ⟨rest, calls⟩))
  | cut (h : receiveSized width c.rest = none) (hEnding : ending = .failure) :
      GetsRecords ending fuel width c (.error (.exits .errorReadingFromSocket))

theorem receiveSized_short {width : Nat} {b : Bytes} (h : b.length < 8) : receiveSized width b = none := by
  rw [receiveSized]
  exact if_pos (by omega)

theorem receiveRecords_gets (fuel width : Nat) (c : Conn) :
    GetsRecords ending fuel width c (receiveRecords sizes ending fuel width c) := by
  have hWord : Gets ending fuel c 8 (socketReceive sizes ending fuel (List.replicate 8 0) c 8) :=
    socketReceive_gets ..
  rw [receiveRecords]
  generalize socketReceive sizes ending fuel (List.replicate 8 0) c 8 = x at hWord ⊢
  cases hWord with
  | running h => exact .running (h.imp_right (And.imp_left receiveSized_short))
  | cut h hEnding => exact .cut (receiveSized_short h) hEnding
  | whole h calls =>
    simp only [bind, Except.bind, pure, Except.pure]
    have hBody : Gets ending fuel ⟨c.rest.drop 8, calls⟩ (sizeT ((readWord64 (c.rest.take 8)).toNat * width))
        (socketReceive sizes ending fuel
          (List.replicate (sizeT ((readWord64 (c.rest.take 8)).toNat * width)) 0) ⟨c.rest.drop 8, calls⟩
          (sizeT ((readWord64 (c.rest.take 8)).toNat * width))) := socketReceive_gets ..
    have hShort : ∀ len, (c.rest.drop 8).length < len ↔ c.rest.length < 8 + len := by
      intro len
      rw [List.length_drop]
      omega
    generalize hLen : sizeT ((readWord64 (c.rest.take 8)).toNat * width) = len at hBody ⊢
    generalize socketReceive sizes ending fuel (List.replicate len 0) ⟨c.rest.drop 8, calls⟩ len = y at hBody ⊢
    cases hBody with
    | running hBody =>
      refine .running (hBody.imp ?_ ?_)
      · intro hFuel
        simp only [List.length_drop] at hFuel
        omega
      · rintro ⟨hCut, hEnding⟩
        refine ⟨?_, hEnding⟩
        rw [receiveSized, hLen]
        exact if_pos ((hShort len).mp hCut)
    | cut hCut hEnding =>
      refine .cut ?_ hEnding
      rw [receiveSized, hLen]
      exact if_pos ((hShort len).mp hCut)
    | whole hBody calls' =>
      refine .whole ?_ calls'
      rw [receiveSized, hLen, if_neg, List.drop_drop]
      exact fun hCut => Nat.not_lt.mpr hBody ((hShort len).mpr hCut)

theorem receiveRecords_request {fuel width : Nat} {c c' : Conn} (f : Nat → Bytes → Request)
    (hLength : c'.rest.length ≤ c.rest.length)
    (hDecode : decodeRequest c.rest = (receiveSized width c'.rest).map fun (n, b, rest) => (f n b, rest)) :
    GetsRequest ending fuel c (do
      let (n, b, c) ← receiveRecords sizes ending fuel width c'
      return (f n b, c)) := by
  have hRecords : GetsRecords ending fuel width c' (receiveRecords sizes ending fuel width c') :=
    receiveRecords_gets ..
  generalize receiveRecords sizes ending fuel width c' = x at hRecords ⊢
  simp only [bind, Except.bind, pure, Except.pure]
  cases hRecords with
  | running h =>
    obtain hFuel | ⟨hNone, hEnding⟩ := h
    · exact .running (.inl (Nat.le_trans hFuel hLength))
    · exact .running (.inr ⟨by rw [hDecode, hNone]; rfl, hEnding⟩)
  | whole h calls => exact .whole (by rw [hDecode, h]; rfl) calls
  | cut h hEnding => exact .cut (by rw [hDecode, h]; rfl) hEnding

theorem receiveRequest_gets (fuel : Nat) (c : Conn) :
    GetsRequest ending fuel c (receiveRequest sizes ending fuel c) := by
  have hOp : Gets ending fuel c 1 (socketReceive sizes ending fuel [0] c 1) := socketReceive_gets ..
  rw [receiveRequest]
  generalize socketReceive sizes ending fuel [0] c 1 = x at hOp ⊢
  cases hRest : c.rest with
  | nil =>
    have hNone : decodeRequest c.rest = none := by rw [hRest]; rfl
    cases hOp with
    | running h => exact .running (h.imp_right fun ⟨_, hEnding⟩ => ⟨hNone, hEnding⟩)
    | whole h => rw [hRest] at h; cases h
    | cut _ hEnding => exact .cut hNone hEnding
  | cons op inbox =>
    have hLength : c.rest.length = inbox.length + 1 := by rw [hRest]; rfl
    cases hOp with
    | running h => exact .running (.inl (h.resolve_right fun ⟨hCut, _⟩ => by omega))
    | cut hCut => omega
    | whole _ calls =>
      have hDecode : decodeRequest c.rest = decodeRequest (op :: inbox) := by rw [hRest]
      rw [decodeRequest] at hDecode
      simp only [bind, Except.bind, pure, Except.pure, hRest, List.take_succ_cons, List.take_zero,
        List.headD_cons, List.drop_succ_cons, List.drop_zero]
      split
      · case isTrue hInit =>
        rw [if_pos hInit] at hDecode
        exact .whole hDecode calls
      rw [if_neg ‹_›] at hDecode
      split
      · case isTrue hAdd =>
        rw [if_pos hAdd] at hDecode
        exact @receiveRecords_request sizes ending fuel pairLen c ⟨inbox, calls⟩ .add (by simp only; omega) hDecode
      rw [if_neg ‹_›] at hDecode
      split
      · case isTrue hSearch =>
        rw [if_pos hSearch] at hDecode
        exact @receiveRecords_request sizes ending fuel lSize c ⟨inbox, calls⟩ .search (by simp only; omega) hDecode
      rw [if_neg ‹_›] at hDecode
      split
      · case isTrue hDump =>
        rw [if_pos hDump] at hDecode
        have hAggregate : Gets ending fuel ⟨inbox, calls⟩ 1 (socketReceive sizes ending fuel [0] ⟨inbox, calls⟩ 1) :=
          socketReceive_gets ..
        generalize socketReceive sizes ending fuel [0] ⟨inbox, calls⟩ 1 = y at hAggregate ⊢
        cases inbox with
        | nil =>
          cases hAggregate with
          | running h =>
            refine .running (h.imp (fun hFuel => ?_) fun ⟨_, hEof⟩ => ⟨hDecode, hEof⟩)
            exact Nat.le_trans hFuel (by simp)
          | whole h => cases h
          | cut _ hFailure => exact .cut hDecode hFailure
        | cons aggregate inbox =>
          cases hAggregate with
          | running h =>
            obtain hFuel | ⟨hCut, _⟩ := h
            · exact .running (.inl (by simp only [List.length_cons] at hFuel hLength; omega))
            · exact absurd hCut (by simp)
          | whole _ calls' => exact .whole hDecode calls'
          | cut hCut => exact absurd hCut (by simp)
      rw [if_neg ‹_›] at hDecode
      split
      · case isTrue hStart =>
        rw [if_pos hStart] at hDecode
        exact .whole hDecode calls
      · case isFalse hUnknown =>
        rw [if_neg hUnknown] at hDecode
        exact .whole hDecode calls

/-! ## The loop over requests -/

/-- The requests that are whole, in their order. -/
def wholeRequests (stream : Bytes) : List (Unit × Request) := (requests.frames stream).1.map (Prod.mk ())

theorem after_of_decode {b rest : Bytes} {req : Request} (hDecode : decodeRequest b = some (req, rest))
    (storage : Storage) :
    after storage (wholeRequests b) =
      match handle storage req with
      | .error e => .error e
      | .ok (next, _) => after next (wholeRequests rest) := by
  have hFrames : requests.frames b = (req :: (requests.frames rest).1, (requests.frames rest).2) :=
    Decoder.frames_of_some hDecode
  rw [wholeRequests, hFrames, List.map_cons, after]
  rfl

theorem after_of_cut {b : Bytes} (hDecode : decodeRequest b = none) (storage : Storage) :
    after storage (wholeRequests b) = .ok storage := by
  have hFrames : requests.frames b = ([], b) := Decoder.frames_of_none hDecode
  rw [wholeRequests, hFrames]
  rfl

theorem processClient_spins {fuel : Nat} {storage storage' : Storage} {c : Conn}
    (h : after storage (wholeRequests c.rest) = .ok storage') :
    processClient sizes .eof fuel storage c = .running := by
  induction fuel generalizing storage c with
  | zero => rfl
  | succ fuel ih =>
    have hRequest : GetsRequest .eof fuel c (receiveRequest sizes .eof fuel c) := receiveRequest_gets ..
    rw [processClient]
    generalize receiveRequest sizes .eof fuel c = x at hRequest ⊢
    cases hRequest with
    | running _ => rfl
    | cut _ hEnding => cases hEnding
    | whole hDecode calls =>
      rw [after_of_decode hDecode] at h
      split at h
      · cases h
      · case h_2 next reply hHandle =>
        simp only [hHandle]
        exact ih h

/-- The exit of a request, or the one behind the last of them. -/
def Leaves (ending : Ending) (storage : Storage) (stream : Bytes) (fault : Fault) : Prop :=
  match after storage (wholeRequests stream) with
  | .error e => fault = e
  | .ok _ => ending = .failure ∧ fault = .errorReadingFromSocket

/-- The rounds of both loops that a stream can cost. -/
def enoughFuel (c : Conn) : Nat := 2 * c.rest.length + 2

theorem processClient_exits {fuel : Nat} {storage : Storage} {c : Conn} {fault : Fault}
    (h : Leaves ending storage c.rest fault) (hFuel : enoughFuel c ≤ fuel) :
    processClient sizes ending fuel storage c = .exits fault := by
  induction fuel generalizing storage c with
  | zero => exact absurd hFuel (by simp [enoughFuel])
  | succ fuel ih =>
    have hRequest : GetsRequest ending fuel c (receiveRequest sizes ending fuel c) := receiveRequest_gets ..
    rw [processClient]
    generalize receiveRequest sizes ending fuel c = x at hRequest ⊢
    rw [enoughFuel] at hFuel
    cases hRequest with
    | running hRunning =>
      obtain hShort | ⟨hCut, hEof⟩ := hRunning
      · omega
      · rw [Leaves, after_of_cut hCut, hEof] at h
        cases h.1
    | cut hCut _ =>
      rw [Leaves, after_of_cut hCut] at h
      rw [h.2]
    | whole hDecode calls =>
      have hShrinks := requests.shrinks hDecode
      rw [Leaves, after_of_decode hDecode] at h
      cases hHandle : handle storage _ with
      | error e =>
        rw [hHandle] at h
        simp only [hHandle]
        exact congrArg Halt.exits h.symm
      | ok p =>
        rw [hHandle] at h
        simp only [hHandle]
        refine ih h ?_
        simp only [enoughFuel]
        omega

/-! ## When it ends -/

/-- The loop comes to an end, with all that was asked for or with an error. -/
def Ends (sizes : Nat → Nat) (ending : Ending) (len : Nat) (buff : Bytes) (c : Conn) : Prop :=
  ∃ fuel,
    (∃ calls, len ≤ c.rest.length ∧ receiveAll sizes ending len fuel ⟨0, buff, c⟩ =
      .ok ⟨len, c.rest.take len ++ buff.drop len, ⟨c.rest.drop len, calls⟩⟩) ∨
    receiveAll sizes ending len fuel ⟨0, buff, c⟩ = .error (.exits .errorReadingFromSocket)

theorem ends_iff_of_fills {len : Nat} {buff : Bytes} {c : Conn} :
    Ends sizes ending len buff c ↔ len ≤ c.rest.length ∨ ending = .failure := by
  have hFills : ∀ fuel,
      Fills ending c.rest buff len fuel 0 (receiveAll sizes ending len fuel ⟨0, buff, c⟩) :=
    fun fuel => receiveAll_fills c.rest buff fuel 0 c.calls (Nat.zero_le _) (Nat.zero_le _)
  constructor
  · rintro ⟨fuel, ⟨calls, hLen, _⟩ | hExits⟩
    · exact .inl hLen
    · have hFuel := hFills fuel
      rw [hExits] at hFuel
      cases hFuel with
      | cut _ hEnding => exact .inr hEnding
  · intro h
    refine ⟨c.rest.length + 1, ?_⟩
    have hFuel := hFills (c.rest.length + 1)
    generalize receiveAll sizes ending len (c.rest.length + 1) ⟨0, buff, c⟩ = x at hFuel ⊢
    cases hFuel with
    | running hRunning =>
      obtain hShort | ⟨hCut, hEof⟩ := hRunning
      · omega
      · obtain hLen | hFailure := h
        · omega
        · rw [hEof] at hFailure
          cases hFailure
    | whole hLen calls => exact .inl ⟨calls, hLen, rfl⟩
    | cut _ _ => exact .inr rfl

end Receive

/-- A receive ends when the bytes come or the connection breaks. Between and inside requests alike, a service that
none of them has ended ends with its peer only if the connection breaks. -/
theorem receive_ends_iff (sizes : Nat → Nat) (ending : Ending) :
    (∀ (len : Nat) (buff : Bytes) (c : Conn),
      Ends sizes ending len buff c ↔ len ≤ c.rest.length ∨ ending = .failure) ∧
    ∀ (storage : Storage) (c : Conn), (∃ fuel fault, processClient sizes ending fuel storage c = .exits fault) ↔
      (∃ fault, after storage (wholeRequests c.rest) = .error fault) ∨ ending = .failure := by
  constructor
  · exact fun len buff c => ends_iff_of_fills
  · intro storage c
    cases hAfter : after storage (wholeRequests c.rest) with
    | error e =>
      have hLeaves : Leaves ending storage c.rest e := by
        rw [Leaves, hAfter]
      exact iff_of_true ⟨enoughFuel c, e, processClient_exits hLeaves (Nat.le_refl _)⟩ (.inl ⟨e, rfl⟩)
    | ok storage' =>
      constructor
      · rintro ⟨fuel, fault, hExits⟩
        cases ending with
        | failure => exact .inr rfl
        | eof =>
          rw [processClient_spins hAfter] at hExits
          cases hExits
      · rintro (⟨fault, hFault⟩ | rfl)
        · cases hFault
        · have hLeaves : Leaves .failure storage c.rest .errorReadingFromSocket := by
            rw [Leaves, hAfter]
            exact ⟨rfl, rfl⟩
          exact ⟨enoughFuel c, _, processClient_exits hLeaves (Nat.le_refl _)⟩

/-- The peer has sent the operation of a search and half of its count. -/
theorem receive_ends_iff_inside_header :
    ∃ fuel fault, processClient (fun _ => 1) .failure fuel ⟨fun _ => none, 1⟩ ⟨[opUeeSearch, 2, 0, 0], 0⟩ =
      .exits fault :=
  ((receive_ends_iff (fun _ => 1) .failure).2 _ _).mpr (.inr rfl)

/-- The peer has closed its end after a whole request: the service waits for the next one and spins. -/
theorem not_ends_eof :
    (∀ fuel, processClient (fun _ => 1) .eof fuel ⟨fun _ => none, 0⟩ ⟨[opUeeInit], 0⟩ = .running) ∧
      ¬ ∀ (sizes : Nat → Nat) (ending : Ending) (len : Nat) (buff : Bytes) (c : Conn),
        Ends sizes ending len buff c := by
  constructor
  · intro fuel
    have hServed : after ⟨fun _ => none, 0⟩ (wholeRequests [opUeeInit]) = .ok ⟨fun _ => none, 0⟩ := rfl
    exact processClient_spins hServed
  · intro h
    obtain hLen | hEnding := ends_iff_of_fills.mp (h (fun _ => 1) .eof 1 [0] ⟨[], 0⟩)
    · cases hLen
    · cases hEnding

end Bisen.ReceiveAll
