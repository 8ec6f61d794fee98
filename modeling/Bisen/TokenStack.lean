import Bisen.VecToken

/-! # Any number of tokens

`vec_token` counts in 32-bit integers and starts in memory it has not written. As long as twice its
capacity fits in a counter, every run of its operations is a run of the same operations on a list.
-/
namespace Bisen.TokenStack
open Wire
set_option autoImplicit false

inductive Op where
  | pushBack (e : IeeToken)
  | popBack
  | peekBack
  | size
  deriving DecidableEq, Repr

/-- What `vt_peek_back` and `vt_size` return. -/
inductive Reply where
  | token (e : IeeToken)
  | size (n : Nat)
  deriving DecidableEq, Repr

/-! ## The stack -/

def stackStep (l : List IeeToken) : Op → Option (List IeeToken × List Reply)
  | .pushBack e => some (l ++ [e], [])
  | .popBack => some (l.dropLast, [])
  | .peekBack => l.getLast?.map fun e => (l, [.token e])
  | .size => some (l, [.size l.length])

def stackRun : List Op → List IeeToken → Option (List IeeToken × List Reply)
  | [], l => some (l, [])
  | op :: ops, l => do
    let (l, out) ← stackStep l op
    let (l, rest) ← stackRun ops l
    return (l, out ++ rest)

/-! ## The vector -/

structure MachineVec where
  array : List IeeToken
  maxSize : BitVec 32
  counter : BitVec 32
  deriving DecidableEq, Repr

namespace MachineVec

/-- `malloc` leaves what was there before. -/
def vtInit (memory : Nat → IeeToken) (maxSize : BitVec 32) : MachineVec :=
  ⟨(List.range maxSize.toNat).map memory, maxSize, 0⟩

/-- The sizes of `malloc`, `memcpy` and `memset` are computed as `size_t`; `max_size` is not. -/
def vtGrow (v : MachineVec) : MachineVec :=
  { v with
    array := v.array.take v.maxSize.toNat ++ List.replicate v.maxSize.toNat .zero
    maxSize := v.maxSize * 2 }

def vtPushBack (v : MachineVec) (e : IeeToken) : Except Fault MachineVec :=
  let v := if v.counter = v.maxSize then v.vtGrow else v
  if v.counter.toNat < v.array.length then
    .ok { v with array := v.array.set v.counter.toNat e, counter := v.counter + 1 }
  else .error .outOfBounds

def vtPopBack (v : MachineVec) : MachineVec := if 0 < v.counter then { v with counter := v.counter - 1 } else v

def vtPeekBack (v : MachineVec) : Except Fault IeeToken :=
  match v.array[(v.counter - 1).toNat]? with
  | some e => .ok e
  | none => .error .outOfBounds

def vtSize (v : MachineVec) : BitVec 32 := v.counter

def step (v : MachineVec) : Op → Except Fault (MachineVec × List Reply)
  | .pushBack e => do return (← v.vtPushBack e, [])
  | .popBack => .ok (v.vtPopBack, [])
  | .peekBack => do return (v, [.token (← v.vtPeekBack)])
  | .size => .ok (v, [.size v.vtSize.toNat])

def run : List Op → MachineVec → Except Fault (MachineVec × List Reply)
  | [], v => .ok (v, [])
  | op :: ops, v => do
    let (v, out) ← v.step op
    let (v, rest) ← run ops v
    return (v, out ++ rest)

/-- Twice the capacity fits in 32 bits whenever an operation is about to run. -/
def fits : List Op → MachineVec → Bool
  | [], _ => true
  | op :: ops, v => decide (2 * v.maxSize.toNat < 2 ^ 32) &&
    match v.step op with
    | .ok (v, _) => fits ops v
    | .error _ => true

/-! ## One operation -/

/-- The same vector with unbounded counters. -/
def unbounded (v : MachineVec) : VecToken := ⟨v.array, v.maxSize.toNat, v.counter.toNat⟩

def elems (v : MachineVec) : List IeeToken := v.array.take v.counter.toNat

structure Represents (v : MachineVec) (l : List IeeToken) : Prop where
  sound : v.unbounded.Sound
  elems : v.elems = l

section Step
variable {v : MachineVec} {l : List IeeToken}

theorem unbounded_vtGrow (h : v.unbounded.Sound) (hFits : 2 * v.maxSize.toNat < 2 ^ 32) :
    v.vtGrow.unbounded = v.unbounded.vtGrow := by
  have hLength : v.array.length = v.maxSize.toNat := h.length
  have hTake : v.array.take v.maxSize.toNat = v.array := List.take_of_length_le (le_of_eq hLength)
  have hDouble : (v.maxSize * 2).toNat = v.maxSize.toNat * 2 := by
    rw [BitVec.toNat_mul]
    exact Nat.mod_eq_of_lt (by simpa [Nat.mul_comm] using hFits)
  simp only [unbounded, vtGrow, VecToken.vtGrow, hTake, hDouble]

theorem vtPushBack_unbounded (h : v.unbounded.Sound) (hFits : 2 * v.maxSize.toNat < 2 ^ 32) (e : IeeToken) :
    ∃ v', v.vtPushBack e = .ok v' ∧ v'.unbounded = v.unbounded.vtPushBack e := by
  have hStore : ∀ u : MachineVec, u.unbounded.Sound → u.counter.toNat < u.maxSize.toNat →
      u.counter.toNat < u.array.length ∧ (u.counter + 1).toNat = u.counter.toNat + 1 := by
    intro u hu hLt
    have hLength : u.array.length = u.maxSize.toNat := hu.length
    have hMax := u.maxSize.isLt
    constructor
    · omega
    · have hOne : (1 : BitVec 32).toNat = 1 := rfl
      rw [BitVec.toNat_add, hOne]
      exact Nat.mod_eq_of_lt (by omega)
  have hFull : v.counter = v.maxSize ↔ v.unbounded.counter = v.unbounded.maxSize := BitVec.toNat_inj.symm
  have hRoom : 0 < v.maxSize.toNat := h.room
  rw [vtPushBack, VecToken.vtPushBack]
  simp only [← hFull]
  obtain hEq | hNe := eq_or_ne v.counter v.maxSize
  · have hGrow := unbounded_vtGrow h hFits
    have hSound : v.vtGrow.unbounded.Sound := hGrow ▸ VecToken.vtGrow_sound h
    have hLt : v.vtGrow.counter.toNat < v.vtGrow.maxSize.toNat := by
      change v.vtGrow.unbounded.counter < v.vtGrow.unbounded.maxSize
      rw [hGrow]
      change v.counter.toNat < v.maxSize.toNat * 2
      rw [hEq]
      omega
    obtain ⟨hIn, hNext⟩ := hStore v.vtGrow hSound hLt
    rw [if_pos hEq, if_pos hEq, if_pos hIn, ← hGrow]
    refine ⟨_, rfl, ?_⟩
    simp only [unbounded, hNext]
  · have hLt : v.counter.toNat < v.maxSize.toNat :=
      lt_of_le_of_ne h.counter fun hSame => hNe (BitVec.eq_of_toNat_eq hSame)
    obtain ⟨hIn, hNext⟩ := hStore v h hLt
    rw [if_neg hNe, if_neg hNe, if_pos hIn]
    refine ⟨_, rfl, ?_⟩
    simp only [unbounded, hNext]

theorem unbounded_vtPopBack : v.vtPopBack.unbounded = v.unbounded.vtPopBack := by
  have hPos : 0 < v.counter ↔ v.unbounded.counter > 0 := by
    rw [BitVec.lt_def]
    rfl
  rw [vtPopBack, VecToken.vtPopBack]
  simp only [← hPos]
  split
  · case isTrue h =>
    have hPred : (v.counter - 1).toNat = v.counter.toNat - 1 := by
      have h' := hPos.mp h
      change v.counter.toNat > 0 at h'
      bv_omega
    simp only [unbounded, hPred]
  · rfl

theorem vtPeekBack_represents (h : Represents v l) {e : IeeToken} (hLast : l.getLast? = some e) :
    v.vtPeekBack = .ok e := by
  obtain ⟨front, rfl⟩ := List.getLast?_eq_some_iff.mp hLast
  have hPeek := VecToken.vtPeekBack_eq h.sound h.elems
  have hLength := VecToken.length_elems h.sound
  have hElems : v.unbounded.elems = front ++ [e] := h.elems
  rw [hElems, List.length_append, List.length_singleton] at hLength
  change front.length + 1 = v.counter.toNat at hLength
  have hPred : (v.counter - 1).toNat = v.counter.toNat - 1 := by bv_omega
  rw [VecToken.vtPeekBack, if_neg (by change ¬ v.counter.toNat = 0; omega)] at hPeek
  rw [vtPeekBack, hPred]
  exact hPeek

theorem step_represents (h : Represents v l) (hFits : 2 * v.maxSize.toNat < 2 ^ 32) {op : Op}
    {l' : List IeeToken} {out : List Reply} (hStack : stackStep l op = some (l', out)) :
    ∃ v', v.step op = .ok (v', out) ∧ Represents v' l' := by
  cases op with
  | pushBack e =>
    cases hStack
    obtain ⟨v', hPush, hUnbounded⟩ := vtPushBack_unbounded h.sound hFits e
    refine ⟨v', by rw [step, hPush]; rfl, ?_, ?_⟩
    · rw [hUnbounded]
      exact VecToken.vtPushBack_sound h.sound e
    · change v'.unbounded.elems = l ++ [e]
      rw [hUnbounded, VecToken.elems_vtPushBack h.sound, ← h.elems]
      rfl
  | popBack =>
    cases hStack
    refine ⟨v.vtPopBack, rfl, ?_, ?_⟩
    · rw [unbounded_vtPopBack]
      exact VecToken.vtPopBack_sound h.sound
    · change v.vtPopBack.unbounded.elems = l.dropLast
      rw [unbounded_vtPopBack, VecToken.elems_vtPopBack h.sound, ← h.elems]
      rfl
  | peekBack =>
    obtain ⟨e, hLast, hEq⟩ := Option.map_eq_some_iff.mp hStack
    cases hEq
    refine ⟨v, ?_, h⟩
    rw [step, vtPeekBack_represents h hLast]
    rfl
  | size =>
    cases hStack
    refine ⟨v, ?_, h⟩
    have hLength := VecToken.length_elems h.sound
    have hElems : v.unbounded.elems = l := h.elems
    rw [hElems] at hLength
    rw [step, hLength]
    rfl

end Step

/-! ## Runs -/

theorem run_represents {v : MachineVec} {l l' : List IeeToken} {ops : List Op} {out : List Reply}
    (h : Represents v l) (hFits : v.fits ops) (hStack : stackRun ops l = some (l', out)) :
    ∃ v', v.run ops = .ok (v', out) ∧ Represents v' l' := by
  induction ops generalizing v l out with
  | nil =>
    cases hStack
    exact ⟨v, rfl, h⟩
  | cons op ops ih =>
    obtain ⟨⟨l₁, first⟩, hFirst, hNext⟩ := Option.bind_eq_some_iff.mp hStack
    obtain ⟨⟨l₂, rest⟩, hRest, hEq⟩ := Option.bind_eq_some_iff.mp hNext
    cases hEq
    obtain ⟨hFitsNow, hFits₁⟩ := Bool.and_eq_true_iff.mp hFits
    obtain ⟨v₁, hStep, h₁⟩ := step_represents h (of_decide_eq_true hFitsNow) hFirst
    rw [hStep] at hFits₁
    obtain ⟨v₂, hRun, h₂⟩ := ih h₁ hFits₁ hRest
    refine ⟨v₂, ?_, h₂⟩
    rw [run, hStep]
    change (run ops v₁ >>= _) = _
    rw [hRun]
    rfl

theorem vtInit_represents (memory : Nat → IeeToken) {maxSize : BitVec 32} (h : 0 < maxSize.toInt) :
    Represents (vtInit memory maxSize) [] := by
  constructor
  case sound =>
    refine ⟨?_, Nat.zero_le _, ?_⟩
    · change ((List.range maxSize.toNat).map memory).length = maxSize.toNat
      rw [List.length_map, List.length_range]
    · apply Nat.pos_of_ne_zero
      intro hZero
      have hNull : maxSize = 0 := BitVec.eq_of_toNat_eq hZero
      rw [hNull] at h
      cases h
  case elems => rfl

/-- Growing any number of times, with pops in between that leave old tokens behind, never shows. -/
theorem run_refines_stack (memory : Nat → IeeToken) {maxSize : BitVec 32} (hSize : 0 < maxSize.toInt)
    {ops : List Op} (hFits : (vtInit memory maxSize).fits ops) {l : List IeeToken} {out : List Reply}
    (hStack : stackRun ops [] = some (l, out)) :
    ∃ v, (vtInit memory maxSize).run ops = .ok (v, out) ∧ v.array.take v.counter.toNat = l ∧
      v.counter ≤ v.maxSize := by
  obtain ⟨v, hRun, h⟩ := run_represents (vtInit_represents memory hSize) hFits hStack
  exact ⟨v, hRun, h.elems, BitVec.le_def.mpr h.sound.counter⟩

/-- A capacity of one, grown twice, and a slot that a pop has left is written again. -/
theorem run_refines_stack_from_one :
    let tkn (n : Nat) : IeeToken := { IeeToken.zero with counter := n }
    let ops := [.pushBack (tkn 1), .pushBack (tkn 2), .pushBack (tkn 3), .popBack, .pushBack (tkn 4), .peekBack, .size]
    ∃ v, (vtInit (fun _ => tkn 9) 1).run ops = .ok (v, [.token (tkn 4), .size 3]) ∧
      v.array.take v.counter.toNat = [tkn 1, tkn 2, tkn 4] ∧ v.counter ≤ v.maxSize := by
  intro tkn ops
  apply run_refines_stack (fun _ => tkn 9) (by decide)
  · decide +kernel
  · rfl

end MachineVec
end Bisen.TokenStack
