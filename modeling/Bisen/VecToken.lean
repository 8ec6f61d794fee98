import Bisen.VecInt

/-! # The growing token vector

`vec_token` doubles its storage when a push finds it full, and overwrites slots past `counter`
that earlier pops left behind. Through all of this its first `counter` slots are a plain stack.
-/
namespace Bisen
open Wire
set_option autoImplicit false

def wordToken : UInt8 := 0x77
def metaToken : UInt8 := 0x7a
def andToken : UInt8 := 0x26
def orToken : UInt8 := 0x7c
def notToken : UInt8 := 0x21
def openToken : UInt8 := 0x28
def closeToken : UInt8 := 0x29
def resultToken : UInt8 := 0x72

/-- `iee_token` without `idf`, which only the scoring passes use and carry beside it. -/
structure IeeToken where
  type : UInt8
  counter : Nat
  kW : Bytes
  docs : VecInt
  docFrequencies : VecInt
  deriving DecidableEq, Repr

def IeeToken.zero : IeeToken := ⟨0, 0, [], .viInit 0, .viInit 0⟩

structure VecToken where
  array : List IeeToken
  maxSize : Nat
  counter : Nat
  deriving DecidableEq, Repr

namespace VecToken

def maxQueryTokens : Nat := 25

def vtInit (maxSize : Nat) : VecToken := ⟨List.replicate maxSize .zero, maxSize, 0⟩

def vtGrow (v : VecToken) : VecToken :=
  { v with array := v.array ++ List.replicate v.maxSize .zero, maxSize := v.maxSize * 2 }

def vtPushBack (v : VecToken) (e : IeeToken) : VecToken :=
  let v := if v.counter = v.maxSize then v.vtGrow else v
  { v with array := v.array.set v.counter e, counter := v.counter + 1 }

def vtPopBack (v : VecToken) : VecToken := if v.counter > 0 then { v with counter := v.counter - 1 } else v

def vtPeekBack (v : VecToken) : Except Fault IeeToken :=
  if v.counter = 0 then .error .outOfBounds
  else match v.array[v.counter - 1]? with
    | some e => .ok e
    | none => .error .outOfBounds

def vtSize (v : VecToken) : Nat := v.counter

/-- The stack the vector stands for, bottom first. -/
def elems (v : VecToken) : List IeeToken := v.array.take v.counter

structure Sound (v : VecToken) : Prop where
  length : v.array.length = v.maxSize
  counter : v.counter ≤ v.maxSize
  room : 0 < v.maxSize

theorem vtInit_sound {n : Nat} (hn : 0 < n) : (vtInit n).Sound :=
  ⟨List.length_replicate, Nat.zero_le n, hn⟩

@[simp] theorem elems_vtInit (n : Nat) : (vtInit n).elems = [] := by simp [elems, vtInit]

theorem length_elems {v : VecToken} (h : v.Sound) : v.elems.length = v.counter := by
  rw [elems, List.length_take, h.length]
  exact Nat.min_eq_left h.counter

theorem vtGrow_sound {v : VecToken} (h : v.Sound) : v.vtGrow.Sound := by
  obtain ⟨hLength, hCounter, hRoom⟩ := h
  refine ⟨?_, ?_, ?_⟩ <;> simp only [vtGrow, List.length_append, List.length_replicate] <;> omega

theorem elems_vtGrow {v : VecToken} (h : v.Sound) : v.vtGrow.elems = v.elems := by
  have hCounter := h.counter
  rw [← h.length] at hCounter
  exact List.take_append_of_le_length hCounter

theorem vtPushBack_sound {v : VecToken} (h : v.Sound) (e : IeeToken) : (v.vtPushBack e).Sound := by
  rw [vtPushBack]
  split
  · have hGrow := vtGrow_sound h
    have hRoom := h.room
    have hSize : v.vtGrow.maxSize = v.maxSize * 2 := rfl
    have hCounter : v.vtGrow.counter = v.counter := rfl
    exact ⟨by simpa using hGrow.length, by simp only [hCounter, hSize]; omega, hGrow.room⟩
  · have hCounter := h.counter
    exact ⟨by simpa using h.length, by simp only; omega, h.room⟩

theorem elems_vtPushBack {v : VecToken} (h : v.Sound) (e : IeeToken) :
    (v.vtPushBack e).elems = v.elems ++ [e] := by
  have hStore : ∀ u : VecToken, u.Sound → u.counter < u.maxSize →
      (u.array.set u.counter e).take (u.counter + 1) = u.elems ++ [e] := by
    intro u hu hLt
    rw [← hu.length] at hLt
    rw [List.take_add_one, List.take_set_of_le (le_refl _), List.getElem?_set_self hLt,
      Option.toList_some, elems]
  rw [vtPushBack]
  split
  · rw [← elems_vtGrow h]
    apply hStore v.vtGrow (vtGrow_sound h)
    change v.counter < v.maxSize * 2
    have hRoom := h.room
    omega
  · case isFalse hFull => exact hStore v h (Nat.lt_of_le_of_ne h.counter hFull)

theorem vtPopBack_sound {v : VecToken} (h : v.Sound) : v.vtPopBack.Sound := by
  have hCounter := h.counter
  rw [vtPopBack]
  split
  · exact ⟨h.length, by simp only; omega, h.room⟩
  · exact h

theorem elems_vtPopBack {v : VecToken} (h : v.Sound) : v.vtPopBack.elems = v.elems.dropLast := by
  have hLength := length_elems h
  rw [List.dropLast_eq_take, hLength]
  rw [vtPopBack]
  split
  · rw [elems, elems, List.take_take, Nat.min_eq_left (by omega)]
  · have hZero : v.counter = 0 := by omega
    rw [elems, hZero]
    rfl

theorem vtPeekBack_eq {v : VecToken} (h : v.Sound) {l : List IeeToken} {e : IeeToken}
    (hElems : v.elems = l ++ [e]) : v.vtPeekBack = .ok e := by
  have hLength := length_elems h
  rw [hElems, List.length_append, List.length_singleton] at hLength
  have hGet : v.array[v.counter - 1]? = some e := by
    have hTake : v.elems[v.counter - 1]? = some e := by
      rw [hElems, ← hLength, Nat.add_sub_cancel, List.getElem?_concat_length]
    rwa [elems, List.getElem?_take_of_lt (by omega)] at hTake
  rw [vtPeekBack, if_neg (by omega), hGet]

end VecToken
end Bisen
