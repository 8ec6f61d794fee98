import Bisen.Lib.Wire
import Mathlib.Tactic.Ring

/-! # Framing a byte stream

A decoder recognises one frame at the front of the received bytes, and bytes that arrive later do
not change a frame that is already whole. Then the frames of a stream, and the bytes left over, do
not depend on how the stream was cut into pieces. Several writers of one stream are told apart by
tags.
-/
namespace Framing
open Wire
set_option autoImplicit false

structure Decoder (ρ : Type) where
  decode : Bytes → Option (ρ × Bytes)
  shrinks : ∀ {b r rest}, decode b = some (r, rest) → rest.length < b.length
  stable : ∀ {b r rest} (c : Bytes), decode b = some (r, rest) → decode (b ++ c) = some (r, rest ++ c)

namespace Decoder
variable {ρ : Type} (D : Decoder ρ)

def framesFrom : Nat → Bytes → List ρ × Bytes
  | 0, b => ([], b)
  | fuel + 1, b => match D.decode b with
    | none => ([], b)
    | some (r, rest) => (r :: (framesFrom fuel rest).1, (framesFrom fuel rest).2)

/-- The whole frames at the front of `b`, and the bytes that are not yet one. -/
def frames (b : Bytes) : List ρ × Bytes := D.framesFrom b.length b

variable {D} {b rest : Bytes} {r : ρ}

theorem framesFrom_of_le {fuel : Nat} (hFuel : b.length ≤ fuel) : D.framesFrom fuel b = D.frames b := by
  induction fuel using Nat.strongRecOn generalizing b with
  | ind fuel ih =>
    cases hDecode : D.decode b with
    | none => cases fuel <;> cases hLength : b.length <;> simp [frames, framesFrom, hLength, hDecode]
    | some p =>
      obtain ⟨r, rest⟩ := p
      have hShrinks := D.shrinks hDecode
      obtain ⟨fuel, rfl⟩ := Nat.exists_eq_succ_of_ne_zero (show fuel ≠ 0 by omega)
      obtain ⟨n, hLength⟩ := Nat.exists_eq_succ_of_ne_zero (show b.length ≠ 0 by omega)
      have hRest := ih fuel (by omega) (show rest.length ≤ fuel by omega)
      have hShort := ih n (by omega) (show rest.length ≤ n by omega)
      simp only [frames, hLength, framesFrom, hDecode]
      rw [hRest, hShort]

theorem frames_of_none (h : D.decode b = none) : D.frames b = ([], b) := by
  rw [frames]
  cases b.length with
  | zero => rfl
  | succ n => rw [framesFrom, h]

theorem frames_of_some (h : D.decode b = some (r, rest)) :
    D.frames b = (r :: (D.frames rest).1, (D.frames rest).2) := by
  have hShrinks := D.shrinks h
  obtain ⟨n, hLength⟩ := Nat.exists_eq_succ_of_ne_zero (show b.length ≠ 0 by omega)
  rw [frames, hLength, framesFrom, h]
  simp only
  rw [framesFrom_of_le (show rest.length ≤ n by omega)]

theorem frames_induction {motive : Bytes → Prop} (hNone : ∀ b, D.decode b = none → motive b)
    (hSome : ∀ b r rest, D.decode b = some (r, rest) → motive rest → motive b) (b : Bytes) : motive b := by
  generalize hn : b.length = n
  induction n using Nat.strongRecOn generalizing b with
  | ind n ih =>
    cases hDecode : D.decode b with
    | none => exact hNone b hDecode
    | some p =>
      have hShrinks := D.shrinks hDecode
      exact hSome b p.1 p.2 hDecode (ih p.2.length (by omega) p.2 rfl)

theorem decode_nil : D.decode [] = none := by
  cases h : D.decode [] with
  | none => rfl
  | some p => exact absurd (D.shrinks h) (Nat.not_lt_zero _)

theorem frames_nil : D.frames [] = ([], []) := frames_of_none decode_nil

/-- Later bytes are framed together with what the earlier ones left over. -/
theorem frames_append (a b : Bytes) :
    D.frames (a ++ b) =
      ((D.frames a).1 ++ (D.frames ((D.frames a).2 ++ b)).1, (D.frames ((D.frames a).2 ++ b)).2) := by
  induction a using frames_induction (D := D) with
  | hNone a h => simp [frames_of_none h]
  | hSome a r rest h ih => simp [frames_of_some h, frames_of_some (D.stable b h), ih]

end Decoder

/-! ## Tags -/

section Tags
variable {ι α : Type} [DecidableEq ι] (i : ι)

/-- The items that carry the tag `i`. -/
def tagged (items : List (ι × α)) : List α := (items.filter (·.1 = i)).map Prod.snd

@[simp] theorem tagged_nil : tagged i ([] : List (ι × α)) = [] := rfl

@[simp] theorem tagged_append (a b : List (ι × α)) : tagged i (a ++ b) = tagged i a ++ tagged i b := by
  rw [tagged, List.filter_append, List.map_append]
  rfl

@[simp] theorem tagged_map_self (items : List α) : tagged i (items.map (Prod.mk i)) = items := by
  rw [tagged, List.filter_eq_self.mpr]
  · simp
  · simp

theorem tagged_of_forall {items : List (ι × α)} (h : ∀ p, p ∈ items → p.1 = i) :
    tagged i items = items.map Prod.snd := by
  rw [tagged, List.filter_eq_self.mpr]
  intro p hp
  exact decide_eq_true (h p hp)

theorem tagged_of_forall_ne {i j : ι} {items : List (ι × α)} (h : ∀ p, p ∈ items → p.1 = i) (hne : i ≠ j) :
    tagged j items = [] := by
  rw [tagged, List.filter_eq_nil_iff.mpr]
  · rfl
  · intro p hp
    rw [h p hp]
    simp [hne]

theorem tagged_map_of_ne {i j : ι} (h : i ≠ j) (items : List α) : tagged j (items.map (Prod.mk i)) = [] := by
  refine tagged_of_forall_ne (i := i) ?_ h
  intro p hp
  obtain ⟨a, _, rfl⟩ := List.mem_map.mp hp
  rfl

end Tags
end Framing
