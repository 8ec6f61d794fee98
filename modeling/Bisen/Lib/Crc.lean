import Mathlib.Data.List.Basic
import Mathlib.Tactic.Ring

/-! # Reflected cyclic redundancy checks

A check takes its bits from the low end: the register moves down by one place, and the polynomial is added when
the bit that falls out is set. Adding is exclusive or, so the check is linear, and as many bits as a table has
address bits may be taken at once.
-/
namespace Crc
set_option autoImplicit false

section Shift
variable {w : Nat} (poly : BitVec w)

def shift (c : BitVec w) : BitVec w := if c.getLsbD 0 then (c >>> 1) ^^^ poly else c >>> 1

/-- `n` bits. -/
def shifts : Nat → BitVec w → BitVec w
  | 0, c => c
  | n + 1, c => shift poly (shifts n c)

theorem shift_xor (a b : BitVec w) : shift poly (a ^^^ b) = shift poly a ^^^ shift poly b := by
  rw [shift, shift, shift, BitVec.getLsbD_xor, BitVec.ushiftRight_xor_distrib]
  cases a.getLsbD 0 with
  | false =>
    cases b.getLsbD 0 with
    | false => rfl
    | true => exact BitVec.xor_assoc _ _ _
  | true =>
    cases b.getLsbD 0 with
    | false =>
      change a >>> 1 ^^^ b >>> 1 ^^^ poly = a >>> 1 ^^^ poly ^^^ b >>> 1
      rw [BitVec.xor_assoc, BitVec.xor_comm (b >>> 1), BitVec.xor_assoc]
    | true =>
      change a >>> 1 ^^^ b >>> 1 = a >>> 1 ^^^ poly ^^^ (b >>> 1 ^^^ poly)
      rw [BitVec.xor_comm (b >>> 1) poly, ← BitVec.xor_assoc, BitVec.xor_assoc (a >>> 1) poly poly, BitVec.xor_self,
        BitVec.xor_zero]

theorem shifts_xor (n : Nat) (a b : BitVec w) : shifts poly n (a ^^^ b) = shifts poly n a ^^^ shifts poly n b := by
  induction n with
  | zero => rfl
  | succ n ih => rw [shifts, shifts, shifts, ih, shift_xor]

/-- While the low bits are clear the register only moves down. -/
theorem shifts_of_low_clear {n : Nat} {c : BitVec w} (h : ∀ i, i < n → c.getLsbD i = false) :
    shifts poly n c = c >>> n := by
  induction n with
  | zero => rw [shifts, BitVec.ushiftRight_zero]
  | succ n ih =>
    have hBit : (c >>> n).getLsbD 0 = false := by
      rw [BitVec.getLsbD_ushiftRight]
      exact h n (Nat.lt_succ_self n)
    rw [shifts, ih fun i hi => h i (Nat.lt_succ_of_lt hi), shift, hBit, ← BitVec.shiftRight_add]
    rfl

end Shift

/-! ## By a table -/

section Table
variable {w : Nat} (poly : BitVec w)

/-- The low `n` bits. -/
def low (n : Nat) (c : BitVec w) : BitVec w := (c.setWidth n).setWidth w

theorem getLsbD_low (n : Nat) (c : BitVec w) (i : Nat) : (low n c).getLsbD i = (decide (i < n) && c.getLsbD i) := by
  rw [low, BitVec.getLsbD_setWidth, BitVec.getLsbD_setWidth]
  by_cases hi : i < w
  · rw [decide_eq_true hi, Bool.true_and]
  · rw [BitVec.getLsbD_of_ge c i (Nat.not_lt.mp hi), Bool.and_false, Bool.and_false]

theorem getLsbD_xor_low (n : Nat) (c : BitVec w) (i : Nat) :
    (c ^^^ low n c).getLsbD i = (!decide (i < n) && c.getLsbD i) := by
  rw [BitVec.getLsbD_xor, getLsbD_low]
  cases decide (i < n) <;> cases c.getLsbD i <;> rfl

/-- The bits that fall out are looked up, the others move down. -/
theorem shifts_eq_table (n : Nat) (c : BitVec w) : shifts poly n c = shifts poly n (low n c) ^^^ (c >>> n) := by
  have hSplit : c = low n c ^^^ (c ^^^ low n c) := by
    rw [BitVec.xor_comm c, ← BitVec.xor_assoc, BitVec.xor_self, BitVec.zero_xor]
  have hClear : ∀ i, i < n → (c ^^^ low n c).getLsbD i = false := by
    intro i hi
    rw [getLsbD_xor_low, decide_eq_true hi]
    rfl
  have hHigh : (c ^^^ low n c) >>> n = c >>> n := by
    apply BitVec.eq_of_getLsbD_eq
    intro i _
    rw [BitVec.getLsbD_ushiftRight, BitVec.getLsbD_ushiftRight, getLsbD_xor_low, decide_eq_false (by omega)]
    rfl
  conv_lhs => rw [hSplit]
  rw [shifts_xor, shifts_of_low_clear poly hClear, hHigh]

/-- The check of a message, bit by bit: each byte enters at the low end. -/
def check (c : BitVec w) (message : List UInt8) : BitVec w :=
  message.foldl (fun c b => shifts poly 8 (c ^^^ b.toBitVec.setWidth w)) c

theorem check_xor (c d : BitVec w) {u v : List UInt8} (h : u.length = v.length) :
    check poly (c ^^^ d) (List.zipWith (· ^^^ ·) u v) = check poly c u ^^^ check poly d v := by
  induction u generalizing c d v with
  | nil =>
    rw [List.length_nil] at h
    rw [List.eq_nil_of_length_eq_zero h.symm]
    rfl
  | cons a u ih =>
    cases v with
    | nil => cases h
    | cons b v =>
      have hByte : c ^^^ d ^^^ (a ^^^ b).toBitVec.setWidth w =
          (c ^^^ a.toBitVec.setWidth w) ^^^ (d ^^^ b.toBitVec.setWidth w) := by
        rw [UInt8.toBitVec_xor, BitVec.setWidth_xor, BitVec.xor_assoc, BitVec.xor_assoc, ← BitVec.xor_assoc d,
          BitVec.xor_comm d, BitVec.xor_assoc]
      rw [List.zipWith_cons_cons, check, List.foldl_cons, hByte, shifts_xor]
      exact ih _ _ (Nat.succ.inj h)

/-! ## The width -/

/-- From place `m` on all bits are clear. -/
def Fits (m : Nat) (c : BitVec w) : Prop := ∀ i, m ≤ i → c.getLsbD i = false

theorem Fits.lt {m : Nat} {c : BitVec w} (h : Fits m c) : c.toNat < 2 ^ m :=
  Nat.lt_pow_two_of_testBit _ fun i hi => (BitVec.testBit_toNat c).trans (h i hi)

theorem Fits.xor {m : Nat} {c d : BitVec w} (h : Fits m c) (h' : Fits m d) : Fits m (c ^^^ d) := by
  intro i hi
  rw [BitVec.getLsbD_xor, h i hi, h' i hi]
  rfl

theorem Fits.shiftRight {m : Nat} {c : BitVec w} (h : Fits m c) (n : Nat) : Fits m (c >>> n) := by
  intro i hi
  rw [BitVec.getLsbD_ushiftRight]
  exact h (n + i) (Nat.le_trans hi (Nat.le_add_left i n))

theorem Fits.shifts {m : Nat} {c : BitVec w} (hPoly : Fits m poly) (h : Fits m c) (n : Nat) :
    Fits m (shifts poly n c) := by
  induction n with
  | zero => exact h
  | succ n ih =>
    rw [Crc.shifts, shift]
    split
    · exact (ih.shiftRight 1).xor hPoly
    · exact ih.shiftRight 1

theorem fits_check {m : Nat} (hByte : 8 ≤ m) (hPoly : Fits m poly) {c : BitVec w} (h : Fits m c)
    (message : List UInt8) : Fits m (check poly c message) := by
  induction message generalizing c with
  | nil => exact h
  | cons b message ih =>
    have hb : Fits m (b.toBitVec.setWidth w) := by
      intro i hi
      rw [BitVec.getLsbD_setWidth, BitVec.getLsbD_of_ge b.toBitVec i (Nat.le_trans hByte hi), Bool.and_false]
    exact ih (Fits.shifts poly hPoly (h.xor hb) 8)

end Table
end Crc
