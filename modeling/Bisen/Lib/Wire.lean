import Mathlib.Data.List.Basic
import Mathlib.Tactic.Ring

/-! # Byte strings, little-endian words and keystream XOR

Everything that crosses a socket or a buffer is a list of bytes. Machine words travel
least significant byte first; reading back exactly the written number of bytes recovers
the word.
-/
namespace Wire
set_option autoImplicit false

abbrev Bytes := List UInt8

/-- The `w` low bytes of `n`, least significant first. -/
def littleEndian : Nat → Nat → Bytes
  | 0, _ => []
  | w + 1, n => UInt8.ofNat n :: littleEndian w (n / 256)

def number (b : Bytes) : Nat := b.foldr (fun d n => d.toNat + 256 * n) 0

@[simp] theorem number_nil : number [] = 0 := rfl
@[simp] theorem number_cons (d : UInt8) (b : Bytes) : number (d :: b) = d.toNat + 256 * number b := rfl

@[simp] theorem length_littleEndian (w n : Nat) : (littleEndian w n).length = w := by
  induction w generalizing n with
  | zero => rfl
  | succ w ih => rw [littleEndian, List.length_cons, ih]

theorem number_littleEndian (w n : Nat) : number (littleEndian w n) = n % 256 ^ w := by
  induction w generalizing n with
  | zero => rw [littleEndian, number_nil, Nat.pow_zero, Nat.mod_one]
  | succ w ih =>
    have hDigit : (UInt8.ofNat n).toNat = n % 256 := UInt8.toNat_ofNat'
    rw [littleEndian, number_cons, ih, hDigit, Nat.pow_succ', Nat.mod_mul]

theorem number_littleEndian_of_lt {w n : Nat} (h : n < 256 ^ w) : number (littleEndian w n) = n := by
  rw [number_littleEndian, Nat.mod_eq_of_lt h]

/-- A 32-bit `int` or `unsigned` as it is copied byte for byte. -/
def word32 (x : BitVec 32) : Bytes := littleEndian 4 x.toNat

def readWord32 (b : Bytes) : BitVec 32 := BitVec.ofNat 32 (number b)

@[simp] theorem length_word32 (x : BitVec 32) : (word32 x).length = 4 := length_littleEndian 4 _

@[simp] theorem readWord32_word32 (x : BitVec 32) : readWord32 (word32 x) = x := by
  have hLt : x.toNat < 256 ^ 4 := x.isLt
  rw [readWord32, word32, number_littleEndian_of_lt hLt, BitVec.ofNat_toNat, BitVec.setWidth_eq]

theorem word32_inj {x y : BitVec 32} (h : word32 x = word32 y) : x = y := by
  rw [← readWord32_word32 x, h, readWord32_word32]

def word64 (x : BitVec 64) : Bytes := littleEndian 8 x.toNat

def readWord64 (b : Bytes) : BitVec 64 := BitVec.ofNat 64 (number b)

@[simp] theorem length_word64 (x : BitVec 64) : (word64 x).length = 8 := length_littleEndian 8 _

@[simp] theorem readWord64_word64 (x : BitVec 64) : readWord64 (word64 x) = x := by
  have hLt : x.toNat < 256 ^ 8 := x.isLt
  rw [readWord64, word64, number_littleEndian_of_lt hLt, BitVec.ofNat_toNat, BitVec.setWidth_eq]

theorem number_append (a b : Bytes) : number (a ++ b) = number a + 256 ^ a.length * number b := by
  induction a with
  | nil => simp
  | cons d a ih =>
    rw [List.cons_append, number_cons, number_cons, ih, List.length_cons, Nat.pow_succ']
    ring

theorem littleEndian_number (b : Bytes) : littleEndian b.length (number b) = b := by
  induction b with
  | nil => rfl
  | cons d b ih =>
    have hLow : UInt8.ofNat (number (d :: b)) = d := by
      apply UInt8.toNat_inj.mp
      rw [UInt8.toNat_ofNat', number_cons, Nat.add_mul_mod_self_left, Nat.mod_eq_of_lt d.toNat_lt]
    have hHigh : number (d :: b) / 256 = number b := by
      have hDigit := d.toNat_lt
      rw [number_cons]
      omega
    rw [List.length_cons, littleEndian, hLow, hHigh, ih]

theorem number_lt (b : Bytes) : number b < 256 ^ b.length := by
  induction b with
  | nil => exact Nat.one_pos
  | cons d b ih =>
    have hDigit := d.toNat_lt
    rw [number_cons, List.length_cons, Nat.pow_succ']
    omega

theorem word64_readWord64 {b : Bytes} (h : b.length = 8) : word64 (readWord64 b) = b := by
  have hLt := number_lt b
  rw [h] at hLt
  rw [word64, readWord64, BitVec.toNat_ofNat, Nat.mod_eq_of_lt (by simpa using hLt)]
  have hBytes := littleEndian_number b
  rwa [h] at hBytes

theorem readWord32_inj {a b : Bytes} (ha : a.length = 4) (hb : b.length = 4) (h : readWord32 a = readWord32 b) :
    a = b := by
  have hToNat : ∀ c : Bytes, c.length = 4 → (readWord32 c).toNat = number c := by
    intro c hc
    have hLt := number_lt c
    rw [hc] at hLt
    rw [readWord32, BitVec.toNat_ofNat]
    exact Nat.mod_eq_of_lt hLt
  have hNumber : number a = number b := by rw [← hToNat a ha, h, hToNat b hb]
  rw [← littleEndian_number a, ← littleEndian_number b, ha, hb, hNumber]

theorem setWidth_readWord64 (b : Bytes) (hb : 4 ≤ b.length) :
    (readWord64 b).setWidth 32 = readWord32 (b.take 4) := by
  have hTake : (b.take 4).length = 4 := by
    rw [List.length_take]
    omega
  have hSplit := number_append (b.take 4) (b.drop 4)
  rw [List.take_append_drop, hTake] at hSplit
  apply BitVec.eq_of_toNat_eq
  rw [BitVec.toNat_setWidth, readWord64, readWord32, BitVec.toNat_ofNat, BitVec.toNat_ofNat,
    Nat.mod_mod_of_dvd _ (by norm_num), hSplit]
  exact Nat.add_mul_mod_self_left ..

def xor (a b : Bytes) : Bytes := List.zipWith (· ^^^ ·) a b

@[simp] theorem length_xor (a b : Bytes) : (xor a b).length = min a.length b.length :=
  List.length_zipWith

theorem xor_xor_cancel {a k : Bytes} (h : a.length ≤ k.length) : xor (xor a k) k = a := by
  induction a generalizing k with
  | nil => rfl
  | cons x a ih =>
    cases k with
    | nil => cases h
    | cons y k =>
      have hRest : xor (xor a k) k = a := ih (by simpa using h)
      simp only [xor, List.zipWith_cons_cons] at hRest ⊢
      rw [hRest, UInt8.xor_assoc, UInt8.xor_self, UInt8.xor_zero]

theorem xor_right_inj {a b k : Bytes} (ha : a.length ≤ k.length) (hb : b.length ≤ k.length) :
    xor a k = xor b k ↔ a = b :=
  ⟨fun h => by rw [← xor_xor_cancel ha, h, xor_xor_cancel hb], fun h => by rw [h]⟩

theorem xor_comm (a b : Bytes) : xor a b = xor b a := by
  rw [xor, xor, List.zipWith_comm]
  exact congrArg (List.zipWith · b a) (funext₂ fun x y => UInt8.xor_comm y x)

theorem xor_known {a k : Bytes} (h : k.length ≤ a.length) : xor (xor a k) a = k := by
  rw [xor_comm a k, xor_xor_cancel h]

theorem take_xor (n : Nat) (a b : Bytes) : (xor a b).take n = xor (a.take n) (b.take n) :=
  List.take_zipWith

theorem drop_xor (n : Nat) (a b : Bytes) : (xor a b).drop n = xor (a.drop n) (b.drop n) :=
  List.drop_zipWith

def slice (b : Bytes) (i n : Nat) : Bytes := (b.drop i).take n

theorem slice_xor (a b : Bytes) (i n : Nat) : slice (xor a b) i n = xor (slice a i n) (slice b i n) := by
  rw [slice, drop_xor, take_xor]
  rfl

theorem length_slice {b : Bytes} {i n : Nat} (h : i + n ≤ b.length) : (slice b i n).length = n := by
  rw [slice, List.length_take, List.length_drop]
  omega

theorem slice_zero (b : Bytes) (n : Nat) : slice b 0 n = b.take n := rfl

theorem slice_add (b : Bytes) (i m n : Nat) : slice b i (m + n) = slice b i m ++ slice b (i + m) n := by
  rw [slice, List.take_add, List.drop_drop]
  rfl

theorem slice_append {a x b : Bytes} {i n : Nat} (hi : a.length = i) (hn : x.length = n) :
    slice (a ++ (x ++ b)) i n = x := by
  rw [slice, List.drop_left' hi, List.take_left' hn]

theorem slice_append_left {a b : Bytes} {n : Nat} (h : n ≤ a.length) : slice (a ++ b) 0 n = slice a 0 n := by
  simp only [slice, List.drop_zero]
  exact List.take_append_of_le_length h

theorem slice_flatten {w : Nat} (records : List Bytes) (hWidth : ∀ r, r ∈ records → r.length = w)
    {i : Nat} (hi : i < records.length) : slice records.flatten (i * w) w = records[i] := by
  induction records generalizing i with
  | nil => cases hi
  | cons r records ih =>
    have hr : r.length = w := hWidth r List.mem_cons_self
    cases i with
    | zero =>
      rw [slice, Nat.zero_mul, List.drop_zero, List.flatten_cons, List.take_append_of_le_length (by omega)]
      exact List.take_of_length_le (by omega)
    | succ i =>
      have hRest := ih (fun s hs => hWidth s (List.mem_cons_of_mem _ hs)) (by simpa using hi)
      have hOffset : (i + 1) * w = r.length + i * w := by rw [hr]; ring
      rw [slice, hOffset, List.flatten_cons, List.drop_append, Nat.add_sub_cancel_left]
      rw [List.drop_of_length_le (by omega), List.nil_append]
      exact hRest

def chunks (w n : Nat) (b : Bytes) : List Bytes := (List.range n).map fun i => slice b (i * w) w

@[simp] theorem length_chunks (w n : Nat) (b : Bytes) : (chunks w n b).length = n := by
  rw [chunks, List.length_map, List.length_range]

theorem chunks_flatten {w : Nat} (records : List Bytes) (hWidth : ∀ r, r ∈ records → r.length = w) :
    chunks w records.length records.flatten = records := by
  apply List.ext_getElem (length_chunks _ _ _)
  intro i _ hi
  simp only [chunks, List.getElem_map, List.getElem_range]
  exact slice_flatten records hWidth hi

theorem chunks_append {w n : Nat} {a : Bytes} (ha : a.length = n * w) (b : Bytes) :
    chunks w n (a ++ b) = chunks w n a := by
  apply List.map_congr_left
  intro i hi
  have hFits : i * w + w ≤ a.length := by
    rw [ha, ← Nat.succ_mul]
    exact Nat.mul_le_mul_right w (List.mem_range.mp hi)
  rw [slice, slice, List.drop_append_of_le_length (by omega),
    List.take_append_of_le_length (by rw [List.length_drop]; omega)]

theorem flatten_chunks {w n : Nat} {b : Bytes} (h : b.length = n * w) : (chunks w n b).flatten = b := by
  have hPrefix : ∀ m, (chunks w m b).flatten = b.take (m * w) := by
    intro m
    induction m with
    | zero => rw [Nat.zero_mul]; rfl
    | succ m ih =>
      rw [chunks, List.range_succ, List.map_append, List.flatten_append]
      change (chunks w m b).flatten ++ _ = _
      rw [ih, Nat.succ_mul, List.take_add]
      simp [slice]
  rw [hPrefix, ← h, List.take_length]

theorem length_of_mem_chunks {w n : Nat} {b : Bytes} (h : b.length = n * w) {r : Bytes}
    (hr : r ∈ chunks w n b) :
    r.length = w := by
  obtain ⟨i, hi, rfl⟩ := List.mem_map.mp hr
  have hLe : (i + 1) * w ≤ n * w := Nat.mul_le_mul_right w (List.mem_range.mp hi)
  rw [Nat.succ_mul] at hLe
  exact length_slice (by omega)

theorem length_flatten_of_width {w : Nat} (records : List Bytes)
    (hWidth : ∀ r, r ∈ records → r.length = w) : records.flatten.length = records.length * w := by
  induction records with
  | nil => simp
  | cons r records ih =>
    rw [List.flatten_cons, List.length_append, hWidth r List.mem_cons_self,
      ih (fun s hs => hWidth s (List.mem_cons_of_mem _ hs)), List.length_cons]
    ring

theorem take_flatten_of_width {w : Nat} (records : List Bytes) (hWidth : ∀ r, r ∈ records → r.length = w)
    (k : Nat) :
    records.flatten.take (k * w) = (records.take k).flatten := by
  induction records generalizing k with
  | nil => simp
  | cons r records ih =>
    cases k with
    | zero => simp
    | succ k =>
      have hr : r.length = w := hWidth r List.mem_cons_self
      rw [List.flatten_cons, List.take_succ_cons, List.flatten_cons,
        ← ih (fun s hs => hWidth s (List.mem_cons_of_mem _ hs)),
        Nat.succ_mul, Nat.add_comm, List.take_append, List.take_of_length_le (by omega), hr,
          Nat.add_sub_cancel_left]

end Wire
