import Bisen.Platform
import Mathlib.Data.List.GetD
import Mathlib.Data.List.Nodup
import Mathlib.Data.List.Perm.Basic
import Mathlib.Data.Set.Basic
import Mathlib.Logic.Function.Basic

/-! # Document lists and their set operations

`vec_int` is a fixed-capacity array of `int` with a silently dropping push. The set operations
count occurrences in a byte buffer shared by all of them, size the result in one pass and fill
it in another. Each is specified by the set of document numbers it holds.
-/
namespace Bisen
set_option autoImplicit false

/-- The cells of `array` past `counter` hold whatever `malloc` left, written here as zeros. -/
structure VecInt where
  array : List (BitVec 32)
  maxSize : Nat
  counter : Nat
  deriving DecidableEq, Repr

namespace VecInt

def viInit (maxSize : Nat) : VecInt := ⟨List.replicate maxSize 0, maxSize, 0⟩

def viPushBack (v : VecInt) (e : BitVec 32) : VecInt :=
  if v.counter < v.maxSize then { v with array := v.array.set v.counter e, counter := v.counter + 1 } else v

def viSize (v : VecInt) : Nat := v.counter

/-- The cells that the loops `for i < counter` read. -/
def elems (v : VecInt) : List (BitVec 32) := v.array.take v.counter

def viIndexOf (v : VecInt) (e : BitVec 32) : Int :=
  match v.elems.idxOf? e with
  | some i => i
  | none => -1

def memset (count : List UInt8) (n : Nat) : Except Fault (List UInt8) :=
  if n ≤ count.length then .ok (List.replicate n 0 ++ count.drop n) else .error .outOfBounds

/-- An assignment to `count[x]`; the index is a signed `int`. -/
def storeAt (count : List UInt8) (x : BitVec 32) (f : UInt8 → UInt8) : Except Fault (List UInt8) :=
  if 0 ≤ x.toInt ∧ x.toInt < count.length then .ok (count.modify x.toNat f) else .error .outOfBounds

def mark (xs : List (BitVec 32)) (count : List UInt8) : Except Fault (List UInt8) :=
  xs.foldlM (fun c x => storeAt c x fun _ => 1) count

/-- `count[x]++` for every listed `x`, counting in `ops` how often the new value is `hit`. -/
def countUp (hit : UInt8) (xs : List (BitVec 32)) (count : List UInt8) (ops : Nat) :
    Except Fault (List UInt8 × Nat) :=
  xs.foldlM (fun (c, ops) x => do
    let c ← storeAt c x (· + 1)
    pure (c, if c.getD x.toNat 0 = hit then ops + 1 else ops)) (count, ops)

/-- Pushes every `i < ndocs` whose count is kept into a new vector of capacity `ops`. -/
def collect (keep : UInt8 → Bool) (count : List UInt8) (ndocs ops : Nat) : VecInt :=
  (List.range ndocs).foldl
    (fun v i => if keep (count.getD i 0) then v.viPushBack (BitVec.ofNat 32 i) else v) (viInit ops)

def viVecUnion (a b : VecInt) (count : List UInt8) (ndocs : Nat) : Except Fault (VecInt × List UInt8) := do
  let count ← memset count ndocs
  let count ← mark a.elems count
  let (count, ops) ← countUp 1 b.elems count a.counter
  pure (collect (0 < ·) count ndocs ops, count)

def viVecIntersection (a b : VecInt) (count : List UInt8) (ndocs : Nat) :
    Except Fault (VecInt × List UInt8) := do
  let count ← memset count ndocs
  let count ← mark a.elems count
  let (count, ops) ← countUp 2 b.elems count 0
  pure (collect (· == 2) count ndocs ops, count)

/-- `get_not_docs` of the evaluator. A negative `nDocs` becomes a huge `size_t` in `memset`. -/
def getNotDocs (nDocs : BitVec 32) (negate : VecInt) (count : List UInt8) :
    Except Fault (VecInt × List UInt8) := do
  let count ← memset count (if nDocs.toInt < 0 then 2 ^ 64 - (2 ^ 32 - nDocs.toNat) else nDocs.toNat)
  let count ← mark negate.elems count
  let nops := negate.counter
  pure (collect (· == 0) count nDocs.toNat ((nDocs.toNat + 2 ^ 32 - nops) % 2 ^ 32), count)

/-! ## What the counting passes compute -/

/-- The first pass of the two binary operations: the counts and the size of the result. -/
def countingPass (hit : UInt8) (start : Nat) (a b : VecInt) (count : List UInt8) (ndocs : Nat) :
    Except Fault (List UInt8 × Nat) := do
  let count ← memset count ndocs
  let count ← mark a.elems count
  countUp hit b.elems count start

def notPass (nDocs : BitVec 32) (negate : VecInt) (count : List UInt8) : Except Fault (List UInt8 × Nat) := do
  let count ← memset count (if nDocs.toInt < 0 then 2 ^ 64 - (2 ^ 32 - nDocs.toNat) else nDocs.toNat)
  let count ← mark negate.elems count
  pure (count, (nDocs.toNat + 2 ^ 32 - negate.counter) % 2 ^ 32)

/-- How often the second pass pushes. -/
def pushes (keep : UInt8 → Bool) (count : List UInt8) (ndocs : Nat) : Nat :=
  ((List.range ndocs).filter fun i => keep (count.getD i 0)).length

theorem viVecUnion_eq (a b : VecInt) (count : List UInt8) (ndocs : Nat) :
    viVecUnion a b count ndocs = countingPass 1 a.counter a b count ndocs >>=
      fun p => .ok (collect (0 < ·) p.1 ndocs p.2, p.1) := by
  unfold viVecUnion countingPass
  simp only [bind_assoc]
  rfl

theorem viVecIntersection_eq (a b : VecInt) (count : List UInt8) (ndocs : Nat) :
    viVecIntersection a b count ndocs = countingPass 2 0 a b count ndocs >>=
      fun p => .ok (collect (· == 2) p.1 ndocs p.2, p.1) := by
  unfold viVecIntersection countingPass
  simp only [bind_assoc]
  rfl

theorem getNotDocs_eq (nDocs : BitVec 32) (negate : VecInt) (count : List UInt8) :
    getNotDocs nDocs negate count = notPass nDocs negate count >>=
      fun p => .ok (collect (· == 0) p.1 nDocs.toNat p.2, p.1) := by
  unfold getNotDocs notPass
  simp only [bind_assoc, pure_bind]
  rfl

/-- The first `n` counts are given by `f`. -/
structure Counts (n : Nat) (count : List UInt8) (f : Nat → UInt8) : Prop where
  length : n ≤ count.length
  get : ∀ i, i < n → count.getD i 0 = f i

theorem toInt_eq_toNat {n : Nat} (hn : n ≤ intMax) {x : BitVec 32} (hx : x.toNat < n) :
    x.toInt = x.toNat := by
  unfold intMax at hn
  exact BitVec.toInt_eq_toNat_of_lt (by omega)

theorem toNat_ofNat_of_lt {n : Nat} (hn : n ≤ intMax) {i : Nat} (hi : i < n) :
    (BitVec.ofNat 32 i).toNat = i := by
  unfold intMax at hn
  rw [BitVec.toNat_ofNat, Nat.mod_eq_of_lt (by omega)]

theorem ofNat_eq_iff {n : Nat} (hn : n ≤ intMax) {i : Nat} (hi : i < n) {x : BitVec 32} :
    BitVec.ofNat 32 i = x ↔ i = x.toNat := by
  constructor
  · intro h
    rw [← h, toNat_ofNat_of_lt hn hi]
  · intro h
    apply BitVec.eq_of_toNat_eq
    rw [toNat_ofNat_of_lt hn hi, h]

theorem toNat_ofNat {n : Nat} (hn : n ≤ intMax) : (BitVec.ofNat 32 n).toNat = n := by
  unfold intMax at hn
  rw [BitVec.toNat_ofNat, Nat.mod_eq_of_lt (by omega)]

theorem pushes_eq {n : Nat} {keep : UInt8 → Bool} {count : List UInt8} {f : Nat → UInt8}
    (h : Counts n count f) : pushes keep count n = ((List.range n).filter fun i => keep (f i)).length := by
  rw [pushes, List.filter_congr fun i hi => congrArg keep (h.get i (List.mem_range.mp hi))]

/-- How often a duplicate-free list names document `i`. -/
def tally (xs : List (BitVec 32)) (i : Nat) : UInt8 := if BitVec.ofNat 32 i ∈ xs then 1 else 0

theorem tally_of_mem {xs : List (BitVec 32)} {i : Nat} (h : BitVec.ofNat 32 i ∈ xs) : tally xs i = 1 :=
  if_pos h

theorem tally_of_not_mem {xs : List (BitVec 32)} {i : Nat} (h : BitVec.ofNat 32 i ∉ xs) :
    tally xs i = 0 := if_neg h

theorem memset_counts {n : Nat} {count : List UInt8} (h : n ≤ count.length) :
    ∃ c, memset count n = .ok c ∧ c.length = count.length ∧ Counts n c fun _ => 0 := by
  refine ⟨_, if_pos h, by simp; omega, by simp, ?_⟩
  intro i hi
  rw [List.getD_append _ _ _ _ (by simpa using hi), List.getD_replicate _ hi]

theorem storeAt_counts {n : Nat} (hn : n ≤ intMax) {count : List UInt8} {f : Nat → UInt8}
    (h : Counts n count f) {x : BitVec 32} (hx : x.toNat < n) (g : UInt8 → UInt8) :
    ∃ c, storeAt count x g = .ok c ∧ c.length = count.length ∧
      Counts n c (Function.update f x.toNat (g (f x.toNat))) := by
  have hLength := h.length
  have hInt := toInt_eq_toNat hn hx
  refine ⟨count.modify x.toNat g, if_pos (by omega), by simp, by simpa using hLength, ?_⟩
  intro i hi
  have hGet := h.get i hi
  rw [List.getD_eq_getElem _ _ (by omega)] at hGet
  rw [List.getD_eq_getElem _ _ (by simp; omega), List.getElem_modify]
  by_cases hEq : x.toNat = i
  · subst hEq
    rw [if_pos rfl, Function.update_self, hGet]
  · rw [if_neg hEq, Function.update_of_ne (Ne.symm hEq), hGet]

theorem mark_counts {n : Nat} (hn : n ≤ intMax) (xs : List (BitVec 32))
    (hxs : ∀ x, x ∈ xs → x.toNat < n) {count : List UInt8} {f : Nat → UInt8} (h : Counts n count f) :
    ∃ c, mark xs count = .ok c ∧ c.length = count.length ∧
      Counts n c fun i => if BitVec.ofNat 32 i ∈ xs then 1 else f i := by
  induction xs generalizing count f with
  | nil => exact ⟨count, rfl, rfl, by simpa using h⟩
  | cons x xs ih =>
    obtain ⟨c₁, hStore, hLength₁, hCounts₁⟩ :=
      storeAt_counts hn h (hxs x List.mem_cons_self) fun _ => 1
    obtain ⟨c₂, hMark, hLength₂, hCounts₂⟩ :=
      ih (fun y hy => hxs y (List.mem_cons_of_mem _ hy)) hCounts₁
    refine ⟨c₂, ?_, hLength₂.trans hLength₁, hCounts₂.length, ?_⟩
    · rw [mark, List.foldlM_cons, hStore]
      exact hMark
    · intro i hi
      rw [hCounts₂.get i hi]
      by_cases hEq : i = x.toNat
      · simp [hEq]
      · have hMem : BitVec.ofNat 32 i ≠ x := fun h => hEq ((ofNat_eq_iff hn hi).mp h)
        simp [hMem, Function.update_of_ne hEq]

theorem countUp_counts {n : Nat} (hn : n ≤ intMax) (hit : UInt8) (xs : List (BitVec 32)) (hNodup : xs.Nodup)
    (hxs : ∀ x, x ∈ xs → x.toNat < n) {count : List UInt8} {f : Nat → UInt8} (h : Counts n count f)
    (ops : Nat) :
    ∃ c, countUp hit xs count ops =
        .ok (c, ops + (xs.filter fun x => f x.toNat + 1 = hit).length) ∧
      c.length = count.length ∧ Counts n c fun i => f i + tally xs i := by
  induction xs generalizing count f ops with
  | nil => exact ⟨count, rfl, rfl, by simpa [tally] using h⟩
  | cons x xs ih =>
    obtain ⟨hFresh, hNodup⟩ := List.nodup_cons.mp hNodup
    have hx := hxs x List.mem_cons_self
    obtain ⟨c₁, hStore, hLength₁, hCounts₁⟩ := storeAt_counts hn h hx (· + 1)
    have hOther : ∀ y, y ∈ xs → Function.update f x.toNat (f x.toNat + 1) y.toNat = f y.toNat := by
      intro y hy
      apply Function.update_of_ne
      intro hEq
      exact hFresh (BitVec.eq_of_toNat_eq hEq ▸ hy)
    obtain ⟨c₂, hCount, hLength₂, hCounts₂⟩ :=
      ih hNodup (fun y hy => hxs y (List.mem_cons_of_mem _ hy)) hCounts₁
        (if f x.toNat + 1 = hit then ops + 1 else ops)
    refine ⟨c₂, ?_, hLength₂.trans hLength₁, hCounts₂.length, ?_⟩
    · have hHit : c₁.getD x.toNat 0 = f x.toNat + 1 := by
        rw [hCounts₁.get _ hx, Function.update_self]
      have hFilter : (xs.filter fun y => decide
            (Function.update f x.toNat (f x.toNat + 1) y.toNat + 1 = hit)) =
          xs.filter fun y => decide (f y.toNat + 1 = hit) :=
        List.filter_congr fun y hy => by rw [hOther y hy]
      have hStep : countUp hit (x :: xs) count ops =
          countUp hit xs c₁ (if f x.toNat + 1 = hit then ops + 1 else ops) := by
        rw [countUp, List.foldlM_cons]
        simp only [hStore]
        rw [← hHit]
        rfl
      rw [hStep, hCount, hFilter, List.filter_cons]
      by_cases hEq : f x.toNat + 1 = hit
      · simp only [hEq, if_true, decide_true, List.length_cons, Nat.add_assoc, Nat.add_comm]
      · simp [hEq]
    · intro i hi
      rw [hCounts₂.get i hi]
      by_cases hEq : i = x.toNat
      · have hMem : BitVec.ofNat 32 i = x := (ofNat_eq_iff hn hi).mpr hEq
        rw [tally_of_not_mem (hMem ▸ hFresh), tally_of_mem (hMem ▸ List.mem_cons_self), hEq,
          Function.update_self, UInt8.add_zero]
      · have hMem : BitVec.ofNat 32 i ≠ x := fun h => hEq ((ofNat_eq_iff hn hi).mp h)
        rw [Function.update_of_ne hEq]
        simp [tally, hMem]

/-! ## Filling the result -/

structure Sound (v : VecInt) : Prop where
  length : v.array.length = v.maxSize
  counter : v.counter ≤ v.maxSize

theorem viInit_sound (n : Nat) : (viInit n).Sound := ⟨List.length_replicate, Nat.zero_le n⟩

theorem length_elems {v : VecInt} (h : v.Sound) : v.elems.length = v.counter := by
  rw [elems, List.length_take, h.length]
  exact Nat.min_eq_left h.counter

theorem viPushBack_spec {v : VecInt} (h : v.Sound) (hRoom : v.counter < v.maxSize) (e : BitVec 32) :
    (v.viPushBack e).Sound ∧ (v.viPushBack e).elems = v.elems ++ [e] ∧
      (v.viPushBack e).maxSize = v.maxSize ∧ (v.viPushBack e).counter = v.counter + 1 := by
  have hLength := h.length
  have hPush : v.viPushBack e = { v with array := v.array.set v.counter e, counter := v.counter + 1 } :=
    if_pos hRoom
  rw [hPush]
  refine ⟨⟨by simpa using hLength, hRoom⟩, ?_, rfl, rfl⟩
  rw [elems, elems, List.take_add_one, List.take_set_of_le (le_refl _),
    List.getElem?_set_self (by omega), Option.toList_some]

/-- When the capacity covers every kept number, none is dropped. -/
theorem collect_elems {n : Nat} {keep : UInt8 → Bool} {count : List UInt8} {f : Nat → UInt8}
    (h : Counts n count f) {ops : Nat}
    (hOps : ((List.range n).filter fun i => keep (f i)).length ≤ ops) :
    (collect keep count n ops).Sound ∧
      (collect keep count n ops).elems =
        ((List.range n).filter fun i => keep (f i)).map (BitVec.ofNat 32) := by
  have hRun : ∀ (is : List Nat) (v : VecInt), v.Sound → (∀ i, i ∈ is → i < n) →
      v.counter + (is.filter fun i => keep (f i)).length ≤ v.maxSize →
      let r := is.foldl
        (fun v i => if keep (count.getD i 0) then v.viPushBack (BitVec.ofNat 32 i) else v) v
      r.Sound ∧ r.elems = v.elems ++ (is.filter fun i => keep (f i)).map (BitVec.ofNat 32) := by
    intro is
    induction is with
    | nil =>
      intro v hv _ _
      exact ⟨hv, by simp⟩
    | cons i is ih =>
      intro v hv his hRoom
      have hGet := h.get i (his i List.mem_cons_self)
      have his' : ∀ j, j ∈ is → j < n := fun j hj => his j (List.mem_cons_of_mem _ hj)
      rw [List.filter_cons] at hRoom ⊢
      simp only [List.foldl_cons, hGet]
      by_cases hKeep : keep (f i) = true
      · simp only [hKeep, if_true, List.length_cons] at hRoom ⊢
        obtain ⟨hSound, hElems, hMax, hCounter⟩ :=
          viPushBack_spec hv (by omega) (BitVec.ofNat 32 i)
        obtain ⟨hSound', hElems'⟩ := ih _ hSound his' (by omega)
        refine ⟨hSound', ?_⟩
        rw [hElems', hElems, List.map_cons, List.append_assoc, List.singleton_append]
      · simp only [hKeep] at hRoom ⊢
        exact ih v hv his' hRoom
  obtain ⟨hSound, hElems⟩ := hRun (List.range n) (viInit ops) (viInit_sound ops)
    (fun i hi => List.mem_range.mp hi) (by simpa [viInit] using hOps)
  exact ⟨hSound, by rw [collect, hElems]; simp [elems, viInit]⟩

/-! ## The sets -/

/-- `v` lists, each once, the document numbers below `n` that make up `S`. -/
structure Denotes (n : Nat) (v : VecInt) (S : Set (Fin n)) : Prop where
  sound : v.Sound
  nodup : v.elems.Nodup
  lt : ∀ x, x ∈ v.elems → x.toNat < n
  mem : ∀ i : Fin n, BitVec.ofNat 32 i ∈ v.elems ↔ i ∈ S

theorem nodup_map_toNat {xs : List (BitVec 32)} (h : xs.Nodup) : (xs.map BitVec.toNat).Nodup :=
  h.map fun _ _ => BitVec.eq_of_toNat_eq

theorem mem_map_toNat {n : Nat} (hn : n ≤ intMax) {xs : List (BitVec 32)} (hxs : ∀ x, x ∈ xs → x.toNat < n)
    {i : Nat} : i ∈ xs.map BitVec.toNat ↔ i < n ∧ BitVec.ofNat 32 i ∈ xs := by
  constructor
  · intro h
    obtain ⟨x, hx, rfl⟩ := List.mem_map.mp h
    exact ⟨hxs x hx, by rwa [BitVec.ofNat_toNat, BitVec.setWidth_eq]⟩
  · rintro ⟨hi, h⟩
    exact List.mem_map.mpr ⟨_, h, toNat_ofNat_of_lt hn hi⟩

theorem collect_denotes {n : Nat} (hn : n ≤ intMax) (keep : UInt8 → Bool) {count : List UInt8}
    {f : Nat → UInt8} (h : Counts n count f) (ops : Nat)
    (hOps : ((List.range n).filter fun i => keep (f i)).length ≤ ops) :
    Denotes n (collect keep count n ops) {i | keep (f i) = true} := by
  obtain ⟨hSound, hElems⟩ := collect_elems h hOps
  refine ⟨hSound, ?_, ?_, ?_⟩
  · rw [hElems]
    apply (List.nodup_range.filter _).map_on
    intro i hi j hj hEq
    have hi := List.mem_range.mp (List.mem_of_mem_filter hi)
    have hj := List.mem_range.mp (List.mem_of_mem_filter hj)
    rw [← toNat_ofNat_of_lt hn hi, hEq, toNat_ofNat_of_lt hn hj]
  · intro x hx
    rw [hElems] at hx
    obtain ⟨i, hi, rfl⟩ := List.mem_map.mp hx
    have hi := List.mem_range.mp (List.mem_of_mem_filter hi)
    rwa [toNat_ofNat_of_lt hn hi]
  · intro i
    rw [hElems, Set.mem_ofPred_eq]
    constructor
    · intro hMem
      obtain ⟨j, hj, hEq⟩ := List.mem_map.mp hMem
      obtain ⟨hRange, hKeep⟩ := List.mem_filter.mp hj
      have hj : i = j := by
        rw [(ofNat_eq_iff hn i.isLt).mp hEq.symm, toNat_ofNat_of_lt hn (List.mem_range.mp hRange)]
      rwa [hj]
    · intro hKeep
      exact List.mem_map.mpr ⟨i, List.mem_filter.mpr ⟨List.mem_range.mpr i.isLt, hKeep⟩, rfl⟩

/-- The counting passes leave exactly the capacity that the pushes need. -/
theorem collect_pushes {n : Nat} (hn : n ≤ intMax) (keep : UInt8 → Bool) {count : List UInt8}
    {f : Nat → UInt8} (h : Counts n count f) :
    Denotes n (collect keep count n (pushes keep count n)) {i | keep (f i) = true} :=
  collect_denotes hn keep h _ (pushes_eq h).ge

theorem maxSize_collect (keep : UInt8 → Bool) (count : List UInt8) (n ops : Nat) :
    (collect keep count n ops).maxSize = ops := by
  have hPush : ∀ (v : VecInt) (e : BitVec 32), (v.viPushBack e).maxSize = v.maxSize := by
    intro v e
    unfold viPushBack
    split <;> rfl
  have hRun : ∀ (is : List Nat) (v : VecInt), (is.foldl
      (fun v i => if keep (count.getD i 0) then v.viPushBack (BitVec.ofNat 32 i) else v) v).maxSize =
      v.maxSize := by
    intro is
    induction is with
    | nil => exact fun _ => rfl
    | cons i is ih =>
      intro v
      rw [List.foldl_cons, ih]
      split
      · exact hPush v _
      · rfl
  exact hRun (List.range n) (viInit ops)

theorem counter_collect {n : Nat} (keep : UInt8 → Bool) {count : List UInt8} {f : Nat → UInt8}
    (h : Counts n count f) : (collect keep count n (pushes keep count n)).counter = pushes keep count n := by
  have hPushes : pushes keep count n = _ := pushes_eq h
  obtain ⟨hSound, hElems⟩ := collect_elems h hPushes.ge
  rw [← length_elems hSound, hElems, List.length_map, hPushes]

/-- Whatever the capacity, the numbers come out in ascending order. -/
theorem collect_sublist (keep : UInt8 → Bool) (count : List UInt8) (n ops : Nat) :
    List.Sublist (collect keep count n ops).elems ((List.range n).map (BitVec.ofNat 32)) := by
  have hRun : ∀ (is : List Nat) (v : VecInt), v.Sound → List.Sublist (is.foldl
      (fun v i => if keep (count.getD i 0) then v.viPushBack (BitVec.ofNat 32 i) else v) v).elems
      (v.elems ++ is.map (BitVec.ofNat 32)) := by
    intro is
    induction is with
    | nil =>
      intro v _
      rw [List.map_nil, List.append_nil]
      exact List.Sublist.refl _
    | cons i is ih =>
      intro v hv
      have hSkip : List.Sublist (v.elems ++ is.map (BitVec.ofNat 32))
          (v.elems ++ (i :: is).map (BitVec.ofNat 32)) :=
        (List.Sublist.refl _).append (List.sublist_cons_self _ _)
      rw [List.foldl_cons]
      split
      · by_cases hRoom : v.counter < v.maxSize
        · obtain ⟨hSound, hElems, _⟩ := viPushBack_spec hv hRoom (BitVec.ofNat 32 i)
          have hRest := ih _ hSound
          rwa [hElems, List.append_assoc, List.singleton_append] at hRest
        · rw [viPushBack, if_neg hRoom]
          exact (ih v hv).trans hSkip
      · exact (ih v hv).trans hSkip
  exact hRun (List.range n) (viInit ops) (viInit_sound ops)

def Ascending (v : VecInt) : Prop := v.elems.Pairwise fun x y => x.toNat < y.toNat

theorem collect_ascending {n : Nat} (hn : n ≤ intMax) (keep : UInt8 → Bool) (count : List UInt8) (ops : Nat) :
    (collect keep count n ops).Ascending := by
  apply List.Pairwise.sublist (collect_sublist keep count n ops)
  rw [List.pairwise_map]
  refine List.Pairwise.imp_of_mem ?_ List.pairwise_lt_range
  intro i j hi hj hLt
  rwa [toNat_ofNat_of_lt hn (List.mem_range.mp hi), toNat_ofNat_of_lt hn (List.mem_range.mp hj)]

theorem length_kept {n : Nat} {p : Nat → Bool} {xs : List Nat} (hNodup : xs.Nodup)
    (hMem : ∀ i, i ∈ xs ↔ i < n ∧ p i = true) : ((List.range n).filter p).length = xs.length := by
  apply List.Perm.length_eq
  rw [List.perm_ext_iff_of_nodup (List.nodup_range.filter p) hNodup]
  intro i
  rw [List.mem_filter, List.mem_range, hMem]

section Operations
variable {n : Nat} (hn : n ≤ intMax) {a b : VecInt} {S T : Set (Fin n)} {count : List UInt8}
include hn

private theorem marked (ha : Denotes n a S) (hCount : n ≤ count.length) :
    ∃ c₁ c, memset count n = .ok c₁ ∧ mark a.elems c₁ = .ok c ∧ c.length = count.length ∧
      Counts n c (tally a.elems) := by
  obtain ⟨c₁, hSet, hLength₁, hCounts₁⟩ := memset_counts hCount
  obtain ⟨c₂, hMark, hLength₂, hCounts₂⟩ := mark_counts hn a.elems ha.lt hCounts₁
  exact ⟨c₁, c₂, hSet, hMark, hLength₂.trans hLength₁, hCounts₂⟩

theorem countingPass_union (ha : Denotes n a S) (hb : Denotes n b T) (hCount : n ≤ count.length) :
    ∃ c, countingPass 1 a.counter a b count n = .ok (c, pushes (0 < ·) c n) ∧ c.length = count.length ∧
      Counts n c fun i => tally a.elems i + tally b.elems i := by
  obtain ⟨c₁, c₂, hSet, hMark, hLength₂, hCounts₂⟩ := marked hn ha hCount
  obtain ⟨c₃, hUp, hLength₃, hCounts₃⟩ := countUp_counts hn 1 b.elems hb.nodup hb.lt hCounts₂ a.counter
  refine ⟨c₃, ?_, hLength₃.trans hLength₂, hCounts₃⟩
  let fresh := b.elems.filter fun x => decide (tally a.elems x.toNat + 1 = 1)
  have hFresh : ∀ x, x ∈ fresh ↔ x ∈ b.elems ∧ x ∉ a.elems := by
    intro x
    rw [List.mem_filter, tally, BitVec.ofNat_toNat, BitVec.setWidth_eq]
    by_cases hx : x ∈ a.elems <;> simp [hx]
  have hLt : ∀ x, x ∈ a.elems ++ fresh → x.toNat < n := by
    intro x hx
    obtain hx | hx := List.mem_append.mp hx
    · exact ha.lt x hx
    · exact hb.lt x ((hFresh x).mp hx).1
  have hNodup : (a.elems ++ fresh).Nodup := List.nodup_append.mpr
    ⟨ha.nodup, hb.nodup.filter _, fun x hx y hy hEq => ((hFresh y).mp hy).2 (hEq ▸ hx)⟩
  have hKept := length_kept (n := n) (p := fun i => decide (0 < tally a.elems i + tally b.elems i))
    (nodup_map_toNat hNodup) (by
      intro i
      rw [mem_map_toNat hn hLt, List.mem_append, hFresh, tally, tally]
      by_cases hA : BitVec.ofNat 32 i ∈ a.elems <;> by_cases hB : BitVec.ofNat 32 i ∈ b.elems <;>
        simp [hA, hB])
  rw [pushes_eq hCounts₃, hKept, List.length_map, List.length_append, length_elems ha.sound, countingPass, hSet]
  simp only [bind, Except.bind, hMark, hUp]
  rfl

theorem countingPass_intersection (ha : Denotes n a S) (hb : Denotes n b T) (hCount : n ≤ count.length) :
    ∃ c, countingPass 2 0 a b count n = .ok (c, pushes (· == 2) c n) ∧ c.length = count.length ∧
      Counts n c fun i => tally a.elems i + tally b.elems i := by
  obtain ⟨c₁, c₂, hSet, hMark, hLength₂, hCounts₂⟩ := marked hn ha hCount
  obtain ⟨c₃, hUp, hLength₃, hCounts₃⟩ := countUp_counts hn 2 b.elems hb.nodup hb.lt hCounts₂ 0
  refine ⟨c₃, ?_, hLength₃.trans hLength₂, hCounts₃⟩
  let both := b.elems.filter fun x => decide (tally a.elems x.toNat + 1 = 2)
  have hBoth : ∀ x, x ∈ both ↔ x ∈ b.elems ∧ x ∈ a.elems := by
    intro x
    rw [List.mem_filter, tally, BitVec.ofNat_toNat, BitVec.setWidth_eq]
    by_cases hx : x ∈ a.elems <;> simp [hx]
  have hKept := length_kept (n := n) (p := fun i => tally a.elems i + tally b.elems i == 2)
    (nodup_map_toNat (hb.nodup.filter _)) (by
      intro i
      rw [mem_map_toNat hn fun x hx => hb.lt x ((hBoth x).mp hx).1, hBoth, tally, tally]
      by_cases hA : BitVec.ofNat 32 i ∈ a.elems <;> by_cases hB : BitVec.ofNat 32 i ∈ b.elems <;>
        simp [hA, hB])
  rw [pushes_eq hCounts₃, hKept, List.length_map, countingPass, hSet]
  simp only [bind, Except.bind, hMark, hUp, Nat.zero_add]

theorem notPass_counts (ha : Denotes n a S) (hCount : n ≤ count.length) :
    ∃ c, notPass (.ofNat 32 n) a count = .ok (c, pushes (· == 0) c n) ∧ c.length = count.length ∧
      Counts n c (tally a.elems) := by
  obtain ⟨c₁, c₂, hSet, hMark, hLength₂, hCounts₂⟩ := marked hn ha hCount
  have hToNat := toNat_ofNat hn
  have hNonneg : ¬ (BitVec.ofNat 32 n).toInt < 0 := by
    unfold intMax at hn
    rw [BitVec.toInt_eq_toNat_of_lt (by omega)]
    omega
  refine ⟨c₂, ?_, hLength₂, hCounts₂⟩
  have hKept := length_kept (n := n) (p := fun i => !(tally a.elems i == 0))
    (nodup_map_toNat ha.nodup) (by
      intro i
      rw [mem_map_toNat hn ha.lt, tally]
      by_cases hA : BitVec.ofNat 32 i ∈ a.elems <;> simp [hA])
  have hSplit := List.length_eq_length_filter_add (l := List.range n) fun i => tally a.elems i == 0
  rw [List.length_range, hKept, List.length_map, length_elems ha.sound] at hSplit
  have hOps : (n + 2 ^ 32 - a.counter) % 2 ^ 32 = pushes (· == 0) c₂ n := by
    unfold intMax at hn
    rw [pushes_eq hCounts₂, show n + 2 ^ 32 - a.counter = (n - a.counter) + 2 ^ 32 by omega, Nat.add_mod_right,
      Nat.mod_eq_of_lt (by omega)]
    omega
  rw [notPass, if_neg hNonneg, hToNat, hSet]
  simp only [bind, Except.bind, hMark, hOps]
  rfl

theorem viVecUnion_denotes (ha : Denotes n a S) (hb : Denotes n b T) (hCount : n ≤ count.length) :
    ∃ v c, viVecUnion a b count n = .ok (v, c) ∧ c.length = count.length ∧ Denotes n v (S ∪ T) := by
  obtain ⟨c, hPass, hLength, hCounts⟩ := countingPass_union hn ha hb hCount
  refine ⟨_, c, by rw [viVecUnion_eq, hPass]; rfl, hLength, ?_⟩
  have hResult := collect_pushes hn (0 < ·) hCounts
  refine ⟨hResult.sound, hResult.nodup, hResult.lt, fun i => (hResult.mem i).trans ?_⟩
  rw [Set.mem_ofPred_eq, tally, tally, Set.mem_union, ← ha.mem, ← hb.mem]
  by_cases hA : BitVec.ofNat 32 i ∈ a.elems <;> by_cases hB : BitVec.ofNat 32 i ∈ b.elems <;>
    simp [hA, hB]

theorem viVecIntersection_denotes (ha : Denotes n a S) (hb : Denotes n b T) (hCount : n ≤ count.length) :
    ∃ v c, viVecIntersection a b count n = .ok (v, c) ∧ c.length = count.length ∧ Denotes n v (S ∩ T) := by
  obtain ⟨c, hPass, hLength, hCounts⟩ := countingPass_intersection hn ha hb hCount
  refine ⟨_, c, by rw [viVecIntersection_eq, hPass]; rfl, hLength, ?_⟩
  have hResult := collect_pushes hn (· == 2) hCounts
  refine ⟨hResult.sound, hResult.nodup, hResult.lt, fun i => (hResult.mem i).trans ?_⟩
  rw [Set.mem_ofPred_eq, tally, tally, Set.mem_inter_iff, ← ha.mem, ← hb.mem]
  by_cases hA : BitVec.ofNat 32 i ∈ a.elems <;> by_cases hB : BitVec.ofNat 32 i ∈ b.elems <;>
    simp [hA, hB]

theorem getNotDocs_denotes (ha : Denotes n a S) (hCount : n ≤ count.length) :
    ∃ v c, getNotDocs (BitVec.ofNat 32 n) a count = .ok (v, c) ∧ c.length = count.length ∧
      Denotes n v Sᶜ := by
  obtain ⟨c, hPass, hLength, hCounts⟩ := notPass_counts hn ha hCount
  refine ⟨_, c, by rw [getNotDocs_eq, hPass]; rfl, hLength, ?_⟩
  have hResult := collect_pushes hn (· == 0) hCounts
  rw [toNat_ofNat hn]
  refine ⟨hResult.sound, hResult.nodup, hResult.lt, fun i => (hResult.mem i).trans ?_⟩
  rw [Set.mem_ofPred_eq, tally, Set.mem_compl_iff, ← ha.mem]
  by_cases hA : BitVec.ofNat 32 i ∈ a.elems <;> simp [hA]

end Operations

end VecInt
end Bisen
