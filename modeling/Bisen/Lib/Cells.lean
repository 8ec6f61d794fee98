import Mathlib.Data.List.Basic

/-! # Blocks of memory

A block is the list of its cells. Fresh memory holds whatever was there before; a copy or a fill
replaces a range of cells and leaves the others alone.
-/
namespace Cells
set_option autoImplicit false

variable {α β γ ι : Type*}

def fresh (memory : Nat → α) (n : Nat) : List α := (List.range n).map memory

/-- Copies `src` over the cells from `off` on. -/
def store (b : List α) (off : Nat) (src : List α) : List α := b.take off ++ (src ++ b.drop (off + src.length))

def fill (b : List α) (n : Nat) (x : α) : List α := store b 0 (List.replicate n x)

@[simp] theorem length_fresh (memory : Nat → α) (n : Nat) : (fresh memory n).length = n := by
  rw [fresh, List.length_map, List.length_range]

theorem length_store {b src : List α} {off : Nat} (h : off + src.length ≤ b.length) :
    (store b off src).length = b.length := by
  rw [store, List.length_append, List.length_append, List.length_take, List.length_drop]
  omega

theorem store_zero (b src : List α) : store b 0 src = src ++ b.drop src.length := by
  rw [store, List.take_zero, List.nil_append, Nat.zero_add]

theorem store_to_end {b src : List α} {off : Nat} (h : off + src.length = b.length) :
    store b off src = b.take off ++ src := by
  rw [store, h, List.drop_length, List.append_nil]

theorem store_all {b src : List α} (h : src.length = b.length) : store b 0 src = src := by
  rw [store_zero, h, List.drop_length, List.append_nil]

theorem fill_all {b : List α} {n : Nat} (h : b.length = n) (x : α) : fill b n x = List.replicate n x := by
  apply store_all
  rw [List.length_replicate, h]

theorem getElem?_store_zero (b src : List α) (k : Nat) :
    (store b 0 src)[k]? = if k < src.length then src[k]? else b[k]? := by
  rw [store_zero]
  split
  · case isTrue hk => exact List.getElem?_append_left hk
  · case isFalse hk =>
    rw [List.getElem?_append_right (Nat.not_lt.mp hk), List.getElem?_drop,
      Nat.add_sub_cancel' (Nat.not_lt.mp hk)]

theorem getElem?_fill (b : List α) (n : Nat) (x : α) (k : Nat) :
    (fill b n x)[k]? = if k < n then some x else b[k]? := by
  rw [fill, getElem?_store_zero, List.length_replicate]
  split
  · case isTrue hk => rw [List.getElem?_replicate_of_lt hk]
  · rfl

theorem length_fill {b : List α} {n : Nat} (h : n ≤ b.length) (x : α) : (fill b n x).length = b.length :=
  length_store (by rw [List.length_replicate]; omega)

/-- A block written from its start to `off` and from there to its end. -/
theorem store_store {b front back : List α} (h : front.length + back.length = b.length) :
    store (store b front.length back) 0 front = front ++ back := by
  have hLength : (b.take front.length).length = front.length := by
    rw [List.length_take]
    omega
  rw [store_to_end h, store_zero, List.drop_left' hLength]

theorem store_append {a c src : List α} : store (a ++ c) a.length src = a ++ store c 0 src := by
  rw [store, List.take_left, store_zero, List.drop_append]
  congr
  rw [List.drop_eq_nil_of_le (Nat.le_add_right ..), Nat.add_sub_cancel_left, List.nil_append]

theorem foldl_pair (f : β → ι → β) (g : γ → ι → γ) (is : List ι) (b : β) (c : γ) :
    is.foldl (fun s i => (f s.1 i, g s.2 i)) (b, c) = (is.foldl f b, is.foldl g c) := by
  induction is generalizing b c with
  | nil => rfl
  | cons i is ih => exact ih (f b i) (g c i)

/-- Setting the first `n` cells one by one. -/
theorem foldl_set (f : Nat → α) (b : List α) {n : Nat} (h : n ≤ b.length) :
    (List.range n).foldl (fun b i => b.set i (f i)) b = store b 0 ((List.range n).map f) := by
  induction n with
  | zero => rfl
  | succ n ih =>
    have hDrop : b.drop n = b[n] :: b.drop (n + 1) := List.drop_eq_getElem_cons h
    have hLength : ((List.range n).map f).length = n := by simp
    rw [List.range_succ, List.foldl_concat, ih (Nat.le_of_succ_le h), store_zero, store_zero, hLength, hDrop,
      List.map_append, List.length_append, hLength]
    rw [List.set_append_right _ _ (Nat.le_of_eq hLength), hLength, Nat.sub_self, List.append_assoc]
    rfl

end Cells
