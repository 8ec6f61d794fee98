import Mathlib.Data.List.Perm.Basic

/-! # The inside-out shuffle

Each new element goes to a chosen place of the sequence built so far, and what stood there moves
to the end. Whatever the choices, the result is a permutation of the input, and it commutes with
relabelling the elements.
-/
namespace Shuffle
set_option autoImplicit false

variable {α β : Type*}

/-- `x` at place `r`, or at the end when `r` is past it. -/
def place (r : Nat) (x : α) (l : List α) : List α :=
  match l[r]? with
  | some y => l.set r x ++ [y]
  | none => l ++ [x]

theorem place_perm (r : Nat) (x : α) (l : List α) : (place r x l).Perm (x :: l) := by
  unfold place
  cases h : l[r]? with
  | none => exact List.perm_append_singleton x l
  | some y =>
    obtain ⟨hr, rfl⟩ := List.getElem?_eq_some_iff.mp h
    have hSet : (l.set r x).Perm (x :: l.eraseIdx r) := List.set_perm_cons_eraseIdx hr x
    have hSplit : (l[r] :: l.eraseIdx r).Perm l := List.getElem_cons_eraseIdx_perm hr
    calc
      (l.set r x ++ [l[r]]).Perm (l[r] :: l.set r x) := List.perm_append_singleton _ _
      (l[r] :: l.set r x).Perm (l[r] :: x :: l.eraseIdx r) := hSet.cons _
      (l[r] :: x :: l.eraseIdx r).Perm (x :: l[r] :: l.eraseIdx r) := List.Perm.swap _ _ _
      (x :: l[r] :: l.eraseIdx r).Perm (x :: l) := hSplit.cons _

@[simp] theorem length_place (r : Nat) (x : α) (l : List α) : (place r x l).length = l.length + 1 :=
  (place_perm r x l).length_eq

theorem map_place (f : α → β) (r : Nat) (x : α) (l : List α) :
    (place r x l).map f = place r (f x) (l.map f) := by
  unfold place
  rw [List.getElem?_map]
  cases l[r]? with
  | none => simp
  | some y => simp [List.map_set]

def shuffle (r : Nat → Nat) (xs : List α) : List α := xs.foldl (fun l x => place (r l.length) x l) []

private theorem foldl_place_perm (r : Nat → Nat) (xs l : List α) :
    (xs.foldl (fun l x => place (r l.length) x l) l).Perm (l ++ xs) := by
  induction xs generalizing l with
  | nil => rw [List.append_nil]; rfl
  | cons x xs ih =>
    refine (ih _).trans ?_
    exact ((place_perm _ x l).append_right xs).trans List.perm_middle.symm

theorem shuffle_perm (r : Nat → Nat) (xs : List α) : (shuffle r xs).Perm xs :=
  foldl_place_perm r xs []

@[simp] theorem length_shuffle (r : Nat → Nat) (xs : List α) : (shuffle r xs).length = xs.length :=
  (shuffle_perm r xs).length_eq

theorem map_shuffle (f : α → β) (r : Nat → Nat) (xs : List α) :
    (shuffle r xs).map f = shuffle r (xs.map f) := by
  have hRun : ∀ l : List α, (xs.foldl (fun l x => place (r l.length) x l) l).map f =
      (xs.map f).foldl (fun l x => place (r l.length) x l) (l.map f) := by
    induction xs with
    | nil => intro l; rfl
    | cons x xs ih =>
      intro l
      rw [List.foldl_cons, List.map_cons, List.foldl_cons, List.length_map, ← map_place]
      exact ih _
  exact hRun []

/-- For given choices the shuffle of a list tells which list it was. -/
theorem shuffle_inj {r : Nat → Nat} {xs ys : List α} (h : shuffle r xs = shuffle r ys) : xs = ys := by
  have hLength : xs.length = ys.length := by rw [← length_shuffle r xs, h, length_shuffle]
  have hRead : ∀ zs : List α, zs.length = xs.length →
      (shuffle r (List.range xs.length)).map (zs[·]?) = (shuffle r zs).map some := by
    intro zs hzs
    rw [map_shuffle, map_shuffle, ← hzs]
    refine congrArg (shuffle r) (List.ext_getElem (by simp) fun i hi _ => ?_)
    rw [List.length_map, List.length_range] at hi
    rw [List.getElem_map, List.getElem_range, List.getElem_map, List.getElem?_eq_getElem hi]
  have hSame := (hRead xs rfl).trans ((congrArg (List.map some) h).trans (hRead ys hLength.symm).symm)
  refine List.ext_getElem? fun i => ?_
  by_cases hi : i < xs.length
  · exact List.map_inj_left.mp hSame i ((shuffle_perm r _).mem_iff.mpr (List.mem_range.mpr hi))
  · rw [List.getElem?_eq_none (by omega), List.getElem?_eq_none (by omega)]

end Shuffle
