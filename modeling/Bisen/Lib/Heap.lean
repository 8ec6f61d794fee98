import Mathlib.Data.List.Nodup
import Mathlib.Logic.Function.Basic

/-! # A heap with allocation and removal

Addresses are handed out in order and never again, so an address names one block for the whole
run, and a removal fails where the block is not there. A list of distinct live addresses is what a
program owns: removing what it owns succeeds and leaves the rest.
-/
set_option autoImplicit false

structure Heap (α : Type*) where
  get : Nat → Option α
  next : Nat
  fresh : ∀ a, next ≤ a → get a = none

namespace Heap
variable {α : Type*}

def empty : Heap α := ⟨fun _ => none, 0, fun _ _ => rfl⟩

theorem lt_next {h : Heap α} {a : Nat} {x : α} (hGet : h.get a = some x) : a < h.next := by
  apply Nat.lt_of_not_le
  intro hLe
  rw [h.fresh a hLe] at hGet
  cases hGet

/-- The new block stands at `h.next`. -/
def alloc (h : Heap α) (x : α) : Heap α where
  get := Function.update h.get h.next (some x)
  next := h.next + 1
  fresh := by
    intro a ha
    rw [Function.update_of_ne (by omega)]
    exact h.fresh a (by omega)

@[simp] theorem get_alloc_next (h : Heap α) (x : α) : (h.alloc x).get h.next = some x :=
  Function.update_self ..

theorem get_alloc_of_lt {h : Heap α} {a : Nat} (ha : a < h.next) (x : α) : (h.alloc x).get a = h.get a :=
  Function.update_of_ne (Nat.ne_of_lt ha) ..

theorem get_alloc_of_get {h : Heap α} {a : Nat} {x : α} (hGet : h.get a = some x) (y : α) :
    (h.alloc y).get a = some x := by rw [get_alloc_of_lt (lt_next hGet), hGet]

@[simp] theorem next_alloc (h : Heap α) (x : α) : (h.alloc x).next = h.next + 1 := rfl

def remove (h : Heap α) (a : Nat) : Heap α where
  get := Function.update h.get a none
  next := h.next
  fresh := by
    intro b hb
    by_cases hEq : b = a
    · rw [hEq, Function.update_self]
    · rw [Function.update_of_ne hEq]
      exact h.fresh b hb

/-- Removing a block that is not there fails. -/
def free (h : Heap α) (a : Nat) : Option (Heap α) := if (h.get a).isSome then some (h.remove a) else none

def freeAll (h : Heap α) (as : List Nat) : Option (Heap α) := as.foldlM free h

def removeAll (h : Heap α) (as : List Nat) : Heap α := as.foldl remove h

theorem get_remove (h : Heap α) (a b : Nat) : (h.remove a).get b = if b = a then none else h.get b :=
  Function.update_apply ..

theorem get_removeAll (h : Heap α) (as : List Nat) (b : Nat) :
    (h.removeAll as).get b = if b ∈ as then none else h.get b := by
  induction as generalizing h with
  | nil => rfl
  | cons a as ih =>
    rw [removeAll, List.foldl_cons, ← removeAll, ih, get_remove]
    by_cases hMem : b ∈ as
    · rw [if_pos hMem, if_pos (List.mem_cons_of_mem _ hMem)]
    · rw [if_neg hMem]
      simp only [List.mem_cons, hMem, or_false]

@[simp] theorem next_removeAll (h : Heap α) (as : List Nat) : (h.removeAll as).next = h.next := by
  induction as generalizing h with
  | nil => rfl
  | cons a as ih => exact ih (h.remove a)

/-! ## Ownership -/

/-- Distinct addresses of blocks that are there. -/
structure Owns (h : Heap α) (as : List Nat) : Prop where
  live : ∀ a ∈ as, (h.get a).isSome
  nodup : as.Nodup

namespace Owns
variable {h : Heap α} {as bs : List Nat} {a : Nat}

theorem perm (hOwns : h.Owns as) (hPerm : as.Perm bs) : h.Owns bs :=
  ⟨fun b hb => hOwns.live b (hPerm.mem_iff.mpr hb), hPerm.nodup_iff.mp hOwns.nodup⟩

theorem lt_next (hOwns : h.Owns as) (ha : a ∈ as) : a < h.next := by
  obtain ⟨x, hx⟩ := Option.isSome_iff_exists.mp (hOwns.live a ha)
  exact Heap.lt_next hx

theorem alloc (hOwns : h.Owns as) (x : α) : (h.alloc x).Owns (h.next :: as) := by
  constructor
  · intro b hb
    obtain rfl | hb := List.mem_cons.mp hb
    · rw [get_alloc_next]
      rfl
    · rw [get_alloc_of_lt (hOwns.lt_next hb)]
      exact hOwns.live b hb
  · exact List.nodup_cons.mpr ⟨fun hMem => Nat.lt_irrefl _ (hOwns.lt_next hMem), hOwns.nodup⟩

theorem remove (hOwns : h.Owns (a :: as)) : (h.remove a).Owns as := by
  obtain ⟨hFresh, hNodup⟩ := List.nodup_cons.mp hOwns.nodup
  refine ⟨?_, hNodup⟩
  intro b hb
  have hNe : b ≠ a := by
    rintro rfl
    exact hFresh hb
  rw [get_remove, if_neg hNe]
  exact hOwns.live b (List.mem_cons_of_mem _ hb)

/-- What is owned can be removed, once, and the rest stays owned. -/
theorem freeAll (hOwns : h.Owns (as ++ bs)) :
    h.freeAll as = some (h.removeAll as) ∧ (h.removeAll as).Owns bs := by
  induction as generalizing h with
  | nil => exact ⟨rfl, hOwns⟩
  | cons a as ih =>
    have hLive := hOwns.live a List.mem_cons_self
    obtain ⟨hFree, hRest⟩ := ih (remove hOwns)
    refine ⟨?_, hRest⟩
    rw [Heap.freeAll, List.foldlM_cons, free, if_pos hLive]
    exact hFree

end Owns

/-! ## Consuming what was there -/

/-- Since `start`, a run has been consuming the blocks at `whole`: each is still `pending`, among
the `held`, or gone. Everything else that was there is unchanged. -/
structure Consumes (start : Heap α) (whole pending held : List Nat) (h : Heap α) : Prop where
  owns : h.Owns (held ++ pending)
  spent : ∀ a ∈ whole, a ∈ pending ∨ a ∈ held ∨ h.get a = none
  origin : ∀ a ∈ held, a ∈ whole ∨ start.next ≤ a
  kept : ∀ a x, start.get a = some x → a ∉ whole → h.get a = some x
  next_le : start.next ≤ h.next

namespace Consumes
variable {start h : Heap α} {whole pending held : List Nat}

theorem refl (hOwns : start.Owns whole) : start.Consumes whole whole [] start :=
  ⟨hOwns, fun _ ha => .inl ha, fun _ ha => absurd ha List.not_mem_nil, fun _ _ hGet _ => hGet, Nat.le_refl _⟩

theorem take {a : Nat} (ha : a ∈ whole) (hRun : start.Consumes whole (a :: pending) held h) :
    start.Consumes whole pending (a :: held) h where
  owns := hRun.owns.perm List.perm_middle
  spent := by
    intro b hb
    obtain hPending | hHeld | hGone := hRun.spent b hb
    · obtain rfl | hPending := List.mem_cons.mp hPending
      · exact .inr (.inl List.mem_cons_self)
      · exact .inl hPending
    · exact .inr (.inl (List.mem_cons_of_mem _ hHeld))
    · exact .inr (.inr hGone)
  origin := by
    intro b hb
    obtain rfl | hb := List.mem_cons.mp hb
    · exact .inl ha
    · exact hRun.origin b hb
  kept := hRun.kept
  next_le := hRun.next_le

/-- A new block in the place of some of the held ones. -/
theorem replace {ops : List Nat} (hRun : start.Consumes whole pending (ops ++ held) h) (x : α) :
    (h.alloc x).freeAll ops = some ((h.alloc x).removeAll ops) ∧
      start.Consumes whole pending (h.next :: held) ((h.alloc x).removeAll ops) := by
  have hOwns : (h.alloc x).Owns (ops ++ (h.next :: held ++ pending)) := by
    apply (hRun.owns.alloc x).perm
    rw [List.append_assoc]
    exact List.perm_middle.symm
  obtain ⟨hFree, hRest⟩ := hOwns.freeAll
  refine ⟨hFree, hRest, ?_, ?_, ?_, ?_⟩
  · intro a ha
    rw [get_removeAll]
    obtain hPending | hHeld | hGone := hRun.spent a ha
    · exact .inl hPending
    · obtain hOp | hHeld := List.mem_append.mp hHeld
      · exact .inr (.inr (if_pos hOp))
      · exact .inr (.inl (List.mem_cons_of_mem _ hHeld))
    · by_cases hNext : a = h.next
      · exact .inr (.inl (hNext ▸ List.mem_cons_self))
      · refine .inr (.inr ?_)
        split
        · rfl
        · exact (Function.update_of_ne hNext ..).trans hGone
  · intro a ha
    obtain rfl | ha := List.mem_cons.mp ha
    · exact .inr hRun.next_le
    · exact hRun.origin a (List.mem_append_right _ ha)
  · intro a y hGet hWhole
    have hOps : a ∉ ops := by
      intro hMem
      obtain hIn | hNew := hRun.origin a (List.mem_append_left _ hMem)
      · exact hWhole hIn
      · exact Nat.not_lt_of_ge hNew (lt_next hGet)
    rw [get_removeAll, if_neg hOps]
    exact get_alloc_of_get (hRun.kept a y hGet hWhole) x
  · rw [next_removeAll, next_alloc]
    exact Nat.le_succ_of_le hRun.next_le

theorem get_replace {ops : List Nat} (hRun : start.Consumes whole pending (ops ++ held) h) (x : α) :
    ((h.alloc x).removeAll ops).get h.next = some x ∧
      ∀ a ∈ held ++ pending, ((h.alloc x).removeAll ops).get a = h.get a := by
  have hOwns := hRun.owns
  rw [List.append_assoc] at hOwns
  constructor
  · have hNext : h.next ∉ ops := by
      intro hMem
      exact Nat.lt_irrefl _ (hOwns.lt_next (List.mem_append_left _ hMem))
    rw [get_removeAll, if_neg hNext, get_alloc_next]
  · intro a ha
    have hOps : a ∉ ops := by
      intro hMem
      exact (List.nodup_append.mp hOwns.nodup).2.2 a hMem a ha rfl
    rw [get_removeAll, if_neg hOps, get_alloc_of_lt (hOwns.lt_next (List.mem_append_right _ ha))]

/-- Once all are consumed and only a new block is held, nothing of the whole is left. -/
theorem gone {a r : Nat} (hRun : start.Consumes whole [] [r] h) (hNew : start.next ≤ r) (ha : a ∈ whole)
    (hOld : a < start.next) : h.get a = none := by
  obtain hPending | hHeld | hGone := hRun.spent a ha
  · cases hPending
  · rw [List.mem_singleton.mp hHeld] at hOld
    exact absurd hOld (Nat.not_lt_of_ge hNew)
  · exact hGone

end Consumes
end Heap
