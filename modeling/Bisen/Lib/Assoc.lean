import Mathlib.Data.List.Perm.Basic
import Mathlib.Data.List.Nodup

/-! # Association lists with ascending keys

Such a list is determined by what looking up each key gives.
-/
namespace Assoc
set_option autoImplicit false

variable {κ ν : Type*} [BEq κ] [LawfulBEq κ] {l l' : List (κ × ν)} {k : κ} {n : ν}

theorem lookup_cons [DecidableEq κ] (a : κ) (m : ν) :
    ((a, m) :: l).lookup k = if k = a then some m else l.lookup k := by
  rw [List.lookup_cons]
  obtain rfl | hNe := eq_or_ne k a
  · rw [beq_self_eq_true, if_pos rfl]
  · rw [beq_false_of_ne hNe, if_neg hNe]

theorem mem_iff_lookup (h : (l.map Prod.fst).Nodup) : (k, n) ∈ l ↔ l.lookup k = some n := by
  induction l with
  | nil => simp
  | cons p l ih =>
    obtain ⟨a, m⟩ := p
    obtain ⟨hFresh, hRest⟩ := List.nodup_cons.mp h
    classical
    rw [List.mem_cons, lookup_cons]
    split
    · case isTrue hEq =>
      subst hEq
      have hNot : (k, n) ∉ l := fun hMem => hFresh (List.mem_map.mpr ⟨_, hMem, rfl⟩)
      rw [or_iff_left hNot, Prod.mk.injEq, eq_self, true_and, Option.some.injEq, eq_comm]
    · case isFalse hNe =>
      have hOther : (k, n) ≠ (a, m) := fun hSame => hNe (congrArg Prod.fst hSame)
      rw [or_iff_right hOther, ih hRest]

theorem mem_keys_iff_lookup : k ∈ l.map Prod.fst ↔ ∃ n, l.lookup k = some n := by
  rw [← Option.isSome_iff_exists, List.lookup_isSome_iff]
  simp

theorem ext_lookup {r : κ → κ → Prop} (hAsymm : ∀ a b, r a b → ¬ r b a) (h : (l.map Prod.fst).Pairwise r)
    (h' : (l'.map Prod.fst).Pairwise r) (hLookup : ∀ k, l.lookup k = l'.lookup k) : l = l' := by
  have hNodup : ∀ {ks : List κ}, ks.Pairwise r → ks.Nodup := by
    intro ks hks
    apply hks.imp
    rintro a b hab rfl
    exact hAsymm a a hab hab
  have hMem : ∀ p, p ∈ l ↔ p ∈ l' := by
    rintro ⟨k, n⟩
    rw [mem_iff_lookup (hNodup h), mem_iff_lookup (hNodup h'), hLookup]
  have hPerm : l.Perm l' :=
    (List.perm_ext_iff_of_nodup (hNodup h).of_map (hNodup h').of_map).mpr hMem
  refine List.Perm.eq_of_pairwise ?_ (List.pairwise_map.mp h) (List.pairwise_map.mp h') hPerm
  intro p q _ _ hpq hqp
  exact absurd hqp (hAsymm _ _ hpq)

end Assoc
