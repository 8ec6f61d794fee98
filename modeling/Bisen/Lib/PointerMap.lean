import Mathlib.Data.List.Nodup
import Mathlib.Logic.Function.Basic

/-! # Hash maps keyed by pointers

A map keeps pointers to its keys and not the keys. Looking for a key, it compares the keys behind the pointers of
one bucket, so it stands for a map of keys as long as the memory behind the pointers is there and does not change.
The bucket of a key is any function of the key, which may differ from one operation to the next.
-/
namespace PointerMap
set_option autoImplicit false

variable {P K V : Type*}

section Code
variable [DecidableEq K] (view : P → Option K) (bucket : K → Nat)

/-- Reading the key behind a pointer that leads nowhere fails. -/
def get (k : K) : List (P × V) → Option (Option V)
  | [] => some none
  | (p, v) :: nodes => (view p).bind fun k' =>
    if bucket k' = bucket k ∧ k' = k then some (some v) else get k nodes

/-- A key that is there keeps its pointer. -/
def set (p : P) (k : K) (v : V) : List (P × V) → Option (List (P × V))
  | [] => some [(p, v)]
  | (q, u) :: nodes => (view q).bind fun k' =>
    if bucket k' = bucket k ∧ k' = k then some ((q, v) :: nodes)
    else (set p k v nodes).map fun nodes => (q, u) :: nodes

end Code

/-! ## The map of keys -/

/-- Behind every pointer there is a key, and no key is there twice. -/
structure Wf (view : P → Option K) (nodes : List (P × V)) : Prop where
  live : ∀ n ∈ nodes, (view n.1).isSome
  nodup : (nodes.map fun n => view n.1).Nodup

theorem Wf.nil (view : P → Option K) : Wf view ([] : List (P × V)) :=
  ⟨fun _ hn => absurd hn List.not_mem_nil, List.nodup_nil⟩

theorem Wf.tail {view : P → Option K} {n : P × V} {nodes : List (P × V)} (h : Wf view (n :: nodes)) :
    Wf view nodes :=
  ⟨fun m hm => h.live m (List.mem_cons_of_mem _ hm), (List.nodup_cons.mp h.nodup).2⟩

section Denote
variable [DecidableEq K] {view : P → Option K} {bucket : K → Nat} {nodes nodes' : List (P × V)} {p : P} {k : K}

/-- The value of a key. -/
def denote (view : P → Option K) (nodes : List (P × V)) (k : K) : Option V :=
  (nodes.find? fun n => view n.1 = some k).map Prod.snd

theorem denote_cons (view : P → Option K) (n : P × V) (nodes : List (P × V)) (k : K) :
    denote view (n :: nodes) k = if view n.1 = some k then some n.2 else denote view nodes k := by
  rw [denote, List.find?_cons]
  by_cases h : view n.1 = some k
  · rw [if_pos h, decide_eq_true h]
    rfl
  · rw [if_neg h, decide_eq_false h]
    rfl

/-- Only what stands behind the pointers matters. -/
theorem denote_congr {view' : P → Option K} (h : ∀ n ∈ nodes, view' n.1 = view n.1) :
    denote view' nodes = denote view nodes := by
  funext k
  induction nodes with
  | nil => rfl
  | cons n nodes ih =>
    rw [denote_cons, denote_cons, h n List.mem_cons_self, ih fun m hm => h m (List.mem_cons_of_mem _ hm)]

omit [DecidableEq K] in
theorem Wf.congr {view' : P → Option K} (hWf : Wf view nodes) (h : ∀ n ∈ nodes, view' n.1 = view n.1) :
    Wf view' nodes := by
  constructor
  case live =>
    intro n hn
    rw [h n hn]
    exact hWf.live n hn
  case nodup =>
    have hMap : (nodes.map fun n => view' n.1) = nodes.map fun n => view n.1 := List.map_congr_left h
    rw [hMap]
    exact hWf.nodup

theorem denote_isSome_iff : (denote view nodes k).isSome ↔ some k ∈ nodes.map fun n => view n.1 := by
  rw [denote, Option.isSome_map, List.find?_isSome, List.mem_map]
  simp only [decide_eq_true_eq]

theorem mem_of_denote {v : V} (h : denote view nodes k = some v) : ∃ n ∈ nodes, view n.1 = some k ∧ n.2 = v := by
  obtain ⟨n, hFind, hv⟩ := Option.map_eq_some_iff.mp h
  have hView := List.find?_some hFind
  exact ⟨n, List.mem_of_find?_eq_some hFind, of_decide_eq_true hView, hv⟩

theorem get_eq_denote (hWf : Wf view nodes) (k : K) : get view bucket k nodes = some (denote view nodes k) := by
  induction nodes with
  | nil => rfl
  | cons n nodes ih =>
    obtain ⟨q, u⟩ := n
    obtain ⟨k', hk'⟩ := Option.isSome_iff_exists.mp (hWf.live (q, u) List.mem_cons_self)
    have hView : view q = some k' := hk'
    have hBucket : bucket k' = bucket k ∧ k' = k ↔ k' = k := ⟨And.right, fun h => ⟨h ▸ rfl, h⟩⟩
    rw [get, denote_cons, hView, ih hWf.tail]
    change (if bucket k' = bucket k ∧ k' = k then _ else _) = _
    simp only [hBucket, Option.some.injEq]
    split <;> rfl

/-- The nodes after `k`, behind `p`, has been given the value `v`. -/
structure IsUpdate (view : P → Option K) (nodes : List (P × V)) (p : P) (k : K) (v : V) (nodes' : List (P × V)) :
    Prop where
  wf : Wf view nodes'
  denote : denote view nodes' = Function.update (PointerMap.denote view nodes) k (some v)
  mem : ∀ n ∈ nodes', n.2 = v ∧ (n.1 = p ∨ ∃ m ∈ nodes, m.1 = n.1) ∨ n ∈ nodes

variable (bucket) in
theorem set_eq (hWf : Wf view nodes) (hp : view p = some k) (v : V) :
    ∃ nodes', set view bucket p k v nodes = some nodes' ∧ IsUpdate view nodes p k v nodes' := by
  induction nodes with
  | nil =>
    refine ⟨[(p, v)], rfl, ⟨?_, ?_⟩, ?_, ?_⟩
    · intro n hn
      rw [List.mem_singleton.mp hn, hp]
      rfl
    · exact List.nodup_singleton _
    · funext k'
      rw [denote_cons, hp, Function.update_apply]
      simp only [Option.some.injEq, eq_comm]
    · intro n hn
      rw [List.mem_singleton.mp hn]
      exact .inl ⟨rfl, .inl rfl⟩
  | cons n nodes ih =>
    obtain ⟨q, u⟩ := n
    obtain ⟨k', hk'⟩ := Option.isSome_iff_exists.mp (hWf.live (q, u) List.mem_cons_self)
    have hView : view q = some k' := hk'
    have hBucket : bucket k' = bucket k ∧ k' = k ↔ k' = k := ⟨And.right, fun h => ⟨h ▸ rfl, h⟩⟩
    have hFresh : some k' ∉ nodes.map fun n => view n.1 := hView ▸ (List.nodup_cons.mp hWf.nodup).1
    rw [set, hView]
    change ∃ nodes', (if bucket k' = bucket k ∧ k' = k then some ((q, v) :: nodes) else _) = _ ∧ _
    simp only [hBucket]
    by_cases hEq : k' = k
    · subst hEq
      refine ⟨(q, v) :: nodes, if_pos rfl, ⟨?_, ?_⟩, ?_, ?_⟩
      · intro m hm
        obtain rfl | hm := List.mem_cons.mp hm
        · exact hWf.live (q, u) List.mem_cons_self
        · exact hWf.live m (List.mem_cons_of_mem _ hm)
      · exact hWf.nodup
      · funext k₁
        rw [Function.update_apply, denote_cons, denote_cons, hView]
        simp only [Option.some.injEq, eq_comm (a := k₁)]
        by_cases h₁ : k' = k₁
        · rw [if_pos h₁, if_pos h₁]
        · rw [if_neg h₁, if_neg h₁, if_neg h₁]
      · intro m hm
        obtain rfl | hm := List.mem_cons.mp hm
        · exact .inl ⟨rfl, .inr ⟨(q, u), List.mem_cons_self, rfl⟩⟩
        · exact .inr (List.mem_cons_of_mem _ hm)
    · obtain ⟨nodes', hSet, ⟨hWf', hDenote, hMem⟩⟩ := ih hWf.tail
      have hKeys : ∀ x, x ∈ nodes'.map (fun n => view n.1) → x = some k ∨ x ∈ nodes.map fun n => view n.1 := by
        intro x hx
        obtain ⟨m, hm, rfl⟩ := List.mem_map.mp hx
        obtain ⟨_, rfl | ⟨m', hm', hSame⟩⟩ | hOld := hMem m hm
        · exact .inl hp
        · exact .inr (List.mem_map.mpr ⟨m', hm', by rw [hSame]⟩)
        · exact .inr (List.mem_map_of_mem hOld)
      refine ⟨(q, u) :: nodes', ?_, ⟨?_, ?_⟩, ?_, ?_⟩
      · rw [if_neg hEq, hSet]
        rfl
      · intro m hm
        obtain rfl | hm := List.mem_cons.mp hm
        · exact hWf.live (q, u) List.mem_cons_self
        · exact hWf'.live m hm
      · refine List.nodup_cons.mpr ⟨fun hIn => ?_, hWf'.nodup⟩
        obtain hNew | hOld := hKeys _ hIn
        · exact hEq (Option.some.inj (hView.symm.trans hNew))
        · exact hFresh (hView ▸ hOld)
      · funext k₁
        rw [denote_cons, hDenote, Function.update_apply, Function.update_apply, denote_cons, hView]
        by_cases h₁ : k₁ = k
        · rw [if_pos h₁, if_pos h₁, if_neg fun hSome => hEq ((Option.some.inj hSome).trans h₁)]
        · rw [if_neg h₁, if_neg h₁]
      · intro m hm
        obtain rfl | hm := List.mem_cons.mp hm
        · exact .inr List.mem_cons_self
        · obtain ⟨hv, hp | ⟨m', hm', hSame⟩⟩ | hOld := hMem m hm
          · exact .inl ⟨hv, .inl hp⟩
          · exact .inl ⟨hv, .inr ⟨m', List.mem_cons_of_mem _ hm', hSame⟩⟩
          · exact .inr (List.mem_cons_of_mem _ hOld)

/-- As many nodes as keys. -/
theorem length_eq_of_keys (hWf : Wf view nodes) {keys : List K} (hNodup : keys.Nodup)
    (hKeys : ∀ k, (denote view nodes k).isSome ↔ k ∈ keys) : nodes.length = keys.length := by
  have hInj : Function.Injective (some : K → Option K) := fun _ _ => Option.some.inj
  have hSome : (keys.map some).Nodup := hNodup.map hInj
  have hPerm : (nodes.map fun n => view n.1).Perm (keys.map some) := by
    apply (List.perm_ext_iff_of_nodup hWf.nodup hSome).mpr
    intro x
    cases x with
    | some k => rw [← denote_isSome_iff, hKeys, List.mem_map_of_injective hInj]
    | none =>
      constructor
      · intro hNone
        obtain ⟨n, hn, hView⟩ := List.mem_map.mp hNone
        have hLive := hWf.live n hn
        rw [hView] at hLive
        cases hLive
      · intro hNone
        obtain ⟨k, _, hk⟩ := List.mem_map.mp hNone
        cases hk
  have hLength := hPerm.length_eq
  rwa [List.length_map, List.length_map] at hLength

end Denote
end PointerMap
