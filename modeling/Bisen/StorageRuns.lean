import Bisen.RequestStream
import Mathlib.Data.List.Induction

/-! # Runs of the storage service

All connections share the index and the benchmarking records. A well-behaved run is served to its end
exactly when it has no dump: a dump closes the socket that the same loop receives on next, and may
divide by the number of records before it clears them.
-/
namespace Bisen.StorageRuns
open Wire SseServer
set_option autoImplicit false

/-- The service's globals and the sockets it has closed, by connection. -/
structure Service (ι : Type) where
  storage : Storage
  closed : ι → Bool

section Serving
variable {ι : Type} [DecidableEq ι]

def started : Service ι := ⟨⟨fun _ => none, 0⟩, fun _ => false⟩

/-- The `switch` of `process_client`, from the operation byte to the `break`. -/
def processCase (s : Service ι) (i : ι) : Request → Except Fault (Service ι)
  | .dumpBench aggregate =>
    if aggregate ≠ 0 ∧ s.storage.nrSearches = 0 then .error .divisionByZero
    else .ok { storage := { s.storage with nrSearches := 0 }, closed := Function.update s.closed i true }
  | req => (handle s.storage req).map fun p => { s with storage := p.1 }

/-- The loop then receives the next operation byte from the same socket. -/
def nextRound (s : Service ι) (i : ι) : Except Fault (Service ι) :=
  if s.closed i then .error .errorReadingFromSocket else .ok s

def serve (s : Service ι) (p : ι × Request) : Except Fault (Service ι) := do
  let s ← processCase s p.1 p.2
  nextRound s p.1

def serveAll (s : Service ι) (run : List (ι × Request)) : Except Fault (Service ι) := run.foldlM serve s

/-! ## Well-behaved runs -/

def Added (before : List (ι × Request)) (label : Bytes) : Prop :=
  ∃ i nrLabels buffer, (i, Request.add nrLabels buffer) ∈ before ∧
    label ∈ (chunks pairLen nrLabels buffer).map (·.take lSize)

/-- A request that may follow the requests `before`, of any connections. -/
def Proper (before : List (ι × Request)) : Request → Prop
  | .init => True
  | .add nrLabels buffer => buffer.length = nrLabels * pairLen
  | .search nrLabels label => (∃ i, (i, Request.startSearch) ∈ before) ∧ label.length = nrLabels * lSize ∧
      ∀ l, l ∈ chunks lSize nrLabels label → Added before l
  | .startSearch => True
  | .dumpBench _ => True
  | .unknown _ => False

def WellBehaved (run : List (ι × Request)) : Prop :=
  ∀ before p after, run = before ++ p :: after → Proper before p.2

/-- The run is served without a fault, and only adding changes the index. -/
structure Survives (run : List (ι × Request)) : Prop where
  alive : ∃ s, serveAll started run = .ok s
  index : ∀ before p after s s', run = before ++ p :: after → serveAll started before = .ok s →
    processCase s p.1 p.2 = .ok s' → (∀ nrLabels buffer, p.2 ≠ .add nrLabels buffer) →
    s'.storage.I = s.storage.I

/-! ## One request -/

/-- While its sockets are open, a round does to the shared state what `handle` says. -/
theorem serve_eq_handle {s : Service ι} (hOpen : ∀ i, s.closed i = false) (p : ι × Request) :
    serve s p = (handle s.storage p.2).map fun q => { s with storage := q.1 } := by
  obtain ⟨i, req⟩ := p
  have hStay : ∀ x : Except Fault (Storage × Bytes),
      ((x.map fun q => { s with storage := q.1 }) >>= fun s' => nextRound s' i) =
        x.map fun q => { s with storage := q.1 } := by
    intro x
    cases x with
    | error e => rfl
    | ok q => exact if_neg (by simp [hOpen])
  cases req with
  | dumpBench aggregate =>
    simp only [serve, processCase, handle]
    split
    · rfl
    · exact if_pos (Function.update_self ..)
  | init => exact hStay (handle s.storage .init)
  | add nrLabels buffer => exact hStay (handle s.storage (.add nrLabels buffer))
  | search nrLabels label => exact hStay (handle s.storage (.search nrLabels label))
  | startSearch => exact hStay (handle s.storage .startSearch)
  | unknown op => exact hStay (handle s.storage (.unknown op))

/-- The shared state of a run is the one that the stream of its requests leaves. -/
theorem serveAll_eq_after {s : Service ι} (hOpen : ∀ i, s.closed i = false) (run : List (ι × Request)) :
    (serveAll s run).map Service.storage = after s.storage run := by
  induction run generalizing s with
  | nil => rfl
  | cons p run ih =>
    rw [serveAll, List.foldlM_cons, serve_eq_handle hOpen, after]
    cases handle s.storage p.2 with
    | error e => rfl
    | ok q => exact ih (s := { s with storage := q.1 }) hOpen

theorem serve_dumpBench (s : Service ι) (i : ι) (aggregate : UInt8) :
    ∃ e, serve s (i, .dumpBench aggregate) = .error e := by
  simp only [serve, processCase]
  split
  · exact ⟨_, rfl⟩
  · exact ⟨_, if_pos (Function.update_self ..)⟩

theorem processCase_index {s s' : Service ι} {i : ι} {req : Request} (h : processCase s i req = .ok s')
    (hAdd : ∀ nrLabels buffer, req ≠ .add nrLabels buffer) : s'.storage.I = s.storage.I := by
  cases req with
  | dumpBench aggregate =>
    simp only [processCase] at h
    split at h
    · cases h
    · cases h
      rfl
  | init =>
    cases h
    rfl
  | add nrLabels buffer => exact absurd rfl (hAdd nrLabels buffer)
  | search nrLabels label =>
    simp only [processCase, handle] at h
    repeat' split at h
    all_goals cases h
    rfl
  | startSearch =>
    cases h
    rfl
  | unknown op => cases h

/-! ## The invariant -/

/-- What the requests `before`, none of them a dump, leave behind. -/
structure Invariant (before : List (ι × Request)) (s : Service ι) : Prop where
  opened : ∀ i, s.closed i = false
  counted : (∃ i, (i, Request.startSearch) ∈ before) → s.storage.nrSearches ≠ 0
  indexed : ∀ label, Added before label → s.storage.I label ≠ none

omit [DecidableEq ι] in
theorem invariant_started : Invariant (ι := ι) [] started :=
  ⟨fun _ => rfl, nofun, nofun⟩

omit [DecidableEq ι] in
theorem added_concat {before : List (ι × Request)} {p : ι × Request} {label : Bytes}
    (h : Added (before ++ [p]) label) : Added before label ∨
      ∃ nrLabels buffer, p.2 = .add nrLabels buffer ∧
        label ∈ (chunks pairLen nrLabels buffer).map (·.take lSize) := by
  obtain ⟨i, nrLabels, buffer, hMem, hLabel⟩ := h
  obtain hMem | hMem := List.mem_append.mp hMem
  · exact .inl ⟨i, nrLabels, buffer, hMem, hLabel⟩
  · rw [← List.mem_singleton.mp hMem]
    exact .inr ⟨nrLabels, buffer, rfl, hLabel⟩

theorem insertPairs_ne_none {pairs : List Bytes} {I : Bytes → Option Bytes} {label : Bytes}
    (h : I label ≠ none ∨ label ∈ pairs.map (·.take lSize)) : insertPairs I pairs label ≠ none := by
  induction pairs generalizing I with
  | nil => exact h.resolve_right List.not_mem_nil
  | cons pair pairs ih =>
    apply ih
    obtain rfl | hNe := eq_or_ne label (pair.take lSize)
    · left
      exact ne_of_eq_of_ne (Function.update_self ..) (Option.some_ne_none _)
    · obtain h | h := h
      · left
        exact ne_of_eq_of_ne (Function.update_of_ne hNe ..) h
      · right
        exact (List.mem_cons.mp h).resolve_left hNe

theorem exists_mapM {α β : Type} {g : α → Option β} {xs : List α} (h : ∀ x, x ∈ xs → g x ≠ none) :
    ∃ ys, xs.mapM g = some ys := by
  induction xs with
  | nil => exact ⟨[], rfl⟩
  | cons x xs ih =>
    obtain ⟨y, hy⟩ := Option.ne_none_iff_exists'.mp (h x List.mem_cons_self)
    obtain ⟨ys, hys⟩ := ih fun z hz => h z (List.mem_cons_of_mem _ hz)
    exact ⟨y :: ys, by rw [List.mapM_cons, hy, hys]; rfl⟩

section Step
variable {before : List (ι × Request)} {s : Service ι}

omit [DecidableEq ι] in
/-- A proper request other than a dump is handled, and its effect on the shared state is small. -/
theorem handle_proper {req : Request}
    (hCounted : (∃ i, (i, Request.startSearch) ∈ before) → s.storage.nrSearches ≠ 0)
    (hIndexed : ∀ label, Added before label → s.storage.I label ≠ none) (hProper : Proper before req)
    (hDump : ∀ aggregate, req ≠ .dumpBench aggregate) :
    ∃ storage reply, handle s.storage req = .ok (storage, reply) ∧
      s.storage.nrSearches ≤ storage.nrSearches ∧ (req = .startSearch → storage.nrSearches ≠ 0) ∧
      (∀ label, s.storage.I label ≠ none → storage.I label ≠ none) ∧
      ∀ nrLabels buffer, req = .add nrLabels buffer → ∀ label,
        label ∈ (chunks pairLen nrLabels buffer).map (·.take lSize) → storage.I label ≠ none := by
  cases req with
  | init =>
    exact ⟨s.storage, [], rfl, Nat.le_refl _, fun h => (by cases h), fun _ h => h, fun _ _ h => (by cases h)⟩
  | add nrLabels buffer =>
    have hRoom : ¬ buffer.length < nrLabels * pairLen := Nat.not_lt.mpr (Nat.le_of_eq hProper.symm)
    refine ⟨_, _, if_neg hRoom, Nat.le_refl _, fun h => (by cases h), ?_, ?_⟩
    · intro label hLabel
      exact insertPairs_ne_none (.inl hLabel)
    · intro n b hEq label hLabel
      cases hEq
      exact insertPairs_ne_none (.inr hLabel)
  | search nrLabels label =>
    obtain ⟨hStarted, hLength, hAdded⟩ := hProper
    obtain ⟨ds, hFound⟩ := exists_mapM fun l hl => hIndexed l (hAdded l hl)
    refine ⟨s.storage, ds.flatten, ?_, Nat.le_refl _, fun h => (by cases h), fun _ h => h, fun _ _ h => (by cases h)⟩
    rw [handle, if_neg (hCounted hStarted), if_neg (Nat.not_lt.mpr (Nat.le_of_eq hLength.symm)), hFound]
  | startSearch =>
    exact ⟨_, _, rfl, Nat.le_succ _, fun _ => Nat.succ_ne_zero _, fun _ h => h, fun _ _ h => (by cases h)⟩
  | dumpBench aggregate => exact absurd rfl (hDump aggregate)
  | unknown op => exact hProper.elim

theorem serve_proper {p : ι × Request} (h : Invariant before s) (hProper : Proper before p.2)
    (hDump : ∀ aggregate, p.2 ≠ .dumpBench aggregate) :
    ∃ s', serve s p = .ok s' ∧ Invariant (before ++ [p]) s' := by
  obtain ⟨storage, reply, hHandle, hLe, hStart, hKept, hNew⟩ :=
    handle_proper h.counted h.indexed hProper hDump
  refine ⟨{ s with storage := storage }, by rw [serve_eq_handle h.opened, hHandle]; rfl, h.opened, ?_, ?_⟩
  · rintro ⟨i, hMem⟩
    obtain hMem | hMem := List.mem_append.mp hMem
    · have hPositive := h.counted ⟨i, hMem⟩
      simp only
      omega
    · exact hStart (congrArg Prod.snd (List.mem_singleton.mp hMem)).symm
  · intro label hAdded
    obtain hOld | ⟨nrLabels, buffer, hAdd, hLabel⟩ := added_concat hAdded
    · exact hKept label (h.indexed label hOld)
    · exact hNew nrLabels buffer hAdd label hLabel

end Step

theorem serveAll_invariant {run : List (ι × Request)} (h : WellBehaved run)
    (hDump : ∀ p, p ∈ run → ∀ aggregate, p.2 ≠ .dumpBench aggregate) :
    ∃ s, serveAll started run = .ok s ∧ Invariant run s := by
  induction run using List.reverseRecOn with
  | nil => exact ⟨started, rfl, invariant_started⟩
  | append_singleton before p ih =>
    have hBefore : WellBehaved before := fun pre q post hEq =>
      h pre q (post ++ [p]) (by rw [hEq, List.append_assoc, List.cons_append])
    obtain ⟨s, hServed, hInvariant⟩ := ih hBefore fun q hq => hDump q (List.mem_append_left _ hq)
    obtain ⟨s', hServe, hInvariant'⟩ := serve_proper hInvariant (h before p [] rfl)
      (hDump p (List.mem_append_right _ List.mem_cons_self))
    refine ⟨s', ?_, hInvariant'⟩
    rw [serveAll, List.foldlM_append]
    rw [serveAll] at hServed
    rw [hServed]
    change ([p].foldlM serve s) = _
    rw [List.foldlM_cons, hServe]
    rfl

theorem not_served_dumpBench (before : List (ι × Request)) {after : List (ι × Request)} {i : ι} {aggregate : UInt8}
    {s : Service ι} : serveAll started (before ++ (i, .dumpBench aggregate) :: after) ≠ .ok s := by
  intro hServed
  rw [serveAll, List.foldlM_append] at hServed
  obtain ⟨s₁, _, hRest⟩ := bind_eq_ok_iff.mp hServed
  obtain ⟨s₂, hDump, _⟩ := bind_eq_ok_iff.mp hRest
  obtain ⟨e, hError⟩ := serve_dumpBench s₁ i aggregate
  rw [hError] at hDump
  cases hDump

theorem survives_iff {run : List (ι × Request)} (h : WellBehaved run) :
    Survives run ↔ ∀ p, p ∈ run → ∀ aggregate, p.2 ≠ .dumpBench aggregate := by
  constructor
  · rintro ⟨⟨s, hServed⟩, _⟩ ⟨i, req⟩ hMem aggregate hDump
    obtain ⟨before, after, rfl⟩ := List.append_of_mem hMem
    simp only at hDump
    rw [hDump] at hServed
    exact not_served_dumpBench before hServed
  · intro hDump
    obtain ⟨s, hServed, _⟩ := serveAll_invariant h hDump
    refine ⟨⟨s, hServed⟩, ?_⟩
    intro before p after s s' _ _ hCase hAdd
    exact processCase_index hCase hAdd

omit [DecidableEq ι] in
theorem WellBehaved.concat {run : List (ι × Request)} (h : WellBehaved run) {p : ι × Request}
    (hProper : Proper run p.2) : WellBehaved (run ++ [p]) := by
  intro before q after hEq
  obtain rfl | ⟨after, last, rfl⟩ := List.eq_nil_or_concat' after
  · obtain ⟨rfl, hLast⟩ := List.append_inj' hEq rfl
    cases hLast
    exact hProper
  · rw [← List.cons_append, ← List.append_assoc] at hEq
    exact h before q after (List.append_inj' hEq rfl).1

end Serving

/-- One connection adds an entry, another one searches for it. -/
def addThenSearch : List (Bool × Request) :=
  [(false, .init), (false, .add 1 (List.replicate pairLen 0)), (true, .startSearch),
   (true, .search 1 (List.replicate lSize 0))]

theorem wellBehaved_addThenSearch : WellBehaved addThenSearch := by
  have hNil : WellBehaved ([] : List (Bool × Request)) := by
    intro before p after hEq
    simp at hEq
  refine (((hNil.concat (p := (false, .init)) trivial).concat (p := (false, .add 1 (List.replicate pairLen 0)))
    ?_).concat (p := (true, .startSearch)) trivial).concat (p := (true, .search 1 (List.replicate lSize 0))) ?_
  · exact List.length_replicate
  · refine ⟨⟨true, by simp⟩, List.length_replicate, ?_⟩
    intro l hl
    refine ⟨false, 1, List.replicate pairLen 0, by simp, ?_⟩
    have hSame : chunks lSize 1 (List.replicate lSize 0) =
        (chunks pairLen 1 (List.replicate pairLen 0)).map (·.take lSize) := by decide
    rwa [← hSame]

theorem survives_iff_addThenSearch : Survives addThenSearch :=
  (survives_iff wellBehaved_addThenSearch).mpr (by simp [addThenSearch])

/-- A dump on a fresh service, without averages: the socket is closed and then received on. -/
theorem not_survives_dump : ¬ ∀ run : List (Unit × Request), WellBehaved run → Survives run := by
  intro hAll
  have hBehaved : WellBehaved [((), Request.dumpBench 0)] := by
    intro before p after hEq
    obtain _ | ⟨q, before⟩ := before
    · cases hEq
      trivial
    · cases before <;> cases hEq
  obtain ⟨s, hServed⟩ := (hAll _ hBehaved).alive
  exact not_served_dumpBench [] hServed

end Bisen.StorageRuns
