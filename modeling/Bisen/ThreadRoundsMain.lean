import Bisen.ThreadRounds

/-! # Rounds of the thread pool: `thread_do_work`

Each of its steps changes one thread at most, so that only this thread has to be looked at again.
-/
namespace Bisen.ThreadRounds
open ThreadPool
set_option autoImplicit false

variable {F A : Type}

/-! ## What a step leaves alone -/

/-- A step inside `thread_do_work` changes at most the thread `i` and its calls, and where the main thread is. -/
structure Frame (i : Nat) (s : Pool F A) (log : Log F A) (s' : Pool F A) (log' : Log F A) : Prop where
  nrTasks : s'.nrTasks = s.nrTasks
  enteredThreads : s'.enteredThreads = s.enteredThreads
  hasMainThread : s'.hasMainThread = s.hasMainThread
  mainTask : s'.mainTask = s.mainTask
  mainTaskArgs : s'.mainTaskArgs = s.mainTaskArgs
  client : isClient s'.main = isClient s.main
  accepted : log'.current.accepted = log.current.accepted
  working : log'.working = log.working
  rounds : log'.rounds = log.rounds
  strays : log'.strays = log.strays
  stages : ∀ j, j ≠ i → stageOf s'.main s.nrTasks j = stageOf s.main s.nrTasks j
  threads : ∀ j, j ≠ i → s'.threads j = s.threads j
  workers : ∀ j, j ≠ i → s'.workers j = s.workers j
  started : ∀ j, j ≠ i → log'.current.started (j + 1) = log.current.started (j + 1)
  finished : ∀ j, j ≠ i → log'.current.finished (j + 1) = log.current.finished (j + 1)

section Frame
variable {s s' : Pool F A} {log log' : Log F A} {i : Nat}

theorem Inv.of_frame (h : Inv s log) (hFrame : Frame i s log s' log') (hRange : InRange s.nrTasks s'.main)
    (hRuns : MainRuns log.current.accepted[0]? (log'.current.started 0) (log'.current.finished 0) s'.main)
    (hSlot : SlotOk (stageOf s'.main s.nrTasks i) log.current.accepted[i + 1]? (s'.threads i) (s'.workers i)
      (log'.current.started (i + 1)) (log'.current.finished (i + 1))) : Inv s' log' := by
  constructor
  case room => rw [hFrame.nrTasks, hFrame.enteredThreads]; exact h.room
  case range => rw [hFrame.nrTasks]; exact hRange
  case length => rw [hFrame.nrTasks, hFrame.hasMainThread, hFrame.accepted]; exact h.length
  case first => rw [hFrame.hasMainThread, hFrame.mainTask, hFrame.mainTaskArgs, hFrame.accepted]; exact h.first
  case noTask => rw [hFrame.nrTasks, hFrame.hasMainThread, hFrame.client]; exact h.noTask
  case working => rw [hFrame.working, hFrame.client]; exact h.working
  case mainRuns => rw [hFrame.accepted]; exact hRuns
  case slots =>
    intro j
    rw [hFrame.nrTasks, hFrame.accepted]
    obtain rfl | hNe := eq_or_ne j i
    · exact hSlot
    · rw [hFrame.stages j hNe, hFrame.threads j hNe, hFrame.workers j hNe, hFrame.started j hNe,
        hFrame.finished j hNe]
      exact h.slots j
  case exact => rw [hFrame.rounds]; exact h.exact
  case noStrays => rw [hFrame.strays]; exact h.noStrays

/-- The main thread moves on, with a thread it has changed. -/
theorem frame_main (log : Log F A) {main : MainPc F A} (hClient : isClient main = isClient s.main)
    (hStages : ∀ j, j ≠ i → stageOf main s.nrTasks j = stageOf s.main s.nrTasks j) (t : ThreadData F A)
    (pc : WorkerPc F A) :
    Frame i s log { (s.setThread i t).setWorker i pc with main := main } log := by
  constructor
  case client => exact hClient
  case stages => exact hStages
  case threads => exact fun j hNe => (s.threads_setThread i t j).trans (if_neg hNe)
  case workers => exact fun j hNe => ((s.setThread i t).workers_setWorker i pc j).trans (if_neg hNe)
  all_goals intros; rfl

end Frame

/-! ## The steps of the main thread -/

section Main
variable {s : Pool F A} {log : Log F A} {i : Nat}

theorem Inv.slotAt {main : MainPc F A} {stage : Stage} (h : Inv s log) (hMain : s.main = main)
    (hStage : stageOf main s.nrTasks i = stage) : SlotOk stage log.current.accepted[i + 1]? (s.threads i)
      (s.workers i) (log.current.started (i + 1)) (log.current.finished (i + 1)) := by
  rw [← hStage, ← hMain]
  exact h.slots i

theorem Inv.runsAt {main : MainPc F A} (h : Inv s log) (hMain : s.main = main) :
    MainRuns log.current.accepted[0]? (log.current.started 0) (log.current.finished 0) main := by
  rw [← hMain]
  exact h.mainRuns

/-- A thread that the main thread has turned to has a task. -/
theorem Inv.lt_nrTasks (h : Inv s log) (hMain : s.main = .notify i ∨ s.main = .asleep i ∨ s.main = .reset i) :
    i < s.nrTasks := by
  have hRange := h.range
  obtain hMain | hMain | hMain := hMain <;> rw [hMain] at hRange <;> exact hRange

theorem setThread_self (s : Pool F A) (i : Nat) : s.setThread i (s.threads i) = s := by
  rw [Pool.setThread, Function.update_eq_self]

theorem setWorker_self (s : Pool F A) (i : Nat) : s.setWorker i (s.workers i) = s := by
  rw [Pool.setWorker, Function.update_eq_self]

theorem Inv.changeThread (h : Inv s log) (main : MainPc F A) (hClient : isClient main = isClient s.main)
    (hStages : ∀ j, j ≠ i → stageOf main s.nrTasks j = stageOf s.main s.nrTasks j) (t : ThreadData F A)
    (pc : WorkerPc F A) (hRange : InRange s.nrTasks main)
    (hRuns : MainRuns log.current.accepted[0]? (log.current.started 0) (log.current.finished 0) main)
    (hSlot : SlotOk (stageOf main s.nrTasks i) log.current.accepted[i + 1]? t pc (log.current.started (i + 1))
      (log.current.finished (i + 1))) :
    Inv { (s.setThread i t).setWorker i pc with main := main } log := by
  apply h.of_frame (frame_main log hClient hStages t pc) hRange hRuns
  have hThread : (s.setThread i t).threads i = t := (s.threads_setThread i t i).trans (if_pos rfl)
  have hWorker : ((s.setThread i t).setWorker i pc).workers i = pc :=
    ((s.setThread i t).workers_setWorker i pc i).trans (if_pos rfl)
  change SlotOk _ _ ((s.setThread i t).threads i) (((s.setThread i t).setWorker i pc).workers i) _ _
  rw [hThread, hWorker]
  exact hSlot

theorem Inv.changeData (h : Inv s log) (main : MainPc F A) (hClient : isClient main = isClient s.main)
    (hStages : ∀ j, j ≠ i → stageOf main s.nrTasks j = stageOf s.main s.nrTasks j) (t : ThreadData F A)
    (hRange : InRange s.nrTasks main)
    (hRuns : MainRuns log.current.accepted[0]? (log.current.started 0) (log.current.finished 0) main)
    (hSlot : SlotOk (stageOf main s.nrTasks i) log.current.accepted[i + 1]? t (s.workers i)
      (log.current.started (i + 1)) (log.current.finished (i + 1))) :
    Inv { s.setThread i t with main := main } log := by
  have hInv := h.changeThread main hClient hStages t (s.workers i) hRange hRuns hSlot
  have hSame : (s.setThread i t).setWorker i (s.workers i) = s.setThread i t := setWorker_self (s.setThread i t) i
  rwa [hSame] at hInv

theorem Inv.changeWorker (h : Inv s log) (main : MainPc F A) (hClient : isClient main = isClient s.main)
    (hStages : ∀ j, j ≠ i → stageOf main s.nrTasks j = stageOf s.main s.nrTasks j) (pc : WorkerPc F A)
    (hRange : InRange s.nrTasks main)
    (hRuns : MainRuns log.current.accepted[0]? (log.current.started 0) (log.current.finished 0) main)
    (hSlot : SlotOk (stageOf main s.nrTasks i) log.current.accepted[i + 1]? (s.threads i) pc
      (log.current.started (i + 1)) (log.current.finished (i + 1))) :
    Inv { s.setWorker i pc with main := main } log := by
  have hInv := h.changeThread main hClient hStages (s.threads i) pc hRange hRuns hSlot
  rwa [setThread_self] at hInv

theorem Inv.moveAt (h : Inv s log) (main : MainPc F A) (hClient : isClient main = isClient s.main)
    (hStages : ∀ j, j ≠ i → stageOf main s.nrTasks j = stageOf s.main s.nrTasks j)
    (hRange : InRange s.nrTasks main)
    (hRuns : MainRuns log.current.accepted[0]? (log.current.started 0) (log.current.finished 0) main)
    (hSlot : SlotOk (stageOf main s.nrTasks i) log.current.accepted[i + 1]? (s.threads i) (s.workers i)
      (log.current.started (i + 1)) (log.current.finished (i + 1))) : Inv { s with main := main } log := by
  have hInv := h.changeWorker main hClient hStages (s.workers i) hRange hRuns hSlot
  rwa [setWorker_self] at hInv

theorem wakeWorker_eq (s : Pool F A) (i : Nat) : s.wakeWorker i = s.setWorker i (woken (s.workers i)) := by
  rw [Pool.wakeWorker]
  split
  · case h_1 hAsleep => rw [hAsleep, woken]
  · case h_2 hAwake =>
    have hSame : woken (s.workers i) = s.workers i := by
      cases hPc : s.workers i with
      | asleep => exact absurd hPc hAwake
      | _ => rfl
    rw [hSame, setWorker_self]

theorem Inv.tell (h : Inv s log) (hMain : s.main = .dispatch i) (hLt : i < s.nrTasks) :
    Inv { s.setThread i { s.threads i with ready := true } with main := .notify i } log := by
  have hRuns := h.runsAt hMain
  have hSlot := h.slotAt hMain (stageOf_dispatch hLt)
  apply h.changeData (.notify i) (by rw [hMain]; rfl) (fun j hNe => stageOf_ne hNe (.inl ⟨hMain, rfl⟩)) _ hLt
    hRuns
  rw [stageOf_notify hLt]
  exact hSlot.tell

theorem Inv.notify (h : Inv s log) (hMain : s.main = .notify i) :
    Inv { s.wakeWorker i with main := .dispatch (i + 1) } log := by
  have hRuns := h.runsAt hMain
  have hLt := h.lt_nrTasks (.inl hMain)
  have hSlot := h.slotAt hMain (stageOf_notify hLt)
  rw [wakeWorker_eq]
  apply h.changeWorker (.dispatch (i + 1)) (by rw [hMain]; rfl)
    (fun j hNe => stageOf_ne hNe (.inr (.inl ⟨hMain, rfl⟩))) _ hLt hRuns
  rw [stageOf_dispatched hLt]
  exact hSlot.wake

theorem Inv.toldAll (h : Inv s log) (hMain : s.main = .dispatch i) (hEnd : ¬ i < s.nrTasks) :
    Inv { s with main := .mainTask } log := by
  have hRuns := h.runsAt hMain
  have hStages : ∀ j, stageOf (.mainTask : MainPc F A) s.nrTasks j = stageOf s.main s.nrTasks j := by
    intro j
    rw [hMain]
    unfold stageOf
    grind
  apply h.moveAt (i := 0) .mainTask (by rw [hMain]; rfl) (fun j _ => hStages j) trivial hRuns
  rw [hStages]
  exact h.slots 0

theorem Inv.seen (h : Inv s log) (hMain : s.main = .collect i) (hLt : i < s.nrTasks)
    (hDone : (s.threads i).done = true) : Inv { s with main := .reset i } log := by
  have hRuns := h.runsAt hMain
  have hSlot := h.slotAt hMain (stageOf_collect hLt)
  apply h.moveAt (.reset i) (by rw [hMain]; rfl)
    (fun j hNe => stageOf_ne hNe (.inr (.inr (.inr (.inr (.inl ⟨hMain, rfl⟩)))))) hLt hRuns
  rw [stageOf_reset hLt]
  exact hSlot.collect hDone

theorem Inv.wait (h : Inv s log) (hMain : s.main = .collect i) (hLt : i < s.nrTasks)
    (hDone : (s.threads i).done = false) : Inv { s with main := .asleep i } log := by
  have hRuns := h.runsAt hMain
  have hSlot := h.slotAt hMain (stageOf_collect hLt)
  apply h.moveAt (.asleep i) (by rw [hMain]; rfl)
    (fun j hNe => stageOf_ne hNe (.inr (.inr (.inl ⟨hMain, rfl⟩)))) hLt hRuns
  rw [stageOf_asleep hLt]
  exact hSlot.await hDone

theorem Inv.lookAgain (h : Inv s log) (hMain : s.main = .asleep i) : Inv { s with main := .collect i } log := by
  have hRuns := h.runsAt hMain
  have hLt := h.lt_nrTasks (.inr (.inl hMain))
  have hSlot := h.slotAt hMain (stageOf_asleep hLt)
  apply h.moveAt (.collect i) (by rw [hMain]; rfl)
    (fun j hNe => stageOf_ne hNe (.inr (.inr (.inr (.inl ⟨hMain, rfl⟩))))) (Nat.le_of_lt hLt) hRuns
  rw [stageOf_collect hLt]
  exact hSlot.recheck

theorem Inv.reset [Inhabited A] (h : Inv s log) (hMain : s.main = .reset i) :
    Inv { s.setThread i { s.threads i with done := false, taskArgs := default } with main := .collect (i + 1) }
      log := by
  have hRuns := h.runsAt hMain
  have hLt := h.lt_nrTasks (.inr (.inr hMain))
  have hSlot := h.slotAt hMain (stageOf_reset hLt)
  apply h.changeData (.collect (i + 1)) (by rw [hMain]; rfl)
    (fun j hNe => stageOf_ne hNe (.inr (.inr (.inr (.inr (.inr ⟨hMain, rfl⟩)))))) _ hLt hRuns
  rw [stageOf_after hLt (Nat.lt_add_one i)]
  exact hSlot.reset default

theorem addTo_self (calls : Nat → List (Job F A)) (m : Nat) (job : Job F A) :
    Log.addTo calls m job m = calls m ++ [job] :=
  (Function.update_apply calls m _ m).trans (if_pos rfl)

theorem addTo_of_ne (calls : Nat → List (Job F A)) {m m' : Nat} (job : Job F A) (hNe : m' ≠ m) :
    Log.addTo calls m job m' = calls m' :=
  (Function.update_apply calls m _ m').trans (if_neg hNe)

theorem Inv.hasMain (h : Inv s log) (hBusy : isClient s.main = false) : s.hasMainThread = true := by
  cases hFirst : s.hasMainThread with
  | true => rfl
  | false =>
    have hClient := (h.noTask hFirst).2
    rw [hBusy] at hClient
    cases hClient

theorem Inv.record_started (h : Inv s log) (hBusy : isClient s.main = false) (m : Nat) (job : Job F A) :
    log.record (.started m job) =
      { log with current := { log.current with started := Log.addTo log.current.started m job } } := by
  rw [Log.record, h.working, hBusy]
  rfl

theorem Inv.record_finished (h : Inv s log) (hBusy : isClient s.main = false) (m : Nat) (job : Job F A) :
    log.record (.finished m job) =
      { log with current := { log.current with finished := Log.addTo log.current.finished m job } } := by
  rw [Log.record, h.working, hBusy]
  rfl

theorem Inv.startMain (h : Inv s log) (hMain : s.main = .mainTask) :
    Inv { s with main := .inMainTask ⟨s.mainTask, s.mainTaskArgs⟩ }
      (log.record (.started 0 ⟨s.mainTask, s.mainTaskArgs⟩)) := by
  have hBusy : isClient s.main = false := by rw [hMain]; rfl
  have hRuns := h.runsAt hMain
  have hSlot := h.slotAt (i := 0) hMain rfl
  rw [h.record_started hBusy]
  apply h.of_frame (i := 0)
  · constructor
    case client => exact hBusy.symm
    case stages =>
      intro j _
      rw [hMain]
      rfl
    case started => exact fun j _ => addTo_of_ne _ ⟨s.mainTask, s.mainTaskArgs⟩ (Nat.succ_ne_zero j)
    all_goals intros; rfl
  · trivial
  · refine ⟨h.first (h.hasMain hBusy), ?_, hRuns.2⟩
    change Log.addTo log.current.started 0 _ 0 = _
    rw [addTo_self, hRuns.1]
    rfl
  · exact hSlot

theorem Inv.finishMain {job : Job F A} (h : Inv s log) (hMain : s.main = .inMainTask job) :
    Inv { s with main := .collect 0 } (log.record (.finished 0 job)) := by
  have hBusy : isClient s.main = false := by rw [hMain]; rfl
  have hSlot := h.slotAt (i := 0) hMain rfl
  obtain ⟨hFirst, hStarted, hFinished⟩ := h.runsAt hMain
  have hStages : ∀ j, stageOf (.collect 0 : MainPc F A) s.nrTasks j = stageOf (.inMainTask job) s.nrTasks j := by
    intro j
    simp [stageOf]
  rw [h.record_finished hBusy]
  apply h.of_frame (i := 0)
  · constructor
    case client => exact hBusy.symm
    case stages =>
      intro j _
      rw [hMain]
      exact hStages j
    case finished => exact fun j _ => addTo_of_ne _ job (Nat.succ_ne_zero j)
    all_goals intros; rfl
  · exact Nat.zero_le _
  · refine ⟨?_, ?_⟩
    · rw [hFirst]
      exact hStarted
    · change Log.addTo log.current.finished 0 job 0 = _
      rw [addTo_self, hFinished, hFirst]
      rfl
  · change SlotOk (stageOf (.collect 0) s.nrTasks 0) _ _ _ _ _
    rw [hStages]
    exact hSlot

/-- What is true of every thread when the second loop is over. -/
theorem Inv.through (h : Inv s log) (hMain : s.main = .collect i) (hEnd : ¬ i < s.nrTasks) (j : Nat) :
    (s.threads j).ready = false ∧ (s.threads j).done = false ∧ (s.workers j).isRunning = false ∧
      log.current.started (j + 1) = log.current.accepted[j + 1]?.toList ∧
      log.current.finished (j + 1) = log.current.accepted[j + 1]?.toList := by
  obtain hIn | hOut := Nat.lt_or_ge j s.nrTasks
  · have hSeen : j < i := by omega
    exact (h.slotAt hMain (stageOf_after hIn hSeen)).after_inv
  · obtain ⟨hNone, hReady, hDone, hPc, hStarted, hFinished⟩ := (h.slotAt rfl (stageOf_out s.main hOut)).out_inv
    rw [hNone, hStarted, hFinished]
    exact ⟨hReady, hDone, hPc, rfl, rfl⟩

/-- Every task has been called once. -/
theorem Inv.round_exact (h : Inv s log) (hMain : s.main = .collect i) (hEnd : ¬ i < s.nrTasks) :
    log.current.Exact := by
  have hRuns := h.runsAt hMain
  constructor
  · rintro (_ | j)
    · exact hRuns.1
    · exact (h.through hMain hEnd j).2.2.2.1
  · rintro (_ | j)
    · exact hRuns.2
    · exact (h.through hMain hEnd j).2.2.2.2

theorem Inv.returned [Inhabited F] [Inhabited A] (h : Inv s log) (hMain : s.main = .collect i)
    (hEnd : ¬ i < s.nrTasks) : Inv s.resetTasks (log.record .returned) := by
  constructor
  case room => exact Nat.zero_le _
  case range => trivial
  case length => rfl
  case first => exact fun hFirst => absurd hFirst Bool.false_ne_true
  case noTask => exact fun _ => ⟨rfl, rfl⟩
  case working => rfl
  case mainRuns => exact ⟨rfl, rfl⟩
  case slots =>
    intro j
    obtain ⟨hReady, hDone, hPc, _⟩ := h.through hMain hEnd j
    exact .out hReady hDone hPc
  case exact =>
    intro round hRound
    obtain hOld | hNew := List.mem_append.mp hRound
    · exact h.exact round hOld
    · rw [List.mem_singleton.mp hNew]
      exact h.round_exact hMain hEnd
  case noStrays => exact h.noStrays

end Main

end Bisen.ThreadRounds
