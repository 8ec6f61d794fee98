import Bisen.ThreadRoundsMain

/-! # Rounds of the thread pool: whole runs

Outside `thread_do_work` no thread has been told of its task, so that adding one disturbs nobody. The other threads
change only what is theirs.
-/
namespace Bisen.ThreadRounds
open ThreadPool
set_option autoImplicit false

variable {F A : Type}

/-! ## The steps of the client -/

section Client
variable {s : Pool F A} {log : Log F A}

theorem Inv.called (h : Inv s log) (hMain : s.main = .client) (hFirst : s.hasMainThread = true) :
    Inv { s with main := .dispatch 0 } (log.record .called) := by
  constructor
  case room => exact h.room
  case range => exact Nat.zero_le _
  case length => exact h.length
  case first => exact h.first
  case noTask =>
    intro hNone
    rw [hFirst] at hNone
    cases hNone
  case working => rfl
  case mainRuns =>
    have hRuns := h.runsAt hMain
    exact hRuns
  case slots =>
    intro j
    have hStage : stageOf (.dispatch 0 : MainPc F A) s.nrTasks j = stageOf s.main s.nrTasks j := by
      rw [hMain]
      simp [stageOf]
    change SlotOk (stageOf (.dispatch 0) s.nrTasks j) _ _ _ _ _
    rw [hStage]
    exact h.slots j
  case exact => exact h.exact
  case noStrays => exact h.noStrays

theorem Inv.addFirst (h : Inv s log) (hMain : s.main = .client) (hFirst : s.hasMainThread = false) (job : Job F A) :
    Inv { s with mainTask := job.task, mainTaskArgs := job.args, hasMainThread := true }
      (log.record (.added job 0)) := by
  have hRuns := h.mainRuns
  have hTasks := (h.noTask hFirst).1
  have hNil : log.current.accepted = [] := by
    have hLength := h.length
    rw [hFirst] at hLength
    exact List.eq_nil_of_length_eq_zero hLength
  rw [hMain] at hRuns
  constructor
  case room => exact h.room
  case range => exact h.range
  case length =>
    change (log.current.accepted ++ [job]).length = s.nrTasks + 1
    rw [hNil, hTasks]
    rfl
  case first =>
    intro _
    change (log.current.accepted ++ [job])[0]? = _
    rw [hNil]
    rfl
  case noTask =>
    intro hNone
    cases hNone
  case working => exact h.working
  case mainRuns =>
    change MainRuns _ _ _ s.main
    rw [hMain]
    exact hRuns
  case slots =>
    intro j
    have hSlot := h.slots j
    change SlotOk _ (log.current.accepted ++ [job])[j + 1]? _ _ _ _
    rw [hNil] at hSlot ⊢
    exact hSlot
  case exact => exact h.exact
  case noStrays => exact h.noStrays

theorem Inv.addTask (h : Inv s log) (hMain : s.main = .client) (hFirst : s.hasMainThread = true)
    (hRoom : s.nrTasks < s.enteredThreads) (job : Job F A) :
    Inv { s.setThread s.nrTasks { s.threads s.nrTasks with task := job.task, taskArgs := job.args } with
      nrTasks := s.nrTasks + 1 } (log.record (.added job 0)) := by
  have hLength := h.length
  have hRuns := h.mainRuns
  rw [hFirst, if_pos rfl] at hLength
  rw [hMain] at hRuns
  have hOld : ∀ m, m ≤ s.nrTasks → (log.current.accepted ++ [job])[m]? = log.current.accepted[m]? :=
    fun m hm => List.getElem?_append_left (by omega)
  constructor
  case room => exact hRoom
  case range =>
    change InRange _ s.main
    rw [hMain]
    trivial
  case length =>
    change (log.current.accepted ++ [job]).length = if s.hasMainThread then s.nrTasks + 1 + 1 else 0
    rw [List.length_append, hLength, hFirst]
    rfl
  case first =>
    intro _
    change (log.current.accepted ++ [job])[0]? = _
    rw [hOld 0 (Nat.zero_le _)]
    exact h.first hFirst
  case noTask =>
    intro hNone
    change s.hasMainThread = false at hNone
    rw [hFirst] at hNone
    cases hNone
  case working => exact h.working
  case mainRuns =>
    change MainRuns _ _ _ s.main
    rw [hMain]
    exact hRuns
  case slots =>
    intro j
    have hSlot := h.slotAt (i := j) hMain rfl
    change SlotOk (stageOf s.main (s.nrTasks + 1) j) (log.current.accepted ++ [job])[j + 1]?
      ((s.setThread s.nrTasks _).threads j) (s.workers j) (log.current.started (j + 1)) (log.current.finished (j + 1))
    rw [s.threads_setThread, hMain]
    obtain hLt | rfl | hGt := Nat.lt_trichotomy j s.nrTasks
    · have hStages : stageOf (.client : MainPc F A) (s.nrTasks + 1) j =
          stageOf (.client : MainPc F A) s.nrTasks j := by
        unfold stageOf
        grind
      rw [hStages, hOld (j + 1) hLt, if_neg (Nat.ne_of_lt hLt)]
      exact hSlot
    · have hBefore : stageOf (.client : MainPc F A) (s.nrTasks + 1) s.nrTasks = .before := by simp [stageOf]
      have hJob : (log.current.accepted ++ [job])[s.nrTasks + 1]? = some job := by
        rw [List.getElem?_append_right (by omega), hLength, Nat.sub_self]
        rfl
      rw [stageOf_out _ (Nat.le_refl _)] at hSlot
      obtain ⟨_, hReady, hDone, hPc, hStarted, hFinished⟩ := hSlot.out_inv
      rw [hBefore, hJob, if_pos rfl, hStarted, hFinished]
      exact @SlotOk.before F A { s.threads s.nrTasks with task := job.task, taskArgs := job.args } _ hReady hDone hPc
    · have hNone : (log.current.accepted ++ [job])[j + 1]? = log.current.accepted[j + 1]? := by
        rw [List.getElem?_eq_none (by rw [List.length_append, List.length_singleton]; omega),
          List.getElem?_eq_none (by omega)]
      rw [stageOf_out _ (Nat.le_of_lt hGt)] at hSlot
      rw [stageOf_out _ hGt, hNone, if_neg (Nat.ne_of_gt hGt)]
      exact hSlot
  case exact => exact h.exact
  case noStrays => exact h.noStrays

theorem Inv.added (h : Inv s log) (hMain : s.main = .client) (job : Job F A) :
    Inv (s.threadAddWork job).1 (log.record (.added job (s.threadAddWork job).2)) := by
  rw [Pool.threadAddWork]
  cases hFirst : s.hasMainThread with
  | false => exact h.addFirst hMain hFirst job
  | true =>
    simp only [Bool.not_true, Bool.false_eq_true, if_false]
    split
    · case isTrue hRoom => exact h.addTask hMain hFirst hRoom job
    · exact h

end Client

/-! ## The steps of the other threads -/

section Worker
variable {s : Pool F A} {log : Log F A} {i : Nat}

theorem busy_of_stage (h : stageOf s.main s.nrTasks i = .notifying ∨ stageOf s.main s.nrTasks i = .given ∨
    stageOf s.main s.nrTasks i = .awaited) : isClient s.main = false := by
  cases hMain : s.main with
  | client =>
    rw [hMain] at h
    unfold stageOf at h
    grind
  | _ => rfl

/-- A thread changes its data and goes on; what it calls or has called is written down. -/
theorem Inv.workerStep (h : Inv s log) (t : ThreadData F A) (pc : WorkerPc F A) {log' : Log F A}
    (hAccepted : log'.current.accepted = log.current.accepted) (hWorking : log'.working = log.working)
    (hRounds : log'.rounds = log.rounds) (hStrays : log'.strays = log.strays)
    (hCalls : ∀ m, m ≠ i + 1 → log'.current.started m = log.current.started m ∧
      log'.current.finished m = log.current.finished m)
    (hSlot : SlotOk (stageOf s.main s.nrTasks i) log.current.accepted[i + 1]? t pc
      (log'.current.started (i + 1)) (log'.current.finished (i + 1))) :
    Inv ((s.setThread i t).setWorker i pc) log' := by
  have hThread : (s.setThread i t).threads i = t := (s.threads_setThread i t i).trans (if_pos rfl)
  have hWorker : ((s.setThread i t).setWorker i pc).workers i = pc :=
    ((s.setThread i t).workers_setWorker i pc i).trans (if_pos rfl)
  have hOthers : ∀ j, j ≠ i → log'.current.started (j + 1) = log.current.started (j + 1) ∧
      log'.current.finished (j + 1) = log.current.finished (j + 1) :=
    fun j hNe => hCalls (j + 1) (by omega)
  obtain ⟨hStarted, hFinished⟩ := hCalls 0 (Nat.succ_ne_zero i).symm
  apply h.of_frame (i := i)
  · constructor
    case accepted => exact hAccepted
    case working => exact hWorking
    case rounds => exact hRounds
    case strays => exact hStrays
    case threads => exact fun j hNe => (s.threads_setThread i t j).trans (if_neg hNe)
    case workers => exact fun j hNe => ((s.setThread i t).workers_setWorker i pc j).trans (if_neg hNe)
    case started => exact fun j hNe => (hOthers j hNe).1
    case finished => exact fun j hNe => (hOthers j hNe).2
    all_goals intros; rfl
  · exact h.range
  · rw [hStarted, hFinished]
    exact h.mainRuns
  · change SlotOk _ _ ((s.setThread i t).threads i) (((s.setThread i t).setWorker i pc).workers i) _ _
    rw [hThread, hWorker]
    exact hSlot

theorem Inv.started (h : Inv s log) (hPc : s.workers i = .check) (hReady : (s.threads i).ready = true) :
    Inv (s.setWorker i (.running (s.threads i).job)) (log.record (.started (i + 1) (s.threads i).job)) := by
  have hSlot := h.slots i
  rw [hPc] at hSlot
  obtain ⟨hRunning, hStage⟩ := hSlot.start hReady
  rw [h.record_started (busy_of_stage hStage)]
  have hInv : Inv ((s.setThread i (s.threads i)).setWorker i (.running (s.threads i).job))
      { log with current := { log.current with
        started := Log.addTo log.current.started (i + 1) (s.threads i).job } } := by
    apply h.workerStep
    case hCalls => exact fun m hNe => ⟨addTo_of_ne _ _ hNe, rfl⟩
    case hSlot =>
      change SlotOk _ _ _ _ (Log.addTo log.current.started (i + 1) (s.threads i).job (i + 1)) _
      rw [addTo_self]
      exact hRunning
    all_goals rfl
  rwa [setThread_self] at hInv

theorem Inv.finished {job : Job F A} (h : Inv s log) (hPc : s.workers i = .running job) :
    Inv ((s.setThread i { s.threads i with ready := false, done := true }).setWorker i .notify)
      (log.record (.finished (i + 1) job)) := by
  have hSlot := h.slots i
  rw [hPc] at hSlot
  obtain ⟨hDone, hStage⟩ := hSlot.finish
  rw [h.record_finished (busy_of_stage hStage)]
  apply h.workerStep
  case hCalls => exact fun m hNe => ⟨rfl, addTo_of_ne _ _ hNe⟩
  case hSlot =>
    change SlotOk _ _ _ _ _ (Log.addTo log.current.finished (i + 1) job (i + 1))
    rw [addTo_self]
    exact hDone
  all_goals rfl

theorem Inv.setWorker (h : Inv s log) (pc : WorkerPc F A)
    (hSlot : SlotOk (stageOf s.main s.nrTasks i) log.current.accepted[i + 1]? (s.threads i) pc
      (log.current.started (i + 1)) (log.current.finished (i + 1))) : Inv (s.setWorker i pc) log := by
  have hInv := h.workerStep (s.threads i) pc rfl rfl rfl rfl (fun _ _ => ⟨rfl, rfl⟩) hSlot
  rwa [setThread_self] at hInv

theorem Inv.slept (h : Inv s log) (hPc : s.workers i = .check) (hReady : (s.threads i).ready = false) :
    Inv (s.setWorker i .asleep) log := by
  have hSlot := h.slots i
  rw [hPc] at hSlot
  exact h.setWorker .asleep (hSlot.sleep hReady)

theorem Inv.roused (h : Inv s log) (hPc : s.workers i = .asleep) : Inv (s.setWorker i .check) log := by
  have hSlot := h.slots i
  rw [hPc] at hSlot
  exact h.setWorker .check (hSlot.goOn rfl hSlot.not_awaited)

theorem Inv.wakeMain (h : Inv s log) (i : Nat) : Inv (s.wakeMain i) log := by
  rw [Pool.wakeMain]
  split
  · case h_1 j hMain =>
    split
    · case isTrue hEq =>
      subst hEq
      exact h.lookAgain hMain
    · exact h
  · exact h

theorem Inv.notified (h : Inv s log) (hPc : s.workers i = .notify) :
    Inv ((s.wakeMain i).setWorker i .check) log := by
  have hInv := h.wakeMain i
  have hSame : (s.wakeMain i).workers i = .notify := by
    rw [← hPc, Pool.wakeMain]
    split
    · split <;> rfl
    · rfl
  have hSlot := hInv.slots i
  rw [hSame] at hSlot
  refine hInv.setWorker .check (hSlot.goOn rfl fun hAwaited => ?_)
  -- the main thread has been woken
  have hMain := stageOf_awaited hAwaited
  rw [Pool.wakeMain] at hMain
  split at hMain
  · case h_1 j hAsleep =>
    split at hMain
    · cases hMain
    · case isFalse hNe =>
      rw [hAsleep] at hMain
      exact hNe (MainPc.asleep.inj hMain)
  · case h_2 hAwake => exact hAwake i hMain

end Worker

/-! ## Whole runs -/

section Run
variable [Inhabited F] [Inhabited A] {s s' : Pool F A} {log : Log F A} {event : Event F A}

theorem inv_init (n : Nat) (memory : Nat → F) : Inv (Pool.init n memory : Pool F A) Log.empty := by
  constructor
  case room => exact Nat.zero_le n
  case range => trivial
  case length => rfl
  case first => exact fun hFirst => absurd hFirst Bool.false_ne_true
  case noTask => exact fun _ => ⟨rfl, rfl⟩
  case working => rfl
  case mainRuns => exact ⟨rfl, rfl⟩
  case slots => exact fun j => .out rfl rfl rfl
  case exact => exact fun round hRound => absurd hRound List.not_mem_nil
  case noStrays => rfl

theorem Inv.step {choice : Choice F A} (h : Inv s log) (hStep : s.step choice = some (s', event)) :
    Inv s' (log.record event) := by
  cases Pool.move_of_step hStep with
  | added hMain => exact h.added hMain _
  | called hMain hFirst => exact h.called hMain hFirst
  | tell hMain hLt => exact h.tell hMain hLt
  | toldAll hMain hEnd => exact h.toldAll hMain hEnd
  | notify hMain => exact h.notify hMain
  | startMain hMain => exact h.startMain hMain
  | finishMain hMain => exact h.finishMain hMain
  | seen hMain hLt hDone => exact h.seen hMain hLt hDone
  | wait hMain hLt hDone => exact h.wait hMain hLt hDone
  | returned hMain hEnd => exact h.returned hMain hEnd
  | reset hMain => exact h.reset hMain
  | started _ hPc hReady => exact h.started hPc hReady
  | slept hPc hReady => exact h.slept hPc hReady
  | finished _ hPc => exact h.finished hPc
  | notified _ hPc => exact h.notified hPc
  | lookAgain hMain => exact h.lookAgain hMain
  | roused hPc => exact h.roused hPc

theorem reached_inv {n : Nat} {memory : Nat → F} {events : List (Event F A)}
    (h : Reached (Pool.init n memory) s events) : Inv s (Log.of events) := by
  induction h with
  | start => exact inv_init n memory
  | step _ hStep ih =>
    rw [Log.of_append]
    exact ih.step hStep

theorem Inv.idle_of_returned {choice : Choice F A} (h : Inv s log) (hStep : s.step choice = some (s', .returned)) :
    s'.Idle := by
  cases Pool.move_of_step hStep with
  | returned hMain hEnd =>
    constructor
    case ready => exact fun j => (h.through hMain hEnd j).1
    case done => exact fun j => (h.through hMain hEnd j).2.1
    all_goals rfl

end Run
end Bisen.ThreadRounds
