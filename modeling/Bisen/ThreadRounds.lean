import Bisen.ThreadPool

/-! # Rounds of the thread pool

What `thread_do_work` has done about a thread fixes what `ready`, `done` and the thread itself can be up to.
A late notification of an earlier round finds nothing that it could spoil.
-/
namespace Bisen.ThreadRounds
open ThreadPool
set_option autoImplicit false

variable {F A : Type}

/-- What the main thread has done about a thread: it has no task for it, has not told it yet, is about to notify
it, has told it, waits for it, has seen that it is done, or is through with it. -/
inductive Stage
  | out
  | before
  | notifying
  | given
  | awaited
  | collected
  | after

def stageOf (main : MainPc F A) (nrTasks j : Nat) : Stage :=
  if nrTasks ≤ j then .out
  else match main with
  | .client => .before
  | .dispatch i => if j < i then .given else .before
  | .notify i => if j < i then .given else if j = i then .notifying else .before
  | .mainTask | .inMainTask _ => .given
  | .collect i => if j < i then .after else .given
  | .asleep i => if j < i then .after else if j = i then .awaited else .given
  | .reset i => if j < i then .after else if j = i then .collected else .given

/-- A thread that has been told can be asleep only while its notification is still to come. -/
def Told (stage : Stage) (pc : WorkerPc F A) : Prop :=
  stage = .notifying ∨ (stage = .given ∨ stage = .awaited) ∧ pc ≠ .asleep

/-- The main thread can be asleep over a finished task only while its notification is still to come. -/
def Seen (stage : Stage) (pc : WorkerPc F A) : Prop :=
  stage = .notifying ∨ stage = .given ∨ stage = .collected ∨ stage = .awaited ∧ pc = .notify

theorem Seen.of_free {stage : Stage} {pc : WorkerPc F A} (h : Seen stage pc)
    (hFree : stage ≠ .awaited ∨ pc ≠ .notify) (pc' : WorkerPc F A) : Seen stage pc' := by
  obtain hStage | hStage | hStage | ⟨hAwaited, hPc⟩ := h
  · exact .inl hStage
  · exact .inr (.inl hStage)
  · exact .inr (.inr (.inl hStage))
  · obtain hStage | hNotify := hFree
    · exact absurd hAwaited hStage
    · exact absurd hPc hNotify

/-- What a thread can be up to at a stage, with its task and the calls it has started and finished. -/
inductive SlotOk :
    Stage → Option (Job F A) → ThreadData F A → WorkerPc F A → List (Job F A) → List (Job F A) → Prop
  | out {t : ThreadData F A} {pc : WorkerPc F A} (hReady : t.ready = false) (hDone : t.done = false)
      (hPc : pc.isRunning = false) : SlotOk .out none t pc [] []
  | before {t : ThreadData F A} {pc : WorkerPc F A} (hReady : t.ready = false) (hDone : t.done = false)
      (hPc : pc.isRunning = false) : SlotOk .before (some t.job) t pc [] []
  | told {stage : Stage} {t : ThreadData F A} {pc : WorkerPc F A} (hStage : Told stage pc) (hReady : t.ready = true)
      (hDone : t.done = false) (hPc : pc.isRunning = false) : SlotOk stage (some t.job) t pc [] []
  | running {stage : Stage} {t : ThreadData F A} {job : Job F A}
      (hStage : stage = .notifying ∨ stage = .given ∨ stage = .awaited) (hReady : t.ready = true)
      (hDone : t.done = false) : SlotOk stage (some job) t (.running job) [job] []
  | done {stage : Stage} {t : ThreadData F A} {pc : WorkerPc F A} {job : Job F A} (hStage : Seen stage pc)
      (hReady : t.ready = false) (hDone : t.done = true) (hPc : pc.isRunning = false) :
      SlotOk stage (some job) t pc [job] [job]
  | after {t : ThreadData F A} {pc : WorkerPc F A} {job : Job F A} (hReady : t.ready = false) (hDone : t.done = false)
      (hPc : pc.isRunning = false) : SlotOk .after (some job) t pc [job] [job]

def isClient : MainPc F A → Bool
  | .client => true
  | _ => false

/-- Where the loops of `thread_do_work` are. -/
def InRange (nrTasks : Nat) : MainPc F A → Prop
  | .dispatch i | .collect i => i ≤ nrTasks
  | .notify i | .asleep i | .reset i => i < nrTasks
  | _ => True

/-- The calls of the main thread, whose task is the first one. -/
def MainRuns (first : Option (Job F A)) (started finished : List (Job F A)) : MainPc F A → Prop
  | .client | .dispatch _ | .notify _ | .mainTask => started = [] ∧ finished = []
  | .inMainTask job => first = some job ∧ started = [job] ∧ finished = []
  | .collect _ | .asleep _ | .reset _ => started = first.toList ∧ finished = first.toList

structure Inv (s : Pool F A) (log : Log F A) : Prop where
  room : s.nrTasks ≤ s.enteredThreads
  range : InRange s.nrTasks s.main
  length : log.current.accepted.length = if s.hasMainThread then s.nrTasks + 1 else 0
  first : s.hasMainThread = true → log.current.accepted[0]? = some ⟨s.mainTask, s.mainTaskArgs⟩
  noTask : s.hasMainThread = false → s.nrTasks = 0 ∧ isClient s.main = true
  working : log.working = !isClient s.main
  mainRuns : MainRuns log.current.accepted[0]? (log.current.started 0) (log.current.finished 0) s.main
  slots : ∀ j, SlotOk (stageOf s.main s.nrTasks j) log.current.accepted[j + 1]? (s.threads j) (s.workers j)
    (log.current.started (j + 1)) (log.current.finished (j + 1))
  exact : ∀ round ∈ log.rounds, round.Exact
  noStrays : log.strays = []

/-! ## Stages -/

section Stages
variable {k i j : Nat}

theorem stageOf_out (main : MainPc F A) (h : k ≤ j) : stageOf main k j = .out := if_pos h

theorem stageOf_dispatch (h : i < k) : stageOf (.dispatch i : MainPc F A) k i = .before := by
  simp [stageOf, h]

theorem stageOf_notify (h : i < k) : stageOf (.notify i : MainPc F A) k i = .notifying := by
  simp [stageOf, h]

theorem stageOf_dispatched (h : i < k) : stageOf (.dispatch (i + 1) : MainPc F A) k i = .given := by
  simp [stageOf, h]

theorem stageOf_collect (h : i < k) : stageOf (.collect i : MainPc F A) k i = .given := by
  simp [stageOf, h]

theorem stageOf_asleep (h : i < k) : stageOf (.asleep i : MainPc F A) k i = .awaited := by
  simp [stageOf, h]

theorem stageOf_reset (h : i < k) : stageOf (.reset i : MainPc F A) k i = .collected := by
  simp [stageOf, h]

theorem stageOf_after (h : j < k) (hSeen : j < i) : stageOf (.collect i : MainPc F A) k j = .after := by
  simp [stageOf, h, hSeen]

theorem stageOf_awaited {main : MainPc F A} (h : stageOf main k j = .awaited) : main = .asleep j := by
  unfold stageOf at h
  grind

theorem stageOf_ne {main main' : MainPc F A} (hNe : j ≠ i)
    (h : main = .dispatch i ∧ main' = .notify i ∨ main = .notify i ∧ main' = .dispatch (i + 1) ∨
      main = .collect i ∧ main' = .asleep i ∨ main = .asleep i ∧ main' = .collect i ∨
      main = .collect i ∧ main' = .reset i ∨ main = .reset i ∧ main' = .collect (i + 1)) :
    stageOf main' k j = stageOf main k j := by
  unfold stageOf
  obtain ⟨rfl, rfl⟩ | ⟨rfl, rfl⟩ | ⟨rfl, rfl⟩ | ⟨rfl, rfl⟩ | ⟨rfl, rfl⟩ | ⟨rfl, rfl⟩ := h <;> grind

end Stages

/-! ## Slots -/

/-- What `notify_one` makes of a thread. -/
def woken : WorkerPc F A → WorkerPc F A
  | .asleep => .check
  | pc => pc

theorem woken_ne (pc : WorkerPc F A) : woken pc ≠ .asleep := by
  cases pc <;> simp [woken]

theorem isRunning_woken (pc : WorkerPc F A) : (woken pc).isRunning = pc.isRunning := by
  cases pc <;> rfl

namespace SlotOk
variable {stage : Stage} {assigned : Option (Job F A)} {t : ThreadData F A} {pc : WorkerPc F A}
  {started finished : List (Job F A)}

theorem before_inv (h : SlotOk .before assigned t pc started finished) :
    assigned = some t.job ∧ t.ready = false ∧ t.done = false ∧ pc.isRunning = false ∧ started = [] ∧
      finished = [] := by
  cases h with
  | before hReady hDone hPc => exact ⟨rfl, hReady, hDone, hPc, rfl, rfl⟩
  | told hStage => simp [Told] at hStage
  | running hStage => simp at hStage
  | done hStage => simp [Seen] at hStage

theorem out_inv (h : SlotOk .out assigned t pc started finished) :
    assigned = none ∧ t.ready = false ∧ t.done = false ∧ pc.isRunning = false ∧ started = [] ∧
      finished = [] := by
  cases h with
  | out hReady hDone hPc => exact ⟨rfl, hReady, hDone, hPc, rfl, rfl⟩
  | told hStage => simp [Told] at hStage
  | running hStage => simp at hStage
  | done hStage => simp [Seen] at hStage

theorem after_inv (h : SlotOk .after assigned t pc started finished) :
    t.ready = false ∧ t.done = false ∧ pc.isRunning = false ∧ started = assigned.toList ∧
      finished = assigned.toList := by
  cases h with
  | after hReady hDone hPc => exact ⟨hReady, hDone, hPc, rfl, rfl⟩
  | told hStage => simp [Told] at hStage
  | running hStage => simp at hStage
  | done hStage => simp [Seen] at hStage

theorem tell (h : SlotOk .before assigned t pc started finished) :
    SlotOk .notifying assigned { t with ready := true } pc started finished := by
  obtain ⟨rfl, hReady, hDone, hPc, rfl, rfl⟩ := h.before_inv
  exact @told F A .notifying { t with ready := true } pc (.inl rfl) rfl hDone hPc

theorem wake (h : SlotOk .notifying assigned t pc started finished) :
    SlotOk .given assigned t (woken pc) started finished := by
  have hRunning := isRunning_woken pc
  cases h with
  | told hStage hReady hDone hPc =>
    exact .told (.inr ⟨.inl rfl, woken_ne pc⟩) hReady hDone (hRunning.trans hPc)
  | running hStage hReady hDone => exact .running (.inr (.inl rfl)) hReady hDone
  | done hStage hReady hDone hPc => exact .done (.inr (.inl rfl)) hReady hDone (hRunning.trans hPc)

theorem await (h : SlotOk .given assigned t pc started finished) (hWait : t.done = false) :
    SlotOk .awaited assigned t pc started finished := by
  cases h with
  | told hStage hReady hDone hPc =>
    obtain hStage | ⟨_, hAwake⟩ := hStage
    · cases hStage
    · exact .told (.inr ⟨.inr rfl, hAwake⟩) hReady hDone hPc
  | running hStage hReady hDone => exact .running (.inr (.inr rfl)) hReady hDone
  | done hStage hReady hDone => rw [hDone] at hWait; cases hWait

theorem recheck (h : SlotOk .awaited assigned t pc started finished) :
    SlotOk .given assigned t pc started finished := by
  cases h with
  | told hStage hReady hDone hPc =>
    obtain hStage | ⟨_, hAwake⟩ := hStage
    · cases hStage
    · exact .told (.inr ⟨.inl rfl, hAwake⟩) hReady hDone hPc
  | running hStage hReady hDone => exact .running (.inr (.inl rfl)) hReady hDone
  | done hStage hReady hDone hPc => exact .done (.inr (.inl rfl)) hReady hDone hPc

theorem collect (h : SlotOk .given assigned t pc started finished) (hSeen : t.done = true) :
    SlotOk .collected assigned t pc started finished := by
  cases h with
  | told hStage hReady hDone => rw [hDone] at hSeen; cases hSeen
  | running hStage hReady hDone => rw [hDone] at hSeen; cases hSeen
  | done hStage hReady hDone hPc => exact .done (.inr (.inr (.inl rfl))) hReady hDone hPc

theorem reset (h : SlotOk .collected assigned t pc started finished) (args : A) :
    SlotOk .after assigned { t with done := false, taskArgs := args } pc started finished := by
  cases h with
  | told hStage => simp [Told] at hStage
  | running hStage => simp at hStage
  | done hStage hReady hDone hPc => exact .after hReady rfl hPc

/-- A thread that finds `ready` set calls its task for the first time. -/
theorem start (h : SlotOk stage assigned t .check started finished) (hGo : t.ready = true) :
    SlotOk stage assigned t (.running t.job) (started ++ [t.job]) finished ∧
      (stage = .notifying ∨ stage = .given ∨ stage = .awaited) := by
  cases h with
  | out hReady => rw [hReady] at hGo; cases hGo
  | before hReady => rw [hReady] at hGo; cases hGo
  | told hStage hReady hDone hPc =>
    have hStages : stage = .notifying ∨ stage = .given ∨ stage = .awaited := hStage.imp_right And.left
    exact ⟨.running hStages hReady hDone, hStages⟩
  | done hStage hReady => rw [hReady] at hGo; cases hGo
  | after hReady => rw [hReady] at hGo; cases hGo

theorem sleep (h : SlotOk stage assigned t .check started finished) (hWait : t.ready = false) :
    SlotOk stage assigned t .asleep started finished := by
  cases h with
  | out hReady hDone => exact .out hReady hDone rfl
  | before hReady hDone => exact .before hReady hDone rfl
  | told hStage hReady => rw [hReady] at hWait; cases hWait
  | done hSeen hReady hDone => exact .done (hSeen.of_free (.inr nofun) _) hReady hDone rfl
  | after hReady hDone => exact .after hReady hDone rfl

theorem finish {job : Job F A} (h : SlotOk stage assigned t (.running job) started finished) :
    SlotOk stage assigned { t with ready := false, done := true } .notify started (finished ++ [job]) ∧
      (stage = .notifying ∨ stage = .given ∨ stage = .awaited) := by
  cases h with
  | out _ _ hPc => cases hPc
  | before _ _ hPc => cases hPc
  | told _ _ _ hPc => cases hPc
  | running hStage hReady hDone =>
    refine ⟨.done ?_ rfl rfl rfl, hStage⟩
    exact hStage.imp_right (Or.imp_right fun hAwaited => .inr ⟨hAwaited, rfl⟩)
  | done _ _ _ hPc => cases hPc
  | after _ _ hPc => cases hPc

/-- Another step of the loop, after which the thread is awake. -/
theorem goOn (h : SlotOk stage assigned t pc started finished) (hPc : pc.isRunning = false)
    (hStage : stage ≠ .awaited) : SlotOk stage assigned t .check started finished := by
  cases h with
  | out hReady hDone => exact .out hReady hDone rfl
  | before hReady hDone => exact .before hReady hDone rfl
  | told hTold hReady hDone => exact .told (hTold.imp_right fun hGiven => ⟨hGiven.1, nofun⟩) hReady hDone rfl
  | running => cases hPc
  | done hSeen hReady hDone => exact .done (hSeen.of_free (.inl hStage) _) hReady hDone rfl
  | after hReady hDone => exact .after hReady hDone rfl

/-- Nobody waits for a thread that is asleep. -/
theorem not_awaited (h : SlotOk stage assigned t .asleep started finished) : stage ≠ .awaited := by
  rintro rfl
  cases h with
  | told hStage =>
    obtain hStage | ⟨_, hAwake⟩ := hStage
    · cases hStage
    · exact hAwake rfl
  | done hStage => simp [Seen] at hStage

/-- The thread that the main thread waits for is awake, and has something to do. -/
theorem of_awaited (h : SlotOk .awaited assigned t pc started finished) :
    pc ≠ .asleep ∧ (pc = .check → t.ready = true) := by
  cases h with
  | told hStage hReady =>
    obtain hStage | ⟨_, hAwake⟩ := hStage
    · cases hStage
    · exact ⟨hAwake, fun _ => hReady⟩
  | running => exact ⟨nofun, nofun⟩
  | done hSeen =>
    obtain hSeen | hSeen | hSeen | ⟨_, rfl⟩ := hSeen
    · cases hSeen
    · cases hSeen
    · cases hSeen
    · exact ⟨nofun, nofun⟩

/-- So is the thread that it is about to wait for. -/
theorem of_given (h : SlotOk .given assigned t pc started finished) (hDone : t.done = false) :
    pc ≠ .asleep ∧ t.ready = true := by
  cases h with
  | told hStage hReady =>
    obtain hStage | ⟨_, hAwake⟩ := hStage
    · cases hStage
    · exact ⟨hAwake, hReady⟩
  | running _ hReady => exact ⟨nofun, hReady⟩
  | done _ _ hSet => rw [hSet] at hDone; cases hDone

theorem ready_of_running {job : Job F A} (h : SlotOk stage assigned t pc started finished) (hPc : pc = .running job) :
    t.ready = true := by
  subst hPc
  cases h with
  | out _ _ hFree => cases hFree
  | before _ _ hFree => cases hFree
  | told _ _ _ hFree => cases hFree
  | running _ hReady => exact hReady
  | done _ _ _ hFree => cases hFree
  | after _ _ hFree => cases hFree

/-- A thread that is done has given its lock back. -/
theorem isRunning_of_done (h : SlotOk stage assigned t pc started finished) (hDone : t.done = true) :
    pc.isRunning = false := by
  cases h with
  | out _ hOpen => rw [hOpen] at hDone; cases hDone
  | before _ hOpen => rw [hOpen] at hDone; cases hDone
  | told _ _ hOpen => rw [hOpen] at hDone; cases hDone
  | running _ _ hOpen => rw [hOpen] at hDone; cases hDone
  | done _ _ _ hPc => exact hPc
  | after _ hOpen => rw [hOpen] at hDone; cases hDone

end SlotOk

end Bisen.ThreadRounds
