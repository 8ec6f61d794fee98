import Mathlib.Logic.Function.Basic
import Mathlib.Data.List.Basic

/-! # The thread pool of the enclave

The main thread hands tasks to the threads that have entered and waits until all of them are done. It shares a
lock and a condition variable with every one of them: `ready` goes one way, `done` the other.
-/
namespace Bisen.ThreadPool
set_option autoImplicit false

/-- A call that is asked for. -/
structure Job (F A : Type) where
  task : F
  args : A
  deriving DecidableEq, Repr

/-- `thread_data` without its lock and its condition variable. -/
structure ThreadData (F A : Type) where
  ready : Bool
  done : Bool
  taskArgs : A
  task : F

def ThreadData.job {F A : Type} (t : ThreadData F A) : Job F A := ⟨t.task, t.taskArgs⟩

/-- Where a thread stands in the loop of `ecall_thread_enter`: about to take its lock and look at `ready`, waiting
without the lock, inside the task with it, or about to notify. -/
inductive WorkerPc (F A : Type)
  | check
  | asleep
  | running (job : Job F A)
  | notify

/-- Where the main thread stands: outside `thread_do_work`, in its first loop, at its own task, or in its second
loop. -/
inductive MainPc (F A : Type)
  | client
  | dispatch (i : Nat)
  | notify (i : Nat)
  | mainTask
  | inMainTask (job : Job F A)
  | collect (i : Nat)
  | asleep (i : Nat)
  | reset (i : Nat)

structure Pool (F A : Type) where
  threads : Nat → ThreadData F A
  enteredThreads : Nat
  nrTasks : Nat
  hasMainThread : Bool
  mainTask : F
  mainTaskArgs : A
  main : MainPc F A
  workers : Nat → WorkerPc F A

/-- The thread 0 is the main thread. A `started` or `finished` call is one of a task. -/
inductive Event (F A : Type)
  | added (job : Job F A) (ret : Int)
  | called
  | started (thread : Nat) (job : Job F A)
  | finished (thread : Nat) (job : Job F A)
  | returned
  | silent

/-- What happens next: the client calls a function, a thread goes on, or a waiting thread wakes up for no reason. -/
inductive Choice (F A : Type)
  | addWork (job : Job F A)
  | doWork
  | main
  | worker (i : Nat)
  | wakeMain
  | wakeWorker (i : Nat)

variable {F A : Type}

def WorkerPc.isRunning : WorkerPc F A → Bool
  | .running _ => true
  | _ => false

namespace Pool

def setThread (s : Pool F A) (i : Nat) (t : ThreadData F A) : Pool F A :=
  { s with threads := Function.update s.threads i t }

def setWorker (s : Pool F A) (i : Nat) (pc : WorkerPc F A) : Pool F A :=
  { s with workers := Function.update s.workers i pc }

theorem threads_setThread (s : Pool F A) (i : Nat) (t : ThreadData F A) (j : Nat) :
    (s.setThread i t).threads j = if j = i then t else s.threads j :=
  Function.update_apply s.threads i t j

theorem workers_setWorker (s : Pool F A) (i : Nat) (pc : WorkerPc F A) (j : Nat) :
    (s.setWorker i pc).workers j = if j = i then pc else s.workers j :=
  Function.update_apply s.workers i pc j

section Code
variable [Inhabited F] [Inhabited A]

/-- `thread_handler_init`, after `n` threads have entered; the tasks are what `malloc` left there. -/
def init (n : Nat) (memory : Nat → F) : Pool F A where
  threads := fun i => ⟨false, false, default, memory i⟩
  enteredThreads := n
  nrTasks := 0
  hasMainThread := false
  mainTask := default
  mainTaskArgs := default
  main := .client
  workers := fun _ => .check

/-! ## The main thread -/

def threadAddWork (s : Pool F A) (job : Job F A) : Pool F A × Int :=
  if !s.hasMainThread then
    ({ s with mainTask := job.task, mainTaskArgs := job.args, hasMainThread := true }, 0)
  else if s.nrTasks < s.enteredThreads then
    ({ s.setThread s.nrTasks { s.threads s.nrTasks with task := job.task, taskArgs := job.args } with
      nrTasks := s.nrTasks + 1 }, 0)
  else (s, 1)

/-- `notify_one` of the main thread: nobody else but the thread itself waits on its variable. -/
def wakeWorker (s : Pool F A) (i : Nat) : Pool F A :=
  match s.workers i with
  | .asleep => s.setWorker i .check
  | _ => s

/-- `notify_one` of a thread: nobody else but the main thread can be waiting. -/
def wakeMain (s : Pool F A) (i : Nat) : Pool F A :=
  match s.main with
  | .asleep j => if j = i then { s with main := .collect i } else s
  | _ => s

/-- The end of `thread_do_work`. -/
def resetTasks (s : Pool F A) : Pool F A :=
  { s with nrTasks := 0, mainTask := default, mainTaskArgs := default, hasMainThread := false, main := .client }

/-- A step of `thread_do_work`. A thread that runs its task holds its lock. -/
def stepMain (s : Pool F A) : Option (Pool F A × Event F A) :=
  match s.main with
  | .client => none
  | .dispatch i =>
    if i < s.nrTasks then
      if (s.workers i).isRunning then none
      else some ({ s.setThread i { s.threads i with ready := true } with main := .notify i }, .silent)
    else some ({ s with main := .mainTask }, .silent)
  | .notify i => some ({ s.wakeWorker i with main := .dispatch (i + 1) }, .silent)
  | .mainTask => some ({ s with main := .inMainTask ⟨s.mainTask, s.mainTaskArgs⟩ },
      .started 0 ⟨s.mainTask, s.mainTaskArgs⟩)
  | .inMainTask job => some ({ s with main := .collect 0 }, .finished 0 job)
  | .collect i =>
    if i < s.nrTasks then
      if (s.workers i).isRunning then none
      else if (s.threads i).done then some ({ s with main := .reset i }, .silent)
      else some ({ s with main := .asleep i }, .silent)
    else some (s.resetTasks, .returned)
  | .asleep _ => none
  | .reset i => some ({ s.setThread i { s.threads i with done := false, taskArgs := default } with
      main := .collect (i + 1) }, .silent)

/-! ## The other threads -/

/-- A step of `ecall_thread_enter`. While a thread is at `check` its lock is free: no section of the main thread
lasts longer than a step. -/
def stepWorker (s : Pool F A) (i : Nat) : Option (Pool F A × Event F A) :=
  match s.workers i with
  | .check =>
    if (s.threads i).ready then
      some (s.setWorker i (.running (s.threads i).job), .started (i + 1) (s.threads i).job)
    else some (s.setWorker i .asleep, .silent)
  | .asleep => none
  | .running job =>
    some ((s.setThread i { s.threads i with ready := false, done := true }).setWorker i .notify,
      .finished (i + 1) job)
  | .notify => some ((s.wakeMain i).setWorker i .check, .silent)

/-- The client adds at least one task before it calls `thread_do_work`, and calls neither function while that
runs. -/
def step (s : Pool F A) : Choice F A → Option (Pool F A × Event F A)
  | .addWork job =>
    match s.main with
    | .client => some ((s.threadAddWork job).1, .added job (s.threadAddWork job).2)
    | _ => none
  | .doWork =>
    match s.main, s.hasMainThread with
    | .client, true => some ({ s with main := .dispatch 0 }, .called)
    | _, _ => none
  | .main => s.stepMain
  | .worker i => if i < s.enteredThreads then s.stepWorker i else none
  | .wakeMain =>
    match s.main with
    | .asleep i => some ({ s with main := .collect i }, .silent)
    | _ => none
  | .wakeWorker i =>
    match s.workers i with
    | .asleep => some (s.setWorker i .check, .silent)
    | _ => none

/-- No task is left, and no thread has anything to do. -/
structure Idle (s : Pool F A) : Prop where
  nrTasks : s.nrTasks = 0
  noMainThread : s.hasMainThread = false
  mainTask : s.mainTask = default
  mainTaskArgs : s.mainTaskArgs = default
  ready : ∀ i, (s.threads i).ready = false
  done : ∀ i, (s.threads i).done = false

/-! ## What a step can do -/

/-- The sections of the main thread and of the others, each with what it has found. -/
inductive Move (s : Pool F A) : Choice F A → Pool F A → Event F A → Prop
  | added {job : Job F A} (hMain : s.main = .client) :
      Move s (.addWork job) (s.threadAddWork job).1 (.added job (s.threadAddWork job).2)
  | called (hMain : s.main = .client) (hFirst : s.hasMainThread = true) :
      Move s .doWork { s with main := .dispatch 0 } .called
  | tell {i : Nat} (hMain : s.main = .dispatch i) (hLt : i < s.nrTasks) :
      Move s .main { s.setThread i { s.threads i with ready := true } with main := .notify i } .silent
  | toldAll {i : Nat} (hMain : s.main = .dispatch i) (hEnd : ¬ i < s.nrTasks) :
      Move s .main { s with main := .mainTask } .silent
  | notify {i : Nat} (hMain : s.main = .notify i) :
      Move s .main { s.wakeWorker i with main := .dispatch (i + 1) } .silent
  | startMain (hMain : s.main = .mainTask) :
      Move s .main { s with main := .inMainTask ⟨s.mainTask, s.mainTaskArgs⟩ }
        (.started 0 ⟨s.mainTask, s.mainTaskArgs⟩)
  | finishMain {job : Job F A} (hMain : s.main = .inMainTask job) :
      Move s .main { s with main := .collect 0 } (.finished 0 job)
  | seen {i : Nat} (hMain : s.main = .collect i) (hLt : i < s.nrTasks) (hDone : (s.threads i).done = true) :
      Move s .main { s with main := .reset i } .silent
  | wait {i : Nat} (hMain : s.main = .collect i) (hLt : i < s.nrTasks) (hDone : (s.threads i).done = false) :
      Move s .main { s with main := .asleep i } .silent
  | returned {i : Nat} (hMain : s.main = .collect i) (hEnd : ¬ i < s.nrTasks) : Move s .main s.resetTasks .returned
  | reset {i : Nat} (hMain : s.main = .reset i) :
      Move s .main { s.setThread i { s.threads i with done := false, taskArgs := default } with
        main := .collect (i + 1) } .silent
  | started {i : Nat} (hi : i < s.enteredThreads) (hPc : s.workers i = .check) (hReady : (s.threads i).ready = true) :
      Move s (.worker i) (s.setWorker i (.running (s.threads i).job)) (.started (i + 1) (s.threads i).job)
  | slept {i : Nat} (hPc : s.workers i = .check) (hReady : (s.threads i).ready = false) :
      Move s (.worker i) (s.setWorker i .asleep) .silent
  | finished {i : Nat} {job : Job F A} (hi : i < s.enteredThreads) (hPc : s.workers i = .running job) :
      Move s (.worker i)
        ((s.setThread i { s.threads i with ready := false, done := true }).setWorker i .notify)
        (.finished (i + 1) job)
  | notified {i : Nat} (hi : i < s.enteredThreads) (hPc : s.workers i = .notify) :
      Move s (.worker i) ((s.wakeMain i).setWorker i .check) .silent
  | lookAgain {i : Nat} (hMain : s.main = .asleep i) : Move s .wakeMain { s with main := .collect i } .silent
  | roused {i : Nat} (hPc : s.workers i = .asleep) : Move s (.wakeWorker i) (s.setWorker i .check) .silent

variable {s s' : Pool F A} {event : Event F A}

theorem move_of_stepMain (h : s.stepMain = some (s', event)) : s.Move .main s' event := by
  unfold stepMain at h
  split at h
  · cases h
  · case h_2 i hMain =>
    split at h
    · case isTrue hLt =>
      split at h
      · cases h
      · cases h
        exact .tell hMain hLt
    · case isFalse hEnd =>
      cases h
      exact .toldAll hMain hEnd
  · case h_3 i hMain =>
    cases h
    exact .notify hMain
  · case h_4 hMain =>
    cases h
    exact .startMain hMain
  · case h_5 job hMain =>
    cases h
    exact .finishMain hMain
  · case h_6 i hMain =>
    split at h
    · case isTrue hLt =>
      split at h
      · cases h
      split at h
      · case isTrue hDone =>
        cases h
        exact .seen hMain hLt hDone
      · case isFalse hDone =>
        cases h
        exact .wait hMain hLt (Bool.eq_false_iff.mpr hDone)
    · case isFalse hEnd =>
      cases h
      exact .returned hMain hEnd
  · cases h
  · case h_8 i hMain =>
    cases h
    exact .reset hMain

theorem move_of_stepWorker {i : Nat} (hi : i < s.enteredThreads) (h : s.stepWorker i = some (s', event)) :
    s.Move (.worker i) s' event := by
  unfold stepWorker at h
  split at h
  · case h_1 hPc =>
    split at h
    · case isTrue hReady =>
      cases h
      exact .started hi hPc hReady
    · case isFalse hReady =>
      cases h
      exact .slept hPc (Bool.eq_false_iff.mpr hReady)
  · cases h
  · case h_3 job hPc =>
    cases h
    exact .finished hi hPc
  · case h_4 hPc =>
    cases h
    exact .notified hi hPc

theorem move_of_step {choice : Choice F A} (h : s.step choice = some (s', event)) : s.Move choice s' event := by
  cases choice with
  | addWork job =>
    simp only [step] at h
    split at h
    · case h_1 hMain =>
      cases h
      exact .added hMain
    · cases h
  | doWork =>
    simp only [step] at h
    split at h
    · case h_1 hMain hFirst =>
      cases h
      exact .called hMain hFirst
    · cases h
  | main => exact move_of_stepMain h
  | worker i =>
    rw [step] at h
    split at h
    · case isTrue hi => exact move_of_stepWorker hi h
    · cases h
  | wakeMain =>
    simp only [step] at h
    split at h
    · case h_1 i hMain =>
      cases h
      exact .lookAgain hMain
    · cases h
  | wakeWorker i =>
    simp only [step] at h
    split at h
    · case h_1 hPc =>
      cases h
      exact .roused hPc
    · cases h

end Code
end Pool

/-- The states that can be reached, with the events on the way. -/
inductive Reached [Inhabited F] [Inhabited A] (start : Pool F A) : Pool F A → List (Event F A) → Prop
  | start : Reached start start []
  | step {s s' : Pool F A} {events : List (Event F A)} {choice : Choice F A} {event : Event F A}
      (h : Reached start s events) (hStep : s.step choice = some (s', event)) :
      Reached start s' (events ++ [event])

section Perform
variable [Inhabited F] [Inhabited A]

def perform (s : Pool F A) : List (Choice F A) → Option (Pool F A × List (Event F A))
  | [] => some (s, [])
  | choice :: choices => do
    let (s, event) ← s.step choice
    let (s, events) ← perform s choices
    return (s, event :: events)

theorem reached_perform {start s s' : Pool F A} {events events' : List (Event F A)} {choices : List (Choice F A)}
    (h : Reached start s events) (hPerform : perform s choices = some (s', events')) :
    Reached start s' (events ++ events') := by
  induction choices generalizing s events events' with
  | nil =>
    cases hPerform
    rwa [List.append_nil]
  | cons choice choices ih =>
    rw [perform] at hPerform
    obtain ⟨⟨s₁, event⟩, hStep, hRest⟩ := Option.bind_eq_some_iff.mp hPerform
    obtain ⟨⟨s₂, rest⟩, hRun, hEq⟩ := Option.bind_eq_some_iff.mp hRest
    cases hEq
    have hReached := ih (h.step hStep) hRun
    rwa [List.append_assoc] at hReached

end Perform

/-! ## What is observed -/

/-- The tasks of a round: those `thread_add_work` took, and those every thread started and finished. -/
structure Round (F A : Type) where
  accepted : List (Job F A)
  started : Nat → List (Job F A)
  finished : Nat → List (Job F A)

def Round.empty : Round F A := ⟨[], fun _ => [], fun _ => []⟩

/-- The task taken at place `m` is called once, by the thread `m`, and no other task is called. -/
structure Round.Exact (round : Round F A) : Prop where
  started : ∀ m, round.started m = round.accepted[m]?.toList
  finished : ∀ m, round.finished m = round.accepted[m]?.toList

/-- The rounds that are over, the one that is not, whether `thread_do_work` runs, and the calls outside it. -/
structure Log (F A : Type) where
  rounds : List (Round F A)
  current : Round F A
  working : Bool
  strays : List (Job F A)

namespace Log

def empty : Log F A := ⟨[], .empty, false, []⟩

def addTo (calls : Nat → List (Job F A)) (m : Nat) (job : Job F A) : Nat → List (Job F A) :=
  Function.update calls m (calls m ++ [job])

def record (log : Log F A) : Event F A → Log F A
  | .added job ret =>
    if ret = 0 then { log with current := { log.current with accepted := log.current.accepted ++ [job] } } else log
  | .called => { log with working := true }
  | .started m job =>
    if log.working then { log with current := { log.current with started := addTo log.current.started m job } }
    else { log with strays := log.strays ++ [job] }
  | .finished m job =>
    if log.working then { log with current := { log.current with finished := addTo log.current.finished m job } }
    else { log with strays := log.strays ++ [job] }
  | .returned => ⟨log.rounds ++ [log.current], .empty, false, log.strays⟩
  | .silent => log

def of (events : List (Event F A)) : Log F A := events.foldl record empty

theorem of_append (events : List (Event F A)) (event : Event F A) : of (events ++ [event]) = (of events).record event :=
  List.foldl_concat ..

end Log
end Bisen.ThreadPool
