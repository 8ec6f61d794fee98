import Bisen.Lib.Fairness
import Bisen.ThreadRoundsKept
import Mathlib.Algebra.BigOperators.Group.Finset.Basic

/-! # Progress of the thread pool

No wake-up is lost: inside `thread_do_work` some thread can always take a step that brings its end closer, so that
it returns under every fair schedule. Waking up for no reason costs nothing and brings nothing.
-/
namespace Bisen.ThreadProgress
open ThreadPool ThreadRounds
set_option autoImplicit false

variable {F A : Type}

/-! ## The measure -/

/-- The thread whose step brings the end of `thread_do_work` closer. -/
def helper (s : Pool F A) : Choice F A :=
  match s.main with
  | .collect i => if i < s.nrTasks ∧ (s.threads i).done = false then .worker i else .main
  | .asleep i => .worker i
  | _ => .main

def mainWeight (s : Pool F A) : Nat :=
  match s.main with
  | .client => 0
  | .dispatch i => 7 * (s.nrTasks - i) + 3 * s.nrTasks + 4
  | .notify i => 7 * (s.nrTasks - (i + 1)) + 3 * s.nrTasks + 6
  | .mainTask => 3 * s.nrTasks + 3
  | .inMainTask _ => 3 * s.nrTasks + 2
  | .collect i => 3 * (s.nrTasks - i) + 1
  | .asleep i => 3 * (s.nrTasks - i) + 1 + if (s.threads i).done then 1 else 0
  | .reset i => 3 * (s.nrTasks - i)

/-- How much a thread has before it, a late notification included. -/
def workerWeight (t : ThreadData F A) (pc : WorkerPc F A) : Nat :=
  (if t.ready then if pc.isRunning then 3 else 4 else 0) +
    match pc with
    | .notify => 1
    | _ => 0

def workersWeight (s : Pool F A) : Nat :=
  (Finset.range s.enteredThreads).sum fun j => workerWeight (s.threads j) (s.workers j)

def weight (s : Pool F A) : Nat := mainWeight s + workersWeight s

section Weights
variable {s s' : Pool F A} {i : Nat}

/-- Only the thread `i` has changed. -/
theorem workersWeight_change (hi : i < s.enteredThreads) (t : ThreadData F A) (pc : WorkerPc F A) :
    workersWeight ((s.setThread i t).setWorker i pc) + workerWeight (s.threads i) (s.workers i) =
      workersWeight s + workerWeight t pc := by
  have hMem : i ∈ Finset.range s.enteredThreads := Finset.mem_range.mpr hi
  have hThread : ∀ j, (s.setThread i t).threads j = if j = i then t else s.threads j := s.threads_setThread i t
  have hWorker : ∀ j, ((s.setThread i t).setWorker i pc).workers j = if j = i then pc else s.workers j :=
    (s.setThread i t).workers_setWorker i pc
  have hRest : ((Finset.range s.enteredThreads).erase i).sum
      (fun j => workerWeight ((s.setThread i t).threads j) (((s.setThread i t).setWorker i pc).workers j)) =
      ((Finset.range s.enteredThreads).erase i).sum fun j => workerWeight (s.threads j) (s.workers j) := by
    apply Finset.sum_congr rfl
    intro j hj
    have hNe := Finset.ne_of_mem_erase hj
    rw [hThread, hWorker, if_neg hNe, if_neg hNe]
  have hOld := Finset.add_sum_erase _ (fun j => workerWeight (s.threads j) (s.workers j)) hMem
  have hNew := Finset.add_sum_erase _
    (fun j => workerWeight ((s.setThread i t).threads j) (((s.setThread i t).setWorker i pc).workers j)) hMem
  simp only [hThread i, hWorker i, if_true] at hNew
  change (Finset.range s.enteredThreads).sum
    (fun j => workerWeight ((s.setThread i t).threads j) (((s.setThread i t).setWorker i pc).workers j)) + _ =
      (Finset.range s.enteredThreads).sum (fun j => workerWeight (s.threads j) (s.workers j)) + _
  omega

/-- A change that weighs nothing. -/
theorem workersWeight_same (t : ThreadData F A) (pc : WorkerPc F A)
    (hSame : workerWeight t pc = workerWeight (s.threads i) (s.workers i)) :
    workersWeight ((s.setThread i t).setWorker i pc) = workersWeight s := by
  apply Finset.sum_congr rfl
  intro j _
  have hThread : (s.setThread i t).threads j = if j = i then t else s.threads j := s.threads_setThread i t j
  have hWorker : ((s.setThread i t).setWorker i pc).workers j = if j = i then pc else s.workers j :=
    (s.setThread i t).workers_setWorker i pc j
  change workerWeight ((s.setThread i t).threads j) _ = _
  rw [hThread, hWorker]
  obtain rfl | hNe := eq_or_ne j i
  · rw [if_pos rfl, if_pos rfl, hSame]
  · rw [if_neg hNe, if_neg hNe]

theorem workersWeight_setWorker {pc : WorkerPc F A}
    (hSame : workerWeight (s.threads i) pc = workerWeight (s.threads i) (s.workers i)) :
    workersWeight (s.setWorker i pc) = workersWeight s := by
  have hWeight := workersWeight_same (s.threads i) pc hSame
  rwa [setThread_self] at hWeight

theorem workersWeight_setThread {t : ThreadData F A}
    (hSame : workerWeight t (s.workers i) = workerWeight (s.threads i) (s.workers i)) :
    workersWeight (s.setThread i t) = workersWeight s := by
  have hWeight := workersWeight_same t (s.workers i) hSame
  have hWorker : (s.setThread i t).setWorker i (s.workers i) = s.setThread i t := setWorker_self (s.setThread i t) i
  rwa [hWorker] at hWeight

theorem workersWeight_wakeWorker (s : Pool F A) (i : Nat) : workersWeight (s.wakeWorker i) = workersWeight s := by
  rw [wakeWorker_eq]
  apply workersWeight_setWorker
  cases s.workers i <;> rfl

end Weights

/-! ## What a step brings -/

/-- The end is reached or closer, or neither the distance nor the helper has changed, who has not moved. -/
def Closer (s : Pool F A) (choice : Option (Choice F A)) (s' : Pool F A) : Prop :=
  isClient s'.main = true ∨ weight s' < weight s ∨
    weight s' = weight s ∧ helper s' = helper s ∧ choice ≠ some (helper s)

section Steps
variable {s : Pool F A} {log : Log F A} {i : Nat}

/-- The main thread moves on from a state in which the others weigh the same. -/
theorem weight_lt {s₁ : Pool F A} {main : MainPc F A} (hWorkers : workersWeight s₁ = workersWeight s)
    (hMain : mainWeight { s₁ with main := main } < mainWeight s) : weight { s₁ with main := main } < weight s := by
  change mainWeight { s₁ with main := main } + workersWeight s₁ < _
  rw [hWorkers]
  exact Nat.add_lt_add_right hMain _

/-- The main thread starts or stops waiting for a thread that is not done, and that thread helps. -/
theorem closer_wait {choice : Choice F A} {main : MainPc F A}
    (hMain : s.main = .collect i ∧ main = .asleep i ∨ s.main = .asleep i ∧ main = .collect i) (hLt : i < s.nrTasks)
    (hDone : (s.threads i).done = false) (hOther : choice ≠ .worker i) :
    Closer s (some choice) { s with main := main } := by
  right; right
  obtain ⟨hMain, rfl⟩ | ⟨hMain, rfl⟩ := hMain
  all_goals
    have hHelper : helper s = .worker i := by
      simp only [helper, hMain, hLt, hDone, and_self, if_true]
    refine ⟨?_, ?_, ?_⟩
    · simp only [weight, mainWeight, hMain, hDone, Bool.false_eq_true, if_false]
      rfl
    · rw [hHelper]
      simp only [helper, hLt, hDone, and_self, if_true]
    · rw [hHelper]
      exact fun hSome => hOther (Option.some.inj hSome)

theorem mainWeight_finish (t : ThreadData F A) (pc : WorkerPc F A) :
    mainWeight ((s.setThread i t).setWorker i pc) ≤ mainWeight s + 1 := by
  have hMain : ((s.setThread i t).setWorker i pc).main = s.main := rfl
  have hTasks : ((s.setThread i t).setWorker i pc).nrTasks = s.nrTasks := rfl
  rw [mainWeight, mainWeight, hMain, hTasks]
  cases s.main with
  | asleep j =>
    simp only
    split <;> split <;> omega
  | _ => exact Nat.le_succ _

theorem mainWeight_wakeMain (s : Pool F A) (i : Nat) : mainWeight (s.wakeMain i) ≤ mainWeight s := by
  rw [Pool.wakeMain]
  split
  · case h_1 j hMain =>
    split
    · case isTrue hEq =>
      subst hEq
      simp only [mainWeight, hMain]
      omega
    · exact Nat.le_refl _
  · exact Nat.le_refl _

theorem wakeMain_fields (s : Pool F A) (i : Nat) : (s.wakeMain i).threads = s.threads ∧
    (s.wakeMain i).workers = s.workers ∧ (s.wakeMain i).enteredThreads = s.enteredThreads := by
  rw [Pool.wakeMain]
  split
  · split <;> exact ⟨rfl, rfl, rfl⟩
  · exact ⟨rfl, rfl, rfl⟩

theorem start_lt (hi : i < s.enteredThreads) (hPc : s.workers i = .check) (hReady : (s.threads i).ready = true)
    (job : Job F A) : weight (s.setWorker i (.running job)) < weight s := by
  have hChange := workersWeight_change hi (s.threads i) (.running job)
  rw [setThread_self] at hChange
  simp only [workerWeight, hReady, hPc, WorkerPc.isRunning, if_true, Bool.false_eq_true, if_false] at hChange
  change mainWeight s + workersWeight (s.setWorker i _) < mainWeight s + workersWeight s
  omega

theorem notified_lt (hi : i < s.enteredThreads) (hPc : s.workers i = .notify) :
    weight ((s.wakeMain i).setWorker i .check) < weight s := by
  obtain ⟨hThreads, hWorkers, hEntered⟩ := wakeMain_fields s i
  have hChange := workersWeight_change (hEntered ▸ hi) ((s.wakeMain i).threads i) .check
  rw [setThread_self, hThreads, hWorkers] at hChange
  have hWake := mainWeight_wakeMain s i
  have hSame : workersWeight (s.wakeMain i) = workersWeight s := by
    rw [workersWeight, workersWeight, hThreads, hWorkers, hEntered]
  change mainWeight (s.wakeMain i) + workersWeight ((s.wakeMain i).setWorker i .check) < _
  simp only [workerWeight, hPc, WorkerPc.isRunning, Bool.false_eq_true, if_false] at hChange
  unfold weight
  omega

variable (h : Inv s log)
include h

theorem tell_lt (hMain : s.main = .dispatch i) (hLt : i < s.nrTasks) {t : ThreadData F A} (hTold : t.ready = true) :
    weight { s.setThread i t with main := .notify i } < weight s := by
  obtain ⟨_, hReady, _, hPc, _⟩ := (h.slotAt hMain (stageOf_dispatch hLt)).before_inv
  have hChange := workersWeight_change (Nat.lt_of_lt_of_le hLt h.room) t (s.workers i)
  have hMore : workerWeight t (s.workers i) = workerWeight (s.threads i) (s.workers i) + 4 := by
    simp only [workerWeight, hReady, hTold, hPc, if_true, Bool.false_eq_true, if_false]
    omega
  have hSame : (s.setThread i t).setWorker i (s.workers i) = s.setThread i t := setWorker_self (s.setThread i t) i
  rw [hSame, hMore] at hChange
  change 7 * (s.nrTasks - (i + 1)) + 3 * s.nrTasks + 6 + workersWeight (s.setThread i t) < _
  rw [weight, mainWeight, hMain]
  simp only
  omega

/-- Somebody has to be able to move. -/
theorem helper_worker {j : Nat} (hHelper : helper s = .worker j) :
    j < s.nrTasks ∧ s.workers j ≠ .asleep ∧ (s.workers j = .check → (s.threads j).ready = true) := by
  unfold helper at hHelper
  split at hHelper
  · case h_1 i hMain =>
    split at hHelper
    · case isTrue hOpen =>
      obtain rfl := Choice.worker.inj hHelper
      obtain ⟨hAwake, hReady⟩ := (h.slotAt hMain (stageOf_collect hOpen.1)).of_given hOpen.2
      exact ⟨hOpen.1, hAwake, fun _ => hReady⟩
    · cases hHelper
  · case h_2 i hMain =>
    obtain rfl := Choice.worker.inj hHelper
    have hLt := h.lt_nrTasks (.inr (.inl hMain))
    exact ⟨hLt, (h.slotAt hMain (stageOf_asleep hLt)).of_awaited⟩
  · cases hHelper

theorem finish_lt {job : Job F A} (hi : i < s.enteredThreads) (hPc : s.workers i = .running job) {t : ThreadData F A}
    (hOver : t.ready = false) : weight ((s.setThread i t).setWorker i .notify) < weight s := by
  have hReady : (s.threads i).ready = true := (h.slots i).ready_of_running hPc
  have hChange := workersWeight_change hi t .notify
  have hMain : mainWeight ((s.setThread i t).setWorker i .notify) ≤ mainWeight s + 1 := mainWeight_finish t .notify
  simp only [workerWeight, hReady, hOver, hPc, WorkerPc.isRunning, if_true, Bool.false_eq_true, if_false] at hChange
  unfold weight
  omega

theorem closer_of_move [Inhabited F] [Inhabited A] {choice : Choice F A} {s' : Pool F A} {event : Event F A}
    (hBusy : ¬ isClient s.main = true) (hMove : s.Move choice s' event) : Closer s (some choice) s' := by
  cases hMove with
  | added hMain =>
    rw [hMain] at hBusy
    exact absurd rfl hBusy
  | called hMain =>
    rw [hMain] at hBusy
    exact absurd rfl hBusy
  | tell hMain hLt => exact .inr (.inl (tell_lt h hMain hLt rfl))
  | toldAll hMain hEnd =>
    refine .inr (.inl (weight_lt rfl ?_))
    simp only [mainWeight, hMain]
    omega
  | @notify i hMain =>
    have hLt := h.lt_nrTasks (.inl hMain)
    refine .inr (.inl (weight_lt (workersWeight_wakeWorker s i) ?_))
    have hTasks : (s.wakeWorker i).nrTasks = s.nrTasks := by rw [wakeWorker_eq]; rfl
    simp only [mainWeight, hMain, hTasks]
    omega
  | startMain hMain =>
    refine .inr (.inl (weight_lt rfl ?_))
    simp only [mainWeight, hMain]
    omega
  | finishMain hMain =>
    refine .inr (.inl (weight_lt rfl ?_))
    simp only [mainWeight, hMain]
    omega
  | seen hMain =>
    refine .inr (.inl (weight_lt rfl ?_))
    simp only [mainWeight, hMain]
    omega
  | wait hMain hLt hDone =>
    have hOther : ∀ i, (.main : Choice F A) ≠ .worker i := by simp
    exact closer_wait (.inl ⟨hMain, rfl⟩) hLt hDone (hOther _)
  | returned => exact .inl rfl
  | reset hMain =>
    have hLt := h.lt_nrTasks (.inr (.inr hMain))
    refine .inr (.inl (weight_lt (workersWeight_setThread rfl) ?_))
    simp only [mainWeight, hMain, Pool.setThread]
    omega
  | started hi hPc hReady => exact .inr (.inl (start_lt hi hPc hReady _))
  | @slept i hPc hReady =>
    right; right
    refine ⟨?_, rfl, fun hSome => ?_⟩
    · change mainWeight s + workersWeight (s.setWorker i .asleep) = mainWeight s + workersWeight s
      rw [workersWeight_setWorker]
      simp only [workerWeight, hReady, hPc, Bool.false_eq_true, if_false]
    · have hSet := (helper_worker h (Option.some.inj hSome).symm).2.2 hPc
      rw [hReady] at hSet
      cases hSet
  | finished hi hPc => exact .inr (.inl (finish_lt h hi hPc rfl))
  | notified hi hPc => exact .inr (.inl (notified_lt hi hPc))
  | @lookAgain i hMain =>
    cases hDone : (s.threads i).done with
    | true =>
      refine .inr (.inl (weight_lt rfl ?_))
      simp only [mainWeight, hMain, hDone, if_true]
      omega
    | false =>
      have hOther : (.wakeMain : Choice F A) ≠ .worker i := by simp
      exact closer_wait (.inr ⟨hMain, rfl⟩) (h.lt_nrTasks (.inr (.inl hMain))) hDone hOther
  | @roused i hPc =>
    right; right
    refine ⟨?_, rfl, ?_⟩
    · change mainWeight s + workersWeight (s.setWorker i .check) = mainWeight s + workersWeight s
      rw [workersWeight_setWorker]
      rw [hPc]
      rfl
    · rw [helper]
      split
      · split <;> simp
      · simp
      · simp

end Steps

/-! ## Schedules -/

section Schedule
variable [Inhabited F] [Inhabited A] {s s' : Pool F A} {log : Log F A}

/-- A choice is taken, or nothing happens. -/
def Takes (s : Pool F A) (choice : Option (Choice F A)) (s' : Pool F A) : Prop :=
  match choice with
  | none => s' = s
  | some choice => ∃ event, s.step choice = some (s', event)

/-- A thread can go on. Nothing is expected of the client, and nobody need wake up for no reason. -/
def CanMove (choice : Choice F A) (s : Pool F A) : Prop :=
  match choice with
  | .main | .worker _ => (s.step choice).isSome = true
  | _ => False

theorem Inv.takes (h : ThreadRounds.Inv s log) (hBusy : ¬ isClient s.main = true) {choice : Option (Choice F A)}
    (hTakes : Takes s choice s') : Closer s choice s' := by
  cases choice with
  | none =>
    cases hTakes
    exact .inr (.inr ⟨rfl, rfl, nofun⟩)
  | some choice =>
    obtain ⟨event, hStep⟩ := hTakes
    exact closer_of_move h hBusy (Pool.move_of_step hStep)

theorem canMove_worker {i : Nat} (hi : i < s.enteredThreads) (hAwake : s.workers i ≠ .asleep) :
    CanMove (.worker i) s := by
  change (if i < s.enteredThreads then s.stepWorker i else none).isSome = true
  rw [if_pos hi, Pool.stepWorker]
  split
  · split <;> rfl
  · case h_2 hPc => exact absurd hPc hAwake
  · rfl
  · rfl

/-- Inside `thread_do_work` the helper is never blocked. -/
theorem Inv.canMove (h : ThreadRounds.Inv s log) (hBusy : ¬ isClient s.main = true) : CanMove (helper s) s := by
  cases hHelper : helper s with
  | worker j =>
    obtain ⟨hLt, hAwake, _⟩ := helper_worker h hHelper
    exact canMove_worker (Nat.lt_of_lt_of_le hLt h.room) hAwake
  | main =>
    change s.stepMain.isSome = true
    unfold Pool.stepMain
    split
    · case h_1 hMain =>
      rw [hMain] at hBusy
      exact absurd rfl hBusy
    · case h_2 i hMain =>
      split
      · case isTrue hLt =>
        obtain ⟨_, _, _, hPc, _⟩ := (h.slotAt hMain (stageOf_dispatch hLt)).before_inv
        rw [hPc]
        rfl
      · rfl
    · rfl
    · rfl
    · rfl
    · case h_6 i hMain =>
      split
      · case isTrue hLt =>
        have hDone : (s.threads i).done = true := by
          by_contra hOpen
          rw [helper, hMain] at hHelper
          simp only [hLt, Bool.eq_false_iff.mpr hOpen, and_self, if_true] at hHelper
          cases hHelper
        rw [(h.slots i).isRunning_of_done hDone, hDone]
        rfl
      · rfl
    · case h_7 i hMain =>
      rw [helper, hMain] at hHelper
      cases hHelper
    · rfl
  | _ =>
    unfold helper at hHelper
    split at hHelper
    · split at hHelper <;> cases hHelper
    · cases hHelper
    · cases hHelper

theorem helps : Fairness.Helps (Takes (F := F) (A := A)) CanMove (fun s => ∃ log, ThreadRounds.Inv s log)
    (fun s => isClient s.main = true) weight helper := by
  constructor
  · rintro s ⟨log, h⟩ hBusy
    exact Inv.canMove h hBusy
  · rintro s choice s' ⟨log, h⟩ hBusy hTakes
    exact Inv.takes h hBusy hTakes

end Schedule

/-! ## The pool -/

section Pool
variable [Inhabited F] [Inhabited A]

theorem run_inv {n : Nat} {memory : Nat → F} (ρ : Fairness.Run (Takes (F := F) (A := A)) CanMove)
    (hStart : ρ.state 0 = Pool.init n memory) (k : Nat) : ∃ log, ThreadRounds.Inv (ρ.state k) log := by
  induction k with
  | zero =>
    rw [hStart]
    exact ⟨Log.empty, inv_init n memory⟩
  | succ k ih =>
    obtain ⟨log, h⟩ := ih
    have hTakes := ρ.steps k
    cases hActor : ρ.actor k with
    | none =>
      rw [hActor] at hTakes
      have hSame : ρ.state (k + 1) = ρ.state k := hTakes
      rw [hSame]
      exact ⟨log, h⟩
    | some choice =>
      rw [hActor] at hTakes
      obtain ⟨event, hStep⟩ := hTakes
      exact ⟨log.record event, h.step hStep⟩

/-- In every round that is over each accepted task was called once and returned, by its own thread, and no other
was; nothing is called outside `thread_do_work`, which leaves the pool idle and, under a fair schedule, always
returns. -/
theorem each_task_once (n : Nat) (memory : Nat → F) :
    (∀ s events, Reached (Pool.init n memory : Pool F A) s events →
      (∀ round ∈ (Log.of events).rounds, round.Exact) ∧ (Log.of events).strays = [] ∧
      ∀ choice s', s.step choice = some (s', .returned) → s'.Idle) ∧
    ∀ ρ : Fairness.Run (Takes (F := F) (A := A)) CanMove, ρ.state 0 = Pool.init n memory →
      ∀ k, ∃ m, k ≤ m ∧ (ρ.state m).main = .client := by
  constructor
  · intro s events hReached
    have h := reached_inv hReached
    exact ⟨h.exact, h.noStrays, fun choice s' hStep => h.idle_of_returned hStep⟩
  · intro ρ hStart k
    obtain ⟨m, hm, hClient⟩ := ρ.reaches helps (run_inv ρ hStart) k
    refine ⟨m, hm, ?_⟩
    cases hMain : (ρ.state m).main with
    | client => rfl
    | _ =>
      rw [hMain] at hClient
      cases hClient

end Pool

/-- Choices that end where no thread can move are those of a fair run. -/
theorem exists_run_of_perform [Inhabited F] [Inhabited A] {s s' : Pool F A} {choices : List (Choice F A)}
    {events : List (Event F A)} (h : perform s choices = some (s', events)) (hQuiet : ∀ choice, ¬ CanMove choice s') :
    ∃ ρ : Fairness.Run (Takes (F := F) (A := A)) CanMove, ρ.state 0 = s ∧ ∀ k, ρ.actor k = choices[k]? := by
  induction choices generalizing s events with
  | nil =>
    cases h
    exact ⟨.rest s' rfl hQuiet, rfl, fun _ => rfl⟩
  | cons choice choices ih =>
    rw [perform] at h
    obtain ⟨⟨s₁, event⟩, hStep, hRest⟩ := Option.bind_eq_some_iff.mp h
    obtain ⟨⟨s₂, rest⟩, hRun, hEq⟩ := Option.bind_eq_some_iff.mp hRest
    cases hEq
    obtain ⟨ρ, hStart, hActor⟩ := ih hRun
    have hTakes : Takes s (some choice) (ρ.state 0) := by
      rw [hStart]
      exact ⟨event, hStep⟩
    refine ⟨.cons s (some choice) ρ hTakes, rfl, fun k => ?_⟩
    cases k with
    | zero => rfl
    | succ k => exact hActor k

/-- One thread and three tasks, the last of which is turned down. The main thread wakes up once for no reason, and
returns before it has been notified; the thread goes back to sleep. -/
def threeTasks : List (Choice Nat Nat) :=
  [.addWork ⟨1, 10⟩, .worker 0, .addWork ⟨2, 20⟩, .addWork ⟨3, 30⟩, .doWork, .main, .main, .main, .main, .main,
    .main, .wakeMain, .worker 0, .worker 0, .main, .main, .main, .worker 0, .worker 0]

/-- The choices as a fair run: after them everybody sleeps. -/
theorem exists_run_threeTasks :
    ∃ ρ : Fairness.Run (Takes (F := Nat) (A := Nat)) CanMove, ρ.state 0 = Pool.init 1 (fun _ => 0) ∧
      ∀ k, ρ.actor k = threeTasks[k]? := by
  obtain ⟨⟨s, events⟩, hPerform⟩ : ∃ p, perform (Pool.init 1 fun _ => 0) threeTasks = some p := ⟨_, rfl⟩
  have hLast : (perform (Pool.init 1 fun _ => 0) threeTasks).map
      (fun p => (p.1.main, p.1.workers 0, p.1.enteredThreads)) = some (.client, .asleep, 1) := rfl
  rw [hPerform] at hLast
  obtain ⟨hMain, hRest⟩ := Prod.mk.inj (Option.some.inj hLast)
  obtain ⟨hAsleep, hOne⟩ := Prod.mk.inj hRest
  have hOne : s.enteredThreads = 1 := hOne
  refine exists_run_of_perform hPerform fun choice hMove => ?_
  cases choice with
  | main =>
    change s.stepMain.isSome = true at hMove
    rw [Pool.stepMain, hMain] at hMove
    cases hMove
  | worker i =>
    change (if i < s.enteredThreads then s.stepWorker i else none).isSome = true at hMove
    split at hMove
    · case isTrue hi =>
      obtain rfl : i = 0 := by omega
      rw [Pool.stepWorker, hAsleep] at hMove
      cases hMove
    · cases hMove
  | _ => exact hMove

theorem each_task_once_threeTasks :
    (∃ s events, Reached (Pool.init 1 fun _ => 0) s events ∧
      ∃ round, (Log.of events).rounds = [round] ∧ round.accepted = [⟨1, 10⟩, ⟨2, 20⟩] ∧ round.Exact) ∧
    ∃ ρ : Fairness.Run (Takes (F := Nat) (A := Nat)) CanMove, ρ.state 0 = Pool.init 1 (fun _ => 0) ∧
      ρ.actor 4 = some .doWork ∧ ∃ m, 5 ≤ m ∧ (ρ.state m).main = .client := by
  obtain ⟨hOnce, hReturns⟩ := each_task_once (F := Nat) (A := Nat) 1 fun _ => 0
  constructor
  · obtain ⟨⟨s, events⟩, hPerform⟩ : ∃ p, perform (Pool.init 1 fun _ => 0) threeTasks = some p := ⟨_, rfl⟩
    have hReached : Reached (Pool.init 1 fun _ => 0) s ([] ++ events) := reached_perform .start hPerform
    have hAccepted : (perform (Pool.init 1 fun _ => 0) threeTasks).map
        (fun p => (Log.of p.2).rounds.map Round.accepted) = some [[⟨1, 10⟩, ⟨2, 20⟩]] := rfl
    rw [hPerform] at hAccepted
    obtain ⟨round, rest, hRounds, hRound, hRest⟩ := List.map_eq_cons_iff.mp (Option.some.inj hAccepted)
    obtain rfl := List.map_eq_nil_iff.mp hRest
    refine ⟨s, events, hReached, round, hRounds, hRound, ?_⟩
    apply (hOnce s events hReached).1
    rw [hRounds]
    exact List.mem_singleton_self round
  · obtain ⟨ρ, hStart, hActor⟩ := exists_run_threeTasks
    exact ⟨ρ, hStart, hActor 4, hReturns ρ hStart 5⟩

end Bisen.ThreadProgress
