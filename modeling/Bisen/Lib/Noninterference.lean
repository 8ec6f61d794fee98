import Bisen.Lib.Simulation

/-! # Agents that share one machine

Every event belongs to an agent. An agent is undisturbed when the shared run answers its events as
the machine would with no other events at all. The unwinding conditions speak about one step: an
agent's own step goes the same way in the shared and in the lone run, and another agent's step is
invisible to it. A step may fail, and the shared run goes through exactly when the lone ones do.
-/
namespace Noninterference
open Simulation
set_option autoImplicit false

universe u v
variable {ι : Type v} {ε : Type*} {α : Type v} {σ β : Type u}

/-- The part of a trace that belongs to one agent. -/
def own {γ : Type*} [DecidableEq ι] (c : ι) (trace : List (ι × γ)) : List (ι × γ) := trace.filter (·.1 = c)

section Own
variable {γ : Type*} [DecidableEq ι] {c d : ι}

@[simp] theorem own_nil : own c ([] : List (ι × γ)) = [] := rfl

@[simp] theorem own_append (pre post : List (ι × γ)) : own c (pre ++ post) = own c pre ++ own c post :=
  List.filter_append ..

theorem own_cons_self (x : γ) (trace : List (ι × γ)) : own c ((c, x) :: trace) = (c, x) :: own c trace :=
  List.filter_cons_of_pos (decide_eq_true rfl)

theorem own_cons_of_ne (h : d ≠ c) (x : γ) (trace : List (ι × γ)) : own c ((d, x) :: trace) = own c trace :=
  List.filter_cons_of_neg (by simpa using h)

theorem own_own_self (trace : List (ι × γ)) : own c (own c trace) = own c trace := by
  rw [own, own, List.filter_filter]
  simp only [Bool.and_self]

theorem own_own_of_ne (h : c ≠ d) (trace : List (ι × γ)) : own d (own c trace) = [] := by
  rw [own, List.filter_eq_nil_iff]
  intro e he
  obtain ⟨_, hOwn⟩ := List.mem_filter.mp he
  rw [of_decide_eq_true hOwn]
  simpa using h

theorem own_map {δ : Type*} (f : γ → δ) (trace : List (ι × γ)) :
    own c (trace.map fun e => (e.1, f e.2)) = (own c trace).map fun e => (e.1, f e.2) := List.filter_map

end Own

/-- The answers of a step that may have none, under the name of its agent. -/
def tagged (c : ι) (answer : Option β) : List (ι × β) := answer.toList.map (Prod.mk c)

theorem own_tagged_self [DecidableEq ι] (c : ι) (answer : Option β) : own c (tagged c answer) = tagged c answer := by
  cases answer with
  | none => rfl
  | some x => exact own_cons_self x []

theorem own_tagged_of_ne [DecidableEq ι] {c d : ι} (h : d ≠ c) (answer : Option β) : own c (tagged d answer) = [] := by
  cases answer with
  | none => rfl
  | some x => exact own_cons_of_ne h x []

variable (step : σ → ι → α → Except ε (σ × Option β))

def run : σ → List (ι × α) → Except ε (σ × List (ι × β))
  | s, [] => .ok (s, [])
  | s, (c, a) :: events => match step s c a with
    | .error e => .error e
    | .ok (s, answer) => match run s events with
      | .error e => .error e
      | .ok (s, answers) => .ok (s, tagged c answer ++ answers)

variable {step}

theorem run_cons_iff {s s' : σ} {c : ι} {a : α} {events : List (ι × α)} {answers : List (ι × β)} :
    run step s ((c, a) :: events) = .ok (s', answers) ↔
      ∃ s₁ answer rest, step s c a = .ok (s₁, answer) ∧ run step s₁ events = .ok (s', rest) ∧
        answers = tagged c answer ++ rest := by
  rw [run]
  constructor
  · intro h
    split at h
    · cases h
    · case h_2 s₁ answer hStep =>
      split at h
      · cases h
      · case h_2 s₂ rest hRest =>
        cases h
        exact ⟨s₁, answer, rest, hStep, hRest, rfl⟩
  · rintro ⟨s₁, answer, rest, hStep, hRest, rfl⟩
    simp only [hStep, hRest]

/-- Together the agents get what each of them gets alone. -/
structure Undisturbed [DecidableEq ι] (step : σ → ι → α → Except ε (σ × Option β)) (s : σ) (events : List (ι × α)) :
    Prop where
  answers : ∀ s' answers, run step s events = .ok (s', answers) →
    ∀ c, ∃ t, run step s (own c events) = .ok (t, own c answers)
  completes : (∀ c, ∃ t answers, run step s (own c events) = .ok (t, answers)) →
    ∃ s' answers, run step s events = .ok (s', answers)

/-- `R past s t`: the events in `past` led to `s`, and those of agent `c` alone to `t`. -/
structure Unwinding (step : σ → ι → α → Except ε (σ × Option β)) (Allowed : List (ι × α) → Prop) (c : ι)
    (R : List (ι × α) → σ → σ → Prop) : Prop where
  lockstep : ∀ past a s t, Allowed (past ++ [(c, a)]) → R past s t →
    Rel (fun _ _ => True) (fun x y => R (past ++ [(c, a)]) x.1 y.1 ∧ x.2 = y.2) (step s c a) (step t c a)
  unseen : ∀ past d a s s' t answer, d ≠ c → Allowed (past ++ [(d, a)]) → R past s t →
    step s d a = .ok (s', answer) → R (past ++ [(d, a)]) s' t

section Unwind
variable {Allowed : List (ι × α) → Prop} (hPrefix : ∀ pre post, Allowed (pre ++ post) → Allowed pre)

include hPrefix

theorem allowed_next {past events : List (ι × α)} {e : ι × α} (h : Allowed (past ++ e :: events)) :
    Allowed (past ++ [e]) ∧ Allowed ((past ++ [e]) ++ events) := by
  rw [← List.append_cons]
  refine ⟨hPrefix _ events ?_, h⟩
  rwa [← List.append_cons]

variable [DecidableEq ι]

theorem Unwinding.run_own {c : ι} {R : List (ι × α) → σ → σ → Prop} (h : Unwinding step Allowed c R)
    {past events : List (ι × α)} (hAllowed : Allowed (past ++ events)) {s s' t : σ} {answers : List (ι × β)}
    (hRel : R past s t) (hRun : run step s events = .ok (s', answers)) :
    ∃ t', run step t (own c events) = .ok (t', own c answers) := by
  induction events generalizing past s t answers with
  | nil =>
    cases hRun
    exact ⟨t, rfl⟩
  | cons e events ih =>
    obtain ⟨d, a⟩ := e
    obtain ⟨hHead, hTail⟩ := allowed_next hPrefix hAllowed
    obtain ⟨s₁, answer, rest, hStep, hRest, rfl⟩ := run_cons_iff.mp hRun
    rw [own_append]
    obtain rfl | hOwn := eq_or_ne d c
    · obtain ⟨⟨t₁, _⟩, hAlone, hNext, rfl⟩ := (h.lockstep past a s t hHead hRel).exists_ok hStep
      obtain ⟨t', hLone⟩ := ih hTail hNext hRest
      refine ⟨t', ?_⟩
      rw [own_cons_self, own_tagged_self, run_cons_iff]
      exact ⟨t₁, _, _, hAlone, hLone, rfl⟩
    · obtain ⟨t', hLone⟩ := ih hTail (h.unseen past d a s s₁ t answer hOwn hHead hRel hStep) hRest
      refine ⟨t', ?_⟩
      rw [own_cons_of_ne hOwn, own_tagged_of_ne hOwn, List.nil_append]
      exact hLone

theorem Unwinding.run_completes {R : ι → List (ι × α) → σ → σ → Prop}
    (h : ∀ c, Unwinding step Allowed c (R c)) {past events : List (ι × α)} (hAllowed : Allowed (past ++ events))
    {s : σ} {t : ι → σ} (hRel : ∀ c, R c past s (t c))
    (hAlone : ∀ c, ∃ t' answers, run step (t c) (own c events) = .ok (t', answers)) :
    ∃ s' answers, run step s events = .ok (s', answers) := by
  induction events generalizing past s t with
  | nil => exact ⟨s, [], rfl⟩
  | cons e events ih =>
    obtain ⟨d, a⟩ := e
    obtain ⟨hHead, hTail⟩ := allowed_next hPrefix hAllowed
    obtain ⟨t', answers, hLone⟩ := hAlone d
    rw [own_cons_self, run_cons_iff] at hLone
    obtain ⟨t₁, answer, rest, hStep, hLone, _⟩ := hLone
    obtain ⟨⟨s₁, answer₁⟩, hShared, hNext, _⟩ := ((h d).lockstep past a s (t d) hHead (hRel d)).flip.exists_ok hStep
    have hRel₁ : ∀ c, R c (past ++ [(d, a)]) s₁ (Function.update t d t₁ c) := by
      intro c
      obtain rfl | hOwn := eq_or_ne d c
      · rwa [Function.update_self]
      · rw [Function.update_of_ne (Ne.symm hOwn)]
        exact (h c).unseen past d a s s₁ (t c) _ hOwn hHead (hRel c) hShared
    have hAlone₁ : ∀ c, ∃ t' answers,
        run step (Function.update t d t₁ c) (own c events) = .ok (t', answers) := by
      intro c
      obtain rfl | hOwn := eq_or_ne d c
      · rw [Function.update_self]
        exact ⟨t', rest, hLone⟩
      · rw [Function.update_of_ne (Ne.symm hOwn)]
        have hTheirs := hAlone c
        rwa [own_cons_of_ne hOwn] at hTheirs
    obtain ⟨s', answers, hRun⟩ := ih hTail hRel₁ hAlone₁
    refine ⟨s', tagged d answer₁ ++ answers, ?_⟩
    rw [run_cons_iff]
    exact ⟨s₁, answer₁, answers, hShared, hRun, rfl⟩

theorem Unwinding.undisturbed {R : ι → List (ι × α) → σ → σ → Prop}
    (h : ∀ c, Unwinding step Allowed c (R c)) {events : List (ι × α)} (hAllowed : Allowed events) {s : σ}
    (hRel : ∀ c, R c [] s s) : Undisturbed step s events where
  answers _ _ hRun c := (h c).run_own hPrefix (show Allowed ([] ++ events) from hAllowed) (hRel c) hRun
  completes hAlone :=
    Unwinding.run_completes hPrefix h (show Allowed ([] ++ events) from hAllowed) hRel hAlone

end Unwind
end Noninterference
