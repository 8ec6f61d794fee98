import Mathlib.Data.Set.NAry

/-! # Comparing read-once formulas

Two Boolean formulas over the same inputs take a set of pairs of values. When every input occurs
once, the pairs of a gate are all combinations of the pairs of its operands, and then a
difference in an operand always shows in the gate.
-/
namespace ReadOnce
set_option autoImplicit false

abbrev Pairs := Set (Bool × Bool)

def input : Pairs := {p | p.1 = p.2}

/-- Negations on top of the first or the second formula. -/
def invert (a b : Bool) (E : Pairs) : Pairs := (fun p => (a ^^ p.1, b ^^ p.2)) '' E

def combine (op : Bool → Bool → Bool) (E F : Pairs) : Pairs :=
  Set.image2 (fun p q => (op p.1 q.1, op p.2 q.2)) E F

def Differs (E : Pairs) : Prop := ∃ p, p ∈ E ∧ p.1 ≠ p.2

def Agrees (E : Pairs) : Prop := ∃ p, p ∈ E ∧ p.1 = p.2

/-- Neither formula is constant. -/
structure Varied (E : Pairs) : Prop where
  first : ∀ b, ∃ p, p ∈ E ∧ p.1 = b
  second : ∀ b, ∃ p, p ∈ E ∧ p.2 = b

theorem varied_input : Varied input := ⟨fun b => ⟨(b, b), rfl, rfl⟩, fun b => ⟨(b, b), rfl, rfl⟩⟩

theorem agrees_input : Agrees input := ⟨(true, true), rfl, rfl⟩

theorem not_differs_input : ¬ Differs input := by
  rintro ⟨p, hp, hNe⟩
  exact hNe hp

section Invert
variable {E : Pairs} (a b : Bool)

theorem Varied.invert (h : Varied E) : Varied (invert a b E) := by
  constructor
  · intro c
    obtain ⟨p, hp, hEq⟩ := h.first (a ^^ c)
    exact ⟨_, ⟨p, hp, rfl⟩, by simp [hEq]⟩
  · intro c
    obtain ⟨p, hp, hEq⟩ := h.second (b ^^ c)
    exact ⟨_, ⟨p, hp, rfl⟩, by simp [hEq]⟩

theorem differs_invert_iff : Differs (invert a b E) ↔ ∃ p, p ∈ E ∧ (a ^^ p.1) ≠ (b ^^ p.2) := by
  constructor
  · rintro ⟨_, ⟨p, hp, rfl⟩, hNe⟩
    exact ⟨p, hp, hNe⟩
  · rintro ⟨p, hp, hNe⟩
    exact ⟨_, ⟨p, hp, rfl⟩, hNe⟩

theorem agrees_invert_iff : Agrees (invert a b E) ↔ ∃ p, p ∈ E ∧ (a ^^ p.1) = (b ^^ p.2) := by
  constructor
  · rintro ⟨_, ⟨p, hp, rfl⟩, hEq⟩
    exact ⟨p, hp, hEq⟩
  · rintro ⟨p, hp, hEq⟩
    exact ⟨_, ⟨p, hp, rfl⟩, hEq⟩

theorem differs_invert : Differs (invert a b E) ↔ if a = b then Differs E else Agrees E := by
  rw [differs_invert_iff]
  cases a <;> cases b <;> simp [Differs, Agrees]

theorem agrees_invert : Agrees (invert a b E) ↔ if a = b then Agrees E else Differs E := by
  rw [agrees_invert_iff]
  cases a <;> cases b <;> simp [Differs, Agrees]

end Invert

/-- One value of an operand leaves the gate to the other operand, the other one decides it. -/
structure Gate (op : Bool → Bool → Bool) (u : Bool) : Prop where
  left : ∀ b, op u b = b
  right : ∀ b, op b u = b
  decidedLeft : ∀ b, op (!u) b = !u
  decidedRight : ∀ b, op b (!u) = !u

theorem gate_and : Gate and true := ⟨by decide, by decide, by decide, by decide⟩

theorem gate_or : Gate or false := ⟨by decide, by decide, by decide, by decide⟩

section Gates
variable {op : Bool → Bool → Bool} {u : Bool} (hGate : Gate op u) {E F : Pairs}
include hGate

theorem Varied.combine (hE : Varied E) (hF : Varied F) : Varied (combine op E F) := by
  constructor
  · intro b
    obtain ⟨p, hp, hFst⟩ := hE.first b
    obtain ⟨q, hq, hNeutral⟩ := hF.first u
    exact ⟨_, Set.mem_image2_of_mem hp hq, by simp only [hNeutral, hFst, hGate.right]⟩
  · intro b
    obtain ⟨p, hp, hSnd⟩ := hE.second b
    obtain ⟨q, hq, hNeutral⟩ := hF.second u
    exact ⟨_, Set.mem_image2_of_mem hp hq, by simp only [hNeutral, hSnd, hGate.right]⟩

theorem agrees_combine (hE : Varied E) (hF : Varied F) : Agrees (combine op E F) := by
  obtain ⟨p, hp, hFst⟩ := hE.first (!u)
  obtain ⟨q, hq, hSnd⟩ := hF.second (!u)
  refine ⟨_, Set.mem_image2_of_mem hp hq, ?_⟩
  simp only [hFst, hSnd, hGate.decidedLeft, hGate.decidedRight]

theorem differs_combine_left (hE : Varied E) (hF : Varied F) (h : Differs E) : Differs (combine op E F) := by
  obtain ⟨p, hp, hNe⟩ := h
  obtain ⟨q, hq, hFst⟩ := hF.first u
  obtain hSnd | hSnd := Bool.eq_or_eq_not q.2 u
  · refine ⟨_, Set.mem_image2_of_mem hp hq, ?_⟩
    simpa only [hFst, hSnd, hGate.right] using hNe
  · obtain ⟨p', hp', hNeutral⟩ := hE.first u
    refine ⟨_, Set.mem_image2_of_mem hp' hq, ?_⟩
    simp only [hFst, hSnd, hNeutral, hGate.right, hGate.decidedRight]
    exact (Bool.not_ne_self u).symm

theorem differs_combine_right (hE : Varied E) (hF : Varied F) (h : Differs F) : Differs (combine op E F) := by
  obtain ⟨q, hq, hNe⟩ := h
  obtain ⟨p, hp, hFst⟩ := hE.first u
  obtain hSnd | hSnd := Bool.eq_or_eq_not p.2 u
  · refine ⟨_, Set.mem_image2_of_mem hp hq, ?_⟩
    simpa only [hFst, hSnd, hGate.left] using hNe
  · obtain ⟨q', hq', hNeutral⟩ := hF.first u
    refine ⟨_, Set.mem_image2_of_mem hp hq', ?_⟩
    simp only [hFst, hSnd, hNeutral, hGate.left, hGate.decidedLeft]
    exact (Bool.not_ne_self u).symm

/-- A difference in an operand always shows. -/
theorem differs_combine (hE : Varied E) (hF : Varied F) :
    Differs (combine op E F) ↔ Differs E ∨ Differs F := by
  constructor
  · rintro ⟨_, ⟨p, hp, q, hq, rfl⟩, hNe⟩
    obtain hEq | hDiffers := Decidable.em (p.1 = p.2)
    · refine .inr ⟨q, hq, ?_⟩
      intro hSame
      simp only [hEq, hSame] at hNe
      exact hNe rfl
    · exact .inl ⟨p, hp, hDiffers⟩
  · rintro (h | h)
    · exact differs_combine_left hGate hE hF h
    · exact differs_combine_right hGate hE hF h

end Gates
end ReadOnce
