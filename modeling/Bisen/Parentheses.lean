import Bisen.QueryParser
import Mathlib.Data.List.Infix

/-! # What the parser does with parentheses

The operator stack remembers two things about the tokens read so far: how many parentheses are open,
and whether an operator has stood outside all of them. A `)` too many is reported if there was such an
operator, and otherwise asks an empty stack for its top.
-/
namespace Bisen.Parentheses
open QueryParser
set_option autoImplicit false

def opens (tkns : List ClientToken) : Nat := tkns.countP (·.type = openToken)

def closes (tkns : List ClientToken) : Nat := tkns.countP (·.type = closeToken)

/-- No prefix closes more than it opens. -/
def NoExcess (tkns : List ClientToken) : Prop := ∀ p, p <+: tkns → closes p ≤ opens p

def Balanced (tkns : List ClientToken) : Prop := NoExcess tkns ∧ closes tkns = opens tkns

def IsOperator (type : UInt8) : Prop := type = andToken ∨ type = orToken ∨ type = notToken

/-- Some operator stands outside all parentheses. -/
def OuterOperator (tkns : List ClientToken) : Prop :=
  ∃ p op rest, tkns = p ++ op :: rest ∧ IsOperator op.type ∧ opens p = closes p

/-- Mismatches are reported, and only mismatches; an empty stack is never asked for its top. -/
structure Reports (tkns : List ClientToken) : Prop where
  throws : (∃ what, shuntingYard tkns = .error (.invalidArgument what)) ↔ ¬ Balanced tkns
  returns : Balanced tkns → ∃ rpn, shuntingYard tkns = .ok rpn
  stacked : shuntingYard tkns ≠ .error .emptyContainer

section Counts
variable (tkns more : List ClientToken) (tkn : ClientToken)

@[simp] theorem opens_append : opens (tkns ++ more) = opens tkns + opens more := List.countP_append

@[simp] theorem closes_append : closes (tkns ++ more) = closes tkns + closes more := List.countP_append

@[simp] theorem opens_singleton : opens [tkn] = if tkn.type = openToken then 1 else 0 := by
  simp [opens, List.countP_singleton]

@[simp] theorem closes_singleton : closes [tkn] = if tkn.type = closeToken then 1 else 0 := by
  simp [closes, List.countP_singleton]

end Counts

theorem NoExcess.restrict {tkns p : List ClientToken} (h : NoExcess tkns) (hp : p <+: tkns) : NoExcess p :=
  fun q hq => h q (hq.trans hp)

theorem outerOperator_concat {tkns : List ClientToken} {tkn : ClientToken} :
    OuterOperator (tkns ++ [tkn]) ↔ OuterOperator tkns ∨ IsOperator tkn.type ∧ opens tkns = closes tkns := by
  constructor
  · rintro ⟨p, op, rest, hEq, hOp, hOuter⟩
    obtain rfl | ⟨rest, last, rfl⟩ := List.eq_nil_or_concat rest
    · obtain ⟨rfl, hLast⟩ := List.append_inj' hEq rfl
      cases hLast
      exact .inr ⟨hOp, hOuter⟩
    · rw [List.concat_eq_append, ← List.cons_append, ← List.append_assoc] at hEq
      exact .inl ⟨p, op, rest, (List.append_inj' hEq rfl).1, hOp, hOuter⟩
  · rintro (⟨p, op, rest, rfl, hOp, hOuter⟩ | ⟨hOp, hOuter⟩)
    · exact ⟨p, op, rest ++ [tkn], by simp, hOp, hOuter⟩
    · exact ⟨tkns, tkn, [], rfl, hOp, hOuter⟩

/-! ## The stack -/

/-- The bottom of the stack is an operator, so no `)` can empty the stack. -/
def Grounded (operators : List UInt8) : Prop := ∃ above bottom, operators = above ++ [bottom] ∧ bottom ≠ openToken

structure Reading (tkns : List ClientToken) (operators : List UInt8) : Prop where
  depth : opens tkns = closes tkns + operators.count openToken
  grounded : Grounded operators ↔ OuterOperator tkns
  noClose : closeToken ∉ operators

theorem grounded_append_cons (above : List UInt8) {below : List UInt8} {op : UInt8} (h : below ≠ []) :
    Grounded (above ++ op :: below) ↔ Grounded below := by
  obtain ⟨below, bottom, rfl⟩ := List.eq_nil_or_concat below |>.resolve_left h
  rw [List.concat_eq_append]
  constructor
  · rintro ⟨above', bottom', hEq, hBottom⟩
    rw [← List.cons_append, ← List.append_assoc] at hEq
    cases (List.append_inj' hEq rfl).2
    exact ⟨below, bottom, rfl, hBottom⟩
  · rintro ⟨above', bottom', hEq, hBottom⟩
    cases (List.append_inj' hEq rfl).2
    exact ⟨above ++ op :: below, bottom, by simp, hBottom⟩

theorem grounded_concat (above : List UInt8) {op : UInt8} : Grounded (above ++ [op]) ↔ op ≠ openToken := by
  constructor
  · rintro ⟨above', bottom, hEq, hBottom⟩
    cases (List.append_inj' hEq rfl).2
    exact hBottom
  · intro hOp
    exact ⟨above, op, rfl, hOp⟩

theorem not_grounded_nil : ¬ Grounded [] := by
  rintro ⟨above, bottom, hEq, _⟩
  simp at hEq

theorem grounded_of_ne_nil {operators : List UInt8} (h : operators ≠ []) (hCount : openToken ∉ operators) :
    Grounded operators := by
  obtain ⟨above, bottom, rfl⟩ := List.eq_nil_or_concat operators |>.resolve_left h
  rw [List.concat_eq_append] at hCount ⊢
  apply (grounded_concat _).mpr
  intro hBottom
  apply hCount
  rw [hBottom]
  exact List.mem_append_right _ (List.mem_singleton_self _)

/-- Only operators are popped, never a parenthesis. -/
theorem popWhile_split {p : Int} (hp : -1 < p) (operators : List UInt8) (output : List ClientToken) :
    ∃ popped operators' output', popWhile p operators output = (operators', output') ∧
      operators = popped ++ operators' ∧ openToken ∉ popped := by
  induction operators generalizing output with
  | nil => exact ⟨[], [], output, rfl, rfl, List.not_mem_nil⟩
  | cons top operators ih =>
    rw [popWhile]
    split
    · case isTrue hPop =>
      obtain ⟨popped, operators', output', hEq, hSplit, hOpen⟩ := ih (output ++ [opTkn top])
      refine ⟨top :: popped, operators', output', hEq, by rw [hSplit, List.cons_append], ?_⟩
      rw [List.mem_cons, not_or]
      refine ⟨?_, hOpen⟩
      rintro rfl
      have hLow : precedence openToken = -1 := by decide
      omega
    · exact ⟨[], top :: operators, output, rfl, rfl, List.not_mem_nil⟩

theorem popToOpen_of_mem {operators : List UInt8} (h : openToken ∈ operators) (output : List ClientToken) :
    ∃ popped operators' output', popToOpen operators output = .ok (operators', output') ∧
      operators = popped ++ openToken :: operators' ∧ openToken ∉ popped := by
  induction operators generalizing output with
  | nil => cases h
  | cons top operators ih =>
    rw [popToOpen]
    split
    · case isTrue hTop =>
      have hRest : openToken ∈ operators := (List.mem_cons.mp h).resolve_left (Ne.symm hTop)
      rw [if_neg (by simpa using List.ne_nil_of_mem hRest)]
      obtain ⟨popped, operators', output', hEq, hSplit, hOpen⟩ := ih hRest (output ++ [opTkn top])
      refine ⟨top :: popped, operators', output', hEq, by rw [hSplit, List.cons_append], ?_⟩
      rw [List.mem_cons, not_or]
      exact ⟨Ne.symm hTop, hOpen⟩
    · case isFalse hTop =>
      rw [not_not] at hTop
      exact ⟨[], operators, output, rfl, by rw [hTop, List.nil_append], List.not_mem_nil⟩

theorem popToOpen_of_not_mem {operators : List UInt8} (h : openToken ∉ operators) (hNil : operators ≠ [])
    (output : List ClientToken) : ∃ what, popToOpen operators output = .error (.invalidArgument what) := by
  induction operators generalizing output with
  | nil => exact absurd rfl hNil
  | cons top operators ih =>
    rw [List.mem_cons, not_or] at h
    rw [popToOpen, if_pos (Ne.symm h.1)]
    split
    · exact ⟨_, rfl⟩
    · case isFalse hRest => exact ih h.2 (by simpa using hRest) _

theorem drain_eq {operators : List UInt8} (hClose : closeToken ∉ operators) (output : List ClientToken) :
    (openToken ∉ operators → ∃ rpn, drain operators output = .ok rpn) ∧
      (openToken ∈ operators → ∃ what, drain operators output = .error (.invalidArgument what)) := by
  induction operators generalizing output with
  | nil => exact ⟨fun _ => ⟨output, rfl⟩, fun h => (by cases h)⟩
  | cons top operators ih =>
    rw [List.mem_cons, not_or] at hClose
    rw [drain]
    split
    · case isTrue hTop =>
      refine ⟨fun h => ?_, fun _ => ⟨_, rfl⟩⟩
      obtain rfl | rfl := hTop
      · exact absurd List.mem_cons_self h
      · exact absurd rfl hClose.1
    · case isFalse hTop =>
      rw [not_or] at hTop
      obtain ⟨hOk, hError⟩ := ih hClose.2 (output ++ [opTkn top])
      refine ⟨fun h => hOk fun hMem => h (List.mem_cons_of_mem _ hMem), fun h => hError ?_⟩
      exact (List.mem_cons.mp h).resolve_left (Ne.symm hTop.1)

/-! ## Reading -/

section Read
variable {tkns : List ClientToken} {operators : List UInt8} (h : Reading tkns operators) {tkn : ClientToken}
include h

theorem Reading.operator (hOp : IsOperator tkn.type) {popped below : List UInt8}
    (hSplit : operators = popped ++ below) (hOpen : openToken ∉ popped) :
    Reading (tkns ++ [tkn]) (tkn.type :: below) := by
  have hParens : tkn.type ≠ openToken ∧ tkn.type ≠ closeToken := by
    rcases hOp with hType | hType | hType <;> rw [hType] <;> decide
  have hCount : operators.count openToken = below.count openToken := by
    rw [hSplit, List.count_append, List.count_eq_zero_of_not_mem hOpen, Nat.zero_add]
  have hDepth := h.depth
  refine ⟨?_, ?_, ?_⟩
  · rw [opens_append, closes_append, opens_singleton, closes_singleton, if_neg hParens.1, if_neg hParens.2,
      List.count_cons_of_ne hParens.1, h.depth, hCount, Nat.add_zero, Nat.add_zero]
  · rw [outerOperator_concat, ← h.grounded]
    by_cases hBelow : below = []
    · rw [hBelow] at hCount ⊢
      rw [List.count_nil] at hCount
      exact iff_of_true ⟨[], tkn.type, rfl, hParens.1⟩ (.inr ⟨hOp, by omega⟩)
    · have hKept : Grounded (tkn.type :: below) ↔ Grounded below := grounded_append_cons [] hBelow
      have hUnpopped : Grounded operators ↔ Grounded below := by
        rw [hSplit]
        obtain rfl | ⟨popped, last, rfl⟩ := List.eq_nil_or_concat popped
        · rfl
        · rw [List.concat_eq_append, List.append_assoc]
          exact grounded_append_cons _ hBelow
      rw [hKept, hUnpopped]
      refine ⟨.inl, ?_⟩
      rintro (hGrounded | ⟨_, hOuter⟩)
      · exact hGrounded
      · exact grounded_of_ne_nil hBelow (List.count_eq_zero.mp (by omega))
  · rw [List.mem_cons, not_or]
    refine ⟨Ne.symm hParens.2, fun hMem => h.noClose ?_⟩
    rw [hSplit]
    exact List.mem_append_right _ hMem

theorem Reading.open (hType : tkn.type = openToken) : Reading (tkns ++ [tkn]) (openToken :: operators) := by
  have hClose : tkn.type ≠ closeToken := by rw [hType]; decide
  refine ⟨?_, ?_, ?_⟩
  · rw [opens_append, closes_append, opens_singleton, closes_singleton, if_pos hType, if_neg hClose,
      List.count_cons_self, h.depth]
    omega
  · have hOuter : OuterOperator (tkns ++ [tkn]) ↔ OuterOperator tkns := by
      rw [outerOperator_concat, IsOperator, hType]
      exact or_iff_left fun hOp => absurd hOp.1 (by decide)
    rw [hOuter, ← h.grounded]
    obtain rfl | hNil := eq_or_ne operators []
    · exact iff_of_false (fun hGrounded => (grounded_concat []).mp hGrounded rfl) not_grounded_nil
    · exact grounded_append_cons [] hNil
  · rw [List.mem_cons, not_or]
    exact ⟨by decide, h.noClose⟩

theorem Reading.close (hType : tkn.type = closeToken) {popped below : List UInt8}
    (hSplit : operators = popped ++ openToken :: below) (hOpen : openToken ∉ popped) :
    Reading (tkns ++ [tkn]) below := by
  have hNotOpen : tkn.type ≠ openToken := by rw [hType]; decide
  have hDepth := h.depth
  rw [hSplit, List.count_append, List.count_eq_zero_of_not_mem hOpen, List.count_cons_self] at hDepth
  refine ⟨?_, ?_, ?_⟩
  · rw [opens_append, closes_append, opens_singleton, closes_singleton, if_neg hNotOpen, if_pos hType]
    omega
  · have hOuter : OuterOperator (tkns ++ [tkn]) ↔ OuterOperator tkns := by
      rw [outerOperator_concat, IsOperator, hType]
      exact or_iff_left fun hOp => absurd hOp.1 (by decide)
    rw [hOuter, ← h.grounded, hSplit]
    obtain rfl | hNil := eq_or_ne below []
    · exact iff_of_false not_grounded_nil fun hGrounded => (grounded_concat _).mp hGrounded rfl
    · exact (grounded_append_cons _ hNil).symm
  · intro hMem
    apply h.noClose
    rw [hSplit]
    exact List.mem_append_right _ (List.mem_cons_of_mem _ hMem)

theorem Reading.skip (hOp : ¬ IsOperator tkn.type) (hOpen : tkn.type ≠ openToken)
    (hClose : tkn.type ≠ closeToken) : Reading (tkns ++ [tkn]) operators := by
  refine ⟨?_, ?_, h.noClose⟩
  · rw [opens_append, closes_append, opens_singleton, closes_singleton, if_neg hOpen, if_neg hClose, h.depth]
    rfl
  · rw [outerOperator_concat, ← h.grounded]
    exact (or_iff_left fun hOuter => hOp hOuter.1).symm

/-- One token that does not close too much. -/
theorem readToken_reads (hNoExcess : NoExcess (tkns ++ [tkn])) (output : List ClientToken) :
    ∃ operators' output', readToken (operators, output) tkn = .ok (operators', output') ∧
      Reading (tkns ++ [tkn]) operators' := by
  rw [readToken]
  simp only
  split
  · case isTrue hWord =>
    refine ⟨_, _, rfl, h.skip ?_ ?_ ?_⟩
    · rw [hWord, IsOperator]
      decide
    · rw [hWord]
      decide
    · rw [hWord]
      decide
  split
  · case isTrue hOp =>
    have hPrecedence : -1 < precedence tkn.type := by
      rcases hOp with hType | hType | hType <;> rw [hType] <;> decide
    obtain ⟨popped, below, output', hPop, hSplit, hOpen⟩ := popWhile_split hPrecedence operators output
    rw [hPop]
    exact ⟨_, _, rfl, h.operator hOp hSplit hOpen⟩
  · case isFalse hOp =>
    split
    · case isTrue hOpen =>
      rw [hOpen]
      exact ⟨_, _, rfl, h.open hOpen⟩
    · case isFalse hOpen =>
      split
      · case isTrue hClose =>
        have hLe := hNoExcess _ List.prefix_rfl
        rw [opens_append, closes_append, opens_singleton, closes_singleton, if_neg hOpen, if_pos hClose,
          h.depth] at hLe
        have hMem : openToken ∈ operators := List.count_pos_iff.mp (by omega)
        obtain ⟨popped, below, output', hPop, hSplit, hPopped⟩ := popToOpen_of_mem hMem output
        exact ⟨below, output', hPop, h.close hClose hSplit hPopped⟩
      · case isFalse hClose => exact ⟨_, _, rfl, h.skip hOp hOpen hClose⟩

end Read

theorem read_noExcess {tkns : List ClientToken} (h : NoExcess tkns) :
    ∃ operators output, tkns.foldlM readToken ([], []) = .ok (operators, output) ∧ Reading tkns operators := by
  induction tkns using List.reverseRecOn with
  | nil =>
    refine ⟨[], [], rfl, rfl, iff_of_false not_grounded_nil ?_, List.not_mem_nil⟩
    rintro ⟨p, op, rest, hEq, _⟩
    simp at hEq
  | append_singleton tkns tkn ih =>
    obtain ⟨operators, output, hRead, hReading⟩ := ih (h.restrict (List.prefix_append _ _))
    obtain ⟨operators', output', hStep, hReading'⟩ := readToken_reads hReading h output
    refine ⟨operators', output', ?_, hReading'⟩
    rw [List.foldlM_append, hRead]
    exact (bind_pure _).trans hStep

/-- The parser's answer on a list whose every prefix is in order. -/
theorem shuntingYard_noExcess {tkns : List ClientToken} (h : NoExcess tkns) :
    (closes tkns = opens tkns → ∃ rpn, shuntingYard tkns = .ok rpn) ∧
      (closes tkns ≠ opens tkns → ∃ what, shuntingYard tkns = .error (.invalidArgument what)) := by
  obtain ⟨operators, output, hRead, hReading⟩ := read_noExcess h
  have hDrain : shuntingYard tkns = drain operators output := by
    rw [shuntingYard, hRead]
    rfl
  have hDepth := hReading.depth
  obtain ⟨hOk, hError⟩ := drain_eq hReading.noClose output
  rw [hDrain]
  constructor
  · intro hEq
    exact hOk (List.count_eq_zero.mp (by omega))
  · intro hNe
    exact hError (List.count_pos_iff.mp (by omega))

/-- The first `)` too many. -/
theorem shuntingYard_excess {tkns : List ClientToken} {tkn : ClientToken} (rest : List ClientToken)
    (h : NoExcess tkns) (hEq : opens tkns = closes tkns) (hType : tkn.type = closeToken) :
    (OuterOperator tkns → ∃ what, shuntingYard (tkns ++ tkn :: rest) = .error (.invalidArgument what)) ∧
      (¬ OuterOperator tkns → shuntingYard (tkns ++ tkn :: rest) = .error .emptyContainer) := by
  obtain ⟨operators, output, hRead, hReading⟩ := read_noExcess h
  have hDepth := hReading.depth
  have hOpen : openToken ∉ operators := List.count_eq_zero.mp (by omega)
  have hStop : ∀ e, popToOpen operators output = .error e →
      shuntingYard (tkns ++ tkn :: rest) = .error e := by
    intro e hPop
    have hStep : readToken (operators, output) tkn = .error e := by
      rw [← hPop, readToken, hType]
      rfl
    rw [shuntingYard, List.foldlM_append, hRead]
    simp only [bind, Except.bind, List.foldlM_cons, hStep]
  rw [← hReading.grounded]
  constructor
  · rintro ⟨above, bottom, rfl, _⟩
    obtain ⟨what, hPop⟩ := popToOpen_of_not_mem hOpen (by simp) output
    exact ⟨what, hStop _ hPop⟩
  · intro hGrounded
    obtain rfl | hNil := eq_or_ne operators []
    · exact hStop _ rfl
    · exact absurd (grounded_of_ne_nil hNil hOpen) hGrounded

/-! ## Which lists are read safely -/

/-- Before the first `)` too many, if there is one, an operator stands outside all parentheses. -/
def Guarded (tkns : List ClientToken) : Prop :=
  ∀ p tkn rest, tkns = p ++ tkn :: rest → tkn.type = closeToken → NoExcess p → opens p = closes p →
    OuterOperator p

theorem not_noExcess {p q : List ClientToken} {tkn : ClientToken} (hPrefix : p ++ [tkn] <+: q)
    (hType : tkn.type = closeToken) (hEq : opens p = closes p) : ¬ NoExcess q := by
  intro h
  have hNotOpen : tkn.type ≠ openToken := by rw [hType]; decide
  have hLe := h _ hPrefix
  rw [opens_append, closes_append, opens_singleton, closes_singleton, if_neg hNotOpen, if_pos hType] at hLe
  omega

theorem noExcess_or_first (tkns : List ClientToken) : NoExcess tkns ∨
    ∃ p tkn rest, tkns = p ++ tkn :: rest ∧ tkn.type = closeToken ∧ NoExcess p ∧ opens p = closes p := by
  induction tkns using List.reverseRecOn with
  | nil =>
    refine .inl fun p hp => ?_
    rw [List.prefix_nil.mp hp]
    exact Nat.le_refl _
  | append_singleton tkns tkn ih =>
    obtain h | ⟨p, first, rest, rfl, hFirst⟩ := ih
    · have hLe := h tkns List.prefix_rfl
      by_cases hExcess : tkn.type = closeToken ∧ opens tkns = closes tkns
      · exact .inr ⟨tkns, tkn, [], rfl, hExcess.1, h, hExcess.2⟩
      · refine .inl fun p hp => ?_
        obtain rfl | hp := List.prefix_concat_iff.mp hp
        · rw [opens_append, closes_append, closes_singleton]
          split
          · case isTrue hType =>
            have hNe : opens tkns ≠ closes tkns := fun hEq => hExcess ⟨hType, hEq⟩
            omega
          · omega
        · exact h p hp
    · exact .inr ⟨p, first, rest ++ [tkn], by simp, hFirst⟩

/-- There is only one first `)` too many. -/
theorem first_unique {p p' rest rest' : List ClientToken} {tkn tkn' : ClientToken}
    (hSplit : p ++ tkn :: rest = p' ++ tkn' :: rest') (hType : tkn.type = closeToken)
    (hType' : tkn'.type = closeToken) (hNoExcess : NoExcess p) (hNoExcess' : NoExcess p')
    (hEq : opens p = closes p) (hEq' : opens p' = closes p') : p = p' := by
  obtain ⟨between, rfl, hRest⟩ | ⟨between, rfl, hRest⟩ := List.append_eq_append_iff.mp hSplit
  · cases between with
    | nil => rw [List.append_nil]
    | cons first between =>
      cases hRest
      exact absurd hNoExcess' (not_noExcess (List.prefix_append_right_inj p |>.mpr (by simp)) hType hEq)
  · cases between with
    | nil => rw [List.append_nil]
    | cons first between =>
      cases hRest
      exact absurd hNoExcess (not_noExcess (List.prefix_append_right_inj p' |>.mpr (by simp)) hType' hEq')

theorem reports_of_returns {tkns rpn : List ClientToken} (h : Balanced tkns) (hRpn : shuntingYard tkns = .ok rpn) :
    Reports tkns where
  throws := by
    refine iff_of_false ?_ (not_not_intro h)
    rintro ⟨what, hThrown⟩
    cases hRpn.symm.trans hThrown
  returns _ := ⟨rpn, hRpn⟩
  stacked := by
    rw [hRpn]
    exact fun h => by cases h

theorem reports_of_throws {tkns : List ClientToken} (h : ¬ Balanced tkns)
    (hThrows : ∃ what, shuntingYard tkns = .error (.invalidArgument what)) : Reports tkns where
  throws := iff_of_true hThrows h
  returns hBalanced := absurd hBalanced h
  stacked := by
    obtain ⟨what, hThrown⟩ := hThrows
    rw [hThrown]
    exact fun h => by cases h

/-- Exactly the guarded lists are reported as they should be. -/
theorem reports_iff (tkns : List ClientToken) : Reports tkns ↔ Guarded tkns := by
  obtain hNoExcess | ⟨p, tkn, rest, rfl, hType, hNoExcess, hEq⟩ := noExcess_or_first tkns
  · refine iff_of_true ?_ ?_
    · obtain ⟨hOk, hError⟩ := shuntingYard_noExcess hNoExcess
      obtain hCount | hCount := eq_or_ne (closes tkns) (opens tkns)
      · obtain ⟨rpn, hRpn⟩ := hOk hCount
        exact reports_of_returns ⟨hNoExcess, hCount⟩ hRpn
      · exact reports_of_throws (fun h => hCount h.2) (hError hCount)
    · rintro p tkn rest rfl hType _ hEq
      exact absurd hNoExcess (not_noExcess (List.prefix_append_right_inj p |>.mpr (by simp)) hType hEq)
  · obtain ⟨hThrows, hStumbles⟩ := shuntingYard_excess rest hNoExcess hEq hType
    have hUnbalanced : ¬ Balanced (p ++ tkn :: rest) :=
      fun h => not_noExcess (List.prefix_append_right_inj p |>.mpr (by simp)) hType hEq h.1
    have hGuarded : Guarded (p ++ tkn :: rest) ↔ OuterOperator p := by
      constructor
      · intro h
        exact h p tkn rest rfl hType hNoExcess hEq
      · intro hOuter p' tkn' rest' hSplit hType' hNoExcess' hEq'
        rwa [← first_unique hSplit hType hType' hNoExcess hNoExcess' hEq hEq']
    rw [hGuarded]
    constructor
    · intro h
      by_contra hOuter
      exact h.stacked (hStumbles hOuter)
    · intro hOuter
      exact reports_of_throws hUnbalanced (hThrows hOuter)

/-- A lone `)`: the parser asks the empty stack for its top. -/
theorem not_reports_close : ¬ ∀ tkns, (∀ tkn, tkn ∈ tkns → tkn.type = wordToken ∨ isOperator tkn.type = true) →
    Reports tkns := by
  intro hClaim
  have hReports := hClaim [opTkn closeToken] (by simp [opTkn, isOperator])
  exact hReports.stacked (by decide)

end Bisen.Parentheses
