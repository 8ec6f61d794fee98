import Bisen.Parentheses
import Bisen.Lib.Simulation
import Mathlib.Data.List.Perm.Basic

/-! # No operand is lost

Whatever list of tokens it is given, the parser only moves things: words go to the output as they
come, operators by way of the stack, and parentheses are dropped.
-/
namespace Bisen.OperandOrder
open QueryParser Parentheses
set_option autoImplicit false

instance : DecidablePred IsOperator := fun type =>
  inferInstanceAs (Decidable (type = andToken ∨ type = orToken ∨ type = notToken))

def words (tkns : List ClientToken) : List ClientToken := tkns.filter (·.type = wordToken)

/-- Operators carry nothing but their type. -/
def operatorTypes (tkns : List ClientToken) : List UInt8 := (tkns.map ClientToken.type).filter IsOperator

theorem not_isOperator_wordToken : ¬ IsOperator wordToken := by decide

theorem not_isOperator_openToken : ¬ IsOperator openToken := by decide

theorem not_isOperator_closeToken : ¬ IsOperator closeToken := by decide

theorem ne_word_of_isOperator {op : UInt8} (h : IsOperator op) : op ≠ wordToken := by
  rintro rfl
  exact not_isOperator_wordToken h

/-- The output and the operator stack after the tokens `tkns`. -/
structure Carries (tkns : List ClientToken) (s : List UInt8 × List ClientToken) : Prop where
  operands : words s.2 = words tkns
  operators : (operatorTypes s.2 ++ s.1.filter IsOperator).Perm (operatorTypes tkns)
  output : ∀ tkn, tkn ∈ s.2 → tkn.type = wordToken ∨ ∃ op, IsOperator op ∧ tkn = opTkn op
  stacked : ∀ op, op ∈ s.1 → IsOperator op ∨ op = openToken

section Lists
variable (tkns more : List ClientToken)

@[simp] theorem words_append : words (tkns ++ more) = words tkns ++ words more := List.filter_append ..

@[simp] theorem operatorTypes_append : operatorTypes (tkns ++ more) = operatorTypes tkns ++ operatorTypes more := by
  rw [operatorTypes, List.map_append, List.filter_append]
  rfl

theorem words_map_opTkn {popped : List UInt8} (h : ∀ op, op ∈ popped → IsOperator op) :
    words (popped.map opTkn) = [] := by
  apply List.filter_eq_nil_iff.mpr
  intro tkn hTkn
  obtain ⟨op, hOp, rfl⟩ := List.mem_map.mp hTkn
  have hNe : (opTkn op).type ≠ wordToken := ne_word_of_isOperator (h op hOp)
  simpa using hNe

theorem operatorTypes_map_opTkn {popped : List UInt8} (h : ∀ op, op ∈ popped → IsOperator op) :
    operatorTypes (popped.map opTkn) = popped := by
  have hTypes : (popped.map opTkn).map ClientToken.type = popped := by
    rw [List.map_map]
    exact List.map_id popped
  rw [operatorTypes, hTypes]
  exact List.filter_eq_self.mpr fun op hOp => decide_eq_true (h op hOp)

end Lists

section Moves
variable {tkns : List ClientToken} {operators : List UInt8} {output : List ClientToken}

theorem Carries.nil : Carries [] ([], []) := by
  constructor
  case operands => rfl
  case operators => exact .refl _
  case output => exact fun tkn h => absurd h List.not_mem_nil
  case stacked => exact fun op h => absurd h List.not_mem_nil

/-- What is popped reappears in the output. -/
theorem Carries.pop {popped : List UInt8} (h : Carries tkns (popped ++ operators, output))
    (hPopped : ∀ op, op ∈ popped → IsOperator op) : Carries tkns (operators, output ++ popped.map opTkn) := by
  constructor
  case operands =>
    rw [words_append, words_map_opTkn hPopped, List.append_nil]
    exact h.operands
  case operators =>
    have hAll : popped.filter IsOperator = popped :=
      List.filter_eq_self.mpr fun op hOp => decide_eq_true (hPopped op hOp)
    have hPerm := h.operators
    rw [List.filter_append, hAll] at hPerm
    rwa [operatorTypes_append, operatorTypes_map_opTkn hPopped, List.append_assoc]
  case output =>
    intro tkn hTkn
    obtain hTkn | hTkn := List.mem_append.mp hTkn
    · exact h.output tkn hTkn
    · obtain ⟨op, hOp, rfl⟩ := List.mem_map.mp hTkn
      exact .inr ⟨op, hPopped op hOp, rfl⟩
  case stacked => exact fun op hOp => h.stacked op (List.mem_append_right popped hOp)

theorem Carries.dropOpen (h : Carries tkns (openToken :: operators, output)) :
    Carries tkns (operators, output) := by
  constructor
  case operands => exact h.operands
  case operators =>
    have hPerm := h.operators
    rwa [List.filter_cons_of_neg (by decide)] at hPerm
  case output => exact h.output
  case stacked => exact fun op hOp => h.stacked op (List.mem_cons_of_mem _ hOp)

theorem Carries.word (h : Carries tkns (operators, output)) {tkn : ClientToken} (hWord : tkn.type = wordToken) :
    Carries (tkns ++ [tkn]) (operators, output ++ [tkn]) := by
  have hNone : operatorTypes [tkn] = [] := by
    apply List.filter_eq_nil_iff.mpr
    intro op hOp
    rw [List.mem_singleton.mp hOp, hWord]
    decide
  constructor
  case operands => rw [words_append, words_append, h.operands]
  case operators =>
    rw [operatorTypes_append, operatorTypes_append, hNone, List.append_nil, List.append_nil]
    exact h.operators
  case output =>
    intro t ht
    obtain ht | ht := List.mem_append.mp ht
    · exact h.output t ht
    · exact .inl (List.mem_singleton.mp ht ▸ hWord)
  case stacked => exact h.stacked

theorem Carries.operator (h : Carries tkns (operators, output)) {tkn : ClientToken} (hOp : IsOperator tkn.type) :
    Carries (tkns ++ [tkn]) (tkn.type :: operators, output) := by
  constructor
  case operands =>
    rw [words_append, h.operands]
    have hNone : words [tkn] = [] := List.filter_eq_nil_iff.mpr (by simpa using ne_word_of_isOperator hOp)
    rw [hNone, List.append_nil]
  case operators =>
    have hOne : operatorTypes [tkn] = [tkn.type] := List.filter_eq_self.mpr (by simpa using hOp)
    have hTop : (tkn.type :: operators).filter IsOperator = tkn.type :: operators.filter IsOperator :=
      List.filter_cons_of_pos (decide_eq_true hOp)
    simp only [operatorTypes_append, hOne, hTop]
    exact List.perm_middle.trans ((h.operators.cons _).trans (List.perm_append_singleton _ _).symm)
  case output => exact h.output
  case stacked =>
    intro op hMem
    obtain rfl | hMem := List.mem_cons.mp hMem
    · exact .inl hOp
    · exact h.stacked op hMem

/-- A token that is neither counts for nothing. -/
theorem Carries.other (h : Carries tkns (operators, output)) {tkn : ClientToken}
    (hWord : tkn.type ≠ wordToken) (hOp : ¬ IsOperator tkn.type) :
    Carries (tkns ++ [tkn]) (operators, output) := by
  have hWords : words [tkn] = [] := List.filter_eq_nil_iff.mpr (by simpa using hWord)
  have hTypes : operatorTypes [tkn] = [] := List.filter_eq_nil_iff.mpr (by simpa using hOp)
  constructor
  case operands => rw [words_append, hWords, List.append_nil, h.operands]
  case operators =>
    rw [operatorTypes_append, hTypes, List.append_nil]
    exact h.operators
  case output => exact h.output
  case stacked => exact h.stacked

theorem Carries.pushOpen (h : Carries tkns (operators, output)) :
    Carries tkns (openToken :: operators, output) := by
  constructor
  case operands => exact h.operands
  case operators =>
    rw [List.filter_cons_of_neg (by decide)]
    exact h.operators
  case output => exact h.output
  case stacked =>
    intro op hMem
    obtain rfl | hMem := List.mem_cons.mp hMem
    · exact .inr rfl
    · exact h.stacked op hMem

end Moves

/-! ## The three loops that pop -/

section Loops
variable {tkns : List ClientToken} {operators : List UInt8} {output : List ClientToken}

theorem Carries.popTop {top : UInt8} (h : Carries tkns (top :: operators, output)) (hTop : IsOperator top) :
    Carries tkns (operators, output ++ [opTkn top]) := by
  have hStack : Carries tkns ([top] ++ operators, output) := h
  exact hStack.pop fun _ hOp => List.mem_singleton.mp hOp ▸ hTop

theorem Carries.popWhile {p : Int} (hp : -1 < p) (h : Carries tkns (operators, output)) :
    Carries tkns (popWhile p operators output) := by
  induction operators generalizing output with
  | nil => exact h
  | cons top operators ih =>
    rw [QueryParser.popWhile]
    split
    · case isTrue hPop =>
      obtain hTop | rfl := h.stacked top List.mem_cons_self
      · exact ih (h.popTop hTop)
      · exact absurd (lt_of_lt_of_le hp hPop) (by decide)
    · exact h

theorem Carries.popToOpen (h : Carries tkns (operators, output)) {s : List UInt8 × List ClientToken}
    (hPop : popToOpen operators output = .ok s) : Carries tkns s := by
  induction operators generalizing output with
  | nil => cases hPop
  | cons top operators ih =>
    rw [QueryParser.popToOpen] at hPop
    split at hPop
    · case isTrue hTop =>
      split at hPop
      · cases hPop
      · exact ih (h.popTop ((h.stacked top List.mem_cons_self).resolve_right hTop)) hPop
    · case isFalse hTop =>
      cases hPop
      rw [not_not.mp hTop] at h
      exact h.dropOpen

theorem Carries.drain (h : Carries tkns (operators, output)) {rpn : List ClientToken}
    (hDrain : drain operators output = .ok rpn) : Carries tkns ([], rpn) := by
  induction operators generalizing output with
  | nil =>
    cases hDrain
    exact h
  | cons top operators ih =>
    rw [QueryParser.drain] at hDrain
    split at hDrain
    · cases hDrain
    · case isFalse hTop =>
      exact ih (h.popTop ((h.stacked top List.mem_cons_self).resolve_right fun hOpen => hTop (.inl hOpen))) hDrain

end Loops

theorem precedence_of_isOperator {op : UInt8} (h : IsOperator op) : -1 < precedence op := by
  obtain rfl | rfl | rfl := h <;> decide

theorem readToken_carries {tkns : List ClientToken} {tkn : ClientToken} {s s' : List UInt8 × List ClientToken}
    (h : Carries tkns s) (hRead : QueryParser.readToken s tkn = .ok s') : Carries (tkns ++ [tkn]) s' := by
  obtain ⟨operators, output⟩ := s
  rw [QueryParser.readToken] at hRead
  simp only at hRead
  split at hRead
  · case isTrue hWord =>
    cases hRead
    exact h.word hWord
  split at hRead
  · case isTrue hOp =>
    cases hRead
    exact (h.popWhile (precedence_of_isOperator hOp)).operator hOp
  case isFalse hWord hOp =>
  have hOther := h.other hWord hOp
  split at hRead
  · case isTrue hOpen =>
    cases hRead
    rw [hOpen]
    exact hOther.pushOpen
  split at hRead
  · exact hOther.popToOpen hRead
  · cases hRead
    exact hOther

theorem shuntingYard_carries {infixQuery rpn : List ClientToken} (h : shuntingYard infixQuery = .ok rpn) :
    Carries infixQuery ([], rpn) := by
  obtain ⟨⟨operators, output⟩, hRead, hDrain⟩ := bind_eq_ok_iff.mp h
  have hCarried : Carries ([] ++ infixQuery) (operators, output) :=
    Simulation.foldlM_consumed (fun _ _ _ _ => readToken_carries) Carries.nil hRead
  exact hCarried.drain hDrain

/-- Words in their order, the operators as often as they came, and nothing else. -/
theorem shuntingYard_keeps_tokens {infixQuery rpn : List ClientToken} (h : shuntingYard infixQuery = .ok rpn) :
    words rpn = words infixQuery ∧ (operatorTypes rpn).Perm (operatorTypes infixQuery) ∧
      ∀ tkn, tkn ∈ rpn →
        (tkn.type = wordToken ∨ IsOperator tkn.type) ∧ tkn.type ≠ openToken ∧ tkn.type ≠ closeToken := by
  have hCarried := shuntingYard_carries h
  have hOperators := hCarried.operators
  rw [List.filter_nil, List.append_nil] at hOperators
  refine ⟨hCarried.operands, hOperators, ?_⟩
  intro tkn hTkn
  obtain hWord | ⟨op, hOp, rfl⟩ := hCarried.output tkn hTkn
  · rw [hWord]
    decide
  · refine ⟨.inr hOp, ?_, ?_⟩
    · rintro rfl
      exact not_isOperator_openToken hOp
    · rintro rfl
      exact not_isOperator_closeToken hOp

/-- The query "(a b ! c) & | d": no grammar produces it, and still nothing is lost. -/
theorem shuntingYard_keeps_tokens_ill_formed :
    let tkns := [opTkn openToken, wordTkn [0x61], wordTkn [0x62], opTkn notToken, wordTkn [0x63], opTkn closeToken,
      opTkn andToken, opTkn orToken, wordTkn [0x64]]
    ∃ rpn, shuntingYard tkns = .ok rpn ∧ words rpn = words tkns ∧
      (operatorTypes rpn).Perm (operatorTypes tkns) ∧
      ∀ tkn, tkn ∈ rpn →
        (tkn.type = wordToken ∨ IsOperator tkn.type) ∧ tkn.type ≠ openToken ∧ tkn.type ≠ closeToken :=
  ⟨[wordTkn [0x61], wordTkn [0x62], wordTkn [0x63], opTkn notToken, opTkn andToken, wordTkn [0x64], opTkn orToken],
    rfl, shuntingYard_keeps_tokens rfl⟩

end Bisen.OperandOrder
