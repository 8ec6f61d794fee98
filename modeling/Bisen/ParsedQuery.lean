import Bisen.SseClient

/-! # What the parser lets through

An accepted query is a list of words and operators: no parenthesis and no other token reaches
the message. The order of its tokens is not checked.
-/
namespace Bisen.ParsedQuery
open Wire SseClient QueryParser
set_option autoImplicit false

/-- The tokens that `tokenize` makes: words without a counter, and the five operators. -/
def Tokenized (tkn : ClientToken) : Prop :=
  (∃ word, tkn = wordTkn word) ∨ (∃ op, isOperator op = true ∧ tkn = opTkn op)

theorem tokenizeFrom_tokenized (stem : Bytes → Bytes) (fuel : Nat) (query : Bytes) {tkn : ClientToken}
    (h : tkn ∈ tokenizeFrom stem fuel query) : Tokenized tkn := by
  induction fuel generalizing query with
  | zero => cases h
  | succ fuel ih =>
    cases query with
    | nil => cases h
    | cons c rest =>
      rw [tokenizeFrom] at h
      split at h
      · cases h
      split at h
      · exact ih _ h
      split at h
      · case isTrue hOperator =>
        obtain rfl | h := List.mem_cons.mp h
        · exact .inr ⟨c, hOperator, rfl⟩
        · exact ih _ h
      · obtain rfl | h := List.mem_cons.mp h
        · exact .inl ⟨_, rfl⟩
        · exact ih _ h

theorem tokenize_tokenized {stem : Bytes → Bytes} {query : Bytes} {tkn : ClientToken}
    (h : tkn ∈ tokenize stem query) : Tokenized tkn := tokenizeFrom_tokenized stem query.length query h

def Stacked (op : UInt8) : Prop := op = openToken ∨ ∃ t : Postfix.Token Bytes, clientTkn t = opTkn op

theorem stacked_of_operator {op : UInt8} (h : op = andToken ∨ op = orToken ∨ op = notToken) :
    ∃ t : Postfix.Token Bytes, clientTkn t = opTkn op := by
  obtain rfl | rfl | rfl := h
  · exact ⟨.conj, rfl⟩
  · exact ⟨.disj, rfl⟩
  · exact ⟨.neg, rfl⟩

theorem map_concat {output : List (Postfix.Token Bytes)} {t : Postfix.Token Bytes} {op : UInt8}
    (ht : clientTkn t = opTkn op) : output.map clientTkn ++ [opTkn op] = (output ++ [t]).map clientTkn := by
  rw [List.map_append, List.map_singleton, ht]

theorem popWhile_stacked {p : Int} (hp : -1 < p) {operators : List UInt8} {output : List (Postfix.Token Bytes)}
    (h : ∀ op, op ∈ operators → Stacked op) :
    ∃ (operators' : List UInt8) (output' : List (Postfix.Token Bytes)),
      popWhile p operators (output.map clientTkn) = (operators', output'.map clientTkn) ∧
        ∀ op, op ∈ operators' → Stacked op := by
  induction operators generalizing output with
  | nil => exact ⟨[], output, rfl, h⟩
  | cons top operators ih =>
    rw [popWhile]
    split
    · case isTrue hPop =>
      obtain rfl | ⟨t, ht⟩ := h top List.mem_cons_self
      · have hOpen : precedence openToken = -1 := by decide
        omega
      · rw [map_concat ht]
        exact ih fun op hOp => h op (List.mem_cons_of_mem _ hOp)
    · exact ⟨_, output, rfl, h⟩

theorem popToOpen_stacked {operators operators' : List UInt8} {output : List (Postfix.Token Bytes)}
    {tkns : List ClientToken} (h : ∀ op, op ∈ operators → Stacked op)
    (hPop : popToOpen operators (output.map clientTkn) = .ok (operators', tkns)) :
    ∃ output' : List (Postfix.Token Bytes), tkns = output'.map clientTkn ∧
      ∀ op, op ∈ operators' → Stacked op := by
  induction operators generalizing output with
  | nil => cases hPop
  | cons top operators ih =>
    have hRest : ∀ op, op ∈ operators → Stacked op := fun op hOp => h op (List.mem_cons_of_mem _ hOp)
    rw [popToOpen] at hPop
    split at hPop
    · case isTrue hTop =>
      split at hPop
      · cases hPop
      · obtain hOpen | ⟨t, ht⟩ := h top List.mem_cons_self
        · exact absurd hOpen hTop
        · rw [map_concat ht] at hPop
          exact ih hRest hPop
    · cases hPop
      exact ⟨output, rfl, hRest⟩

theorem readToken_stacked {operators operators' : List UInt8} {output : List (Postfix.Token Bytes)}
    {tkns : List ClientToken} {tkn : ClientToken} (hTkn : Tokenized tkn) (h : ∀ op, op ∈ operators → Stacked op)
    (hRead : QueryParser.readToken (operators, output.map clientTkn) tkn = .ok (operators', tkns)) :
    ∃ output' : List (Postfix.Token Bytes), tkns = output'.map clientTkn ∧
      ∀ op, op ∈ operators' → Stacked op := by
  rw [QueryParser.readToken] at hRead
  simp only at hRead
  split at hRead
  · case isTrue hWord =>
    cases hRead
    obtain ⟨word, rfl⟩ | ⟨op, hOperator, rfl⟩ := hTkn
    · exact ⟨output ++ [.operand word], by rw [List.map_append]; rfl, h⟩
    · rw [show op = wordToken from hWord] at hOperator
      cases hOperator
  split at hRead
  · case isTrue hBinary =>
    have hPrecedence : -1 < precedence tkn.type := by
      rcases hBinary with hOp | hOp | hOp <;> rw [hOp] <;> decide
    obtain ⟨operators₁, output₁, hPop, hStacked⟩ := popWhile_stacked hPrecedence h
    rw [hPop] at hRead
    cases hRead
    refine ⟨output₁, rfl, fun op hOp => ?_⟩
    obtain rfl | hOp := List.mem_cons.mp hOp
    · exact .inr (stacked_of_operator hBinary)
    · exact hStacked op hOp
  split at hRead
  · case isTrue hOpen =>
    cases hRead
    refine ⟨output, rfl, fun op hOp => ?_⟩
    obtain rfl | hOp := List.mem_cons.mp hOp
    · exact .inl hOpen
    · exact h op hOp
  split at hRead
  · exact popToOpen_stacked h hRead
  · cases hRead
    exact ⟨output, rfl, h⟩

theorem drain_stacked {operators : List UInt8} {output : List (Postfix.Token Bytes)} {rpn : List ClientToken}
    (h : ∀ op, op ∈ operators → Stacked op) (hDrain : drain operators (output.map clientTkn) = .ok rpn) :
    ∃ query : List (Postfix.Token Bytes), rpn = query.map clientTkn := by
  induction operators generalizing output with
  | nil =>
    cases hDrain
    exact ⟨output, rfl⟩
  | cons top operators ih =>
    rw [drain] at hDrain
    split at hDrain
    · cases hDrain
    · case isFalse hTop =>
      obtain hOpen | ⟨t, ht⟩ := h top List.mem_cons_self
      · exact absurd (.inl hOpen) hTop
      · rw [map_concat ht] at hDrain
        exact ih (fun op hOp => h op (List.mem_cons_of_mem _ hOp)) hDrain

/-- The postfix list of an accepted query is made of words and the three operators. -/
theorem shuntingYard_tokens {infixQuery rpn : List ClientToken}
    (hTkns : ∀ tkn, tkn ∈ infixQuery → Tokenized tkn) (h : shuntingYard infixQuery = .ok rpn) :
    ∃ query : List (Postfix.Token Bytes), rpn = query.map clientTkn := by
  obtain ⟨⟨operators, tkns⟩, hRead, hDrain⟩ := bind_eq_ok_iff.mp h
  have hRun : ∀ (tkns₀ : List ClientToken) (operators₀ : List UInt8) (output : List (Postfix.Token Bytes)),
      (∀ tkn, tkn ∈ tkns₀ → Tokenized tkn) → (∀ op, op ∈ operators₀ → Stacked op) →
      tkns₀.foldlM QueryParser.readToken (operators₀, output.map clientTkn) = .ok (operators, tkns) →
      ∃ output' : List (Postfix.Token Bytes), tkns = output'.map clientTkn ∧
        ∀ op, op ∈ operators → Stacked op := by
    intro tkns₀
    induction tkns₀ with
    | nil =>
      intro operators₀ output _ hStacked hEq
      cases hEq
      exact ⟨output, rfl, hStacked⟩
    | cons tkn tkns₀ ih =>
      intro operators₀ output hAll hStacked hEq
      rw [List.foldlM_cons] at hEq
      obtain ⟨⟨operators₁, tkns₁⟩, hStep, hRest⟩ := bind_eq_ok_iff.mp hEq
      obtain ⟨output₁, rfl, hStacked₁⟩ := readToken_stacked (hAll tkn List.mem_cons_self) hStacked hStep
      exact ih operators₁ output₁ (fun t ht => hAll t (List.mem_cons_of_mem _ ht)) hStacked₁ hRest
  obtain ⟨output, rfl, hStacked⟩ := hRun infixQuery [] [] hTkns (by simp) hRead
  exact drain_stacked hStacked hDrain

theorem search_eq {P : Platform} {stem : Bytes → Bytes} {client : SseClient} {queryString : Bytes} {b : Buffer}
    (h : client.search P stem queryString = .ok b) :
    ∃ query : List (Postfix.Token Bytes), shuntingYard (tokenize stem queryString) = .ok (query.map clientTkn) ∧
      client.searchRpn P (query.map clientTkn) = .ok b := by
  obtain ⟨rpn, hRpn, hSearch⟩ := bind_eq_ok_iff.mp h
  obtain ⟨query, rfl⟩ := shuntingYard_tokens (fun _ => tokenize_tokenized) hRpn
  exact ⟨query, hRpn, hSearch⟩

end Bisen.ParsedQuery
