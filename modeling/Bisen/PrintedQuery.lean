import Bisen.InfixParse
import Mathlib.Data.List.Chain
import Mathlib.Data.List.TakeWhile

/-! # Printing a query and parsing it back

An expression is written with parentheses where precedence asks for them, with single or doubled
operator characters and with spaces between tokens. The tokenizer finds the tokens again, because no two
words and no two equal binary operators are neighbours, and the parser then finds the expression.
-/
namespace Bisen
open Wire QueryParser SseClient
set_option autoImplicit false

namespace Infix
variable {α : Type}

/-- Operands that bind looser than their context, or as tightly on the right, are in parentheses, and so
are negations under a negation. -/
def Parenthesized : Infix α → Prop
  | .word _ => True
  | .not e => 3 ≤ e.level ∧ e.isNot = false ∧ e.Parenthesized
  | .and e f => 2 ≤ e.level ∧ 3 ≤ f.level ∧ e.Parenthesized ∧ f.Parenthesized
  | .or e f => 2 ≤ f.level ∧ e.Parenthesized ∧ f.Parenthesized
  | .paren e => e.Parenthesized

theorem Parenthesized.respects {e : Infix α} (h : e.Parenthesized) : e.Respects := by
  induction e with
  | word a => trivial
  | not e ih => exact ⟨h.1, ih h.2.2⟩
  | and e f ihe ihf => exact ⟨h.1, h.2.1, ihe h.2.2.1, ihf h.2.2.2⟩
  | or e f ihe ihf => exact ⟨h.1, ihe h.2.1, ihf h.2.2⟩
  | paren e ih => exact ih h

theorem Parenthesized.surplus_eq {e : Infix α} (h : e.Parenthesized) : e.surplus = 0 := by
  induction e with
  | word a => rfl
  | not e ih =>
    rw [surplus, h.2.1]
    exact ih h.2.2
  | and e f ihe _ => exact ihe h.2.2.1
  | or e f ihe _ => exact ihe h.2.1
  | paren e ih => exact ih h

theorem Parenthesized.coded_eq {e : Infix α} (h : e.Parenthesized) : e.coded = e.expr := by
  induction e with
  | word a => rfl
  | not e ih =>
    rw [coded, h.2.1, expr, ← ih h.2.2]
    rfl
  | and e f ihe ihf =>
    rw [coded, h.2.2.2.surplus_eq, ihe h.2.2.1, ihf h.2.2.2]
    rfl
  | or e f ihe ihf =>
    rw [coded, h.2.2.surplus_eq, ihe h.2.1, ihf h.2.2]
    rfl
  | paren e ih => exact ih h

theorem Parenthesized.rpn_eq {e : Infix α} (h : e.Parenthesized) : e.rpn = e.expr.postorder := by
  rw [rpn, h.surplus_eq, h.coded_eq]
  rfl

theorem Parenthesized.map {β : Type} {e : Infix α} (h : e.Parenthesized) (g : α → β) :
    (e.map g).Parenthesized := by
  induction e with
  | word a => trivial
  | not e ih =>
    refine ⟨?_, by rw [isNot_map]; exact h.2.1, ih h.2.2⟩
    cases e <;> exact h.1
  | and e f ihe ihf =>
    refine ⟨?_, ?_, ihe h.2.2.1, ihf h.2.2.2⟩
    · cases e <;> exact h.1
    · cases f <;> exact h.2.1
  | or e f ihe ihf =>
    refine ⟨?_, ihe h.2.1, ihf h.2.2⟩
    cases f <;> exact h.1
  | paren e ih => exact ih h

end Infix

namespace PrintedQuery

/-! ## The tokenizer, without its fuel -/

section Tokenize
variable (stem : Bytes → Bytes)

theorem tokenizeFrom_eq {fuel fuel' : Nat} {s : Bytes} (h : s.length ≤ fuel) (h' : s.length ≤ fuel') :
    tokenizeFrom stem fuel s = tokenizeFrom stem fuel' s := by
  induction fuel generalizing fuel' s with
  | zero =>
    obtain rfl := List.eq_nil_of_length_eq_zero (Nat.le_zero.mp h)
    cases fuel' <;> rfl
  | succ fuel ih =>
    cases s with
    | nil => cases fuel' <;> rfl
    | cons c s =>
      rw [List.length_cons] at h h'
      obtain ⟨fuel', rfl⟩ := Nat.exists_eq_succ_of_ne_zero (show fuel' ≠ 0 by omega)
      have hRest : ∀ rest : Bytes, rest.length ≤ s.length →
          tokenizeFrom stem fuel rest = tokenizeFrom stem fuel' rest :=
        fun rest hLe => ih (by omega) (by omega)
      rw [tokenizeFrom, tokenizeFrom]
      split
      · rfl
      split
      · exact hRest s (Nat.le_refl _)
      split
      · refine congrArg (List.cons _) (hRest _ ?_)
        split
        · rw [List.length_tail]
          exact Nat.sub_le ..
        · exact Nat.le_refl _
      · case isFalse hNul hSpace hOperator =>
        refine congrArg (List.cons _) (hRest _ ?_)
        have hWordChar : isWordChar c = true := by simp [isWordChar, hNul, hSpace, hOperator]
        rw [List.dropWhile_cons_of_pos hWordChar]
        exact (List.dropWhile_sublist _).length_le

theorem tokenizeFrom_length {fuel : Nat} {s : Bytes} (h : s.length ≤ fuel) :
    tokenizeFrom stem fuel s = tokenize stem s := tokenizeFrom_eq stem h (Nat.le_refl _)

theorem tokenize_space (s : Bytes) : tokenize stem (space :: s) = tokenize stem s := by
  rw [tokenize, List.length_cons, tokenizeFrom, if_neg (by decide), if_pos rfl]
  rfl

theorem tokenize_spaces (n : Nat) (s : Bytes) : tokenize stem (List.replicate n space ++ s) = tokenize stem s := by
  induction n with
  | zero => rfl
  | succ n ih => rw [List.replicate_succ, List.cons_append, tokenize_space, ih]

theorem tokenize_operator {op : UInt8} (hOp : isOperator op = true) (s : Bytes) :
    tokenize stem (op :: s) =
      opTkn op :: tokenize stem (if (op = andToken ∨ op = orToken) ∧ s.head? = some op then s.tail else s) := by
  have hNul : op ≠ 0 := by
    rintro rfl
    cases hOp
  have hSpace : op ≠ space := by
    rintro rfl
    cases hOp
  rw [tokenize, List.length_cons, tokenizeFrom, if_neg hNul, if_neg hSpace, if_pos hOp]
  refine congrArg (List.cons _) (tokenizeFrom_length stem ?_)
  split
  · rw [List.length_tail]
    exact Nat.sub_le ..
  · exact Nat.le_refl _

/-- A word as the client can type it. -/
def Writable (w : Bytes) : Prop := w ≠ [] ∧ ∀ c, c ∈ w → isWordChar c = true

theorem tokenize_word {w s : Bytes} (hWord : Writable w) (hEnd : ∀ c, s.head? = some c → isWordChar c = false) :
    tokenize stem (w ++ s) = wordTkn (stemWord stem w) :: tokenize stem s := by
  obtain ⟨hNil, hChars⟩ := hWord
  have hTake : (w ++ s).takeWhile isWordChar = w ∧ (w ++ s).dropWhile isWordChar = s := by
    rw [List.takeWhile_append_of_pos hChars, List.dropWhile_append_of_pos hChars]
    cases s with
    | nil => exact ⟨List.append_nil _, rfl⟩
    | cons c s =>
      have hc : ¬ isWordChar c = true := by simp [hEnd c rfl]
      rw [List.takeWhile_cons_of_neg hc, List.dropWhile_cons_of_neg hc]
      exact ⟨List.append_nil _, rfl⟩
  obtain ⟨c, rest, rfl⟩ := List.exists_cons_of_ne_nil hNil
  have hc := hChars c List.mem_cons_self
  simp only [isWordChar, Bool.and_eq_true, bne_iff_ne, Bool.not_eq_true'] at hc
  obtain ⟨⟨hNul, hSpace⟩, hOperator⟩ := hc
  rw [List.cons_append] at hTake ⊢
  rw [tokenize, List.length_cons, tokenizeFrom, if_neg hNul, if_neg hSpace, if_neg (by simp [hOperator]), hTake.1,
    hTake.2]
  refine congrArg (List.cons _) (tokenizeFrom_length stem ?_)
  rw [List.length_append]
  exact Nat.le_add_left _ _

/-- A word that a character behind it ends. -/
theorem exists_word {c : UInt8} {s : Bytes} (hChar : isWordChar c = true)
    (hEnd : ∀ d ∈ (c :: s).getLast?, isWordChar d = false) :
    ∃ w d t, c :: s = w ++ d :: t ∧ Writable w ∧ isWordChar d = false := by
  have hWord : Writable ((c :: s).takeWhile isWordChar) := by
    refine ⟨?_, fun d hd => List.mem_takeWhile_imp hd⟩
    rw [List.takeWhile_cons_of_pos hChar]
    exact List.cons_ne_nil _ _
  have hSplit := (List.takeWhile_append_dropWhile (p := isWordChar) (l := c :: s)).symm
  have hStop := List.head?_dropWhile_not isWordChar (c :: s)
  cases hRest : (c :: s).dropWhile isWordChar with
  | nil =>
    obtain ⟨d, hd⟩ : ∃ d, (c :: s).getLast? = some d := ⟨_, List.getLast?_eq_some_getLast (List.cons_ne_nil c s)⟩
    have hAll := List.dropWhile_eq_nil_iff.mp hRest d (List.mem_of_getLast? hd)
    rw [hEnd d hd] at hAll
    cases hAll
  | cons d t =>
    rw [hRest] at hSplit hStop
    exact ⟨_, d, t, hSplit, hWord, hStop⟩

/-- The tokens in front stay as they are when a word follows that they do not reach into. -/
theorem tokenize_append {front rest : Bytes} (hNul : (0 : UInt8) ∉ front)
    (hEnd : ∀ c ∈ front.getLast?, isWordChar c = false) (hRest : ∀ c ∈ rest.head?, isOperator c = false) :
    tokenize stem (front ++ rest) = tokenize stem front ++ tokenize stem rest := by
  induction hn : front.length using Nat.strongRecOn generalizing front with
  | _ n ih =>
    subst hn
    have hShorter : ∀ w t : Bytes, front = w ++ t → w ≠ [] →
        tokenize stem (t ++ rest) = tokenize stem t ++ tokenize stem rest := by
      rintro w t rfl hw
      refine ih t.length ?_ (fun hMem => hNul (List.mem_append_right w hMem)) (fun c hc => hEnd c ?_) rfl
      · have hPos := List.length_pos_iff.mpr hw
        rw [List.length_append]
        omega
      · rw [List.getLast?_append, Option.mem_def.mp hc]
        rfl
    cases front with
    | nil => rfl
    | cons c s =>
      by_cases hSpace : c = space
      · rw [hSpace, List.cons_append, tokenize_space, tokenize_space]
        exact hShorter [c] s rfl (List.cons_ne_nil _ _)
      by_cases hOp : isOperator c = true
      · rw [List.cons_append, tokenize_operator stem hOp, tokenize_operator stem hOp, List.cons_append]
        refine congrArg (List.cons _) ?_
        cases s with
        | nil =>
          have hApart : ¬ rest.head? = some c := by
            intro hHead
            rw [hRest c hHead] at hOp
            cases hOp
          rw [List.nil_append, if_neg fun h => hApart h.2, if_neg fun h => Option.some_ne_none _ h.2.symm]
          rfl
        | cons d s =>
          rw [List.cons_append, List.head?_cons, List.head?_cons, List.tail_cons, List.tail_cons]
          split
          · exact hShorter [c, d] s rfl (List.cons_ne_nil _ _)
          · exact hShorter [c] (d :: s) rfl (List.cons_ne_nil _ _)
      · have hChar : isWordChar c = true := by
          have hc : c ≠ 0 := by
            rintro rfl
            exact hNul List.mem_cons_self
          simp [isWordChar, hc, hSpace, hOp]
        obtain ⟨w, d, t, hSplit, hWord, hd⟩ := exists_word hChar hEnd
        have hHead : ∀ u x, (d :: u).head? = some x → isWordChar x = false := by
          rintro u x hx
          cases hx
          exact hd
        have hTail := hShorter w (d :: t) hSplit hWord.1
        rw [List.cons_append] at hTail
        rw [hSplit, List.append_assoc, List.cons_append, tokenize_word stem hWord (hHead _),
          tokenize_word stem hWord (hHead _), hTail, List.cons_append]

end Tokenize

/-! ## Printing tokens -/

/-- The query strings that write out a token list. -/
inductive Prints : List ClientToken → Bytes → Prop
  | nil (n : Nat) : Prints [] (List.replicate n space)
  | word (n : Nat) {w : Bytes} {tkns : List ClientToken} {s : Bytes} (h : Prints tkns s) :
      Prints (wordTkn w :: tkns) (List.replicate n space ++ (w ++ s))
  | single (n : Nat) {op : UInt8} {tkns : List ClientToken} {s : Bytes} (hOp : isOperator op = true)
      (h : Prints tkns s) : Prints (opTkn op :: tkns) (List.replicate n space ++ op :: s)
  | doubled (n : Nat) {op : UInt8} {tkns : List ClientToken} {s : Bytes} (hOp : op = andToken ∨ op = orToken)
      (h : Prints tkns s) : Prints (opTkn op :: tkns) (List.replicate n space ++ op :: op :: s)

/-- Neighbours that keep apart without a space. -/
def Apart (t u : ClientToken) : Prop :=
  ¬ (t.type = wordToken ∧ u.type = wordToken) ∧ ¬ (t.type = u.type ∧ (t.type = andToken ∨ t.type = orToken))

def Words (tkns : List ClientToken) : Prop := ∀ w, wordTkn w ∈ tkns → Writable w

/-- How a query string begins. -/
theorem Prints.head {tkns : List ClientToken} {s : Bytes} (h : Prints tkns s) (hWords : Words tkns) {c : UInt8}
    (hc : s.head? = some c) : c = space ∨ (∃ w rest, tkns = wordTkn w :: rest ∧ isWordChar c = true) ∨
      ∃ rest, tkns = opTkn c :: rest ∧ isOperator c = true := by
  have hSpaces : ∀ (n : Nat) (rest : Bytes), (List.replicate n space ++ rest).head? = some c →
      c = space ∨ rest.head? = some c := by
    intro n rest hHead
    cases n with
    | zero => exact .inr hHead
    | succ n => exact .inl (Option.some.inj hHead).symm
  cases h with
  | nil n =>
    cases n with
    | zero => cases hc
    | succ n => exact .inl (Option.some.inj hc).symm
  | word n h =>
    rename_i w tkns s
    obtain hSpace | hHead := hSpaces _ _ hc
    · exact .inl hSpace
    · obtain ⟨hNil, hChars⟩ := hWords w List.mem_cons_self
      rw [List.head?_append_of_ne_nil _ hNil] at hHead
      exact .inr (.inl ⟨w, tkns, rfl, hChars c (List.mem_of_head? hHead)⟩)
  | single n hOp h =>
    obtain hSpace | hHead := hSpaces _ _ hc
    · exact .inl hSpace
    · cases hHead
      exact .inr (.inr ⟨_, rfl, hOp⟩)
  | doubled n hOp h =>
    obtain hSpace | hHead := hSpaces _ _ hc
    · exact .inl hSpace
    · cases hHead
      refine .inr (.inr ⟨_, rfl, ?_⟩)
      rcases hOp with rfl | rfl <;> rfl

/-- A token as the tokenizer returns it. -/
def stemmed (stem : Bytes → Bytes) (tkn : ClientToken) : ClientToken :=
  if tkn.type = wordToken then { tkn with word := stemWord stem tkn.word } else tkn

theorem stemmed_operator (stem : Bytes → Bytes) {op : UInt8} (hOp : isOperator op = true) :
    stemmed stem (opTkn op) = opTkn op := by
  apply if_neg
  rintro rfl
  cases hOp

theorem tokenize_prints (stem : Bytes → Bytes) {tkns : List ClientToken} {s : Bytes} (h : Prints tkns s)
    (hApart : tkns.IsChain Apart) (hWords : Words tkns) : tokenize stem s = tkns.map (stemmed stem) := by
  induction h with
  | nil n =>
    have hSpaces := tokenize_spaces stem n []
    rwa [List.append_nil] at hSpaces
  | @word n w tkns s h ih =>
    have hRest : Words tkns := fun w hw => hWords w (List.mem_cons_of_mem _ hw)
    rw [tokenize_spaces, tokenize_word stem (hWords w List.mem_cons_self), ih hApart.of_cons hRest]
    · rfl
    · intro c hc
      obtain rfl | ⟨w', rest, rfl, _⟩ | ⟨rest, _, hOp⟩ := h.head hRest hc
      · rfl
      · exact absurd ⟨rfl, rfl⟩ (List.isChain_cons_cons.mp hApart).1.1
      · simp [isWordChar, hOp]
  | @single n op tkns s hOp h ih =>
    have hRest : Words tkns := fun w hw => hWords w (List.mem_cons_of_mem _ hw)
    rw [tokenize_spaces, tokenize_operator stem hOp, if_neg, ih hApart.of_cons hRest, List.map_cons,
      stemmed_operator stem hOp]
    rintro ⟨hBinary, hc⟩
    obtain rfl | ⟨w, rest, _, hChar⟩ | ⟨rest, rfl, _⟩ := h.head hRest hc
    · cases hOp
    · simp [isWordChar, hOp] at hChar
    · exact absurd ⟨rfl, hBinary⟩ (List.isChain_cons_cons.mp hApart).1.2
  | @doubled n op tkns s hOp h ih =>
    have hRest : Words tkns := fun w hw => hWords w (List.mem_cons_of_mem _ hw)
    have hOperator : isOperator op = true := by rcases hOp with rfl | rfl <;> rfl
    rw [tokenize_spaces, tokenize_operator stem hOperator, if_pos ⟨hOp, rfl⟩, List.tail_cons,
      ih hApart.of_cons hRest, List.map_cons, stemmed_operator stem hOperator]

/-! ## Printing trees -/

/-- A token that starts an operand. -/
def Starts (t : ClientToken) : Prop := t.type = wordToken ∨ t.type = notToken ∨ t.type = openToken

/-- A token that ends one. -/
def Ends (t : ClientToken) : Prop := t.type = wordToken ∨ t.type = closeToken

theorem tokens_starts (e : Infix Bytes) : ∃ t rest, e.tokens = t :: rest ∧ Starts t := by
  induction e with
  | word w => exact ⟨_, _, rfl, .inl rfl⟩
  | not e _ => exact ⟨_, _, rfl, .inr (.inl rfl)⟩
  | and e f ih _ =>
    obtain ⟨t, rest, hEq, hStart⟩ := ih
    exact ⟨t, rest ++ opTkn andToken :: f.tokens, by rw [Infix.tokens, hEq, List.cons_append], hStart⟩
  | or e f ih _ =>
    obtain ⟨t, rest, hEq, hStart⟩ := ih
    exact ⟨t, rest ++ opTkn orToken :: f.tokens, by rw [Infix.tokens, hEq, List.cons_append], hStart⟩
  | paren e _ => exact ⟨_, _, rfl, .inr (.inr rfl)⟩

theorem tokens_ends (e : Infix Bytes) : ∃ rest t, e.tokens = rest ++ [t] ∧ Ends t := by
  induction e with
  | word w => exact ⟨[], _, rfl, .inl rfl⟩
  | not e ih =>
    obtain ⟨rest, t, hEq, hEnd⟩ := ih
    exact ⟨opTkn notToken :: rest, t, by rw [Infix.tokens, hEq, List.cons_append], hEnd⟩
  | and e f _ ih =>
    obtain ⟨rest, t, hEq, hEnd⟩ := ih
    exact ⟨e.tokens ++ opTkn andToken :: rest, t, by rw [Infix.tokens, hEq, List.append_assoc, List.cons_append],
      hEnd⟩
  | or e f _ ih =>
    obtain ⟨rest, t, hEq, hEnd⟩ := ih
    exact ⟨e.tokens ++ opTkn orToken :: rest, t, by rw [Infix.tokens, hEq, List.append_assoc, List.cons_append],
      hEnd⟩
  | paren e _ => exact ⟨opTkn openToken :: e.tokens, _, rfl, .inr rfl⟩

theorem Ends.apart {t : ClientToken} (h : Ends t) {op : UInt8} (hOp : op ≠ wordToken) : Apart t (opTkn op) := by
  refine ⟨fun hWords => hOp hWords.2, ?_⟩
  rintro ⟨_, hBinary⟩
  rcases h with hType | hType <;> rw [hType] at hBinary <;> exact absurd hBinary (by decide)

theorem Starts.apart {t : ClientToken} (h : Starts t) {op : UInt8} (hOp : op ≠ wordToken) : Apart (opTkn op) t := by
  refine ⟨fun hWords => hOp hWords.1, ?_⟩
  rintro ⟨hEq, hBinary⟩
  have hBinary : t.type = andToken ∨ t.type = orToken := hEq ▸ hBinary
  rcases h with hType | hType | hType <;> rw [hType] at hBinary <;> exact absurd hBinary (by decide)

theorem isChain_cons {e : Infix Bytes} {op : UInt8} (hOp : op ≠ wordToken) (h : e.tokens.IsChain Apart) :
    (opTkn op :: e.tokens).IsChain Apart := by
  obtain ⟨t, rest, hEq, hStart⟩ := tokens_starts e
  rw [hEq] at h ⊢
  exact List.isChain_cons_cons.mpr ⟨hStart.apart hOp, h⟩

theorem isChain_concat {e : Infix Bytes} {op : UInt8} {more : List ClientToken} (hOp : op ≠ wordToken)
    (h : e.tokens.IsChain Apart) (hMore : (opTkn op :: more).IsChain Apart) :
    (e.tokens ++ opTkn op :: more).IsChain Apart := by
  obtain ⟨rest, t, hEq, hEnd⟩ := tokens_ends e
  rw [hEq] at h ⊢
  rw [List.append_assoc, List.singleton_append]
  exact List.isChain_append_cons_cons.mpr ⟨h, hEnd.apart hOp, hMore⟩

theorem isChain_tokens (e : Infix Bytes) : e.tokens.IsChain Apart := by
  induction e with
  | word w => exact List.isChain_singleton _
  | not e ih => exact isChain_cons (by decide) ih
  | and e f ihe ihf => exact isChain_concat (by decide) ihe (isChain_cons (by decide) ihf)
  | or e f ihe ihf => exact isChain_concat (by decide) ihe (isChain_cons (by decide) ihf)
  | paren e ih =>
    have hOpen := isChain_cons (show openToken ≠ wordToken by decide) ih
    obtain ⟨rest, t, hEq, hEnd⟩ := tokens_ends e
    rw [hEq, ← List.cons_append] at hOpen
    rw [Infix.tokens, hEq, ← List.cons_append, List.append_assoc, List.singleton_append]
    exact List.isChain_append_cons_cons.mpr ⟨hOpen, hEnd.apart (by decide), List.isChain_singleton _⟩

theorem mem_around {α : Type} {x op : α} {l r : List α} (hOp : x ≠ op) (h : x ∈ l ++ op :: r) : x ∈ l ++ r := by
  obtain h | h := List.mem_append.mp h
  · exact List.mem_append_left _ h
  · exact List.mem_append_right _ ((List.mem_cons.mp h).resolve_left hOp)

theorem words_tokens {e : Infix Bytes} (h : ∀ w, w ∈ e.words → Writable w) : Words e.tokens := by
  intro w hw
  apply h w
  clear h
  induction e with
  | word w' =>
    rw [Infix.tokens, List.mem_singleton] at hw
    cases hw
    exact List.mem_singleton_self _
  | not e ih =>
    obtain hOp | hw := List.mem_cons.mp hw
    · cases hOp
    · exact ih hw
  | and e f ihe ihf =>
    obtain hw | hw := List.mem_append.mp (mem_around (fun h => by cases h) hw)
    · exact List.mem_append_left _ (ihe hw)
    · exact List.mem_append_right _ (ihf hw)
  | or e f ihe ihf =>
    obtain hw | hw := List.mem_append.mp (mem_around (fun h => by cases h) hw)
    · exact List.mem_append_left _ (ihe hw)
    · exact List.mem_append_right _ (ihf hw)
  | paren e ih =>
    obtain hw | hw := List.mem_append.mp hw
    · obtain hOp | hw := List.mem_cons.mp hw
      · cases hOp
      · exact ih hw
    · rw [List.mem_singleton] at hw
      cases hw

theorem tokens_map (stem : Bytes → Bytes) (e : Infix Bytes) :
    (e.map (stemWord stem)).tokens = e.tokens.map (stemmed stem) := by
  induction e with
  | word w => rfl
  | not e ih => rw [Infix.map, Infix.tokens, Infix.tokens, ih]; rfl
  | and e f ihe ihf => rw [Infix.map, Infix.tokens, Infix.tokens, ihe, ihf, List.map_append]; rfl
  | or e f ihe ihf => rw [Infix.map, Infix.tokens, Infix.tokens, ihe, ihf, List.map_append]; rfl
  | paren e ih => rw [Infix.map, Infix.tokens, Infix.tokens, ih, List.map_append]; rfl

/-- The query strings that write out an expression. -/
def Renders (expr : Postfix.Expr Bytes) (s : Bytes) : Prop :=
  ∃ e : Infix Bytes, e.expr = expr ∧ e.Parenthesized ∧ Prints e.tokens s

end PrintedQuery
end Bisen
