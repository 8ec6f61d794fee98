import Bisen.InfixQuery

/-! # Parsing an infix query

The operator stack below the tokens of a query stays as it is; above it stand the operators whose
right operand may go on. What has been written, followed by these, is the postfix form.
-/
namespace Bisen.Infix
open Wire QueryParser SseClient
set_option autoImplicit false

/-! ## The loops over the stack -/

def Below (p : Int) (operators : List UInt8) : Prop := ∀ op, operators.head? = some op → precedence op < p

theorem Below.mono {p q : Int} {operators : List UInt8} (h : Below p operators)
    (hLe : p ≤ q) : Below q operators :=
  fun op hOp => Int.lt_of_lt_of_le (h op hOp) hLe

theorem below_cons {p : Int} {op : UInt8} {operators : List UInt8} (h : precedence op < p) :
    Below p (op :: operators) := by
  intro top hTop
  cases hTop
  exact h

theorem popWhile_append {p : Int} {pend operators : List UInt8} (hPend : ∀ op, op ∈ pend → p ≤ precedence op)
    (hBelow : Below p operators) (output : List ClientToken) :
    popWhile p (pend ++ operators) output = (operators, output ++ pend.map opTkn) := by
  induction pend generalizing output with
  | nil =>
    rw [List.nil_append, List.map_nil, List.append_nil]
    cases operators with
    | nil => rfl
    | cons top operators =>
      have hTop := hBelow top rfl
      rw [popWhile, if_neg (by omega)]
  | cons top pend ih =>
    have hTop := hPend top List.mem_cons_self
    rw [List.cons_append, popWhile, if_pos hTop, ih fun op hOp => hPend op (List.mem_cons_of_mem _ hOp)]
    simp

theorem ne_openToken {op : UInt8} (h : 1 ≤ precedence op) : op ≠ openToken ∧ op ≠ closeToken := by
  have hOpen : precedence openToken = -1 := by decide
  have hClose : precedence closeToken = -1 := by decide
  constructor
  · rintro rfl
    omega
  · rintro rfl
    omega

theorem popToOpen_append {pend operators : List UInt8} (hPend : ∀ op, op ∈ pend → 1 ≤ precedence op)
    (output : List ClientToken) :
    popToOpen (pend ++ openToken :: operators) output = .ok (operators, output ++ pend.map opTkn) := by
  induction pend generalizing output with
  | nil =>
    rw [List.nil_append, List.map_nil, List.append_nil]
    rfl
  | cons top pend ih =>
    have hTop := (ne_openToken (hPend top List.mem_cons_self)).1
    have hMore : (pend ++ openToken :: operators).isEmpty = false := by simp
    rw [List.cons_append, popToOpen, if_pos hTop, hMore, if_neg Bool.false_ne_true,
      ih fun op hOp => hPend op (List.mem_cons_of_mem _ hOp)]
    simp

theorem drain_eq {pend : List UInt8} (hPend : ∀ op, op ∈ pend → 1 ≤ precedence op) (output : List ClientToken) :
    drain pend output = .ok (output ++ pend.map opTkn) := by
  induction pend generalizing output with
  | nil => rw [drain, List.map_nil, List.append_nil]
  | cons top pend ih =>
    obtain ⟨hOpen, hClose⟩ := ne_openToken (hPend top List.mem_cons_self)
    rw [drain, if_neg (by simp [hOpen, hClose]), ih fun op hOp => hPend op (List.mem_cons_of_mem _ hOp)]
    simp

/-! ## One query on the stack -/

section Reading
variable {e f : Infix Bytes}

theorem one_le_level (e : Infix Bytes) : 1 ≤ e.level := by
  cases e <;> simp [level]

theorem postorder_neg_iterate (n : Nat) (x : Postfix.Expr Bytes) :
    (Postfix.Expr.neg^[n] x).postorder = x.postorder ++ List.replicate n .neg := by
  induction n generalizing x with
  | zero => simp
  | succ n ih =>
    rw [Function.iterate_succ_apply, ih, Postfix.Expr.postorder, List.append_assoc]
    rfl

/-- Nothing on the stack is popped by the first token of the query. -/
def Ready (e : Infix Bytes) (operators : List UInt8) : Prop :=
  (3 ≤ e.level ∧ e.isNot = false) ∨ Below e.level operators

/-- Reading a query writes `out` and leaves `pend` above the stack. -/
structure Reads (e : Infix Bytes) (out : List ClientToken) (pend : List UInt8) : Prop where
  run : ∀ operators output, Ready e operators →
    e.tokens.foldlM readToken (operators, output) = .ok (pend ++ operators, output ++ out)
  rpn : out ++ pend.map opTkn = e.rpn.map clientTkn
  binds : ∀ op, op ∈ pend → e.level ≤ precedence op
  closed : 3 ≤ e.level → e.isNot = false → pend = []

theorem Reads.pending {out : List ClientToken} {pend : List UInt8} (h : Reads e out pend) {op : UInt8}
    (hOp : op ∈ pend) : 1 ≤ precedence op := Int.le_trans (one_le_level e) (h.binds op hOp)

theorem reads_word (w : Bytes) : Reads (.word w) [wordTkn w] [] where
  run _ _ _ := rfl
  rpn := rfl
  binds _ h := absurd h List.not_mem_nil
  closed _ _ := rfl

theorem readToken_not {operators : List UInt8} (h : Below 3 operators) (output : List ClientToken) :
    readToken (operators, output) (opTkn notToken) = .ok (notToken :: operators, output) := by
  have hNone : ∀ op, op ∈ ([] : List UInt8) → 3 ≤ precedence op := by simp
  have hPop := popWhile_append hNone h output
  rw [List.nil_append, List.map_nil, List.append_nil] at hPop
  change Except.ok (notToken :: (popWhile 3 operators output).1, (popWhile 3 operators output).2) = _
  rw [hPop]

theorem readToken_not_not {operators : List UInt8} (h : Below 3 operators) (output : List ClientToken) :
    readToken (notToken :: operators, output) (opTkn notToken) =
      readToken (operators, output ++ [opTkn notToken]) (opTkn notToken) := by
  have hTop : ∀ op, op ∈ [notToken] → 3 ≤ precedence op := List.forall_mem_singleton.mpr (Int.le_refl 3)
  have hPop := popWhile_append hTop h output
  rw [readToken_not h]
  change Except.ok (notToken :: (popWhile 3 ([notToken] ++ operators) output).1,
    (popWhile 3 ([notToken] ++ operators) output).2) = _
  rw [hPop]
  rfl

theorem reads_not {out : List ClientToken} {pend : List UInt8} (hLevel : 3 ≤ e.level) (h : Reads e out pend) :
    ∃ out' pend', Reads (.not e) out' pend' := by
  have hBelow : ∀ operators, Ready (.not e) operators → Below 3 operators := by
    rintro operators (⟨_, hNot⟩ | hBelow)
    · cases hNot
    · exact hBelow
  cases hNot : e.isNot with
  | false =>
    have hPend := h.closed hLevel hNot
    have hBinds : ∀ op, op ∈ [notToken] → 3 ≤ precedence op := List.forall_mem_singleton.mpr (Int.le_refl 3)
    refine ⟨out, [notToken], ?_, ?_, hBinds, fun _ h => by cases h⟩
    · intro operators output hReady
      rw [tokens, List.foldlM_cons, readToken_not (hBelow _ hReady)]
      have hRun := h.run (notToken :: operators) output (.inl ⟨hLevel, hNot⟩)
      rw [hPend] at hRun
      exact hRun
    · have hRpn := h.rpn
      rw [hPend, List.map_nil, List.append_nil] at hRpn
      rw [hRpn, rpn, rpn, surplus, coded, hNot]
      simp [Postfix.Expr.postorder, clientTkn]
  | true =>
    cases e with
    | not e' =>
      refine ⟨opTkn notToken :: out, pend, ?_, ?_, h.binds, fun _ h => by cases h⟩
      · intro operators output hReady
        have hRun := h.run operators (output ++ [opTkn notToken]) (.inr (hBelow _ hReady))
        rw [tokens, List.foldlM_cons] at hRun
        rw [tokens, List.foldlM_cons, readToken_not (hBelow _ hReady)]
        change (tokens e'.not).foldlM readToken (notToken :: operators, output) = _
        rw [tokens, List.foldlM_cons, readToken_not_not (hBelow _ hReady), hRun]
        simp
      · have hRpn : (e'.not.not).rpn = .neg :: e'.not.rpn := rfl
        rw [List.cons_append, h.rpn, hRpn]
        rfl
    | _ => cases hNot

theorem reads_paren {out : List ClientToken} {pend : List UInt8} (h : Reads e out pend) :
    Reads (.paren e) (out ++ pend.map opTkn) [] where
  run operators output _ := by
    have hLevel := one_le_level e
    have hOpen : precedence openToken = -1 := by decide
    have hRun := h.run (openToken :: operators) output (.inr (below_cons (by omega)))
    rw [tokens, List.cons_append, List.foldlM_cons]
    change (e.tokens ++ [opTkn closeToken]).foldlM readToken (openToken :: operators, output) = _
    rw [List.foldlM_append, hRun]
    change popToOpen (pend ++ openToken :: operators) (output ++ out) >>= pure = _
    rw [popToOpen_append (fun op hOp => h.pending hOp), List.append_assoc]
    rfl
  rpn := by rw [List.map_nil, List.append_nil, h.rpn]; rfl
  binds _ h := absurd h List.not_mem_nil
  closed _ _ := rfl

structure Binary (op : UInt8) (p : Int) : Prop where
  read : ∀ operators output, readToken (operators, output) (opTkn op) =
    .ok (op :: (popWhile p operators output).1, (popWhile p operators output).2)
  precedence : precedence op = p

theorem binary_and : Binary andToken 2 := ⟨fun _ _ => rfl, rfl⟩

theorem binary_or : Binary orToken 1 := ⟨fun _ _ => rfl, rfl⟩

theorem run_binary {op : UInt8} {p : Int} (hOp : Binary op p) {out out' : List ClientToken}
    {pend pend' : List UInt8}
    (he : Reads e out pend) (hf : Reads f out' pend') (hLeft : p ≤ e.level) (hRight : p < f.level)
    {operators : List UInt8} (hBelow : Below p operators) (output : List ClientToken) :
    (e.tokens ++ opTkn op :: f.tokens).foldlM readToken (operators, output) =
      .ok (pend' ++ [op] ++ operators, output ++ (out ++ pend.map opTkn ++ out')) := by
  have hPop := popWhile_append (fun op hOp => Int.le_trans hLeft (he.binds op hOp)) hBelow (output ++ out)
  have hReady : Ready f (op :: operators) := .inr (below_cons (by rw [hOp.precedence]; exact hRight))
  rw [List.foldlM_append, he.run operators output (.inr (hBelow.mono hLeft))]
  change (opTkn op :: f.tokens).foldlM readToken (pend ++ operators, output ++ out) = _
  rw [List.foldlM_cons, hOp.read, hPop]
  change f.tokens.foldlM readToken (op :: operators, output ++ out ++ pend.map opTkn) = _
  rw [hf.run _ _ hReady]
  simp

theorem rpn_and (e f : Infix Bytes) : (e.and f).rpn = e.rpn ++ f.rpn ++ [.conj] := by
  simp [rpn, surplus, coded, Postfix.Expr.postorder, postorder_neg_iterate]

theorem rpn_or (e f : Infix Bytes) : (e.or f).rpn = e.rpn ++ f.rpn ++ [.disj] := by
  simp [rpn, surplus, coded, Postfix.Expr.postorder, postorder_neg_iterate]

theorem reads_and {out out' : List ClientToken} {pend pend' : List UInt8} (he : Reads e out pend)
    (hf : Reads f out' pend') (hLeft : 2 ≤ e.level) (hRight : 3 ≤ f.level) :
    Reads (.and e f) (out ++ pend.map opTkn ++ out') (pend' ++ [andToken]) where
  run operators output hReady := by
    have hBelow : Below 2 operators := hReady.resolve_left fun h => absurd h.1 (by simp [level])
    exact run_binary binary_and he hf hLeft (by omega) hBelow output
  rpn := by
    rw [rpn_and, List.map_append, List.map_append, List.map_append, ← he.rpn, ← hf.rpn]
    simp [clientTkn]
  binds := by
    intro op hOp
    obtain hOp | hOp := List.mem_append.mp hOp
    · have hBinds := hf.binds op hOp
      simp only [level]
      omega
    · rw [List.mem_singleton.mp hOp, binary_and.precedence]
      exact Int.le_refl 2
  closed h := absurd h (by simp [level])

theorem reads_or {out out' : List ClientToken} {pend pend' : List UInt8} (he : Reads e out pend)
    (hf : Reads f out' pend') (hRight : 2 ≤ f.level) :
    Reads (.or e f) (out ++ pend.map opTkn ++ out') (pend' ++ [orToken]) where
  run operators output hReady := by
    have hBelow : Below 1 operators := hReady.resolve_left fun h => absurd h.1 (by simp [level])
    exact run_binary binary_or he hf (one_le_level e) (by omega) hBelow output
  rpn := by
    rw [rpn_or, List.map_append, List.map_append, List.map_append, ← he.rpn, ← hf.rpn]
    simp [clientTkn]
  binds := by
    intro op hOp
    obtain hOp | hOp := List.mem_append.mp hOp
    · exact hf.pending hOp
    · rw [List.mem_singleton.mp hOp, binary_or.precedence]
      exact Int.le_refl 1
  closed h := absurd h (by simp [level])

theorem exists_reads (h : e.Respects) : ∃ out pend, Reads e out pend := by
  induction e with
  | word w => exact ⟨_, _, reads_word w⟩
  | not e ih =>
    obtain ⟨out, pend, he⟩ := ih h.2
    exact reads_not h.1 he
  | and e f ihe ihf =>
    obtain ⟨hLeft, hRight, he, hf⟩ := h
    obtain ⟨out, pend, hReads⟩ := ihe he
    obtain ⟨out', pend', hReads'⟩ := ihf hf
    exact ⟨_, _, reads_and hReads hReads' hLeft hRight⟩
  | or e f ihe ihf =>
    obtain ⟨hRight, he, hf⟩ := h
    obtain ⟨out, pend, hReads⟩ := ihe he
    obtain ⟨out', pend', hReads'⟩ := ihf hf
    exact ⟨_, _, reads_or hReads hReads' hRight⟩
  | paren e ih =>
    obtain ⟨out, pend, he⟩ := ih h
    exact ⟨_, _, reads_paren he⟩

/-- The parser returns on every query that respects precedence. -/
theorem shuntingYard_tokens (h : e.Respects) : shuntingYard e.tokens = .ok (e.rpn.map clientTkn) := by
  obtain ⟨out, pend, hReads⟩ := exists_reads h
  have hRun := hReads.run [] [] (.inr (by intro op hOp; cases hOp))
  rw [List.append_nil, List.nil_append] at hRun
  rw [shuntingYard, hRun]
  change drain pend out = _
  rw [drain_eq (fun op hOp => hReads.pending hOp), hReads.rpn]

end Reading

/-! ## Every derivation has a tree that respects precedence -/

section Rebracket
variable {e f : Infix Bytes}

def bang : Infix Bytes → Infix Bytes
  | .and e f => .and (bang e) f
  | .or e f => .or (bang e) f
  | e => .not e

theorem tokens_bang (e : Infix Bytes) : (bang e).tokens = opTkn notToken :: e.tokens := by
  induction e with
  | and e f ih _ => rw [bang, tokens, ih]; rfl
  | or e f ih _ => rw [bang, tokens, ih]; rfl
  | _ => rfl

theorem level_bang (e : Infix Bytes) : (bang e).level = e.level := by
  cases e <;> rfl

theorem respects_bang (h : e.Respects) : (bang e).Respects := by
  induction e with
  | word w => exact ⟨by simp [level], h⟩
  | not e _ => exact ⟨by simp [level], h⟩
  | and e f ih _ => exact ⟨by rw [level_bang]; exact h.1, h.2.1, ih h.2.2.1, h.2.2.2⟩
  | or e f ih _ => exact ⟨h.1, ih h.2.1, h.2.2⟩
  | paren e _ => exact ⟨by simp [level], h⟩

/-- `&` between two queries without a bare `|`. -/
def meetTight (e : Infix Bytes) : Infix Bytes → Infix Bytes
  | .and f g => .and (meetTight e f) g
  | f => .and e f

def meetRight : Infix Bytes → Infix Bytes → Infix Bytes
  | .or e e', f => .or e (meetTight e' f)
  | e, f => meetTight e f

def meet (e : Infix Bytes) : Infix Bytes → Infix Bytes
  | .or f g => .or (meet e f) g
  | f => meetRight e f

def join (e : Infix Bytes) : Infix Bytes → Infix Bytes
  | .or f g => .or (join e f) g
  | f => .or e f

def rebracket : Infix Bytes → Infix Bytes
  | .word w => .word w
  | .not e => bang (rebracket e)
  | .and e f => meet (rebracket e) (rebracket f)
  | .or e f => join (rebracket e) (rebracket f)
  | .paren e => .paren (rebracket e)

theorem tokens_meetTight (e f : Infix Bytes) :
    (meetTight e f).tokens = e.tokens ++ opTkn andToken :: f.tokens := by
  induction f with
  | and f g ih _ => rw [meetTight, tokens, ih, tokens]; simp
  | _ => rfl

theorem respects_meetTight (he : e.Respects) (hf : f.Respects) (hLeft : 2 ≤ e.level) (hRight : 2 ≤ f.level) :
    (meetTight e f).Respects ∧ (meetTight e f).level = 2 := by
  induction f with
  | word w => exact ⟨⟨hLeft, by simp [level], he, hf⟩, rfl⟩
  | not f _ => exact ⟨⟨hLeft, by simp [level], he, hf⟩, rfl⟩
  | and f g ih _ =>
    obtain ⟨hRespects, hLevel⟩ := ih hf.2.2.1 hf.1
    exact ⟨⟨by rw [hLevel], hf.2.1, hRespects, hf.2.2.2⟩, rfl⟩
  | or f g _ _ => exact absurd hRight (by simp [level])
  | paren f _ => exact ⟨⟨hLeft, by simp [level], he, hf⟩, rfl⟩

theorem tokens_meetRight (e f : Infix Bytes) :
    (meetRight e f).tokens = e.tokens ++ opTkn andToken :: f.tokens := by
  cases e with
  | or e e' => rw [meetRight, tokens, tokens_meetTight, tokens]; simp
  | _ => exact tokens_meetTight _ f

theorem respects_meetRight (he : e.Respects) (hf : f.Respects) (hRight : 2 ≤ f.level) :
    (meetRight e f).Respects := by
  cases e with
  | or e e' =>
    obtain ⟨hRespects, hLevel⟩ := respects_meetTight he.2.2 hf he.1 hRight
    exact ⟨by rw [hLevel], he.2.1, hRespects⟩
  | _ => exact (respects_meetTight he hf (by simp [level]) hRight).1

theorem tokens_meet (e f : Infix Bytes) : (meet e f).tokens = e.tokens ++ opTkn andToken :: f.tokens := by
  induction f with
  | or f g ih _ => rw [meet, tokens, ih, tokens]; simp
  | _ => exact tokens_meetRight e _

theorem respects_meet (he : e.Respects) (hf : f.Respects) : (meet e f).Respects := by
  induction f with
  | or f g ih _ => exact ⟨hf.1, ih hf.2.1, hf.2.2⟩
  | _ => exact respects_meetRight he hf (by simp [level])

theorem tokens_join (e f : Infix Bytes) : (join e f).tokens = e.tokens ++ opTkn orToken :: f.tokens := by
  induction f with
  | or f g ih _ => rw [join, tokens, ih, tokens]; simp
  | _ => rfl

theorem respects_join (he : e.Respects) (hf : f.Respects) : (join e f).Respects := by
  induction f with
  | or f g ih _ => exact ⟨hf.1, ih hf.2.1, hf.2.2⟩
  | _ => exact ⟨by simp [level], he, hf⟩

theorem tokens_rebracket (e : Infix Bytes) : e.rebracket.tokens = e.tokens := by
  induction e with
  | word w => rfl
  | not e ih => rw [rebracket, tokens_bang, ih, tokens]
  | and e f ihe ihf => rw [rebracket, tokens_meet, ihe, ihf, tokens]
  | or e f ihe ihf => rw [rebracket, tokens_join, ihe, ihf, tokens]
  | paren e ih => rw [rebracket, tokens, ih, tokens]

theorem respects_rebracket (e : Infix Bytes) : e.rebracket.Respects := by
  induction e with
  | word w => exact trivial
  | not e ih => exact respects_bang ih
  | and e f ihe ihf => exact respects_meet ihe ihf
  | or e f ihe ihf => exact respects_join ihe ihf
  | paren e ih => exact ih

end Rebracket
end Bisen.Infix
