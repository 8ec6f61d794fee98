import Bisen.InfixParse
import Bisen.QueryEvaluator

/-! # The meaning of a parsed query

The words of a query are given lists, in their order, and the evaluator runs on what the parser
returned. Which queries keep their meaning is read off the tree: those that are balanced and do
not begin with a negation of a negation.
-/
namespace Bisen.QueryMeaning
open Wire VecInt QueryParser QueryEvaluator SseClient
set_option autoImplicit false

/-- The evaluator's tokens: the words of the list take the given lists in turn. -/
def assign : List VecInt → List ClientToken → List IeeToken
  | _, [] => []
  | docs, tkn :: rpn =>
    if tkn.type = wordToken then
      { IeeToken.zero with type := tkn.type, docs := docs.headD (.viInit 0) } :: assign docs.tail rpn
    else { IeeToken.zero with type := tkn.type } :: assign docs rpn

/-- Under every assignment of lists to its words, the query is parsed, and what the evaluator returns is
the set that the query means. -/
def Preserved (e : Infix Bytes) : Prop :=
  ∀ (n : Nat) (q : Infix (Bytes × VecInt)) (count : List UInt8), n ≤ intMax → q.map Prod.fst = e →
    (∀ p, p ∈ q.words → Valid n p.2) → n ≤ count.length →
    ∃ rpn, shuntingYard e.tokens = .ok rpn ∧
      ∀ rpnExpr : VecToken, rpnExpr.elems = assign (q.words.map Prod.snd) rpn →
        ∃ v c, evaluate rpnExpr (.ofNat 32 n) count = .ok (v, c) ∧
          Denotes n v (q.expr.eval fun p => docSet n p.2)

/-! ## What the evaluator sees -/

def listTkn : Postfix.Token (Bytes × VecInt) → IeeToken
  | .operand p => { IeeToken.zero with type := wordToken, docs := p.2 }
  | .neg => { IeeToken.zero with type := notToken }
  | .conj => { IeeToken.zero with type := andToken }
  | .disj => { IeeToken.zero with type := orToken }

theorem abstractToken_listTkn (t : Postfix.Token (Bytes × VecInt)) :
    abstractToken (listTkn t) = t.map Prod.snd := by
  cases t <;> rfl

theorem assign_map (ts : List (Postfix.Token (Bytes × VecInt))) :
    assign ((Postfix.operands ts).map Prod.snd) ((ts.map (Postfix.Token.map Prod.fst)).map clientTkn) =
      ts.map listTkn := by
  induction ts with
  | nil => rfl
  | cons t ts ih =>
    cases t with
    | operand p => exact congrArg (List.cons (listTkn (.operand p))) ih
    | neg => exact congrArg (List.cons (listTkn .neg)) ih
    | conj => exact congrArg (List.cons (listTkn .conj)) ih
    | disj => exact congrArg (List.cons (listTkn .disj)) ih

section Assigned
variable {e : Infix Bytes} {q : Infix (Bytes × VecInt)} (hShape : q.map Prod.fst = e)
include hShape

theorem assign_rpn : assign (q.words.map Prod.snd) (e.rpn.map clientTkn) = q.rpn.map listTkn := by
  rw [← hShape, Infix.rpn_map, ← Infix.operands_rpn, assign_map]

variable {rpnExpr : VecToken} (hElems : rpnExpr.elems = assign (q.words.map Prod.snd) (e.rpn.map clientTkn))
include hElems

theorem map_abstractToken : rpnExpr.elems.map abstractToken = q.rpn.map (Postfix.Token.map Prod.snd) := by
  rw [hElems, assign_rpn hShape, List.map_map]
  exact List.map_congr_left fun t _ => abstractToken_listTkn t

theorem valid_operands {n : Nat} (hValid : ∀ p, p ∈ q.words → Valid n p.2) {tkn : IeeToken}
    (hTkn : tkn ∈ rpnExpr.elems) {docs : VecInt}
    (hDocs : abstractToken tkn = .operand docs) : Valid n docs := by
  rw [hElems, assign_rpn hShape] at hTkn
  obtain ⟨t, ht, rfl⟩ := List.mem_map.mp hTkn
  rw [abstractToken_listTkn] at hDocs
  cases t with
  | operand p =>
    cases hDocs
    exact hValid p (Infix.operands_rpn q ▸ Postfix.mem_operands ht)
  | neg => cases hDocs
  | conj => cases hDocs
  | disj => cases hDocs

variable {n : Nat} (hn : n ≤ intMax) (hValid : ∀ p, p ∈ q.words → Valid n p.2) {count : List UInt8}
  (hCount : n ≤ count.length)
include hn hValid hCount

theorem evaluate_coded (hSurplus : e.surplus = 0) :
    ∃ v c, evaluate rpnExpr (.ofNat 32 n) count = .ok (v, c) ∧
    Denotes n v (q.coded.eval fun p => docSet n p.2) := by
  have hNone : q.surplus = 0 := by rw [← Infix.surplus_map Prod.fst q, hShape, hSurplus]
  have hPostorder : (q.coded.map Prod.snd).postorder = rpnExpr.elems.map abstractToken := by
    rw [map_abstractToken hShape hElems, Infix.rpn, hNone, Postfix.Expr.postorder_map]
    rfl
  obtain ⟨v, c, hOk, hDenotes, _⟩ := evaluate_wellFormed hn
    (fun tkn hTkn docs hDocs => valid_operands hShape hElems hValid hTkn hDocs) hCount hPostorder
  rw [Postfix.Expr.eval_map] at hDenotes
  exact ⟨v, c, hOk, hDenotes⟩

theorem evaluate_surplus (hSurplus : e.surplus ≠ 0) :
    ∃ fault, evaluate rpnExpr (.ofNat 32 n) count = .error fault ∧ fault.ofEvaluate = true := by
  refine evaluate_malformed hn (fun tkn hTkn docs hDocs => valid_operands hShape hElems hValid hTkn hDocs)
    hCount ?_
  obtain ⟨k, hk⟩ := Nat.exists_eq_succ_of_ne_zero hSurplus
  rw [map_abstractToken hShape hElems, Postfix.wellFormed_map, Infix.rpn,
    show q.surplus = k + 1 by rw [← Infix.surplus_map Prod.fst q, hShape, hk]]
  exact Postfix.not_wellFormed_neg _

end Assigned

/-! ## The queries that keep their meaning -/

theorem exists_elems (tkns : List IeeToken) : ∃ rpnExpr : VecToken, rpnExpr.elems = tkns :=
  ⟨⟨tkns, tkns.length, tkns.length⟩, List.take_length⟩

/-- The list of the one document, or the empty one. -/
def bit (b : Bool) : VecInt := if b then (VecInt.viInit 1).viPushBack 0 else .viInit 1

theorem elems_bit (b : Bool) : (bit b).elems = if b then [0] else [] := by
  cases b <;> rfl

theorem mem_docSet_bit (b : Bool) (i : Fin 1) : i ∈ docSet 1 (bit b) ↔ b = true := by
  obtain rfl : i = 0 := Subsingleton.elim i 0
  change BitVec.ofNat 32 0 ∈ (bit b).elems ↔ b = true
  rw [elems_bit]
  cases b <;> simp

theorem valid_bit (b : Bool) : Valid 1 (bit b) where
  sound := by
    cases b with
    | false => exact viInit_sound 1
    | true => exact (viPushBack_spec (viInit_sound 1) Nat.one_pos 0).1
  nodup := by
    rw [elems_bit]
    cases b <;> simp
  lt := by
    rw [elems_bit]
    cases b <;> simp
  mem _ := Iff.rfl

theorem mem_eval_bit (x : Postfix.Expr (Bytes × Bool)) (i : Fin 1) :
    i ∈ (x.map fun p => (p.1, bit p.2)).eval (fun p => docSet 1 p.2) ↔ x.eval Prod.snd = true := by
  have hWords : (fun p : Bytes × Bool => i ∈ docSet 1 (bit p.2)) = fun p => p.2 = true :=
    funext fun p => propext (mem_docSet_bit p.2 i)
  rw [Postfix.Expr.eval_map, Postfix.Expr.mem_eval, Postfix.Expr.eval_eq_true]
  change (x.eval fun p : Bytes × Bool => i ∈ docSet 1 (bit p.2)) ↔ _
  rw [hWords]

section Preserved
variable {e : Infix Bytes} (hRespects : e.Respects)
include hRespects

theorem preserved_of_balanced (hSurplus : e.surplus = 0) (hBalanced : e.Balanced) : Preserved e := by
  intro n q count hn hShape hValid hCount
  refine ⟨_, Infix.shuntingYard_tokens hRespects, ?_⟩
  intro rpnExpr hElems
  obtain ⟨v, c, hOk, hDenotes⟩ := evaluate_coded hShape hElems hn hValid hCount hSurplus
  have hInverted : q.inverted = false := by
    rw [← Infix.inverted_map Prod.fst q, hShape, Infix.inverted_of_surplus hSurplus]
  have hMeant : q.coded.eval (fun p => docSet n p.2) = q.expr.eval fun p => docSet n p.2 := by
    rw [Infix.eval_coded _ ((Infix.balanced_map Prod.fst q).mp (hShape ▸ hBalanced)), hInverted]
    rfl
  exact ⟨v, c, hOk, hMeant ▸ hDenotes⟩

theorem surplus_of_preserved (h : Preserved e) : e.surplus = 0 := by
  by_contra hSurplus
  have hShape : (e.map fun w => (w, bit true)).map Prod.fst = e := by
    rw [Infix.map_map]
    exact Infix.map_id e
  have hValid : ∀ p, p ∈ (e.map fun w => (w, bit true)).words → Valid 1 p.2 := by
    intro p hp
    rw [Infix.words_map] at hp
    obtain ⟨w, _, rfl⟩ := List.mem_map.mp hp
    exact valid_bit true
  have hCount : 1 ≤ [(0 : UInt8)].length := Nat.le_refl 1
  obtain ⟨rpn, hRpn, hRun⟩ := h 1 _ [0] (by decide) hShape hValid hCount
  rw [Infix.shuntingYard_tokens hRespects] at hRpn
  cases hRpn
  obtain ⟨rpnExpr, hElems⟩ := exists_elems (assign ((e.map fun w => (w, bit true)).words.map Prod.snd)
    (e.rpn.map clientTkn))
  obtain ⟨v, c, hOk, _⟩ := hRun rpnExpr hElems
  obtain ⟨fault, hError, _⟩ := evaluate_surplus hShape hElems (n := 1) (by decide) hValid hCount hSurplus
  rw [hOk] at hError
  cases hError

theorem balanced_of_preserved (h : Preserved e) : e.Balanced := by
  by_contra hUnbalanced
  obtain ⟨q, rfl, hNe⟩ := Infix.exists_coded_ne hUnbalanced
  have hShape : (q.map fun p => (p.1, bit p.2)).map Prod.fst = q.map Prod.fst := Infix.map_map _ _ _
  have hValid : ∀ p, p ∈ (q.map fun p => (p.1, bit p.2)).words → Valid 1 p.2 := by
    intro p hp
    rw [Infix.words_map] at hp
    obtain ⟨p', _, rfl⟩ := List.mem_map.mp hp
    exact valid_bit p'.2
  have hCount : 1 ≤ [(0 : UInt8)].length := Nat.le_refl 1
  obtain ⟨rpn, hRpn, hRun⟩ := h 1 _ [0] (by decide) hShape hValid hCount
  rw [Infix.shuntingYard_tokens hRespects] at hRpn
  cases hRpn
  obtain ⟨rpnExpr, hElems⟩ := exists_elems
    (assign ((q.map fun p => (p.1, bit p.2)).words.map Prod.snd) ((q.map Prod.fst).rpn.map clientTkn))
  obtain ⟨v, c, hOk, hMeant⟩ := hRun rpnExpr hElems
  obtain ⟨v', c', hOk', hCoded⟩ := evaluate_coded hShape hElems (n := 1) (by decide) hValid hCount
    (surplus_of_preserved hRespects h)
  rw [hOk] at hOk'
  cases hOk'
  refine hNe (Bool.eq_iff_iff.mpr ?_)
  rw [← mem_eval_bit q.coded 0, ← mem_eval_bit q.expr 0, ← Infix.coded_map, ← Infix.expr_map]
  exact (hCoded.mem 0).symm.trans (hMeant.mem 0)

/-- Exactly the balanced queries without an early negation keep their meaning. -/
theorem preserved_iff : Preserved e ↔ e.surplus = 0 ∧ e.Balanced :=
  ⟨fun h => ⟨surplus_of_preserved hRespects h, balanced_of_preserved hRespects h⟩,
    fun h => preserved_of_balanced hRespects h.1 h.2⟩

end Preserved

/-- `a & !(b | !c)` keeps its meaning. -/
theorem preserved_iff_negatedGroup :
    Preserved (.and (.word [0x61]) (.not (.paren (.or (.word [0x62]) (.not (.word [0x63])))))) := by
  refine (preserved_iff ?_).mpr ⟨rfl, ?_⟩
  · simp [Infix.Respects, Infix.level]
  · simp [Infix.Balanced, Infix.inverted, Infix.surplus, Infix.isNot]

/-- `a & !!b` comes out as `!a & !b`. -/
theorem not_preserved_doubleNot : ¬ ∀ e : Infix Bytes, e.Respects → Preserved e := by
  intro hClaim
  have hRespects : (Infix.and (.word [0x61]) (.not (.not (.word [0x62])))).Respects := by
    simp [Infix.Respects, Infix.level]
  have hBalanced := balanced_of_preserved hRespects
    (hClaim (.and (.word [0x61]) (.not (.not (.word [0x62])))) hRespects)
  simp [Infix.Balanced, Infix.inverted, Infix.surplus, Infix.isNot] at hBalanced

end Bisen.QueryMeaning
