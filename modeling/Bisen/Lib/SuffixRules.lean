import Mathlib.Data.List.Infix

/-! # Rewriting a word by suffix rules

A table of rules replaces the suffix of a word by the first rule whose suffix the word ends with. Where
no rule comes before one with a longer suffix of the same kind, the first rule is the one with the longest
suffix, and a table that is grouped by a letter near the end of the suffix may be searched in one group.
-/
namespace SuffixRules
set_option autoImplicit false

variable {α κ : Type*}

structure Rule (α : Type*) where
  suffix : List α
  replacement : List α

/-- What stands before the last `n` letters. -/
def front (w : List α) (n : Nat) : List α := w.take (w.length - n)

theorem front_append {t s : List α} : front (t ++ s) s.length = t := by
  rw [front, List.length_append, Nat.add_sub_cancel, List.take_left]

theorem front_append_of_suffix {w s : List α} (h : s <:+ w) : front w s.length ++ s = w := by
  obtain ⟨t, rfl⟩ := h
  rw [front_append]

section Search
variable [DecidableEq α]

def firstRule (rules : List (Rule α)) (w : List α) : Option (Rule α) := rules.find? fun r => r.suffix <:+ w

/-- The first rule with the suffix of the word decides, also when its guard forbids the change. -/
def rewrite (guard : Rule α → List α → Bool) (rules : List (Rule α)) (w : List α) : List α :=
  match firstRule rules w with
  | none => w
  | some r =>
    let t := front w r.suffix.length
    if guard r t then t ++ r.replacement else w

theorem firstRule_cons_of_suffix {r : Rule α} {rules : List (Rule α)} {w : List α} (h : r.suffix <:+ w) :
    firstRule (r :: rules) w = some r := List.find?_cons_of_pos (decide_eq_true h)

theorem firstRule_cons_of_not_suffix {r : Rule α} {rules : List (Rule α)} {w : List α} (h : ¬ r.suffix <:+ w) :
    firstRule (r :: rules) w = firstRule rules w := List.find?_cons_of_neg (by simpa using h)

theorem firstRule_eq_some {rules : List (Rule α)} {w : List α} {r : Rule α} (h : firstRule rules w = some r) :
    r ∈ rules ∧ r.suffix <:+ w := by
  have hSuffix := List.find?_some h
  exact ⟨List.mem_of_find?_eq_some h, of_decide_eq_true hSuffix⟩

theorem firstRule_eq_none_iff {rules : List (Rule α)} {w : List α} :
    firstRule rules w = none ↔ ∀ r ∈ rules, ¬ r.suffix <:+ w := by
  rw [firstRule, List.find?_eq_none]
  simp only [decide_eq_true_eq]

/-- What is rewritten is the suffix of a rule whose guard holds. -/
theorem rewrite_cases (guard : Rule α → List α → Bool) (rules : List (Rule α)) (w : List α) :
    rewrite guard rules w = w ∨ ∃ r ∈ rules, ∃ t, w = t ++ r.suffix ∧ guard r t = true ∧
      rewrite guard rules w = t ++ r.replacement := by
  rw [rewrite]
  cases hMatch : firstRule rules w with
  | none => exact .inl rfl
  | some r =>
    obtain ⟨hMem, t, rfl⟩ := firstRule_eq_some hMatch
    simp only [front_append]
    split
    · case isTrue hGuard => exact .inr ⟨r, hMem, t, rfl, hGuard, rfl⟩
    · exact .inl rfl

theorem rewrite_cons_of_suffix {guard : Rule α → List α → Bool} {r : Rule α} {rules : List (Rule α)}
    {t : List α} :
    rewrite guard (r :: rules) (t ++ r.suffix) = if guard r t then t ++ r.replacement else t ++ r.suffix := by
  rw [rewrite, firstRule_cons_of_suffix (List.suffix_append _ _)]
  simp only [front_append]

theorem rewrite_cons_of_not_suffix {guard : Rule α → List α → Bool} {r : Rule α} {rules : List (Rule α)}
    {w : List α} (h : ¬ r.suffix <:+ w) : rewrite guard (r :: rules) w = rewrite guard rules w := by
  rw [rewrite, firstRule_cons_of_not_suffix h, rewrite]

end Search

/-! ## The longest suffix -/

/-- No suffix is an end of a later one. -/
def LongestFirst (rules : List (Rule α)) : Prop := rules.Pairwise fun r r' => ¬ r.suffix <:+ r'.suffix

instance [DecidableEq α] (rules : List (Rule α)) : Decidable (LongestFirst rules) :=
  inferInstanceAs (Decidable (rules.Pairwise fun r r' => ¬ r.suffix <:+ r'.suffix))

theorem firstRule_longest [DecidableEq α] {rules : List (Rule α)} (hOrder : LongestFirst rules) {w : List α}
    {r : Rule α} (h : firstRule rules w = some r) {r' : Rule α} (hMem : r' ∈ rules) (hSuffix : r'.suffix <:+ w) :
    r' = r ∨ r'.suffix.length < r.suffix.length := by
  induction rules with
  | nil => cases h
  | cons first rules ih =>
    obtain ⟨hFirst, hOrder⟩ := List.pairwise_cons.mp hOrder
    by_cases hEnds : first.suffix <:+ w
    · rw [firstRule_cons_of_suffix hEnds] at h
      obtain rfl := Option.some.inj h
      obtain rfl | hLater := List.mem_cons.mp hMem
      · exact .inl rfl
      · right
        have hNot := hFirst r' hLater
        by_contra hShort
        exact hNot (List.suffix_of_suffix_length_le hEnds hSuffix (Nat.not_lt.mp hShort))
    · rw [firstRule_cons_of_not_suffix hEnds] at h
      obtain rfl | hLater := List.mem_cons.mp hMem
      · exact absurd hSuffix hEnds
      · exact ih hOrder h hLater

/-- The rule with the longest of the suffixes of the word decides. -/
inductive ByLongest (guard : Rule α → List α → Bool) (rules : List (Rule α)) (w : List α) : List α → Prop
  | none (h : ∀ r ∈ rules, ¬ r.suffix <:+ w) : ByLongest guard rules w w
  | rule {r : Rule α} {t : List α} (hMem : r ∈ rules) (hSuffix : w = t ++ r.suffix)
      (hLongest : ∀ r' ∈ rules, r'.suffix <:+ w → r' = r ∨ r'.suffix.length < r.suffix.length) :
      ByLongest guard rules w (if guard r t then t ++ r.replacement else w)

theorem rewrite_byLongest [DecidableEq α] (guard : Rule α → List α → Bool) {rules : List (Rule α)}
    (hOrder : LongestFirst rules) (w : List α) : ByLongest guard rules w (rewrite guard rules w) := by
  rw [rewrite]
  cases hFirst : firstRule rules w with
  | none => exact .none (firstRule_eq_none_iff.mp hFirst)
  | some r =>
    obtain ⟨hMem, t, hSuffix⟩ := firstRule_eq_some hFirst
    have hFront : front w r.suffix.length = t := by rw [← hSuffix, front_append]
    simp only [hFront]
    exact .rule hMem hSuffix.symm fun r' => firstRule_longest hOrder hFirst

/-! ## Tables grouped by a key -/

section Groups
variable [DecidableEq κ]

/-- The rules of the group that is searched for the key `c`. -/
def group (cases : List (κ × List (Rule α))) (c : κ) : List (Rule α) := (cases.lookup c).getD []

def all (cases : List (κ × List (Rule α))) : List (Rule α) := cases.flatMap Prod.snd

/-- A rule stands in the group of its key. -/
structure Grouped (key : List α → Option κ) (cases : List (κ × List (Rule α))) : Prop where
  keys : (cases.map Prod.fst).Nodup
  rules : ∀ c ∈ cases, ∀ r ∈ c.2, ∀ w, r.suffix <:+ w → key w = some c.1

omit [DecidableEq κ] in
theorem Grouped.tail {key : List α → Option κ} {c : κ × List (Rule α)} {cases : List (κ × List (Rule α))}
    (h : Grouped key (c :: cases)) : Grouped key cases :=
  ⟨(List.nodup_cons.mp h.keys).2, fun c' hc' => h.rules c' (List.mem_cons_of_mem _ hc')⟩

theorem group_cons (c c' : κ) (rules : List (Rule α)) (cases : List (κ × List (Rule α))) :
    group ((c', rules) :: cases) c = if c = c' then rules else group cases c := by
  obtain rfl | hNe := eq_or_ne c c'
  · rw [if_pos rfl, group, List.lookup_cons, beq_self_eq_true]
    rfl
  · rw [if_neg hNe, group, List.lookup_cons, beq_eq_false_iff_ne.mpr hNe]
    rfl

theorem group_sublist (cases : List (κ × List (Rule α))) (c : κ) : (group cases c).Sublist (all cases) := by
  induction cases with
  | nil => exact List.Sublist.slnil
  | cons first cases ih =>
    obtain ⟨c', rules⟩ := first
    rw [group_cons, all, List.flatMap_cons]
    split
    · exact List.sublist_append_left _ _
    · exact ih.trans (List.sublist_append_right _ _)

theorem firstRule_append [DecidableEq α] (rules rules' : List (Rule α)) (w : List α) :
    firstRule (rules ++ rules') w = (firstRule rules w).or (firstRule rules' w) := List.find?_append

/-- It is enough to search the group of the word. -/
theorem firstRule_group [DecidableEq α] {key : List α → Option κ} {cases : List (κ × List (Rule α))}
    (h : Grouped key cases) {w : List α} {c : κ} (hKey : key w = some c) :
    firstRule (group cases c) w = firstRule (all cases) w := by
  induction cases with
  | nil => rfl
  | cons first cases ih =>
    obtain ⟨c', rules⟩ := first
    have hOther : ∀ c₁ ∈ (c', rules) :: cases, c₁.1 ≠ c → firstRule c₁.2 w = none := by
      intro c₁ hc₁ hNe
      apply firstRule_eq_none_iff.mpr
      intro r hr hSuffix
      have hKey' := h.rules c₁ hc₁ r hr w hSuffix
      exact hNe (Option.some.inj (hKey'.symm.trans hKey))
    have hAll : all ((c', rules) :: cases) = rules ++ all cases := List.flatMap_cons
    rw [group_cons, hAll, firstRule_append]
    split
    · case isTrue hEq =>
      subst hEq
      have hRest : firstRule (all cases) w = none := by
        apply firstRule_eq_none_iff.mpr
        intro r hr
        obtain ⟨c₁, hc₁, hr₁⟩ := List.mem_flatMap.mp hr
        have hNe : c₁.1 ≠ c := by
          intro hEq
          have hMem : c₁.1 ∈ cases.map Prod.fst := List.mem_map_of_mem hc₁
          exact (List.nodup_cons.mp h.keys).1 (hEq ▸ hMem)
        exact firstRule_eq_none_iff.mp (hOther c₁ (List.mem_cons_of_mem _ hc₁) hNe) r hr₁
      rw [hRest, Option.or_none]
    · case isFalse hNe =>
      rw [hOther _ List.mem_cons_self (Ne.symm hNe), Option.none_or]
      exact ih h.tail

theorem rewrite_group [DecidableEq α] {key : List α → Option κ} {cases : List (κ × List (Rule α))}
    (h : Grouped key cases) (guard : Rule α → List α → Bool) {w : List α} {c : κ} (hKey : key w = some c) :
    rewrite guard (group cases c) w = rewrite guard (all cases) w := by
  rw [rewrite, firstRule_group h hKey, rewrite]

end Groups

/-! ## Keys -/

theorem getLast?_of_suffix {s w : List α} (hNil : s ≠ []) (h : s <:+ w) : w.getLast? = s.getLast? := by
  obtain ⟨t, rfl⟩ := h
  exact List.getLast?_append_of_ne_nil t hNil

/-- The last letter but one. -/
def penultimate (w : List α) : Option α := w.dropLast.getLast?

theorem penultimate_of_suffix {s w : List α} (hLong : s.dropLast ≠ []) (h : s <:+ w) :
    penultimate w = penultimate s := by
  obtain ⟨t, rfl⟩ := h
  have hNil : s ≠ [] := fun hNil => hLong (by rw [hNil]; rfl)
  rw [penultimate, List.dropLast_append_of_ne_nil hNil]
  exact List.getLast?_append_of_ne_nil t hLong

theorem grouped_last {cases : List (α × List (Rule α))} (hKeys : (cases.map Prod.fst).Nodup)
    (h : ∀ c ∈ cases, ∀ r ∈ c.2, r.suffix.getLast? = some c.1) : Grouped List.getLast? cases := by
  refine ⟨hKeys, fun c hc r hr w hSuffix => ?_⟩
  have hLast := h c hc r hr
  have hNil : r.suffix ≠ [] := by
    intro hNil
    rw [hNil] at hLast
    cases hLast
  rw [getLast?_of_suffix hNil hSuffix, hLast]

theorem grouped_penultimate {cases : List (α × List (Rule α))}
    (hKeys : (cases.map Prod.fst).Nodup) (h : ∀ c ∈ cases, ∀ r ∈ c.2, penultimate r.suffix = some c.1) :
    Grouped penultimate cases := by
  refine ⟨hKeys, fun c hc r hr w hSuffix => ?_⟩
  have hKey := h c hc r hr
  have hLong : r.suffix.dropLast ≠ [] := by
    intro hNil
    rw [penultimate, hNil] at hKey
    cases hKey
  rw [penultimate_of_suffix hLong hSuffix, hKey]

end SuffixRules
