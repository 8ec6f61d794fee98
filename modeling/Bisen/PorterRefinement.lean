import Bisen.PorterSteps

/-! # The stemmer on a buffer

The last two steps do what those on words do, as the first three. So the stemmer leaves the stem at the front of
the range and touches nothing around it.
-/
namespace Bisen.PorterRefinement
open Wire SuffixRules PorterStemmer PorterWords PorterReading PorterSteps
set_option autoImplicit false

section Rules
variable {pre t w x post s : Bytes} {j : Int}

/-! ## Step 4 -/

theorem endsGuarded_append (pre t post : Bytes) (j : Int) {suffix : Bytes} (hs : suffix ≠ []) :
    endsGuarded (held pre (t ++ suffix) post j) suffix =
      .ok (decide (suffix ≠ ion) || endsST t, held pre (t ++ suffix) post (pre.length + t.length - 1)) := by
  rw [endsGuarded, ends_append pre t post j hs]
  change (if true = true ∧ suffix = ion then _ else Except.ok _) = _
  by_cases hIon : suffix = ion
  · rw [if_pos ⟨rfl, hIon⟩, decide_eq_false (not_not.mpr hIon), Bool.false_or]
    obtain rfl | ⟨u, c, rfl⟩ := List.eq_nil_or_concat t
    · rw [if_neg (by simp [held])]
      rfl
    · have hj : (pre.length : Int) + (u.concat c).length - 1 = pre.length + u.length := by
        rw [List.length_concat]
        omega
      have hc : (u.concat c)[u.length]? = some c := by simp
      rw [if_pos (by rw [hj]; exact Int.le_add_of_nonneg_right (Int.natCast_nonneg _)), hj]
      change (read (held pre (u.concat c ++ suffix) post _) (pre.length + u.length) >>= _) = _
      rw [(spells_held pre (u.concat c) suffix post _).read hc]
      change Except.ok (c == 's'.toUInt8 || c == 't'.toUInt8, _) = _
      simp [endsST]
  · rw [if_neg fun h => hIon h.2, decide_eq_true hIon, Bool.true_or]

variable (pre post) in
/-- After `ion` has been refused, no other suffix of the case fits. -/
theorem endsAny_held {rules : List (Rule UInt8)} (hSafe : ∀ r ∈ rules, Safe r)
    (hIon : rules.Pairwise fun r r' => r.suffix = ion → r'.suffix.getLast? ≠ ion.getLast?) (hw : w ≠ []) (j : Int) :
    match firstRule rules w with
    | none => endsAny rules (held pre w post j) = .ok (false, held pre w post j)
    | some rule => ∃ t, w = t ++ rule.suffix ∧ endsAny rules (held pre w post j) =
        .ok (decide (rule.suffix ≠ ion) || endsST t, held pre w post (pre.length + t.length - 1)) := by
  induction rules generalizing j with
  | nil => rfl
  | cons rule rules ih =>
    obtain ⟨⟨hNil, _⟩, hSafe⟩ := List.forall_mem_cons.mp hSafe
    obtain ⟨hFirst, hIon⟩ := List.pairwise_cons.mp hIon
    by_cases hSuffix : rule.suffix <:+ w
    · rw [firstRule_cons_of_suffix hSuffix]
      obtain ⟨t, rfl⟩ := hSuffix
      refine ⟨t, rfl, ?_⟩
      rw [endsAny, endsGuarded_append pre t post j hNil]
      cases hAccept : decide (rule.suffix ≠ ion) || endsST t with
      | true => rfl
      | false =>
        have hIs : rule.suffix = ion := by
          rw [Bool.or_eq_false_iff] at hAccept
          exact not_not.mp (of_decide_eq_false hAccept.1)
        have hNone : firstRule rules (t ++ rule.suffix) = none := by
          apply firstRule_eq_none_iff.mpr
          intro rule' hRule' hSuffix'
          have hLast := getLast?_of_suffix (hSafe rule' hRule').1 hSuffix'
          rw [getLast?_of_suffix hNil (List.suffix_append _ _), hIs] at hLast
          exact hFirst rule' hRule' hIs hLast.symm
        have hRest := ih hSafe hIon (pre.length + t.length - 1)
        rw [hNone] at hRest
        exact hRest
    · rw [firstRule_cons_of_not_suffix hSuffix]
      have hRest := ih hSafe hIon j
      have hRun : endsAny (rule :: rules) (held pre w post j) = endsAny rules (held pre w post j) := by
        rw [endsAny, endsGuarded, ends_not pre post j hw hNil hSuffix]
        rfl
      rw [hRun]
      exact hRest

theorem step4_replacement : ∀ r ∈ all step4Cases, r.replacement = [] := by decide

theorem step4_ion : (all step4Cases).Pairwise fun r r' => r.suffix = ion → r'.suffix.getLast? ≠ ion.getLast? := by
  decide

theorem yields_step4 (hLong : 2 ≤ w.length) :
    Yields (PorterStemmer.step4 (held pre w post j)) pre w (PorterWords.step4 w) post := by
  obtain ⟨c, hc⟩ := exists_penultimate hLong
  have hGroup := group_sublist step4Cases c
  have hAny := endsAny_held pre post (fun rule hRule => step4_safe rule (hGroup.subset hRule))
    (step4_ion.sublist hGroup) (ne_nil_of_penultimate hc) j
  rw [PorterStemmer.step4, read_penultimate pre hc, PorterWords.step4, ← rewrite_group step4_grouped _ hc, rewrite]
  change Yields (endsAny _ _ >>= _) _ _ _ _
  cases hFirst : firstRule (group step4Cases c) w with
  | none =>
    rw [hFirst] at hAny
    rw [hAny]
    exact yields_same pre w post j
  | some rule =>
    rw [hFirst] at hAny
    obtain ⟨t, rfl, hRun⟩ := hAny
    have hEmpty := step4_replacement rule (hGroup.subset (firstRule_eq_some hFirst).1)
    simp only [front_append, hEmpty, List.append_nil]
    rw [hRun]
    cases hAccept : decide (rule.suffix ≠ ion) || endsST t with
    | false =>
      rw [Bool.and_false]
      exact yields_same _ _ _ _
    | true =>
      rw [Bool.and_true]
      change Yields (m _ >>= _) _ _ _ _
      rw [(spells_held pre t rule.suffix post _).m rfl]
      change Yields (if 1 < measure t then _ else _) _ _ _ _
      simp only [decide_eq_true_eq]
      split
      · exact yields_cut pre t rule.suffix post _
      · exact yields_same _ _ _ _

/-! ## Step 5 -/

theorem step5a_e (t : Bytes) :
    step5a (t ++ [e]) = if decide (1 < measure t) || decide (measure t = 1) && !endsCvc t then t else t ++ [e] := by
  have hE : ascii "e" = [e] ∧ ascii "" = [] := by decide
  have hRewrite : step5a (t ++ ascii "e") = if decide (1 < measure t) || decide (measure t = 1) && !endsCvc t then
      t ++ ascii "" else t ++ ascii "e" := rewrite_cons_of_suffix (r := rule "e" "")
  rwa [hE.1, hE.2, List.append_nil] at hRewrite

theorem step5a_of_last {c : UInt8} (hc : c ≠ e) (t : Bytes) : step5a (t ++ [c]) = t ++ [c] := by
  refine rewrite_cons_of_not_suffix (r := rule "e" "") ?_
  intro hSuffix
  have hLast := getLast?_of_suffix (by decide) hSuffix
  rw [List.getLast?_concat] at hLast
  exact hc (Option.some.inj hLast)

variable (pre post) in
/-- The measure does not see whether the `e` that `j` still counts has been cut off. -/
theorem yields_dropE (hw : w ≠ []) :
    ∃ cut j', dropE (held pre w post (pre.length + w.length - 1)) = .ok (held pre (step5a w) (cut ++ post) j') ∧
      (step5a w).length + cut.length = w.length ∧
        m (held pre (step5a w) (cut ++ post) j') = .ok (measure (step5a w)) := by
  obtain hNil | ⟨t, c, rfl⟩ := List.eq_nil_or_concat w
  · exact absurd hNil hw
  rw [List.concat_eq_append]
  have hSpells := spells_word pre (t ++ [c]) post (pre.length + (t ++ [c]).length - 1)
  have hKeep : ∃ cut j', (.ok (held pre (t ++ [c]) post (pre.length + (t ++ [c]).length - 1)) : Except Fault State) =
      .ok (held pre (t ++ [c]) (cut ++ post) j') ∧ (t ++ [c]).length + cut.length = (t ++ [c]).length ∧
        m (held pre (t ++ [c]) (cut ++ post) j') = .ok (measure (t ++ [c])) := ⟨[], _, rfl, rfl, hSpells.m rfl⟩
  rw [dropE, read_last pre List.getLast?_concat]
  change ∃ cut j', (if c = e then _ else Except.ok _) = _ ∧ _
  by_cases hc : c = e
  · subst hc
    have hMeasure : measure (t ++ [e]) = measure t := measure_append_vowel t (by decide)
    have hk : (held pre (t ++ [e]) post (pre.length + (t ++ [e]).length - 1)).k - 1 = pre.length + t.length - 1 :=
      held_k_sub pre t [e] post _
    have hDrop : ∃ cut j', (.ok { held pre (t ++ [e]) post (pre.length + (t ++ [e]).length - 1) with
          k := (held pre (t ++ [e]) post (pre.length + (t ++ [e]).length - 1)).k - 1 } : Except Fault State) =
        .ok (held pre t (cut ++ post) j') ∧ t.length + cut.length = (t ++ [e]).length ∧
          m (held pre t (cut ++ post) j') = .ok (measure t) := by
      refine ⟨[e], pre.length + (t ++ [e]).length - 1, by rw [hk, held_cut], by simp, ?_⟩
      rw [← hMeasure]
      exact (Spells.mk ⟨post, by simp [held]⟩ rfl).m rfl
    rw [if_pos rfl]
    change ∃ cut j', (m _ >>= _) = _ ∧ _
    rw [hSpells.m rfl]
    change ∃ cut j', (if 1 < measure (t ++ [e]) then _ else if measure (t ++ [e]) = 1 then _ else _) = _ ∧ _
    rw [step5a_e, hMeasure]
    by_cases hTwo : 1 < measure t
    · rw [if_pos hTwo, decide_eq_true hTwo, Bool.true_or, if_pos rfl]
      exact hDrop
    rw [if_neg hTwo, decide_eq_false hTwo, Bool.false_or]
    by_cases hOne : measure t = 1
    · rw [if_pos hOne, decide_eq_true hOne, Bool.true_and]
      rw [hk, (spells_held pre t [e] post _).cvc]
      cases endsCvc t with
      | true => exact hKeep
      | false =>
        rw [← hk]
        exact hDrop
    · rw [if_neg hOne, decide_eq_false hOne, Bool.false_and]
      exact hKeep
  · rw [if_neg hc, step5a_of_last hc]
    exact hKeep

theorem yields_dropL (hw : w ≠ []) (hm : m (held pre w post j) = .ok (measure w)) :
    Yields (dropL (held pre w post j)) pre w (step5b w) post := by
  obtain ⟨c, hc⟩ : ∃ c, w.getLast? = some c := ⟨_, List.getLast?_eq_some_getLast hw⟩
  rw [dropL, read_last pre hc, step5b, hc]
  change Yields (if c = 'l'.toUInt8 then _ else _) _ _ _ _
  by_cases hL : c = 'l'.toUInt8
  · rw [if_pos hL]
    change Yields (doublec _ (pre.length + w.length - 1) >>= _) _ _ _ _
    rw [(spells_word pre w post j).doublec]
    cases hDouble : endsDouble w with
    | true =>
      change Yields (m _ >>= _) _ _ _ _
      rw [hm]
      change Yields (if 1 < measure w then _ else _) _ _ _ _
      by_cases hTwo : 1 < measure w
      · rw [if_pos hTwo, if_pos ⟨congrArg some hL, rfl, hTwo⟩]
        exact yields_dropLast pre hw post j
      · rw [if_neg hTwo, if_neg fun h => hTwo h.2.2]
        exact yields_same pre w post j
    | false =>
      rw [if_neg fun h => Bool.false_ne_true h.2.1]
      exact yields_same pre w post j
  · rw [if_neg hL, if_neg fun h => hL (Option.some.inj h.1)]
    exact yields_same pre w post j

theorem yields_step5 (hw : w ≠ []) : Yields (step5 (held pre w post j)) pre w (step5b (step5a w)) post := by
  obtain ⟨cut, j', hRun, hLength, hm⟩ := yields_dropE pre post hw
  have hSecond := yields_dropL ((trims_step5a w).ne_nil hw) hm
  obtain ⟨cut', j'', hRun', hLength'⟩ := hSecond
  refine ⟨cut' ++ cut, j'', ?_, ?_⟩
  · change (dropE (held pre w post (pre.length + w.length - 1)) >>= dropL) = _
    rw [hRun, List.append_assoc]
    exact hRun'
  · rw [List.length_append]
    omega

/-! ## The longest ending -/

/-- The switch over a letter finds the rule that the published algorithm asks for. -/
theorem steps_byLongest (pre post : Bytes) (j : Int) (hLong : 2 ≤ w.length) :
    (∃ w', Yields (PorterStemmer.step2 (held pre w post j)) pre w w' post ∧
      ByLongest (fun _ t => 0 < measure t) (all step2Cases) w w') ∧
    (∃ w', Yields (PorterStemmer.step3 (held pre w post j)) pre w w' post ∧
      ByLongest (fun _ t => 0 < measure t) (all step3Cases) w w') ∧
    (∃ w', Yields (PorterStemmer.step4 (held pre w post j)) pre w w' post ∧
      ByLongest (fun r t => decide (1 < measure t) && (decide (r.suffix ≠ ion) || endsST t)) (all step4Cases)
        w w') := by
  have hNil : w ≠ [] := List.ne_nil_of_length_pos (by omega)
  refine ⟨⟨_, yields_step2 hLong, ?_⟩, ⟨_, yields_step3 hNil, ?_⟩, ⟨_, yields_step4 hLong, ?_⟩⟩
  · exact rewrite_byLongest _ (by decide) w
  · exact rewrite_byLongest _ (by decide) w
  · exact rewrite_byLongest _ (by decide) w

/-- `relational` -/
theorem steps_byLongest_relational :
    (∃ w', Yields (PorterStemmer.step2 (held [] (ascii "relational") [0] 0)) [] (ascii "relational") w' [0] ∧
      ByLongest (fun _ t => 0 < measure t) (all step2Cases) (ascii "relational") w') ∧
    (∃ w', Yields (PorterStemmer.step3 (held [] (ascii "relational") [0] 0)) [] (ascii "relational") w' [0] ∧
      ByLongest (fun _ t => 0 < measure t) (all step3Cases) (ascii "relational") w') ∧
    (∃ w', Yields (PorterStemmer.step4 (held [] (ascii "relational") [0] 0)) [] (ascii "relational") w' [0] ∧
      ByLongest (fun r t => decide (1 < measure t) && (decide (r.suffix ≠ ion) || endsST t)) (all step4Cases)
        (ascii "relational") w') := steps_byLongest [] [0] 0 (by decide)

end Rules

/-! ## The stemmer -/

section Stem
variable {pre w post : Bytes} {j : Int}

/-- A rule that asks for a measure leaves a vowel and a consonant. -/
theorem two_le_rewrite {guard : Rule UInt8 → Bytes → Bool} {rules : List (Rule UInt8)}
    (hGuard : ∀ r t, guard r t = true → 0 < measure t) (hLong : 2 ≤ w.length) :
    2 ≤ (rewrite guard rules w).length := by
  obtain hSame | ⟨rule, _, t, rfl, hHolds, hEq⟩ := rewrite_cases guard rules w
  · rwa [hSame]
  · have ht := two_le_of_measure_pos (hGuard rule t hHolds)
    rw [hEq, List.length_append]
    omega

theorem length_step1c (w : Bytes) : (PorterWords.step1c w).length = w.length := by
  obtain hSame | ⟨rule, hRule, t, rfl, _, hEq⟩ := rewrite_cases (fun _ t => hasVowel t) [rule "y" "i"] w
  · rw [PorterWords.step1c, hSame]
  · have hSame : ∀ r ∈ [PorterStemmer.rule "y" "i"], r.replacement.length = r.suffix.length := by decide
    rw [PorterWords.step1c, hEq, List.length_append, List.length_append, hSame rule hRule]

theorem yields_later (hLong : 2 ≤ w.length) :
    Yields (do
      let s ← PorterStemmer.step1c (held pre w post j)
      let s ← PorterStemmer.step2 s
      let s ← PorterStemmer.step3 s
      let s ← PorterStemmer.step4 s
      step5 s) pre w (later w) post := by
  have hPos : ∀ (r : Rule UInt8) (t : Bytes), decide (0 < measure t) = true → 0 < measure t :=
    fun _ _ h => of_decide_eq_true h
  have hLong₁ : 2 ≤ (PorterWords.step1c w).length := by rwa [length_step1c]
  have hLong₂ : 2 ≤ (PorterWords.step2 (PorterWords.step1c w)).length := two_le_rewrite hPos hLong₁
  have hLong₃ : 2 ≤ (PorterWords.step3 (PorterWords.step2 (PorterWords.step1c w))).length := two_le_rewrite hPos hLong₂
  have hNil : ∀ {u : Bytes}, 2 ≤ u.length → u ≠ [] := fun h => List.ne_nil_of_length_pos (by omega)
  refine (yields_step1c (hNil hLong)).bind fun post₁ j₁ => ?_
  refine (yields_step2 hLong₁).bind fun post₂ j₂ => ?_
  refine (yields_step3 (hNil hLong₂)).bind fun post₃ j₃ => ?_
  refine (yields_step4 hLong₃).bind fun post₄ j₄ => ?_
  exact yields_step5 ((trims_step4 _).ne_nil (hNil hLong₃))

/-- In any buffer and whatever `j` held, `stem` puts the stem of the word where the word was. -/
theorem stem_yields (old : Int) (pre w post : Bytes) :
    Yields (stem old (pre ++ w ++ post) pre.length (pre.length + w.length - 1)) pre w (porter w) post := by
  have hk : (held pre w post old).k ≤ (held pre w post old).k0 + 1 ↔ w.length ≤ 2 := by
    simp only [held]
    omega
  change Yields (if (held pre w post old).k ≤ (held pre w post old).k0 + 1 then .ok (held pre w post old) else
    step1ab (held pre w post old) >>= _) _ _ _ _
  rw [porter]
  by_cases hShort : w.length ≤ 2
  · rw [if_pos (hk.mpr hShort), if_pos hShort]
    exact yields_same pre w post old
  · rw [if_neg (mt hk.mp hShort), if_neg hShort]
    refine (yields_step1ab (by omega)).bind fun post' j' => ?_
    have hMore : (held pre (step1b (step1a w)) post' j').k > (held pre (step1b (step1a w)) post' j').k0 ↔
        ¬ (step1b (step1a w)).length ≤ 1 := by
      simp only [held]
      omega
    dsimp only
    by_cases hOne : (step1b (step1a w)).length ≤ 1
    · rw [if_neg fun h => hMore.mp h hOne, if_pos hOne]
      exact yields_same _ _ _ _
    · rw [if_pos (hMore.mpr hOne), if_neg hOne]
      exact yields_later (by omega)

/-- For any range of any buffer: no read or write outside it, everything around the range as it was, and an index
`k` with `i ≤ k ≤ j` behind which the stem ends. -/
theorem stem_refines (old : Int) (pre w post : Bytes) :
    ∃ s cut, stem old (pre ++ w ++ post) pre.length (pre.length + w.length - 1) = .ok s ∧
      s.b = pre ++ porter w ++ cut ++ post ∧ (porter w).length + cut.length = w.length ∧
      s.k = pre.length + (porter w).length - 1 ∧
      (w ≠ [] → pre.length ≤ s.k ∧ s.k ≤ pre.length + w.length - 1 ∧ (porter w).head? = w.head?) := by
  obtain ⟨cut, j, hRun, hLength⟩ := stem_yields old pre w post
  refine ⟨_, cut, hRun, ?_, hLength, rfl, fun hw => ?_⟩
  · simp only [held, List.append_assoc]
  · have hPos := List.length_pos_iff.mpr ((trims_porter w).ne_nil hw)
    refine ⟨?_, ?_, (trims_porter w).first⟩
    · simp only [held]
      omega
    · simp only [held]
      omega

end Stem

end Bisen.PorterRefinement
