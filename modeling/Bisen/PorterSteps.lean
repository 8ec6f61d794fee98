import Bisen.PorterReading

/-! # The steps of the stemmer on a buffer

Each of the first three steps of the stemmer rewrites the word in the buffer as the step on words does, leaves what it
cuts off behind the word, and touches nothing else; no read or write is outside the buffer, and what `j` held before
is never looked at.
-/
namespace Bisen.PorterSteps
open Wire SuffixRules PorterStemmer PorterWords PorterReading
set_option autoImplicit false

/-! ## Runs on a buffer -/

/-- The run turns the word `w` into `w'` and leaves what it cuts off behind it. -/
def Yields (run : Except Fault State) (pre w w' post : Bytes) : Prop :=
  ∃ cut j, run = .ok (held pre w' (cut ++ post) j) ∧ w'.length + cut.length = w.length

section Yields
variable {pre t w w' w'' x post s : Bytes} {j : Int} {step step' : State → Except Fault State}
  {run : Except Fault State}

theorem yields_same (pre w post : Bytes) (j : Int) : Yields (.ok (held pre w post j)) pre w w post :=
  ⟨[], j, rfl, rfl⟩

theorem yields_cut (pre t x post : Bytes) (j : Int) :
    Yields (.ok { held pre (t ++ x) post j with k := pre.length + t.length - 1 }) pre (t ++ x) t post :=
  ⟨x, j, by rw [held_cut], by rw [List.length_append]⟩

theorem held_k_sub (pre t x post : Bytes) (j : Int) :
    (held pre (t ++ x) post j).k - x.length = pre.length + t.length - 1 := by
  simp only [held, List.length_append]
  omega

theorem yields_dropLast (pre : Bytes) (hw : w ≠ []) (post : Bytes) (j : Int) :
    Yields (.ok { held pre w post j with k := (held pre w post j).k - 1 }) pre w w.dropLast post := by
  obtain ⟨c, hHeld⟩ := held_dropLast pre hw post j
  refine ⟨[c], j, by rw [hHeld]; rfl, ?_⟩
  have hLength := List.length_pos_iff.mpr hw
  rw [List.length_dropLast, List.length_singleton]
  omega

theorem yields_setto (hShort : s.length ≤ x.length) :
    Yields (setto (held pre (t ++ x) post (pre.length + t.length - 1)) s) pre (t ++ x) (t ++ s) post := by
  refine ⟨x.drop s.length, pre.length + t.length - 1, ?_, ?_⟩
  · rw [setto_held pre t (by rw [List.length_append]; omega), List.drop_append_of_le_length hShort]
  · rw [List.length_append, List.length_append, List.length_drop]
    omega

/-- What stood behind a shorter word was cut off before. -/
theorem Yields.widen (h : Yields run pre t w' (x ++ post)) : Yields run pre (t ++ x) w' post := by
  obtain ⟨cut, j, hRun, hLength⟩ := h
  refine ⟨cut ++ x, j, by rw [hRun, List.append_assoc], ?_⟩
  rw [List.length_append, List.length_append]
  omega

theorem Yields.bind (h : Yields run pre w w' post)
    (hNext : ∀ post' j, Yields (step (held pre w' post' j)) pre w' w'' post') :
    Yields (run >>= step) pre w w'' post := by
  obtain ⟨cut, j, rfl, hLength⟩ := h
  obtain ⟨cut', j', hRun, hLength'⟩ := hNext (cut ++ post) j
  refine ⟨cut' ++ cut, j', ?_, ?_⟩
  · rw [List.append_assoc]
    exact hRun
  · rw [List.length_append]
    omega

end Yields

/-! ## Steps 2 and 3 -/

section Rules
variable {pre t w x post s : Bytes} {j : Int}

theorem yields_r (hShort : s.length ≤ x.length) :
    Yields (r (held pre (t ++ x) post (pre.length + t.length - 1)) s) pre (t ++ x)
      (if 0 < measure t then t ++ s else t ++ x) post := by
  rw [r, (spells_held pre t x post _).m rfl]
  change Yields (if 0 < measure t then _ else _) _ _ _ _
  split
  · exact yields_setto hShort
  · exact yields_same _ _ _ _

theorem yields_replaceFirst {rules : List (Rule UInt8)} (hSafe : ∀ r ∈ rules, Safe r) (hw : w ≠ []) :
    Yields (replaceFirst rules (held pre w post j)) pre w (rewrite (fun _ t => 0 < measure t) rules w) post := by
  induction rules with
  | nil => exact yields_same pre w post j
  | cons rule rules ih =>
    obtain ⟨⟨hNil, hShort, _⟩, hSafe⟩ := List.forall_mem_cons.mp hSafe
    rw [replaceFirst]
    by_cases hSuffix : rule.suffix <:+ w
    · obtain ⟨t, rfl⟩ := hSuffix
      rw [ends_append pre t post j hNil, rewrite_cons_of_suffix]
      simp only [decide_eq_true_eq]
      exact yields_r hShort
    · rw [ends_not pre post j hw hNil hSuffix, rewrite_cons_of_not_suffix hSuffix]
      exact ih hSafe

theorem ne_nil_of_penultimate {c : UInt8} (h : penultimate w = some c) : w ≠ [] := by
  rintro rfl
  cases h

theorem exists_penultimate (h : 2 ≤ w.length) : ∃ c, penultimate w = some c := by
  have hNil : w.dropLast ≠ [] := List.ne_nil_of_length_pos (by rw [List.length_dropLast]; omega)
  exact ⟨_, List.getLast?_eq_some_getLast hNil⟩

theorem step2_grouped : Grouped penultimate step2Cases :=
  grouped_penultimate (by decide) (by decide)

theorem step3_grouped : Grouped List.getLast? step3Cases :=
  grouped_last (by decide) (by decide)

theorem step4_grouped : Grouped penultimate step4Cases :=
  grouped_penultimate (by decide) (by decide)

theorem yields_step2 (hLong : 2 ≤ w.length) :
    Yields (PorterStemmer.step2 (held pre w post j)) pre w (PorterWords.step2 w) post := by
  obtain ⟨c, hc⟩ := exists_penultimate hLong
  rw [PorterStemmer.step2, read_penultimate pre hc, PorterWords.step2, ← rewrite_group step2_grouped _ hc]
  exact yields_replaceFirst (fun rule hRule => step2_safe rule ((group_sublist _ c).subset hRule))
    (ne_nil_of_penultimate hc)

theorem yields_step3 (hw : w ≠ []) :
    Yields (PorterStemmer.step3 (held pre w post j)) pre w (PorterWords.step3 w) post := by
  obtain ⟨c, hc⟩ : ∃ c, w.getLast? = some c := ⟨_, List.getLast?_eq_some_getLast hw⟩
  rw [PorterStemmer.step3, read_last pre hc, PorterWords.step3, ← rewrite_group step3_grouped _ hc]
  exact yields_replaceFirst (fun rule hRule => step3_safe rule ((group_sublist _ c).subset hRule)) hw

/-! ## Step 1 -/

/-- A vowel letter more, in the place of the first letter cut off. -/
theorem yields_addE {u : Bytes} (hx : x ≠ []) :
    Yields (setto (held pre (t ++ u) (x ++ post) (pre.length + t.length - 1)) (u ++ [e])) pre (t ++ u ++ x)
      (t ++ u ++ [e]) post := by
  obtain ⟨c, x, rfl⟩ := List.exists_cons_of_ne_nil hx
  refine ⟨x, pre.length + t.length - 1, ?_, ?_⟩
  · rw [setto_held pre t (by simp), ← List.append_assoc]
    have hRest : (u ++ (c :: x ++ post)).drop (u ++ [e]).length = x ++ post := by
      rw [List.length_append, ← List.drop_drop, List.drop_left]
      rfl
    rw [hRest]
  · simp only [List.length_append, List.length_cons, List.length_nil]
    omega

theorem mended_of_suffix {u : Bytes} (hu : u ∈ [ascii "at", ascii "bl", ascii "iz"]) (hEnds : u <:+ t) :
    mended t = t ++ [e] := by
  rw [mended, if_pos]
  simp only [List.mem_cons, List.not_mem_nil, or_false] at hu
  obtain rfl | rfl | rfl := hu
  · exact .inl hEnds
  · exact .inr (.inl hEnds)
  · exact .inr (.inr hEnds)

/-- One of the three endings that get an `e` back. -/
theorem yields_ending {u v : Bytes} (hu : u ∈ [ascii "at", ascii "bl", ascii "iz"]) (hv : v = u ++ [e])
    (hx : x ≠ []) (hEnds : u <:+ t) :
    ∃ j, ends (held pre t (x ++ post) (pre.length + t.length - 1)) u = .ok (true, held pre t (x ++ post) j) ∧
      Yields (setto (held pre t (x ++ post) j) v) pre (t ++ x) (mended t) post := by
  have hNil : u ≠ [] := by
    have hAll : ∀ u ∈ [ascii "at", ascii "bl", ascii "iz"], u ≠ [] := by decide
    exact hAll u hu
  rw [mended_of_suffix hu hEnds]
  obtain ⟨t, rfl⟩ := hEnds
  refine ⟨_, ends_append pre t _ _ hNil, ?_⟩
  rw [hv]
  exact yields_addE hx

/-- The letter that is left of a double consonant is `ch`. -/
theorem yields_undouble (hDouble : endsDouble t = true) :
    Yields (do
      let s := { held pre t post j with k := (held pre t post j).k - 1 }
      let ch ← read s s.k
      if ch = 'l'.toUInt8 ∨ ch = 's'.toUInt8 ∨ ch = 'z'.toUInt8 then return { s with k := s.k + 1 }
      else return s) pre t
      (if t.getLast? ∈ ['l'.toUInt8, 's'.toUInt8, 'z'.toUInt8].map some then t else t.dropLast) post := by
  have hLong := two_le_of_endsDouble hDouble
  rw [endsDouble, Bool.and_eq_true, Bool.and_eq_true] at hDouble
  have hSame := of_decide_eq_true hDouble.1.2
  obtain ⟨c, hc⟩ := exists_penultimate hLong
  have hLast : t.getLast? = some c := by
    rw [List.getLast?_eq_getElem?, hSame, ← hc, penultimate, List.getLast?_dropLast, if_neg (by omega)]
  have hRead : read { held pre t post j with k := (held pre t post j).k - 1 } ((held pre t post j).k - 1) = .ok c :=
    read_penultimate pre hc post j
  dsimp only
  rw [hRead, hLast]
  change Yields (if c = 'l'.toUInt8 ∨ c = 's'.toUInt8 ∨ c = 'z'.toUInt8 then Except.ok _ else .ok _) _ _ _ _
  simp only [List.map_cons, List.map_nil, List.mem_cons, Option.some.injEq, List.not_mem_nil, or_false]
  split
  · rw [Int.sub_add_cancel]
    exact yields_same pre t post j
  · exact yields_dropLast pre (List.ne_nil_of_length_pos (by omega)) post j

theorem yields_mend (ht : t ≠ []) (hx : x ≠ []) :
    Yields (mend (held pre t (x ++ post) (pre.length + t.length - 1))) pre (t ++ x) (mended t) post := by
  rw [mend]
  by_cases hAt : ascii "at" <:+ t
  · obtain ⟨j, hRun, hYields⟩ := yields_ending (v := ascii "ate") (by simp) (by decide) hx hAt
    rw [hRun]
    exact hYields
  rw [ends_not pre _ _ ht (by decide) hAt]
  change Yields (ends _ _ >>= _) _ _ _ _
  by_cases hBl : ascii "bl" <:+ t
  · obtain ⟨j, hRun, hYields⟩ := yields_ending (v := ascii "ble") (by simp) (by decide) hx hBl
    rw [hRun]
    exact hYields
  rw [ends_not pre _ _ ht (by decide) hBl]
  change Yields (ends _ _ >>= _) _ _ _ _
  by_cases hIz : ascii "iz" <:+ t
  · obtain ⟨j, hRun, hYields⟩ := yields_ending (v := ascii "ize") (by simp) (by decide) hx hIz
    rw [hRun]
    exact hYields
  rw [ends_not pre _ _ ht (by decide) hIz, mended,
    if_neg (by simp only [hAt, hBl, hIz, or_self, not_false_eq_true])]
  have hSpells := spells_word pre t (x ++ post) (pre.length + t.length - 1)
  change Yields (doublec _ (pre.length + t.length - 1) >>= _) _ _ _ _
  rw [hSpells.doublec]
  cases hDouble : endsDouble t with
  | true =>
    exact (yields_undouble hDouble).widen
  | false =>
    rw [if_neg Bool.false_ne_true]
    change Yields (m _ >>= _) _ _ _ _
    rw [hSpells.m rfl]
    change Yields (if measure t = 1 then _ else _) _ _ _ _
    by_cases hOne : measure t = 1
    · rw [if_pos hOne]
      change Yields (cvc _ (pre.length + t.length - 1) >>= _) _ _ _ _
      rw [hSpells.cvc]
      cases hCvc : endsCvc t with
      | true =>
        rw [if_pos ⟨hOne, rfl⟩]
        have hE : ascii "e" = [] ++ [e] := by decide
        have hAdd : Yields (setto (held pre (t ++ []) _ _) ([] ++ [e])) pre (t ++ [] ++ x) (t ++ [] ++ [e]) post :=
          yields_addE hx
        rw [← hE, List.append_nil] at hAdd
        exact hAdd
      | false =>
        rw [if_neg fun h => Bool.false_ne_true h.2]
        exact (yields_same pre t (x ++ post) _).widen
    · rw [if_neg hOne, if_neg fun h => hOne h.1]
      exact (yields_same pre t (x ++ post) _).widen

theorem yields_strip {u : Bytes} (hu : u ≠ []) :
    Yields (do
      let s := held pre (t ++ u) post (pre.length + t.length - 1)
      if ← vowelinstem s then mend { s with k := s.j } else return s) pre (t ++ u)
      (if hasVowel t then mended t else t ++ u) post := by
  dsimp only
  rw [(spells_held pre t u post _).vowelinstem rfl]
  change Yields (if hasVowel t then _ else _) _ _ _ _
  split
  · case isTrue hVowel =>
    change Yields (mend { held pre (t ++ u) post _ with k := pre.length + t.length - 1 }) _ _ _ _
    rw [held_cut]
    exact yields_mend (ne_nil_of_hasVowel hVowel) hu
  · exact yields_same _ _ _ _

theorem yields_dropPast (hw : w ≠ []) : Yields (dropPast (held pre w post j)) pre w (step1b w) post := by
  rw [dropPast, step1b]
  by_cases hEed : ascii "eed" <:+ w
  · obtain ⟨t, rfl⟩ := hEed
    rw [ends_append pre t post j (by decide), if_pos (List.suffix_append _ _), front_append]
    change Yields (m _ >>= _) _ _ _ _
    rw [(spells_held pre t _ post _).m rfl]
    change Yields (if 0 < measure t then _ else _) _ _ _ _
    split
    · exact yields_dropLast pre hw post _
    · exact yields_same _ _ _ _
  rw [ends_not pre post j hw (by decide) hEed, if_neg hEed]
  change Yields (endsEdIng _ >>= _) _ _ _ _
  rw [endsEdIng]
  by_cases hEd : ascii "ed" <:+ w
  · obtain ⟨t, rfl⟩ := hEd
    rw [ends_append pre t post j (by decide), if_pos (List.suffix_append _ _), front_append]
    exact yields_strip (by decide)
  rw [ends_not pre post j hw (by decide) hEd, if_neg hEd]
  by_cases hIng : ascii "ing" <:+ w
  · obtain ⟨t, rfl⟩ := hIng
    rw [if_pos (List.suffix_append _ _), front_append]
    change Yields (ends _ _ >>= _) _ _ _ _
    rw [ends_append pre t post j (by decide)]
    exact yields_strip (by decide)
  rw [if_neg hIng]
  change Yields (ends _ _ >>= _) _ _ _ _
  rw [ends_not pre post j hw (by decide) hIng]
  exact yields_same pre w post j

theorem exists_two (h : 2 ≤ w.length) : ∃ t d c, w = t ++ [d, c] := by
  obtain rfl | ⟨u, c, rfl⟩ := List.eq_nil_or_concat w
  · cases h
  obtain rfl | ⟨t, d, rfl⟩ := List.eq_nil_or_concat u
  · exact absurd h (by simp)
  · exact ⟨t, d, c, by simp⟩

theorem step1a_of_last {c : UInt8} (hc : c ≠ 's'.toUInt8) (t : Bytes) : step1a (t ++ [c]) = t ++ [c] := by
  have hNone : firstRule pluralRules (t ++ [c]) = none := by
    apply firstRule_eq_none_iff.mpr
    intro rule hRule hSuffix
    have hLast : ∀ rule ∈ pluralRules, rule.suffix ≠ [] ∧ rule.suffix.getLast? = some 's'.toUInt8 := by decide
    obtain ⟨hNil, hS⟩ := hLast rule hRule
    rw [← getLast?_of_suffix hNil hSuffix, List.getLast?_concat] at hS
    exact hc (Option.some.inj hS)
  rw [step1a, rewrite, hNone]

theorem step1a_sses (t : Bytes) : step1a (t ++ ascii "sses") = t ++ ascii "ss" :=
  rewrite_cons_of_suffix (r := rule "sses" "ss")

theorem step1a_ies {t : Bytes} (hSses : ¬ ascii "sses" <:+ t ++ ascii "ies") :
    step1a (t ++ ascii "ies") = t ++ ascii "i" := by
  refine (rewrite_cons_of_not_suffix (r := rule "sses" "ss") hSses).trans ?_
  exact rewrite_cons_of_suffix (r := rule "ies" "i")

/-- Neither `sses` nor `ies`: the `s` goes unless another one is before it. -/
theorem step1a_s {t : Bytes} {d : UInt8} (hSses : ¬ ascii "sses" <:+ t ++ [d] ++ ascii "s")
    (hIes : ¬ ascii "ies" <:+ t ++ [d] ++ ascii "s") :
    step1a (t ++ [d] ++ ascii "s") = if d = 's'.toUInt8 then t ++ [d] ++ ascii "s" else t ++ [d] := by
  have hSs : ascii "ss" = ['s'.toUInt8] ++ ascii "s" := by decide
  have hNil : ascii "" = [] := by decide
  refine (rewrite_cons_of_not_suffix (r := rule "sses" "ss") hSses).trans ?_
  refine (rewrite_cons_of_not_suffix (r := rule "ies" "i") hIes).trans ?_
  split
  · case isTrue hd =>
    subst hd
    rw [List.append_assoc, ← hSs]
    exact rewrite_cons_of_suffix (r := rule "ss" "ss")
  · case isFalse hd =>
    have hNot : ¬ ascii "ss" <:+ t ++ [d] ++ ascii "s" := by
      rw [hSs]
      rintro ⟨u, hu⟩
      rw [← List.append_assoc] at hu
      have hFront := List.append_cancel_right hu
      exact hd (List.singleton_inj.mp (List.append_inj_right' hFront rfl)).symm
    refine (rewrite_cons_of_not_suffix (r := rule "ss" "ss") hNot).trans ?_
    refine (rewrite_cons_of_suffix (r := rule "s" "")).trans ?_
    exact (congrArg (t ++ [d] ++ ·) hNil).trans (List.append_nil _)

theorem yields_dropPlural (hLong : 2 ≤ w.length) :
    Yields (dropPlural (held pre w post j)) pre w (step1a w) post := by
  obtain ⟨t, d, c, rfl⟩ := exists_two hLong
  have hw : t ++ [d, c] ≠ [] := List.ne_nil_of_length_pos (by omega)
  have hSnoc : t ++ [d, c] = t ++ [d] ++ [c] := by simp
  have hLast : (t ++ [d, c]).getLast? = some c := by simp
  have hBefore : penultimate (t ++ [d, c]) = some d := by simp [penultimate]
  rw [dropPlural, read_last pre hLast]
  change Yields (if c = 's'.toUInt8 then _ else _) _ _ _ _
  by_cases hc : c = 's'.toUInt8
  · subst hc
    rw [if_pos rfl]
    by_cases hSses : ascii "sses" <:+ t ++ [d, 's'.toUInt8]
    · obtain ⟨u, hu⟩ := hSses
      have hSplit : u ++ ascii "sses" = u ++ ascii "ss" ++ ascii "es" := by
        rw [List.append_assoc]
        exact congrArg (u ++ ·) (by decide)
      rw [← hu, ends_append pre u post j (by decide), step1a_sses]
      change Yields (.ok { held pre (u ++ ascii "sses") post _ with
        k := (held pre (u ++ ascii "sses") post _).k - (ascii "es").length }) _ _ _ _
      rw [hSplit, held_k_sub]
      exact yields_cut pre _ _ post _
    rw [ends_not pre post j hw (by decide) hSses]
    change Yields (ends _ _ >>= _) _ _ _ _
    by_cases hIes : ascii "ies" <:+ t ++ [d, 's'.toUInt8]
    · obtain ⟨u, hu⟩ := hIes
      rw [← hu] at hSses ⊢
      rw [ends_append pre u post j (by decide), step1a_ies hSses]
      exact yields_setto (by decide)
    rw [ends_not pre post j hw (by decide) hIes]
    change Yields (read _ _ >>= _) _ _ _ _
    have hS : ['s'.toUInt8] = ascii "s" := by decide
    rw [read_penultimate pre hBefore]
    rw [hSnoc, hS] at hSses hIes ⊢
    rw [step1a_s hSses hIes]
    change Yields (if d ≠ 's'.toUInt8 then _ else _) _ _ _ _
    by_cases hd : d = 's'.toUInt8
    · rw [if_neg (not_not.mpr hd), if_pos hd]
      exact yields_same _ _ _ _
    · rw [if_pos hd, if_neg hd, ← hS]
      have hDrop := yields_dropLast (w := t ++ [d] ++ ['s'.toUInt8]) pre (by simp) post j
      rw [List.dropLast_concat] at hDrop
      exact hDrop
  · rw [if_neg hc, hSnoc, step1a_of_last hc]
    exact yields_same _ _ _ _

theorem yields_step1ab (hLong : 3 ≤ w.length) :
    Yields (step1ab (held pre w post j)) pre w (step1b (step1a w)) post := by
  refine (yields_dropPlural (by omega)).bind fun post' j' => ?_
  exact yields_dropPast ((trims_step1a hLong).ne_nil (List.ne_nil_of_length_pos (by omega)))

theorem yields_step1c (hw : w ≠ []) :
    Yields (PorterStemmer.step1c (held pre w post j)) pre w (PorterWords.step1c w) post := by
  rw [PorterStemmer.step1c, PorterWords.step1c]
  by_cases hY : ascii "y" <:+ w
  · obtain ⟨t, rfl⟩ := hY
    have hRule : rewrite (fun _ t => hasVowel t) [rule "y" "i"] (t ++ ascii "y") =
        if hasVowel t then t ++ ascii "i" else t ++ ascii "y" := rewrite_cons_of_suffix (r := rule "y" "i")
    have hOne : (ascii "y").length = 1 ∧ ascii "i" = ['i'.toUInt8] := by decide
    rw [ends_append pre t post j (by decide), hRule, hOne.2]
    change Yields (vowelinstem _ >>= _) _ _ _ _
    rw [(spells_held pre t (ascii "y") post _).vowelinstem rfl]
    change Yields (if hasVowel t then _ else _) _ _ _ _
    split
    · have hk : (held pre (t ++ ascii "y") post (pre.length + t.length - 1)).k = pre.length + t.length := by
        simp only [held, List.length_append, hOne.1]
        omega
      rw [hk, writeRange_held pre t (by rw [List.length_append, hOne.1]; exact Nat.le_add_right 1 _)]
      refine ⟨[], pre.length + t.length - 1, ?_, by simp [hOne.1]⟩
      have hDrop : (ascii "y" ++ post).drop ['i'.toUInt8].length = post := List.drop_left' hOne.1
      rw [hDrop]
      simp only [held, List.length_append, hOne.1, List.length_singleton, List.nil_append]
    · exact yields_same _ _ _ _
  · rw [ends_not pre post j hw (by decide) hY, rewrite_cons_of_not_suffix (r := rule "y" "i") hY]
    exact yields_same _ _ _ _

end Rules

end Bisen.PorterSteps
