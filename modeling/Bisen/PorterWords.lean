import Bisen.PorterStemmer

/-! # Stems of words

What the stemmer computes, said of words instead of buffers: the measure of a word is the number of times a
vowel is followed by a consonant, and every step rewrites a suffix under a condition on what stands before
it. The stem of a word is a word that is no longer and begins with the same letter.
-/
namespace Bisen.PorterWords
open Wire SuffixRules PorterStemmer
set_option autoImplicit false

/-! ## The measure -/

/-- A `y` is a consonant unless it follows one. -/
def isCons (prev : Bool) (c : UInt8) : Bool :=
  if isVowel c then false else if c = 'y'.toUInt8 then !prev else true

/-- Which characters are consonants; `prev` says it of the character before. -/
def flagsFrom : Bool → Bytes → List Bool
  | _, [] => []
  | prev, c :: w => isCons prev c :: flagsFrom (isCons prev c) w

def flags (w : Bytes) : List Bool := flagsFrom false w

def risesFrom : Bool → List Bool → Nat
  | _, [] => 0
  | prev, c :: l => (if !prev && c then 1 else 0) + risesFrom c l

/-- How often a vowel is followed by a consonant. -/
def rises (l : List Bool) : Nat := risesFrom true l

def measure (w : Bytes) : Nat := rises (flags w)

/-- `<c>vc…vc<v>` with `n` times `vc`. -/
def Shape (n : Nat) (l : List Bool) : Prop :=
  ∃ (c v : Nat) (blocks : List (Nat × Nat)), blocks.length = n ∧
    l = List.replicate c true ++ (blocks.flatMap fun b =>
      List.replicate (b.1 + 1) false ++ List.replicate (b.2 + 1) true) ++ List.replicate v false

@[simp] theorem length_flagsFrom (prev : Bool) (w : Bytes) : (flagsFrom prev w).length = w.length := by
  induction w generalizing prev with
  | nil => rfl
  | cons c w ih => simp only [flagsFrom, List.length_cons, ih]

@[simp] theorem length_flags (w : Bytes) : (flags w).length = w.length := length_flagsFrom false w

theorem flagsFrom_append (prev : Bool) (w u : Bytes) :
    flagsFrom prev (w ++ u) = flagsFrom prev w ++ flagsFrom (((flagsFrom prev w).getLast?).getD prev) u := by
  induction w generalizing prev with
  | nil => rfl
  | cons c w ih =>
    simp only [List.cons_append, flagsFrom, ih, List.getLast?_cons, Option.getD_some]

theorem flags_append (w u : Bytes) : ∃ prev, flags (w ++ u) = flags w ++ flagsFrom prev u :=
  ⟨_, flagsFrom_append false w u⟩

theorem risesFrom_append_vowel (prev : Bool) (l : List Bool) : risesFrom prev (l ++ [false]) = risesFrom prev l := by
  induction l generalizing prev with
  | nil => simp [risesFrom]
  | cons c l ih => rw [List.cons_append, risesFrom, risesFrom, ih]

/-- A vowel at the end does not count. -/
theorem measure_append_vowel (w : Bytes) {c : UInt8} (hc : isVowel c = true) : measure (w ++ [c]) = measure w := by
  obtain ⟨prev, hFlags⟩ := flags_append w [c]
  have hLast : flagsFrom prev [c] = [false] := by simp only [flagsFrom, isCons, hc, if_true]
  rw [measure, hFlags, hLast, rises, risesFrom_append_vowel]
  rfl

theorem risesFrom_consonants (n : Nat) (l : List Bool) :
    risesFrom true (List.replicate n true ++ l) = risesFrom true l := by
  induction n with
  | zero => rfl
  | succ n ih =>
    rw [List.replicate_succ, List.cons_append, risesFrom, ih]
    exact Nat.zero_add _

theorem risesFrom_vowels (prev : Bool) (n : Nat) (l : List Bool) :
    risesFrom prev (List.replicate (n + 1) false ++ l) = risesFrom false l := by
  induction n generalizing prev with
  | zero => simp [risesFrom]
  | succ n ih =>
    rw [List.replicate_succ, List.cons_append, risesFrom, ih false]
    simp

theorem risesFrom_only_vowels (prev : Bool) (n : Nat) : risesFrom prev (List.replicate n false) = 0 := by
  induction n generalizing prev with
  | zero => rfl
  | succ n ih =>
    rw [List.replicate_succ, risesFrom, ih]
    simp

theorem risesFrom_blocks (blocks : List (Nat × Nat)) (v : Nat) :
    risesFrom true ((blocks.flatMap fun b =>
      List.replicate (b.1 + 1) false ++ List.replicate (b.2 + 1) true) ++ List.replicate v false) =
        blocks.length := by
  induction blocks with
  | nil => exact risesFrom_only_vowels true v
  | cons b blocks ih =>
    rw [List.flatMap_cons, List.append_assoc, List.append_assoc, risesFrom_vowels, List.replicate_succ,
      List.cons_append, risesFrom, risesFrom_consonants, ih, List.length_cons]
    exact Nat.add_comm _ _

/-- By the last flag that has been put in front. -/
theorem shape_risesFrom (l : List Bool) :
    Shape (risesFrom true l) l ∧ Shape (risesFrom false l) (false :: l) := by
  induction l with
  | nil => exact ⟨⟨0, 0, [], rfl, rfl⟩, ⟨0, 1, [], rfl, rfl⟩⟩
  | cons flag l ih =>
    obtain ⟨ihTrue, ihFalse⟩ := ih
    cases flag with
    | true =>
      obtain ⟨c, v, blocks, hLength, hl⟩ := ihTrue
      constructor
      · refine ⟨c + 1, v, blocks, ?_, ?_⟩
        · rw [hLength, risesFrom]
          exact (Nat.zero_add _).symm
        · rw [hl, List.replicate_succ]
          rfl
      · refine ⟨0, v, (0, c) :: blocks, ?_, ?_⟩
        · rw [List.length_cons, hLength, risesFrom]
          exact Nat.add_comm _ _
        · rw [hl, List.flatMap_cons]
          simp [List.replicate_succ]
    | false =>
      have hSame : ∀ prev, risesFrom prev (false :: l) = risesFrom false l := fun prev =>
        risesFrom_vowels prev 0 l
      rw [hSame, hSame]
      refine ⟨ihFalse, ?_⟩
      obtain ⟨c, v, blocks, hLength, hl⟩ := ihFalse
      cases c with
      | succ c =>
        rw [List.replicate_succ] at hl
        cases hl
      | zero =>
        cases blocks with
        | nil =>
          refine ⟨0, v + 1, [], hLength, ?_⟩
          rw [hl, List.replicate_succ]
          rfl
        | cons b blocks =>
          refine ⟨0, v, (b.1 + 1, b.2) :: blocks, hLength, ?_⟩
          rw [hl, List.flatMap_cons, List.flatMap_cons, List.replicate_succ (n := b.1 + 1)]
          rfl

theorem rises_eq_iff {l : List Bool} {n : Nat} : rises l = n ↔ Shape n l := by
  constructor
  · rintro rfl
    exact (shape_risesFrom l).1
  · rintro ⟨c, v, blocks, rfl, rfl⟩
    rw [rises, List.append_assoc, risesFrom_consonants, risesFrom_blocks]

theorem length_of_risesFrom {prev : Bool} {l : List Bool} (h : 0 < risesFrom prev l) : l ≠ [] := by
  rintro rfl
  cases h

/-- A vowel and a consonant. -/
theorem two_le_of_measure_pos {w : Bytes} (h : 0 < measure w) : 2 ≤ w.length := by
  rw [← length_flags w]
  rw [measure, rises] at h
  cases hFlags : flags w with
  | nil =>
    rw [hFlags] at h
    cases h
  | cons flag l =>
    rw [hFlags, risesFrom] at h
    have hRest : l ≠ [] := length_of_risesFrom (by simpa using h)
    have hLength := List.length_pos_iff.mpr hRest
    rw [List.length_cons]
    omega

/-! ## The steps -/

def hasVowel (w : Bytes) : Bool := (flags w).contains false

/-- The word ends with twice the same consonant. -/
def endsDouble (w : Bytes) : Bool :=
  decide (2 ≤ w.length) && decide (w[w.length - 1]? = w[w.length - 2]?) &&
    decide ((flags w)[w.length - 1]? = some true)

/-- The word ends with a consonant, a vowel and a consonant that is none of `w`, `x` and `y`. -/
def endsCvc (w : Bytes) : Bool :=
  decide (3 ≤ w.length) && decide ((flags w)[w.length - 1]? = some true) &&
    decide ((flags w)[w.length - 2]? = some false) && decide ((flags w)[w.length - 3]? = some true) &&
      decide (w[w.length - 1]? ∉ ['w'.toUInt8, 'x'.toUInt8, 'y'.toUInt8].map some)

def pluralRules : List (Rule UInt8) := [rule "sses" "ss", rule "ies" "i", rule "ss" "ss", rule "s" ""]

def step1a (w : Bytes) : Bytes := rewrite (fun _ _ => true) pluralRules w

def e : UInt8 := 'e'.toUInt8

def mended (w : Bytes) : Bytes :=
  if ascii "at" <:+ w ∨ ascii "bl" <:+ w ∨ ascii "iz" <:+ w then w ++ [e]
  else if endsDouble w then
    if w.getLast? ∈ ['l'.toUInt8, 's'.toUInt8, 'z'.toUInt8].map some then w else w.dropLast
  else if measure w = 1 ∧ endsCvc w then w ++ [e]
  else w

def step1b (w : Bytes) : Bytes :=
  let eed := ascii "eed"
  let ed := ascii "ed"
  let ing := ascii "ing"
  if eed <:+ w then if 0 < measure (front w eed.length) then w.dropLast else w
  else if ed <:+ w then if hasVowel (front w ed.length) then mended (front w ed.length) else w
  else if ing <:+ w then if hasVowel (front w ing.length) then mended (front w ing.length) else w
  else w

def step1c (w : Bytes) : Bytes := rewrite (fun _ t => hasVowel t) [rule "y" "i"] w

def step2 (w : Bytes) : Bytes := rewrite (fun _ t => 0 < measure t) (all step2Cases) w

def step3 (w : Bytes) : Bytes := rewrite (fun _ t => 0 < measure t) (all step3Cases) w

def endsST (t : Bytes) : Bool := t.getLast? == some 's'.toUInt8 || t.getLast? == some 't'.toUInt8

def step4 (w : Bytes) : Bytes :=
  rewrite (fun r t => decide (1 < measure t) && (decide (r.suffix ≠ ion) || endsST t)) (all step4Cases) w

def step5a (w : Bytes) : Bytes :=
  rewrite (fun _ t => decide (1 < measure t) || decide (measure t = 1) && !endsCvc t) [rule "e" ""] w

def step5b (w : Bytes) : Bytes :=
  if w.getLast? = some 'l'.toUInt8 ∧ endsDouble w ∧ 1 < measure w then w.dropLast else w

/-- The steps behind the first. -/
def later (w : Bytes) : Bytes := step5b (step5a (step4 (step3 (step2 (step1c w)))))

def porter (w : Bytes) : Bytes :=
  if w.length ≤ 2 then w
  else
    let w := step1b (step1a w)
    if w.length ≤ 1 then w else later w

/-! ## What a step keeps -/

def isLower (c : UInt8) : Bool := 0x61 ≤ c && c ≤ 0x7a

/-- `w'` is no longer than `w`, begins as it does, and is spelled with its characters and lower-case letters. -/
structure Trims (w w' : Bytes) : Prop where
  length : w'.length ≤ w.length
  first : w'.head? = w.head?
  letters : ∀ c ∈ w', c ∈ w ∨ isLower c = true

theorem Trims.refl (w : Bytes) : Trims w w := ⟨Nat.le_refl _, rfl, fun _ hc => .inl hc⟩

theorem Trims.trans {w w' w'' : Bytes} (h : Trims w w') (h' : Trims w' w'') : Trims w w'' := by
  constructor
  case length => exact Nat.le_trans h'.length h.length
  case first => exact h'.first.trans h.first
  case letters =>
    intro c hc
    obtain hc' | hLower := h'.letters c hc
    · exact h.letters c hc'
    · exact .inr hLower

theorem Trims.ne_nil {w w' : Bytes} (h : Trims w w') (hNil : w ≠ []) : w' ≠ [] := by
  rintro rfl
  have hFirst := h.first
  obtain ⟨c, rest, rfl⟩ := List.exists_cons_of_ne_nil hNil
  cases hFirst

theorem trims_replaced {t s s' : Bytes} (hFirst : t ≠ [] ∨ s'.head? = s.head?) (hLength : s'.length ≤ s.length)
    (hLower : s'.all isLower = true) : Trims (t ++ s) (t ++ s') := by
  constructor
  case length =>
    rw [List.length_append, List.length_append]
    omega
  case first =>
    rw [List.head?_append, List.head?_append]
    obtain hNil | hSame := hFirst
    · obtain ⟨c, rest, rfl⟩ := List.exists_cons_of_ne_nil hNil
      rfl
    · rw [hSame]
  case letters =>
    intro c hc
    obtain hFront | hBack := List.mem_append.mp hc
    · exact .inl (List.mem_append_left _ hFront)
    · exact .inr (List.all_eq_true.mp hLower c hBack)

theorem trims_dropLast {w : Bytes} (h : 2 ≤ w.length) : Trims w w.dropLast := by
  obtain hNil | ⟨t, c, rfl⟩ := List.eq_nil_or_concat w
  · rw [hNil] at h
    cases h
  · rw [List.concat_eq_append, List.dropLast_concat]
    rw [List.length_concat] at h
    have ht : t ≠ [] := List.ne_nil_of_length_pos (by omega)
    have hTrims : Trims (t ++ [c]) (t ++ []) := trims_replaced (.inl ht) (Nat.zero_le _) rfl
    rwa [List.append_nil] at hTrims

/-- A rule with a suffix that it replaces by no more letters. -/
def Safe (r : Rule UInt8) : Prop :=
  r.suffix ≠ [] ∧ r.replacement.length ≤ r.suffix.length ∧ r.replacement.all isLower = true

instance (r : Rule UInt8) : Decidable (Safe r) := inferInstanceAs (Decidable (_ ∧ _ ∧ _))

theorem trims_rewrite {guard : Rule UInt8 → Bytes → Bool} {rules : List (Rule UInt8)}
    (hSafe : ∀ r ∈ rules, Safe r) (hGuard : ∀ r t, guard r t = true → t ≠ []) (w : Bytes) :
    Trims w (rewrite guard rules w) := by
  obtain hSame | ⟨r, hr, t, rfl, hHolds, hEq⟩ := rewrite_cases guard rules w
  · rw [hSame]
    exact .refl w
  · obtain ⟨_, hLength, hLower⟩ := hSafe r hr
    rw [hEq]
    exact trims_replaced (.inl (hGuard r t hHolds)) hLength hLower

theorem ne_nil_of_measure_pos {w : Bytes} (h : 0 < measure w) : w ≠ [] :=
  List.ne_nil_of_length_pos (Nat.lt_of_lt_of_le Nat.zero_lt_two (two_le_of_measure_pos h))

theorem ne_nil_of_hasVowel {w : Bytes} (h : hasVowel w = true) : w ≠ [] := by
  rintro rfl
  cases h

theorem two_le_of_endsDouble {w : Bytes} (h : endsDouble w = true) : 2 ≤ w.length := by
  rw [endsDouble, Bool.and_eq_true, Bool.and_eq_true] at h
  exact of_decide_eq_true h.1.1

theorem step2_safe : ∀ r ∈ all step2Cases, Safe r := by decide

theorem step3_safe : ∀ r ∈ all step3Cases, Safe r := by decide

theorem step4_safe : ∀ r ∈ all step4Cases, Safe r := by decide

theorem trims_step1a {w : Bytes} (h : 3 ≤ w.length) : Trims w (step1a w) := by
  obtain hSame | ⟨r, hr, t, rfl, -, hEq⟩ := rewrite_cases (fun _ _ => true) pluralRules w
  · rw [step1a, hSame]
    exact .refl w
  · rw [step1a, hEq]
    have hRules : ∀ r ∈ pluralRules, r.replacement.length ≤ r.suffix.length ∧
        r.replacement.all isLower = true ∧
        (r.suffix.length < 3 ∨ r.replacement.head? = r.suffix.head?) := by decide
    obtain ⟨hLength, hLower, hFirst⟩ := hRules r hr
    refine trims_replaced ?_ hLength hLower
    refine hFirst.imp_left fun hShort => List.ne_nil_of_length_pos ?_
    rw [List.length_append] at h
    omega

theorem trims_mended {t s : Bytes} (ht : t ≠ []) (hs : s ≠ []) : Trims (t ++ s) (mended t) := by
  have hPlain : Trims (t ++ s) t := by
    have hTrims : Trims (t ++ s) (t ++ []) := trims_replaced (.inl ht) (Nat.zero_le _) rfl
    rwa [List.append_nil] at hTrims
  have hLonger : Trims (t ++ s) (t ++ [e]) := trims_replaced (.inl ht) (List.length_pos_iff.mpr hs) rfl
  rw [mended]
  split
  · exact hLonger
  split
  · case isTrue hDouble =>
    split
    · exact hPlain
    · exact hPlain.trans (trims_dropLast (two_le_of_endsDouble hDouble))
  split
  · exact hLonger
  · exact hPlain

theorem trims_mended_front {w s : Bytes} (hs : s ≠ []) (hSuffix : s <:+ w)
    (hVowel : hasVowel (front w s.length) = true) : Trims w (mended (front w s.length)) := by
  conv => arg 1; rw [← front_append_of_suffix hSuffix]
  exact trims_mended (ne_nil_of_hasVowel hVowel) hs

theorem trims_step1b (w : Bytes) : Trims w (step1b w) := by
  rw [step1b]
  split
  · case isTrue hEed =>
    split
    · case isTrue hPos =>
      apply trims_dropLast
      have hFront := two_le_of_measure_pos hPos
      rw [front, List.length_take] at hFront
      omega
    · exact .refl w
  split
  · case isTrue hEd =>
    split
    · case isTrue hVowel => exact trims_mended_front (by decide) hEd hVowel
    · exact .refl w
  split
  · case isTrue hIng =>
    split
    · case isTrue hVowel => exact trims_mended_front (by decide) hIng hVowel
    · exact .refl w
  · exact .refl w

theorem trims_step1c (w : Bytes) : Trims w (step1c w) :=
  trims_rewrite (by decide) (fun _ _ => ne_nil_of_hasVowel) w

theorem trims_step2 (w : Bytes) : Trims w (step2 w) :=
  trims_rewrite step2_safe (fun _ _ h => ne_nil_of_measure_pos (of_decide_eq_true h)) w

theorem trims_step3 (w : Bytes) : Trims w (step3 w) :=
  trims_rewrite step3_safe (fun _ _ h => ne_nil_of_measure_pos (of_decide_eq_true h)) w

theorem trims_step4 (w : Bytes) : Trims w (step4 w) := by
  refine trims_rewrite step4_safe (fun r t h => ne_nil_of_measure_pos ?_) w
  have hMeasure := of_decide_eq_true (Bool.and_elim_left h)
  omega

theorem trims_step5a (w : Bytes) : Trims w (step5a w) := by
  refine trims_rewrite (by decide) (fun r t h => ne_nil_of_measure_pos ?_) w
  simp only [Bool.or_eq_true, Bool.and_eq_true, decide_eq_true_eq] at h
  omega

theorem trims_step5b (w : Bytes) : Trims w (step5b w) := by
  rw [step5b]
  split
  · case isTrue h => exact trims_dropLast (two_le_of_endsDouble h.2.1)
  · exact .refl w

theorem trims_later (w : Bytes) : Trims w (later w) :=
  (trims_step1c w).trans <| (trims_step2 _).trans <| (trims_step3 _).trans <| (trims_step4 _).trans <|
    (trims_step5a _).trans (trims_step5b _)

theorem trims_porter (w : Bytes) : Trims w (porter w) := by
  rw [porter]
  split
  · exact .refl w
  · case isFalse hLong =>
    have hFirst := (trims_step1a (by omega)).trans (trims_step1b (step1a w))
    dsimp only
    split
    · exact hFirst
    · exact hFirst.trans (trims_later _)

end Bisen.PorterWords
