import Bisen.PorterWords

/-! # The letters of a word in a buffer

A buffer holds a word between what stands before it and behind it. The functions of the stemmer that only look
at the word read nothing else, and find in the buffer what the functions on words say of the word.
-/
namespace Bisen.PorterReading
open Wire SuffixRules PorterStemmer PorterWords
set_option autoImplicit false

/-! ## Consonants -/

section Letters
variable {s : State} {pre t : Bytes}

/-- From `k0` on the buffer spells `t`. -/
structure Spells (s : State) (pre t : Bytes) : Prop where
  b : pre ++ t <+: s.b
  k0 : s.k0 = pre.length

theorem read_natCast (s : State) (n : Nat) {c : UInt8} (h : s.b[n]? = some c) : read s n = .ok c := by
  have hRead : read s (Int.ofNat n) = .ok c := by rw [PorterStemmer.read, h]
  exact hRead

theorem Spells.read (h : Spells s pre t) {n : Nat} {c : UInt8} (hc : t[n]? = some c) :
    read s (pre.length + n) = .ok c := by
  obtain ⟨rest, hb⟩ := h.b
  have hLt := (List.getElem?_eq_some_iff.mp hc).1
  refine read_natCast s (pre.length + n) ?_
  rw [← hb, List.append_assoc, List.getElem?_append_right (Nat.le_add_right _ _), Nat.add_sub_cancel_left,
    List.getElem?_append_left hLt, hc]

theorem getElem?_flagsFrom_succ {prev flag : Bool} {w : Bytes} {n : Nat}
    (h : (flagsFrom prev w)[n + 1]? = some flag) :
    ∃ flag' c, (flagsFrom prev w)[n]? = some flag' ∧ w[n + 1]? = some c ∧ flag = isCons flag' c := by
  induction w generalizing prev n with
  | nil => cases h
  | cons c w ih =>
    cases n with
    | succ n => exact ih h
    | zero =>
      cases w with
      | nil => cases h
      | cons d w => exact ⟨isCons prev c, d, rfl, rfl, (Option.some.inj h).symm⟩

theorem getElem?_flags_zero {flag : Bool} {w : Bytes} (h : (flags w)[0]? = some flag) :
    ∃ c, w[0]? = some c ∧ flag = isCons false c := by
  cases w with
  | nil => cases h
  | cons c w => exact ⟨c, rfl, (Option.some.inj h).symm⟩

theorem consFrom_succ {fuel : Nat} {i : Int} {c : UInt8} (hRead : PorterStemmer.read s i = .ok c) {prev : Bool}
    (hFirst : i = s.k0 → prev = false) (hBack : i ≠ s.k0 → consFrom s fuel (i - 1) = .ok prev) :
    consFrom s (fuel + 1) i = .ok (isCons prev c) := by
  rw [consFrom, hRead, isCons]
  change (if isVowel c then (Except.ok false : Except Fault Bool) else _) = _
  split
  · rfl
  split
  · split
    · case isTrue hk0 =>
      rw [hFirst hk0]
      rfl
    · case isFalse hk0 =>
      rw [hBack hk0]
      rfl
  · rfl

/-- A `y` asks for its neighbour, down to the first letter. -/
theorem Spells.consFrom (h : Spells s pre t) {n fuel : Nat} {flag : Bool} (hFlag : (flags t)[n]? = some flag)
    (hFuel : n < fuel) : PorterStemmer.consFrom s fuel (pre.length + n) = .ok flag := by
  induction n generalizing fuel flag with
  | zero =>
    obtain ⟨fuel, rfl⟩ := Nat.exists_eq_succ_of_ne_zero (Nat.ne_of_gt hFuel)
    obtain ⟨c, hc, rfl⟩ := getElem?_flags_zero hFlag
    refine consFrom_succ (h.read hc) (fun _ => rfl) fun hNe => ?_
    exact absurd (by rw [h.k0]; simp) hNe
  | succ n ih =>
    obtain ⟨fuel, rfl⟩ := Nat.exists_eq_succ_of_ne_zero (Nat.ne_of_gt (Nat.lt_of_le_of_lt (Nat.zero_le _) hFuel))
    obtain ⟨flag', c, hFlag', hc, rfl⟩ := getElem?_flagsFrom_succ hFlag
    refine consFrom_succ (h.read hc) (fun hEq => ?_) fun _ => ?_
    · rw [h.k0] at hEq
      omega
    · have hBefore : (pre.length : Int) + (n + 1 : Nat) - 1 = pre.length + n := by omega
      rw [hBefore]
      exact ih hFlag' (Nat.lt_of_succ_lt_succ hFuel)

theorem Spells.cons (h : Spells s pre t) {n : Nat} {flag : Bool} (hFlag : (flags t)[n]? = some flag) :
    cons s (pre.length + n) = .ok flag := h.consFrom hFlag (by omega)

end Letters

/-! ## The loops -/

section Loops
variable {s : State} {pre t : Bytes}

/-- From `i` to `j` the characters are consonants and vowels as `l` says. -/
structure Ahead (s : State) (i : Int) (l : List Bool) : Prop where
  stop : i + l.length = s.j + 1
  flag : ∀ (n : Nat) (flag : Bool), l[n]? = some flag → cons s (i + n) = .ok flag

theorem Ahead.head {i : Int} {flag : Bool} {l : List Bool} (h : Ahead s i (flag :: l)) :
    PorterStemmer.cons s i = .ok flag := by
  have hHead := h.flag 0 flag rfl
  rwa [Int.natCast_zero, Int.add_zero] at hHead

theorem Ahead.tail {i : Int} {flag : Bool} {l : List Bool} (h : Ahead s i (flag :: l)) : Ahead s (i + 1) l := by
  constructor
  case stop =>
    have hStop := h.stop
    rw [List.length_cons] at hStop
    omega
  case flag =>
    intro n flag' hFlag
    have hNext := h.flag (n + 1) flag' hFlag
    have hIndex : i + 1 + n = i + (n + 1 : Nat) := by omega
    rwa [hIndex]

theorem Spells.ahead (h : Spells s pre t) (hj : s.j = pre.length + t.length - 1) : Ahead s s.k0 (flags t) := by
  constructor
  case stop =>
    rw [h.k0, length_flags, hj]
    omega
  case flag =>
    intro n flag hFlag
    rw [h.k0]
    exact h.cons hFlag

/-- What follows the first `c`. -/
def skipTo (c : Bool) : List Bool → Option (List Bool)
  | [] => none
  | flag :: l => if flag = c then some l else skipTo c l

theorem Ahead.seek {i : Int} {l : List Bool} (h : Ahead s i l) (c : Bool) {fuel : Nat} (hFuel : l.length ≤ fuel) :
    match skipTo c l with
    | none => PorterStemmer.seek s c fuel i = .ok none
    | some l' => ∃ i', PorterStemmer.seek s c fuel i = .ok (some i') ∧ Ahead s (i' + 1) l' ∧
        l'.length < l.length := by
  induction l generalizing i fuel with
  | nil =>
    have hStop := h.stop
    rw [List.length_nil] at hStop
    rw [skipTo]
    cases fuel with
    | zero => rfl
    | succ fuel =>
      rw [PorterStemmer.seek, if_pos (by omega)]
      rfl
  | cons flag l ih =>
    obtain ⟨fuel, rfl⟩ : ∃ n, fuel = n + 1 := Nat.exists_eq_add_of_lt (Nat.lt_of_lt_of_le (Nat.succ_pos _) hFuel)
      |>.imp fun n hn => by omega
    have hStop := h.stop
    rw [List.length_cons] at hStop hFuel
    have hSeek : PorterStemmer.seek s c (fuel + 1) i =
        if flag = c then .ok (some i) else PorterStemmer.seek s c fuel (i + 1) := by
      rw [PorterStemmer.seek, if_neg (by omega), h.head]
      rfl
    rw [hSeek, skipTo]
    by_cases hFlag : flag = c
    · rw [if_pos hFlag, if_pos hFlag]
      exact ⟨i, rfl, h.tail, Nat.lt_succ_self _⟩
    · rw [if_neg hFlag, if_neg hFlag]
      have hNext := ih h.tail (Nat.le_of_succ_le_succ hFuel)
      cases hSkip : skipTo c l with
      | none =>
        rw [hSkip] at hNext
        exact hNext
      | some l' =>
        rw [hSkip] at hNext
        obtain ⟨i', hRun, hAhead, hLength⟩ := hNext
        exact ⟨i', hRun, hAhead, Nat.lt_succ_of_lt hLength⟩

theorem risesFrom_skipTo (c : Bool) (l : List Bool) :
    risesFrom (!c) l = match skipTo c l with
      | none => 0
      | some l' => (if c then 1 else 0) + risesFrom c l' := by
  induction l with
  | nil => rfl
  | cons flag l ih =>
    rw [skipTo, risesFrom]
    by_cases hFlag : flag = c
    · rw [if_pos hFlag, hFlag, Bool.not_not, Bool.and_self]
    · have hNot : flag = !c := by
        revert hFlag
        cases flag <;> cases c <;> simp
      rw [if_neg hFlag, ← ih, hNot]
      cases c <;> simp

theorem risesFrom_of_none {c : Bool} {l : List Bool} (h : skipTo c l = none) : risesFrom (!c) l = 0 := by
  rw [risesFrom_skipTo, h]

theorem risesFrom_of_some {c : Bool} {l l' : List Bool} (h : skipTo c l = some l') :
    risesFrom (!c) l = (if c then 1 else 0) + risesFrom c l' := by
  rw [risesFrom_skipTo, h]

theorem Ahead.countFrom {i : Int} {l : List Bool} (h : Ahead s i l) {fuel : Nat} (hFuel : l.length ≤ fuel)
    (hSpan : l.length ≤ span s) (n : Nat) :
    PorterStemmer.countFrom s fuel i n = .ok (n + risesFrom false l) := by
  induction fuel generalizing i l n with
  | zero =>
    obtain rfl := List.eq_nil_of_length_eq_zero (Nat.le_zero.mp hFuel)
    rfl
  | succ fuel ih =>
    have hCons := h.seek true hSpan
    rw [PorterStemmer.countFrom]
    cases hSkip : skipTo true l with
    | none =>
      have hRises : risesFrom false l = 0 := risesFrom_of_none hSkip
      rw [hSkip] at hCons
      rw [hCons, hRises]
      rfl
    | some l₁ =>
      have hRises : risesFrom false l = 1 + risesFrom true l₁ := risesFrom_of_some hSkip
      rw [hSkip] at hCons
      obtain ⟨i₁, hRun₁, hAhead₁, hLength₁⟩ := hCons
      have hVowel := hAhead₁.seek false (Nat.le_trans (Nat.le_of_lt hLength₁) hSpan)
      rw [hRun₁, hRises]
      change (PorterStemmer.seek s false (span s) (i₁ + 1) >>= _) = _
      cases hSkip₁ : skipTo false l₁ with
      | none =>
        have hRises₁ : risesFrom true l₁ = 0 := risesFrom_of_none hSkip₁
        rw [hSkip₁] at hVowel
        rw [hVowel, hRises₁]
        rfl
      | some l₂ =>
        have hRises₁ : risesFrom true l₁ = 0 + risesFrom false l₂ := risesFrom_of_some hSkip₁
        rw [hSkip₁] at hVowel
        obtain ⟨i₂, hRun₂, hAhead₂, hLength₂⟩ := hVowel
        rw [hRun₂, hRises₁, Nat.zero_add, ← Nat.add_assoc]
        exact ih hAhead₂ (by omega) (by omega) (n + 1)

theorem Ahead.m {l : List Bool} (h : Ahead s s.k0 l) : m s = .ok (rises l) := by
  have hStop := h.stop
  have hSpan : l.length ≤ span s := by
    rw [span]
    omega
  have hVowel := h.seek false hSpan
  rw [PorterStemmer.m, rises]
  cases hSkip : skipTo false l with
  | none =>
    have hRises : risesFrom true l = 0 := risesFrom_of_none hSkip
    rw [hSkip] at hVowel
    rw [hVowel, hRises]
    rfl
  | some l' =>
    have hRises : risesFrom true l = 0 + risesFrom false l' := risesFrom_of_some hSkip
    rw [hSkip] at hVowel
    obtain ⟨i, hRun, hAhead, hLength⟩ := hVowel
    rw [hRun, hRises]
    exact hAhead.countFrom (by omega) (by omega) 0

theorem skipTo_isSome (c : Bool) (l : List Bool) : (skipTo c l).isSome = l.contains c := by
  induction l with
  | nil => rfl
  | cons flag l ih =>
    rw [skipTo, List.contains_cons]
    by_cases hFlag : flag = c
    · rw [if_pos hFlag, hFlag, beq_self_eq_true]
      rfl
    · rw [if_neg hFlag, ih, beq_eq_false_iff_ne.mpr (Ne.symm hFlag), Bool.false_or]

theorem Spells.m (h : Spells s pre t) (hj : s.j = pre.length + t.length - 1) : PorterStemmer.m s = .ok (measure t) :=
  (h.ahead hj).m

theorem Spells.vowelinstem (h : Spells s pre t) (hj : s.j = pre.length + t.length - 1) :
    vowelinstem s = .ok (hasVowel t) := by
  have hAhead := h.ahead hj
  have hStop := hAhead.stop
  have hVowel := hAhead.seek false (show (flags t).length ≤ span s by rw [span]; omega)
  rw [PorterStemmer.vowelinstem, hasVowel, ← skipTo_isSome]
  cases hSkip : skipTo false (flags t) with
  | none =>
    rw [hSkip] at hVowel
    rw [hVowel]
    rfl
  | some l' =>
    rw [hSkip] at hVowel
    obtain ⟨i, hRun, _⟩ := hVowel
    rw [hRun]
    rfl

/-- `m` counts the `vc` in `<c>vc…vc<v>`, whatever stands around the word. -/
theorem m_eq_ok_iff (pre t rest : Bytes) (k : Int) (n : Nat) :
    PorterStemmer.m ⟨pre ++ t ++ rest, k, pre.length, pre.length + t.length - 1⟩ = .ok n ↔ Shape n (flags t) := by
  have hSpells : Spells ⟨pre ++ t ++ rest, k, pre.length, pre.length + t.length - 1⟩ pre t := ⟨⟨rest, rfl⟩, rfl⟩
  rw [hSpells.m rfl, Except.ok.injEq, ← rises_eq_iff]
  rfl

end Loops

/-! ## The ends of a word -/

section Ends
variable {s : State} {pre t : Bytes}

theorem Spells.doublec (h : Spells s pre t) :
    doublec s (pre.length + t.length - 1) = .ok (endsDouble t) := by
  rw [PorterStemmer.doublec, endsDouble]
  obtain hShort | hLong := Nat.lt_or_ge t.length 2
  · rw [if_pos (by rw [h.k0]; omega), decide_eq_false (by omega)]
    rfl
  · have hLast : (pre.length : Int) + t.length - 1 = pre.length + (t.length - 1 : Nat) := by omega
    have hBefore : (pre.length : Int) + (t.length - 1 : Nat) - 1 = pre.length + (t.length - 2 : Nat) := by omega
    obtain ⟨x, hx⟩ : ∃ x, t[t.length - 1]? = some x := ⟨_, List.getElem?_eq_getElem (by omega)⟩
    obtain ⟨y, hy⟩ : ∃ y, t[t.length - 2]? = some y := ⟨_, List.getElem?_eq_getElem (by omega)⟩
    obtain ⟨flag, hFlag⟩ : ∃ flag, (flags t)[t.length - 1]? = some flag :=
      ⟨_, List.getElem?_eq_getElem (by rw [length_flags]; omega)⟩
    rw [if_neg (by rw [h.k0]; omega), hLast, h.read hx, hBefore, h.read hy, h.cons hFlag, hx, hy, hFlag]
    change (if x ≠ y then (Except.ok false : Except Fault Bool) else .ok flag) = _
    by_cases hxy : x = y
    · rw [if_neg (not_not.mpr hxy)]
      cases flag <;> simp [hxy, hLong]
    · rw [if_pos hxy]
      simp [hxy]

theorem Spells.cvc (h : Spells s pre t) : cvc s (pre.length + t.length - 1) = .ok (endsCvc t) := by
  rw [PorterStemmer.cvc, endsCvc]
  obtain hShort | hLong := Nat.lt_or_ge t.length 3
  · rw [if_pos (by rw [h.k0]; omega), decide_eq_false (by omega)]
    rfl
  · have hLast : (pre.length : Int) + t.length - 1 = pre.length + (t.length - 1 : Nat) := by omega
    have hBefore : (pre.length : Int) + (t.length - 1 : Nat) - 1 = pre.length + (t.length - 2 : Nat) := by omega
    have hThird : (pre.length : Int) + (t.length - 1 : Nat) - 2 = pre.length + (t.length - 3 : Nat) := by omega
    obtain ⟨x, hx⟩ : ∃ x, t[t.length - 1]? = some x := ⟨_, List.getElem?_eq_getElem (by omega)⟩
    have hFlags : ∀ n, n < t.length → ∃ flag, (flags t)[n]? = some flag := fun n hn =>
      ⟨_, List.getElem?_eq_getElem (by rw [length_flags]; exact hn)⟩
    obtain ⟨flag₁, hFlag₁⟩ := hFlags (t.length - 1) (by omega)
    obtain ⟨flag₂, hFlag₂⟩ := hFlags (t.length - 2) (by omega)
    obtain ⟨flag₃, hFlag₃⟩ := hFlags (t.length - 3) (by omega)
    rw [if_neg (by rw [h.k0]; omega), hLast, h.cons hFlag₁, hBefore, h.cons hFlag₂, hThird, h.cons hFlag₃, h.read hx,
      hFlag₁, hFlag₂, hFlag₃, hx, decide_eq_true hLong]
    cases flag₁ with
    | false => rfl
    | true =>
      cases flag₂ with
      | true => rfl
      | false =>
        cases flag₃ with
        | false => rfl
        | true =>
          change Except.ok (!(x == 'w'.toUInt8 || x == 'x'.toUInt8 || x == 'y'.toUInt8)) = _
          refine congrArg Except.ok ?_
          simp only [decide_true, Bool.true_and, List.map_cons, List.map_nil, List.mem_cons, Option.some.injEq,
            List.not_mem_nil, or_false, not_or, Bool.decide_and, decide_not, Bool.not_or, beq_eq_decide, Bool.and_assoc]

end Ends

/-! ## A word between its neighbours -/

/-- The word `w` in a buffer. -/
def held (pre w post : Bytes) (j : Int) : State := ⟨pre ++ w ++ post, pre.length + w.length - 1, pre.length, j⟩

section Held
variable {pre t w x post suffix : Bytes} {j : Int}

theorem spells_held (pre t x post : Bytes) (j : Int) : Spells (held pre (t ++ x) post j) pre t :=
  ⟨⟨x ++ post, by simp only [held, List.append_assoc]⟩, rfl⟩

theorem spells_word (pre w post : Bytes) (j : Int) : Spells (held pre w post j) pre w := ⟨⟨post, rfl⟩, rfl⟩

/-- The last letters fall away. -/
theorem held_cut (pre t x post : Bytes) (j : Int) :
    { held pre (t ++ x) post j with k := pre.length + t.length - 1 } = held pre t (x ++ post) j := by
  simp only [held, List.append_assoc]

theorem held_dropLast (pre : Bytes) (hw : w ≠ []) (post : Bytes) (j : Int) :
    ∃ c, { held pre w post j with k := (held pre w post j).k - 1 } = held pre w.dropLast (c :: post) j := by
  obtain hNil | ⟨t, c, rfl⟩ := List.eq_nil_or_concat w
  · exact absurd hNil hw
  · refine ⟨c, ?_⟩
    rw [List.concat_eq_append, List.dropLast_concat]
    have hk : (held pre (t ++ [c]) post j).k - 1 = pre.length + t.length - 1 := by
      simp only [held, List.length_append, List.length_singleton]
      omega
    rw [hk, held_cut]
    rfl

theorem read_last (pre : Bytes) {c : UInt8} (hc : w.getLast? = some c) (post : Bytes) (j : Int) :
    read (held pre w post j) (held pre w post j).k = .ok c := by
  have hLength : 0 < w.length := by
    apply List.length_pos_iff.mpr
    rintro rfl
    cases hc
  rw [List.getLast?_eq_getElem?] at hc
  have hk : (held pre w post j).k = pre.length + (w.length - 1 : Nat) := by
    simp only [held]
    omega
  rw [hk]
  exact (spells_word pre w post j).read hc

theorem read_penultimate (pre : Bytes) {c : UInt8} (hc : penultimate w = some c) (post : Bytes) (j : Int) :
    read (held pre w post j) ((held pre w post j).k - 1) = .ok c := by
  rw [penultimate, List.getLast?_dropLast] at hc
  split at hc
  · cases hc
  · case isFalse hLong =>
    have hk : (held pre w post j).k - 1 = pre.length + (w.length - 2 : Nat) := by
      simp only [held]
      omega
    rw [hk]
    exact (spells_word pre w post j).read hc

theorem readRange_held {n : Nat} (hn : n ≤ w.length) :
    readRange (held pre w post j) ((held pre w post j).k - n + 1) n = .ok (w.drop (w.length - n)) := by
  have hk : (held pre w post j).k - n + 1 = (pre.length + (w.length - n) : Nat) := by
    simp only [held]
    omega
  rw [hk, readRange, if_pos ?_, Int.toNat_natCast]
  · simp only [held, List.append_assoc]
    rw [← List.drop_drop, List.drop_left, List.drop_append_of_le_length (Nat.sub_le _ _),
      List.take_left' (by rw [List.length_drop]; omega)]
  · simp only [held, List.length_append]
    omega

theorem ends_held (hw : w ≠ []) (hs : suffix ≠ []) :
    ends (held pre w post j) suffix =
      if suffix <:+ w then .ok (true, held pre w post (pre.length + w.length - 1 - suffix.length))
      else .ok (false, held pre w post j) := by
  obtain ⟨c, hc⟩ : ∃ c, w.getLast? = some c := ⟨_, List.getLast?_eq_some_getLast hw⟩
  have hLong : (suffix.length : Int) > (held pre w post j).k - (held pre w post j).k0 + 1 ↔
      w.length < suffix.length := by
    simp only [held]
    omega
  rw [ends, read_last pre hc]
  change (if suffix.getLast? ≠ some c then (Except.ok (false, held pre w post j) : Except Fault (Bool × State))
    else _) = _
  split
  · case isTrue hLast =>
    rw [if_neg fun hSuffix => hLast (by rw [← hc, getLast?_of_suffix hs hSuffix])]
  split
  · case isTrue hGt => rw [if_neg fun hSuffix => Nat.not_lt.mpr hSuffix.length_le (hLong.mp hGt)]; rfl
  · case isFalse hGt =>
    rw [readRange_held (Nat.not_lt.mp (mt hLong.mpr hGt))]
    change (if w.drop (w.length - suffix.length) ≠ suffix then
      (Except.ok (false, held pre w post j) : Except Fault (Bool × State)) else _) = _
    by_cases hSuffix : suffix <:+ w
    · rw [if_neg (not_not.mpr (List.suffix_iff_eq_drop.mp hSuffix).symm), if_pos hSuffix]
      rfl
    · rw [if_pos fun hEq => hSuffix (List.suffix_iff_eq_drop.mpr hEq.symm), if_neg hSuffix]

theorem ends_append (pre t post : Bytes) (j : Int) (hs : suffix ≠ []) :
    ends (held pre (t ++ suffix) post j) suffix =
      .ok (true, held pre (t ++ suffix) post (pre.length + t.length - 1)) := by
  have hj : (pre.length : Int) + (t ++ suffix).length - 1 - suffix.length = pre.length + t.length - 1 := by
    rw [List.length_append]
    omega
  rw [ends_held (List.append_ne_nil_of_right_ne_nil t hs) hs, if_pos (List.suffix_append _ _), hj]

theorem ends_not (pre post : Bytes) (j : Int) (hw : w ≠ []) (hs : suffix ≠ []) (h : ¬ suffix <:+ w) :
    ends (held pre w post j) suffix = .ok (false, held pre w post j) := by
  rw [ends_held hw hs, if_neg h]

theorem writeRange_held (pre t : Bytes) {s : Bytes} (hFits : s.length ≤ (x ++ post).length) :
    writeRange (held pre (t ++ x) post j) (pre.length + t.length) s =
      .ok { held pre (t ++ x) post j with b := pre ++ (t ++ s) ++ (x ++ post).drop s.length } := by
  have hi : (pre.length : Int) + t.length = ((pre ++ t).length : Nat) := by
    rw [List.length_append]
    omega
  have hb : (held pre (t ++ x) post j).b = (pre ++ t) ++ (x ++ post) := by
    simp only [held, List.append_assoc]
  have hRange : 0 ≤ (((pre ++ t).length : Nat) : Int) ∧
      ((pre ++ t).length : Int) + s.length ≤ ((pre ++ t) ++ (x ++ post)).length := by
    have hAll : ((pre ++ t) ++ (x ++ post)).length = (pre ++ t).length + (x ++ post).length := List.length_append
    omega
  rw [hi, writeRange, hb, if_pos hRange, Int.toNat_natCast, Cells.store_append, Cells.store_zero]
  simp only [List.append_assoc]

theorem setto_held (pre t : Bytes) {s : Bytes} (hFits : s.length ≤ (x ++ post).length) :
    setto (held pre (t ++ x) post (pre.length + t.length - 1)) s =
      .ok (held pre (t ++ s) ((x ++ post).drop s.length) (pre.length + t.length - 1)) := by
  have hj : (held pre (t ++ x) post (pre.length + t.length - 1)).j + 1 = pre.length + t.length := by
    simp only [held]
    omega
  rw [setto, hj, writeRange_held pre t hFits]
  refine congrArg Except.ok ?_
  simp only [held, List.length_append, State.mk.injEq, true_and, and_true]
  omega

end Held

end Bisen.PorterReading
