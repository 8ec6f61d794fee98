import Bisen.PorterRefinement

/-! # Texts and queries with the actual stemmer

The stemmer is called in three places: on the buffer of the analyzer, on the array of a line of articles, and on
a word of a query. In all three it computes the same stem of the word and disturbs nothing behind it, so what the
analyzer does with it is what it does with a stemmer that is given the word alone.
-/
namespace Bisen.StemmedText
open Wire QueryParser EnglishAnalyzer WordBuffer WikiExtractor PorterStemmer PorterWords PorterReading PorterRefinement
set_option autoImplicit false

/-! ## The calls -/

/-- The stem in the place of the word. -/
def padded : Stemmer := fun w => (porter w ++ List.replicate (w.length - (porter w).length) 0, (porter w).length - 1)

theorem length_padded (w : Bytes) : (padded w).1.length = w.length := by
  have hShort := (trims_porter w).length
  rw [padded, List.length_append, List.length_replicate]
  omega

theorem length_porter_pos {w : Bytes} (hw : w ≠ []) : 0 < (porter w).length :=
  List.length_pos_iff.mpr ((trims_porter w).ne_nil hw)

theorem padded_inPlace : InPlace padded := by
  constructor
  case length => exact fun w _ => length_padded w
  case index =>
    intro w hw
    have hShort := (trims_porter w).length
    have hPos := length_porter_pos hw
    rw [padded]
    omega

theorem cut_padded {w : Bytes} (hw : w ≠ []) : cut padded w = porter w := by
  rw [cut, padded, Nat.sub_add_cancel (length_porter_pos hw), List.take_left]

/-- `stem` on the first `i` characters of a buffer. -/
theorem stem_take (old : Int) {b : Bytes} {i : Nat} (hi : i ≤ b.length) :
    ∃ s, stem old b 0 (i - 1) = .ok s ∧ s.k = (porter (b.take i)).length - 1 ∧
      ∃ rest, s.b = porter (b.take i) ++ rest ++ b.drop i ∧ (porter (b.take i)).length + rest.length = i := by
  have hSplit : b = [] ++ b.take i ++ b.drop i := by rw [List.nil_append, List.take_append_drop]
  have hLength : (b.take i).length = i := List.length_take_of_le hi
  obtain ⟨rest, j, hRun, hRest⟩ := stem_yields old [] (b.take i) (b.drop i)
  rw [← hSplit, hLength, List.length_nil] at hRun
  refine ⟨held [] (porter (b.take i)) (rest ++ b.drop i) j, ?_, ?_, rest, ?_, ?_⟩
  · have hj : ((0 : Nat) : Int) + i - 1 = i - 1 := by omega
    rw [← hj]
    exact hRun
  · simp only [held, List.length_nil]
    omega
  · simp only [held, List.nil_append, List.append_assoc]
  · rw [hRest, hLength]

/-! ## The file of a document -/

section File
variable (memory : Nat → Nat → UInt8)

/-- As `WordBuffer.countWord`, with the call of `stem` on the buffer; `old` is what `j` holds. -/
def countWord (a : Analyzer) (i : Nat) (old : Int) (words : WordMap) : Except Fault (Analyzer × Int × WordMap) := do
  let word ← stringOf a.s
  if !isStopWord word then
    let st ← stem old a.s 0 (i - 1)
    let s ← writeAt st.b (st.k + 1).toNat 0
    let key ← stringOf s
    return (⟨Cells.fill s i 0, a.iMax⟩, st.j, words.count key)
  else return (⟨Cells.fill a.s i 0, a.iMax⟩, old, words)

def readFile : Nat → Bytes → Analyzer → Int → WordMap → Except Fault (Analyzer × Int × WordMap)
  | 0, _, a, old, words => .ok (a, old, words)
  | _ + 1, [], a, old, words => .ok (a, old, words)
  | fuel + 1, ch :: rest, a, old, words =>
    if isalnum ch then do
      let (a, i, rest) := storeRun memory (ch :: rest) 0 a
      let (a, old, words) ← countWord a i old words
      readFile fuel rest a old words
    else readFile fuel rest a old words

def extractFiles : List Bytes → Analyzer → Int → Except Fault (List WordMap)
  | [], _, _ => .ok []
  | text :: texts, a, old => do
    let (a, old, words) ← readFile memory text.length text a old .empty
    let rest ← extractFiles texts a old
    return words :: rest

end File

/-- Without the static variable. -/
def forget (r : Analyzer × Int × WordMap) : Analyzer × WordMap := (r.1, r.2.2)

section Simulation
variable {memory : Nat → Nat → UInt8} {a : Analyzer} {i : Nat}

theorem fill_append_left {u v : Bytes} (h : u.length = i) : Cells.fill (u ++ v) i 0 = List.replicate i 0 ++ v := by
  rw [Cells.fill, Cells.store_zero, List.length_replicate, List.drop_left' h]

/-- The end of the stem is written into what is left of the word or, if nothing is, behind it. -/
theorem set_end {x u y : Bytes} (hu : x.length + u.length = i) (hy : y ≠ []) :
    ∃ v, (x ++ u ++ y).set x.length 0 = x ++ 0 :: v ∧
      Cells.fill (x ++ 0 :: v) i 0 = List.replicate i 0 ++ (if u = [] then y.set 0 0 else y) := by
  rw [List.append_assoc, List.set_append_right _ _ (Nat.le_refl _), Nat.sub_self]
  cases u with
  | nil =>
    obtain ⟨c, v, rfl⟩ := List.exists_cons_of_ne_nil hy
    exact ⟨v, rfl, fill_append_left hu⟩
  | cons c u =>
    refine ⟨u ++ y, rfl, ?_⟩
    rw [← List.cons_append, ← List.append_assoc]
    exact fill_append_left (by simpa using hu)

/-- The word is cleared, so what the stemmer has cut off is never seen. -/
theorem countWord_eq (hPos : 0 < i) (hi : i < a.s.length) (old : Int) (words : WordMap) :
    (countWord a i old words).map forget = WordBuffer.countWord padded a i words := by
  rw [countWord, WordBuffer.countWord]
  cases hStr : stringOf a.s with
  | error fault => rfl
  | ok str =>
    simp only [bind, Except.bind, pure, Except.pure]
    cases isStopWord str with
    | true => rfl
    | false =>
      have hTake : (a.s.take i).length = i := List.length_take_of_le (Nat.le_of_lt hi)
      have hWord : a.s.take i ≠ [] := List.ne_nil_of_length_pos (by omega)
      have hStem := length_porter_pos hWord
      obtain ⟨s, hRun, hk, rest, hb, hRest⟩ := stem_take old (Nat.le_of_lt hi)
      have hLast : (s.k + 1).toNat = (porter (a.s.take i)).length := by omega
      have hBehind : a.s.drop i ≠ [] := List.ne_nil_of_length_pos (by rw [List.length_drop]; omega)
      have hPadded : (Cells.store a.s 0 (padded (a.s.take i)).1).set ((padded (a.s.take i)).2 + 1) 0 =
          (porter (a.s.take i) ++ List.replicate (i - (porter (a.s.take i)).length) 0 ++ a.s.drop i).set
            (porter (a.s.take i)).length 0 := by
        rw [Cells.store_zero, length_padded, hTake]
        simp only [padded, hTake, Nat.sub_add_cancel hStem]
      have hRoom : (porter (a.s.take i)).length < s.b.length := by
        rw [hb, List.length_append, List.length_append, List.length_drop]
        omega
      obtain ⟨v, hSet, hFill⟩ := set_end hRest hBehind
      obtain ⟨v', hSet', hFill'⟩ := set_end (i := i) (x := porter (a.s.take i))
        (u := List.replicate (i - (porter (a.s.take i)).length) 0) (by rw [List.length_replicate]; omega) hBehind
      have hNil : rest = [] ↔ List.replicate (i - (porter (a.s.take i)).length) (0 : UInt8) = [] := by
        rw [← List.length_eq_zero_iff, ← List.length_eq_zero_iff, List.length_replicate]
        omega
      simp only [Bool.not_false, if_true]
      rw [hRun, hPadded, hSet', stringOf_ended]
      simp only [hLast, writeAt, if_pos hRoom]
      rw [hb, hSet, stringOf_ended]
      simp only [Except.map, forget, hFill, hFill', hNil]

theorem length_countWord (hi : i ≤ a.s.length) {words words' : WordMap} {a' : Analyzer}
    (h : WordBuffer.countWord padded a i words = .ok (a', words')) :
    a'.s.length = a.s.length ∧ a'.iMax = a.iMax := by
  obtain ⟨str, _, h⟩ := bind_eq_ok_iff.mp h
  split at h
  · obtain ⟨key, _, h⟩ := bind_eq_ok_iff.mp h
    cases h
    have hTake : (a.s.take i).length = i := List.length_take_of_le hi
    have hLength : ((Cells.store a.s 0 (padded (a.s.take i)).1).set ((padded (a.s.take i)).2 + 1) 0).length =
        a.s.length := by
      rw [List.length_set, Cells.length_store]
      rw [length_padded, hTake, Nat.zero_add]
      exact hi
    exact ⟨(Cells.length_fill (Nat.le_trans hi (Nat.le_of_eq hLength.symm)) 0).trans hLength, rfl⟩
  · cases h
    exact ⟨Cells.length_fill hi 0, rfl⟩

variable (memory) in
theorem readFile_eq (hLength : a.s.length = a.iMax + 1) (fuel : Nat) (text : Bytes) (old : Int) (words : WordMap) :
    (readFile memory fuel text a old words).map forget = WordBuffer.readFile memory padded fuel text a words := by
  induction fuel generalizing text a old words with
  | zero => rfl
  | succ fuel ih =>
    cases text with
    | nil => rfl
    | cons ch rest =>
      rw [readFile, WordBuffer.readFile]
      split
      · case isTrue hch =>
        obtain ⟨a₁, hStore, hStored⟩ : ∃ a₁, storeRun memory (ch :: rest) 0 a = _ ∧ Stored memory a 0 _ a₁ :=
          storeRun_stored hLength (Nat.zero_le _)
        have hFits := hStored.fits
        have hLength₁ := hStored.length
        rw [List.length_map] at hFits
        have hPos : 0 < ((ch :: rest).takeWhile isalnum).length := by
          rw [List.takeWhile_cons_of_pos hch]
          exact Nat.succ_pos _
        rw [hStore]
        dsimp only
        have hCount : (countWord a₁ (0 + ((ch :: rest).takeWhile isalnum).length) old words).map forget =
            WordBuffer.countWord padded a₁ _ words := countWord_eq (by omega) (by omega) old words
        cases hWord : countWord a₁ (0 + ((ch :: rest).takeWhile isalnum).length) old words with
        | error fault =>
          rw [hWord] at hCount
          rw [← hCount]
          rfl
        | ok r =>
          obtain ⟨a₂, old₂, words₂⟩ := r
          rw [hWord] at hCount
          rw [← hCount]
          obtain ⟨hSame, hMax⟩ := length_countWord (by omega) hCount.symm
          exact ih (by rw [hSame, hMax, hLength₁]) _ old₂ words₂
      · exact ih hLength rest old words

theorem extractFiles_eq (hClean : Clean a) (files : List Bytes) (old : Int) :
    extractFiles memory files a old = WordBuffer.extractFiles memory padded files a := by
  induction files generalizing a old with
  | nil => rfl
  | cons text texts ih =>
    have hFile := readFile_eq memory hClean.length text.length text old .empty
    rw [extractFiles, WordBuffer.extractFiles, WordBuffer.extractUniqueKeywords, ← hFile]
    cases hRun : readFile memory text.length text a old .empty with
    | error fault => rfl
    | ok r =>
      obtain ⟨a₁, old₁, words₁⟩ := r
      rw [hRun] at hFile
      have hNext := ih (readFile_ok padded_inPlace hClean hFile.symm).2 old₁
      change (extractFiles memory texts a₁ old₁ >>= _) = (WordBuffer.extractFiles memory padded texts a₁ >>= _)
      rw [hNext]

end Simulation

theorem mem_alnumRuns_ne_nil {text run : Bytes} (h : run ∈ alnumRuns text) : run ≠ [] :=
  of_decide_eq_true (List.mem_filter.mp h).2

/-- What is counted depends on the stemmer only as far as words go. -/
theorem keptStems_padded (text : Bytes) : keptStems (cut padded) text = keptStems porter text := by
  refine List.map_congr_left fun run hRun => ?_
  have hNil : run.map tolower ≠ [] := mt List.map_eq_nil_iff.mp (mem_alnumRuns_ne_nil (List.mem_of_mem_filter hRun))
  rw [stemWord, stemWord, cut_padded hNil]

theorem extractUniqueKeywords_padded (text : Bytes) :
    EnglishAnalyzer.extractUniqueKeywords (cut padded) text = EnglishAnalyzer.extractUniqueKeywords porter text := by
  rw [extractUniqueKeywords_eq, extractUniqueKeywords_eq, keptStems_padded]

/-- Whatever is in memory and in the static variable, files of words that fit the buffer are read without a fault,
and each map counts the stems of its file. -/
theorem extractFiles_porter (memory : Nat → Nat → UInt8) {a : Analyzer} (hClean : Clean a) (old : Int)
    {files : List Bytes} (hShort : ∀ text ∈ files, ∀ run ∈ alnumRuns text, run.length ≤ inc) :
    extractFiles memory files a old = .ok (files.map (EnglishAnalyzer.extractUniqueKeywords porter)) := by
  obtain ⟨maps, hRun⟩ : ∃ maps, WordBuffer.extractFiles memory padded files a = .ok maps :=
    extractFiles_short padded_inPlace hClean hShort
  have hMaps := extractFiles_ok padded_inPlace hClean hRun
  rw [extractFiles_eq hClean, hRun, hMaps]
  exact congrArg Except.ok (List.map_congr_left fun text _ => extractUniqueKeywords_padded text)

/-- Every file is counted whatever is in memory exactly when its words fit the buffer and its numbers an `int`. -/
theorem counts_porter_iff (files : List Bytes) :
    (∀ memory old, ∃ maps, extractFiles memory files (create memory) old = .ok maps ∧
      List.Forall₂ (CountsExactly porter) files maps) ↔
    ∀ text ∈ files, (∀ run ∈ alnumRuns text, run.length ≤ inc) ∧ ∀ x, occurrences porter text x < 2 ^ 31 := by
  constructor
  · intro h text hText
    obtain ⟨maps, hRun, hCounts⟩ := h endless 0
    have hClean := create_clean endless
    rw [extractFiles_eq hClean] at hRun
    have hShort := extractFiles_endless padded_inPlace hClean rfl hRun
    obtain rfl := extractFiles_ok padded_inPlace hClean hRun
    have hAll := List.forall₂_same.mp (List.forall₂_map_right_iff.mp hCounts) text hText
    rw [extractUniqueKeywords_padded] at hAll
    exact ⟨hShort text hText, (countsExactly_iff _ _).mp hAll⟩
  · intro h memory old
    refine ⟨_, extractFiles_porter memory (create_clean memory) old fun text hText => (h text hText).1, ?_⟩
    apply List.forall₂_map_right_iff.mpr
    apply List.forall₂_same.mpr
    exact fun text hText => (countsExactly_iff _ _).mpr (h text hText).2

/-! ## The two other calls of the stemmer -/

/-- `tolower` up to the end of a string. -/
def lowered (b : Bytes) : Bytes := (cString b).map tolower ++ b.drop (cString b).length

/-- `stemWord` on the characters of a string and their end, with what it leaves in the static variable. -/
def stemWord (word : Bytes) (old : Int) : Except Fault (Bytes × Int) := do
  let original := lowered (word ++ [0])
  let st ← stem old original 0 ((cString original).length - 1)
  let original ← writeAt st.b (st.k + 1).toNat 0
  let stemmed ← stringOf original
  return (stemmed, st.j)

/-- `stemWord_wiki` -/
def stemWordWiki (word : Bytes) (old : Int) : Except Fault (Bytes × Int) := do
  let st ← stem old word 0 ((cString word).length - 1)
  let word ← writeAt st.b (st.k + 1).toNat 0
  return (word, st.j)

theorem nul_not_mem_porter {w : Bytes} (h : (0 : UInt8) ∉ w) : (0 : UInt8) ∉ porter w := by
  intro hMem
  obtain hw | hLower := (trims_porter w).letters 0 hMem
  · exact h hw
  · cases hLower

theorem stemWordWiki_eq {w : Bytes} (hNul : (0 : UInt8) ∉ w) (tail : Bytes) (old : Int) :
    ∃ word j, stemWordWiki (w ++ 0 :: tail) old = .ok (word, j) ∧ stringOf word = .ok (porter w) := by
  have hWord : (cString (w ++ 0 :: tail)).length = w.length := by rw [cString_ended, cString_of_not_mem hNul]
  have hTake : (w ++ 0 :: tail).take w.length = w := List.take_left
  obtain ⟨s, hRun, hk, rest, hb, hRest⟩ := stem_take old (b := w ++ 0 :: tail) (i := w.length) (by simp)
  rw [hTake] at hk hb hRest
  rw [List.drop_left] at hb
  have hRoom : (porter w).length < s.b.length := by
    rw [hb, List.length_append, List.length_append, List.length_cons]
    omega
  have hLast : (s.k + 1).toNat = (porter w).length := by omega
  have hSet : ∃ v, s.b.set (porter w).length 0 = porter w ++ 0 :: v := by
    rw [hb, List.append_assoc, List.set_append_right _ _ (Nat.le_refl _), Nat.sub_self]
    cases rest with
    | nil => exact ⟨tail, rfl⟩
    | cons c rest => exact ⟨rest ++ 0 :: tail, rfl⟩
  obtain ⟨v, hSet⟩ := hSet
  refine ⟨porter w ++ 0 :: v, s.j, ?_, ?_⟩
  · rw [stemWordWiki, hWord, hRun]
    change (writeAt s.b (s.k + 1).toNat 0 >>= _) = _
    rw [hLast, writeAt, if_pos hRoom, hSet]
    rfl
  · rw [stringOf_ended, cString_of_not_mem (nul_not_mem_porter hNul)]

theorem stemWord_eq {word : Bytes} (hNul : (0 : UInt8) ∉ word) (old : Int) :
    ∃ j, stemWord word old = .ok (porter (word.map tolower), j) := by
  have hLowered : lowered (word ++ [0]) = word.map tolower ++ [0] := by
    rw [lowered, cString_ended, cString_of_not_mem hNul, List.drop_left]
  have hNul' : (0 : UInt8) ∉ word.map tolower := by
    intro hMem
    obtain ⟨c, hc, hZero⟩ := List.mem_map.mp hMem
    exact hNul (tolower_eq_zero hZero ▸ hc)
  obtain ⟨original, _, hWiki, hString⟩ := stemWordWiki_eq hNul' [] old
  obtain ⟨st, hRun, hRest⟩ := bind_eq_ok_iff.mp hWiki
  obtain ⟨_, hEnd, hRet⟩ := bind_eq_ok_iff.mp hRest
  cases hRet
  refine ⟨st.j, ?_⟩
  rw [stemWord, hLowered, hRun]
  change (writeAt st.b _ 0 >>= _) = _
  rw [hEnd]
  change (stringOf original >>= _) = _
  rw [hString]
  rfl

/-! ## The keywords -/

/-- A lower-case letter or a digit. -/
def isKeyChar (c : UInt8) : Bool := isLower c || (0x30 ≤ c && c ≤ 0x39)

theorem isKeyChar_tolower {c : UInt8} (h : isalnum c = true) : isKeyChar (tolower c) = true := by
  simp only [isalnum, Bool.or_eq_true, Bool.and_eq_true, decide_eq_true_eq, UInt8.le_iff_toNat_le,
    UInt8.reduceToNat] at h
  simp only [isKeyChar, isLower, tolower, Bool.or_eq_true, Bool.and_eq_true, decide_eq_true_eq,
    UInt8.le_iff_toNat_le, UInt8.reduceToNat]
  split
  · rw [UInt8.toNat_add]
    simp only [UInt8.reduceToNat]
    omega
  · omega

/-- What the client sends of a file are words of small letters and digits that begin as words of the file do and
are no longer, however long the words of the file are. -/
theorem keys_formed {memory : Nat → Nat → UInt8} {old : Int} {files : List Bytes} {maps : List WordMap}
    (h : extractFiles memory files (create memory) old = .ok maps) :
    List.Forall₂ (fun text words => ∀ key ∈ words.keys, key ≠ [] ∧ (∀ c ∈ key, isKeyChar c = true) ∧
      ∃ run ∈ alnumRuns text, key.length ≤ run.length ∧ key.head? = (run.map tolower).head?) files maps := by
  rw [extractFiles_eq (create_clean memory)] at h
  obtain rfl := extractFiles_ok padded_inPlace (create_clean memory) h
  apply List.forall₂_map_right_iff.mpr
  apply List.forall₂_same.mpr
  intro text _ key hKey
  rw [extractUniqueKeywords_padded, mem_keys_extractUniqueKeywords] at hKey
  obtain ⟨run, hRun, _, rfl⟩ := hKey
  have hNil : run.map tolower ≠ [] := mt List.map_eq_nil_iff.mp (mem_alnumRuns_ne_nil hRun)
  have hTrims := trims_porter (run.map tolower)
  have hAlnum := isalnum_of_mem_alnumRuns hRun
  rw [QueryParser.stemWord, cString_of_not_mem (nul_not_mem_porter (nul_not_mem_tolower hAlnum))]
  refine ⟨hTrims.ne_nil hNil, ?_, run, hRun, ?_, hTrims.first⟩
  · intro c hc
    obtain hw | hLower := hTrims.letters c hc
    · obtain ⟨c', hc', rfl⟩ := List.mem_map.mp hw
      exact isKeyChar_tolower (hAlnum c' hc')
    · rw [isKeyChar, hLower, Bool.true_or]
  · have hLength := hTrims.length
    rwa [List.length_map] at hLength

/-- A file with the one word `Running`. -/
theorem keys_formed_running :
    extractFiles endless [ascii "Running"] (create endless) 0 =
        .ok [EnglishAnalyzer.extractUniqueKeywords porter (ascii "Running")] ∧
      List.Forall₂ (fun text words => ∀ key ∈ words.keys, key ≠ [] ∧ (∀ c ∈ key, isKeyChar c = true) ∧
        ∃ run ∈ alnumRuns text, key.length ≤ run.length ∧ key.head? = (run.map tolower).head?) [ascii "Running"]
          [EnglishAnalyzer.extractUniqueKeywords porter (ascii "Running")] := by
  have hRuns : alnumRuns (ascii "Running") = [ascii "Running"] :=
    alnumRuns_of_forall (by decide) (by decide +kernel)
  have hShort : ∀ text ∈ [ascii "Running"], ∀ run ∈ alnumRuns text, run.length ≤ inc := by
    intro text hText run hr
    rw [List.mem_singleton.mp hText, hRuns] at hr
    rw [List.mem_singleton.mp hr]
    decide
  have hRun := extractFiles_porter endless (create_clean endless) 0 hShort
  exact ⟨hRun, keys_formed hRun⟩

end Bisen.StemmedText
