import Bisen.KeywordCounts
import Bisen.Lib.Cells

/-! # The shared buffer of the analyzer

`extractUniqueKeywords` collects every word in one buffer, which it clears behind the word but not beyond
it, and reads the word back as a C string without having written its end. The first `INC` characters and
their end are always clean; what lies beyond them after the buffer has grown is whatever was there.
-/
namespace Bisen.WordBuffer
open Wire QueryParser EnglishAnalyzer
set_option autoImplicit false

/-- The members `s` and `i_max`. -/
structure Analyzer where
  s : Bytes
  iMax : Nat
  deriving DecidableEq, Repr

/-- What `stem` makes of the characters of a word, and the index it returns. -/
abbrev Stemmer := Bytes → Bytes × Nat

structure InPlace (stem : Stemmer) : Prop where
  length : ∀ w, w ≠ [] → (stem w).1.length = w.length
  index : ∀ w, w ≠ [] → (stem w).2 < w.length

/-- The word that the stemmer leaves. -/
def cut (stem : Stemmer) (w : Bytes) : Bytes := (stem w).1.take ((stem w).2 + 1)

/-- A `string` built from a buffer that holds no end of a word reads past it. -/
def stringOf (s : Bytes) : Except Fault Bytes := if 0 ∈ s then .ok (cString s) else .error .outOfBounds

section Code
variable (memory : Nat → Nat → UInt8) (stem : Stemmer)

/-- The constructor; `memory iMax` is what `malloc` finds where it places a buffer of that size. -/
def create : Analyzer := ⟨Cells.fill (Cells.fresh (memory inc) (inc + 1)) (inc + 1) 0, inc⟩

def increaseS (a : Analyzer) : Analyzer :=
  let iMax := a.iMax + inc
  let newS := Cells.fresh (memory iMax) (iMax + 1)
  ⟨Cells.store newS 0 (a.s.take (iMax - inc)), iMax⟩

/-- One round of the inner loop. -/
def put (a : Analyzer) (i : Nat) (ch : UInt8) : Analyzer :=
  let a := if i = a.iMax then increaseS memory a else a
  { a with s := a.s.set i (tolower ch) }

/-- The inner loop: the analyzer, the length of the word, and what is left of the file. -/
def storeRun : Bytes → Nat → Analyzer → Analyzer × Nat × Bytes
  | [], i, a => (a, i, [])
  | ch :: rest, i, a => if isalnum ch then storeRun rest (i + 1) (put memory a i ch) else (a, i, ch :: rest)

/-- What is done with a word of `i` characters in the buffer. -/
def countWord (a : Analyzer) (i : Nat) (words : WordMap) : Except Fault (Analyzer × WordMap) := do
  let word ← stringOf a.s
  if !isStopWord word then
    let (w, last) := stem (a.s.take i)
    let s := (Cells.store a.s 0 w).set (last + 1) 0
    let key ← stringOf s
    return (⟨Cells.fill s i 0, a.iMax⟩, words.count key)
  else return (⟨Cells.fill a.s i 0, a.iMax⟩, words)

/-- The loop over the file; as in `readWords` its length is fuel enough. -/
def readFile : Nat → Bytes → Analyzer → WordMap → Except Fault (Analyzer × WordMap)
  | 0, _, a, words => .ok (a, words)
  | _ + 1, [], a, words => .ok (a, words)
  | fuel + 1, ch :: rest, a, words =>
    if isalnum ch then do
      let (a, i, rest) := storeRun memory (ch :: rest) 0 a
      let (a, words) ← countWord stem a i words
      readFile fuel rest a words
    else readFile fuel rest a words

def extractUniqueKeywords (a : Analyzer) (text : Bytes) : Except Fault (Analyzer × WordMap) :=
  readFile memory stem text.length text a .empty

/-- One analyzer reads all files. -/
def extractFiles : List Bytes → Analyzer → Except Fault (List WordMap)
  | [], _ => .ok []
  | text :: texts, a => do
    let (a, words) ← extractUniqueKeywords memory stem a text
    let rest ← extractFiles texts a
    return words :: rest

end Code

/-! ## Storing a word -/

section Store
variable {memory : Nat → Nat → UInt8}

/-- The buffer after `run` has been stored from `i` on: before it and, unless the buffer had to grow,
behind it nothing has changed. -/
structure Stored (memory : Nat → Nat → UInt8) (a : Analyzer) (i : Nat) (run : Bytes) (a' : Analyzer) : Prop where
  length : a'.s.length = a'.iMax + 1
  room : a.iMax ≤ a'.iMax
  fits : i + run.length ≤ a'.iMax
  front : a'.s.take (i + run.length) = a.s.take i ++ run
  kept : i + run.length ≤ a.iMax → a'.iMax = a.iMax ∧ a'.s.drop (i + run.length) = a.s.drop (i + run.length)
  grown : a.iMax < i + run.length →
    a'.s.drop (i + run.length) = (Cells.fresh (memory a'.iMax) (a'.iMax + 1)).drop (i + run.length)

theorem Stored.nil {a : Analyzer} {i : Nat} (hLength : a.s.length = a.iMax + 1) (hi : i ≤ a.iMax) :
    Stored memory a i [] a := by
  constructor
  case length => exact hLength
  case room => exact Nat.le_refl _
  case fits => exact hi
  case front => rw [List.append_nil]; rfl
  case kept => exact fun _ => ⟨rfl, rfl⟩
  case grown => exact fun h => absurd hi (Nat.not_le.mpr h)

theorem Stored.append {a a₁ a₂ : Analyzer} {i : Nat} {run₁ run₂ : Bytes} (h₁ : Stored memory a i run₁ a₁)
    (h₂ : Stored memory a₁ (i + run₁.length) run₂ a₂) : Stored memory a i (run₁ ++ run₂) a₂ := by
  have hEnd : i + (run₁ ++ run₂).length = i + run₁.length + run₂.length := by
    rw [List.length_append, Nat.add_assoc]
  constructor
  case length => exact h₂.length
  case room => exact Nat.le_trans h₁.room h₂.room
  case fits =>
    rw [hEnd]
    exact h₂.fits
  case front => rw [hEnd, h₂.front, h₁.front, List.append_assoc]
  case kept =>
    rw [hEnd]
    intro hFits
    obtain ⟨hMax₁, hDrop₁⟩ := h₁.kept (by omega)
    obtain ⟨hMax₂, hDrop₂⟩ := h₂.kept (by rw [hMax₁]; exact hFits)
    refine ⟨hMax₂.trans hMax₁, ?_⟩
    rw [hDrop₂, ← List.drop_drop, hDrop₁, List.drop_drop]
  case grown =>
    rw [hEnd]
    intro hPast
    obtain hGrown | hKept := Nat.lt_or_ge a₁.iMax (i + run₁.length + run₂.length)
    · exact h₂.grown hGrown
    · obtain ⟨hMax, hDrop⟩ := h₂.kept hKept
      have hFirst : a.iMax < i + run₁.length := by
        by_contra hNot
        have hSame := (h₁.kept (Nat.not_lt.mp hNot)).1
        omega
      rw [hDrop, hMax, ← List.drop_drop, h₁.grown hFirst, List.drop_drop]

theorem take_set_succ {b : Bytes} {i : Nat} (h : i < b.length) (ch : UInt8) :
    (b.set i ch).take (i + 1) = b.take i ++ [ch] := by
  rw [List.take_add_one, List.take_set_of_le (Nat.le_refl i), List.getElem?_set_self h, Option.toList_some]

theorem increaseS_s {a : Analyzer} (hLength : a.s.length = a.iMax + 1) :
    (increaseS memory a).s =
      a.s.take a.iMax ++ (Cells.fresh (memory (a.iMax + inc)) (a.iMax + inc + 1)).drop a.iMax := by
  have hTake : (a.s.take a.iMax).length = a.iMax := by
    rw [List.length_take]
    omega
  simp only [increaseS, Nat.add_sub_cancel, Cells.store_zero, hTake]

theorem put_stored (memory : Nat → Nat → UInt8) {a : Analyzer} {i : Nat} (hLength : a.s.length = a.iMax + 1)
    (hi : i ≤ a.iMax) (ch : UInt8) : Stored memory a i [tolower ch] (put memory a i ch) := by
  rw [put]
  obtain rfl | hNe := eq_or_ne i a.iMax
  · -- the buffer is full
    have hs : (increaseS memory a).s = _ := increaseS_s hLength
    have hMax : (increaseS memory a).iMax = a.iMax + inc := rfl
    have hTake : (a.s.take a.iMax).length = a.iMax := by
      rw [List.length_take]
      omega
    have hGrownLength : (increaseS memory a).s.length = a.iMax + inc + 1 := by
      rw [hs, List.length_append, hTake, List.length_drop, Cells.length_fresh]
      omega
    have hRoom : 0 < inc := by decide
    rw [if_pos rfl]
    constructor
    case length =>
      rw [List.length_set, hGrownLength]
      rfl
    case room => exact Nat.le_add_right _ _
    case fits => exact Nat.add_le_add_left hRoom a.iMax
    case front =>
      refine (take_set_succ (by rw [hGrownLength]; omega) (tolower ch)).trans ?_
      rw [hs, List.take_left' hTake]
    case kept => exact fun hFits => absurd hFits (Nat.not_succ_le_self _)
    case grown =>
      intro _
      have hDrop : ((increaseS memory a).s.set a.iMax (tolower ch)).drop (a.iMax + 1) =
          (Cells.fresh (memory (a.iMax + inc)) (a.iMax + inc + 1)).drop (a.iMax + 1) := by
        rw [List.drop_set_of_lt (Nat.lt_add_one a.iMax), hs, ← List.drop_drop, List.drop_left' hTake,
          List.drop_drop]
      exact hDrop
  · have hLt : i < a.s.length := by omega
    rw [if_neg hNe]
    constructor
    case length => rw [List.length_set, hLength]
    case room => exact Nat.le_refl _
    case fits => exact Nat.lt_of_le_of_ne hi hNe
    case front => exact take_set_succ hLt (tolower ch)
    case kept => exact fun _ => ⟨rfl, List.drop_set_of_lt (Nat.lt_add_one i)⟩
    case grown =>
      intro hPast
      rw [List.length_singleton] at hPast
      omega

theorem storeRun_stored {text : Bytes} {a : Analyzer} {i : Nat} (hLength : a.s.length = a.iMax + 1)
    (hi : i ≤ a.iMax) :
    ∃ a', storeRun memory text i a = (a', i + (text.takeWhile isalnum).length, text.dropWhile isalnum) ∧
      Stored memory a i ((text.takeWhile isalnum).map tolower) a' := by
  induction text generalizing a i with
  | nil => exact ⟨a, rfl, .nil hLength hi⟩
  | cons ch rest ih =>
    rw [storeRun]
    split
    · case isTrue hch =>
      have hPut := put_stored memory hLength hi ch
      obtain ⟨a', hRun, hStored⟩ := ih hPut.length hPut.fits
      rw [List.length_singleton] at hRun
      refine ⟨a', ?_, ?_⟩
      · rw [hRun, List.takeWhile_cons_of_pos hch, List.dropWhile_cons_of_pos hch, List.length_cons]
        simp only [Prod.mk.injEq, true_and, and_true]
        omega
      · rw [List.takeWhile_cons_of_pos hch, List.map_cons]
        exact hPut.append hStored
    · case isFalse hch =>
      refine ⟨a, ?_, ?_⟩
      · rw [List.takeWhile_cons_of_neg hch, List.dropWhile_cons_of_neg hch]
        rfl
      · rw [List.takeWhile_cons_of_neg hch]
        exact .nil hLength hi

end Store

/-! ## One word -/

/-- Between two words the first `inc` characters and the one behind them are zero. -/
structure Clean (a : Analyzer) : Prop where
  length : a.s.length = a.iMax + 1
  room : inc ≤ a.iMax
  zero : ∀ k, k ≤ inc → a.s[k]? = some 0

theorem create_clean (memory : Nat → Nat → UInt8) : Clean (create memory) := by
  have hs : (create memory).s = List.replicate (inc + 1) 0 := Cells.fill_all (Cells.length_fresh _ _) 0
  constructor
  case length =>
    rw [hs, List.length_replicate]
    rfl
  case room => exact Nat.le_refl _
  case zero =>
    intro k hk
    rw [hs, List.getElem?_replicate_of_lt (Nat.lt_succ_of_le hk)]

theorem stringOf_append {word : Bytes} (hNul : (0 : UInt8) ∉ word) (tail : Bytes) :
    stringOf (word ++ tail) = if 0 ∈ tail then .ok (word ++ cString tail) else .error .outOfBounds := by
  have hAll : ∀ c ∈ word, (c ≠ 0 : Bool) = true := by
    intro c hc
    simpa using fun hZero : c = 0 => hNul (hZero ▸ hc)
  have hRead : cString (word ++ tail) = word ++ cString tail := List.takeWhile_append_of_pos hAll
  rw [stringOf, hRead]
  simp only [List.mem_append, hNul, false_or]

theorem cString_ended (w rest : Bytes) : cString (w ++ 0 :: rest) = cString w := by
  induction w with
  | nil => rfl
  | cons c w ih =>
    simp only [cString] at ih
    simp only [cString, List.cons_append, List.takeWhile_cons, ih]

theorem stringOf_ended (w rest : Bytes) : stringOf (w ++ 0 :: rest) = .ok (cString w) := by
  rw [stringOf, if_pos (List.mem_append_right _ List.mem_cons_self), cString_ended]

/-- What a word adds to the map. -/
def counted (stem : Stemmer) (words : WordMap) (word : Bytes) : WordMap :=
  if !isStopWord word then words.count (cString (cut stem word)) else words

section Word
variable {memory : Nat → Nat → UInt8} {stem : Stemmer} {a a' : Analyzer} {word : Bytes}

theorem Stored.s_eq (h : Stored memory a 0 word a') : a'.s = word ++ a'.s.drop word.length := by
  have hFront := h.front
  rw [Nat.zero_add, List.take_zero, List.nil_append] at hFront
  conv_lhs => rw [← List.take_append_drop word.length a'.s, hFront]

/-- Beyond a word that fits, the clean part is still clean. -/
theorem Stored.zero (h : Stored memory a 0 word a') (hClean : Clean a) {k : Nat} (hWord : word.length ≤ k)
    (hk : k ≤ inc) : a'.s[k]? = some 0 := by
  have hRoom := hClean.room
  have hDrop := (h.kept (by omega)).2
  rw [Nat.zero_add] at hDrop
  have hCell := congrArg (fun b : Bytes => b[k - word.length]?) hDrop
  simp only [List.getElem?_drop, Nat.add_sub_cancel' hWord] at hCell
  rw [hCell, hClean.zero k hk]

theorem Stored.cleared (h : Stored memory a 0 word a') (hClean : Clean a) {s : Bytes}
    (hLength : s.length = a'.s.length) (hZero : ∀ k, word.length ≤ k → k ≤ inc → s[k]? = some 0) :
    Clean ⟨Cells.fill s word.length 0, a'.iMax⟩ := by
  have hFits := h.fits
  have hLength' := h.length
  constructor
  case length =>
    refine (Cells.length_fill (by omega) 0).trans ?_
    rw [hLength, hLength']
  case room => exact Nat.le_trans hClean.room h.room
  case zero =>
    intro k hk
    change (Cells.fill s word.length 0)[k]? = some 0
    rw [Cells.getElem?_fill]
    split
    · rfl
    · case isFalse hPast => exact hZero k (Nat.not_lt.mp hPast) hk

/-- A word that is read back at all is read back as far as the stop words can tell. -/
theorem Stored.stringOf_ok (h : Stored memory a 0 word a') (hClean : Clean a) (hNul : (0 : UInt8) ∉ word)
    {str : Bytes} (hStr : stringOf a'.s = .ok str) : isStopWord str = isStopWord word := by
  rw [h.s_eq, stringOf_append hNul] at hStr
  split at hStr
  · cases hStr
    obtain hShort | hLong := Nat.lt_or_ge inc word.length
    · exact isStopWord_grown _ hShort
    · have hFirst := h.zero hClean (Nat.le_refl _) hLong
      have hHead : cString (a'.s.drop word.length) = [] := by
        rw [← Nat.add_zero word.length, ← List.getElem?_drop] at hFirst
        cases hTail : a'.s.drop word.length with
        | nil => rfl
        | cons c tail =>
          rw [hTail] at hFirst
          obtain rfl := Option.some.inj hFirst
          rfl
      rw [hHead, List.append_nil]
  · cases hStr

theorem Stored.stringOf_short (h : Stored memory a 0 word a') (hClean : Clean a) (hShort : word.length ≤ inc) :
    ∃ str, stringOf a'.s = .ok str := by
  have hFirst := h.zero hClean (Nat.le_refl _) hShort
  have hMem : (0 : UInt8) ∈ a'.s := List.mem_of_getElem? hFirst
  exact ⟨_, if_pos hMem⟩

/-- The stemmed word, ended behind its last character. -/
theorem Stored.stemmed (h : Stored memory a 0 word a') (hStem : InPlace stem) (hWord : word ≠ []) :
    ∃ rest, (Cells.store a'.s 0 (stem word).1).set ((stem word).2 + 1) 0 = cut stem word ++ 0 :: rest := by
  have hFits := h.fits
  have hLength := h.length
  have hStemmed := hStem.length word hWord
  have hIndex := hStem.index word hWord
  have hIn : (stem word).2 + 1 < (Cells.store a'.s 0 (stem word).1).length := by
    rw [Cells.length_store (by omega)]
    omega
  rw [List.set_eq_take_append_cons_drop, if_pos hIn, Cells.store_zero, List.take_append_of_le_length (by omega)]
  exact ⟨_, rfl⟩

theorem Stored.countWord_ok (h : Stored memory a 0 word a') (hClean : Clean a) (hStem : InPlace stem)
    (hNul : (0 : UInt8) ∉ word) (hWord : word ≠ []) {str : Bytes} (hStr : stringOf a'.s = .ok str)
    (words : WordMap) :
    ∃ a'', countWord stem a' word.length words = .ok (a'', counted stem words word) ∧ Clean a'' ∧
      a''.iMax = a'.iMax := by
  have hStop := h.stringOf_ok hClean hNul hStr
  have hFits := h.fits
  have hLength := h.length
  have hTake : a'.s.take word.length = word := by
    rw [h.s_eq, List.take_left]
  rw [countWord, hStr, counted, ← hStop]
  simp only [bind, Except.bind, pure, Except.pure, hTake]
  cases isStopWord str with
  | true => exact ⟨_, rfl, h.cleared hClean rfl fun k hk hInc => h.zero hClean hk hInc, rfl⟩
  | false =>
    obtain ⟨rest, hs⟩ := h.stemmed hStem hWord
    have hStemmed := hStem.length word hWord
    have hIndex := hStem.index word hWord
    rw [hs, stringOf_ended]
    refine ⟨_, rfl, h.cleared hClean ?_ ?_, rfl⟩
    · rw [← hs, List.length_set, Cells.length_store (by omega)]
    · intro k hk hInc
      rw [← hs, List.getElem?_set]
      split
      · case isTrue hLast =>
        rw [if_pos (by rw [Cells.length_store (by omega)]; omega)]
      · rw [Cells.getElem?_store_zero, if_neg (by omega)]
        exact h.zero hClean hk hInc

end Word

/-! ## A file -/

section File
variable {memory : Nat → Nat → UInt8} {stem : Stemmer} {a a' : Analyzer} {words words' : WordMap}

theorem nul_not_mem_run (text : Bytes) : (0 : UInt8) ∉ (text.takeWhile isalnum).map tolower := by
  intro hMem
  obtain ⟨c, hc, hZero⟩ := List.mem_map.mp hMem
  have hAlnum := List.mem_takeWhile_imp hc
  rw [tolower_eq_zero hZero] at hAlnum
  cases hAlnum

/-- What becomes of the word at the front of a text. -/
theorem readFile_word (memory : Nat → Nat → UInt8) (hStem : InPlace stem) (hClean : Clean a) {ch : UInt8}
    (hch : isalnum ch = true) (rest : Bytes) (fuel : Nat) (words : WordMap) :
    ∃ a₁, Stored memory a 0 (((ch :: rest).takeWhile isalnum).map tolower) a₁ ∧
      (readFile memory stem (fuel + 1) (ch :: rest) a words = .error .outOfBounds ∧
        stringOf a₁.s = .error .outOfBounds ∨
      ∃ a₂, readFile memory stem (fuel + 1) (ch :: rest) a words =
          readFile memory stem fuel ((ch :: rest).dropWhile isalnum) a₂
            (counted stem words (((ch :: rest).takeWhile isalnum).map tolower)) ∧
        Clean a₂ ∧ a₂.iMax = a₁.iMax ∧ ∃ str, stringOf a₁.s = .ok str) := by
  obtain ⟨a₁, hStore, hStored⟩ : ∃ a₁, storeRun memory (ch :: rest) 0 a = _ ∧ Stored memory a 0 _ a₁ :=
    storeRun_stored hClean.length (Nat.zero_le _)
  have hNul := nul_not_mem_run (ch :: rest)
  have hWord : ((ch :: rest).takeWhile isalnum).map tolower ≠ [] := by
    rw [List.takeWhile_cons_of_pos hch]
    exact List.cons_ne_nil _ _
  have hLength : 0 + ((ch :: rest).takeWhile isalnum).length =
      (((ch :: rest).takeWhile isalnum).map tolower).length := by
    rw [Nat.zero_add, List.length_map]
  refine ⟨a₁, hStored, ?_⟩
  rw [readFile, if_pos hch, hStore, hLength]
  simp only
  cases hStr : stringOf a₁.s with
  | error e =>
    have hFault : e = .outOfBounds := by
      rw [stringOf] at hStr
      split at hStr
      · cases hStr
      · cases hStr
        rfl
    subst hFault
    left
    rw [countWord, hStr]
    exact ⟨rfl, rfl⟩
  | ok str =>
    obtain ⟨a₂, hCount, hClean₂, hMax⟩ := hStored.countWord_ok hClean hStem hNul hWord hStr words
    right
    refine ⟨a₂, ?_, hClean₂, hMax, str, rfl⟩
    rw [hCount]
    rfl

/-- Where the run comes through, it has counted every word as it stands in the text. -/
theorem readFile_ok (hStem : InPlace stem) (hClean : Clean a) {fuel : Nat} {text : Bytes}
    (h : readFile memory stem fuel text a words = .ok (a', words')) :
    words' = readWords (cut stem) fuel text words ∧ Clean a' := by
  induction fuel generalizing text a words with
  | zero =>
    cases h
    exact ⟨rfl, hClean⟩
  | succ fuel ih =>
    cases text with
    | nil =>
      cases h
      exact ⟨rfl, hClean⟩
    | cons ch rest =>
      rw [readWords]
      split
      · case isTrue hch =>
        obtain ⟨a₁, _, ⟨hError, _⟩ | ⟨a₂, hRead, hClean₂, _⟩⟩ :=
          readFile_word memory hStem hClean hch rest fuel words
        · rw [hError] at h
          cases h
        · rw [hRead] at h
          exact ih hClean₂ h
      · case isFalse hch =>
        rw [readFile, if_neg hch] at h
        exact ih hClean h

theorem readFile_short (hStem : InPlace stem) (hClean : Clean a) {fuel : Nat} {text : Bytes}
    (hShort : ∀ run ∈ alnumRuns text, run.length ≤ inc) :
    ∃ a' words', readFile memory stem fuel text a words = .ok (a', words') := by
  induction fuel generalizing text a words with
  | zero => exact ⟨a, words, rfl⟩
  | succ fuel ih =>
    cases text with
    | nil => exact ⟨a, words, rfl⟩
    | cons ch rest =>
      cases hch : isalnum ch with
      | true =>
        rw [alnumRuns_cons_of_pos hch] at hShort
        have hFirst := hShort _ List.mem_cons_self
        obtain ⟨a₁, hStored, ⟨_, hError⟩ | ⟨a₂, hRead, hClean₂, _⟩⟩ :=
          readFile_word memory hStem hClean hch rest fuel words
        · obtain ⟨str, hStr⟩ := hStored.stringOf_short hClean (by rw [List.length_map]; exact hFirst)
          rw [hStr] at hError
          cases hError
        · rw [hRead]
          exact ih hClean₂ fun run hRun => hShort run (List.mem_cons_of_mem _ hRun)
      | false =>
        rw [alnumRuns_cons_of_neg hch] at hShort
        rw [readFile, if_neg (by simp [hch])]
        exact ih hClean hShort

/-- Memory in which no string ends. -/
def endless : Nat → Nat → UInt8 := fun _ _ => 0xff

theorem Stored.endless {word : Bytes} (h : Stored endless a 0 word a') (hMax : a.iMax = inc)
    (hNul : (0 : UInt8) ∉ word) {str : Bytes} (hStr : stringOf a'.s = .ok str) :
    word.length ≤ inc ∧ a'.iMax = inc := by
  obtain hShort | hLong := Nat.lt_or_ge inc word.length
  · have hTail := h.grown (by omega)
    rw [Nat.zero_add] at hTail
    rw [h.s_eq, stringOf_append hNul, hTail] at hStr
    split at hStr
    · case isTrue hZero =>
      obtain ⟨k, _, hk⟩ := List.mem_map.mp (List.mem_of_mem_drop hZero)
      cases hk
    · cases hStr
  · exact ⟨hLong, (h.kept (by omega)).1.trans hMax⟩

theorem readFile_endless (hStem : InPlace stem) (hClean : Clean a) (hMax : a.iMax = inc) {fuel : Nat}
    {text : Bytes} (hFuel : text.length ≤ fuel)
    (h : readFile endless stem fuel text a words = .ok (a', words')) :
    (∀ run ∈ alnumRuns text, run.length ≤ inc) ∧ a'.iMax = inc := by
  induction fuel generalizing text a words with
  | zero =>
    obtain rfl := List.eq_nil_of_length_eq_zero (Nat.le_zero.mp hFuel)
    cases h
    exact ⟨fun run hRun => absurd hRun List.not_mem_nil, hMax⟩
  | succ fuel ih =>
    cases text with
    | nil =>
      cases h
      exact ⟨fun run hRun => absurd hRun List.not_mem_nil, hMax⟩
    | cons ch rest =>
      rw [List.length_cons] at hFuel
      cases hch : isalnum ch with
      | true =>
        obtain ⟨a₁, hStored, ⟨hError, _⟩ | ⟨a₂, hRead, hClean₂, hMax₂, str, hStr⟩⟩ :=
          readFile_word endless hStem hClean hch rest fuel words
        · rw [hError] at h
          cases h
        · obtain ⟨hFirst, hMax₁⟩ := hStored.endless hMax (nul_not_mem_run _) hStr
          rw [hRead] at h
          obtain ⟨hRuns, hMax'⟩ := ih hClean₂ (hMax₂.trans hMax₁) (length_dropWhile_le hch hFuel) h
          rw [List.length_map] at hFirst
          rw [alnumRuns_cons_of_pos hch]
          exact ⟨List.forall_mem_cons.mpr ⟨hFirst, hRuns⟩, hMax'⟩
      | false =>
        rw [readFile, if_neg (by simp [hch])] at h
        rw [alnumRuns_cons_of_neg hch]
        exact ih hClean hMax (by omega) h

end File

/-! ## All files of one analyzer -/

/-- Whatever was in memory, every file is read and its words are counted. -/
def CountsAll (stem : Stemmer) (files : List Bytes) : Prop :=
  ∀ memory, ∃ maps, extractFiles memory stem files (create memory) = .ok maps ∧
    List.Forall₂ (CountsExactly (cut stem)) files maps

section Files
variable {stem : Stemmer} (hStem : InPlace stem)
include hStem

theorem extractFiles_ok {memory : Nat → Nat → UInt8} {files : List Bytes} {a : Analyzer} {maps : List WordMap}
    (hClean : Clean a) (h : extractFiles memory stem files a = .ok maps) :
    maps = files.map (EnglishAnalyzer.extractUniqueKeywords (cut stem)) := by
  induction files generalizing a maps with
  | nil =>
    cases h
    rfl
  | cons text texts ih =>
    obtain ⟨⟨a₁, words⟩, hFile, hNext⟩ := bind_eq_ok_iff.mp h
    obtain ⟨rest, hRest, hEq⟩ := bind_eq_ok_iff.mp hNext
    cases hEq
    obtain ⟨rfl, hClean₁⟩ := readFile_ok hStem hClean hFile
    rw [List.map_cons, ih hClean₁ hRest]
    rfl

theorem extractFiles_short {memory : Nat → Nat → UInt8} {files : List Bytes} {a : Analyzer} (hClean : Clean a)
    (hShort : ∀ text ∈ files, ∀ run ∈ alnumRuns text, run.length ≤ inc) :
    ∃ maps, extractFiles memory stem files a = .ok maps := by
  induction files generalizing a with
  | nil => exact ⟨[], rfl⟩
  | cons text texts ih =>
    obtain ⟨a₁, words, hFile⟩ : ∃ a₁ words, extractUniqueKeywords memory stem a text = .ok (a₁, words) :=
      readFile_short hStem hClean (hShort text List.mem_cons_self)
    have hClean₁ := (readFile_ok hStem hClean hFile).2
    obtain ⟨maps, hRest⟩ := ih hClean₁ fun t ht => hShort t (List.mem_cons_of_mem _ ht)
    refine ⟨words :: maps, ?_⟩
    rw [extractFiles, hFile]
    change (extractFiles memory stem texts a₁ >>= _) = _
    rw [hRest]
    rfl

theorem extractFiles_endless {files : List Bytes} {a : Analyzer} {maps : List WordMap} (hClean : Clean a)
    (hMax : a.iMax = inc) (h : extractFiles endless stem files a = .ok maps) :
    ∀ text ∈ files, ∀ run ∈ alnumRuns text, run.length ≤ inc := by
  induction files generalizing a maps with
  | nil => exact fun text hText => absurd hText List.not_mem_nil
  | cons text texts ih =>
    obtain ⟨⟨a₁, words⟩, hFile, hNext⟩ := bind_eq_ok_iff.mp h
    obtain ⟨rest, hRest, _⟩ := bind_eq_ok_iff.mp hNext
    obtain ⟨hRuns, hMax₁⟩ := readFile_endless hStem hClean hMax (Nat.le_refl _) hFile
    exact List.forall_mem_cons.mpr ⟨hRuns, ih (readFile_ok hStem hClean hFile).2 hMax₁ hRest⟩

/-- Counting is exact for all that may be in memory when no word outgrows the first buffer, and only then:
behind a longer one the end of the word is sought in memory nobody has written. -/
theorem countsAll_iff (files : List Bytes) :
    CountsAll stem files ↔ ∀ text ∈ files, (∀ run ∈ alnumRuns text, run.length ≤ inc) ∧
      ∀ x, occurrences (cut stem) text x < 2 ^ 31 := by
  constructor
  · intro h text hText
    obtain ⟨maps, hRun, hCounts⟩ := h endless
    have hClean := create_clean endless
    refine ⟨extractFiles_endless hStem hClean rfl hRun text hText, ?_⟩
    obtain rfl := extractFiles_ok hStem hClean hRun
    have hAll := List.forall₂_map_right_iff.mp hCounts
    exact (countsExactly_iff _ _).mp (List.forall₂_same.mp hAll text hText)
  · intro h memory
    have hClean := create_clean memory
    obtain ⟨maps, hRun⟩ : ∃ maps, extractFiles memory stem files (create memory) = .ok maps :=
      extractFiles_short hStem hClean fun text hText => (h text hText).1
    refine ⟨maps, hRun, ?_⟩
    obtain rfl := extractFiles_ok hStem hClean hRun
    apply List.forall₂_map_right_iff.mpr
    apply List.forall₂_same.mpr
    exact fun text hText => (countsExactly_iff _ _).mpr (h text hText).2

end Files

/-- A stemmer that leaves the word as it is. -/
def whole : Stemmer := fun w => (w, w.length - 1)

theorem whole_inPlace : InPlace whole :=
  ⟨fun _ _ => rfl, fun _ hw => Nat.sub_one_lt (mt List.length_eq_zero_iff.mp hw)⟩

/-- `Cat, cat` -/
theorem countsAll_iff_cats : CountsAll whole [[0x43, 0x61, 0x74, 0x2c, 0x20, 0x63, 0x61, 0x74]] := by
  apply (countsAll_iff whole_inPlace _).mpr
  intro text hText
  obtain rfl := List.mem_singleton.mp hText
  have hRuns : alnumRuns [0x43, 0x61, 0x74, 0x2c, 0x20, 0x63, 0x61, 0x74] =
      [[0x43, 0x61, 0x74], [0x63, 0x61, 0x74]] := by decide
  rw [hRuns]
  constructor
  · intro run hRun
    obtain rfl | hRun := List.mem_cons.mp hRun
    · decide
    · obtain rfl := List.mem_singleton.mp hRun
      decide
  · intro x
    rw [occurrences, hRuns]
    exact lt_of_le_of_lt List.countP_le_length (by decide)

/-- One word of 51 characters: its end is sought in the part of the grown buffer that nobody has written. -/
theorem not_countsAll_long :
    ¬ ∀ (stem : Stemmer), InPlace stem → ∀ files : List Bytes, CountsAll stem files := by
  intro h
  obtain ⟨maps, hRun, _⟩ := h whole whole_inPlace [List.replicate 51 0x61] endless
  have hShort := extractFiles_endless whole_inPlace (create_clean endless) rfl hRun
  have hAlnum : ∀ c ∈ List.replicate 51 (0x61 : UInt8), isalnum c = true := by
    intro c hc
    rw [(List.mem_replicate.mp hc).2]
    decide
  have hRuns : alnumRuns (List.replicate 51 0x61) = [List.replicate 51 0x61] :=
    alnumRuns_of_forall (by simp) hAlnum
  have hLong := hShort _ List.mem_cons_self (List.replicate 51 0x61) (by rw [hRuns]; exact List.mem_cons_self)
  rw [List.length_replicate] at hLong
  exact absurd hLong (by decide)

end Bisen.WordBuffer
