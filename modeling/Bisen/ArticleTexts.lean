import Bisen.Lib.Simulation
import Bisen.TextQuery

/-! # The texts of a file of articles

A file of articles is read as texts of their own: the lines between two ends of articles, without the lines that
start one and without the word that each line ends with. Every text is counted as a file of its own would be.
-/
namespace Bisen.ArticleTexts
open Wire QueryParser EnglishAnalyzer WordBuffer WikiExtractor StemmedText TextQuery PorterStemmer PorterWords
set_option autoImplicit false

/-! ## The scan with the stemmer itself -/

/-- As `WikiExtractor.countTemp`, with the call of `stemWord_wiki`; `old` is what its static variable holds. -/
def countTemp (temp : Bytes) (a : Articles) (old : Int) : Except Fault (Articles × Int) := do
  let word ← stringOf temp
  if !isStopWord word && word.length ≠ 0 then
    let (temp, old) ← StemmedText.stemWordWiki temp old
    let t ← stringOf temp
    return (a.count t, old)
  else return (a, old)

def scanChar (st : Scan × Int) (ch : UInt8) : Except Fault (Scan × Int) :=
  if isalnum ch then do
    let temp ← writeAt st.1.temp st.1.pos (tolower ch)
    return (⟨temp, st.1.pos + 1, st.1.articles⟩, st.2)
  else do
    let (a, old) ← countTemp st.1.temp st.1.articles st.2
    return (⟨Cells.fill st.1.temp st.1.temp.length 0, 0, a⟩, old)

def scanLine (l : Bytes) (st : Articles × Int) : Except Fault (Articles × Int) := do
  let (s, old) ← l.foldlM scanChar (⟨List.replicate l.length 0, 0, st.1⟩, st.2)
  return (s.articles, old)

def readLine (st : Articles × Int) (line : Bytes) : Except Fault (Articles × Int) :=
  if line.take 5 = docStart then .ok st
  else if line.take 5 = docEnd then .ok (st.1.next, st.2)
  else scanLine (cString line) st

def extractUniqueKeywordsWiki (file : Bytes) (old : Int) : Except Fault (List WordMap × Int) := do
  let (a, old) ← Lines.eachLine newline readLine (file.length + 2) ⟨file, false⟩ [] (.init, old)
  return (a.wordMap, old)

/-! ## The scan with a given stemmer -/

theorem countTemp_eq (temp : Bytes) (a : Articles) (old : Int) :
    (countTemp temp a old).map Prod.fst = WikiExtractor.countTemp padded temp a := by
  by_cases hMem : (0 : UInt8) ∈ temp
  · obtain ⟨w, tail, rfl, hNul⟩ := List.eq_append_cons_of_mem hMem
    rw [countTemp, WikiExtractor.countTemp, stringOf_ended, cString_of_not_mem hNul]
    simp only [bind, Except.bind, pure, Except.pure]
    split
    · case isTrue hCounts =>
      have hWord : w ≠ [] := by
        rintro rfl
        simp at hCounts
      obtain ⟨word, j, hRun, hString⟩ := StemmedText.stemWordWiki_eq hNul tail old
      obtain ⟨rest, hGiven⟩ := stemWordWiki_ok padded_inPlace hNul hWord tail
      rw [hRun, hGiven]
      dsimp only
      rw [hString, stringOf_ended, cut_padded hWord, cString_of_not_mem (nul_not_mem_porter hNul)]
      rfl
    · rfl
  · rw [countTemp, WikiExtractor.countTemp, stringOf, if_neg hMem]
    rfl

theorem scanChar_eq (s : Scan) (old : Int) (ch : UInt8) :
    (scanChar (s, old) ch).map Prod.fst = WikiExtractor.scanChar padded s ch := by
  rw [scanChar, WikiExtractor.scanChar]
  split
  · cases writeAt s.temp s.pos (tolower ch) <;> rfl
  · rw [← countTemp_eq s.temp s.articles old]
    cases countTemp s.temp s.articles old <;> rfl

theorem scanLine_eq (l : Bytes) (a : Articles) (old : Int) :
    (scanLine l (a, old)).map Prod.fst = WikiExtractor.scanLine padded l a := by
  rw [scanLine, WikiExtractor.scanLine, ← Simulation.foldlM_map_fst scanChar_eq _ _ old]
  cases l.foldlM scanChar (⟨List.replicate l.length 0, 0, a⟩, old) <;> rfl

theorem readLine_eq (a : Articles) (old : Int) (line : Bytes) :
    (readLine (a, old) line).map Prod.fst = WikiExtractor.readLine padded a line := by
  rw [readLine, WikiExtractor.readLine]
  split
  · rfl
  split
  · rfl
  · exact scanLine_eq (cString line) a old

/-- A line counts the stems of what is kept of it. -/
theorem scanLine_porter {line : Bytes} (hNul : (0 : UInt8) ∉ line) (a : Articles) (old : Int) :
    ∃ j, scanLine line (a, old) = .ok (a.countAll (keptStems porter (kept line)), j) := by
  have hScan := scanLine_eq line a old
  have hKept := WikiExtractor.scanLine_ok padded_inPlace line a
  rw [cString_of_not_mem hNul, keptStems_padded] at hKept
  rw [hKept] at hScan
  obtain ⟨⟨_, j⟩, hRun, rfl⟩ := map_eq_ok_iff.mp hScan
  exact ⟨j, hRun⟩

/-- What the static variable holds does not show. -/
theorem extractUniqueKeywordsWiki_eq (file : Bytes) (old : Int) :
    (extractUniqueKeywordsWiki file old).map Prod.fst = WikiExtractor.extractUniqueKeywordsWiki padded file := by
  rw [extractUniqueKeywordsWiki, WikiExtractor.extractUniqueKeywordsWiki, Lines.eachLine_eq _ (Nat.le_refl _),
    Lines.eachLine_eq _ (Nat.le_refl _), ← Simulation.foldlM_map_fst readLine_eq _ _ old]
  cases (Lines.passed newline file).foldlM readLine (.init, old) <;> rfl

/-! ## The texts -/

def opens (line : Bytes) : Bool := line.take 5 = docStart

def closes (line : Bytes) : Bool := line.take 5 = docEnd

/-- What is read of the lines of an article. -/
def articleText (lines : List Bytes) : Bytes := Lines.text newline ((lines.filter fun line => !opens line).map kept)

def articleTexts (file : Bytes) : List Bytes := ((Lines.passed newline file).splitOnP closes).map articleText

theorem keptStems_text (stem : Bytes → Bytes) (lines : List Bytes) :
    keptStems stem (Lines.text newline lines) = lines.flatMap (keptStems stem) := by
  induction lines with
  | nil => rfl
  | cons line lines ih =>
    have hText : Lines.text newline (line :: lines) = line ++ newline :: Lines.text newline lines := by
      rw [Lines.text, List.flatMap_cons, List.append_assoc]
      rfl
    rw [hText, keptStems_append_cons stem (by decide), ih, List.flatMap_cons]

theorem keptStems_articleText_cons (stem : Bytes → Bytes) (line : Bytes) (lines : List Bytes) :
    keptStems stem (articleText (line :: lines)) =
      (if opens line then [] else keptStems stem (kept line)) ++ keptStems stem (articleText lines) := by
  rw [articleText, articleText, keptStems_text, keptStems_text, List.filter_cons]
  cases opens line with
  | true => rfl
  | false => rfl

section File
variable {stem : Stemmer} (hStem : InPlace stem)
include hStem

/-- The induction is on the lines; the words of the first article are counted into the map that is open. -/
theorem foldlM_lines (lines : List Bytes) {a : Articles} {front : List WordMap} {words : WordMap}
    (h : a.wordMap = front ++ [words]) :
    ∃ a' first rest, lines.foldlM (WikiExtractor.readLine stem) a = .ok a' ∧ lines.splitOnP closes = first :: rest ∧
      a'.wordMap = front ++ words.countAll (keptStems (cut stem) (articleText first)) ::
        rest.map fun lines => WordMap.empty.countAll (keptStems (cut stem) (articleText lines)) := by
  induction lines generalizing a front words with
  | nil => exact ⟨a, [], [], rfl, rfl, h⟩
  | cons line lines ih =>
    rw [List.foldlM_cons, WikiExtractor.readLine, List.splitOnP_cons_eq_if_modifyHead]
    split
    · case isTrue hOpens =>
      have hLine : opens line = true := decide_eq_true hOpens
      have hOther : ¬ closes line = true := by
        rw [closes, hOpens]
        decide
      obtain ⟨a', first, rest, hRun, hSplit, hMaps⟩ := ih h
      refine ⟨a', line :: first, rest, hRun, by rw [if_neg hOther, hSplit, List.modifyHead_cons], ?_⟩
      rw [hMaps, keptStems_articleText_cons, if_pos hLine, List.nil_append]
    split
    · case isFalse.isTrue _ hCloses =>
      have hLine : closes line = true := decide_eq_true hCloses
      have hNext : a.next.wordMap = (front ++ [words]) ++ [.empty] := congrArg (· ++ [WordMap.empty]) h
      obtain ⟨a', first, rest, hRun, hSplit, hMaps⟩ := ih hNext
      refine ⟨a', [], first :: rest, hRun, by rw [if_pos hLine, hSplit], ?_⟩
      rw [hMaps, List.append_assoc]
      rfl
    · case isFalse.isFalse hOpens hCloses =>
      have hText : ¬ opens line = true := fun hLine => hOpens (of_decide_eq_true hLine)
      have hOther : ¬ closes line = true := fun hLine => hCloses (of_decide_eq_true hLine)
      have hCounted := Articles.countAll_of_wordMap h (keptStems (cut stem) (kept line))
      obtain ⟨a', first, rest, hRun, hSplit, hMaps⟩ := ih hCounted
      refine ⟨a', line :: first, rest, ?_, ?_, ?_⟩
      · rw [scanLine_ok hStem]
        exact hRun
      · rw [if_neg hOther, hSplit, List.modifyHead_cons]
      · rw [hMaps, keptStems_articleText_cons, if_neg hText, WordMap.countAll,
          WordMap.countAll, WordMap.countAll, List.foldl_append]

/-- Any file, whether its articles are well formed or not. -/
theorem extract_articleTexts (file : Bytes) :
    WikiExtractor.extractUniqueKeywordsWiki stem file =
      .ok ((articleTexts file).map (EnglishAnalyzer.extractUniqueKeywords (cut stem))) := by
  have hInit : Articles.init.wordMap = [] ++ [WordMap.empty] := rfl
  obtain ⟨a', first, rest, hRun, hSplit, hMaps⟩ := foldlM_lines hStem (Lines.passed newline file) hInit
  rw [WikiExtractor.extractUniqueKeywordsWiki, Lines.eachLine_eq _ (Nat.le_refl _), hRun]
  change Except.ok a'.wordMap = _
  rw [hMaps, articleTexts, hSplit, List.nil_append, List.map_map, List.map_cons, Function.comp_apply,
    extractUniqueKeywords_eq]
  refine congrArg Except.ok (congrArg (List.cons _) (List.map_congr_left fun lines _ => ?_))
  rw [Function.comp_apply, extractUniqueKeywords_eq]

end File

/-- Whatever the file holds and whatever the stemmer was used for before, the maps are those of the texts, each
counted as a file of its own. -/
theorem extract_porter (file : Bytes) (old : Int) :
    ∃ j, extractUniqueKeywordsWiki file old = .ok ((articleTexts file).map keywords, j) := by
  have hMaps := extractUniqueKeywordsWiki_eq file old
  rw [extract_articleTexts padded_inPlace] at hMaps
  obtain ⟨⟨maps, j⟩, hRun, hEq⟩ := map_eq_ok_iff.mp hMaps
  refine ⟨j, hRun.trans ?_⟩
  rw [show maps = _ from hEq, List.map_congr_left fun text _ => extractUniqueKeywords_padded text]
  rfl

/-- What is next to the word on either side is not of the word. -/
structure Between (isOfWord : UInt8 → Bool) (front back : Bytes) : Prop where
  front : ∀ c ∈ front.getLast?, isOfWord c = false
  back : ∀ c ∈ back.head?, isOfWord c = false

section Places
variable {front back run : Bytes}

theorem isWordChar_of_isalnum {c : UInt8} (h : isalnum c = true) : isWordChar c = true := by
  by_contra hOther
  have hMem : c ∈ [0, space, andToken, orToken, notToken, openToken, closeToken] := by
    simp only [isWordChar, isOperator, Bool.and_eq_true, Bool.not_eq_true', Bool.or_eq_false_iff, bne_iff_ne,
      beq_eq_false_iff_ne, not_and_or, not_not] at hOther
    simpa [or_assoc] using hOther
  have hNone : ∀ c ∈ [0, space, andToken, orToken, notToken, openToken, closeToken], isalnum c = false := by
    decide +kernel
  rw [hNone c hMem] at h
  cases h

theorem keptStems_front (stem : Bytes → Bytes) (hFront : ∀ c ∈ front.getLast?, isalnum c = false) (rest : Bytes) :
    keptStems stem (front ++ rest) = keptStems stem front ++ keptStems stem rest := by
  obtain rfl | ⟨u, c, rfl⟩ := List.eq_nil_or_concat front
  · rfl
  · have hc : isalnum c = false := hFront c (by rw [List.concat_eq_append, List.getLast?_concat]; rfl)
    rw [List.concat_eq_append, List.append_assoc, List.singleton_append, keptStems_append_cons stem hc,
      keptStems_append_cons stem hc]
    exact congrArg (· ++ _) (List.append_nil _).symm

theorem keptStems_back (stem : Bytes → Bytes) (hBack : ∀ c ∈ back.head?, isalnum c = false) (rest : Bytes) :
    keptStems stem (rest ++ back) = keptStems stem rest ++ keptStems stem back := by
  cases back with
  | nil => rw [List.append_nil]; exact (List.append_nil _).symm
  | cons c back =>
    have hc := hBack c rfl
    have hAlone : keptStems stem (c :: back) = keptStems stem back := keptStems_append_cons stem hc [] back
    rw [keptStems_append_cons stem hc, hAlone]

variable (hNil : run ≠ []) (hRun : ∀ c ∈ run, isalnum c = true) (hKept : isStopWord (run.map tolower) = false)
include hNil hRun hKept

theorem keptStems_run : keptStems porter run = [porter (run.map tolower)] := by
  have hLength : decide (run.length ≠ 0) = true := decide_eq_true (mt List.length_eq_zero_iff.mp hNil)
  rw [keptStems_of_forall porter hRun, hKept, hLength, Bool.not_false, Bool.and_true, if_pos rfl,
    stemWord_porter (nul_not_mem_tolower hRun)]

theorem keptStems_between (hBetween : Between isalnum front back) :
    keptStems porter (front ++ run ++ back) =
      keptStems porter front ++ porter (run.map tolower) :: keptStems porter back := by
  rw [keptStems_back porter hBetween.back, keptStems_front porter hBetween.front, keptStems_run hNil hRun hKept,
    List.append_assoc, List.singleton_append]

omit hNil hRun hKept in
/-- A line that something ends behind the word keeps the word. -/
theorem kept_between (hNul : (0 : UInt8) ∉ front ++ run ++ back) (hBack : ∀ c ∈ back.head?, isalnum c = false)
    (hMore : back ≠ []) : kept (front ++ run ++ back) = front ++ run ++ back.rdropWhile isalnum := by
  obtain ⟨c, back, rfl⟩ := List.exists_cons_of_ne_nil hMore
  have hc : ¬ isalnum c = true := by
    rw [hBack c rfl]
    exact Bool.false_ne_true
  rw [kept, cString_of_not_mem hNul, List.rdropWhile, List.rdropWhile, List.reverse_append]
  have hStop : (c :: back).reverse.dropWhile isalnum ≠ [] := by
    intro hAll
    exact hc (List.dropWhile_eq_nil_iff.mp hAll c (List.mem_reverse.mpr List.mem_cons_self))
  rw [List.dropWhile_append, if_neg (by rwa [List.isEmpty_iff]), List.reverse_append, List.reverse_reverse]

end Places

theorem length_kept_le (line : Bytes) : (kept line).length ≤ line.length :=
  ((List.rdropWhile_prefix _ _).trans (List.takeWhile_prefix _)).length_le

theorem sum_length_articleTexts_le (file : Bytes) :
    ((articleTexts file).map fun text => text.length + 1).sum ≤ 2 * file.length + 3 := by
  have hGroups := Lines.length_groups_le newline closes (fun line => !opens line) length_kept_le
    (Lines.passed newline file)
  have hPassed := Lines.length_passed_le newline file
  rw [articleTexts, List.map_map]
  exact hGroups.trans (Nat.succ_le_succ hPassed)

end Bisen.ArticleTexts
