import Bisen.WordBuffer
import Bisen.Lib.Lines
import Mathlib.Data.List.DropRight

/-! # Keywords of a file of articles

`extractUniqueKeywords_wiki` scans a file line by line and counts a word when it meets the separator behind it.
A word that touches the end of its line is never counted, and neither is what stands behind a NUL.
-/
namespace Bisen.WikiExtractor
open Wire QueryParser EnglishAnalyzer WordBuffer
set_option autoImplicit false

def newline : UInt8 := 0x0a

/-- `<doc ` -/
def docStart : Bytes := [0x3c, 0x64, 0x6f, 0x63, 0x20]

/-- The part of `</doc>` that is compared. -/
def docEnd : Bytes := [0x3c, 0x2f, 0x64, 0x6f, 0x63]

/-- `word_map` and `curr_article`: the map of the article being read stands last. -/
structure Articles where
  wordMap : List WordMap
  currArticle : Nat
  current : wordMap.length = currArticle + 1

namespace Articles

def init : Articles := ⟨[.empty], 0, rfl⟩

def next (a : Articles) : Articles :=
  ⟨a.wordMap ++ [.empty], a.currArticle + 1, by rw [List.length_append, a.current]; rfl⟩

/-- `if(word_map[curr_article][t]) word_map[curr_article][t]++; else word_map[curr_article][t] = 1;` -/
def count (a : Articles) (t : Bytes) : Articles :=
  ⟨a.wordMap.modify a.currArticle fun words => words.count t, a.currArticle, by rw [List.length_modify, a.current]⟩

end Articles

/-- The array `temp`, the length of the word in it, and the maps. -/
structure Scan where
  temp : Bytes
  pos : Nat
  articles : Articles

section Code
variable (stem : Stemmer)

def writeAt (b : Bytes) (k : Nat) (ch : UInt8) : Except Fault Bytes :=
  if k < b.length then .ok (b.set k ch) else .error .outOfBounds

/-- `stemWord_wiki` -/
def stemWordWiki (word : Bytes) : Except Fault Bytes :=
  let (w, last) := stem (cString word)
  writeAt (Cells.store word 0 w) (last + 1) 0

/-- What is done at a separator. -/
def countTemp (temp : Bytes) (a : Articles) : Except Fault Articles := do
  let word ← stringOf temp
  if !isStopWord word && word.length ≠ 0 then
    let t ← stringOf (← stemWordWiki stem temp)
    return a.count t
  else return a

def scanChar (s : Scan) (ch : UInt8) : Except Fault Scan :=
  if isalnum ch then do
    let temp ← writeAt s.temp s.pos (tolower ch)
    return ⟨temp, s.pos + 1, s.articles⟩
  else do
    let a ← countTemp stem s.temp s.articles
    return ⟨Cells.fill s.temp s.temp.length 0, 0, a⟩

def scanLine (l : Bytes) (a : Articles) : Except Fault Articles := do
  let s ← l.foldlM (scanChar stem) ⟨List.replicate l.length 0, 0, a⟩
  return s.articles

def readLine (a : Articles) (line : Bytes) : Except Fault Articles :=
  if line.take 5 = docStart then .ok a
  else if line.take 5 = docEnd then .ok a.next
  else scanLine stem (cString line) a

def extractUniqueKeywordsWiki (file : Bytes) : Except Fault (List WordMap) := do
  let a ← Lines.eachLine newline (readLine stem) (file.length + 2) ⟨file, false⟩ [] .init
  return a.wordMap

end Code

/-! ## A line -/

/-- What is counted of a line: it ends with the last separator. -/
def kept (line : Bytes) : Bytes := (cString line).rdropWhile isalnum

/-- The word at the end of the line, and what a NUL hides. -/
def lost (line : Bytes) : Bytes := line.drop (kept line).length

namespace Articles

theorem count_of_wordMap {a : Articles} {front : List WordMap} {words : WordMap} (h : a.wordMap = front ++ [words])
    (t : Bytes) : (a.count t).wordMap = front ++ [words.count t] := by
  have hCurrent := a.current
  rw [h, List.length_append, List.length_singleton] at hCurrent
  have hIndex : a.currArticle = front.length := (Nat.succ.inj hCurrent).symm
  simp only [count, h, hIndex]
  rw [List.modify_eq_take_drop, List.take_left, List.drop_left]
  rfl

def countAll (a : Articles) (ts : List Bytes) : Articles := ts.foldl count a

theorem countAll_append (a : Articles) (ts us : List Bytes) : a.countAll (ts ++ us) = (a.countAll ts).countAll us :=
  List.foldl_append

theorem countAll_of_wordMap {a : Articles} {front : List WordMap} {words : WordMap}
    (h : a.wordMap = front ++ [words]) (ts : List Bytes) :
    (a.countAll ts).wordMap = front ++ [words.countAll ts] := by
  induction ts generalizing a words with
  | nil => exact h
  | cons t ts ih => exact ih (count_of_wordMap h t)

end Articles

theorem rdropWhile_append_cons {α : Type} {p : α → Bool} {x : α} (hx : ¬ p x) (l rest : List α) :
    (l ++ x :: rest).rdropWhile p = l ++ x :: rest.rdropWhile p := by
  induction rest using List.reverseRecOn with
  | nil => rw [List.rdropWhile_concat_neg p l x hx, List.rdropWhile_nil]
  | append_singleton rest y ih =>
    have hAssoc : l ++ x :: (rest ++ [y]) = l ++ x :: rest ++ [y] := by simp
    rw [hAssoc, List.rdropWhile_concat, List.rdropWhile_concat, ih]
    split
    · rfl
    · exact hAssoc.symm

theorem alnumRuns_append_cons {c : UInt8} (hc : isalnum c = false) (text rest : Bytes) :
    alnumRuns (text ++ c :: rest) = alnumRuns text ++ alnumRuns rest := by
  rw [alnumRuns, List.splitOnP_append_cons text rest (by simp [hc]), List.filter_append]
  rfl

theorem keptStems_append_cons (stem : Bytes → Bytes) {c : UInt8} (hc : isalnum c = false) (text rest : Bytes) :
    keptStems stem (text ++ c :: rest) = keptStems stem text ++ keptStems stem rest := by
  rw [keptStems, alnumRuns_append_cons hc, List.filter_append, List.map_append]
  rfl

section Scan
variable {stem : Stemmer} (hStem : InPlace stem)

theorem cString_of_not_mem {w : Bytes} (h : (0 : UInt8) ∉ w) : cString w = w := by
  rw [cString, List.takeWhile_eq_self_iff]
  intro c hc
  simpa using fun hZero : c = 0 => h (hZero ▸ hc)

theorem nul_not_mem_tolower {run : Bytes} (hRun : ∀ c ∈ run, isalnum c = true) :
    (0 : UInt8) ∉ run.map tolower := by
  rw [← List.takeWhile_eq_self_iff.mpr hRun]
  exact nul_not_mem_run run

theorem keptStems_of_forall (stem : Bytes → Bytes) {run : Bytes} (hRun : ∀ c ∈ run, isalnum c = true) :
    keptStems stem run =
      if !isStopWord (run.map tolower) && run.length ≠ 0 then [stemWord stem run] else [] := by
  obtain rfl | hNil := eq_or_ne run []
  · rw [if_neg (by simp)]
    rfl
  · have hLength : decide (run.length ≠ 0) = true := decide_eq_true (mt List.length_eq_zero_iff.mp hNil)
    rw [keptStems, alnumRuns_of_forall hNil hRun, hLength, Bool.and_true]
    cases hStop : isStopWord (run.map tolower) with
    | true => rw [List.filter_cons_of_neg (by simp [hStop])]; rfl
    | false => rw [List.filter_cons_of_pos (by simp [hStop])]; rfl

include hStem in
/-- The word in front of an end, stemmed. -/
theorem stemWordWiki_ok {word : Bytes} (hNul : (0 : UInt8) ∉ word) (hWord : word ≠ []) (tail : Bytes) :
    ∃ rest, stemWordWiki stem (word ++ 0 :: tail) = .ok (cut stem word ++ 0 :: rest) := by
  have hLength := hStem.length word hWord
  have hIndex := hStem.index word hWord
  have hStore : Cells.store (word ++ 0 :: tail) 0 (stem word).1 = (stem word).1 ++ 0 :: tail := by
    rw [Cells.store_zero, hLength, List.drop_left]
  have hRoom : (stem word).2 + 1 < ((stem word).1 ++ 0 :: tail).length := by
    rw [List.length_append, List.length_cons, hLength]
    omega
  rw [stemWordWiki, cString_ended, cString_of_not_mem hNul]
  simp only [hStore, writeAt, if_pos hRoom]
  rw [List.set_eq_take_append_cons_drop, if_pos hRoom, List.take_append_of_le_length (by omega)]
  exact ⟨_, rfl⟩

include hStem in
theorem countTemp_ok {run : Bytes} (hRun : ∀ c ∈ run, isalnum c = true) (tail : Bytes) (a : Articles) :
    countTemp stem (run.map tolower ++ 0 :: tail) a = .ok (a.countAll (keptStems (cut stem) run)) := by
  have hNul := nul_not_mem_tolower hRun
  rw [countTemp, stringOf_ended, cString_of_not_mem hNul, keptStems_of_forall (cut stem) hRun]
  simp only [bind, Except.bind, pure, Except.pure, List.length_map]
  split
  · case isTrue hCounts =>
    have hWord : run.map tolower ≠ [] := by
      rintro hNil
      rw [List.map_eq_nil_iff.mp hNil] at hCounts
      simp at hCounts
    obtain ⟨rest, hStemmed⟩ := stemWordWiki_ok hStem hNul hWord tail
    rw [hStemmed]
    simp only [stringOf_ended]
    rfl
  · rfl

/-- The array while `run` is being collected in it. -/
def holding (n : Nat) (run : Bytes) : Bytes := run.map tolower ++ List.replicate (n - run.length) 0

theorem holding_ended {n : Nat} {run : Bytes} (h : run.length < n) :
    holding n run = run.map tolower ++ 0 :: List.replicate (n - run.length - 1) 0 := by
  rw [holding, ← List.replicate_succ, Nat.sub_add_cancel (by omega)]

theorem holding_length {n : Nat} {run : Bytes} (h : run.length ≤ n) : (holding n run).length = n := by
  rw [holding, List.length_append, List.length_map, List.length_replicate]
  omega

theorem writeAt_holding {n : Nat} {run : Bytes} (h : run.length < n) (ch : UInt8) :
    writeAt (holding n run) run.length (tolower ch) = .ok (holding n (run ++ [ch])) := by
  have hLength := holding_length (Nat.le_of_lt h)
  have hMap : (run.map tolower).length ≤ run.length := Nat.le_of_eq (List.length_map _)
  rw [writeAt, if_pos (by rw [hLength]; exact h), holding_ended h, List.set_append_right _ _ hMap, holding,
    List.length_map, Nat.sub_self, List.map_append, List.append_assoc, List.length_append, List.length_singleton,
    ← Nat.sub_sub]
  rfl

include hStem in
/-- What the scan makes of the rest of a line of `n` characters when it has collected `run`. -/
theorem scan_run {n : Nat} {rest run : Bytes} (hRun : ∀ c ∈ run, isalnum c = true)
    (hRoom : run.length + rest.length ≤ n) (a : Articles) :
    ∃ s, rest.foldlM (scanChar stem) ⟨holding n run, run.length, a⟩ = .ok s ∧
      s.articles = a.countAll (keptStems (cut stem) ((run ++ rest).rdropWhile isalnum)) := by
  induction rest generalizing run a with
  | nil =>
    refine ⟨_, rfl, ?_⟩
    rw [List.append_nil, List.rdropWhile_eq_nil_iff.mpr hRun]
    rfl
  | cons c rest ih =>
    rw [List.length_cons] at hRoom
    rw [List.foldlM_cons, scanChar]
    split
    · case isTrue hc =>
      have hNext : ∀ x ∈ run ++ [c], isalnum x = true :=
        List.forall_mem_append.mpr ⟨hRun, List.forall_mem_singleton.mpr hc⟩
      have hLength : (run ++ [c]).length = run.length + 1 := by rw [List.length_append, List.length_singleton]
      obtain ⟨s, hScan, hArticles⟩ := ih hNext (by rw [hLength]; omega) a
      refine ⟨s, ?_, ?_⟩
      · rw [writeAt_holding (by omega), ← hScan, hLength]
        rfl
      · rw [hArticles, List.append_assoc, List.singleton_append]
    · case isFalse hc =>
      have hShort : run.length < n := by omega
      have hEmpty : Cells.fill (holding n run) (holding n run).length 0 = holding n [] := by
        rw [Cells.fill_all rfl, holding_length (Nat.le_of_lt hShort)]
        rfl
      obtain ⟨s, hScan, hArticles⟩ := ih (fun x hx => absurd hx List.not_mem_nil)
        (by rw [List.length_nil]; omega) (a.countAll (keptStems (cut stem) run))
      refine ⟨s, ?_, ?_⟩
      · rw [hEmpty, holding_ended hShort, countTemp_ok hStem hRun]
        exact hScan
      · rw [hArticles, rdropWhile_append_cons hc, keptStems_append_cons _ (Bool.eq_false_iff.mpr hc),
          Articles.countAll_append]
        rfl

include hStem in
theorem scanLine_ok (line : Bytes) (a : Articles) :
    scanLine stem (cString line) a = .ok (a.countAll (keptStems (cut stem) (kept line))) := by
  obtain ⟨s, hScan, hArticles⟩ : ∃ s, (cString line).foldlM (scanChar stem)
      ⟨holding (cString line).length [], 0, a⟩ = .ok s ∧
        s.articles = a.countAll (keptStems (cut stem) (([] ++ cString line).rdropWhile isalnum)) := by
    apply scan_run hStem
    · exact fun x hx => absurd hx List.not_mem_nil
    · rw [List.length_nil, Nat.zero_add]
  have hStart : List.replicate (cString line).length 0 = holding (cString line).length [] := rfl
  rw [scanLine, hStart, hScan, kept, ← List.nil_append (cString line), ← hArticles]
  rfl

end Scan

/-! ## A file -/

/-- An article: the line that opens it, its text, and the line that closes it. -/
structure Article where
  opening : Bytes
  body : List Bytes
  closing : Bytes
  opens : docStart <+: opening
  closes : docEnd ++ [0x3e] <+: closing
  ended : ∀ line ∈ opening :: (body ++ [closing]), newline ∉ line

def Article.lines (article : Article) : List Bytes := article.opening :: (article.body ++ [article.closing])

/-- No line of the text passes for the start or the end of an article. -/
def Plain (body : List Bytes) : Prop := ∀ line ∈ body, ¬ docStart <+: line ∧ ¬ docEnd <+: line

/-- A file of articles, whose last line is ended or not. -/
structure WikiFile where
  articles : List Article
  ended : Bool

namespace WikiFile

def lines (file : WikiFile) : List Bytes := file.articles.flatMap Article.lines

def text (file : WikiFile) : Bytes :=
  if file.ended then Lines.text newline file.lines else (Lines.text newline file.lines).dropLast

/-- What stands in `line` when `getline` fails. -/
def again (file : WikiFile) : Bytes :=
  if file.ended then [] else (file.articles.getLast?.map Article.closing).getD []

theorem newline_not_mem (file : WikiFile) : ∀ line ∈ file.lines, newline ∉ line := by
  intro line hLine
  obtain ⟨article, _, hLine⟩ := List.mem_flatMap.mp hLine
  exact article.ended line hLine

theorem passed_text (file : WikiFile) : Lines.passed newline file.text = file.lines ++ [file.again] := by
  have hLines := file.newline_not_mem
  rw [text, again]
  split
  · exact Lines.passed_text hLines
  · obtain hNil | ⟨articles, last, hLast⟩ := List.eq_nil_or_concat file.articles
    · rw [lines, hNil]
      rfl
    · have hClosing : last.closing ≠ [] := by
        intro hNil
        have hPrefix := last.closes
        rw [hNil, List.prefix_nil] at hPrefix
        cases hPrefix
      have hConcat : file.lines = (articles.flatMap Article.lines ++ last.opening :: last.body) ++ [last.closing] := by
        rw [lines, hLast, List.concat_eq_append, List.flatMap_append, List.flatMap_singleton, Article.lines]
        simp
      rw [hConcat] at hLines ⊢
      rw [Lines.passed_dropLast hLines hClosing, hLast]
      simp

theorem again_cases (file : WikiFile) : file.again = [] ∨ ∃ article : Article, file.again = article.closing := by
  rw [again]
  split
  · exact .inl rfl
  · cases file.articles.getLast? with
    | none => exact .inl rfl
    | some article => exact .inr ⟨article, rfl⟩

end WikiFile

theorem take_eq_iff {t line : Bytes} (h : t.length = 5) : line.take 5 = t ↔ t <+: line := by
  rw [List.prefix_iff_eq_take, h, eq_comm]

section File
variable {stem : Stemmer} (hStem : InPlace stem)

theorem readLine_opening (stem : Stemmer) (article : Article) (a : Articles) :
    readLine stem a article.opening = .ok a := by
  rw [readLine, if_pos ((take_eq_iff rfl).mpr article.opens)]

theorem take_closing (article : Article) : article.closing.take 5 = docEnd :=
  (take_eq_iff rfl).mpr ((List.prefix_append docEnd [0x3e]).trans article.closes)

theorem readLine_closing (stem : Stemmer) (article : Article) (a : Articles) :
    readLine stem a article.closing = .ok a.next := by
  rw [readLine, take_closing, if_neg (by decide), if_pos rfl]

/-- The keys counted of a text. -/
def bodyStems (stem : Stemmer) (body : List Bytes) : List Bytes :=
  body.flatMap fun line => keptStems (cut stem) (kept line)

/-- The map of an article with this text. -/
def built (stem : Stemmer) (body : List Bytes) : WordMap := WordMap.empty.countAll (bodyStems stem body)

include hStem in
theorem foldlM_body {body : List Bytes} (hPlain : Plain body) (a : Articles) :
    body.foldlM (readLine stem) a = .ok (a.countAll (bodyStems stem body)) := by
  induction body generalizing a with
  | nil => rfl
  | cons line body ih =>
    obtain ⟨⟨hStart, hEnd⟩, hPlain⟩ := List.forall_mem_cons.mp hPlain
    rw [List.foldlM_cons, readLine, if_neg (mt (take_eq_iff rfl).mp hStart), if_neg (mt (take_eq_iff rfl).mp hEnd),
      scanLine_ok hStem, bodyStems, List.flatMap_cons, Articles.countAll_append]
    exact ih hPlain _

include hStem in
theorem foldlM_articles {articles : List Article} (hPlain : ∀ article ∈ articles, Plain article.body) {a : Articles}
    {front : List WordMap} (h : a.wordMap = front ++ [.empty]) :
    ∃ a', (articles.flatMap Article.lines).foldlM (readLine stem) a = .ok a' ∧
      a'.wordMap = front ++ articles.map (fun article => built stem article.body) ++ [.empty] := by
  induction articles generalizing a front with
  | nil => exact ⟨a, rfl, by rw [List.map_nil, List.append_nil, h]⟩
  | cons article articles ih =>
    obtain ⟨hFirst, hPlain⟩ := List.forall_mem_cons.mp hPlain
    have hArticle : article.lines.foldlM (readLine stem) a = .ok (a.countAll (bodyStems stem article.body)).next := by
      rw [Article.lines, List.foldlM_cons, readLine_opening]
      change (article.body ++ [article.closing]).foldlM (readLine stem) a = _
      rw [List.foldlM_append, foldlM_body hStem hFirst]
      change [article.closing].foldlM (readLine stem) _ = _
      rw [List.foldlM_cons, readLine_closing]
      rfl
    have hMaps : (a.countAll (bodyStems stem article.body)).next.wordMap =
        front ++ [built stem article.body] ++ [.empty] :=
      congrArg (· ++ [WordMap.empty]) (Articles.countAll_of_wordMap h _)
    obtain ⟨a', hRun, hWordMap⟩ := ih hPlain hMaps
    refine ⟨a', ?_, ?_⟩
    · rw [List.flatMap_cons, List.foldlM_append, hArticle]
      exact hRun
    · rw [hWordMap, List.map_cons]
      simp only [List.append_assoc, List.singleton_append]

theorem extract_eq (stem : Stemmer) (file : WikiFile) :
    extractUniqueKeywordsWiki stem file.text =
      (file.lines.foldlM (readLine stem) .init >>= fun a => readLine stem a file.again) >>= fun a =>
        .ok a.wordMap := by
  rw [extractUniqueKeywordsWiki, Lines.eachLine_eq _ (Nat.le_refl _), file.passed_text, List.foldlM_append]
  simp only [List.foldlM_cons, List.foldlM_nil, bind_pure]
  rfl

include hStem in
/-- The maps of the articles stand first. -/
theorem extract_ok (file : WikiFile) (hPlain : ∀ article ∈ file.articles, Plain article.body) :
    ∃ surplus, extractUniqueKeywordsWiki stem file.text =
      .ok (file.articles.map (fun article => built stem article.body) ++ .empty :: surplus) := by
  obtain ⟨a, hRun, hMaps⟩ : ∃ a, file.lines.foldlM (readLine stem) .init = .ok a ∧ a.wordMap = [] ++ _ ++ _ :=
    foldlM_articles hStem hPlain rfl
  rw [List.nil_append] at hMaps
  rw [extract_eq, hRun]
  change ∃ surplus, (readLine stem a file.again >>= fun a => .ok a.wordMap) = _
  obtain hAgain | ⟨article, hAgain⟩ := file.again_cases
  · rw [hAgain]
    exact ⟨[], congrArg Except.ok hMaps⟩
  · rw [hAgain, readLine_closing]
    refine ⟨[.empty], congrArg Except.ok ?_⟩
    change a.wordMap ++ [.empty] = _
    rw [hMaps, List.append_assoc]
    rfl

end File

/-! ## Comparing the two extractors -/

section Counts
variable (stem : Bytes → Bytes)

theorem keptStems_line (line : Bytes) :
    keptStems stem line = keptStems stem (kept line) ++ keptStems stem (lost line) := by
  have hPrefix : kept line <+: line := (List.rdropWhile_prefix _ _).trans (List.takeWhile_prefix _)
  have hSplit : kept line ++ lost line = line := List.prefix_iff_eq_append.mp hPrefix
  conv_lhs => rw [← hSplit]
  obtain hNil | ⟨front, c, hKept⟩ := List.eq_nil_or_concat (kept line)
  · rw [hNil]
    rfl
  · -- the last character kept is a separator
    have hLast : ∀ hNe : kept line ≠ [], ¬ isalnum ((kept line).getLast hNe) = true :=
      fun hNe => List.rdropWhile_last_not isalnum (cString line) hNe
    have hc : isalnum c = false := by
      simp only [hKept, List.concat_eq_append, List.getLast_concat] at hLast
      exact Bool.eq_false_iff.mpr (hLast (List.concat_ne_nil _ _))
    rw [hKept, List.concat_eq_append, List.append_assoc, List.singleton_append, keptStems_append_cons stem hc,
      keptStems_append_cons stem hc]
    exact congrArg (· ++ _) (List.append_nil _).symm

theorem occurrences_line (line x : Bytes) :
    occurrences stem line x = occurrences stem (kept line) x + occurrences stem (lost line) x := by
  rw [← count_keptStems, keptStems_line, List.count_append, count_keptStems, count_keptStems]

/-- How often `x` is counted in a text, and how often it is not. -/
def keptCount (body : List Bytes) (x : Bytes) : Nat := (body.map fun line => occurrences stem (kept line) x).sum

def lostCount (body : List Bytes) (x : Bytes) : Nat := (body.map fun line => occurrences stem (lost line) x).sum

theorem occurrences_text (body : List Bytes) (x : Bytes) :
    occurrences stem (Lines.text newline body) x = keptCount stem body x + lostCount stem body x := by
  induction body with
  | nil => rfl
  | cons line body ih =>
    have hText : Lines.text newline (line :: body) = line ++ newline :: Lines.text newline body := by
      rw [Lines.text, List.flatMap_cons, List.append_assoc]
      rfl
    rw [hText, ← count_keptStems, keptStems_append_cons stem rfl, List.count_append, count_keptStems, count_keptStems,
      occurrences_line, ih]
    simp only [keptCount, lostCount, List.map_cons, List.sum_cons]
    omega

end Counts

theorem count_bodyStems (stem : Stemmer) (body : List Bytes) (x : Bytes) :
    (bodyStems stem body).count x = keptCount (cut stem) body x := by
  rw [bodyStems, List.count_flatMap, keptCount]
  refine congrArg List.sum (List.map_congr_left fun line _ => ?_)
  exact count_keptStems _ _ _

theorem built_eq_iff (stem : Stemmer) (body : List Bytes) :
    built stem body = EnglishAnalyzer.extractUniqueKeywords (cut stem) (Lines.text newline body) ↔
      ∀ x, lostCount (cut stem) body x = 0 ∨
        2 ^ 32 ∣ lostCount (cut stem) body x ∧ 0 < keptCount (cut stem) body x := by
  rw [extractUniqueKeywords_eq, built, WordMap.countAll_eq_iff]
  apply forall_congr'
  intro x
  rw [← List.count_pos_iff, ← List.count_pos_iff, count_bodyStems, count_keptStems, occurrences_text]
  omega

section Agreement
variable {stem : Stemmer} (hStem : InPlace stem) (file : WikiFile)
  (hPlain : ∀ article ∈ file.articles, Plain article.body) {i : Nat} {article : Article}
  (hArticle : file.articles[i]? = some article) {memory : Nat → Nat → UInt8} {files : List Bytes}
  {plain : List WordMap} (hRun : extractFiles memory stem files (create memory) = .ok plain) {k : Nat}
  (hText : files[k]? = some (Lines.text newline article.body))
include hStem

include hPlain hArticle in
theorem getElem?_maps :
    ∃ maps, extractUniqueKeywordsWiki stem file.text = .ok maps ∧ maps[i]? = some (built stem article.body) := by
  obtain ⟨surplus, hMaps⟩ := extract_ok hStem file hPlain
  have hBuilt : (file.articles.map fun article => built stem article.body)[i]? = some (built stem article.body) := by
    rw [List.getElem?_map, hArticle]
    rfl
  refine ⟨_, hMaps, ?_⟩
  rw [List.getElem?_append_left (List.getElem?_eq_some_iff.mp hBuilt).1, hBuilt]

include hRun in
theorem getElem?_plain {text : Bytes} (hFile : files[k]? = some text) :
    plain[k]? = some (EnglishAnalyzer.extractUniqueKeywords (cut stem) text) := by
  obtain rfl := extractFiles_ok hStem (create_clean memory) hRun
  rw [List.getElem?_map, hFile]
  rfl

include hPlain hArticle hRun hText in
/-- In every file of articles an article has the map that its text has as a file of its own exactly when nothing
counts that the scan of a line leaves out. -/
theorem wiki_agrees_iff :
    ∃ maps, extractUniqueKeywordsWiki stem file.text = .ok maps ∧
      (maps[i]? = plain[k]? ↔ ∀ x, lostCount (cut stem) article.body x = 0 ∨
        2 ^ 32 ∣ lostCount (cut stem) article.body x ∧ 0 < keptCount (cut stem) article.body x) := by
  obtain ⟨maps, hMaps, hBuilt⟩ := getElem?_maps hStem file hPlain hArticle
  refine ⟨maps, hMaps, ?_⟩
  rw [hBuilt, getElem?_plain hStem hRun hText, ← built_eq_iff]
  exact Option.some_inj

end Agreement

/-- `<doc >` and `</doc>` around a text. -/
def tagged (body : List Bytes) (h : ∀ line ∈ body, newline ∉ line) : Article where
  opening := docStart ++ [0x3e]
  body := body
  closing := docEnd ++ [0x3e]
  opens := List.prefix_append _ _
  closes := List.prefix_rfl
  ended := by
    intro line hLine
    obtain rfl | hLine := List.mem_cons.mp hLine
    · decide
    · obtain hBody | hLast := List.mem_append.mp hLine
      · exact h line hBody
      · rw [List.mem_singleton.mp hLast]
        decide

def oneLine (line : Bytes) (h : newline ∉ line) : Article := tagged [line] (List.forall_mem_singleton.mpr h)

theorem oneLine_plain {line : Bytes} (h : newline ∉ line) (hTag : ¬ docStart <+: line ∧ ¬ docEnd <+: line) :
    ∀ article : Article, article ∈ [oneLine line h] → Plain article.body := by
  intro article hArticle
  rw [List.mem_singleton.mp hArticle]
  exact List.forall_mem_singleton.mpr hTag

theorem extractFiles_oneRun {text run : Bytes} (hRuns : alnumRuns text = [run]) (hShort : run.length ≤ inc)
    (memory : Nat → Nat → UInt8) : ∃ plain, extractFiles memory whole [text] (create memory) = .ok plain := by
  apply extractFiles_short whole_inPlace (create_clean memory)
  rintro t hText r hRun
  rw [List.mem_singleton.mp hText, hRuns] at hRun
  rw [List.mem_singleton.mp hRun]
  exact hShort

/-- `cat.` -/
theorem wiki_agrees_iff_sentence :
    ∃ plain, extractFiles endless whole [Lines.text newline [[0x63, 0x61, 0x74, 0x2e]]] (create endless) =
        .ok plain ∧
      ∃ maps, extractUniqueKeywordsWiki whole
          (WikiFile.text ⟨[oneLine [0x63, 0x61, 0x74, 0x2e] (by decide)], true⟩) = .ok maps ∧
        maps[0]? = plain[0]? := by
  have hRuns : alnumRuns (Lines.text newline [[0x63, 0x61, 0x74, 0x2e]]) = [[0x63, 0x61, 0x74]] := by decide
  have hLost : lost [0x63, 0x61, 0x74, 0x2e] = [] := by decide
  obtain ⟨plain, hRun⟩ := extractFiles_oneRun hRuns (by decide) endless
  obtain ⟨maps, hMaps, hAgrees⟩ := wiki_agrees_iff whole_inPlace
    ⟨[oneLine [0x63, 0x61, 0x74, 0x2e] (by decide)], true⟩ (oneLine_plain (by decide) (by decide))
    List.getElem?_cons_zero hRun List.getElem?_cons_zero
  refine ⟨plain, hRun, maps, hMaps, hAgrees.mpr fun x => ?_⟩
  left
  change ([[0x63, 0x61, 0x74, 0x2e]].map fun line => occurrences (cut whole) (lost line) x).sum = 0
  rw [List.map_singleton, hLost]
  rfl

/-- `cat` at the end of its line. -/
theorem not_wiki_agrees_lineEnd :
    ¬ ∀ (stem : Stemmer), InPlace stem → ∀ file : WikiFile,
      (∀ article : Article, article ∈ file.articles → Plain article.body) →
      ∀ (i : Nat) (article : Article), file.articles[i]? = some article → ∀ memory files plain,
        extractFiles memory stem files (create memory) = .ok plain →
        ∀ k : Nat, files[k]? = some (Lines.text newline article.body) →
          ∃ maps, extractUniqueKeywordsWiki stem file.text = .ok maps ∧ maps[i]? = plain[k]? := by
  intro h
  have hRuns : alnumRuns (Lines.text newline [[0x63, 0x61, 0x74]]) = [[0x63, 0x61, 0x74]] := by decide
  have hPlain := oneLine_plain (show newline ∉ [0x63, 0x61, 0x74] by decide) (by decide)
  obtain ⟨plain, hRun⟩ := extractFiles_oneRun hRuns (by decide) endless
  obtain ⟨maps, hMaps, hEq⟩ := h whole whole_inPlace ⟨[oneLine [0x63, 0x61, 0x74] (by decide)], true⟩ hPlain 0 _
    List.getElem?_cons_zero _ _ plain hRun 0 List.getElem?_cons_zero
  obtain ⟨maps', hMaps', hBuilt⟩ := getElem?_maps whole_inPlace
    ⟨[oneLine [0x63, 0x61, 0x74] (by decide)], true⟩ hPlain List.getElem?_cons_zero
  cases hMaps.symm.trans hMaps'
  rw [hBuilt, getElem?_plain whole_inPlace hRun List.getElem?_cons_zero] at hEq
  have hCounts := (built_eq_iff whole [[0x63, 0x61, 0x74]]).mp (Option.some.inj hEq) [0x63, 0x61, 0x74]
  have hLost : lostCount (cut whole) [[0x63, 0x61, 0x74]] [0x63, 0x61, 0x74] = 1 := by decide +kernel
  rw [hLost] at hCounts
  omega

end Bisen.WikiExtractor
