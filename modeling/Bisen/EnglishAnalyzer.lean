import Bisen.PrintedQuery
import Mathlib.Data.List.TakeWhile

/-! # Words of a document and words of a query

`extractUniqueKeywords` counts the stemmed alphanumeric runs of a document that are no stop words.
The parser takes whatever stands between spaces and operators for a word. The two agree on a
piece of text, whatever the stemmer does, exactly when it is one alphanumeric run.
-/
namespace Bisen
open Wire QueryParser
set_option autoImplicit false

namespace WordMap

/-- `if(word_map[s]) word_map[s]++; else word_map[s] = 1;` on the pairs in order. -/
def countIn (s : Bytes) : List (Bytes × BitVec 32) → List (Bytes × BitVec 32)
  | [] => [(s, 1)]
  | (w, n) :: entries =>
    if s < w then (s, 1) :: (w, n) :: entries
    else if s = w then (w, if n ≠ 0 then n + 1 else 1) :: entries
    else (w, n) :: countIn s entries

theorem mem_countIn {s v : Bytes} {entries : List (Bytes × BitVec 32)} :
    v ∈ (countIn s entries).map Prod.fst ↔ v = s ∨ v ∈ entries.map Prod.fst := by
  induction entries with
  | nil => exact List.mem_cons
  | cons e entries ih =>
    obtain ⟨w, n⟩ := e
    rw [countIn]
    split
    · exact List.mem_cons
    split
    · case isTrue _ hEq =>
      subst hEq
      exact (or_iff_right_of_imp fun h => h ▸ List.mem_cons_self).symm
    · rw [List.map_cons, List.mem_cons, ih, List.map_cons, List.mem_cons]
      exact or_left_comm

theorem countIn_sorted {s : Bytes} {entries : List (Bytes × BitVec 32)}
    (h : (entries.map Prod.fst).Pairwise (· < ·)) : ((countIn s entries).map Prod.fst).Pairwise (· < ·) := by
  induction entries with
  | nil => exact List.pairwise_singleton _ _
  | cons e entries ih =>
    obtain ⟨w, n⟩ := e
    rw [List.map_cons, List.pairwise_cons] at h
    rw [countIn]
    split
    · case isTrue hLt =>
      refine List.pairwise_cons.mpr ⟨?_, List.pairwise_cons.mpr h⟩
      intro v hv
      obtain rfl | hRest := List.mem_cons.mp hv
      · exact hLt
      · exact List.lt_trans hLt (h.1 v hRest)
    split
    · exact List.pairwise_cons.mpr h
    · case isFalse hGe hNe =>
      refine List.pairwise_cons.mpr ⟨?_, ih h.2⟩
      intro v hv
      obtain rfl | hRest := mem_countIn.mp hv
      · exact Decidable.byContradiction fun hLe => hNe (List.le_antisymm hLe hGe)
      · exact h.1 v hRest

def count (words : WordMap) (s : Bytes) : WordMap := ⟨countIn s words.entries, countIn_sorted words.sorted⟩

@[simp] theorem mem_keys_empty {v : Bytes} : v ∉ empty.keys := List.not_mem_nil

theorem mem_keys_count {words : WordMap} {s v : Bytes} : v ∈ (words.count s).keys ↔ v = s ∨ v ∈ words.keys :=
  mem_countIn

end WordMap

namespace EnglishAnalyzer

def stopWords : List String :=
  ["a", "able", "about", "above", "according", "accordingly", "across", "actually", "after", "afterwards",
   "again", "against", "all", "allow", "allows", "almost", "alone", "along", "already", "also", "although",
   "always", "am", "among", "amongst", "an", "and", "another", "any", "anybody", "anyhow", "anyone",
   "anything", "anyway", "anyways", "anywhere", "apart", "appear", "appreciate", "appropriate", "are",
   "around", "as", "aside", "ask", "asking", "associated", "at", "available", "away", "awfully", "b", "be",
   "became", "because", "become", "becomes", "becoming", "been", "before", "beforehand", "behind", "being",
   "believe", "below", "beside", "besides", "best", "better", "between", "beyond", "both", "brief", "but",
   "by", "c", "came", "can", "cannot", "cant", "cause", "causes", "certain", "certainly", "changes",
   "clearly", "co", "com", "come", "comes", "concerning", "consequently", "consider", "considering",
   "contain", "containing", "contains", "corresponding", "could", "course", "currently", "d", "definitely",
   "described", "despite", "did", "different", "do", "does", "doing", "done", "down", "downwards", "during",
   "e", "each", "edu", "eg", "eight", "either", "else", "elsewhere", "enough", "entirely", "especially", "et",
   "etc", "even", "ever", "every", "everybody", "everyone", "everything", "everywhere", "ex", "exactly",
   "example", "except", "f", "far", "few", "fifth", "first", "five", "followed", "following", "follows",
   "for", "former", "formerly", "forth", "four", "from", "further", "furthermore", "g", "get", "gets",
   "getting", "given", "gives", "go", "goes", "going", "gone", "got", "gotten", "greetings", "h", "had",
   "happens", "hardly", "has", "have", "having", "he", "hello", "help", "hence", "her", "here", "hereafter",
   "hereby", "herein", "hereupon", "hers", "herself", "hi", "him", "himself", "his", "hither", "hopefully",
   "how", "howbeit", "however", "i", "ie", "if", "ignored", "immediate", "in", "inasmuch", "inc", "indeed",
   "indicate", "indicated", "indicates", "inner", "insofar", "instead", "into", "inward", "is", "it", "its",
   "itself", "j", "just", "k", "keep", "keeps", "kept", "know", "knows", "known", "l", "last", "lately",
   "later", "latter", "latterly", "least", "less", "lest", "let", "like", "liked", "likely", "little", "ll",
   "look", "looking", "looks", "ltd", "m", "mainly", "many", "may", "maybe", "me", "mean", "meanwhile",
   "merely", "might", "more", "moreover", "most", "mostly", "much", "must", "my", "myself", "n", "name",
   "namely", "nd", "near", "nearly", "necessary", "need", "needs", "neither", "never", "nevertheless", "new",
   "next", "nine", "no", "nobody", "non", "none", "noone", "nor", "normally", "not", "nothing", "novel",
   "now", "nowhere", "o", "obviously", "of", "off", "often", "oh", "ok", "okay", "old", "on", "once", "one",
   "ones", "only", "onto", "or", "other", "others", "otherwise", "ought", "our", "ours", "ourselves", "out",
   "outside", "over", "overall", "own", "p", "particular", "particularly", "per", "perhaps", "placed",
   "please", "plus", "possible", "presumably", "probably", "provides", "q", "que", "quite", "qv", "r",
   "rather", "rd", "re", "really", "reasonably", "regarding", "regardless", "regards", "relatively",
   "respectively", "right", "s", "said", "same", "saw", "say", "saying", "says", "second", "secondly", "see",
   "seeing", "seem", "seemed", "seeming", "seems", "seen", "self", "selves", "sensible", "sent", "serious",
   "seriously", "seven", "several", "shall", "she", "should", "since", "six", "so", "some", "somebody",
   "somehow", "someone", "something", "sometime", "sometimes", "somewhat", "somewhere", "soon", "sorry",
   "specified", "specify", "specifying", "still", "sub", "such", "sup", "sure", "t", "take", "taken", "tell",
   "tends", "th", "than", "thank", "thanks", "thanx", "that", "thats", "the", "their", "theirs", "them",
   "themselves", "then", "thence", "there", "thereafter", "thereby", "therefore", "therein", "theres",
   "thereupon", "these", "they", "think", "third", "this", "thorough", "thoroughly", "those", "though",
   "three", "through", "throughout", "thru", "thus", "to", "together", "too", "took", "toward", "towards",
   "tried", "tries", "truly", "try", "trying", "twice", "two", "u", "un", "under", "unfortunately", "unless",
   "unlikely", "until", "unto", "up", "upon", "us", "use", "used", "useful", "uses", "using", "usually",
   "uucp", "v", "value", "various", "ve", "very", "via", "viz", "vs", "w", "want", "wants", "was", "way",
   "we", "welcome", "well", "went", "were", "what", "whatever", "when", "whence", "whenever", "where",
   "whereafter", "whereas", "whereby", "wherein", "whereupon", "wherever", "whether", "which", "while",
   "whither", "who", "whoever", "whole", "whom", "whose", "why", "will", "willing", "wish", "with", "within",
   "without", "wonder", "would", "would", "x", "y", "yes", "yet", "you", "your", "yours", "yourself",
   "yourselves", "z", "zero"]

/-- `INC`, by which the buffer of a word grows. -/
def inc : Nat := 50

def isStopWord (word : Bytes) : Bool := stopWords.any fun s => s.toUTF8.toList == word

/-- `isalnum` in the C locale. -/
def isalnum (c : UInt8) : Bool :=
  (0x30 ≤ c && c ≤ 0x39) || (0x41 ≤ c && c ≤ 0x5a) || (0x61 ≤ c && c ≤ 0x7a)

/-- The loop over the file. Every round takes a character, so the length of the text is fuel
enough. -/
def readWords (stem : Bytes → Bytes) : Nat → Bytes → WordMap → WordMap
  | 0, _, words => words
  | _ + 1, [], words => words
  | fuel + 1, ch :: rest, words =>
    if isalnum ch then
      let s := ((ch :: rest).takeWhile isalnum).map tolower
      let words := if !isStopWord s then words.count (cString (stem s)) else words
      readWords stem fuel ((ch :: rest).dropWhile isalnum) words
    else readWords stem fuel rest words

def extractUniqueKeywords (stem : Bytes → Bytes) (text : Bytes) : WordMap :=
  readWords stem text.length text .empty

/-- Behind a word longer than `inc` the grown buffer is not initialised, and the check reads on
into it: no stop word is long enough to match. -/
theorem isStopWord_grown {word : Bytes} (tail : Bytes) (h : inc < word.length) :
    isStopWord (word ++ tail) = isStopWord word := by
  have hShort : ∀ s ∈ stopWords, s.toUTF8.toList.length ≤ inc := by decide +kernel
  have hLong : ∀ b : Bytes, inc < b.length → isStopWord b = false := by
    intro b hb
    rw [isStopWord, List.any_eq_false]
    intro s hs hEq
    have hLength := congrArg List.length (beq_iff_eq.mp hEq)
    have := hShort s hs
    omega
  rw [hLong word h, hLong (word ++ tail) (by rw [List.length_append]; omega)]

/-! ## The keys of the map -/

/-- The maximal runs of alphanumeric characters. -/
def alnumRuns (text : Bytes) : List Bytes := (text.splitOnP fun c => !isalnum c).filter (· ≠ [])

theorem eq_false_of_mem_splitOnP {α : Type} {p : α → Bool} {xs piece : List α} (h : piece ∈ xs.splitOnP p) :
    ∀ x ∈ piece, p x = false := by
  induction xs generalizing piece with
  | nil =>
    obtain rfl := List.mem_singleton.mp h
    exact fun x hx => absurd hx List.not_mem_nil
  | cons y xs ih =>
    rw [List.splitOnP_cons_eq_if_modifyHead] at h
    split at h
    · obtain rfl | hMem := List.mem_cons.mp h
      · exact fun x hx => absurd hx List.not_mem_nil
      · exact ih hMem
    · case isFalse hy =>
      obtain ⟨head, rest, hSplit⟩ := List.exists_cons_of_ne_nil (List.splitOnP_ne_nil p xs)
      rw [hSplit] at h ih
      obtain rfl | hMem := List.mem_cons.mp h
      · intro x hx
        obtain rfl | hx := List.mem_cons.mp hx
        · exact Bool.eq_false_iff.mpr hy
        · exact ih List.mem_cons_self x hx
      · exact ih (List.mem_cons_of_mem _ hMem)

theorem isalnum_of_mem_alnumRuns {text run : Bytes} (h : run ∈ alnumRuns text) :
    ∀ c ∈ run, isalnum c = true := by
  intro c hc
  have hSep := eq_false_of_mem_splitOnP (List.mem_of_mem_filter h) c hc
  simpa using hSep

theorem alnumRuns_cons_of_neg {c : UInt8} (hc : isalnum c = false) (text : Bytes) :
    alnumRuns (c :: text) = alnumRuns text := by
  rw [alnumRuns, List.splitOnP_cons_eq_if_modifyHead, if_pos (by simp [hc]), List.filter_cons_of_neg (by simp)]
  rfl

theorem alnumRuns_of_forall {run : Bytes} (hNil : run ≠ []) (hRun : ∀ c ∈ run, isalnum c = true) :
    alnumRuns run = [run] := by
  rw [alnumRuns, List.splitOnP_eq_singleton fun c hc => by simp [hRun c hc]]
  exact List.filter_cons_of_pos (by simp [hNil])

theorem alnumRuns_append {run rest : Bytes} (hNil : run ≠ []) (hRun : ∀ c ∈ run, isalnum c = true)
    (hEnd : ∀ c, rest.head? = some c → isalnum c = false) : alnumRuns (run ++ rest) = run :: alnumRuns rest := by
  cases rest with
  | nil => rw [List.append_nil, alnumRuns_of_forall hNil hRun]; rfl
  | cons c rest =>
    have hc : isalnum c = false := hEnd c rfl
    rw [alnumRuns_cons_of_neg hc, alnumRuns, List.splitOnP_append_cons_of_forall_mem
      (fun c hc => by simp [hRun c hc]) c (by simp [hc]), List.filter_cons_of_pos (by simp [hNil])]
    rfl

theorem alnumRuns_cons_of_pos {c : UInt8} (hc : isalnum c = true) (rest : Bytes) :
    alnumRuns (c :: rest) = (c :: rest).takeWhile isalnum :: alnumRuns ((c :: rest).dropWhile isalnum) := by
  have hSplit : (c :: rest).takeWhile isalnum ++ (c :: rest).dropWhile isalnum = c :: rest :=
    List.takeWhile_append_dropWhile
  conv_lhs => rw [← hSplit]
  apply alnumRuns_append
  · rw [List.takeWhile_cons_of_pos hc]
    exact List.cons_ne_nil _ _
  · exact fun x hx => List.mem_takeWhile_imp hx
  · intro x hx
    have hNot := List.head?_dropWhile_not isalnum (c :: rest)
    rwa [hx] at hNot

/-- A round takes at least one character. -/
theorem length_dropWhile_le {c : UInt8} (hc : isalnum c = true) {rest : Bytes} {fuel : Nat}
    (hFuel : rest.length + 1 ≤ fuel + 1) : ((c :: rest).dropWhile isalnum).length ≤ fuel := by
  rw [List.dropWhile_cons_of_pos hc]
  have hShorter := (List.dropWhile_sublist isalnum (l := rest)).length_le
  omega

theorem mem_readWords (stem : Bytes → Bytes) {fuel : Nat} {text : Bytes} (hFuel : text.length ≤ fuel)
    {words : WordMap} {w : Bytes} :
    w ∈ (readWords stem fuel text words).keys ↔ w ∈ words.keys ∨
      ∃ run ∈ alnumRuns text, isStopWord (run.map tolower) = false ∧ w = stemWord stem run := by
  induction fuel generalizing text words with
  | zero =>
    obtain rfl := List.eq_nil_of_length_eq_zero (Nat.le_zero.mp hFuel)
    simp [readWords, alnumRuns]
  | succ fuel ih =>
    cases text with
    | nil => simp [readWords, alnumRuns]
    | cons c rest =>
      rw [List.length_cons] at hFuel
      rw [readWords]
      split
      · case isTrue hc =>
        have hRuns := alnumRuns_cons_of_pos hc rest
        have hLength := length_dropWhile_le hc hFuel
        simp only [ih hLength, hRuns, List.mem_cons, exists_eq_or_imp]
        cases hStop : isStopWord (((c :: rest).takeWhile isalnum).map tolower) with
        | true => simp
        | false =>
          rw [Bool.not_false, if_pos rfl, WordMap.mem_keys_count]
          simp only [true_and]
          rw [or_assoc, or_left_comm]
          rfl
      · case isFalse hc =>
        rw [ih (by omega), alnumRuns_cons_of_neg (Bool.eq_false_iff.mpr hc)]

theorem mem_keys_extractUniqueKeywords (stem : Bytes → Bytes) {text w : Bytes} :
    w ∈ (extractUniqueKeywords stem text).keys ↔
      ∃ run ∈ alnumRuns text, isStopWord (run.map tolower) = false ∧ w = stemWord stem run := by
  rw [extractUniqueKeywords, mem_readWords stem (Nat.le_refl _)]
  exact or_iff_right WordMap.mem_keys_empty

/-! ## A piece of text as a query -/

/-- A piece of text with no operator in it that keeps a word in every analysis. -/
structure Chunk (p : Bytes) : Prop where
  nonempty : p ≠ []
  ascii : ∀ c ∈ p, c < 0x80
  isWordChar : ∀ c ∈ p, isWordChar c = true
  alnumRuns : alnumRuns p ≠ []
  runs_kept : ∀ run ∈ EnglishAnalyzer.alnumRuns p, isStopWord (run.map tolower) = false
  kept : isStopWord (p.map tolower) = false

/-- Every word of the query `p` is a keyword of the document `p`. -/
def Agrees (stem : Bytes → Bytes) (p : Bytes) : Prop :=
  ∀ tkn ∈ tokenize stem p, tkn.type = wordToken → tkn.word ∈ (extractUniqueKeywords stem p).keys

instance (stem : Bytes → Bytes) (p : Bytes) : Decidable (Agrees stem p) :=
  inferInstanceAs (Decidable (∀ tkn ∈ tokenize stem p, tkn.type = wordToken →
    tkn.word ∈ (extractUniqueKeywords stem p).keys))

theorem Chunk.tokenize {p : Bytes} (h : Chunk p) (stem : Bytes → Bytes) :
    tokenize stem p = [wordTkn (stemWord stem p)] := by
  have hWord := PrintedQuery.tokenize_word stem (w := p) (s := []) ⟨h.nonempty, h.isWordChar⟩ (by simp)
  rwa [List.append_nil] at hWord

theorem Chunk.agrees_iff {p : Bytes} (h : Chunk p) (stem : Bytes → Bytes) :
    Agrees stem p ↔ ∃ run ∈ EnglishAnalyzer.alnumRuns p, stemWord stem run = stemWord stem p := by
  rw [Agrees, h.tokenize stem]
  simp only [List.mem_singleton, forall_eq, wordTkn, forall_const, mem_keys_extractUniqueKeywords]
  constructor
  · rintro ⟨run, hRun, _, hEq⟩
    exact ⟨run, hRun, hEq.symm⟩
  · rintro ⟨run, hRun, hEq⟩
    exact ⟨run, hRun, h.runs_kept run hRun, hEq.symm⟩

theorem isalnum_tolower (c : UInt8) : isalnum (tolower c) = isalnum c := by
  unfold tolower isalnum
  grind

theorem tolower_eq_zero {c : UInt8} (h : tolower c = 0) : c = 0 := by
  unfold tolower at h
  grind

theorem stemWord_id {w : Bytes} (h : ∀ c ∈ w, c ≠ 0) : stemWord id w = w.map tolower := by
  rw [stemWord, id, cString, List.takeWhile_eq_self_iff]
  intro b hb
  obtain ⟨c, hc, rfl⟩ := List.mem_map.mp hb
  simpa using mt tolower_eq_zero (h c hc)

theorem Chunk.agrees_forall_iff {p : Bytes} (h : Chunk p) :
    (∀ stem, Agrees stem p) ↔ ∀ c ∈ p, isalnum c = true := by
  constructor
  · -- a stemmer that changes nothing tells a word from its runs
    intro hAgrees c hc
    obtain ⟨run, hRun, hEq⟩ := (h.agrees_iff id).mp (hAgrees id)
    have hAlnum := isalnum_of_mem_alnumRuns hRun
    have hRunNul : ∀ d ∈ run, d ≠ 0 := by
      rintro d hd rfl
      cases hAlnum 0 hd
    have hNul : ∀ d ∈ p, d ≠ 0 := by
      rintro d hd rfl
      cases h.isWordChar 0 hd
    rw [stemWord_id hRunNul, stemWord_id hNul] at hEq
    have hMem : tolower c ∈ run.map tolower := hEq ▸ List.mem_map_of_mem hc
    obtain ⟨d, hd, hLower⟩ := List.mem_map.mp hMem
    rw [← isalnum_tolower, ← hLower, isalnum_tolower]
    exact hAlnum d hd
  · intro hAlnum stem
    rw [h.agrees_iff]
    refine ⟨p, ?_, rfl⟩
    rw [alnumRuns_of_forall h.nonempty hAlnum]
    exact List.mem_singleton_self p

theorem protocol_not_stopWord :
    ∀ w ∈ [[0x74, 0x63, 0x70], [0x69, 0x70], [0x74, 0x63, 0x70, 0x2d, 0x69, 0x70]], isStopWord w = false := by
  decide +kernel

end EnglishAnalyzer
end Bisen
