import Bisen.EndToEnd
import Bisen.PrintedQuery
import Bisen.StemmedText

/-! # Queries over texts

The client cuts its query into words with the same stemmer that has cut the documents. A text mentions a word when
one of its own words has the same stem and is not left out as a stop word; a query is about texts by its words.
-/
namespace Bisen.TextQuery
open Wire QueryParser SseClient EnglishAnalyzer WordBuffer StemmedText PorterWords PrintedQuery QueryMessage
set_option autoImplicit false

/-! ## The tokenizer with the stemmer itself -/

/-- As `QueryParser.tokenizeFrom`, with the calls of `stemWord`; `old` is what its static variable holds. -/
def tokenizeFrom : Nat → Bytes → Int → Except Fault (List ClientToken × Int)
  | 0, _, old => .ok ([], old)
  | _ + 1, [], old => .ok ([], old)
  | fuel + 1, c :: rest, old =>
    if c = 0 then .ok ([], old)
    else if c = space then tokenizeFrom fuel rest old
    else if isOperator c then do
      let rest := if (c = andToken ∨ c = orToken) ∧ rest.head? = some c then rest.tail else rest
      let (tkns, old) ← tokenizeFrom fuel rest old
      return (opTkn c :: tkns, old)
    else do
      let (word, old) ← stemWord (((c :: rest).takeWhile isWordChar).map tolower) old
      let (tkns, old) ← tokenizeFrom fuel ((c :: rest).dropWhile isWordChar) old
      return (wordTkn word :: tkns, old)

def tokenize (query : Bytes) (old : Int) : Except Fault (List ClientToken × Int) :=
  tokenizeFrom query.length query old

/-- `SseClient::search` -/
def search (P : Platform) (client : SseClient) (query : Bytes) (old : Int) : Except Fault (Buffer × Int) := do
  let (infixQuery, old) ← tokenize query old
  let rpn ← shuntingYard infixQuery
  let data ← client.searchRpn P rpn
  return (data, old)

theorem tolower_tolower (c : UInt8) : tolower (tolower c) = tolower c := by
  unfold tolower
  grind

theorem nul_not_mem_wordChars {w : Bytes} (h : ∀ c ∈ w, isWordChar c = true) : (0 : UInt8) ∉ w.map tolower := by
  intro hMem
  obtain ⟨c, hc, hZero⟩ := List.mem_map.mp hMem
  have hChar := h c hc
  rw [tolower_eq_zero hZero] at hChar
  cases hChar

/-- The word is lowered before the call and again in it. -/
theorem stemWord_lowered {w : Bytes} (h : ∀ c ∈ w, isWordChar c = true) (old : Int) :
    ∃ j, stemWord (w.map tolower) old = .ok (QueryParser.stemWord porter w, j) := by
  have hNul := nul_not_mem_wordChars h
  have hTwice : (w.map tolower).map tolower = w.map tolower := by
    rw [List.map_map]
    exact List.map_congr_left fun c _ => tolower_tolower c
  obtain ⟨j, hStem⟩ := stemWord_eq hNul old
  refine ⟨j, ?_⟩
  rw [hStem, hTwice, QueryParser.stemWord, WikiExtractor.cString_of_not_mem (nul_not_mem_porter hNul)]

theorem tokenizeFrom_eq (fuel : Nat) (s : Bytes) (old : Int) :
    ∃ j, tokenizeFrom fuel s old = .ok (QueryParser.tokenizeFrom porter fuel s, j) := by
  induction fuel generalizing s old with
  | zero => exact ⟨old, rfl⟩
  | succ fuel ih =>
    cases s with
    | nil => exact ⟨old, rfl⟩
    | cons c rest =>
      rw [tokenizeFrom, QueryParser.tokenizeFrom]
      split
      · exact ⟨old, rfl⟩
      split
      · exact ih rest old
      split
      · obtain ⟨j, hRest⟩ := ih (if (c = andToken ∨ c = orToken) ∧ rest.head? = some c then rest.tail else rest) old
        refine ⟨j, ?_⟩
        dsimp only
        rw [hRest]
        rfl
      · obtain ⟨j, hWord⟩ := stemWord_lowered (w := (c :: rest).takeWhile isWordChar)
          (fun c hc => List.mem_takeWhile_imp hc) old
        obtain ⟨j', hRest⟩ := ih ((c :: rest).dropWhile isWordChar) j
        refine ⟨j', ?_⟩
        rw [hWord]
        change (tokenizeFrom fuel _ j >>= _) = _
        rw [hRest]
        rfl

/-- The search is that of a client which is given the stem of every word. -/
theorem search_eq (P : Platform) (client : SseClient) (query : Bytes) (old : Int) :
    ∃ j, search P client query old = (client.search P porter query).map fun data => (data, j) := by
  obtain ⟨j, hTokens⟩ := tokenizeFrom_eq query.length query old
  refine ⟨j, ?_⟩
  rw [search, tokenize, hTokens, SseClient.search, QueryParser.tokenize]
  change (shuntingYard _ >>= _) = _
  cases shuntingYard (QueryParser.tokenizeFrom porter query.length query) with
  | error e => rfl
  | ok rpn =>
    change (client.searchRpn P rpn >>= _) = Except.map _ (client.searchRpn P rpn)
    cases client.searchRpn P rpn with
    | error e => rfl
    | ok data => rfl

/-! ## What a query says of a text -/

/-- One of the words of the text that are counted has the stem of the word. -/
def Mentions (text word : Bytes) : Prop :=
  ∃ run ∈ alnumRuns text, isStopWord (run.map tolower) = false ∧ porter (run.map tolower) = porter (word.map tolower)

instance (text word : Bytes) : Decidable (Mentions text word) :=
  inferInstanceAs (Decidable (∃ run ∈ alnumRuns text, _))

/-- The text is as the query says when its words are read as the words it mentions. -/
def Describes (e : Postfix.Expr Bytes) (text : Bytes) : Prop := e.eval (Mentions text)

/-- How many labels the words of a query stand for. -/
def mentionTotal (texts : List Bytes) (e : Postfix.Expr Bytes) : Nat :=
  (e.atoms.map fun word => texts.countP fun text => Mentions text word).sum

/-- The map that is indexed for a text. -/
def keywords (text : Bytes) : WordMap := extractUniqueKeywords porter text

theorem stemWord_porter {w : Bytes} (h : (0 : UInt8) ∉ w.map tolower) :
    QueryParser.stemWord porter w = porter (w.map tolower) := by
  rw [QueryParser.stemWord, WikiExtractor.cString_of_not_mem (nul_not_mem_porter h)]

theorem stemWord_run {text run : Bytes} (h : run ∈ alnumRuns text) :
    QueryParser.stemWord porter run = porter (run.map tolower) :=
  stemWord_porter (WikiExtractor.nul_not_mem_tolower (isalnum_of_mem_alnumRuns h))

theorem mem_keywords_iff {text word : Bytes} (hWord : ∀ c ∈ word, isWordChar c = true) :
    QueryParser.stemWord porter word ∈ (keywords text).keys ↔ Mentions text word := by
  rw [keywords, mem_keys_extractUniqueKeywords, stemWord_porter (nul_not_mem_wordChars hWord)]
  constructor
  · rintro ⟨run, hRun, hKept, hEq⟩
    exact ⟨run, hRun, hKept, by rw [hEq, stemWord_run hRun]⟩
  · rintro ⟨run, hRun, hKept, hEq⟩
    exact ⟨run, hRun, hKept, by rw [stemWord_run hRun, hEq]⟩

theorem nulFree_keywords {text word : Bytes} (h : word ∈ (keywords text).keys) : NulFree word := by
  obtain ⟨run, hRun, _, rfl⟩ := (mem_keys_extractUniqueKeywords porter).mp h
  rw [stemWord_run hRun]
  rintro c hc rfl
  exact nul_not_mem_porter (WikiExtractor.nul_not_mem_tolower (isalnum_of_mem_alnumRuns hRun)) hc

section Expr
variable {e : Postfix.Expr Bytes} (hWords : ∀ w ∈ e.atoms, Writable w)
include hWords

theorem satisfies_iff (text : Bytes) :
    EndToEnd.Satisfies (keywords text) (e.map (QueryParser.stemWord porter)) ↔ Describes e text := by
  have hEval : e.eval ((· ∈ (keywords text).keys) ∘ QueryParser.stemWord porter) = e.eval (Mentions text) :=
    Postfix.Expr.eval_congr fun w hw => propext (mem_keywords_iff (hWords w hw).2)
  rw [EndToEnd.Satisfies, Postfix.Expr.eval_map, hEval, Describes]

theorem labelTotal_eq (texts : List Bytes) :
    EndToEnd.labelTotal (texts.map keywords) (e.map (QueryParser.stemWord porter)) = mentionTotal texts e := by
  rw [EndToEnd.labelTotal, mentionTotal, Postfix.Expr.atoms_map, List.map_map]
  refine congrArg List.sum (List.map_congr_left fun w hw => ?_)
  rw [Function.comp_apply, List.countP_map]
  refine List.countP_congr fun text _ => ?_
  rw [Function.comp_apply, List.contains_iff_mem, decide_eq_true_iff]
  exact mem_keywords_iff (hWords w hw).2

/-- What the client makes of a query that writes out an expression. -/
theorem search_renders (P : Platform) (client : SseClient) {query : Bytes} (hRenders : Renders e query) :
    client.search P porter query =
      client.searchRpn P ((e.map (QueryParser.stemWord porter)).postorder.map clientTkn) := by
  obtain ⟨written, rfl, hParens, hPrints⟩ := hRenders
  have hAtoms : written.expr.atoms = written.words := by rw [← hParens.coded_eq, Infix.atoms_coded]
  rw [hAtoms] at hWords
  have hStemmed := hParens.map (QueryParser.stemWord porter)
  rw [SseClient.search, tokenize_prints porter hPrints (isChain_tokens written) (words_tokens hWords), ← tokens_map,
    Infix.shuntingYard_tokens hStemmed.respects, hStemmed.rpn_eq, Infix.expr_map]
  rfl

end Expr

end Bisen.TextQuery
