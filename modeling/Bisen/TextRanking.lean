import Bisen.EvaluatorSets
import Bisen.Lib.Assoc
import Bisen.TextSearch

/-! # Ranking the texts that mention a word

A query that is one word frees no list, so scoring finds what was fetched. A build that scores then returns the ten
texts that weigh most: a text weighs as often as it has the stem of the word, times the logarithm of how rare the
stem is among the texts.
-/
namespace Bisen.TextRanking
open Wire SseClient SseIee QueryMessage EnglishAnalyzer WordBuffer StemmedText PorterStemmer PorterWords PrintedQuery
open PostingLists Session ClientProgram TextQuery TextSearch Response Ranking
set_option autoImplicit false

/-! ## What is fetched for a word -/

section Fetched
variable {P : Platform} {texts : List Bytes} {client : SseClient} {w : Bytes}

theorem countP_keywords (hWord : ∀ c ∈ w, QueryParser.isWordChar c = true) :
    (texts.map keywords).countP (fun words => QueryParser.stemWord porter w ∈ words.keys) =
      texts.countP fun text => Mentions text w := by
  rw [List.countP_map]
  refine List.countP_congr fun text _ => ?_
  rw [Function.comp_apply, decide_eq_true_iff, decide_eq_true_iff]
  exact mem_keywords_iff hWord

/-- The ids of a posting list, each with its frequency. -/
theorem lookup_posting {docs : List WordMap} (hDocs : docs.length < 2 ^ 31) {word : Bytes} {d : BitVec 32}
    {words : WordMap} (hGet : docs[d.toNat]? = some words) :
    ((posting docs word).map fun p => (BitVec.ofNat 32 p.1, p.2)).lookup d = words.frequency word := by
  have hToNat : ∀ p ∈ posting docs word, (BitVec.ofNat 32 p.1).toNat = p.1 := by
    intro p hp
    have hLt := lt_of_mem_posting hp
    rw [BitVec.toNat_ofNat, Nat.mod_eq_of_lt (by omega)]
  have hNodup : (((posting docs word).map fun p => (BitVec.ofNat 32 p.1, p.2)).map Prod.fst).Nodup := by
    have hSame : (((posting docs word).map fun p => (BitVec.ofNat 32 p.1, p.2)).map Prod.fst).map BitVec.toNat =
        (posting docs word).map Prod.fst := by
      rw [List.map_map, List.map_map]
      exact List.map_congr_left hToNat
    refine List.Nodup.of_map BitVec.toNat ?_
    rw [hSame]
    exact nodup_posting docs word
  have hMem : ∀ f, (d, f) ∈ (posting docs word).map (fun p => (BitVec.ofNat 32 p.1, p.2)) ↔
      words.frequency word = some f := by
    intro f
    constructor
    · intro h
      obtain ⟨p, hp, hEq⟩ := List.mem_map.mp h
      obtain ⟨words', hWords, hFrequency⟩ := mem_posting.mp (show (p.1, p.2) ∈ posting docs word from hp)
      obtain ⟨rfl, rfl⟩ := Prod.mk.inj hEq
      rw [hToNat p hp, hWords] at hGet
      cases hGet
      exact hFrequency
    · intro h
      refine List.mem_map.mpr ⟨(d.toNat, f), mem_posting.mpr ⟨words, hGet, h⟩, ?_⟩
      rw [BitVec.ofNat_toNat, BitVec.setWidth_eq]
  refine Option.ext fun f => ?_
  rw [← Assoc.mem_iff_lookup hNodup, hMem]

theorem elems_listOf (docs : List WordMap) (word : Bytes) :
    (SessionSearch.listOf docs word).elems = (posting docs word).map fun p => .ofNat 32 p.1 := by
  rw [VecInt.elems, SessionSearch.listOf]
  exact List.take_of_length_le (by rw [List.length_map])

/-- Every document that is fetched has its frequency beside it. -/
theorem aligned_fetched (hTexts : texts.length < 2 ^ 31) (word : Bytes) :
    Aligned (SessionSearch.fetchedTkn P (texts.map keywords) client (.operand word)) := by
  have hDocs : (texts.map keywords).length < 2 ^ 31 := by rwa [List.length_map]
  refine ⟨(SessionSearch.listOf_denotes hDocs _).sound, ?_⟩
  change (SessionSearch.listOf _ _).elems.length ≤ _
  rw [elems_listOf, List.length_map]
  exact (List.length_map _).ge

end Fetched

/-! ## The weight of a text -/

/-- How often a text has a word with the stem of `w`, in the `int` that is sent. -/
def countOf (text w : Bytes) : BitVec 32 := .ofNat 32 (occurrences porter text (QueryParser.stemWord porter w))

def weight (B : Build) (texts : List Bytes) (w text : Bytes) : B.R :=
  B.doubles.add B.doubles.zero (B.doubles.mul (B.doubles.ofInt (countOf text w))
    (B.doubles.log10 (B.doubles.div (B.doubles.ofUnsigned texts.length)
      (B.doubles.ofUnsigned (texts.countP fun text => Mentions text w)))))

theorem frequency_keywords {text w : Bytes} (hWord : ∀ c ∈ w, QueryParser.isWordChar c = true)
    (hMentions : Mentions text w) :
    (keywords text).frequency (QueryParser.stemWord porter w) = some (countOf text w) := by
  have hKey := (mem_keywords_iff hWord).mpr hMentions
  rw [keywords, extractUniqueKeywords_eq] at hKey ⊢
  have hFrequency := WordMap.frequency_empty_countAll (keptStems porter text) (QueryParser.stemWord porter w)
  split at hFrequency
  · rw [hFrequency, count_keptStems, countOf]
  · exact absurd hKey (frequency_eq_none_iff.mp hFrequency)

section Score
variable {P : Platform} (B : Build) {texts : List Bytes} (hTexts : texts.length < 2 ^ 31) {client : SseClient}
  {w : Bytes} (hWord : ∀ c ∈ w, QueryParser.isWordChar c = true)

include hTexts hWord in
/-- What scoring computes for a text that mentions the word. -/
theorem score_eq_weight {query : VecToken} (hElems : query.elems =
      [SessionSearch.fetchedTkn P (texts.map keywords) client (.operand (QueryParser.stemWord porter w))])
    {d : BitVec 32} {text : Bytes} (hGet : texts[d.toNat]? = some text) (hMentions : Mentions text w) :
    score B query (.ofNat 32 texts.length) d = weight B texts w text := by
  have hDocs : (texts.map keywords).length < 2 ^ 31 := by rwa [List.length_map]
  have hKeywords : (texts.map keywords)[d.toNat]? = some (keywords text) := by rw [List.getElem?_map, hGet]; rfl
  have hLookup : _ = (keywords text).frequency (QueryParser.stemWord porter w) := lookup_posting hDocs hKeywords
  rw [frequency_keywords hWord hMentions] at hLookup
  generalize hTkn : SessionSearch.fetchedTkn P (texts.map keywords) client
    (.operand (QueryParser.stemWord porter w)) = tkn at hElems
  have hList : tkn.docs.elems =
      (posting (texts.map keywords) (QueryParser.stemWord porter w)).map fun p => .ofNat 32 p.1 := by
    rw [← hTkn]
    exact elems_listOf _ _
  have hFrequencies : tkn.docFrequencies.array =
      (posting (texts.map keywords) (QueryParser.stemWord porter w)).map Prod.snd := by
    rw [← hTkn]
    rfl
  have hFrequency : frequency tkn d = countOf text w := by
    rw [frequency, hList, hFrequencies, List.zip_map', hLookup]
    rfl
  have hMem : d ∈ tkn.docs.elems := by
    have hKey := Assoc.mem_keys_iff_lookup.mpr ⟨_, hLookup⟩
    rw [List.map_map] at hKey
    rw [hList]
    exact hKey
  have hIdf : idf B (.ofNat 32 texts.length) tkn = B.doubles.log10 (B.doubles.div
      (B.doubles.ofUnsigned texts.length) (B.doubles.ofUnsigned (texts.countP fun text => Mentions text w))) := by
    rw [idf, if_neg (List.ne_nil_of_mem hMem), hList, List.length_map, length_posting, countP_keywords hWord,
      BitVec.toNat_ofNat, Nat.mod_eq_of_lt (by omega)]
  have hHits : hits query d = [tkn] := by
    have hType : tkn.type = wordToken := by
      rw [← hTkn]
      rfl
    rw [hits, hElems]
    simp [hType, hMem]
  rw [score, hHits, weight, ← hFrequency, ← hIdf]
  rfl

end Score

/-! ## The ranking -/

/-- A query without operators is found as it was fetched, for evaluating it frees nothing. -/
def KeepsWords (B : Build) : Prop :=
  ∀ query : VecToken, (∀ t ∈ query.elems, ¬ EvaluatorSets.isOperator t) → B.reread query = query

/-- The texts that mention a word, with their weights: the ten that weigh most, in order. -/
structure Ranks (B : Build) (texts : List Bytes) (w : Bytes) (results : List (BitVec 32 × Option B.R)) : Prop where
  count : results.length = min 10 (texts.countP fun text => Mentions text w)
  nodup : (results.map Prod.fst).Nodup
  weighed : ∀ p ∈ results, ∃ text, texts[p.1.toNat]? = some text ∧ Mentions text w ∧
    p.2 = some (weight B texts w text)
  sorted : results.Pairwise fun p q => ∀ x ∈ p.2, ∀ y ∈ q.2, y ≤ x
  best : ∀ i text, texts[i]? = some text → Mentions text w → BitVec.ofNat 32 i ∉ results.map Prod.fst →
    ∀ p ∈ results, ∀ x ∈ p.2, weight B texts w text ≤ x

section Word
variable {P : Platform} {B : Build} (hB : B.Documented) {texts : List Bytes} (hTexts : texts.length < 2 ^ 31)
  {w : Bytes}

theorem eq_decode_of_readReply {reply : Bytes} {results : List (BitVec 32 × Option B.R)}
    (h : readReply B reply = .ok results) : results = Response.decode B reply := by
  unfold readReply at h
  generalize (if (slice reply 8 1).getD 0 0 ≠ 0 then 4 + 8 else 4) = pairLen at h
  dsimp only at h
  split at h
  · cases h
  · cases h
    rfl

/-- One word finds as many documents as texts mention it. -/
theorem viSize_of_denotes (hTexts : texts.length < 2 ^ 31) (hWord : ∀ c ∈ w, QueryParser.isWordChar c = true)
    {docs : VecInt} (h : VecInt.Denotes (texts.map keywords).length docs
      ((Postfix.Expr.atom (QueryParser.stemWord porter w)).eval (SessionSearch.containing (texts.map keywords)))) :
    VecInt.viSize docs = texts.countP fun text => Mentions text w := by
  have hDocs : (texts.map keywords).length < 2 ^ 31 := by rwa [List.length_map]
  have hList : VecInt.Denotes (texts.map keywords).length
      (SessionSearch.listOf (texts.map keywords) (QueryParser.stemWord porter w))
      ((Postfix.Expr.atom (QueryParser.stemWord porter w)).eval (SessionSearch.containing (texts.map keywords))) :=
    SessionSearch.listOf_denotes hDocs (QueryParser.stemWord porter w)
  have hPerm : docs.elems.Perm (SessionSearch.listOf (texts.map keywords) (QueryParser.stemWord porter w)).elems := by
    refine (List.perm_ext_iff_of_nodup h.nodup hList.nodup).mpr fun id => ?_
    rw [EndToEnd.mem_denoted h id, EndToEnd.mem_denoted hList id]
  rw [VecInt.viSize, ← VecInt.length_elems h.sound, hPerm.length_eq, elems_listOf, List.length_map, length_posting,
    countP_keywords hWord]

include hB hTexts

theorem ranks_of_found (hScoring : B.bisenScoring = true) (hKeeps : KeepsWords B) (hWord : Writable w)
    {results : List (BitVec 32 × Option B.R)} (h : Found P B texts (.atom w) results) : Ranks B texts w results := by
  obtain ⟨client, ev, hElems, hNDocs, hDenotes, hRead⟩ := h
  have hElems : ev.query.elems =
    [SessionSearch.fetchedTkn P (texts.map keywords) client (.operand (QueryParser.stemWord porter w))] := hElems
  have hSize := size_of_denotes hTexts hDenotes
  have hReread : B.reread ev.query = ev.query := by
    refine hKeeps _ fun t ht => ?_
    rw [hElems] at ht
    rw [List.mem_singleton.mp ht]
    rintro (hType | hType | hType) <;> cases hType
  have hAligned : ∀ t ∈ ev.query.elems, t.type = wordToken → Aligned t := by
    intro t ht _
    rw [hElems] at ht
    rw [List.mem_singleton.mp ht]
    exact aligned_fetched hTexts _
  have hRanked := (decode_respond_ranked hB ev.nDocs hAligned hDenotes.sound (hSize.trans (by decide))).1 hScoring
  rw [hReread] at hRead
  rw [← eq_decode_of_readReply hRead] at hRanked
  have hMem : ∀ d, d ∈ ev.responseDocs.elems ↔ ∃ text, texts[d.toNat]? = some text ∧ Mentions text w :=
    mem_denoted_texts (e := .atom w) (fun v hv => by rwa [List.mem_singleton.mp hv]) hDenotes
  have hScore : ∀ d text, texts[d.toNat]? = some text → Mentions text w →
      score B ev.query ev.nDocs d = weight B texts w text := by
    intro d text hGet hMentions
    rw [hNDocs]
    exact score_eq_weight B hTexts hWord.2 hElems hGet hMentions
  have hListed : ∀ p ∈ results, ∀ x ∈ p.2, x = score B ev.query ev.nDocs p.1 := by
    intro p hp x hx
    rw [(hRanked.listed p hp).2] at hx
    exact (Option.some.inj hx).symm
  constructor
  case count => rw [hRanked.count, viSize_of_denotes hTexts hWord.2 hDenotes]
  case nodup => exact hRanked.nodup hDenotes.nodup
  case weighed =>
    intro p hp
    obtain ⟨hFound, hValue⟩ := hRanked.listed p hp
    obtain ⟨text, hGet, hMentions⟩ := (hMem p.1).mp hFound
    exact ⟨text, hGet, hMentions, by rw [hValue, hScore p.1 text hGet hMentions]⟩
  case sorted =>
    refine hRanked.sorted.imp_of_mem fun hp hq hLe x hx y hy => ?_
    rwa [hListed _ hp x hx, hListed _ hq y hy]
  case best =>
    intro i text hGet hMentions hOut p hp x hx
    have hLt := (List.getElem?_eq_some_iff.mp hGet).1
    have hId : (BitVec.ofNat 32 i).toNat = i := by rw [BitVec.toNat_ofNat, Nat.mod_eq_of_lt (by omega)]
    rw [← hId] at hGet
    rw [hListed p hp x hx, ← hScore _ text hGet hMentions]
    exact hRanked.best _ ((hMem _).mpr ⟨text, hGet, hMentions⟩) hOut p hp

end Word

end Bisen.TextRanking
