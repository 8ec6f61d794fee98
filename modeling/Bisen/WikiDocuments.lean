import Bisen.WikiExtractor
import Bisen.BulkUpdate
import Bisen.EndToEnd
import Bisen.Lib.Simulation

/-! # Documents of a file of articles

The map for the next article is made when an article ends, so that a file leaves at least one map that belongs to
no article. `bisen_update` numbers it like the others, and every complement finds it.
-/
namespace Bisen.WikiDocuments
open Wire Socket SseClient SseIee Session EnglishAnalyzer WordBuffer WikiExtractor
set_option autoImplicit false

/-- The loop of `bisen_update` over files of articles: the client it leaves and the messages for the enclave. -/
def bisenUpdateWiki (P : Platform) (stem : Stemmer) (nrDocs : Nat) (client : SseClient) (nrUpdates : Nat) :
    List Bytes → Except Fault (SseClient × List Bytes)
  | [] => .ok (client, [])
  | doc :: docPaths => do
    let docs ← extractUniqueKeywordsWiki stem doc
    let nrUpdates := nrUpdates + docs.length
    let (client, buffer) ← BulkUpdate.bisenUpdate P client docs
    if 0 < nrDocs ∧ nrDocs ≤ nrUpdates then return (client, [buffer])
    else
      let (client, buffers) ← bisenUpdateWiki P stem nrDocs client nrUpdates docPaths
      return (client, buffer :: buffers)

/-! ## The number of maps -/

section Maps
variable {stem : Stemmer} {a a' : Articles}

theorem count_length (a : Articles) (t : Bytes) : (a.count t).wordMap.length = a.wordMap.length :=
  List.length_modify ..

theorem scanChar_length {s s' : Scan} {ch : UInt8} (h : scanChar stem s ch = .ok s') :
    s'.articles.wordMap.length = s.articles.wordMap.length := by
  rw [scanChar] at h
  split at h
  · obtain ⟨temp, _, hEq⟩ := bind_eq_ok_iff.mp h
    cases hEq
    rfl
  · obtain ⟨a, hCount, hEq⟩ := bind_eq_ok_iff.mp h
    cases hEq
    obtain ⟨word, _, hCount⟩ := bind_eq_ok_iff.mp hCount
    split at hCount
    · obtain ⟨stemmed, _, hCount⟩ := bind_eq_ok_iff.mp hCount
      obtain ⟨t, _, hEq⟩ := bind_eq_ok_iff.mp hCount
      cases hEq
      exact count_length _ t
    · cases hCount
      rfl

theorem readLine_length {line : Bytes} (h : readLine stem a line = .ok a') :
    a'.wordMap.length = a.wordMap.length + if line.take 5 = docEnd then 1 else 0 := by
  rw [readLine] at h
  split at h
  · case isTrue hStart =>
    cases h
    rw [hStart, if_neg (by decide), Nat.add_zero]
  split at h
  · case isTrue hEnd =>
    cases h
    rw [if_pos hEnd]
    exact List.length_append
  · case isFalse hEnd =>
    obtain ⟨s, hScan, hEq⟩ := bind_eq_ok_iff.mp h
    cases hEq
    rw [if_neg hEnd, Nat.add_zero]
    have hStep : ∀ (_ : Bytes) (c : UInt8) (s s' : Scan), s.articles.wordMap.length = a.wordMap.length →
        scanChar stem s c = .ok s' → s'.articles.wordMap.length = a.wordMap.length :=
      fun _ _ _ _ hLength hChar => (scanChar_length hChar).trans hLength
    exact @Simulation.foldlM_consumed _ _ _ (fun _ s => s.articles.wordMap.length = a.wordMap.length) _ hStep _ []
      _ _ rfl hScan

/-- How many lines end an article. -/
def closings (lines : List Bytes) : Nat := lines.countP fun line => line.take 5 = docEnd

theorem closings_append (lines lines' : List Bytes) : closings (lines ++ lines') = closings lines + closings lines' :=
  List.countP_append

/-- A file has one map more than lines that end an article. -/
theorem extract_length {file : Bytes} {maps : List WordMap} (h : extractUniqueKeywordsWiki stem file = .ok maps) :
    maps.length = closings (Lines.passed newline file) + 1 := by
  obtain ⟨a, hRun, hEq⟩ := bind_eq_ok_iff.mp h
  cases hEq
  rw [Lines.eachLine_eq _ (Nat.le_refl _)] at hRun
  have hStep : ∀ (lines : List Bytes) (line : Bytes) (a a' : Articles),
      a.wordMap.length = closings lines + 1 → readLine stem a line = .ok a' →
      a'.wordMap.length = closings (lines ++ [line]) + 1 := by
    intro lines line a a' hLength hLine
    have hOne : closings [line] = if line.take 5 = docEnd then 1 else 0 := by
      rw [closings, List.countP_singleton]
      simp only [decide_eq_true_eq]
    rw [readLine_length hLine, hLength, closings_append, hOne]
    omega
  exact @Simulation.foldlM_consumed _ _ _ (fun lines a => a.wordMap.length = closings lines + 1) _ hStep _ [] _ _ rfl
    hRun

theorem closings_le (file : WikiFile) : file.articles.length ≤ closings file.lines := by
  rw [WikiFile.lines]
  induction file.articles with
  | nil => exact Nat.le_refl 0
  | cons article articles ih =>
    have hEnd : article.closing.take 5 = docEnd := take_closing article
    have hOne : 0 < closings article.lines :=
      List.countP_pos_iff.mpr ⟨article.closing, by simp [Article.lines], by simp [hEnd]⟩
    rw [List.flatMap_cons, closings_append, List.length_cons]
    omega

/-- The last map of a file is empty and no article's. -/
theorem extract_last {file : WikiFile} {maps : List WordMap}
    (h : extractUniqueKeywordsWiki stem file.text = .ok maps) :
    ∃ front, maps = front ++ [.empty] ∧ file.articles.length ≤ front.length := by
  have hLength := extract_length h
  have hClosings := closings_le file
  have hFirst : ∀ a : Articles, file.lines.foldlM (readLine stem) .init = .ok a →
      ∃ front, a.wordMap = front ++ [.empty] := by
    intro a hRun
    obtain hNil | ⟨articles, last, hLast⟩ := List.eq_nil_or_concat file.articles
    · rw [WikiFile.lines, hNil] at hRun
      cases hRun
      exact ⟨[], rfl⟩
    · obtain ⟨before, hLines⟩ : ∃ before, file.lines = before ++ [last.closing] := by
        rw [WikiFile.lines, hLast, List.concat_eq_append, List.flatMap_append, List.flatMap_singleton, Article.lines,
          ← List.cons_append, ← List.append_assoc]
        exact ⟨_, rfl⟩
      rw [hLines, List.foldlM_append] at hRun
      obtain ⟨b, _, hClose⟩ := bind_eq_ok_iff.mp hRun
      rw [List.foldlM_cons, readLine_closing] at hClose
      cases hClose
      exact ⟨b.wordMap, rfl⟩
  rw [file.passed_text, closings_append] at hLength
  rw [extract_eq] at h
  obtain ⟨a', hRead, hEq⟩ := bind_eq_ok_iff.mp h
  cases hEq
  obtain ⟨a, hRun, hAgain⟩ := bind_eq_ok_iff.mp hRead
  obtain ⟨front, hFront⟩ : ∃ front, a'.wordMap = front ++ [.empty] := by
    obtain hNil | ⟨article, hClosing⟩ := file.again_cases
    · rw [hNil] at hAgain
      cases hAgain
      exact hFirst a hRun
    · rw [hClosing, readLine_closing] at hAgain
      cases hAgain
      exact ⟨a.wordMap, rfl⟩
  refine ⟨front, hFront, ?_⟩
  rw [hFront, List.length_append, List.length_singleton] at hLength
  omega

end Maps

/-! ## The number of documents -/

section Update
variable {P : Platform} {stem : Stemmer} {nrDocs : Nat}

/-- Every file of an update takes more numbers than it has articles. -/
theorem nDocs_bisenUpdateWiki {files : List WikiFile} {client client' : SseClient} {nrUpdates : Nat}
    {buffers : List Bytes}
    (h : bisenUpdateWiki P stem nrDocs client nrUpdates (files.map WikiFile.text) = .ok (client', buffers)) :
    client.nDocs.toInt +
          (((files.take buffers.length).map fun file => file.articles.length).sum + buffers.length : Nat) ≤
        client'.nDocs.toInt ∧ (files ≠ [] → buffers ≠ []) := by
  induction files generalizing client nrUpdates buffers with
  | nil =>
    cases h
    simp
  | cons file files ih =>
    rw [List.map_cons, bisenUpdateWiki] at h
    obtain ⟨docs, hDocs, h⟩ := bind_eq_ok_iff.mp h
    obtain ⟨⟨client₁, buffer⟩, hUpdate, h⟩ := bind_eq_ok_iff.mp h
    obtain ⟨⟨client₂, msgs⟩, hMsgs, hEq⟩ := bind_eq_ok_iff.mp hUpdate
    cases hEq
    obtain ⟨front, rfl, hFront⟩ := extract_last hDocs
    have hFile := BulkUpdate.nDocs_addDocuments hMsgs
    rw [List.length_append, List.length_singleton] at hFile
    by_cases hBreak : 0 < nrDocs ∧ nrDocs ≤ nrUpdates + (front ++ [WordMap.empty]).length
    · simp only [if_pos hBreak] at h
      cases h
      refine ⟨?_, fun _ => List.cons_ne_nil _ _⟩
      simp
      omega
    · simp only [if_neg hBreak] at h
      obtain ⟨⟨client₃, rest⟩, hRest, hEq⟩ := bind_eq_ok_iff.mp h
      cases hEq
      have hNext := (ih hRest).1
      refine ⟨?_, fun _ => List.cons_ne_nil _ _⟩
      rw [List.length_cons, List.take_succ_cons, List.map_cons, List.sum_cons]
      push_cast at hNext ⊢
      omega

end Update

/-! ## Documents without an article -/

/-- The search for `e` completes, and `id` is in its list. -/
def Returns (P : Platform) (B : Build) (r : Nat → Nat) (s : System) (e : Postfix.Expr Bytes) (id : BitVec 32) :
    Prop :=
  ∃ (b : Buffer) (enclave : Enclave) (ev : Evaluated) (link : Link) (out inn : List Bytes),
    s.client.searchRpn P (e.postorder.map clientTkn) = .ok b ∧
    Runs Link.peer (processMessage P B r s.enclave b.written) s.link
      (enclave, Response.respond B (B.reread ev.query) ev.nDocs ev.responseDocs) link out inn ∧
    id ∈ ev.responseDocs.elems

section Complement
variable {P : Platform} {B : Build} {r : Nat → Nat} {storage₀ : Storage} {enclave₀ : Enclave} {docs : List WordMap}
  {s : System} (h : Reached P B r storage₀ enclave₀ docs s)
include h

theorem reached_nDocs : s.client.nDocs.toInt = docs.length := by
  induction h with
  | setup _ => rfl
  | add _ hMsg _ ih =>
    rw [List.length_append, List.length_singleton, (BulkUpdate.nDocs_addNewDocument hMsg).1, ih]
    rfl
  | search _ _ _ ih => exact ih

/-- A complement finds every document without words. -/
theorem returns_of_empty {n : Nat} (hEmpty : docs[n]? = some .empty) {word : Bytes}
    (hFinds : EndToEnd.Finds P B r docs s (.neg (.atom word))) :
    Returns P B r s (.neg (.atom word)) (.ofNat 32 n) := by
  obtain ⟨b, enclave, ev, link, out, inn, hMsg, _, hReply, _, hMem⟩ := hFinds
  refine ⟨b, enclave, ev, link, out, inn, hMsg, hReply, (hMem _).mpr ⟨.empty, ?_, WordMap.mem_keys_empty⟩⟩
  have hLt := (List.getElem?_eq_some_iff.mp hEmpty).1
  have hDocs := reached_nDocs h
  have hMax := s.client.nDocs.toInt_lt
  rw [BitVec.toNat_ofNat, Nat.mod_eq_of_lt (by omega), hEmpty]

end Complement

/-- The maps are those of the articles, each made of the text of its own. -/
def OneMapEach (stem : Stemmer) (file : WikiFile) : Prop :=
  ∃ build : List Bytes → WordMap,
    extractUniqueKeywordsWiki stem file.text = .ok (file.articles.map fun article => build article.body)

theorem not_oneMapEach (stem : Stemmer) (file : WikiFile) : ¬ OneMapEach stem file := by
  rintro ⟨build, hMaps⟩
  obtain ⟨front, hLast, hLength⟩ := extract_last hMaps
  have hLengths := congrArg List.length hLast
  rw [List.length_map, List.length_append, List.length_singleton] at hLengths
  omega

/-- No file of articles has one map for each; every update numbers more documents than it has read articles; and
every search for a complement that completes returns a document that is no article's. -/
theorem surplus_documents (stem : Stemmer) (file : WikiFile) :
    ¬ OneMapEach stem file ∧
    (∀ (P : Platform) nrDocs client client' files buffers,
      bisenUpdateWiki P stem nrDocs client 0 ((file :: files).map WikiFile.text) = .ok (client', buffers) →
      client.nDocs.toInt +
          ((((file :: files).take buffers.length).map fun file => file.articles.length).sum : Nat) <
        client'.nDocs.toInt) ∧
    (∀ P B r storage₀ enclave₀ before maps after s word, extractUniqueKeywordsWiki stem file.text = .ok maps →
      Reached P B r storage₀ enclave₀ (before ++ maps ++ after) s →
      EndToEnd.Finds P B r (before ++ maps ++ after) s (.neg (.atom word)) →
      ∃ n, file.articles.length ≤ n ∧ n < maps.length ∧
        Returns P B r s (.neg (.atom word)) (.ofNat 32 (before.length + n))) := by
  refine ⟨not_oneMapEach stem file, ?_, ?_⟩
  · intro P nrDocs client client' files buffers h
    obtain ⟨hDocs, hSent⟩ := nDocs_bisenUpdateWiki h
    have hPos := List.length_pos_iff.mpr (hSent (List.cons_ne_nil _ _))
    omega
  · intro P B r storage₀ enclave₀ before maps after s word hMaps hReached hFinds
    obtain ⟨front, rfl, hFront⟩ := extract_last hMaps
    have hEmpty : (before ++ (front ++ [WordMap.empty]) ++ after)[before.length + front.length]? = some .empty := by
      simp
    refine ⟨front.length, hFront, ?_, returns_of_empty hReached hEmpty hFinds⟩
    rw [List.length_append, List.length_singleton]
    exact Nat.lt_add_one _

/-- An article without text. -/
def bare : WikiFile := ⟨[tagged [] (List.forall_mem_nil _)], true⟩

theorem not_oneMapEach_bare : ¬ ∀ stem file, OneMapEach stem file :=
  fun h => not_oneMapEach whole bare (h whole bare)

def cat : Bytes := [0x63, 0x61, 0x74]

def dog : Bytes := [0x64, 0x6f, 0x67]

/-- `cat .` and `cat dog .` -/
def twoArticles : WikiFile :=
  ⟨[oneLine (cat ++ [0x20, 0x2e]) (by decide), oneLine (cat ++ [0x20] ++ dog ++ [0x20, 0x2e]) (by decide)], true⟩

def threeMaps : List WordMap := [PostingIndex.note cat 1, ⟨[(cat, 1), (dog, 1)], by decide⟩, .empty]

theorem extract_twoArticles : extractUniqueKeywordsWiki whole twoArticles.text = .ok threeMaps := by
  have hEntries : (extractUniqueKeywordsWiki whole twoArticles.text).map (List.map WordMap.entries) =
      .ok (threeMaps.map WordMap.entries) := by decide +kernel
  have hInj : Function.Injective WordMap.entries := by
    rintro ⟨entries, _⟩ ⟨entries', _⟩ rfl
    rfl
  obtain ⟨maps, hRun, hMaps⟩ := map_eq_ok_iff.mp hEntries
  rw [hRun, List.map_injective_iff.mpr hInj hMaps]

theorem update_twoArticles : ∃ client' buffers,
    bisenUpdateWiki Reference.platform whole 0 SseClient.init 0 [twoArticles.text] = .ok (client', buffers) ∧
      buffers.length = 1 := by
  have hLength : (bisenUpdateWiki Reference.platform whole 0 SseClient.init 0 [twoArticles.text]).map
      (fun result => result.2.length) = .ok 1 := by decide +kernel
  obtain ⟨⟨client', buffers⟩, hRun, hOne⟩ := map_eq_ok_iff.mp hLength
  exact ⟨client', buffers, hRun, hOne⟩

/-- The two articles get the numbers 0 and 1, and the document that has no `cat` is neither of them. -/
theorem surplus_documents_twoArticles :
    (∃ client' buffers, bisenUpdateWiki Reference.platform whole 0 SseClient.init 0 [twoArticles.text] =
      .ok (client', buffers) ∧ 2 < client'.nDocs.toInt) ∧
    ∃ s, Reached Reference.platform (Reference.build true) fixedChoice ⟨fun _ => none, 0⟩ ⟨0, [], 0, 0⟩ threeMaps s ∧
      Returns Reference.platform (Reference.build true) fixedChoice s (.neg (.atom cat)) 2 := by
  obtain ⟨_, hUpdate, hComplement⟩ := surplus_documents whole twoArticles
  have hNul : ∀ words, words ∈ threeMaps → ∀ word, word ∈ words.keys → QueryMessage.NulFree word := by decide
  have hFree : PostingLists.CollisionFree Reference.platform threeMaps :=
    PostingLists.collisionFree_of_heads [cat, dog] [[5, 255], [47, 109]] [[134, 85], [120, 222], [191, 183]]
      (by decide) (by decide +kernel) (by decide) (by decide +kernel) (by decide)
  constructor
  · obtain ⟨client', buffers, hRun, hSent⟩ := update_twoArticles
    refine ⟨client', buffers, hRun, ?_⟩
    have hDocs := hUpdate Reference.platform 0 SseClient.init client' [] buffers hRun
    rw [hSent] at hDocs
    exact hDocs
  · obtain ⟨s, hs⟩ := PostingIndex.exists_reached Reference.documented (Reference.build true) fixedChoice
      ⟨fun _ => none, 0⟩ ⟨0, [], 0, 0⟩ (by decide) hNul hFree
    have hIndexed := PostingIndex.reached_indexed Reference.documented (Reference.build true) fixedChoice
      ⟨fun _ => none, 0⟩ ⟨0, [], 0, 0⟩ (by decide) hNul hFree hs
    have hFinds : EndToEnd.Finds Reference.platform (Reference.build true) fixedChoice threeMaps s
        (.neg (.atom cat)) :=
      EndToEnd.finds_of_small Reference.documented (Reference.build true) fixedChoice hIndexed (by decide) hNul
        (by decide) (by rw [EndToEnd.labelCount_eq hIndexed (by decide)]; decide)
    obtain ⟨n, hLow, hHigh, hReturns⟩ := hComplement Reference.platform (Reference.build true) fixedChoice
      ⟨fun _ => none, 0⟩ ⟨0, [], 0, 0⟩ [] threeMaps [] s cat extract_twoArticles hs hFinds
    obtain rfl : n = 2 := Nat.le_antisymm (Nat.le_of_lt_succ hHigh) hLow
    exact ⟨s, hs, hReturns⟩

end Bisen.WikiDocuments
