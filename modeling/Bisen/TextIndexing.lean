import Bisen.ClientProgram
import Bisen.Lib.Simulation
import Mathlib.Algebra.BigOperators.Ring.List
import Mathlib.Algebra.Order.BigOperators.Group.List

/-! # Indexing the texts of a directory

A file whose words fit the buffer gives the keywords of its texts, and a message that carries them. What the client,
the enclave and the service hold behind the last file is the index of all texts.
-/
namespace Bisen.TextIndexing
open Wire Socket SseClient SseIee QueryMessage EnglishAnalyzer WordBuffer StemmedText PorterWords PostingLists Session
open ClientProgram TextQuery ArticleTexts
set_option autoImplicit false

/-! ## Indexing a file -/

theorem readFile_keywords (memory : Nat → Nat → UInt8) {a : Analyzer} (hClean : Clean a) {text : Bytes}
    (hShort : ∀ run ∈ alnumRuns text, run.length ≤ inc) (old : Int) :
    ∃ a' j, readFile memory text.length text a old .empty = .ok (a', j, keywords text) ∧ Clean a' := by
  have hSame := readFile_eq memory hClean.length text.length text old .empty
  have hShortRun : ∃ a' words, WordBuffer.readFile memory padded text.length text a .empty = .ok (a', words) :=
    readFile_short padded_inPlace hClean hShort
  obtain ⟨a', words, hRun⟩ := hShortRun
  obtain ⟨hWords, hClean'⟩ := readFile_ok padded_inPlace hClean hRun
  rw [hRun] at hSame
  obtain ⟨⟨a₁, j, words₁⟩, hRead, hEq⟩ := map_eq_ok_iff.mp hSame
  obtain ⟨rfl, rfl⟩ := Prod.mk.inj hEq
  have hKeywords : words₁ = keywords text := hWords.trans (extractUniqueKeywords_padded text)
  rw [← hKeywords]
  exact ⟨a₁, j, hRead, hClean'⟩

theorem length_countIn_le (s : Bytes) (entries : List (Bytes × BitVec 32)) :
    (WordMap.countIn s entries).length ≤ entries.length + 1 := by
  induction entries with
  | nil => exact Nat.le_refl 1
  | cons e entries ih =>
    obtain ⟨w, n⟩ := e
    rw [WordMap.countIn]
    split
    · exact Nat.le_refl _
    split
    · exact Nat.le_succ _
    · exact Nat.succ_le_succ ih

theorem length_readWords_le (stem : Bytes → Bytes) (fuel : Nat) (text : Bytes) (words : WordMap) :
    (readWords stem fuel text words).entries.length ≤ words.entries.length + fuel := by
  induction fuel generalizing text words with
  | zero => exact Nat.le_refl _
  | succ fuel ih =>
    cases text with
    | nil => exact Nat.le_add_right _ _
    | cons c rest =>
      rw [readWords]
      split
      · refine (ih _ _).trans ?_
        split
        · have hCount := length_countIn_le (QueryParser.cString
            (stem (((c :: rest).takeWhile isalnum).map QueryParser.tolower))) words.entries
          change (WordMap.countIn _ words.entries).length + fuel ≤ _
          omega
        · omega
      · have hRest := ih rest words
        omega

theorem length_keywords_le (text : Bytes) : (keywords text).entries.length ≤ text.length :=
  (length_readWords_le porter text.length text .empty).trans_eq (Nat.zero_add _)

section Index
variable {P : Platform} (hP : P.Documented) (B : Build) (r : Nat → Nat) {docs : List WordMap}
include hP

/-- The messages of several documents, one after the other. -/
theorem addDocuments_indexed {more : List WordMap} {s : System} (h : Indexed P docs s)
    (hDocs : (docs ++ more).length < 2 ^ 31) (hFree : CollisionFree P (docs ++ more))
    (hNul : ∀ words ∈ more, ∀ word ∈ words.keys, NulFree word) :
    ∃ sse msgs encl link out inn, BulkUpdate.addDocuments P s.client more = .ok (sse, msgs) ∧
      msgs.map List.length = more.map (fun words => 1 + words.entries.length * 44) ∧
      BulkUpdate.OneByOne P B r Link.peer s.enclave s.link msgs encl link out inn ∧
      Indexed P (docs ++ more) ⟨sse, encl, link⟩ := by
  induction more generalizing docs s with
  | nil =>
    rw [List.append_nil]
    exact ⟨s.client, [], s.enclave, s.link, [], [], rfl, rfl, .nil _ _, h⟩
  | cons words more ih =>
    obtain ⟨hWords, hNul⟩ := List.forall_mem_cons.mp hNul
    have hSplit : docs ++ words :: more = (docs ++ [words]) ++ more := by
      rw [List.append_assoc, List.singleton_append]
    rw [hSplit] at hDocs hFree ⊢
    have hRoom : docs.length + 1 < 2 ^ 31 := by
      rw [List.length_append, List.length_append, List.length_singleton] at hDocs
      omega
    have hFirst := add_indexed hP h hRoom (hFree.sublist (List.sublist_append_left _ _))
    have hMsg : s.client.addNewDocument P words = _ := addNewDocument_indexed h hRoom
    obtain ⟨out, hRun⟩ := add_runs hP h hWords B r
    rw [← BulkUpdate.processMessage_single] at hRun
    obtain ⟨sse, msgs, encl, link, out', inn, hMsgs, hLengths, hEach, hIndexed⟩ := ih hFirst hDocs hFree hNul
    refine ⟨sse, _ :: msgs, encl, link, _, _, ?_, ?_, .cons hRun hEach, hIndexed⟩
    · rw [BulkUpdate.addDocuments, hMsg]
      change (BulkUpdate.addDocuments P _ more >>= _) = _
      rw [hMsgs]
      rfl
    · have hWidth : ∀ b ∈ s.client.records P s.client.nDocs words, b.length = 44 := by
        intro b hb
        obtain ⟨f, _, rfl⟩ := List.mem_map.mp hb
        exact length_record hP _ _ _ _
      rw [List.map_cons, List.map_cons, hLengths, List.length_cons, length_flatten_of_width _ hWidth, records,
        List.length_map, Nat.add_comm]

omit hP in
theorem length_flatMap_encode (msgs : List Bytes) :
    (msgs.flatMap Packet.encode).length = ((msgs.map List.length).map (8 + ·)).sum := by
  rw [List.length_flatMap, List.map_map]
  exact congrArg List.sum (List.map_congr_left fun msg _ => Packet.length_encode msg)

/-- A bulk message of documents, whose number of words `texts` bounds. -/
theorem bulk_indexed {s : System} (h : Indexed P docs s) {texts : List Bytes}
    (hDocs : (docs ++ texts.map keywords).length < 2 ^ 31) (hFree : CollisionFree P (docs ++ texts.map keywords))
    (hSize : (texts.map fun text => text.length + 1).sum < 2 ^ 58 + 2) :
    ∃ sse buffer encl link out inn, BulkUpdate.bisenUpdate P s.client (texts.map keywords) = .ok (sse, buffer) ∧
      buffer.length < 2 ^ 64 ∧
      Runs Link.peer (processMessage P B r s.enclave buffer) s.link (encl, ok) link out inn ∧
      Indexed P (docs ++ texts.map keywords) ⟨sse, encl, link⟩ := by
  have hNul : ∀ words ∈ texts.map keywords, ∀ word ∈ words.keys, NulFree word := by
    intro words hWords word hWord
    obtain ⟨text, _, rfl⟩ := List.mem_map.mp hWords
    exact nulFree_keywords hWord
  obtain ⟨sse, msgs, encl, link, out, inn, hMsgs, hLengths, hEach, hIndexed⟩ :=
    addDocuments_indexed hP B r h hDocs hFree hNul
  have hTotal : (msgs.flatMap Packet.encode).length ≤ 44 * (texts.map fun text => text.length + 1).sum := by
    rw [length_flatMap_encode, hLengths, List.map_map, List.map_map, ← List.sum_map_mul_left]
    refine List.sum_le_sum fun text _ => ?_
    have hEntries := length_keywords_le text
    change 8 + (1 + (keywords text).entries.length * 44) ≤ 44 * (text.length + 1)
    omega
  have hSmall : ∀ msg ∈ msgs, msg.length < 2 ^ 64 := by
    intro msg hMsg
    have hPart := (List.Sublist.flatMap (List.singleton_sublist.mpr hMsg) Packet.encode).length_le
    rw [List.flatMap_singleton, Packet.length_encode] at hPart
    omega
  have hCount : msgs.length < 2 ^ 32 := by
    have hLength := (BulkUpdate.length_addDocuments hMsgs).1
    rw [List.length_append] at hDocs
    omega
  have hBulk := ((BulkUpdate.equalsParts_of_size (P := P) B r hCount hSmall).runs
    Link Link.peer s.enclave encl ok s.link link out inn).mpr ⟨rfl, hEach⟩
  refine ⟨sse, BulkUpdate.bulkBuffer msgs, encl, link, out, inn, ?_, ?_, hBulk, hIndexed⟩
  · rw [BulkUpdate.bisenUpdate, hMsgs]
    rfl
  · rw [BulkUpdate.bulkBuffer, List.length_cons, List.length_append, length_word64]
    omega

end Index

/-! ## Indexing the files -/

/-- The texts of a file. -/
def textsOf (docType content : Bytes) : List Bytes := if docType = wiki then articleTexts content else [content]

theorem sum_length_textsOf_le (docType content : Bytes) :
    ((textsOf docType content).map fun text => text.length + 1).sum ≤ 2 * content.length + 3 := by
  rw [textsOf]
  split
  · exact sum_length_articleTexts_le content
  · rw [List.map_singleton, List.sum_singleton]
    omega

/-- The files that are indexed before `bisen_update` breaks off, after `nrUpdates` documents. -/
def updated (docType : Bytes) (nrDocs : Nat) : List File → Nat → List File
  | [], _ => []
  | doc :: docPaths, nrUpdates =>
    doc :: if 0 < nrDocs ∧ nrDocs ≤ nrUpdates + (textsOf docType doc.content).length then []
      else updated docType nrDocs docPaths (nrUpdates + (textsOf docType doc.content).length)

def textsOfAll (docType : Bytes) (files : List File) : List Bytes :=
  files.flatMap fun doc => textsOf docType doc.content

/-- A file that is read without a fault, and whose words a message can carry. -/
structure Readable (docType content : Bytes) : Prop where
  runs : docType = normal → ∀ run ∈ alnumRuns content, run.length ≤ inc
  size : content.length < 2 ^ 57

section Update
variable {P : Platform} (hP : P.Documented) (B : Build) (r : Nat → Nat) (memory : Nat → Nat → UInt8)
  {docType : Bytes} (hType : docType = wiki ∨ docType = normal)

include hType in
theorem extractDocs_texts {client : Client} (hClean : Clean client.analyzer) {content : Bytes}
    (hRead : Readable docType content) :
    ∃ analyzer j, extractDocs memory docType content client =
      .ok (analyzer, j, (textsOf docType content).map keywords) ∧ Clean analyzer := by
  obtain rfl | rfl := hType
  · obtain ⟨j, hMaps⟩ := extract_porter content client.j
    refine ⟨client.analyzer, j, ?_, hClean⟩
    rw [extractDocs, if_pos rfl, hMaps, textsOf, if_pos rfl]
    rfl
  · have hOther : normal ≠ wiki := by decide
    obtain ⟨analyzer, j, hFile, hClean'⟩ := readFile_keywords memory hClean (hRead.runs rfl) client.j
    refine ⟨analyzer, j, ?_, hClean'⟩
    rw [extractDocs, if_neg hOther, if_pos rfl, hFile, textsOf, if_neg hOther]
    rfl

include hP hType

/-- The induction is on the files; `texts` are those of the files before. -/
theorem bisenUpdate_completes {nrDocs : Nat} {docPaths : List File} {client : Client} {nrUpdates : Nat}
    {texts : List Bytes} {encl : Enclave} {link : Link} (hClean : Clean client.analyzer)
    (h : Indexed P (texts.map keywords) ⟨client.sse, encl, link⟩)
    (hRead : ∀ doc ∈ updated docType nrDocs docPaths nrUpdates, Readable docType doc.content)
    (hDocs : (texts ++ textsOfAll docType (updated docType nrDocs docPaths nrUpdates)).length < 2 ^ 31)
    (hFree : CollisionFree P ((texts ++ textsOfAll docType (updated docType nrDocs docPaths nrUpdates)).map keywords)) :
    ∃ client' encl' link', Completes P B r (ClientProgram.bisenUpdate P memory docType nrDocs docPaths client nrUpdates)
        (encl, link) client' (encl', link') ∧
      Indexed P ((texts ++ textsOfAll docType (updated docType nrDocs docPaths nrUpdates)).map keywords)
        ⟨client'.sse, encl', link'⟩ := by
  induction docPaths generalizing client nrUpdates texts encl link with
  | nil =>
    rw [updated, textsOfAll, List.flatMap_nil, List.append_nil]
    exact ⟨client, encl, link, Completes.ret client _, h⟩
  | cons doc docPaths ih =>
    rw [updated] at hRead hDocs hFree ⊢
    generalize hRest : (if 0 < nrDocs ∧ nrDocs ≤ nrUpdates + (textsOf docType doc.content).length then []
      else updated docType nrDocs docPaths (nrUpdates + (textsOf docType doc.content).length)) =
        rest at hRead hDocs hFree ⊢
    obtain ⟨hDoc, hRead⟩ := List.forall_mem_cons.mp hRead
    have hSplit : texts ++ textsOfAll docType (doc :: rest) =
        (texts ++ textsOf docType doc.content) ++ textsOfAll docType rest := by
      rw [textsOfAll, List.flatMap_cons, ← textsOfAll, List.append_assoc]
    rw [hSplit] at hDocs hFree ⊢
    have hFront : (texts.map keywords ++ (textsOf docType doc.content).map keywords).Sublist
        ((texts ++ textsOf docType doc.content ++ textsOfAll docType rest).map keywords) := by
      rw [← List.map_append]
      exact (List.sublist_append_left _ _).map _
    have hRoom : (texts.map keywords ++ (textsOf docType doc.content).map keywords).length < 2 ^ 31 := by
      refine hFront.length_le.trans_lt ?_
      rwa [List.length_map]
    obtain ⟨analyzer, j, hExtract, hClean'⟩ := extractDocs_texts memory hType hClean hDoc
    have hSize : ((textsOf docType doc.content).map fun text => text.length + 1).sum < 2 ^ 58 + 2 := by
      have hSum := sum_length_textsOf_le docType doc.content
      have hLength := hDoc.size
      omega
    obtain ⟨sse, buffer, encl₁, link₁, out, inn, hBuffer, hLength, hRun, hIndexed⟩ :=
      bulk_indexed hP B r h hRoom (hFree.sublist hFront) hSize
    rw [← List.map_append] at hIndexed
    have hComm := ieeComm_completes hRun hLength (show ok.length < 2 ^ 64 by decide)
    rw [ClientProgram.bisenUpdate, hExtract, Program.lift_ok, Program.ret_bind]
    dsimp only at hBuffer ⊢
    rw [hBuffer, Program.lift_ok, Program.ret_bind, List.length_map]
    dsimp only
    split at hRest
    · case isTrue hLast =>
      rw [← hRest] at hDocs hFree ⊢
      rw [textsOfAll, List.flatMap_nil, List.append_nil]
      exact ⟨⟨sse, analyzer, j⟩, encl₁, link₁, hComm.bind (by rw [if_pos hLast]; exact Completes.ret _ _), hIndexed⟩
    · case isFalse hMore =>
      rw [← hRest] at hRead hDocs hFree ⊢
      have hClient : Clean (⟨sse, analyzer, j⟩ : Client).analyzer := hClean'
      obtain ⟨client', encl', link', hNext, hLast⟩ := ih hClient hIndexed hRead hDocs hFree
      exact ⟨client', encl', link', hComm.bind (by rw [if_neg hMore]; exact hNext), hLast⟩

end Update

end Bisen.TextIndexing
