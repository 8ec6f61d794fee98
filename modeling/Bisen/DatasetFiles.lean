import Bisen.TextSearch

/-! # The files of a data set

The directory is listed in any order. What is indexed are the listed files whose names come last, as many as the
program is told to index, each of them once and in descending order of their names.
-/
namespace Bisen.DatasetFiles
open Wire Socket SseIee EnglishAnalyzer WordBuffer StemmedText ClientProgram TextIndexing TextSearch PorterStemmer
set_option autoImplicit false

/-- A file that `list_txt_files` returns. -/
def Listed (f : File) : Prop := f.name.head? ≠ some dot ∧ txt <:+: f.name

instance (f : File) : Decidable (Listed f) := inferInstanceAs (Decidable (_ ∧ _))

/-! ## The listing -/

section Listing
variable {entries entries' : List File}

theorem mem_txtPaths {f : File} : f ∈ txtPaths entries ↔ f ∈ entries ∧ Listed f := by
  rw [txtPaths, List.mem_mergeSort, listTxtFiles, if_neg (fun h => absurd h.1 (by decide)), List.mem_mergeSort,
    List.mem_filter, decide_eq_true_iff]
  rfl

theorem pairwise_txtPaths : (txtPaths entries).Pairwise fun f g => g.name ≤ f.name := by
  have hTrans : ∀ f g h : File, decide (g.name ≤ f.name) = true → decide (h.name ≤ g.name) = true →
      decide (h.name ≤ f.name) = true :=
    fun f g h hfg hgh => decide_eq_true (List.le_trans (of_decide_eq_true hgh) (of_decide_eq_true hfg))
  have hTotal : ∀ f g : File, (decide (g.name ≤ f.name) || decide (f.name ≤ g.name)) = true := by
    intro f g
    rw [Bool.or_eq_true, decide_eq_true_iff, decide_eq_true_iff]
    exact List.le_total _ _
  exact (List.pairwise_mergeSort hTrans hTotal _).imp of_decide_eq_true

theorem nodup_txtPaths (hNames : (entries.map File.name).Nodup) : (txtPaths entries).Nodup := by
  rw [txtPaths, List.nodup_mergeSort, listTxtFiles, if_neg (fun h => absurd h.1 (by decide)), List.nodup_mergeSort]
  exact (List.Nodup.of_map _ hNames).filter _

theorem eq_of_name (hNames : (entries.map File.name).Nodup) {f g : File} (hf : f ∈ entries) (hg : g ∈ entries)
    (h : f.name = g.name) : f = g := List.inj_on_of_nodup_map hNames hf hg h

theorem descending_txtPaths (hNames : (entries.map File.name).Nodup) :
    (txtPaths entries).Pairwise fun f g => g.name < f.name := by
  refine List.Pairwise.imp_of_mem ?_ (List.Pairwise.and pairwise_txtPaths (nodup_txtPaths hNames))
  intro f g hf hg hle
  refine Std.lt_of_le_of_ne hle.1 fun hEq => hle.2 ?_
  exact eq_of_name hNames (mem_txtPaths.mp hf).1 (mem_txtPaths.mp hg).1 hEq.symm

/-- Files of different names are sorted in one way. -/
theorem txtPaths_perm (hNames : (entries.map File.name).Nodup) (hPerm : entries'.Perm entries) :
    txtPaths entries' = txtPaths entries := by
  have hNames' : (entries'.map File.name).Nodup := (hPerm.map File.name).nodup_iff.mpr hNames
  have hMem : ∀ f, f ∈ txtPaths entries' ↔ f ∈ txtPaths entries := by
    intro f
    rw [mem_txtPaths, mem_txtPaths, hPerm.mem_iff]
  refine List.Perm.eq_of_pairwise ?_ pairwise_txtPaths pairwise_txtPaths
    ((List.perm_ext_iff_of_nodup (nodup_txtPaths hNames') (nodup_txtPaths hNames)).mpr hMem)
  intro f g hf hg hgf hfg
  exact eq_of_name hNames (mem_txtPaths.mp ((hMem f).mp hf)).1 (mem_txtPaths.mp hg).1 (List.le_antisymm hfg hgf)

end Listing

/-! ## The files that are indexed -/

section Updated
variable (docType : Bytes)

/-- How many documents the files make. -/
def nrTexts (files : List File) : Nat := (files.map fun doc => (textsOf docType doc.content).length).sum

theorem updated_prefix (nrDocs : Nat) (docPaths : List File) (nrUpdates : Nat) :
    updated docType nrDocs docPaths nrUpdates <+: docPaths := by
  induction docPaths generalizing nrUpdates with
  | nil => exact List.prefix_rfl
  | cons doc docPaths ih =>
    rw [updated]
    split
    · exact ⟨docPaths, rfl⟩
    · exact List.cons_prefix_cons.mpr ⟨rfl, ih _⟩

/-- Files are left out only when there are documents enough. -/
theorem updated_enough (nrDocs : Nat) (docPaths : List File) (nrUpdates : Nat) :
    updated docType nrDocs docPaths nrUpdates = docPaths ∨
      0 < nrDocs ∧ nrDocs ≤ nrUpdates + nrTexts docType (updated docType nrDocs docPaths nrUpdates) := by
  induction docPaths generalizing nrUpdates with
  | nil => exact .inl rfl
  | cons doc docPaths ih =>
    rw [updated]
    split
    · case isTrue hLast =>
      rw [nrTexts, List.map_singleton, List.sum_singleton]
      exact .inr hLast
    · obtain hAll | hEnough := ih (nrUpdates + (textsOf docType doc.content).length)
      · exact .inl (congrArg _ hAll)
      · refine .inr ⟨hEnough.1, ?_⟩
        rw [nrTexts, List.map_cons, List.sum_cons, ← nrTexts, ← Nat.add_assoc]
        exact hEnough.2

/-- Without the last file there were not enough. -/
theorem updated_needed {nrDocs : Nat} (docPaths : List File) {nrUpdates : Nat} (h : nrUpdates < nrDocs) :
    nrUpdates + nrTexts docType (updated docType nrDocs docPaths nrUpdates).dropLast < nrDocs := by
  induction docPaths generalizing nrUpdates with
  | nil => exact h
  | cons doc docPaths ih =>
    rw [updated]
    split
    · exact h
    · case isFalse hMore =>
      have hBelow : nrUpdates + (textsOf docType doc.content).length < nrDocs := by omega
      have hNext := ih hBelow
      generalize updated docType nrDocs docPaths _ = rest at hNext ⊢
      cases rest with
      | nil => exact h
      | cons next rest =>
        rw [List.dropLast_cons_cons, nrTexts, List.map_cons, List.sum_cons, ← nrTexts, ← Nat.add_assoc]
        exact hNext

end Updated

/-! ## The program over chosen files -/

section Program
variable (P : Platform) (B : Build) (memory : Nat → Nat → UInt8)

/-- The program over given files, of which all are indexed. -/
def testsOn (docType : Bytes) (files : List File) (queries : List Bytes) :
    Enclaved (List (List (BitVec 32 × Option B.R))) := do
  bisenSetup
  let client ← ClientProgram.bisenUpdate P memory docType 0 files ⟨SseClient.init, create memory, 0⟩ 0
  let (_, results) ← bisenSearch P B queries client
  ieeComm [opRbisen, opIeeDumpBench, 0]
  pure results

variable {P B memory} {docType : Bytes}

theorem extractDocs_length {content : Bytes} {client : Client} {analyzer : Analyzer} {j : Int} {docs : List WordMap}
    (h : extractDocs memory docType content client = .ok (analyzer, j, docs)) :
    docs.length = (textsOf docType content).length := by
  rw [extractDocs] at h
  rw [textsOf]
  split at h
  · case isTrue hWiki =>
    rw [if_pos hWiki]
    obtain ⟨old, hMaps⟩ := ArticleTexts.extract_porter content client.j
    rw [hMaps] at h
    cases h
    exact List.length_map _
  · case isFalse hWiki =>
    rw [if_neg hWiki]
    split at h
    · obtain ⟨⟨_, _, _⟩, _, hRet⟩ := bind_eq_ok_iff.mp h
      cases hRet
      rfl
    · cases h

/-- The loop that breaks off goes over the files in front. -/
theorem bisenUpdate_updated (nrDocs : Nat) (docPaths : List File) (client : Client) (n m : Nat) :
    ClientProgram.bisenUpdate P memory docType nrDocs docPaths client n =
      ClientProgram.bisenUpdate P memory docType 0 (updated docType nrDocs docPaths n) client m := by
  induction docPaths generalizing client n m with
  | nil => rfl
  | cons doc docPaths ih =>
    rw [updated, ClientProgram.bisenUpdate, ClientProgram.bisenUpdate]
    cases hExtract : extractDocs memory docType doc.content client with
    | error e => rfl
    | ok result =>
      obtain ⟨analyzer, j, docs⟩ := result
      rw [← extractDocs_length hExtract, Program.lift_ok, Program.ret_bind, Program.ret_bind]
      dsimp only
      refine congrArg _ (funext fun update => ?_)
      obtain ⟨sse, buffer⟩ := update
      dsimp only
      refine congrArg _ (funext fun _ => ?_)
      have hAll : ¬ (0 < 0 ∧ 0 ≤ m + docs.length) := fun h => Nat.lt_irrefl 0 h.1
      rw [if_neg hAll]
      split
      · rfl
      · exact ih _ _ _

end Program

/-- Whatever the order of the directory, the program is the one that indexes the listed files with the greatest names,
in descending order, as many as it takes to have the documents it was told to index. -/
theorem separatedTests_files (P : Platform) (B : Build) (memory : Nat → Nat → UInt8) (settings : Configs)
    (hNames : (settings.bisenDatasetDir.map File.name).Nodup) :
    ∃ files : List File, files.Pairwise (fun f g => g.name < f.name) ∧
      (∀ f ∈ files, f ∈ settings.bisenDatasetDir ∧ Listed f) ∧
      (∀ g ∈ settings.bisenDatasetDir, Listed g → g ∈ files ∨ 0 < settings.bisenNrDocs ∧
        settings.bisenNrDocs ≤ nrTexts settings.bisenDocType files ∧ ∀ f ∈ files, g.name < f.name) ∧
      (settings.bisenNrDocs = 0 ∨ nrTexts settings.bisenDocType files.dropLast < settings.bisenNrDocs) ∧
      ∀ entries : List File, entries.Perm settings.bisenDatasetDir →
        separatedTests P B memory { settings with bisenDatasetDir := entries } =
          testsOn P B memory settings.bisenDocType files settings.bisenQueries := by
  have hDescending := descending_txtPaths hNames
  have hPrefix := updated_prefix settings.bisenDocType settings.bisenNrDocs (txtPaths settings.bisenDatasetDir) 0
  refine ⟨indexedFiles settings, hDescending.sublist hPrefix.sublist,
    fun f hf => mem_txtPaths.mp (hPrefix.subset hf), fun g hg hListed => ?_, ?_, fun entries hPerm => ?_⟩
  · have hMem := mem_txtPaths.mpr ⟨hg, hListed⟩
    obtain hAll | ⟨hSome, hEnough⟩ :=
      updated_enough settings.bisenDocType settings.bisenNrDocs (txtPaths settings.bisenDatasetDir) 0
    · exact .inl (by rw [indexedFiles, hAll]; exact hMem)
    · rw [Nat.zero_add] at hEnough
      obtain ⟨behind, hSplit⟩ := hPrefix
      rw [← hSplit] at hMem hDescending
      obtain hFront | hBehind := List.mem_append.mp hMem
      · exact .inl hFront
      · obtain ⟨_, _, hApart⟩ := List.pairwise_append.mp hDescending
        exact .inr ⟨hSome, hEnough, fun f hf => hApart f hf g hBehind⟩
  · obtain hAll | hSome := Nat.eq_zero_or_pos settings.bisenNrDocs
    · exact .inl hAll
    · have hNeeded := updated_needed settings.bisenDocType (txtPaths settings.bisenDatasetDir) hSome
      rw [Nat.zero_add] at hNeeded
      exact .inr hNeeded
  · rw [separatedTests, txtPaths_perm hNames hPerm, testsOn]
    refine congrArg _ (funext fun _ => ?_)
    dsimp only
    rw [bisenUpdate_updated settings.bisenNrDocs _ _ 0 0]
    rfl

theorem nrTexts_normal (files : List File) : nrTexts normal files = files.length := by
  have hOther : normal ≠ wiki := by decide
  induction files with
  | nil => rfl
  | cons f files ih =>
    rw [nrTexts, List.map_cons, List.sum_cons, ← nrTexts, ih, textsOf, if_neg hOther, List.length_singleton,
      List.length_cons, Nat.add_comm]

def fileA : File := ⟨ascii "a.txt", ascii "cat"⟩

def fileB : File := ⟨ascii "b.txt", ascii "cow"⟩

def fileC : File := ⟨ascii "c.txt", ascii "dog"⟩

/-- At most two documents of a directory. -/
def twoDocs (entries : List File) : Configs where
  bisenNrDocs := 2
  bisenDocType := normal
  bisenDatasetDir := entries
  bisenQueries := [ascii "cat"]

/-- Of three files with a document each, the least is left out, whatever the order of the directory. -/
theorem separatedTests_files_twoDocs :
    ∃ files : List File, files.length = 2 ∧ (∀ f ∈ files, f ∈ [fileA, fileC, fileB]) ∧ fileA ∉ files ∧
      ∀ entries : List File, entries.Perm [fileA, fileC, fileB] →
        separatedTests Reference.platform (Reference.build false) endless (twoDocs entries) =
          testsOn Reference.platform (Reference.build false) endless normal files [ascii "cat"] := by
  obtain ⟨files, _, hFiles, hLeft, hNeeded, hSame⟩ := separatedTests_files Reference.platform (Reference.build false)
    endless (twoDocs [fileA, fileC, fileB]) (by decide)
  have hShort : files.length ≤ 2 := by
    obtain hNone | hNeeded := hNeeded
    · cases hNone
    · have hNeeded : nrTexts normal files.dropLast < 2 := hNeeded
      rw [nrTexts_normal, List.length_dropLast] at hNeeded
      omega
  have hListed : ∀ f ∈ [fileA, fileC, fileB], Listed f := by decide
  have hOut : fileA ∉ files := by
    intro hA
    have hAll : ∀ g ∈ [fileA, fileC, fileB], g ∈ files := by
      intro g hg
      obtain hIn | ⟨_, _, hLess⟩ := hLeft g hg (hListed g hg)
      · exact hIn
      · have hNot : ∀ g ∈ [fileA, fileC, fileB], ¬ g.name < fileA.name := by decide
        exact absurd (hLess fileA hA) (hNot g hg)
    have hNodup : [fileA, fileC, fileB].Nodup := by decide
    have hLe := (List.subperm_of_subset hNodup hAll).length_le
    exact absurd (hLe.trans hShort) (by decide)
  refine ⟨files, ?_, fun f hf => (hFiles f hf).1, hOut, hSame⟩
  obtain hIn | ⟨_, hEnough, _⟩ := hLeft fileA List.mem_cons_self (hListed fileA List.mem_cons_self)
  · exact absurd hIn hOut
  · have hEnough : 2 ≤ nrTexts normal files := hEnough
    rw [nrTexts_normal] at hEnough
    exact Nat.le_antisymm hShort hEnough

end Bisen.DatasetFiles
