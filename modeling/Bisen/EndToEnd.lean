import Bisen.PostingIndex

/-! # Search, end to end

From any session a query finds exactly the documents it describes, for every expression whose
message and whose number of labels stay within an `int`. These two bounds are exact.
-/
namespace Bisen.EndToEnd
open Wire Socket SseClient SseIee QueryMessage PostingLists Session SessionSearch PostingIndex
set_option autoImplicit false

/-- Whether a document satisfies a query: a word holds of the documents whose map has it as a key. -/
def Satisfies (words : WordMap) (e : Postfix.Expr Bytes) : Prop := e.eval fun word => word ∈ words.keys

/-- The search for `e` completes, and its list holds the satisfying documents, each once. -/
def Finds (P : Platform) (B : Build) (r : Nat → Nat) (docs : List WordMap) (s : System)
    (e : Postfix.Expr Bytes) :
    Prop :=
  ∃ b enclave ev link out inn,
    s.client.searchRpn P (e.postorder.map clientTkn) = .ok b ∧
    Runs Link.peer (retrieve P r s.enclave b.written.tail) s.link (enclave, ev) link out inn ∧
    Runs Link.peer (processMessage P B r s.enclave b.written) s.link
      (enclave, Response.respond B (B.reread ev.query) ev.nDocs ev.responseDocs) link out inn ∧
    ev.responseDocs.elems.Nodup ∧
    ∀ id : BitVec 32, id ∈ ev.responseDocs.elems ↔ ∃ words, docs[id.toNat]? = some words ∧ Satisfies words e

/-- How many labels the words of a query stand for. -/
def labelTotal (docs : List WordMap) (e : Postfix.Expr Bytes) : Nat :=
  (e.atoms.map fun word => docs.countP fun words => words.keys.contains word).sum

theorem wordsOf_append (ts us : List (Postfix.Token Bytes)) :
    wordsOf (ts ++ us) = wordsOf ts ++ wordsOf us := by
  induction ts with
  | nil => rfl
  | cons t ts ih => cases t <;> simp [wordsOf, ih]

theorem wordsOf_postorder (e : Postfix.Expr Bytes) : wordsOf e.postorder = e.atoms := by
  induction e with
  | atom word => rfl
  | neg e ih => rw [Postfix.Expr.postorder, wordsOf_append, ih]; exact List.append_nil _
  | conj l r ihl ihr =>
    rw [Postfix.Expr.postorder, wordsOf_append, wordsOf_append, ihl, ihr]
    exact List.append_nil _
  | disj l r ihl ihr =>
    rw [Postfix.Expr.postorder, wordsOf_append, wordsOf_append, ihl, ihr]
    exact List.append_nil _

section Session
variable {P : Platform} (hP : P.Documented) (B : Build) (r : Nat → Nat) {docs : List WordMap} {s : System}
  (h : Indexed P docs s) (hDocs : docs.length < 2 ^ 31)
  (hNul : ∀ words, words ∈ docs → ∀ word, word ∈ words.keys → NulFree word) {e : Postfix.Expr Bytes}

include h hDocs in
theorem labelCount_eq : labelCount s.client e.postorder = labelTotal docs e := by
  rw [labelCount, wordsOf_postorder, labelTotal]
  refine congrArg List.sum (List.map_congr_left fun word _ => ?_)
  simp only [toNat_counterOf h hDocs, length_posting, List.contains_eq_mem]

theorem mem_denoted {v : VecInt} (hDenotes : VecInt.Denotes docs.length v (e.eval (containing docs)))
    (id : BitVec 32) :
    id ∈ v.elems ↔ ∃ words, docs[id.toNat]? = some words ∧ Satisfies words e := by
  have hPoint : ∀ i : Fin docs.length, BitVec.ofNat 32 i ∈ v.elems ↔ Satisfies docs[i] e := by
    intro i
    rw [hDenotes.mem, Postfix.Expr.mem_eval]
    rfl
  constructor
  · intro hMem
    have hLt := hDenotes.lt id hMem
    refine ⟨docs[id.toNat], List.getElem?_eq_getElem hLt, (hPoint ⟨id.toNat, hLt⟩).mp ?_⟩
    rwa [BitVec.ofNat_toNat, BitVec.setWidth_eq]
  · rintro ⟨words, hGet, hHolds⟩
    obtain ⟨hLt, rfl⟩ := List.getElem?_eq_some_iff.mp hGet
    have hMem := (hPoint ⟨id.toNat, hLt⟩).mpr hHolds
    rwa [BitVec.ofNat_toNat, BitVec.setWidth_eq] at hMem

include hP h hDocs hNul

theorem finds_of_small (hMax : dataSize (e.postorder.map clientTkn) ≤ intMax)
    (hCount : labelCount s.client e.postorder ≤ intMax) : Finds P B r docs s e := by
  obtain ⟨enclave, ev, out, inn, hRun, _, _, hDenotes, _⟩ := retrieve_found hP h hDocs hNul hMax r hCount rfl
  have hMsg : s.client.searchRpn P (e.postorder.map clientTkn) =
      .ok ⟨dataSize (e.postorder.map clientTkn), s.client.searchMsg P e.postorder⟩ := by
    rw [searchRpn_eq hP, if_neg (by omega)]
  have hReply : Runs Link.peer (processMessage P B r s.enclave (s.client.searchMsg P e.postorder)) s.link
      (enclave, Response.respond B (B.reread ev.query) ev.nDocs ev.responseDocs)
        (.opened (started s.link.storage))
      (out ++ []) (inn ++ []) := by
    rw [processMessage_searchMsg, search_bind]
    exact hRun.bind rfl
  rw [List.append_nil, List.append_nil] at hReply
  exact ⟨_, enclave, ev, _, out, inn, hMsg, hRun, hReply, hDenotes.nodup, mem_denoted hDenotes⟩

omit hDocs hNul in
theorem small_of_finds (hFinds : Finds P B r docs s e) :
    dataSize (e.postorder.map clientTkn) ≤ intMax ∧ labelCount s.client e.postorder ≤ intMax := by
  obtain ⟨b, enclave, ev, link, out, inn, hMsg, hRun, _⟩ := hFinds
  obtain ⟨hMax, rfl⟩ := searchRpn_ok hP hMsg
  refine ⟨hMax, ?_⟩
  by_contra hCount
  obtain ⟨fault, hResult, _⟩ := retrieve_overflows hP h hMax r (Nat.lt_of_not_le hCount)
  cases hRun.result.symm.trans hResult

end Session

/-- Any documents can be added over any earlier contents of the service, and in every state that is
then reached a search is exact precisely if the message and the labels stay below 2^31. -/
theorem finds_iff {P : Platform} (hP : P.Documented) (B : Build) (r : Nat → Nat) (storage₀ : Storage)
    (enclave₀ : Enclave) {docs : List WordMap} (hDocs : docs.length < 2 ^ 31)
    (hNul : ∀ words, words ∈ docs → ∀ word, word ∈ words.keys → NulFree word) (hFree : CollisionFree P docs) :
    (∃ s, Reached P B r storage₀ enclave₀ docs s) ∧
      ∀ s, Reached P B r storage₀ enclave₀ docs s → ∀ e : Postfix.Expr Bytes, Finds P B r docs s e ↔
        7 + e.postorder.length + 36 * e.atoms.length < 2 ^ 31 ∧ labelTotal docs e < 2 ^ 31 := by
  refine ⟨exists_reached hP B r storage₀ enclave₀ hDocs hNul hFree, fun s hs e => ?_⟩
  have hIndexed := reached_indexed hP B r storage₀ enclave₀ hDocs hNul hFree hs
  rw [← wordsOf_postorder, ← dataSize_eq, ← labelCount_eq hIndexed hDocs]
  constructor
  · intro hFinds
    obtain ⟨hMax, hCount⟩ := small_of_finds hP B r hIndexed hFinds
    unfold intMax at hMax hCount
    omega
  · rintro ⟨hMax, hCount⟩
    exact finds_of_small hP B r hIndexed hDocs hNul (Nat.le_sub_one_of_lt hMax) (Nat.le_sub_one_of_lt hCount)

/-- `a & !b` over two documents that contain `a`, one of them with `b`. -/
theorem finds_iff_twoNotes :
    ∃ s, Reached Reference.platform (Reference.build true) fixedChoice ⟨fun _ => none, 0⟩ ⟨0, [], 0, 0⟩ twoNotes s ∧
      Finds Reference.platform (Reference.build true) fixedChoice twoNotes s
        (.conj (.atom [0x61]) (.neg (.atom [0x62]))) := by
  obtain ⟨⟨s, hs⟩, hFinds⟩ := finds_iff Reference.documented (Reference.build true) fixedChoice ⟨fun _ => none, 0⟩
    ⟨0, [], 0, 0⟩ (by decide) nulFree_twoNotes collisionFree_twoNotes
  exact ⟨s, hs, (hFinds s hs _).mpr (by decide)⟩

/-- `a & a & … & a` with `n + 1` words. -/
def comb : Nat → Postfix.Expr Bytes
  | 0 => .atom [0x61]
  | n + 1 => .conj (comb n) (.atom [0x61])

theorem length_comb (n : Nat) : (comb n).postorder.length = 2 * n + 1 ∧ (comb n).atoms.length = n + 1 := by
  induction n with
  | zero => exact ⟨rfl, rfl⟩
  | succ n ih =>
    obtain ⟨hPostorder, hAtoms⟩ := ih
    constructor
    · simp only [comb, Postfix.Expr.postorder, List.length_append, hPostorder, List.length_singleton]
      omega
    · simp only [comb, Postfix.Expr.atoms, List.length_append, hAtoms, List.length_singleton]

/-- Before any document was added, a query of 2^26 + 1 words runs the client's cursor over. -/
theorem not_finds_comb :
    ¬ ∀ (P : Platform), P.Documented → ∀ (B : Build) (r : Nat → Nat) (storage₀ : Storage) (enclave₀ : Enclave)
      (docs : List WordMap), docs.length < 2 ^ 31 →
      (∀ words, words ∈ docs → ∀ word, word ∈ words.keys → NulFree word) → CollisionFree P docs →
      ∀ s, Reached P B r storage₀ enclave₀ docs s → ∀ e : Postfix.Expr Bytes,
        (∀ word, word ∈ e.atoms → NulFree word) → Finds P B r docs s e := by
  intro hAll
  have hNul : ∀ words : WordMap, words ∈ [] → ∀ word, word ∈ words.keys → NulFree word := by simp
  have hNote : CollisionFree Reference.platform ([] ++ [note [0x61] 2]) := collisionFree_note _ _ _
  have hSetup := setup_runs Reference.platform (Reference.build true) fixedChoice ⟨fun _ => none, 0⟩
    ⟨0, [], 0, 0⟩
  have hWords : ∀ n word, word ∈ (comb n).atoms → NulFree word := by
    intro n
    induction n with
    | zero => decide
    | succ n ih =>
      intro word hWord
      obtain hWord | hWord := List.mem_append.mp hWord
      · exact ih word hWord
      · rw [List.mem_singleton.mp hWord]
        decide
  have hFinds := hAll Reference.platform Reference.documented (Reference.build true) fixedChoice
    ⟨fun _ => none, 0⟩
    ⟨0, [], 0, 0⟩ [] (by decide) hNul hNote.prefix _ (.setup hSetup) (comb (2 ^ 26)) (hWords _)
  have hMax := (small_of_finds Reference.documented (Reference.build true) fixedChoice
    (setup_indexed Reference.platform _ _) hFinds).1
  obtain ⟨hPostorder, hAtoms⟩ := length_comb (2 ^ 26)
  rw [dataSize_eq, wordsOf_postorder, hPostorder, hAtoms] at hMax
  exact absurd hMax (by decide)

end Bisen.EndToEnd
