import Bisen.Leakage

/-! # What the storage service learns of a search

The choices of the shuffle are fixed, so the labels of a search reach the service in an order that it knows. Where
labels tell keys and positions apart, two searches look the same to it exactly when they ask for the same words in
the same order, the words that occur in no document left out.
-/
namespace Bisen.ExactLeakage
open Wire Socket SseIee Retrieval Leakage
set_option autoImplicit false

/-! ## Words and positions -/

/-- The positions in the posting lists of the words, by key. -/
def positions (words : List (Nat × Bytes)) : List (Bytes × Nat) :=
  words.flatMap fun w => (List.range w.1).map fun j => (w.2, j)

/-- The words that occur in a document. -/
def occurring (words : List (Nat × Bytes)) : List (Nat × Bytes) := words.filter fun w => 0 < w.1

def labelAt (P : Platform) (p : Bytes × Nat) : Bytes := labelOf P p.1 (.ofNat 32 p.2)

theorem positions_cons (n : Nat) (kW : Bytes) (words : List (Nat × Bytes)) :
    positions ((n, kW) :: words) = (List.range n).map (fun j => (kW, j)) ++ positions words := rfl

theorem positions_occurring (words : List (Nat × Bytes)) : positions (occurring words) = positions words := by
  induction words with
  | nil => rfl
  | cons w words ih =>
    obtain ⟨n, kW⟩ := w
    cases n with
    | zero => exact ih
    | succ n =>
      have hOccurs : occurring ((n + 1, kW) :: words) = (n + 1, kW) :: occurring words :=
        List.filter_cons_of_pos (decide_eq_true (Nat.succ_pos n))
      rw [hOccurs, positions_cons, positions_cons, ih]

theorem map_labelAt_positions (P : Platform) (words : List (Nat × Bytes)) :
    (positions words).map (labelAt P) =
      words.flatMap fun w => (List.range w.1).map fun j => labelOf P w.2 (.ofNat 32 j) := by
  rw [positions, List.map_flatMap]
  exact List.flatMap_congr fun w _ => List.map_map

theorem length_positions (words : List (Nat × Bytes)) : (positions words).length = (words.map Prod.fst).sum := by
  rw [positions, List.length_flatMap]
  exact congrArg List.sum (List.map_congr_left fun w _ => by rw [List.length_map, List.length_range])

section Inverse
variable {words words' : List (Nat × Bytes)} (hPos : ∀ w ∈ words, 0 < w.1) (hPos' : ∀ w ∈ words', 0 < w.1)

/-- The first position of a word is 0. -/
theorem takeWhile_positions {words : List (Nat × Bytes)} (hPos : ∀ w ∈ words, 0 < w.1) :
    (positions words).takeWhile (fun p => 0 < p.2) = [] := by
  cases words with
  | nil => rfl
  | cons w words =>
    obtain ⟨n, kW⟩ := w
    obtain ⟨m, rfl⟩ := Nat.exists_eq_succ_of_ne_zero (hPos _ List.mem_cons_self).ne'
    rw [positions_cons, List.range_succ_eq_map]
    rfl

/-- The further positions of a word end where the next word begins. -/
theorem takeWhile_block (kW : Bytes) (m : Nat) {words : List (Nat × Bytes)} (hPos : ∀ w ∈ words, 0 < w.1) :
    ((List.range m).map ((fun j => (kW, j)) ∘ Nat.succ) ++ positions words).takeWhile (fun p => 0 < p.2) =
      (List.range m).map ((fun j => (kW, j)) ∘ Nat.succ) := by
  rw [List.takeWhile_append_of_pos, takeWhile_positions hPos, List.append_nil]
  intro p hp
  obtain ⟨j, _, rfl⟩ := List.mem_map.mp hp
  exact decide_eq_true (Nat.succ_pos j)

include hPos hPos' in
theorem positions_inj (h : positions words = positions words') : words = words' := by
  induction words generalizing words' with
  | nil =>
    cases words' with
    | nil => rfl
    | cons w' words' =>
      have hLength := congrArg List.length h
      rw [length_positions, length_positions, List.map_cons, List.sum_cons] at hLength
      have hFirst := hPos' w' List.mem_cons_self
      simp only [List.map_nil, List.sum_nil] at hLength
      omega
  | cons w words ih =>
    cases words' with
    | nil =>
      have hLength := congrArg List.length h
      rw [length_positions, length_positions, List.map_cons, List.sum_cons] at hLength
      have hFirst := hPos w List.mem_cons_self
      simp only [List.map_nil, List.sum_nil] at hLength
      omega
    | cons w' words' =>
      obtain ⟨hFirst, hRest⟩ := List.forall_mem_cons.mp hPos
      obtain ⟨hFirst', hRest'⟩ := List.forall_mem_cons.mp hPos'
      obtain ⟨n, kW⟩ := w
      obtain ⟨n', kW'⟩ := w'
      obtain ⟨m, rfl⟩ := Nat.exists_eq_succ_of_ne_zero hFirst.ne'
      obtain ⟨m', rfl⟩ := Nat.exists_eq_succ_of_ne_zero hFirst'.ne'
      rw [positions_cons, positions_cons, List.range_succ_eq_map, List.range_succ_eq_map, List.map_cons, List.map_cons,
        List.cons_append, List.cons_append, List.map_map, List.map_map] at h
      obtain ⟨hHead, hTail⟩ := List.cons.inj h
      obtain ⟨rfl, _⟩ := Prod.mk.inj hHead
      have hBlocks := congrArg (List.takeWhile fun p => 0 < p.2) hTail
      rw [takeWhile_block kW m hRest, takeWhile_block kW m' hRest'] at hBlocks
      have hCount := congrArg List.length hBlocks
      rw [List.length_map, List.length_map, List.length_range, List.length_range] at hCount
      obtain rfl := hCount
      rw [ih hRest hRest' (List.append_cancel_left hTail)]

end Inverse

/-! ## The requests -/

/-- Behind the operation and the count stand the labels. -/
theorem payload_requestsFrom (labels : List Bytes) {total fuel labelPos : Nat} (hFuel : total - labelPos ≤ fuel) :
    ((requestsFrom labels total fuel labelPos).map (List.drop 9)).flatten =
      ((labels.drop labelPos).take (total - labelPos)).flatten := by
  induction fuel generalizing labelPos with
  | zero => rw [Nat.le_zero.mp hFuel, List.take_zero, requestsFrom, List.map_nil]
  | succ fuel ih =>
    rw [requestsFrom]
    split
    · case isTrue hMore =>
      obtain ⟨hPos, hBatch, _⟩ := batchSize_bounds (Nat.sub_pos_of_lt hMore)
      dsimp only
      generalize min (total - labelPos) maxBatchSearch = batchSize at hPos hBatch ⊢
      have hSplit : total - labelPos = batchSize + (total - (labelPos + batchSize)) := by omega
      have hPayload : (SseServer.encodeSearch ((labels.drop labelPos).take batchSize)).drop 9 =
          ((labels.drop labelPos).take batchSize).flatten :=
        List.drop_left' (length_word64 _)
      rw [List.map_cons, List.flatten_cons, ih (by omega), hPayload, hSplit, List.take_add, List.flatten_append,
        List.drop_drop]
    · case isFalse hLess =>
      have hNone : total - labelPos = 0 := by omega
      rw [hNone, List.take_zero, List.map_nil]

theorem requests_inj {w : Nat} {a b : List Bytes} (ha : ∀ l ∈ a, l.length = w) (hb : ∀ l ∈ b, l.length = w)
    (hw : 0 < w) (h : requestsFrom a a.length a.length 0 = requestsFrom b b.length b.length 0) : a = b := by
  have hFlat : a.flatten = b.flatten := by
    have hPayload := congrArg (fun reqs => (reqs.map (List.drop 9)).flatten) h
    simp only [payload_requestsFrom _ (Nat.sub_le _ _), List.drop_zero, Nat.sub_zero, List.take_length] at hPayload
    exact hPayload
  have hLength := congrArg List.length hFlat
  rw [length_flatten_of_width a ha, length_flatten_of_width b hb] at hLength
  rw [← chunks_flatten a ha, ← chunks_flatten b hb, hFlat, Nat.eq_of_mul_eq_mul_right hw hLength]

/-! ## The searches -/

theorem eq_of_map_eq {α β : Type} {f : α → β} {xs ys : List α} (hInj : ∀ x ∈ xs, ∀ y ∈ ys, f x = f y → x = y)
    (h : xs.map f = ys.map f) : xs = ys := by
  have hLength := congrArg List.length h
  rw [List.length_map, List.length_map] at hLength
  refine List.ext_getElem hLength fun i hi hi' => hInj _ (List.getElem_mem hi) _ (List.getElem_mem hi') ?_
  have hAt := congrArg (·[i]?) h
  simpa [List.getElem?_map, List.getElem?_eq_getElem hi, List.getElem?_eq_getElem hi'] using hAt

/-- The labels of the one search that are labels of the other are those of the same keys and positions. -/
def LabelsApart (P : Platform) (words words' : List (Nat × Bytes)) : Prop :=
  ∀ p ∈ positions words, ∀ q ∈ positions words', labelAt P p = labelAt P q → p = q

section Trace
variable {P : Platform} {r : Nat → Nat} {words words' : List (Nat × Bytes)}

theorem trace_eq (h : (words.map Prod.fst).sum < 2 ^ 32) :
    trace P r words = [opStartSearch] :: requestsFrom (Shuffle.shuffle r ((positions words).map (labelAt P)))
      (positions words).length (positions words).length 0 := by
  rw [trace, Nat.mod_eq_of_lt h, ← length_positions, map_labelAt_positions]

theorem trace_eq_iff (hP : P.Documented) (h : (words.map Prod.fst).sum < 2 ^ 32)
    (h' : (words'.map Prod.fst).sum < 2 ^ 32) (hApart : LabelsApart P words words') :
    trace P r words = trace P r words' ↔ occurring words = occurring words' := by
  have hWidth : ∀ ws : List (Nat × Bytes), ∀ l ∈ Shuffle.shuffle r ((positions ws).map (labelAt P)), l.length = 32 := by
    intro ws l hl
    obtain ⟨p, _, rfl⟩ := List.mem_map.mp ((Shuffle.shuffle_perm r _).mem_iff.mp hl)
    exact Tcrypto.length_hmacSha256 hP _ _
  have hCount : ∀ ws : List (Nat × Bytes), (Shuffle.shuffle r ((positions ws).map (labelAt P))).length =
      (positions ws).length := by
    intro ws
    rw [Shuffle.length_shuffle, List.length_map]
  rw [trace_eq h, trace_eq h']
  constructor
  · intro hTrace
    have hRequests := (List.cons.inj hTrace).2
    rw [← hCount words, ← hCount words'] at hRequests
    have hLabels := Shuffle.shuffle_inj (requests_inj (hWidth words) (hWidth words') (by decide) hRequests)
    have hPositions := eq_of_map_eq hApart hLabels
    rw [← positions_occurring words, ← positions_occurring words'] at hPositions
    exact positions_inj (fun w hw => of_decide_eq_true (List.mem_filter.mp hw).2)
      (fun w hw => of_decide_eq_true (List.mem_filter.mp hw).2) hPositions
  · intro hOccurring
    rw [← positions_occurring words, hOccurring, positions_occurring]

end Trace

theorem retrieve_shows {P : Platform} {r : Nat → Nat} {σ : Type} {peer : Peer Fault σ} {s s' : σ}
    {enclave enclave' : Enclave} {inp : Bytes} {d : Decoded} {ev : Evaluated} {out inn : List Bytes}
    (hDecode : decode inp = .ok d) (h : Runs peer (retrieve P r enclave inp) s (enclave', ev) s' out inn) :
    out = trace P r (wordKeys d.query) ∧ ((wordKeys d.query).map Prod.fst).sum < 2 ^ 32 := by
  obtain ⟨d₁, hDecode₁, hOut⟩ := retrieve_sends h
  obtain ⟨d₂, _, _, _, hDecode₂, hFetched, _⟩ := retrieve_runs P h
  cases hDecode.symm.trans hDecode₁
  cases hDecode.symm.trans hDecode₂
  have hRoom := hFetched.room
  rw [length_visited, wordCounters_eq] at hRoom
  unfold intMax at hRoom
  exact ⟨hOut, by omega⟩

/-- Over any two peers, two searches that complete look the same to the service exactly when the words of the queries
that occur in a document are the same, in the same order. -/
theorem search_shows_words_iff {P : Platform} (hP : P.Documented) (B : Build) (r : Nat → Nat) {σ₁ σ₂ : Type}
    (peer₁ : Peer Fault σ₁) (peer₂ : Peer Fault σ₂) {s₁ s₁' : σ₁} {s₂ s₂' : σ₂}
    {enclave₁ enclave₁' enclave₂ enclave₂' : Enclave} {inp₁ inp₂ reply₁ reply₂ : Bytes} {d₁ d₂ : Decoded}
    {out₁ inn₁ out₂ inn₂ : List Bytes} (hDecode₁ : decode inp₁ = .ok d₁) (hDecode₂ : decode inp₂ = .ok d₂)
    (hApart : LabelsApart P (wordKeys d₁.query) (wordKeys d₂.query))
    (hRun₁ : Runs peer₁ (SseIee.search P B r enclave₁ inp₁) s₁ (enclave₁', reply₁) s₁' out₁ inn₁)
    (hRun₂ : Runs peer₂ (SseIee.search P B r enclave₂ inp₂) s₂ (enclave₂', reply₂) s₂' out₂ inn₂) :
    out₁ = out₂ ↔ occurring (wordKeys d₁.query) = occurring (wordKeys d₂.query) := by
  obtain ⟨ev₁, hRetrieve₁, rfl⟩ := search_runs hRun₁
  obtain ⟨ev₂, hRetrieve₂, rfl⟩ := search_runs hRun₂
  obtain ⟨rfl, hSmall₁⟩ := retrieve_shows hDecode₁ hRetrieve₁
  obtain ⟨rfl, hSmall₂⟩ := retrieve_shows hDecode₂ hRetrieve₂
  exact trace_eq_iff hP hSmall₁ hSmall₂ hApart

def keyOfB : Bytes :=
  [0x63, 0x03, 0xa8, 0x5b, 0xb6, 0xce, 0x53, 0x9d, 0x45, 0xaa, 0xc0, 0xda, 0xf7, 0xcd, 0xe7, 0xa2,
   0x48, 0x05, 0x1f, 0xeb, 0x5a, 0xc8, 0x64, 0x99, 0xca, 0x4f, 0x51, 0x59, 0xe2, 0x88, 0x6e, 0xa2]

/-- A query message for two words, each with one document, and `&`. -/
def messageForBoth (first second : Bytes) : Bytes :=
  opSrc :: wordToken :: (word32 1 ++ first ++ wordToken :: (word32 1 ++ second ++ andToken :: metaToken :: word32 2))

/-- Answered with the entries in the order in which they are asked for. -/
def searchForBoth (first second : Bytes) : Outcome Fault (List Bytes) (Enclave × Bytes) :=
  let entry := fun kW => (entryOf Reference.platform (SseClient.record 0 0 1 kW)).2.run Reference.platform
  (SseIee.search Reference.platform (Reference.build true) fixedChoice ⟨0, [], 0, 0⟩ (messageForBoth first second)).run
    (.scripted .blocked) [((Shuffle.shuffle fixedChoice [first, second]).map entry).flatten]

/-- Two words in two orders look different. -/
theorem search_shows_words_iff_swapped :
    (searchForBoth keyOfA keyOfB).sent ≠ (searchForBoth keyOfB keyOfA).sent := by
  have hOk : (searchForBoth keyOfA keyOfB).result.isOk = true := by decide +kernel
  have hSwapped : (searchForBoth keyOfB keyOfA).result.isOk = true := by decide +kernel
  obtain ⟨⟨_, _⟩, hRun₁⟩ := Program.runs_of_isOk hOk
  obtain ⟨⟨_, _⟩, hRun₂⟩ := Program.runs_of_isOk hSwapped
  have hKeys : (decode (messageForBoth keyOfA keyOfB)).map (fun d => wordKeys d.query) =
      .ok [(1, keyOfA), (1, keyOfB)] := by decide +kernel
  have hKeys' : (decode (messageForBoth keyOfB keyOfA)).map (fun d => wordKeys d.query) =
      .ok [(1, keyOfB), (1, keyOfA)] := by decide +kernel
  obtain ⟨d₁, hDecode₁, hWords₁⟩ := map_eq_ok_iff.mp hKeys
  obtain ⟨d₂, hDecode₂, hWords₂⟩ := map_eq_ok_iff.mp hKeys'
  have hLabels : labelAt Reference.platform (keyOfA, 0) ≠ labelAt Reference.platform (keyOfB, 0) := by decide +kernel
  have hApart : LabelsApart Reference.platform (wordKeys d₁.query) (wordKeys d₂.query) := by
    rw [hWords₁, hWords₂]
    intro p hp q hq hEq
    have hp : p ∈ [(keyOfA, 0), (keyOfB, 0)] := hp
    have hq : q ∈ [(keyOfB, 0), (keyOfA, 0)] := hq
    simp only [List.mem_cons, List.not_mem_nil, or_false] at hp hq
    obtain rfl | rfl := hp
    · obtain rfl | rfl := hq
      · exact absurd hEq hLabels
      · rfl
    · obtain rfl | rfl := hq
      · rfl
      · exact absurd hEq.symm hLabels
  intro hSent
  have hSame := (search_shows_words_iff Reference.documented _ _ _ _ hDecode₁ hDecode₂ hApart hRun₁ hRun₂).mp hSent
  rw [hWords₁, hWords₂] at hSame
  exact absurd hSame (by decide)

end Bisen.ExactLeakage
