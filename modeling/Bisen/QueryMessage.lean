import Bisen.Reference
import Bisen.SseClient
import Bisen.SseIee
import Mathlib.Data.List.TakeWhile
import Mathlib.Algebra.Order.BigOperators.Group.List

/-! # The query message

The enclave's cursor reads back what the client's cursor wrote, token by token. Two machine
integers bound this: the `int` cursors and the 32-bit sum of the counters.
-/
namespace Bisen.QueryMessage
open Wire SseClient SseIee VecToken
set_option autoImplicit false

/-- No NUL, so that the C string of the word is the word. -/
def NulFree (word : Bytes) : Prop := ∀ c, c ∈ word → c ≠ 0

instance : DecidablePred NulFree := fun word => List.decidableBAll (· ≠ 0) word

theorem kW_of_nulFree (P : Platform) {word : Bytes} (h : NulFree word) :
    kW P word = P.cryptoAuthHmacsha256 word clientKF := by
  have hString : QueryParser.cString word = word := by
    rw [QueryParser.cString, List.takeWhile_eq_self_iff]
    intro c hc
    simpa using h c hc
  rw [kW, hString]

def wordsOf : List (Postfix.Token Bytes) → List Bytes
  | [] => []
  | .operand word :: query => word :: wordsOf query
  | _ :: query => wordsOf query

/-- The sum of the counters that a query carries, before it is cut to 32 bits. -/
def labelCount (client : SseClient) (query : List (Postfix.Token Bytes)) : Nat :=
  ((wordsOf query).map fun word => (client.counterOf word).toNat).sum

def ieeTkn (P : Platform) (client : SseClient) : Postfix.Token Bytes → IeeToken
  | .operand word => wordTkn (client.counterOf word) (kW P word)
  | .neg => { IeeToken.zero with type := notToken }
  | .conj => { IeeToken.zero with type := andToken }
  | .disj => { IeeToken.zero with type := orToken }

def take (P : Platform) (client : SseClient) (d : Decoded) (t : Postfix.Token Bytes) : Decoded :=
  let query := d.query.vtPushBack (ieeTkn P client t)
  let pos := d.pos + tokenSize (clientTkn t)
  match t with
  | .operand word => { d with
      query := query
      countWords := (d.countWords + 1) % 2 ^ 32
      countLabels := (d.countLabels + (client.counterOf word).toNat) % 2 ^ 32
      pos := pos }
  | _ => { d with query := query, pos := pos }

theorem readFromArr_append {inp a x b : Bytes} {pos n : Nat} (hInp : inp = a ++ (x ++ b))
    (hPos : a.length = pos) (hn : x.length = n) (hMax : inp.length ≤ intMax) :
    readFromArr inp pos n = .ok (x, pos + n) := by
  subst hInp
  have hLength : (a ++ (x ++ b)).length = pos + n + b.length := by
    rw [List.length_append, List.length_append, hPos, hn, Nat.add_assoc]
  rw [readFromArr, if_neg (by omega), if_neg (by omega), slice_append hPos hn]

section Decoding
variable {P : Platform} (hP : P.Documented) (client : SseClient) {inp : Bytes} (hMax : inp.length ≤ intMax)
include hMax

theorem readToken_operator {op : UInt8} (hWord : op ≠ wordToken) (hMeta : op ≠ metaToken) {d : Decoded}
    {a b : Bytes} (hInp : inp = a ++ ([op] ++ b)) (hPos : a.length = d.pos) :
    readToken inp d =
      .ok { d with query := d.query.vtPushBack { IeeToken.zero with type := op }, pos := d.pos + 1 } := by
  have hType : readFromArr inp d.pos 1 = .ok ([op], d.pos + 1) := readFromArr_append hInp hPos rfl hMax
  rw [readToken]
  simp only [hType, bind, Except.bind, List.getD_cons_zero, hWord, hMeta, if_false, pure, Except.pure]

theorem readToken_word {word : Bytes} {d : Decoded} {a b : Bytes}
    (hInp : inp = a ++ (client.tokenBytes P (.operand word) ++ b)) (hPos : a.length = d.pos)
    (hKey : (kW P word).length = 32) :
    readToken inp d = .ok (take P client d (.operand word)) := by
  have hType : readFromArr inp d.pos 1 = .ok ([wordToken], d.pos + 1) :=
    readFromArr_append (b := word32 (client.counterOf word) ++ kW P word ++ b) (by rw [hInp]; rfl) hPos rfl hMax
  have hCounter : readFromArr inp (d.pos + 1) 4 = .ok (word32 (client.counterOf word), d.pos + 1 + 4) :=
    readFromArr_append (a := a ++ [wordToken]) (b := kW P word ++ b) (by rw [hInp]; simp [tokenBytes])
      (by rw [List.length_append, hPos]; rfl) (length_word32 _) hMax
  have hHash : readFromArr inp (d.pos + 1 + 4) 32 = .ok (kW P word, d.pos + 1 + 4 + 32) :=
    readFromArr_append (a := a ++ [wordToken] ++ word32 (client.counterOf word)) (b := b)
      (by rw [hInp]; simp [tokenBytes])
      (by rw [List.length_append, List.length_append, hPos, length_word32]; rfl) hKey hMax
  rw [readToken]
  simp only [hType, hCounter, hHash, bind, Except.bind, List.getD_cons_zero, if_true, readWord32_word32,
    Tcrypto.sha256OutputSize, pure, Except.pure]
  rfl

theorem readToken_meta {d : Decoded} {a b : Bytes} (hInp : inp = a ++ (client.metaBytes ++ b))
    (hPos : a.length = d.pos) :
    readToken inp d = .ok { d with nDocs := client.nDocs, pos := d.pos + 5 } := by
  have hType : readFromArr inp d.pos 1 = .ok ([metaToken], d.pos + 1) :=
    readFromArr_append (b := word32 client.nDocs ++ b) (by rw [hInp]; rfl) hPos rfl hMax
  have hDocs : readFromArr inp (d.pos + 1) 4 = .ok (word32 client.nDocs, d.pos + 1 + 4) :=
    readFromArr_append (a := a ++ [metaToken]) (b := b) (by rw [hInp]; simp [metaBytes])
      (by rw [List.length_append, hPos]; rfl) (length_word32 _) hMax
  have hWord : ¬ metaToken = wordToken := by decide
  rw [readToken]
  simp only [hType, hDocs, bind, Except.bind, List.getD_cons_zero, hWord, if_false, if_true,
    readWord32_word32, pure, Except.pure]

include hP

theorem readToken_eq (t : Postfix.Token Bytes) {d : Decoded} {a b : Bytes}
    (hInp : inp = a ++ (client.tokenBytes P t ++ b)) (hPos : a.length = d.pos) :
    readToken inp d = .ok (take P client d t) := by
  cases t with
  | operand word => exact readToken_word client hMax hInp hPos (length_kW hP word)
  | neg => exact readToken_operator hMax (by decide) (by decide) hInp hPos
  | conj => exact readToken_operator hMax (by decide) (by decide) hInp hPos
  | disj => exact readToken_operator hMax (by decide) (by decide) hInp hPos

theorem decodeLoop_eq (query : List (Postfix.Token Bytes)) {d : Decoded} {a : Bytes} {fuel : Nat}
    (hInp : inp = a ++ (query.flatMap (client.tokenBytes P) ++ client.metaBytes))
    (hPos : a.length = d.pos) (hFuel : query.length + 1 < fuel) :
    decodeLoop inp fuel d =
      .ok { query.foldl (take P client) d with nDocs := client.nDocs, pos := inp.length } := by
  induction query generalizing d a fuel with
  | nil =>
    obtain ⟨fuel, rfl⟩ : ∃ n, fuel = n + 2 := ⟨fuel - 2, by simp only [List.length_nil] at hFuel; omega⟩
    rw [List.flatMap_nil, List.nil_append] at hInp
    have hLength : inp.length = d.pos + 5 := by
      rw [hInp, List.length_append, hPos, metaBytes, List.length_cons, length_word32]
    have hMeta := readToken_meta client hMax (d := d) (b := []) (by rw [hInp, List.append_nil]) hPos
    rw [decodeLoop, if_pos (by omega), hMeta]
    simp only [bind, Except.bind]
    rw [decodeLoop, if_neg (by simp only; omega), hLength]
    rfl
  | cons t query ih =>
    obtain ⟨fuel, rfl⟩ : ∃ n, fuel = n + 1 := ⟨fuel - 1, by omega⟩
    rw [List.flatMap_cons, List.append_assoc] at hInp
    have hBytes := length_tokenBytes hP client t
    have hNonempty : 0 < tokenSize (clientTkn t) := by
      unfold tokenSize
      split <;> decide
    have hLt : d.pos < inp.length := by
      rw [hInp, List.length_append, List.length_append]
      omega
    have hTake : (take P client d t).pos = d.pos + tokenSize (clientTkn t) := by cases t <;> rfl
    rw [decodeLoop, if_pos hLt, readToken_eq hP client hMax t hInp hPos, List.foldl_cons]
    refine ih (a := a ++ client.tokenBytes P t) (by rw [hInp, List.append_assoc]) ?_ ?_
    · rw [List.length_append, hPos, hBytes, hTake]
    · rw [List.length_cons] at hFuel
      omega

end Decoding

theorem foldl_take_spec (P : Platform) (client : SseClient) (query : List (Postfix.Token Bytes)) (d : Decoded)
    (hSound : d.query.Sound) (hLt : d.countLabels < 2 ^ 32) :
    (query.foldl (take P client) d).query.Sound ∧
      (query.foldl (take P client) d).query.elems = d.query.elems ++ query.map (ieeTkn P client) ∧
      (query.foldl (take P client) d).countLabels = (d.countLabels + labelCount client query) % 2 ^ 32 := by
  induction query generalizing d with
  | nil => exact ⟨hSound, by simp, (Nat.mod_eq_of_lt hLt).symm⟩
  | cons t query ih =>
    have hQuery : (take P client d t).query = d.query.vtPushBack (ieeTkn P client t) := by cases t <;> rfl
    have hLabels : (take P client d t).countLabels < 2 ^ 32 ∧
        ((take P client d t).countLabels + labelCount client query) % 2 ^ 32 =
          (d.countLabels + labelCount client (t :: query)) % 2 ^ 32 := by
      cases t with
      | operand word =>
        refine ⟨Nat.mod_lt _ (by norm_num), ?_⟩
        simp only [take, labelCount, wordsOf, List.map_cons, List.sum_cons]
        omega
      | neg => exact ⟨hLt, rfl⟩
      | conj => exact ⟨hLt, rfl⟩
      | disj => exact ⟨hLt, rfl⟩
    obtain ⟨hSound', hElems, hCount⟩ := ih _ (hQuery ▸ vtPushBack_sound hSound _) hLabels.1
    refine ⟨hSound', ?_, hCount.trans hLabels.2⟩
    rw [List.foldl_cons, hElems, hQuery, elems_vtPushBack hSound, List.map_cons, List.append_assoc,
      List.singleton_append]

theorem decode_searchMsg {P : Platform} (hP : P.Documented) (client : SseClient)
    (query : List (Postfix.Token Bytes)) (hMax : dataSize (query.map clientTkn) ≤ intMax) :
    ∃ d, decode (client.searchMsg P query).tail = .ok d ∧ d.query.Sound ∧
      d.query.elems = query.map (ieeTkn P client) ∧ d.nDocs = client.nDocs ∧
      d.countLabels = labelCount client query % 2 ^ 32 ∧ d.pos = (client.searchMsg P query).tail.length := by
  have hLength := length_searchMsg hP client query
  have hTail : (client.searchMsg P query).tail =
      [opSrc] ++ (query.flatMap (client.tokenBytes P) ++ client.metaBytes) := rfl
  have hTokens : query.length ≤ (query.flatMap (client.tokenBytes P)).length := by
    rw [List.length_flatMap]
    have hOne : ∀ k, k ∈ query.map (fun t => (client.tokenBytes P t).length) → 1 ≤ k := by
      intro k hk
      obtain ⟨t, _, rfl⟩ := List.mem_map.mp hk
      rw [length_tokenBytes hP]
      unfold tokenSize
      split <;> decide
    simpa using List.card_nsmul_le_sum _ 1 hOne
  have hMeta : client.metaBytes.length = 5 := by rw [metaBytes, List.length_cons, length_word32]
  have hLoop := decodeLoop_eq hP client (by rw [List.length_tail]; omega) query
    (d := ⟨vtInit maxQueryTokens, 0, 0, 0, 1⟩) hTail rfl
    (show query.length + 1 < (client.searchMsg P query).tail.length by
      rw [hTail, List.length_append, List.length_append, hMeta, List.length_singleton]
      omega)
  obtain ⟨hSound, hElems, hCount⟩ := foldl_take_spec P client query ⟨vtInit maxQueryTokens, 0, 0, 0, 1⟩
    (vtInit_sound (by decide)) (by norm_num)
  refine ⟨_, hLoop, hSound, ?_, rfl, ?_, rfl⟩
  · rw [elems_vtInit, List.nil_append] at hElems
    exact hElems
  · rw [Nat.zero_add] at hCount
    exact hCount

/-! ## The round trip -/

/-- A query token as the enclave should see it: a word by its counter and the HMAC of the word. -/
def sentTkn (P : Platform) (client : SseClient) : Postfix.Token Bytes → IeeToken
  | .operand word => wordTkn ((client.W word).getD 0) (P.cryptoAuthHmacsha256 word clientKF)
  | .neg => { IeeToken.zero with type := notToken }
  | .conj => { IeeToken.zero with type := andToken }
  | .disj => { IeeToken.zero with type := orToken }

/-- The message has the announced size, and the enclave reads back the tokens, `nDocs` and the sum. -/
def RoundTrips (P : Platform) (client : SseClient) (query : List (Postfix.Token Bytes)) : Prop :=
  ∃ b d, client.searchRpn P (query.map clientTkn) = .ok b ∧ b.written.length = b.size ∧
    b.size = dataSize (query.map clientTkn) ∧
    (∀ B r enclave, processMessage P B r enclave b.written = SseIee.search P B r enclave b.written.tail) ∧
    decode b.written.tail = .ok d ∧ d.pos = b.written.tail.length ∧
    d.query.elems = query.map (sentTkn P client) ∧ d.nDocs = client.nDocs ∧
    d.countLabels = labelCount client query

theorem dataSize_eq (query : List (Postfix.Token Bytes)) :
    dataSize (query.map clientTkn) = 7 + query.length + 36 * (wordsOf query).length := by
  have hTokens : ((query.map clientTkn).map tokenSize).sum = query.length + 36 * (wordsOf query).length := by
    induction query with
    | nil => rfl
    | cons t query ih =>
      rw [List.map_cons, List.map_cons, List.sum_cons, ih, List.length_cons]
      cases t with
      | operand word =>
        have hSize : tokenSize (clientTkn (.operand word)) = 37 := rfl
        rw [hSize, wordsOf, List.length_cons]
        ring
      | neg => exact Nat.add_comm _ _ |>.trans (Nat.add_right_comm _ _ _)
      | conj => exact Nat.add_comm _ _ |>.trans (Nat.add_right_comm _ _ _)
      | disj => exact Nat.add_comm _ _ |>.trans (Nat.add_right_comm _ _ _)
  rw [dataSize, hTokens]
  omega

theorem ieeTkn_eq_sentTkn (P : Platform) (client : SseClient) {query : List (Postfix.Token Bytes)}
    (hNul : ∀ word, word ∈ wordsOf query → NulFree word) :
    query.map (ieeTkn P client) = query.map (sentTkn P client) := by
  induction query with
  | nil => rfl
  | cons t query ih =>
    cases t with
    | operand word =>
      have hKey := kW_of_nulFree P (hNul word List.mem_cons_self)
      rw [List.map_cons, List.map_cons, ih fun w hw => hNul w (List.mem_cons_of_mem _ hw), ieeTkn, hKey]
      rfl
    | neg => exact congrArg _ (ih hNul)
    | conj => exact congrArg _ (ih hNul)
    | disj => exact congrArg _ (ih hNul)

theorem processMessage_searchMsg (P : Platform) (B : Build) (r : Nat → Nat) (enclave : Enclave)
    (client : SseClient) (query : List (Postfix.Token Bytes)) :
    processMessage P B r enclave (client.searchMsg P query) =
      SseIee.search P B r enclave (client.searchMsg P query).tail := by
  rw [searchMsg, processMessage, if_neg (by decide), if_pos rfl, f, if_neg (by decide), if_neg (by decide),
    if_pos rfl, List.tail_cons]

theorem labelCount_of_roundTrips {P : Platform} (hP : P.Documented) {client : SseClient}
    {query : List (Postfix.Token Bytes)} (h : RoundTrips P client query) :
    dataSize (query.map clientTkn) ≤ intMax ∧ labelCount client query < 2 ^ 32 := by
  obtain ⟨b, d, hSearch, _, _, _, hDecode, _, _, _, hCount⟩ := h
  rw [searchRpn_eq hP] at hSearch
  have hMax : ¬ intMax < dataSize (query.map clientTkn) := by
    intro hLarge
    rw [if_pos hLarge] at hSearch
    cases hSearch
  rw [if_neg hMax] at hSearch
  cases hSearch
  obtain ⟨d', hDecode', _, _, _, hCount', _⟩ := decode_searchMsg hP client query (Nat.le_of_not_lt hMax)
  cases hDecode.symm.trans hDecode'
  rw [hCount] at hCount'
  exact ⟨Nat.le_of_not_lt hMax, hCount' ▸ Nat.mod_lt _ (by norm_num)⟩

/-- The query round-trips exactly when both machine integers hold it. -/
theorem roundTrips_iff {P : Platform} (hP : P.Documented) (client : SseClient)
    (query : List (Postfix.Token Bytes)) (hNul : ∀ word, word ∈ wordsOf query → NulFree word) :
    RoundTrips P client query ↔
      7 + query.length + 36 * (wordsOf query).length < 2 ^ 31 ∧ labelCount client query < 2 ^ 32 := by
  rw [← dataSize_eq]
  constructor
  · intro h
    obtain ⟨hMax, hCount⟩ := labelCount_of_roundTrips hP h
    refine ⟨?_, hCount⟩
    unfold intMax at hMax
    omega
  · rintro ⟨hMax, hCount⟩
    have hMax : dataSize (query.map clientTkn) ≤ intMax := Nat.le_sub_one_of_lt hMax
    obtain ⟨d, hDecode, _, hElems, hDocs, hLabels, hPos⟩ := decode_searchMsg hP client query hMax
    refine ⟨⟨dataSize (query.map clientTkn), client.searchMsg P query⟩, d, ?_, length_searchMsg hP client query,
      rfl, fun B r enclave => processMessage_searchMsg P B r enclave client query, hDecode, hPos, ?_, hDocs, ?_⟩
    · rw [searchRpn_eq hP, if_neg (by omega)]
    · rw [hElems, ieeTkn_eq_sentTkn P client hNul]
    · rw [hLabels, Nat.mod_eq_of_lt hCount]

theorem roundTrips_iff_small :
    RoundTrips Reference.platform ⟨fun w => if w = [0x61] then some 3 else none, 5⟩
        [.operand [0x61], .operand [0x62], .neg, .conj] ↔ 7 + 4 + 36 * 2 < 2 ^ 31 ∧ 3 < 2 ^ 32 :=
  roundTrips_iff Reference.documented _ _ (by decide)

/-- Three times a word with the largest counter: the sum of the counters wraps. -/
theorem not_roundTrips_wrapped :
    ¬ ∀ (P : Platform), P.Documented → ∀ (client : SseClient) (query : List (Postfix.Token Bytes)),
      (∀ word, word ∈ wordsOf query → NulFree word) → RoundTrips P client query := by
  intro h
  have hTrip := h Reference.platform Reference.documented ⟨fun _ => some (.ofNat 32 intMax), .ofNat 32 intMax⟩
    [.operand [0x61], .operand [0x61], .conj, .operand [0x61], .conj] (by decide)
  have hCount := (labelCount_of_roundTrips Reference.documented hTrip).2
  revert hCount
  decide

end Bisen.QueryMessage
