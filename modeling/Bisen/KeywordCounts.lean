import Bisen.EnglishAnalyzer
import Bisen.Lib.Assoc

/-! # What the map counts

A map of keywords is determined by the frequency of every word, and counting a list of words adds up, as far
as an `int` goes.
-/
namespace Bisen
open Wire QueryParser
set_option autoImplicit false

namespace WordMap

theorem lookup_countIn (s v : Bytes) {entries : List (Bytes × BitVec 32)}
    (h : (entries.map Prod.fst).Pairwise (· < ·)) :
    (countIn s entries).lookup v = if v = s then some ((entries.lookup s).getD 0 + 1) else entries.lookup v := by
  induction entries with
  | nil =>
    rw [countIn, Assoc.lookup_cons]
    rfl
  | cons e entries ih =>
    obtain ⟨w, n⟩ := e
    have hSorted := h
    rw [List.map_cons, List.pairwise_cons] at h
    rw [countIn]
    split
    · case isTrue hLt =>
      have hAbsent : ((w, n) :: entries).lookup s = none := by
        apply Option.eq_none_iff_forall_ne_some.mpr
        intro m hm
        have hMem : s ∈ w :: entries.map Prod.fst := Assoc.mem_keys_iff_lookup.mpr ⟨m, hm⟩
        obtain rfl | hRest := List.mem_cons.mp hMem
        · exact List.lt_irrefl s hLt
        · exact List.lt_irrefl s (List.lt_trans hLt (h.1 s hRest))
      rw [hAbsent, Assoc.lookup_cons]
      rfl
    split
    · case isTrue hEq =>
      subst hEq
      have hNext : (if n ≠ 0 then n + 1 else 1) = n + 1 := by
        split
        · rfl
        · case isFalse hZero => rw [not_not.mp hZero]; rfl
      rw [Assoc.lookup_cons, Assoc.lookup_cons, Assoc.lookup_cons, if_pos rfl, hNext, Option.getD_some]
      split <;> rfl
    · case isFalse hGe hNe =>
      rw [Assoc.lookup_cons, Assoc.lookup_cons, Assoc.lookup_cons, if_neg hNe, ih h.2]
      split
      · case isTrue hv =>
        rw [hv, if_neg (fun hEq => hNe hEq.symm)]
      · rfl

theorem frequency_count (words : WordMap) (s v : Bytes) :
    (words.count s).frequency v = if v = s then some ((words.frequency s).getD 0 + 1) else words.frequency v :=
  lookup_countIn s v words.sorted

theorem ext_frequency {words words' : WordMap} (h : ∀ v, words.frequency v = words'.frequency v) :
    words = words' := by
  obtain ⟨entries, hSorted⟩ := words
  obtain ⟨entries', hSorted'⟩ := words'
  have hAsymm : ∀ a b : Bytes, a < b → ¬ b < a := fun a b hab hba => List.lt_irrefl a (List.lt_trans hab hba)
  obtain rfl : entries = entries' := Assoc.ext_lookup hAsymm hSorted hSorted' h
  rfl

/-- The map after `ws` have been counted. -/
def countAll (words : WordMap) (ws : List Bytes) : WordMap := ws.foldl count words

theorem frequency_countAll (words : WordMap) (ws : List Bytes) (v : Bytes) :
    (words.countAll ws).frequency v =
      if v ∈ ws then some ((words.frequency v).getD 0 + BitVec.ofNat 32 (ws.count v)) else words.frequency v := by
  induction ws generalizing words with
  | nil => rfl
  | cons w ws ih =>
    rw [countAll, List.foldl_cons]
    refine (ih (words.count w)).trans ?_
    rw [frequency_count]
    obtain rfl | hNe := eq_or_ne v w
    · rw [if_pos rfl, if_pos List.mem_cons_self, List.count_cons_self]
      split
      · rw [Option.getD_some, Nat.add_comm, BitVec.ofNat_add, ← BitVec.add_assoc]
        rfl
      · case isFalse hNot =>
        rw [List.count_eq_zero_of_not_mem hNot]
        rfl
    · rw [if_neg hNe, List.count_cons_of_ne hNe.symm]
      simp only [List.mem_cons, hNe, false_or]

theorem frequency_empty_countAll (ws : List Bytes) (v : Bytes) :
    (empty.countAll ws).frequency v = if v ∈ ws then some (BitVec.ofNat 32 (ws.count v)) else none := by
  have hZero : (empty.frequency v).getD 0 = 0#32 := rfl
  rw [frequency_countAll, hZero, BitVec.zero_add]
  rfl

theorem countAll_eq_iff (ws us : List Bytes) :
    empty.countAll ws = empty.countAll us ↔
      ∀ v, (v ∈ ws ↔ v ∈ us) ∧ ws.count v % 2 ^ 32 = us.count v % 2 ^ 32 := by
  have hFrequency : ∀ v, (empty.countAll ws).frequency v = (empty.countAll us).frequency v ↔
      (v ∈ ws ↔ v ∈ us) ∧ ws.count v % 2 ^ 32 = us.count v % 2 ^ 32 := by
    intro v
    rw [frequency_empty_countAll, frequency_empty_countAll]
    by_cases hWs : v ∈ ws <;> by_cases hUs : v ∈ us
    · simp [hWs, hUs, ← BitVec.toNat_inj]
    · simp [hWs, hUs]
    · simp [hWs, hUs]
    · simp [hWs, hUs, List.count_eq_zero_of_not_mem]
  constructor
  · intro hEq v
    exact (hFrequency v).mp (by rw [hEq])
  · exact fun h => ext_frequency fun v => (hFrequency v).mpr (h v)

end WordMap

namespace EnglishAnalyzer

/-- The stems of the words of a text that are no stop words, in their order. -/
def keptStems (stem : Bytes → Bytes) (text : Bytes) : List Bytes :=
  ((alnumRuns text).filter fun run => !isStopWord (run.map tolower)).map (stemWord stem)

theorem readWords_eq (stem : Bytes → Bytes) {fuel : Nat} {text : Bytes} (hFuel : text.length ≤ fuel)
    (words : WordMap) : readWords stem fuel text words = words.countAll (keptStems stem text) := by
  induction fuel generalizing text words with
  | zero =>
    obtain rfl := List.eq_nil_of_length_eq_zero (Nat.le_zero.mp hFuel)
    rfl
  | succ fuel ih =>
    cases text with
    | nil => rfl
    | cons c rest =>
      rw [List.length_cons] at hFuel
      rw [readWords]
      split
      · case isTrue hc =>
        simp only [ih (length_dropWhile_le hc hFuel), keptStems, alnumRuns_cons_of_pos hc]
        cases hStop : isStopWord (((c :: rest).takeWhile isalnum).map tolower) with
        | true => rw [List.filter_cons_of_neg (by simp [hStop])]; rfl
        | false => rw [List.filter_cons_of_pos (by simp [hStop])]; rfl
      · case isFalse hc =>
        rw [ih (by omega), keptStems, keptStems, alnumRuns_cons_of_neg (Bool.eq_false_iff.mpr hc)]

theorem extractUniqueKeywords_eq (stem : Bytes → Bytes) (text : Bytes) :
    extractUniqueKeywords stem text = WordMap.empty.countAll (keptStems stem text) :=
  readWords_eq stem (Nat.le_refl _) .empty

/-- The runs of the text that are no stop words and have the stem `x`. -/
def occurrences (stem : Bytes → Bytes) (text x : Bytes) : Nat :=
  (alnumRuns text).countP fun run => !isStopWord (run.map tolower) && stemWord stem run == x

/-- The map gives every stem of the text the number of its occurrences, and has no other keys. -/
structure CountsExactly (stem : Bytes → Bytes) (text : Bytes) (words : WordMap) : Prop where
  keys : ∀ x, x ∈ words.keys ↔ 0 < occurrences stem text x
  frequency : ∀ x n, words.frequency x = some n → n.toInt = occurrences stem text x

theorem count_keptStems (stem : Bytes → Bytes) (text x : Bytes) :
    (keptStems stem text).count x = occurrences stem text x := by
  rw [keptStems, List.count, List.countP_map, List.countP_filter, occurrences]
  apply List.countP_congr
  intro run _
  simp only [Function.comp, Bool.and_comm]

theorem toInt_ofNat_eq_iff {n : Nat} : (BitVec.ofNat 32 n).toInt = n ↔ n < 2 ^ 31 := by
  rw [BitVec.toInt_eq_toNat_cond, BitVec.toNat_ofNat]
  constructor
  · intro h
    split at h <;> omega
  · intro h
    rw [Nat.mod_eq_of_lt (by omega), if_pos (by omega)]

theorem frequency_extractUniqueKeywords (stem : Bytes → Bytes) (text x : Bytes) :
    (extractUniqueKeywords stem text).frequency x =
      if 0 < occurrences stem text x then some (BitVec.ofNat 32 (occurrences stem text x)) else none := by
  have hMem : x ∈ keptStems stem text ↔ 0 < occurrences stem text x := by
    rw [← count_keptStems]
    exact List.count_pos_iff.symm
  rw [extractUniqueKeywords_eq, WordMap.frequency_empty_countAll, count_keptStems]
  simp only [hMem]

theorem countsExactly_iff (stem : Bytes → Bytes) (text : Bytes) :
    CountsExactly stem text (extractUniqueKeywords stem text) ↔ ∀ x, occurrences stem text x < 2 ^ 31 := by
  have hKeys : ∀ x, x ∈ (extractUniqueKeywords stem text).keys ↔ 0 < occurrences stem text x := by
    intro x
    rw [WordMap.keys, Assoc.mem_keys_iff_lookup]
    change (∃ n, (extractUniqueKeywords stem text).frequency x = some n) ↔ _
    rw [frequency_extractUniqueKeywords]
    split
    · case isTrue h => exact ⟨fun _ => h, fun _ => ⟨_, rfl⟩⟩
    · case isFalse h =>
      constructor
      · rintro ⟨n, hNone⟩
        cases hNone
      · exact fun hPos => absurd hPos h
  constructor
  · intro h x
    obtain hZero | hPos := Nat.eq_zero_or_pos (occurrences stem text x)
    · rw [hZero]
      decide
    · have hFrequency := h.frequency x (BitVec.ofNat 32 (occurrences stem text x))
      rw [frequency_extractUniqueKeywords, if_pos hPos] at hFrequency
      exact toInt_ofNat_eq_iff.mp (hFrequency rfl)
  · intro h
    refine ⟨hKeys, fun x n hn => ?_⟩
    rw [frequency_extractUniqueKeywords] at hn
    split at hn
    · cases hn
      exact toInt_ofNat_eq_iff.mpr (h x)
    · cases hn

end EnglishAnalyzer
end Bisen
