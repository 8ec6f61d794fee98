import Bisen.Indexing
import Bisen.Reference
import Bisen.SseClient

/-! # Counter blocks of the index encryption

Every entry is encrypted under the zero key from the zero counter, of which one bit counts. So
the first and the third block of one entry share a keystream block, and the known label at the
front of an entry uncovers the frequency and the document number at its end.
-/
namespace Bisen.CounterReuse
open Wire SseIee
set_option autoImplicit false

/-- The key and counter of every 16-byte block of one encryption. -/
def blocksOf (c : Encryption) : List (Bytes × Bytes) :=
  (List.range ((c.data.length + 15) / 16)).map fun i => (c.key, counterBlock c.ctr Tcrypto.ctrIncBits i)

def encryptions (P : Platform) (inp : Bytes) : List Encryption :=
  if inp.head? = some opAdd then (recordsOf inp).map fun record => (entryOf P record).2 else []

def usedBlocks (P : Platform) (msgs : List Bytes) : List (Bytes × Bytes) :=
  msgs.flatMap fun inp => (encryptions P inp).flatMap blocksOf

theorem map_pairOf_eq (P : Platform) {inp : Bytes} (h : inp.head? = some opAdd) :
    (recordsOf inp).map (pairOf P) =
      List.zipWith (fun record c => (entryOf P record).1 ++ c.run P) (recordsOf inp) (encryptions P inp) := by
  rw [encryptions, if_pos h, List.zipWith_map_right, List.zipWith_self]
  rfl

theorem counterBlock_two :
    counterBlock zeroCtr Tcrypto.ctrIncBits 2 = counterBlock zeroCtr Tcrypto.ctrIncBits 0 := by
  decide

section Entries
variable {P : Platform} (hP : P.Documented)
include hP

theorem length_data (record : Bytes) : (entryOf P record).2.data.length = 44 := by
  simp only [entryOf, unencData, labelOf, List.length_append, Tcrypto.length_hmacSha256 hP, length_word32,
    length_word64, Tcrypto.sha256OutputSize]

theorem not_nodup_blocksOf (record : Bytes) : ¬ (blocksOf (entryOf P record).2).Nodup := by
  have hBlocks : blocksOf (entryOf P record).2 =
      (List.range 3).map fun i => (zeroKey, counterBlock zeroCtr Tcrypto.ctrIncBits i) := by
    rw [blocksOf, length_data hP]
    rfl
  rw [hBlocks]
  intro hNodup
  have hInj := List.inj_on_of_nodup_map hNodup (x := 2) (by decide) (y := 0) (by decide)
  exact absurd (hInj (by rw [counterBlock_two])) (by decide)

omit hP in
theorem recordsOf_eq_nil_iff (inp : Bytes) : recordsOf inp = [] ↔ inp.length < 1 + recvLen := by
  rw [← List.length_eq_zero_iff, recordsOf, length_chunks, Nat.div_eq_zero_iff]
  unfold recvLen
  omega

theorem not_nodup_usedBlocks {msgs : List Bytes} {inp : Bytes} (hMem : inp ∈ msgs)
    (hAdd : inp.head? = some opAdd) (hLong : 1 + recvLen ≤ inp.length) : ¬ (usedBlocks P msgs).Nodup := by
  intro hNodup
  have hSome : recordsOf inp ≠ [] := by
    rw [Ne, recordsOf_eq_nil_iff]
    omega
  obtain ⟨record, hRecord⟩ := List.exists_mem_of_ne_nil _ hSome
  have hMessage := (List.nodup_flatMap.mp hNodup).1 inp hMem
  rw [encryptions, if_pos hAdd, List.flatMap_map] at hMessage
  exact not_nodup_blocksOf hP record ((List.nodup_flatMap.mp hMessage).1 record hRecord)

/-- The counter blocks of a run are distinct only if it encrypts nothing. -/
theorem nodup_usedBlocks_iff (msgs : List Bytes) :
    (usedBlocks P msgs).Nodup ↔ ∀ inp, inp ∈ msgs → inp.head? = some opAdd → inp.length < 1 + recvLen := by
  constructor
  · intro hNodup inp hMem hAdd
    by_contra hLong
    exact not_nodup_usedBlocks hP hMem hAdd (Nat.le_of_not_lt hLong) hNodup
  · intro hShort
    have hNil : usedBlocks P msgs = [] := by
      rw [usedBlocks, List.flatMap_eq_nil_iff]
      intro inp hMem
      by_cases hAdd : inp.head? = some opAdd
      · rw [encryptions, if_pos hAdd, (recordsOf_eq_nil_iff inp).mpr (hShort inp hMem hAdd)]
        rfl
      · rw [encryptions, if_neg hAdd]
        rfl
    rw [hNil]
    exact List.nodup_nil

end Entries

theorem nodup_usedBlocks_iff_small :
    (usedBlocks Reference.platform [SseClient.generateSetupMsg.tail, [opAdd]]).Nodup ↔
      ∀ inp, inp ∈ [SseClient.generateSetupMsg.tail, [opAdd]] →
        inp.head? = some opAdd → inp.length < 1 + recvLen :=
  nodup_usedBlocks_iff Reference.documented _

/-- A setup and a document with one word. -/
theorem not_nodup_usedBlocks_one :
    ¬ ∀ (P : Platform), P.Documented → ∀ msgs : List Bytes, (usedBlocks P msgs).Nodup := by
  intro h
  let inp := opAdd :: SseClient.record 0 0 1 (SseClient.kW Reference.platform [0x61])
  have hLength : inp.length = 1 + recvLen := by
    rw [List.length_cons, SseClient.length_record Reference.documented]
    rfl
  exact not_nodup_usedBlocks Reference.documented (List.mem_cons_of_mem _ List.mem_cons_self) rfl hLength.ge
    (h Reference.platform Reference.documented [SseClient.generateSetupMsg.tail, inp])

theorem slice_keystream (cipher : Bytes → Bytes → Bytes) (key : Bytes) :
    slice (keystream cipher key zeroCtr Tcrypto.ctrIncBits 44) 32 12 =
      slice (keystream cipher key zeroCtr Tcrypto.ctrIncBits 44) 0 12 := by
  have hAt : ∀ i, i < 12 → ∀ b, b = 0 ∨ b = 32 →
      (keystream cipher key zeroCtr Tcrypto.ctrIncBits 44)[b + i]? =
        some ((cipher key (counterBlock zeroCtr Tcrypto.ctrIncBits 0)).getD i 0) := by
    intro i hi b hb
    rw [keystream, List.getElem?_map, List.getElem?_range (by omega), Option.map_some]
    obtain rfl | rfl := hb
    · rw [show (0 + i) / 16 = 0 by omega, show (0 + i) % 16 = i by omega]
    · rw [show (32 + i) / 16 = 2 by omega, show (32 + i) % 16 = i by omega, counterBlock_two]
  apply List.ext_getElem?
  intro i
  rw [slice, slice, List.getElem?_take, List.getElem?_take, List.getElem?_drop, List.getElem?_drop]
  by_cases hi : i < 12
  · rw [if_pos hi, if_pos hi, hAt i hi 32 (.inr rfl), hAt i hi 0 (.inl rfl)]
  · rw [if_neg hi, if_neg hi]

/-- From an entry and its label alone: the plaintext frequency and document number. -/
theorem entry_uncovered {P : Platform} (hP : P.Documented) (hC : P.CounterMode) (record : Bytes) :
    xor (slice ((entryOf P record).2.run P) 32 12)
        (xor (slice ((entryOf P record).2.run P) 0 12) (slice (entryOf P record).1 0 12)) =
      word32 (readWord32 (slice record 8 4)) ++ word64 ((readWord32 (slice record 0 4)).signExtend 64) := by
  obtain ⟨cipher, hCipher⟩ := hC
  have hData := length_data hP record
  have hRun : (entryOf P record).2.run P = xor (entryOf P record).2.data
      (keystream cipher zeroKey zeroCtr Tcrypto.ctrIncBits 44) := by
    rw [Encryption.run, Tcrypto.encrypt, (hCipher _ _ _ _).1, hData]
    rfl
  have hLabel : (entryOf P record).1.length = 32 := Tcrypto.length_hmacSha256 hP _ _
  have hSplit : (entryOf P record).2.data = (entryOf P record).1 ++
      (word32 (readWord32 (slice record 8 4)) ++ word64 ((readWord32 (slice record 0 4)).signExtend 64)) := by
    rw [← List.append_assoc]
    rfl
  have hFront : slice (entryOf P record).2.data 0 12 = slice (entryOf P record).1 0 12 := by
    rw [hSplit, slice_append_left (by omega)]
  have hBack : slice (entryOf P record).2.data 32 12 =
      word32 (readWord32 (slice record 8 4)) ++ word64 ((readWord32 (slice record 0 4)).signExtend 64) := by
    rw [hSplit, slice, List.drop_left' hLabel]
    exact List.take_of_length_le (by simp)
  have hStream : (slice (keystream cipher zeroKey zeroCtr Tcrypto.ctrIncBits 44) 0 12).length = 12 :=
    length_slice (by rw [length_keystream]; omega)
  rw [hRun, slice_xor, slice_xor, slice_keystream, hFront, hBack, xor_known, xor_xor_cancel]
  · rw [hStream]
    simp
  · rw [hStream, length_slice (by omega)]

end Bisen.CounterReuse
