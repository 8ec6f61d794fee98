import Bisen.Lib.Wire

/-! # Length-prefixed packets

A packet is the length of its body as a 64-bit word, then the body. Reading as many packets as
were written gives their bodies back and stops exactly behind them.
-/
namespace Packet
open Wire
set_option autoImplicit false

def encode (body : Bytes) : Bytes := word64 (.ofNat 64 body.length) ++ body

/-- The body of the packet at the front, and what follows it; `none` while bytes are missing. -/
def decode (b : Bytes) : Option (Bytes × Bytes) :=
  let len := (readWord64 (b.take 8)).toNat
  if b.length < 8 + len then none else some ((b.drop 8).take len, b.drop (8 + len))

def decodeMany : Nat → Bytes → Option (List Bytes × Bytes)
  | 0, b => some ([], b)
  | n + 1, b => do
    let (body, rest) ← decode b
    let (bodies, rest) ← decodeMany n rest
    pure (body :: bodies, rest)

@[simp] theorem length_encode (body : Bytes) : (encode body).length = 8 + body.length := by
  rw [encode, List.length_append, length_word64]

theorem toNat_length {body : Bytes} (h : body.length < 2 ^ 64) :
    (BitVec.ofNat 64 body.length).toNat = body.length := by
  rw [BitVec.toNat_ofNat, Nat.mod_eq_of_lt h]

theorem decode_encode {body : Bytes} (h : body.length < 2 ^ 64) (rest : Bytes) :
    decode (encode body ++ rest) = some (body, rest) := by
  have hTake : (encode body ++ rest).take 8 = word64 (.ofNat 64 body.length) := by
    rw [encode, List.append_assoc, List.take_left' (length_word64 _)]
  have hDrop : (encode body ++ rest).drop 8 = body ++ rest := by
    rw [encode, List.append_assoc, List.drop_left' (length_word64 _)]
  simp only [decode, hTake, readWord64_word64, toNat_length h]
  rw [if_neg (by rw [List.length_append, length_encode]; omega), ← List.drop_drop, hDrop, List.take_left,
    List.drop_left]

theorem eq_encode_of_decode {b body rest : Bytes} (h : decode b = some (body, rest)) :
    b = encode body ++ rest ∧ body.length < 2 ^ 64 := by
  simp only [decode] at h
  split at h
  · cases h
  · case isFalse hWhole =>
    cases h
    have hHead : (b.take 8).length = 8 := List.length_take_of_le (by omega)
    have hLen := (readWord64 (b.take 8)).isLt
    have hBody : ((b.drop 8).take (readWord64 (b.take 8)).toNat).length = (readWord64 (b.take 8)).toNat :=
      List.length_take_of_le (by rw [List.length_drop]; omega)
    refine ⟨?_, hBody.trans_lt hLen⟩
    rw [encode, hBody, BitVec.ofNat_toNat, BitVec.setWidth_eq, word64_readWord64 hHead, ← List.drop_drop,
      List.append_assoc, List.take_append_drop, List.take_append_drop]

theorem decodeMany_encode {bodies : List Bytes} (h : ∀ body, body ∈ bodies → body.length < 2 ^ 64)
    (rest : Bytes) : decodeMany bodies.length (bodies.flatMap encode ++ rest) = some (bodies, rest) := by
  induction bodies with
  | nil => rfl
  | cons body bodies ih =>
    have hFirst := decode_encode (h body List.mem_cons_self) (bodies.flatMap encode ++ rest)
    have hRest := ih fun b hb => h b (List.mem_cons_of_mem _ hb)
    rw [List.length_cons, List.flatMap_cons, List.append_assoc, decodeMany, hFirst]
    simp only [Option.bind_eq_bind, Option.bind_some, hRest]
    rfl

/-- Packets are told apart by what they are written as. -/
theorem flatMap_encode_inj {bodies bodies' : List Bytes} (h : ∀ body ∈ bodies, body.length < 2 ^ 64)
    (h' : ∀ body ∈ bodies', body.length < 2 ^ 64) (hEq : bodies.flatMap encode = bodies'.flatMap encode) :
    bodies = bodies' := by
  induction bodies generalizing bodies' with
  | nil =>
    cases bodies' with
    | nil => rfl
    | cons body' bodies' =>
      have hLength := congrArg List.length hEq
      rw [List.flatMap_cons, List.length_append, length_encode, List.flatMap_nil, List.length_nil] at hLength
      omega
  | cons body bodies ih =>
    cases bodies' with
    | nil =>
      have hLength := congrArg List.length hEq
      rw [List.flatMap_cons, List.length_append, length_encode, List.flatMap_nil, List.length_nil] at hLength
      omega
    | cons body' bodies' =>
      obtain ⟨hBody, hRest⟩ := List.forall_mem_cons.mp h
      obtain ⟨hBody', hRest'⟩ := List.forall_mem_cons.mp h'
      rw [List.flatMap_cons, List.flatMap_cons] at hEq
      have hFirst := decode_encode hBody (bodies.flatMap encode)
      rw [hEq, decode_encode hBody'] at hFirst
      obtain ⟨rfl, hSame⟩ := Prod.mk.inj (Option.some.inj hFirst)
      rw [ih hRest hRest' hSame.symm]

end Packet
