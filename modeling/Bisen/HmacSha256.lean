import Bisen.SseIee
import Bisen.Reference
import Bisen.Lib.Cells

/-! # The label function, buffer by buffer

`hmac_sha256` builds both hash inputs in place, in memory it has not cleared, and lets the inner hash
land behind the outer pad. What comes out is HMAC, so both sides of the protocol derive one label.
-/
namespace Bisen.HmacSha256
open Wire Tcrypto SseIee
set_option autoImplicit false

/-- What one `sgx_sha256_msg` reports and leaves in the 32 bytes of its target. -/
structure ShaResult where
  success : Bool
  hash : Bytes
  deriving DecidableEq, Repr

/-- Writes to `out + off` and returns the code. -/
def sha256 (sgxSha256Msg : Bytes → ShaResult) (out : Bytes) (off : Nat) (inp : Bytes) : Nat × Bytes :=
  let r := sgxSha256Msg inp
  (if r.success then 0 else 1, Cells.store out off r.hash)

/-- The three ways to fill `hmac_key`. -/
def loadKey (sgxSha256Msg : Bytes → ShaResult) (hmacKey key : Bytes) : Nat × Bytes :=
  if key.length = sha256BlockSize then (0, Cells.store hmacKey 0 key)
  else if key.length > sha256BlockSize then sha256 sgxSha256Msg hmacKey 0 key
  else (0, Cells.store hmacKey 0 key)

/-- `firstHashInput[i]` and `secondHashInput[i]` for every `i` below the block size. -/
def xorPads (hmacKey firstHashInput secondHashInput : Bytes) : Bytes × Bytes :=
  (List.range sha256BlockSize).foldl
    (fun s i => (s.1.set i (hmacKey.getD i 0 ^^^ 0x36), s.2.set i (hmacKey.getD i 0 ^^^ 0x5c)))
    (firstHashInput, secondHashInput)

structure Run where
  ret : Nat
  out : Bytes
  /-- The key as the call leaves it on the stack. -/
  hmacKey : Bytes
  /-- The first hash input as it is given back; an early return leaks it. -/
  freed : Option Bytes
  deriving DecidableEq, Repr

/-- `sgxSha256Msg n` is the `n`-th call; `heap` and `stack` are the memory found there. -/
def hmacSha256 (sgxSha256Msg : Nat → Bytes → ShaResult) (heap stack : Nat → UInt8) (out inp key : Bytes) : Run :=
  let hmacKey := Cells.fill (Cells.fresh stack sha256BlockSize) sha256BlockSize 0
  let (ret, hmacKey) := loadKey (sgxSha256Msg 0) hmacKey key
  if ret ≠ 0 then ⟨1, out, hmacKey, none⟩
  else
    let firstHashInput := Cells.fresh heap (sha256BlockSize + inp.length)
    let firstHashInput := Cells.store firstHashInput sha256BlockSize inp
    let secondHashInput := Cells.fresh stack (sha256BlockSize + sha256OutputSize)
    let (firstHashInput, secondHashInput) := xorPads hmacKey firstHashInput secondHashInput
    -- the first hash goes directly behind the outer pad
    let (ret, secondHashInput) := sha256 (sgxSha256Msg 1) secondHashInput sha256BlockSize firstHashInput
    if ret ≠ 0 then ⟨1, out, hmacKey, none⟩
    else
      let (ret, out) := sha256 (sgxSha256Msg 2) out 0 secondHashInput
      if ret ≠ 0 then ⟨1, out, hmacKey, none⟩
      else
        ⟨0, out, Cells.fill hmacKey sha256BlockSize 0,
          some (Cells.fill firstHashInput (sha256BlockSize + inp.length) 0)⟩

/-! ## RFC 2104 -/

def ipad : Bytes := List.replicate 64 0x36

def opad : Bytes := List.replicate 64 0x5c

/-- `K'`: a key longer than a block is hashed, and whatever is shorter is padded with zeros. -/
def blockKey (H : Bytes → Bytes) (key : Bytes) : Bytes :=
  let key := if 64 < key.length then H key else key
  key ++ List.replicate (64 - key.length) 0

def rfc2104 (H : Bytes → Bytes) (key text : Bytes) : Bytes :=
  H (xor (blockKey H key) opad ++ H (xor (blockKey H key) ipad ++ text))

/-! ## The key block -/

theorem length_padToBlock {b : Bytes} (h : b.length ≤ sha256BlockSize) :
    (padToBlock b).length = sha256BlockSize := by
  rw [padToBlock, List.length_append, List.length_replicate]
  omega

theorem length_hmacKey {P : Platform} (hP : P.Documented) (key : Bytes) :
    (hmacKey P key).length = sha256BlockSize := by
  rw [hmacKey]
  split
  · assumption
  split
  · have hHash : (Tcrypto.sha256 P key).length = 32 := hP.sha256_length key
    exact length_padToBlock (by rw [hHash]; decide)
  · exact length_padToBlock (by omega)

theorem hmacKey_eq_blockKey (P : Platform) (key : Bytes) : hmacKey P key = blockKey P.sgxSha256Msg key := by
  rw [hmacKey, blockKey]
  split
  · case isTrue h =>
    have hLong : ¬ 64 < key.length := by rw [h]; decide
    have hNone : 64 - key.length = 0 := by rw [h]; rfl
    simp only [if_neg hLong, hNone, List.replicate_zero, List.append_nil]
  split
  · case isTrue h =>
    have hLong : 64 < key.length := h
    simp only [if_pos hLong]
    rfl
  · case isFalse h =>
    have hShort : ¬ 64 < key.length := h
    simp only [if_neg hShort]
    rfl

theorem map_xor_const {k : Bytes} {n : Nat} (h : k.length = n) (x : UInt8) :
    k.map (· ^^^ x) = xor k (List.replicate n x) := by
  subst h
  induction k with
  | nil => rfl
  | cons d k ih =>
    rw [List.map_cons, ih]
    rfl

theorem hmacSha256_eq_rfc2104 {P : Platform} (hP : P.Documented) (msg key : Bytes) :
    Tcrypto.hmacSha256 P msg key = rfc2104 P.sgxSha256Msg key msg := by
  have hLength := length_hmacKey hP key
  simp only [Tcrypto.hmacSha256, Tcrypto.sha256]
  rw [map_xor_const hLength, map_xor_const hLength, hmacKey_eq_blockKey]
  rfl

/-! ## The call -/

/-- A call that reports success has left the hash. -/
def Hashes (P : Platform) (sgxSha256Msg : Nat → Bytes → ShaResult) : Prop :=
  ∀ n msg, (sgxSha256Msg n msg).success = true → (sgxSha256Msg n msg).hash = P.sgxSha256Msg msg

theorem store_zeros {b : Bytes} : Cells.store (List.replicate sha256BlockSize 0) 0 b = padToBlock b := by
  rw [Cells.store_zero, List.drop_replicate]
  rfl

theorem map_range_getD {k : Bytes} {n : Nat} (h : k.length = n) (x : UInt8) :
    (List.range n).map (fun i => k.getD i 0 ^^^ x) = k.map (· ^^^ x) := by
  subst h
  apply List.ext_getElem
  · simp
  · intro i hi _
    have hLt : i < k.length := by simpa using hi
    simp [List.getElem?_eq_getElem hLt]

theorem xorPads_eq {k first second : Bytes} (hk : k.length = sha256BlockSize)
    (hFirst : sha256BlockSize ≤ first.length) (hSecond : sha256BlockSize ≤ second.length) :
    xorPads k first second =
      (Cells.store first 0 (k.map (· ^^^ 0x36)), Cells.store second 0 (k.map (· ^^^ 0x5c))) := by
  have hPair := Cells.foldl_pair (fun (b : Bytes) i => b.set i (k.getD i 0 ^^^ 0x36))
    (fun (b : Bytes) i => b.set i (k.getD i 0 ^^^ 0x5c)) (List.range sha256BlockSize) first second
  rw [Cells.foldl_set _ _ hFirst, Cells.foldl_set _ _ hSecond, map_range_getD hk, map_range_getD hk] at hPair
  exact hPair

theorem firstHashInput_eq (heap : Nat → UInt8) {pad : Bytes} (hPad : pad.length = sha256BlockSize) (inp : Bytes) :
    Cells.store (Cells.store (Cells.fresh heap (sha256BlockSize + inp.length)) sha256BlockSize inp) 0 pad =
      pad ++ inp := by
  have hLength : pad.length + inp.length = (Cells.fresh heap (sha256BlockSize + inp.length)).length := by
    rw [hPad, Cells.length_fresh]
  rw [← hPad] at hLength ⊢
  exact Cells.store_store hLength

theorem secondHashInput_eq (stack : Nat → UInt8) {pad hash : Bytes} (hPad : pad.length = sha256BlockSize)
    (hHash : hash.length = sha256OutputSize) :
    Cells.store (Cells.store (Cells.fresh stack (sha256BlockSize + sha256OutputSize)) 0 pad) sha256BlockSize hash =
      pad ++ hash := by
  have hBack : hash.length = ((Cells.fresh stack (sha256BlockSize + sha256OutputSize)).drop pad.length).length := by
    rw [List.length_drop, Cells.length_fresh, hPad, hHash]
    rfl
  have hStore : Cells.store
      (pad ++ (Cells.fresh stack (sha256BlockSize + sha256OutputSize)).drop pad.length) pad.length hash =
      pad ++ Cells.store ((Cells.fresh stack (sha256BlockSize + sha256OutputSize)).drop pad.length) 0 hash :=
    Cells.store_append
  rw [hPad] at hStore hBack
  rw [Cells.store_zero, hPad, hStore, Cells.store_all hBack]

section Call
variable {P : Platform} {sgxSha256Msg : Nat → Bytes → ShaResult} (hSha : Hashes P sgxSha256Msg)
include hSha

theorem sha256_zero {n : Nat} {out b inp : Bytes} {off : Nat}
    (h : sha256 (sgxSha256Msg n) out off inp = (0, b)) : b = Cells.store out off (P.sgxSha256Msg inp) := by
  obtain ⟨hRet, rfl⟩ := Prod.mk.inj h
  have hSuccess : (sgxSha256Msg n inp).success = true := by
    by_contra hFails
    rw [if_neg hFails] at hRet
    cases hRet
  rw [hSha n inp hSuccess]

theorem loadKey_zero {key k : Bytes} (h : loadKey (sgxSha256Msg 0) (List.replicate sha256BlockSize 0) key = (0, k)) :
    k = hmacKey P key := by
  rw [loadKey] at h
  rw [hmacKey]
  split at h
  · case isTrue hLength =>
    cases h
    rw [if_pos hLength, store_zeros, padToBlock, hLength, Nat.sub_self, List.replicate_zero, List.append_nil]
  case isFalse hLength =>
  rw [if_neg hLength]
  split at h
  · case isTrue hLong =>
    rw [if_pos hLong, sha256_zero hSha h, store_zeros]
    rfl
  · case isFalse hShort =>
    cases h
    rw [if_neg hShort, store_zeros]

/-- Neither what the memory held before nor the layout of the two inputs shows in the result, and the key is
gone from the memory given back. -/
theorem run_of_ret_zero (hP : P.Documented) {heap stack : Nat → UInt8} {out inp key : Bytes}
    (h : (hmacSha256 sgxSha256Msg heap stack out inp key).ret = 0) :
    hmacSha256 sgxSha256Msg heap stack out inp key =
      ⟨0, Cells.store out 0 (Tcrypto.hmacSha256 P inp key), List.replicate sha256BlockSize 0,
        some (List.replicate (sha256BlockSize + inp.length) 0)⟩ := by
  rw [hmacSha256, Cells.fill_all (Cells.length_fresh ..)] at h ⊢
  cases hLoad : loadKey (sgxSha256Msg 0) (List.replicate sha256BlockSize 0) key with
  | mk ret k =>
  simp only [hLoad] at h ⊢
  split at h
  · cases h
  case isFalse hRet =>
  obtain rfl := not_not.mp hRet
  obtain rfl := loadKey_zero hSha hLoad
  have hk := length_hmacKey hP key
  have hFirst : sha256BlockSize ≤
      (Cells.store (Cells.fresh heap (sha256BlockSize + inp.length)) sha256BlockSize inp).length := by
    rw [Cells.length_store (by rw [Cells.length_fresh]), Cells.length_fresh]
    exact Nat.le_add_right ..
  have hSecond : sha256BlockSize ≤ (Cells.fresh stack (sha256BlockSize + sha256OutputSize)).length := by
    rw [Cells.length_fresh]
    exact Nat.le_add_right ..
  have hIpad : ((hmacKey P key).map (· ^^^ 0x36)).length = sha256BlockSize := by rw [List.length_map, hk]
  have hOpad : ((hmacKey P key).map (· ^^^ 0x5c)).length = sha256BlockSize := by rw [List.length_map, hk]
  rw [if_neg hRet]
  simp only [xorPads_eq hk hFirst hSecond, firstHashInput_eq heap hIpad] at h ⊢
  cases hInner : sha256 (sgxSha256Msg 1)
      (Cells.store (Cells.fresh stack (sha256BlockSize + sha256OutputSize)) 0 ((hmacKey P key).map (· ^^^ 0x5c)))
      sha256BlockSize ((hmacKey P key).map (· ^^^ 0x36) ++ inp) with
  | mk ret second =>
  simp only [hInner] at h ⊢
  split at h
  · cases h
  case isFalse hRet₁ =>
  obtain rfl := not_not.mp hRet₁
  have hSecondInput := sha256_zero hSha hInner
  rw [secondHashInput_eq stack hOpad (hP.sha256_length _)] at hSecondInput
  subst hSecondInput
  rw [if_neg hRet₁]
  cases hOuter : sha256 (sgxSha256Msg 2) out 0 ((hmacKey P key).map (· ^^^ 0x5c) ++
      P.sgxSha256Msg ((hmacKey P key).map (· ^^^ 0x36) ++ inp)) with
  | mk ret target =>
  simp only [hOuter] at h ⊢
  split at h
  · cases h
  case isFalse hRet₂ =>
  obtain rfl := not_not.mp hRet₂
  have hFreed : ((hmacKey P key).map (· ^^^ 0x36) ++ inp).length = sha256BlockSize + inp.length := by
    rw [List.length_append, hIpad]
  rw [if_neg hRet₂, sha256_zero hSha hOuter, Cells.fill_all hk, Cells.fill_all hFreed]
  rfl

end Call

theorem sha256_ret {sgxSha256Msg : Bytes → ShaResult} (h : ∀ msg, (sgxSha256Msg msg).success = true)
    (out : Bytes) (off : Nat) (inp : Bytes) : (sha256 sgxSha256Msg out off inp).1 = 0 := by
  rw [sha256]
  exact if_pos (h inp)

theorem loadKey_ret {sgxSha256Msg : Bytes → ShaResult} (h : ∀ msg, (sgxSha256Msg msg).success = true)
    (k key : Bytes) : (loadKey sgxSha256Msg k key).1 = 0 := by
  rw [loadKey]
  split
  · rfl
  split
  · exact sha256_ret h ..
  · rfl

theorem ret_of_success {sgxSha256Msg : Nat → Bytes → ShaResult}
    (h : ∀ n msg, (sgxSha256Msg n msg).success = true) (heap stack : Nat → UInt8) (out inp key : Bytes) :
    (hmacSha256 sgxSha256Msg heap stack out inp key).ret = 0 := by
  have hLoad := loadKey_ret (h 0) (Cells.fill (Cells.fresh stack sha256BlockSize) sha256BlockSize 0) key
  simp only [hmacSha256, hLoad, sha256_ret (h 1), sha256_ret (h 2), ne_eq, not_true_eq_false, if_false]

/-- Every call succeeds and leaves the hash. -/
structure Succeeds (P : Platform) (sgxSha256Msg : Nat → Bytes → ShaResult) : Prop where
  hashes : Hashes P sgxSha256Msg
  success : ∀ n msg, (sgxSha256Msg n msg).success = true

section Success
variable {P : Platform} (hP : P.Documented) {sgxSha256Msg : Nat → Bytes → ShaResult}
  (h : Succeeds P sgxSha256Msg)
include hP h

theorem out_of_success (heap stack : Nat → UInt8) (out inp key : Bytes) :
    (hmacSha256 sgxSha256Msg heap stack out inp key).out =
      Tcrypto.hmacSha256 P inp key ++ out.drop sha256OutputSize := by
  have hRet := ret_of_success h.success heap stack out inp key
  rw [run_of_ret_zero h.hashes hP hRet]
  change Cells.store out 0 (Tcrypto.hmacSha256 P inp key) = _
  rw [Cells.store_zero, length_hmacSha256 hP]

/-! ## The two callers -/

/-- `update` on one record: `counter` and `kW` are copied out of it. -/
def updateCall (sgxSha256Msg : Nat → Bytes → ShaResult) (heap stack : Nat → UInt8) (label record : Bytes) : Run :=
  let counter := readWord32 (slice record 4 4)
  let kW := slice record 12 sha256OutputSize
  hmacSha256 sgxSha256Msg heap stack label (word32 counter) kW

/-- `get_docs_from_server` on one label request. -/
def requestCall (sgxSha256Msg : Nat → Bytes → ShaResult) (heap stack : Nat → UInt8) (label : Bytes)
    (query : VecToken) (req : LabelRequest) : Run :=
  hmacSha256 sgxSha256Msg heap stack label (word32 (.ofNat 32 req.counterVal)) (tokenAt query req.tkn).kW

theorem updateCall_label (heap stack : Nat → UInt8) (label record : Bytes) :
    (updateCall sgxSha256Msg heap stack label record).out.take sha256OutputSize = (entryOf P record).1 := by
  rw [updateCall, out_of_success hP h]
  exact List.take_left' (length_hmacSha256 hP _ _)

theorem requestCall_label (heap stack : Nat → UInt8) (label : Bytes) (query : VecToken) (req : LabelRequest) :
    (requestCall sgxSha256Msg heap stack label query req).out.take sha256OutputSize =
      requestLabel P query req := by
  rw [requestCall, out_of_success hP h]
  exact List.take_left' (length_hmacSha256 hP _ _)

/-- A call whose hashes succeed writes HMAC, whatever the key and the message, so both sides get one label. -/
theorem hmacSha256_is_rfc2104 :
    (∀ (heap stack : Nat → UInt8) (out inp key : Bytes),
      (hmacSha256 sgxSha256Msg heap stack out inp key).ret = 0 ∧
        (hmacSha256 sgxSha256Msg heap stack out inp key).out =
          rfc2104 P.sgxSha256Msg key inp ++ out.drop sha256OutputSize) ∧
    ∀ (sgxSha256Msg' : Nat → Bytes → ShaResult), Succeeds P sgxSha256Msg' →
      ∀ (heap stack heap' stack' : Nat → UInt8) (label label' record : Bytes) (query : VecToken) (req : LabelRequest),
        slice record 12 sha256OutputSize = (tokenAt query req.tkn).kW →
        readWord32 (slice record 4 4) = .ofNat 32 req.counterVal →
        (updateCall sgxSha256Msg heap stack label record).out.take sha256OutputSize =
          (requestCall sgxSha256Msg' heap' stack' label' query req).out.take sha256OutputSize := by
  constructor
  · intro heap stack out inp key
    refine ⟨ret_of_success h.success heap stack out inp key, ?_⟩
    rw [out_of_success hP h, hmacSha256_eq_rfc2104 hP]
  · intro sgxSha256Msg' h' heap stack heap' stack' label label' record query req hKey hCounter
    rw [updateCall_label hP h, requestCall_label hP h']
    simp only [entryOf, requestLabel]
    rw [hKey, hCounter]

end Success

/-- SHA-256 itself; a key longer than a block is hashed first. -/
theorem hmacSha256_is_rfc2104_reference :
    let run := hmacSha256 (fun _ msg => ⟨true, Reference.sha256 msg⟩) (fun _ => 0xcd) (fun _ => 0xef)
      (List.replicate 40 0) [0x61, 0x62, 0x63] (List.replicate 65 0xaa)
    run.ret = 0 ∧ run.out = rfc2104 Reference.sha256 (List.replicate 65 0xaa) [0x61, 0x62, 0x63] ++
      List.replicate 8 0 :=
  (hmacSha256_is_rfc2104 (P := Reference.platform) Reference.documented ⟨fun _ _ _ => rfl, fun _ _ => rfl⟩).1 ..

end Bisen.HmacSha256
