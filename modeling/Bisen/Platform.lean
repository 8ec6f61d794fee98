import Bisen.Lib.Wire

/-! # What the program is given

Outcomes that do not come back to the caller, the third-party primitives, and the enclave's
own crypto wrappers over them. The primitives are parameters: `Platform.Documented` lists what
their documentation promises and what this program relies on.
-/
namespace Bisen
open Wire
set_option autoImplicit false

/-- An `exit` of the source, the parser's exception, or behaviour the language leaves open. -/
inductive Fault where
  | insufficientOperandsForAnd
  | insufficientOperandsForOr
  | insufficientOperandsForNot
  | wrongNumberOfOperandsLeft
  | labelVerificationDoesntMatch
  | labelNotFound
  | unknownCommand (op : UInt8)
  | errorReadingFromSocket
  | invalidArgument (what : String)
  | outOfBounds
  | signedOverflow
  | emptyContainer
  | divisionByZero
  | blocked
  deriving DecidableEq, Repr

/-- The four `outside_util::exit(-1)` of `evaluate`. -/
def Fault.ofEvaluate : Fault → Bool
  | .insufficientOperandsForAnd => true
  | .insufficientOperandsForOr => true
  | .insufficientOperandsForNot => true
  | .wrongNumberOfOperandsLeft => true
  | _ => false

theorem bind_eq_ok_iff {ε α β : Type} {x : Except ε α} {f : α → Except ε β} {b : β} :
    (x >>= f) = .ok b ↔ ∃ a, x = .ok a ∧ f a = .ok b := by
  cases x with
  | error e => simp [bind, Except.bind]
  | ok a => simp [bind, Except.bind]

theorem map_eq_ok_iff {ε α β : Type} {x : Except ε α} {f : α → β} {b : β} :
    x.map f = .ok b ↔ ∃ a, x = .ok a ∧ f a = b := by
  cases x with
  | error e => simp [Except.map]
  | ok a => simp [Except.map]

def intMax : Nat := 2 ^ 31 - 1

def sizeT (n : Nat) : Nat := n % 2 ^ 64

/-! ## Operation codes -/

def opRbisen : UInt8 := 0x31
def opIeeBisenBulk : UInt8 := 0x7a
def opIeeDumpBench : UInt8 := 0x76
def opSetup : UInt8 := 0x69
def opAdd : UInt8 := 0x61
def opSrc : UInt8 := 0x73
def opUeeInit : UInt8 := 0x6e
def opUeeAdd : UInt8 := 0x6f
def opUeeSearch : UInt8 := 0x70
def opUeeDumpBench : UInt8 := 0x78
def opStartSearch : UInt8 := 0x35

/-! ## Third-party primitives -/

structure Platform where
  cryptoAuthHmacsha256 : (msg key : Bytes) → Bytes
  sgxSha256Msg : (msg : Bytes) → Bytes
  sgxAesCtrEncrypt : (key src ctr : Bytes) → (ctrIncBits : Nat) → Bytes
  sgxAesCtrDecrypt : (key src ctr : Bytes) → (ctrIncBits : Nat) → Bytes

structure Platform.Documented (P : Platform) : Prop where
  hmac_length : ∀ msg key, (P.cryptoAuthHmacsha256 msg key).length = 32
  sha256_length : ∀ msg, (P.sgxSha256Msg msg).length = 32
  encrypt_length : ∀ key src ctr n, (P.sgxAesCtrEncrypt key src ctr n).length = src.length
  decrypt_length : ∀ key src ctr n, (P.sgxAesCtrDecrypt key src ctr n).length = src.length
  decrypt_encrypt : ∀ key src ctr n, P.sgxAesCtrDecrypt key (P.sgxAesCtrEncrypt key src ctr n) ctr n = src

/-- Counter mode: both directions XOR the data with a stream fixed by key and counter. -/
def Platform.XorsKeystream (P : Platform) : Prop :=
  ∃ stream : Bytes → Bytes → Nat → Nat → UInt8, ∀ key src ctr n,
    P.sgxAesCtrEncrypt key src ctr n = xor src ((List.range src.length).map (stream key ctr n)) ∧
    P.sgxAesCtrDecrypt key src ctr n = xor src ((List.range src.length).map (stream key ctr n))

/-- The counter of the `i`-th block: its low `bits` bits count, the others stay. -/
def counterBlock (ctr : Bytes) (bits i : Nat) : Bytes :=
  let n := number ctr.reverse
  (littleEndian 16 (n - n % 2 ^ bits + (n + i) % 2 ^ bits)).reverse

def keystream (cipher : (key block : Bytes) → Bytes) (key ctr : Bytes) (bits len : Nat) : Bytes :=
  (List.range len).map fun j => (cipher key (counterBlock ctr bits (j / 16))).getD (j % 16) 0

/-- What the counter mode is made of: a block cipher on successive counters. -/
def Platform.CounterMode (P : Platform) : Prop :=
  ∃ cipher : Bytes → Bytes → Bytes, ∀ key src ctr n,
    P.sgxAesCtrEncrypt key src ctr n = xor src (keystream cipher key ctr n src.length) ∧
    P.sgxAesCtrDecrypt key src ctr n = xor src (keystream cipher key ctr n src.length)

theorem Platform.CounterMode.xorsKeystream {P : Platform} (h : P.CounterMode) : P.XorsKeystream := by
  obtain ⟨cipher, hCipher⟩ := h
  exact ⟨fun key ctr n j => (cipher key (counterBlock ctr n (j / 16))).getD (j % 16) 0, hCipher⟩

@[simp] theorem length_keystream (cipher : Bytes → Bytes → Bytes) (key ctr : Bytes) (bits len : Nat) :
    (keystream cipher key ctr bits len).length = len := by
  rw [keystream, List.length_map, List.length_range]

namespace Tcrypto

def sha256OutputSize : Nat := 32
def sha256BlockSize : Nat := 64
def aesKeySize : Nat := 16
def aesBlockSize : Nat := 16

def sha256 (P : Platform) (msg : Bytes) : Bytes := P.sgxSha256Msg msg

/-- A zeroed 64-byte block overwritten from its start. -/
def padToBlock (b : Bytes) : Bytes := b ++ List.replicate (sha256BlockSize - b.length) 0

def hmacKey (P : Platform) (key : Bytes) : Bytes :=
  if key.length = sha256BlockSize then key
  else if key.length > sha256BlockSize then padToBlock (sha256 P key)
  else padToBlock key

def hmacSha256 (P : Platform) (msg key : Bytes) : Bytes :=
  let k := hmacKey P key
  let firstHashInput := k.map (· ^^^ 0x36) ++ msg
  let secondHashInput := k.map (· ^^^ 0x5c) ++ sha256 P firstHashInput
  sha256 P secondHashInput

def ctrIncBits : Nat := 1

def encrypt (P : Platform) (data key ctr : Bytes) : Bytes := P.sgxAesCtrEncrypt key data ctr ctrIncBits

def decrypt (P : Platform) (data key ctr : Bytes) : Bytes := P.sgxAesCtrDecrypt key data ctr ctrIncBits

theorem length_hmacSha256 {P : Platform} (hP : P.Documented) (msg key : Bytes) :
    (hmacSha256 P msg key).length = sha256OutputSize := hP.sha256_length _

theorem decrypt_encrypt {P : Platform} (hP : P.Documented) (data key ctr : Bytes) :
    decrypt P (encrypt P data key ctr) key ctr = data := hP.decrypt_encrypt key data ctr ctrIncBits

theorem length_encrypt {P : Platform} (hP : P.Documented) (data key ctr : Bytes) :
    (encrypt P data key ctr).length = data.length := hP.encrypt_length key data ctr ctrIncBits

end Tcrypto
end Bisen
