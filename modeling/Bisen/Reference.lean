import Bisen.Response
import Mathlib.Data.List.Sort
import Mathlib.Order.Fin.Basic

/-! # A reference platform and build

SHA-256, its HMAC, and the AES counter stream that the enclave uses: its key and its initial
counter are all zeros, and only the lowest counter bit moves, so two AES blocks are all of it.
The build computes with the integers from 0 to 20 in their `double` encoding. It is exact where
results stay in that range, quotients are whole, and logarithms are taken of 1 and 10 only. Platform
and build keep every documented promise.
-/
namespace Bisen.Reference
open Wire
set_option autoImplicit false

/-! ## SHA-256 -/

structure Chain where
  a : UInt32
  b : UInt32
  c : UInt32
  d : UInt32
  e : UInt32
  f : UInt32
  g : UInt32
  h : UInt32

def rotr (x n : UInt32) : UInt32 := x >>> n ||| x <<< (32 - n)

def roundConstants : List UInt32 :=
  [0x428a2f98, 0x71374491, 0xb5c0fbcf, 0xe9b5dba5, 0x3956c25b, 0x59f111f1, 0x923f82a4, 0xab1c5ed5,
   0xd807aa98, 0x12835b01, 0x243185be, 0x550c7dc3, 0x72be5d74, 0x80deb1fe, 0x9bdc06a7, 0xc19bf174,
   0xe49b69c1, 0xefbe4786, 0x0fc19dc6, 0x240ca1cc, 0x2de92c6f, 0x4a7484aa, 0x5cb0a9dc, 0x76f988da,
   0x983e5152, 0xa831c66d, 0xb00327c8, 0xbf597fc7, 0xc6e00bf3, 0xd5a79147, 0x06ca6351, 0x14292967,
   0x27b70a85, 0x2e1b2138, 0x4d2c6dfc, 0x53380d13, 0x650a7354, 0x766a0abb, 0x81c2c92e, 0x92722c85,
   0xa2bfe8a1, 0xa81a664b, 0xc24b8b70, 0xc76c51a3, 0xd192e819, 0xd6990624, 0xf40e3585, 0x106aa070,
   0x19a4c116, 0x1e376c08, 0x2748774c, 0x34b0bcb5, 0x391c0cb3, 0x4ed8aa4a, 0x5b9cca4f, 0x682e6ff3,
   0x748f82ee, 0x78a5636f, 0x84c87814, 0x8cc70208, 0x90befffa, 0xa4506ceb, 0xbef9a3f7, 0xc67178f2]

def initial : Chain :=
  ⟨0x6a09e667, 0xbb67ae85, 0x3c6ef372, 0xa54ff53a,
   0x510e527f, 0x9b05688c, 0x1f83d9ab, 0x5be0cd19⟩

/-- The message schedule, newest word first while it grows. -/
def schedule : Nat → List UInt32 → List UInt32
  | 0, w => w.reverse
  | n + 1, w =>
    let x := w.getD 14 0
    let y := w.getD 1 0
    let s0 := rotr x 7 ^^^ rotr x 18 ^^^ x >>> 3
    let s1 := rotr y 17 ^^^ rotr y 19 ^^^ y >>> 10
    schedule n ((w.getD 15 0 + s0 + w.getD 6 0 + s1) :: w)

def round (s : Chain) (kw : UInt32 × UInt32) : Chain :=
  let s1 := rotr s.e 6 ^^^ rotr s.e 11 ^^^ rotr s.e 25
  let ch := (s.e &&& s.f) ^^^ (~~~s.e &&& s.g)
  let t1 := s.h + s1 + ch + kw.1 + kw.2
  let s0 := rotr s.a 2 ^^^ rotr s.a 13 ^^^ rotr s.a 22
  let maj := (s.a &&& s.b) ^^^ (s.a &&& s.c) ^^^ (s.b &&& s.c)
  ⟨t1 + (s0 + maj), s.a, s.b, s.c, s.d + t1, s.e, s.f, s.g⟩

def wordOf (b : Bytes) : UInt32 := b.foldl (fun n d => n <<< 8 ||| d.toUInt32) 0

def bytesOf (x : UInt32) : Bytes :=
  [(x >>> 24).toUInt8, (x >>> 16).toUInt8, (x >>> 8).toUInt8, x.toUInt8]

def compress (s : Chain) (block : Bytes) : Chain :=
  let words := (chunks 4 16 block).map wordOf
  let t := (roundConstants.zip (schedule 48 words.reverse)).foldl round s
  ⟨s.a + t.a, s.b + t.b, s.c + t.c, s.d + t.d, s.e + t.e, s.f + t.f, s.g + t.g, s.h + t.h⟩

def padded (msg : Bytes) : Bytes :=
  msg ++ 0x80 :: List.replicate ((119 - msg.length % 64) % 64) 0 ++ (littleEndian 8 (8 * msg.length)).reverse

def sha256 (msg : Bytes) : Bytes :=
  let s := (chunks 64 ((padded msg).length / 64) (padded msg)).foldl compress initial
  [s.a, s.b, s.c, s.d, s.e, s.f, s.g, s.h].flatMap bytesOf

theorem length_sha256 (msg : Bytes) : (sha256 msg).length = 32 := rfl

def hmacSha256 (msg key : Bytes) : Bytes :=
  let k := key ++ List.replicate (64 - key.length) 0
  sha256 (k.map (· ^^^ 0x5c) ++ sha256 (k.map (· ^^^ 0x36) ++ msg))

/-! ## The counter stream -/

def zeroBlock : Bytes := List.replicate 16 0

/-- AES-128 under the zero key on the blocks 0 and 1; on nothing else is it ever used. -/
def aesBlock (key block : Bytes) : Bytes :=
  if key = zeroBlock ∧ block = zeroBlock then
    [0x66, 0xe9, 0x4b, 0xd4, 0xef, 0x8a, 0x2c, 0x3b, 0x88, 0x4c, 0xfa, 0x59, 0xca, 0x34, 0x2b, 0x2e]
  else if key = zeroBlock ∧ block = zeroBlock.set 15 1 then
    [0x58, 0xe2, 0xfc, 0xce, 0xfa, 0x7e, 0x30, 0x61, 0x36, 0x7f, 0x1d, 0x57, 0xa4, 0xe7, 0x45, 0x5a]
  else zeroBlock

def aesCtr (key src ctr : Bytes) (ctrIncBits : Nat) : Bytes :=
  xor src (keystream aesBlock key ctr ctrIncBits src.length)

def platform : Platform where
  cryptoAuthHmacsha256 := hmacSha256
  sgxSha256Msg := sha256
  sgxAesCtrEncrypt := aesCtr
  sgxAesCtrDecrypt := aesCtr

theorem counterMode : platform.CounterMode := ⟨aesBlock, fun _ _ _ _ => ⟨rfl, rfl⟩⟩

theorem length_aesCtr (key src ctr : Bytes) (n : Nat) : (aesCtr key src ctr n).length = src.length := by
  rw [aesCtr, length_xor, length_keystream, Nat.min_self]

theorem documented : platform.Documented where
  hmac_length _ _ := length_sha256 _
  sha256_length := length_sha256
  encrypt_length := length_aesCtr
  decrypt_length := length_aesCtr
  decrypt_encrypt key src ctr n := by
    change aesCtr key (aesCtr key src ctr n) ctr n = src
    rw [aesCtr, length_aesCtr]
    exact xor_xor_cancel (by rw [length_keystream])

/-! ## A build -/

/-- The two high bytes of the doubles 0 to 20; their other bytes are zero. -/
def doubleHigh : List Bytes :=
  [[0, 0], [0xf0, 0x3f], [0, 0x40], [0x08, 0x40], [0x10, 0x40], [0x14, 0x40], [0x18, 0x40], [0x1c, 0x40],
   [0x20, 0x40], [0x22, 0x40], [0x24, 0x40], [0x26, 0x40], [0x28, 0x40], [0x2a, 0x40], [0x2c, 0x40], [0x2e, 0x40],
   [0x30, 0x40], [0x31, 0x40], [0x32, 0x40], [0x33, 0x40], [0x34, 0x40]]

def doubles : Doubles (Fin 21) where
  zero := 0
  ofInt x := Fin.ofNat 21 x.toNat
  ofUnsigned := Fin.ofNat 21
  add x y := x + y
  mul x y := x * y
  div x y := Fin.ofNat 21 (x.val / y.val)
  log10 x := if x = 10 then 1 else 0
  toBytes x := List.replicate 6 0 ++ doubleHigh.getD x.val []
  ofBytes b := Fin.ofNat 21 (doubleHigh.idxOf (b.drop 6))

def build (scoring : Bool) : Build where
  R := Fin 21
  doubles := doubles
  qsort cmp l := l.insertionSort fun a b => cmp a b ≤ 0
  bisenScoring := scoring
  reread := id

theorem build_documented (scoring : Bool) : (build scoring).Documented where
  toBytes_length := by
    change ∀ x : Fin 21, (doubles.toBytes x).length = 8
    decide
  ofBytes_toBytes := by
    change ∀ x : Fin 21, doubles.ofBytes (doubles.toBytes x) = x
    decide
  qsort_perm cmp _ l := List.perm_insertionSort _ l
  qsort_sorted cmp hCmp l := by
    have hTotal : Std.Total fun a b : Bytes => cmp a b ≤ 0 := ⟨fun a b => by
      obtain h | h := le_total (cmp a b) 0
      · exact .inl h
      · exact .inr ((hCmp.swap b a).mpr h)⟩
    have hTrans : IsTrans Bytes fun a b => cmp a b ≤ 0 := ⟨hCmp.trans⟩
    exact List.pairwise_insertionSort _ l

example : sha256 [0x61, 0x62, 0x63] =
    [0xba, 0x78, 0x16, 0xbf, 0x8f, 0x01, 0xcf, 0xea, 0x41, 0x41, 0x40, 0xde, 0x5d, 0xae, 0x22, 0x23,
     0xb0, 0x03, 0x61, 0xa3, 0x96, 0x17, 0x7a, 0x9c, 0xb4, 0x10, 0xff, 0x61, 0xf2, 0x00, 0x15, 0xad] := by
  decide +kernel

end Bisen.Reference
