import Bisen.VecToken
import Mathlib.Order.Defs.LinearOrder

/-! # Scoring and the reply

The reply carries a count, the build's scoring flag and that many records, in a buffer whose
length the build fixes. Floating point, the sort of libc and the state in which scoring finds
the posting lists are parameters of the build.
-/
namespace Bisen
open Wire
set_option autoImplicit false

/-- `double` arithmetic as the source uses it, and its eight bytes in memory. -/
structure Doubles (R : Type) where
  zero : R
  ofInt : BitVec 32 → R
  ofUnsigned : Nat → R
  add : R → R → R
  mul : R → R → R
  div : R → R → R
  log10 : R → R
  toBytes : R → Bytes
  ofBytes : Bytes → R

/-- `evaluate` frees the lists of its operands; `reread` is the query as scoring finds it later. -/
structure Build where
  R : Type
  [order : LinearOrder R]
  doubles : Doubles R
  qsort : (Bytes → Bytes → Int) → List Bytes → List Bytes
  bisenScoring : Bool
  reread : VecToken → VecToken

attribute [instance] Build.order

/-- A comparator that orders its arguments consistently, as `qsort` requires. -/
structure ConsistentComparator (cmp : Bytes → Bytes → Int) : Prop where
  swap : ∀ a b, cmp a b ≤ 0 ↔ 0 ≤ cmp b a
  trans : ∀ a b c, cmp a b ≤ 0 → cmp b c ≤ 0 → cmp a c ≤ 0

structure Build.Documented (B : Build) : Prop where
  toBytes_length : ∀ x, (B.doubles.toBytes x).length = 8
  ofBytes_toBytes : ∀ x, B.doubles.ofBytes (B.doubles.toBytes x) = x
  qsort_perm : ∀ cmp, ConsistentComparator cmp → ∀ l, (B.qsort cmp l).Perm l
  qsort_sorted : ∀ cmp, ConsistentComparator cmp → ∀ l, (B.qsort cmp l).Pairwise fun a b => cmp a b ≤ 0

namespace Response
open VecInt VecToken

def threshold : Nat := 10

variable (B : Build)

def pairLen : Nat := if B.bisenScoring then 4 + 8 else 4

def idfOf (totalDocs : BitVec 32) (t : IeeToken) : B.R :=
  let nrDocs := viSize t.docs
  if nrDocs = 0 then B.doubles.zero
  else B.doubles.log10 (B.doubles.div (B.doubles.ofUnsigned totalDocs.toNat) (B.doubles.ofUnsigned nrDocs))

/-- `calc_idf`: every word token beside its `idf`. -/
def calcIdf (query : VecToken) (totalDocs : BitVec 32) : List (IeeToken × B.R) :=
  (query.elems.filter (·.type = wordToken)).map fun t => (t, idfOf B totalDocs t)

def tfIdf (terms : List (IeeToken × B.R)) (currDoc : BitVec 32) : B.R :=
  terms.foldl (fun acc (t, idf) =>
    let pos := viIndexOf t.docs currDoc
    if pos ≠ -1 then
      B.doubles.add acc (B.doubles.mul (B.doubles.ofInt (t.docFrequencies.array.getD pos.toNat 0)) idf)
    else acc) B.doubles.zero

def calcTfidf (terms : List (IeeToken × B.R)) (responseDocs : VecInt) : List Bytes :=
  responseDocs.elems.map fun currDoc => word32 currDoc ++ B.doubles.toBytes (tfIdf B terms currDoc)

def compareResultsRbisen (a b : Bytes) : Int :=
  let dA := B.doubles.ofBytes (slice a 4 8)
  let dB := B.doubles.ofBytes (slice b 4 8)
  if dA = dB then 0 else if dA < dB then 1 else -1

def results (query : VecToken) (nDocs : BitVec 32) (responseDocs : VecInt) : List Bytes :=
  if B.bisenScoring then
    B.qsort (compareResultsRbisen B) (calcTfidf B (calcIdf B query nDocs) responseDocs)
  else responseDocs.elems.map word32

/-- The last part of `search`, from the evaluated list on. -/
def respond (query : VecToken) (nDocs : BitVec 32) (responseDocs : VecInt) : Bytes :=
  let originalResSize := viSize responseDocs
  let resultsBuffer := if originalResSize ≠ 0 then (results B query nDocs responseDocs).flatten else []
  let threshold := if B.bisenScoring then threshold else originalResSize
  let elements := min threshold originalResSize
  let copied := resultsBuffer.take (elements * pairLen B)
  word64 (.ofNat 64 elements) ++ [if B.bisenScoring then 1 else 0] ++
    (copied ++ (List.replicate (threshold * pairLen B) 0).drop copied.length)

theorem length_respond (h : B.bisenScoring = true) (query : VecToken) (nDocs : BitVec 32)
    (responseDocs : VecInt) : (respond B query nDocs responseDocs).length = 129 := by
  have hPair : pairLen B = 12 := by rw [pairLen, if_pos h]
  unfold respond
  simp only [h, if_true, hPair, List.length_append, length_word64, List.length_singleton, List.length_drop,
    List.length_replicate, List.length_take, threshold]
  omega

/-- Of the evaluated list only the documents matter, not the array around them. -/
theorem respond_congr (query : VecToken) (nDocs : BitVec 32) {v w : VecInt} (hElems : v.elems = w.elems)
    (hCounter : v.counter = w.counter) : respond B query nDocs v = respond B query nDocs w := by
  have hResults : results B query nDocs v = results B query nDocs w := by
    rw [results, results, calcTfidf, calcTfidf, hElems]
  rw [respond, respond, viSize, viSize, hCounter, hResults]

/-! ## The client's reading of it -/

/-- `bisen_search`: the ids, each with its score where the flag announces one. -/
def decode (reply : Bytes) : List (BitVec 32 × Option B.R) :=
  let nDocs := (readWord64 (reply.take 8)).toNat
  let hasScoring := (slice reply 8 1).getD 0 0 ≠ 0
  let pairLen := if hasScoring then 4 + 8 else 4
  (chunks pairLen nDocs (reply.drop 9)).map fun p =>
    (readWord32 (p.take 4), if hasScoring then some (B.doubles.ofBytes (p.drop 4)) else none)

end Response
end Bisen
