import Bisen.EvaluatorSets
import Bisen.Lib.Heap
import Bisen.Lib.Simulation
import Bisen.Response

/-! # The arrays behind the lists

A `vec_int` is copied by value, its array is not: the posting list of a word is reached from the
query and, once the word was pushed, from the stack. Here the arrays stand in a heap. Every
evaluation frees each array at most once, and one that uses an operator frees all the lists that
scoring is about to read.
-/
namespace Bisen.PostingArrays
open Wire VecInt VecToken EvaluatorSets
set_option autoImplicit false

inductive StoreFault where
  | fault (e : Fault)
  | absent
  | removedTwice
  deriving DecidableEq, Repr

abbrev Store := Heap (List (BitVec 32))

/-- `vec_int`: a pointer to the array, and its two sizes. -/
structure VecRef where
  array : Nat
  maxSize : Nat
  counter : Nat
  deriving DecidableEq, Repr

def VecRef.read (v : VecRef) (store : Store) : Except StoreFault VecInt :=
  match store.get v.array with
  | some array => .ok ⟨array, v.maxSize, v.counter⟩
  | none => .error .absent

/-- `vi_init`, and the pushes into the new array. -/
def place (v : VecInt) (store : Store) : VecRef × Store :=
  (⟨store.next, v.maxSize, v.counter⟩, store.alloc v.array)

def viDestroy (store : Store) (v : VecRef) : Except StoreFault Store :=
  match store.free v.array with
  | some store => .ok store
  | none => .error .removedTwice

/-- The fields of `iee_token` that `evaluate` and the scoring use. Where the source leaves a list
unset, it is `VecRef.unset`. -/
structure TokenRef where
  type : UInt8
  docs : VecRef
  docFrequencies : VecRef
  deriving DecidableEq, Repr

def VecRef.unset : VecRef := ⟨0, 0, 0⟩

/-- What the decoder allocates for a token, as `get_docs_from_server` has filled it. -/
def loadToken (t : IeeToken) (store : Store) : TokenRef × Store :=
  if t.type = wordToken then
    let (docs, store) := place t.docs store
    let (docFrequencies, store) := place t.docFrequencies store
    (⟨t.type, docs, docFrequencies⟩, store)
  else (⟨t.type, .unset, .unset⟩, store)

def load : List IeeToken → Store → List TokenRef × Store
  | [], store => ([], store)
  | t :: ts, store =>
    let (tkn, store) := loadToken t store
    let (tkns, store) := load ts store
    (tkn :: tkns, store)

/-! ## The evaluator -/

/-- The stack has its top first. -/
structure State where
  evalStack : List TokenRef
  count : List UInt8
  store : Store

def liftFault {α : Type} : Except Fault α → Except StoreFault α
  | .ok a => .ok a
  | .error e => .error (.fault e)

def resultOf (docs : VecRef) : TokenRef := ⟨resultToken, docs, .unset⟩

/-- The last part of each operator: the result is pushed and the operands are destroyed. -/
def pushResult (set : VecInt) (count : List UInt8) (operands rest : List TokenRef) (store : Store) :
    Except StoreFault State := do
  let (res, store) := place set store
  let store ← (operands.map (·.docs)).foldlM viDestroy store
  pure ⟨resultOf res :: rest, count, store⟩

def binary (op : VecInt → VecInt → List UInt8 → Except Fault (VecInt × List UInt8)) (insufficient : Fault)
    (s : State) : Except StoreFault State :=
  match s.evalStack with
  | top :: next :: rest => do
    let a ← top.docs.read s.store
    let b ← next.docs.read s.store
    let (set, count) ← liftFault (op a b s.count)
    pushResult set count [top, next] rest s.store
  | _ => .error (.fault insufficient)

def unary (op : VecInt → List UInt8 → Except Fault (VecInt × List UInt8)) (insufficient : Fault)
    (s : State) : Except StoreFault State :=
  match s.evalStack with
  | top :: rest => do
    let a ← top.docs.read s.store
    let (set, count) ← liftFault (op a s.count)
    pushResult set count [top] rest s.store
  | [] => .error (.fault insufficient)

def evaluateToken (nDocs : BitVec 32) (s : State) (tkn : TokenRef) : Except StoreFault State :=
  if tkn.type = andToken then
    binary (fun and1 and2 count => viVecIntersection and1 and2 count nDocs.toNat) .insufficientOperandsForAnd s
  else if tkn.type = orToken then
    binary (fun or1 or2 count => viVecUnion or1 or2 count nDocs.toNat) .insufficientOperandsForOr s
  else if tkn.type = notToken then unary (getNotDocs nDocs) .insufficientOperandsForNot s
  else .ok { s with evalStack := tkn :: s.evalStack }

def evaluate (rpnExpr : List TokenRef) (nDocs : BitVec 32) (count : List UInt8) (store : Store) :
    Except StoreFault (VecRef × State) := do
  let s ← rpnExpr.foldlM (evaluateToken nDocs) ⟨[], count, store⟩
  match s.evalStack with
  | [top] => pure (top.docs, s)
  | _ => .error (.fault .wrongNumberOfOperandsLeft)

/-! ## Scoring and the end of the call -/

section Scoring
variable (B : Build)

def viIndexOf (v : VecRef) (e : BitVec 32) (store : Store) : Except StoreFault Int :=
  if v.counter = 0 then .ok (-1)
  else do
    let list ← v.read store
    pure (VecInt.viIndexOf list e)

def idfOf (totalDocs : BitVec 32) (t : TokenRef) : B.R :=
  let nrDocs := t.docs.counter
  if nrDocs = 0 then B.doubles.zero
  else B.doubles.log10 (B.doubles.div (B.doubles.ofUnsigned totalDocs.toNat) (B.doubles.ofUnsigned nrDocs))

/-- `calc_idf` looks at the sizes only. -/
def calcIdf (query : List TokenRef) (totalDocs : BitVec 32) : List (TokenRef × B.R) :=
  (query.filter (·.type = wordToken)).map fun t => (t, idfOf B totalDocs t)

def addTerm (currDoc : BitVec 32) (store : Store) (acc : B.R) (term : TokenRef × B.R) : Except StoreFault B.R := do
  let (t, idf) := term
  let pos ← viIndexOf t.docs currDoc store
  if pos ≠ -1 then do
    let docFrequencies ← t.docFrequencies.read store
    pure (B.doubles.add acc (B.doubles.mul (B.doubles.ofInt (docFrequencies.array.getD pos.toNat 0)) idf))
  else pure acc

def tfIdf (terms : List (TokenRef × B.R)) (currDoc : BitVec 32) (store : Store) : Except StoreFault B.R :=
  terms.foldlM (addTerm B currDoc store) B.doubles.zero

def calcTfidf (terms : List (TokenRef × B.R)) (responseDocs : List (BitVec 32)) (store : Store) :
    Except StoreFault (List Bytes) :=
  responseDocs.mapM fun currDoc => do
    let tfIdf ← tfIdf B terms currDoc store
    pure (word32 currDoc ++ B.doubles.toBytes tfIdf)

end Scoring

/-- The states that one search goes through: with the lists fetched, evaluated, and at its end. -/
structure Search where
  query : List TokenRef
  fetched : Store
  evaluated : Store
  responseDocs : VecRef
  ended : Store

/-- The loop over the query at the end of `search` no longer destroys the lists of its tokens. -/
def search (query : List IeeToken) (nDocs : BitVec 32) (count : List UInt8) (store : Store) :
    Except StoreFault Search := do
  let (tkns, fetched) := load query store
  let (responseDocs, s) ← evaluate tkns nDocs count fetched
  let ended ← viDestroy s.store responseDocs
  pure ⟨tkns, fetched, s.store, responseDocs, ended⟩

/-! ## The lists as the evaluator finds them -/

def wordArrays (tkns : List TokenRef) : List Nat := (tkns.filter (·.type = wordToken)).map (·.docs.array)

theorem mem_wordArrays {tkns : List TokenRef} {r : TokenRef} (hr : r ∈ tkns) (hWord : r.type = wordToken) :
    r.docs.array ∈ wordArrays tkns :=
  List.mem_map_of_mem (List.mem_filter.mpr ⟨hr, decide_eq_true hWord⟩)

def frequencyArrays (tkns : List TokenRef) : List Nat :=
  (tkns.filter (·.type = wordToken)).map (·.docFrequencies.array)

theorem read_congr {store store' : Store} {v : VecRef} (h : store'.get v.array = store.get v.array) :
    v.read store' = v.read store := by rw [VecRef.read, VecRef.read, h]

theorem read_of_get {store : Store} {v : VecInt} {a : Nat} (h : store.get a = some v.array) :
    VecRef.read ⟨a, v.maxSize, v.counter⟩ store = .ok v := by rw [VecRef.read, h]

/-- The token's lists in the store are its own. -/
structure Stored (store : Store) (t : IeeToken) (r : TokenRef) : Prop where
  type : r.type = t.type
  docs : t.type = wordToken → r.docs.read store = .ok t.docs
  docFrequencies : t.type = wordToken → r.docFrequencies.read store = .ok t.docFrequencies

structure Loaded (start store : Store) (ts : List IeeToken) (rs : List TokenRef) : Prop where
  stored : List.Forall₂ (Stored store) ts rs
  owns : store.Owns (wordArrays rs ++ frequencyArrays rs)
  new : ∀ a ∈ wordArrays rs ++ frequencyArrays rs, start.next ≤ a
  kept : ∀ a x, start.get a = some x → store.get a = some x

theorem Loaded.nil (start : Store) : Loaded start start [] [] :=
  ⟨.nil, ⟨List.forall_mem_nil _, List.nodup_nil⟩, List.forall_mem_nil _, fun _ _ h => h⟩

theorem Loaded.cons_word {start store : Store} {t : IeeToken} {ts : List IeeToken} {rs : List TokenRef}
    (hWord : t.type = wordToken)
    (h : Loaded ((start.alloc t.docs.array).alloc t.docFrequencies.array) store ts rs) :
    Loaded start store (t :: ts) (⟨t.type, ⟨start.next, t.docs.maxSize, t.docs.counter⟩,
      ⟨start.next + 1, t.docFrequencies.maxSize, t.docFrequencies.counter⟩⟩ :: rs) := by
  obtain ⟨hStored, hOwns, hNew, hKept⟩ := h
  have hDocs : store.get start.next = some t.docs.array :=
    hKept _ _ (Heap.get_alloc_of_get (Heap.get_alloc_next ..) _)
  have hFrequencies : store.get (start.next + 1) = some t.docFrequencies.array :=
    hKept _ _ (Heap.get_alloc_next ..)
  have hPerm : ((start.next + 1) :: start.next :: (wordArrays rs ++ frequencyArrays rs)).Perm
      ((start.next :: wordArrays rs) ++ (start.next + 1) :: frequencyArrays rs) := by
    rw [← List.cons_append]
    exact List.perm_middle.symm
  have hArrays : ∀ d f, wordArrays (⟨t.type, d, f⟩ :: rs) ++ frequencyArrays (⟨t.type, d, f⟩ :: rs) =
      (d.array :: wordArrays rs) ++ f.array :: frequencyArrays rs := by
    intro d f
    simp [wordArrays, frequencyArrays, hWord]
  rw [Heap.next_alloc, Heap.next_alloc] at hNew
  refine ⟨.cons ⟨rfl, fun _ => read_of_get hDocs, fun _ => read_of_get hFrequencies⟩ hStored, ?_, ?_, ?_⟩
  · rw [hArrays]
    refine Heap.Owns.perm ⟨?_, ?_⟩ hPerm
    · intro a ha
      obtain rfl | ha := List.mem_cons.mp ha
      · rw [hFrequencies]
        rfl
      obtain rfl | ha := List.mem_cons.mp ha
      · rw [hDocs]
        rfl
      · exact hOwns.live a ha
    · refine List.nodup_cons.mpr ⟨?_, List.nodup_cons.mpr ⟨?_, hOwns.nodup⟩⟩
      · intro hMem
        obtain hEq | hMem := List.mem_cons.mp hMem
        · omega
        · have := hNew _ hMem
          omega
      · intro hMem
        have := hNew _ hMem
        omega
  · rw [hArrays]
    intro a ha
    rw [← hPerm.mem_iff] at ha
    obtain rfl | ha := List.mem_cons.mp ha
    · exact Nat.le_succ _
    obtain rfl | ha := List.mem_cons.mp ha
    · exact Nat.le_refl _
    · have := hNew a ha
      omega
  · exact fun a x hGet => hKept a x (Heap.get_alloc_of_get (Heap.get_alloc_of_get hGet _) _)

theorem Loaded.cons_other {start store : Store} {t : IeeToken} {ts : List IeeToken} {rs : List TokenRef}
    (hOther : t.type ≠ wordToken) (h : Loaded start store ts rs) :
    Loaded start store (t :: ts) (⟨t.type, .unset, .unset⟩ :: rs) := by
  obtain ⟨hStored, hOwns, hNew, hKept⟩ := h
  have hArrays : wordArrays (⟨t.type, .unset, .unset⟩ :: rs) ++ frequencyArrays (⟨t.type, .unset, .unset⟩ :: rs) =
      wordArrays rs ++ frequencyArrays rs := by
    simp [wordArrays, frequencyArrays, hOther]
  refine ⟨.cons ⟨rfl, fun hWord => absurd hWord hOther, fun hWord => absurd hWord hOther⟩ hStored, ?_, ?_, hKept⟩
  · rwa [hArrays]
  · rwa [hArrays]

theorem load_loaded (ts : List IeeToken) (start : Store) : Loaded start (load ts start).2 ts (load ts start).1 := by
  induction ts generalizing start with
  | nil => exact .nil start
  | cons t ts ih =>
    have hLoad : load (t :: ts) start = ((loadToken t start).1 :: (load ts (loadToken t start).2).1,
        (load ts (loadToken t start).2).2) := rfl
    rw [hLoad, loadToken]
    split
    · case isTrue hWord => exact .cons_word hWord (ih _)
    · case isFalse hOther => exact .cons_other hOther (ih start)

end Bisen.PostingArrays
