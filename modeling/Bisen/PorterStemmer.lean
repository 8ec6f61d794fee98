import Bisen.WikiExtractor
import Bisen.Lib.SuffixRules

/-! # The Porter stemmer

`stem` works in place on the characters `b[k0]` to `b[k]` of a buffer. Its functions share the offset `j`,
which `ends` leaves before the suffix it has found and which keeps its value between two calls. A read or a
write outside the buffer is a fault.
-/
namespace Bisen.PorterStemmer
open Wire SuffixRules
set_option autoImplicit false

/-- The static variables. -/
structure State where
  b : Bytes
  k : Int
  k0 : Int
  j : Int
  deriving DecidableEq, Repr

def ascii (s : String) : Bytes := s.toList.map Char.toUInt8

/-! ## The buffer -/

section Memory
variable (s : State)

def read : Int → Except Fault UInt8
  | .ofNat n =>
    match s.b[n]? with
    | some c => .ok c
    | none => .error .outOfBounds
  | .negSucc _ => .error .outOfBounds

/-- The range that `memcmp` may read. -/
def readRange (i : Int) (n : Nat) : Except Fault Bytes :=
  if 0 ≤ i ∧ i + n ≤ s.b.length then .ok ((s.b.drop i.toNat).take n) else .error .outOfBounds

/-- `memmove` into the buffer. -/
def writeRange (i : Int) (src : Bytes) : Except Fault State :=
  if 0 ≤ i ∧ i + src.length ≤ s.b.length then .ok { s with b := Cells.store s.b i.toNat src }
  else .error .outOfBounds

end Memory

/-! ## Consonants and vowels -/

def isVowel (c : UInt8) : Bool :=
  c == 'a'.toUInt8 || c == 'e'.toUInt8 || c == 'i'.toUInt8 || c == 'o'.toUInt8 || c == 'u'.toUInt8

section Letters
variable (s : State)

/-- A `y` looks at the character before it; the recursion is over before the index is below the buffer. -/
def consFrom : Nat → Int → Except Fault Bool
  | 0, _ => .error .outOfBounds
  | fuel + 1, i => do
    let c ← read s i
    if isVowel c then return false
    else if c = 'y'.toUInt8 then
      if i = s.k0 then return true
      else return !(← consFrom fuel (i - 1))
    else return true

def cons (i : Int) : Except Fault Bool := consFrom s (i.toNat + 1) i

/-- `while (TRUE) { if (i > j) return n; if (cons(i) == c) break; i++; }`: where it breaks, or none. -/
def seek (c : Bool) : Nat → Int → Except Fault (Option Int)
  | 0, _ => .ok none
  | fuel + 1, i => do
    if i > s.j then return none
    else if (← cons s i) = c then return some i
    else seek c fuel (i + 1)

/-- No loop makes more rounds than there are characters from `k0` to `j`. -/
def span : Nat := (s.j - s.k0 + 1).toNat

/-- The outer loop of `m`. -/
def countFrom : Nat → Int → Nat → Except Fault Nat
  | 0, _, n => .ok n
  | fuel + 1, i, n => do
    match ← seek s true (span s) i with
    | none => return n
    | some i =>
      match ← seek s false (span s) (i + 1) with
      | none => return n + 1
      | some i => countFrom fuel (i + 1) (n + 1)

def m : Except Fault Nat := do
  match ← seek s false (span s) s.k0 with
  | none => return 0
  | some i => countFrom s (span s) (i + 1) 0

def vowelinstem : Except Fault Bool := do
  return (← seek s false (span s) s.k0).isSome

def doublec (j : Int) : Except Fault Bool := do
  if j < s.k0 + 1 then return false
  else if (← read s j) ≠ (← read s (j - 1)) then return false
  else cons s j

def cvc (i : Int) : Except Fault Bool := do
  if i < s.k0 + 2 then return false
  else if !(← cons s i) then return false
  else if ← cons s (i - 1) then return false
  else if !(← cons s (i - 2)) then return false
  else
    let ch ← read s i
    return !(ch == 'w'.toUInt8 || ch == 'x'.toUInt8 || ch == 'y'.toUInt8)

end Letters

/-! ## Suffixes -/

/-- The string comes without the byte that holds its length. -/
def ends (s : State) (suffix : Bytes) : Except Fault (Bool × State) := do
  if suffix.getLast? ≠ some (← read s s.k) then return (false, s)
  else if suffix.length > s.k - s.k0 + 1 then return (false, s)
  else if (← readRange s (s.k - suffix.length + 1) suffix.length) ≠ suffix then return (false, s)
  else return (true, { s with j := s.k - suffix.length })

def setto (s : State) (t : Bytes) : Except Fault State := do
  let s ← writeRange s (s.j + 1) t
  return { s with k := s.j + t.length }

def r (s : State) (t : Bytes) : Except Fault State := do
  if (← m s) > 0 then setto s t else return s

/-! ## The steps -/

/-- The first statement of `step1ab`. -/
def dropPlural (s : State) : Except Fault State := do
  if (← read s s.k) = 's'.toUInt8 then
    let (found, s) ← ends s (ascii "sses")
    if found then return { s with k := s.k - 2 }
    else
      let (found, s) ← ends s (ascii "ies")
      if found then setto s (ascii "i")
      else if (← read s (s.k - 1)) ≠ 's'.toUInt8 then return { s with k := s.k - 1 }
      else return s
  else return s

/-- What follows the removal of `ed` or `ing`. -/
def mend (s : State) : Except Fault State := do
  let (found, s) ← ends s (ascii "at")
  if found then setto s (ascii "ate")
  else
    let (found, s) ← ends s (ascii "bl")
    if found then setto s (ascii "ble")
    else
      let (found, s) ← ends s (ascii "iz")
      if found then setto s (ascii "ize")
      else if ← doublec s s.k then
        let s := { s with k := s.k - 1 }
        let ch ← read s s.k
        if ch = 'l'.toUInt8 ∨ ch = 's'.toUInt8 ∨ ch = 'z'.toUInt8 then return { s with k := s.k + 1 }
        else return s
      else if (← m s) = 1 then
        if ← cvc s s.k then setto s (ascii "e") else return s
      else return s

/-- `ends("\02" "ed") || ends("\03" "ing")` -/
def endsEdIng (s : State) : Except Fault (Bool × State) := do
  let (found, s) ← ends s (ascii "ed")
  if found then return (true, s) else ends s (ascii "ing")

/-- The second statement of `step1ab`. -/
def dropPast (s : State) : Except Fault State := do
  let (found, s) ← ends s (ascii "eed")
  if found then
    if (← m s) > 0 then return { s with k := s.k - 1 } else return s
  else
    let (found, s) ← endsEdIng s
    if found then
      if ← vowelinstem s then mend { s with k := s.j } else return s
    else return s

def step1ab (s : State) : Except Fault State := do
  let s ← dropPlural s
  dropPast s

def step1c (s : State) : Except Fault State := do
  let (found, s) ← ends s (ascii "y")
  if found then
    if ← vowelinstem s then writeRange s s.k ['i'.toUInt8] else return s
  else return s

def rule (suffix replacement : String) : Rule UInt8 := ⟨ascii suffix, ascii replacement⟩

/-- One case: `if (ends(s)) { r(t); break; }` for its rules in turn. -/
def replaceFirst : List (Rule UInt8) → State → Except Fault State
  | [], s => .ok s
  | rule :: rules, s => do
    let (found, s) ← ends s rule.suffix
    if found then r s rule.replacement else replaceFirst rules s

def step2Cases : List (UInt8 × List (Rule UInt8)) :=
  [('a'.toUInt8, [rule "ational" "ate", rule "tional" "tion"]),
   ('c'.toUInt8, [rule "enci" "ence", rule "anci" "ance"]),
   ('e'.toUInt8, [rule "izer" "ize"]),
   ('l'.toUInt8, [rule "bli" "ble", rule "alli" "al", rule "entli" "ent", rule "eli" "e", rule "ousli" "ous"]),
   ('o'.toUInt8, [rule "ization" "ize", rule "ation" "ate", rule "ator" "ate"]),
   ('s'.toUInt8, [rule "alism" "al", rule "iveness" "ive", rule "fulness" "ful", rule "ousness" "ous"]),
   ('t'.toUInt8, [rule "aliti" "al", rule "iviti" "ive", rule "biliti" "ble"]),
   ('g'.toUInt8, [rule "logi" "log"])]

def step2 (s : State) : Except Fault State := do
  let c ← read s (s.k - 1)
  replaceFirst (group step2Cases c) s

def step3Cases : List (UInt8 × List (Rule UInt8)) :=
  [('e'.toUInt8, [rule "icate" "ic", rule "ative" "", rule "alize" "al"]),
   ('i'.toUInt8, [rule "iciti" "ic"]),
   ('l'.toUInt8, [rule "ical" "ic", rule "ful" ""]),
   ('s'.toUInt8, [rule "ness" ""])]

def step3 (s : State) : Except Fault State := do
  let c ← read s s.k
  replaceFirst (group step3Cases c) s

def ion : Bytes := ascii "ion"

def step4Cases : List (UInt8 × List (Rule UInt8)) :=
  [('a'.toUInt8, [rule "al" ""]),
   ('c'.toUInt8, [rule "ance" "", rule "ence" ""]),
   ('e'.toUInt8, [rule "er" ""]),
   ('i'.toUInt8, [rule "ic" ""]),
   ('l'.toUInt8, [rule "able" "", rule "ible" ""]),
   ('n'.toUInt8, [rule "ant" "", rule "ement" "", rule "ment" "", rule "ent" ""]),
   ('o'.toUInt8, [rule "ion" "", rule "ou" ""]),
   ('s'.toUInt8, [rule "ism" ""]),
   ('t'.toUInt8, [rule "ate" "", rule "iti" ""]),
   ('u'.toUInt8, [rule "ous" ""]),
   ('v'.toUInt8, [rule "ive" ""]),
   ('z'.toUInt8, [rule "ize" ""])]

/-- `ends(s)`, and for `ion` what else is asked of `b[j]`. -/
def endsGuarded (s : State) (suffix : Bytes) : Except Fault (Bool × State) := do
  let (found, s) ← ends s suffix
  if found ∧ suffix = ion then
    if s.j ≥ s.k0 then
      let ch ← read s s.j
      return (ch == 's'.toUInt8 || ch == 't'.toUInt8, s)
    else return (false, s)
  else return (found, s)

/-- One case: `if (ends(s)) break;` for its suffixes in turn, then `return;`. -/
def endsAny : List (Rule UInt8) → State → Except Fault (Bool × State)
  | [], s => .ok (false, s)
  | rule :: rules, s => do
    let (found, s) ← endsGuarded s rule.suffix
    if found then return (true, s) else endsAny rules s

def step4 (s : State) : Except Fault State := do
  let c ← read s (s.k - 1)
  let (found, s) ← endsAny (group step4Cases c) s
  if found then
    if (← m s) > 1 then return { s with k := s.j } else return s
  else return s

/-- The two statements of `step5` after `j = k`. -/
def dropE (s : State) : Except Fault State := do
  if (← read s s.k) = 'e'.toUInt8 then
    let a ← m s
    if a > 1 then return { s with k := s.k - 1 }
    else if a = 1 then
      if !(← cvc s (s.k - 1)) then return { s with k := s.k - 1 } else return s
    else return s
  else return s

def dropL (s : State) : Except Fault State := do
  if (← read s s.k) = 'l'.toUInt8 then
    if ← doublec s s.k then
      if (← m s) > 1 then return { s with k := s.k - 1 } else return s
    else return s
  else return s

def step5 (s : State) : Except Fault State := do
  let s ← dropE { s with j := s.k }
  dropL s

/-- What `stem(p, i, j)` leaves in the static variables, when `j` held `old` before; it returns `k`. -/
def stem (old : Int) (p : Bytes) (i j : Int) : Except Fault State := do
  let s : State := ⟨p, j, i, old⟩
  if s.k ≤ s.k0 + 1 then return s
  else
    let s ← step1ab s
    if s.k > s.k0 then
      let s ← step1c s
      let s ← step2 s
      let s ← step3 s
      let s ← step4 s
      step5 s
    else return s

end Bisen.PorterStemmer
