import Bisen.VecToken

/-! # The client's query parser

`tokenize` cuts a query string into tokens and `shunting_yard` reorders them into postfix with
an operator stack. The stemmer is a parameter; it is applied to the lowercased word, and the
result is read as a C string.
-/
namespace Bisen.QueryParser
open Wire
set_option autoImplicit false

/-- `counter` is assigned by `SseClient::search` only. -/
structure ClientToken where
  type : UInt8
  counter : BitVec 32
  word : Bytes
  deriving DecidableEq, Repr

def wordTkn (word : Bytes) : ClientToken := ⟨wordToken, 0, word⟩

def opTkn (type : UInt8) : ClientToken := ⟨type, 0, []⟩

/-- What `strlen` and `string(const char*)` see of a buffer. -/
def cString (b : Bytes) : Bytes := b.takeWhile (· ≠ 0)

def space : UInt8 := 0x20

def isOperator (c : UInt8) : Bool :=
  c == andToken || c == orToken || c == notToken || c == openToken || c == closeToken

def precedence (op : UInt8) : Int :=
  if op = notToken then 3
  else if op = andToken then 2
  else if op = orToken then 1
  else -1

/-- `tolower` in the C locale. -/
def tolower (c : UInt8) : UInt8 := if 0x41 ≤ c ∧ c ≤ 0x5a then c + 0x20 else c

def stemWord (stem : Bytes → Bytes) (word : Bytes) : Bytes := cString (stem (word.map tolower))

def isWordChar (c : UInt8) : Bool := c != 0 && c != space && !isOperator c

/-- Every round of the loop consumes a character, so the length of the query is fuel enough. -/
def tokenizeFrom (stem : Bytes → Bytes) : Nat → Bytes → List ClientToken
  | 0, _ => []
  | _ + 1, [] => []
  | fuel + 1, c :: rest =>
    if c = 0 then []
    else if c = space then tokenizeFrom stem fuel rest
    else if isOperator c then
      -- "&&" and "||" count as one operator
      let rest := if (c = andToken ∨ c = orToken) ∧ rest.head? = some c then rest.tail else rest
      opTkn c :: tokenizeFrom stem fuel rest
    else
      wordTkn (stemWord stem ((c :: rest).takeWhile isWordChar)) ::
        tokenizeFrom stem fuel ((c :: rest).dropWhile isWordChar)

def tokenize (stem : Bytes → Bytes) (query : Bytes) : List ClientToken :=
  tokenizeFrom stem query.length query

/-- Pops into `output` while the top binds at least as tightly as `p`. -/
def popWhile (p : Int) : List UInt8 → List ClientToken → List UInt8 × List ClientToken
  | [], output => ([], output)
  | top :: operators, output =>
    if precedence top ≥ p then popWhile p operators (output ++ [opTkn top]) else (top :: operators, output)

/-- The loop of the ')' branch: `top()` on an empty stack is undefined, and a stack that a pop
has emptied is reported. -/
def popToOpen : List UInt8 → List ClientToken → Except Fault (List UInt8 × List ClientToken)
  | [], _ => .error .emptyContainer
  | top :: operators, output =>
    if top ≠ openToken then
      if operators.isEmpty then .error (.invalidArgument "Mismatched parenthesis while parsing!")
      else popToOpen operators (output ++ [opTkn top])
    else .ok (operators, output)

def readToken (s : List UInt8 × List ClientToken) (tkn : ClientToken) :
    Except Fault (List UInt8 × List ClientToken) :=
  let (operators, output) := s
  if tkn.type = wordToken then .ok (operators, output ++ [tkn])
  else if tkn.type = andToken ∨ tkn.type = orToken ∨ tkn.type = notToken then
    let (operators, output) := popWhile (precedence tkn.type) operators output
    .ok (tkn.type :: operators, output)
  else if tkn.type = openToken then .ok (tkn.type :: operators, output)
  else if tkn.type = closeToken then popToOpen operators output
  else .ok (operators, output)

def drain : List UInt8 → List ClientToken → Except Fault (List ClientToken)
  | [], output => .ok output
  | top :: operators, output =>
    if top = openToken ∨ top = closeToken then .error (.invalidArgument "Mismatched parenthesis!")
    else drain operators (output ++ [opTkn top])

def shuntingYard (infixQuery : List ClientToken) : Except Fault (List ClientToken) := do
  let (operators, output) ← infixQuery.foldlM readToken ([], [])
  drain operators output

end Bisen.QueryParser
