import SchemaGraph.Json.Double

/-!
This module contains the reader of JSON text. Each reading function takes the characters that are
left and gives a result with the characters after it. A failure says what was wrong and how many
bytes of the text were left where the reader stopped, and `Position.ofLeft` turns that count into
a line and a column. Values nest less than `maxDepth` deep. Every round of a loop uses up a
character, so the length of the text is a `budget` of rounds that no loop exhausts.
-/

namespace SchemaGraph

namespace Json

inductive Defect where
  | unfinishedList
  | unfinishedObject
  | unfinishedString
  | unfinishedValue
  | missingColon
  | missingListComma
  | missingObjectComma
  | unknownWord
  | missingValue
  | badEscape
  | badNumber
  | numberOutOfRange
  | controlCharacter
  | keyNotString
  | loneSurrogate
  | trailingComma
  | trailingCharacters
  | unfinishedSurrogate
  | tooDeep
  deriving DecidableEq, Inhabited

def Defect.message : Defect → String
  | .unfinishedList => "EOF while parsing a list"
  | .unfinishedObject => "EOF while parsing an object"
  | .unfinishedString => "EOF while parsing a string"
  | .unfinishedValue => "EOF while parsing a value"
  | .missingColon => "expected `:`"
  | .missingListComma => "expected `,` or `]`"
  | .missingObjectComma => "expected `,` or `\x7d`"
  | .unknownWord => "expected ident"
  | .missingValue => "expected value"
  | .badEscape => "invalid escape"
  | .badNumber => "invalid number"
  | .numberOutOfRange => "number out of range"
  | .controlCharacter => "control character (\\u0000-\\u001F) found while parsing a string"
  | .keyNotString => "key must be a string"
  | .loneSurrogate => "lone leading surrogate in hex escape"
  | .trailingComma => "trailing comma"
  | .trailingCharacters => "trailing characters"
  | .unfinishedSurrogate => "unexpected end of hex escape"
  | .tooDeep => "recursion limit exceeded"

structure Position where
  line : Nat
  column : Nat
  deriving DecidableEq

namespace Position

def text (p : Position) : String :=
  "at line " ++ toString p.line ++ " column " ++ toString p.column

def bytes : List Char → Nat
  | [] => 0
  | c :: rest => c.utf8Size + bytes rest

def advance (start : Position) : List Char → Nat → Position
  | [], _ => start
  | c :: rest, index =>
    if index < c.utf8Size then { start with column := start.column + index }
    else
      let next : Position :=
        if c = '\n' then ⟨start.line + 1, 0⟩ else ⟨start.line, start.column + c.utf8Size⟩
      advance next rest (index - c.utf8Size)

def ofLeft (text : List Char) (left : Nat) : Position :=
  advance ⟨1, 0⟩ text (bytes text - left)

end Position

structure Failure where
  defect : Defect
  left : Nat
  deriving DecidableEq

def Failure.message (failure : Failure) (text : List Char) : String :=
  failure.defect.message ++ " " ++ (Position.ofLeft text failure.left).text

def failAt {α : Type} (defect : Defect) (chars : List Char) : Except Failure α :=
  .error ⟨defect, Position.bytes chars⟩

def failAfter {α : Type} (defect : Defect) (chars : List Char) : Except Failure α :=
  .error ⟨defect, Position.bytes chars - 1⟩

def isBlank (c : Char) : Bool :=
  c = ' ' || c = '\n' || c = '\t' || c = '\r'

def skipBlanks (chars : List Char) : List Char :=
  chars.dropWhile isBlank

def readWord {α : Type} (value : α) : List Char → List Char → Except Failure (α × List Char)
  | [], chars => .ok (value, chars)
  | _ :: _, [] => failAt .unfinishedValue []
  | letter :: letters, c :: rest =>
    if c = letter then readWord value letters rest else failAfter .unknownWord (c :: rest)

def hexDigit? (c : Char) : Option Nat :=
  if '0' ≤ c ∧ c ≤ '9' then some (c.toNat - '0'.toNat)
  else if 'a' ≤ c ∧ c ≤ 'f' then some (c.toNat - 'a'.toNat + 10)
  else if 'A' ≤ c ∧ c ≤ 'F' then some (c.toNat - 'A'.toNat + 10)
  else none

def readCodeUnit (chars : List Char) : Except Failure (Nat × List Char) :=
  let bad : Except Failure (Nat × List Char) :=
    if Position.bytes chars < 4 then failAt .unfinishedString []
    else .error ⟨.badEscape, Position.bytes chars - 4⟩
  match chars with
  | a :: b :: c :: d :: rest =>
    match hexDigit? a, hexDigit? b, hexDigit? c, hexDigit? d with
    | some a, some b, some c, some d => .ok (((a * 16 + b) * 16 + c) * 16 + d, rest)
    | _, _, _, _ => bad
  | _ => bad

def readLowSurrogate (high : Nat) : List Char → Except Failure (Char × List Char)
  | [] => failAt .unfinishedString []
  | '\\' :: [] => failAt .unfinishedString []
  | '\\' :: 'u' :: rest => do
    let (low, rest) ← readCodeUnit rest
    if 0xDC00 ≤ low ∧ low ≤ 0xDFFF then
      .ok (Char.ofNat ((high - 0xD800) * 0x400 + (low - 0xDC00) + 0x10000), rest)
    else failAt .loneSurrogate rest
  | '\\' :: c :: rest => failAfter .unfinishedSurrogate (c :: rest)
  | c :: rest => failAfter .unfinishedSurrogate (c :: rest)

def readEscape : List Char → Except Failure (Char × List Char)
  | [] => failAt .unfinishedString []
  | '"' :: rest => .ok ('"', rest)
  | '\\' :: rest => .ok ('\\', rest)
  | '/' :: rest => .ok ('/', rest)
  | 'b' :: rest => .ok ('\x08', rest)
  | 'f' :: rest => .ok ('\x0c', rest)
  | 'n' :: rest => .ok ('\n', rest)
  | 'r' :: rest => .ok ('\r', rest)
  | 't' :: rest => .ok ('\t', rest)
  | 'u' :: rest => do
    let (unit, rest) ← readCodeUnit rest
    if 0xDC00 ≤ unit ∧ unit ≤ 0xDFFF then failAt .loneSurrogate rest
    else if 0xD800 ≤ unit ∧ unit ≤ 0xDBFF then readLowSurrogate unit rest
    else .ok (Char.ofNat unit, rest)
  | c :: rest => failAfter .badEscape (c :: rest)

def readCharacters : Nat → List Char → List Char → Except Failure (String × List Char)
  | 0, _, chars => failAt .unfinishedString chars
  | _ + 1, _, [] => failAt .unfinishedString []
  | budget + 1, done, c :: rest =>
    if c = '"' then .ok (String.ofList done.reverse, rest)
    else if c = '\\' then do
      let (escaped, rest) ← readEscape rest
      readCharacters budget (escaped :: done) rest
    else if c.toNat < 0x20 then failAfter .controlCharacter (c :: rest)
    else readCharacters budget (c :: done) rest

def readString (budget : Nat) (chars : List Char) : Except Failure (String × List Char) :=
  readCharacters budget [] chars

/--
The greatest significand that is kept exactly; digits behind it only move the exponent.
-/
def maxSignificand : Nat := (1 <<< 64) - 1

def maxExponent : Nat := (1 <<< 31) - 1

def digit? (c : Char) : Option Nat :=
  if '0' ≤ c ∧ c ≤ '9' then some (c.toNat - '0'.toNat) else none

/--
The number that `chars` begin with, as far as it does not exceed `limit`, the number of its digits
and the characters behind them.
-/
def takeDigits (limit : Nat) : Nat → Nat → List Char → Nat × Nat × List Char
  | value, count, [] => (value, count, [])
  | value, count, c :: rest =>
    match digit? c with
    | some d =>
      if limit < value * 10 + d then (value, count, c :: rest)
      else takeDigits limit (value * 10 + d) (count + 1) rest
    | none => (value, count, c :: rest)

def skipDigits (chars : List Char) : List Char :=
  chars.dropWhile fun c => (digit? c).isSome

def clampExponent (e : Int) : Int :=
  max (-2147483648) (min 2147483647 e)

def finishDouble (isNegative : Bool) (significand : Nat) (exponent : Int) (chars : List Char) :
    Except Failure (Json × List Char) :=
  match Double.ofDecimal? isNegative significand exponent with
  | some d => .ok (.double d, chars)
  | none => failAt .numberOutOfRange chars

def readExponentDigits (isNegative : Bool) (significand : Nat) (start : Int) (raised : Bool) :
    List Char → Except Failure (Json × List Char)
  | [] => failAt .unfinishedValue []
  | c :: rest =>
    match digit? c with
    | none => failAfter .badNumber (c :: rest)
    | some _ =>
      let (value, _, behind) := takeDigits maxExponent 0 0 (c :: rest)
      match behind with
      | [] => finish value []
      | d :: more =>
        if (digit? d).isSome then
          if significand ≠ 0 ∧ raised then failAt .numberOutOfRange more
          else finishDouble isNegative 0 0 (skipDigits more)
        else finish value behind
where
  finish (value : Nat) (chars : List Char) : Except Failure (Json × List Char) :=
    let exponent : Int := if raised then start + value else start - value
    finishDouble isNegative significand (clampExponent exponent) chars

def readExponent (isNegative : Bool) (significand : Nat) (start : Int) :
    List Char → Except Failure (Json × List Char)
  | '+' :: rest => readExponentDigits isNegative significand start true rest
  | '-' :: rest => readExponentDigits isNegative significand start false rest
  | chars => readExponentDigits isNegative significand start true chars

def readScaled (isNegative : Bool) (significand : Nat) (exponent : Int) :
    List Char → Except Failure (Json × List Char)
  | 'e' :: rest => readExponent isNegative significand exponent rest
  | 'E' :: rest => readExponent isNegative significand exponent rest
  | chars => finishDouble isNegative significand exponent chars

def readFraction (isNegative : Bool) (significand : Nat) (exponent : Int) (chars : List Char) :
    Except Failure (Json × List Char) :=
  let (value, count, behind) := takeDigits maxSignificand significand 0 chars
  match behind with
  | [] =>
    if count = 0 then failAfter .unfinishedValue []
    else readScaled isNegative value (exponent - count) []
  | c :: _ =>
    if (digit? c).isSome then
      readScaled isNegative value (exponent - count) (skipDigits behind)
    else if count = 0 then failAfter .badNumber behind
    else readScaled isNegative value (exponent - count) behind

/--
Finish a number behind its whole part. The digits of the whole part that were not kept count in
`exponent`.
-/
def readNumberTail (isNegative : Bool) (significand exponent : Nat) :
    List Char → Except Failure (Json × List Char)
  | '.' :: rest => readFraction isNegative significand exponent rest
  | 'e' :: rest => readExponent isNegative significand exponent rest
  | 'E' :: rest => readExponent isNegative significand exponent rest
  | chars =>
    if exponent ≠ 0 then finishDouble isNegative significand exponent chars
    else if isNegative then
      if significand = 0 ∨ (1 <<< 63) < significand then finishDouble true significand 0 chars
      else .ok (.integer (-significand), chars)
    else .ok (.integer significand, chars)

def readNumber (isNegative : Bool) : List Char → Except Failure (Json × List Char)
  | [] => failAt .unfinishedValue []
  | '0' :: c :: rest =>
    if (digit? c).isSome then failAfter .badNumber (c :: rest)
    else readNumberTail isNegative 0 0 (c :: rest)
  | c :: rest =>
    if (digit? c).isSome then
      let (value, _, behind) := takeDigits maxSignificand 0 0 (c :: rest)
      let dropped := behind.takeWhile fun d => (digit? d).isSome
      readNumberTail isNegative value dropped.length (skipDigits behind)
    else failAfter .badNumber (c :: rest)

def readColon (chars : List Char) : Except Failure (Unit × List Char) :=
  match skipBlanks chars with
  | [] => failAfter .unfinishedObject []
  | c :: rest => if c = ':' then .ok ((), rest) else failAfter .missingColon (c :: rest)

/--
Go on to the next element of a list: `some` characters where it begins, `none` at the closing
bracket, which is not read.
-/
def nextElement (first : Bool) (chars : List Char) : Except Failure (Bool × List Char) :=
  match skipBlanks chars with
  | [] => failAfter .unfinishedList []
  | c :: rest =>
    if c = ']' then .ok (false, c :: rest)
    else if first then .ok (true, c :: rest)
    else if c = ',' then
      match skipBlanks rest with
      | [] => failAfter .unfinishedValue []
      | d :: rest => if d = ']' then failAfter .trailingComma (d :: rest) else .ok (true, d :: rest)
    else failAfter .missingListComma (c :: rest)

def nextKey (first : Bool) (chars : List Char) : Except Failure (Bool × List Char) :=
  match skipBlanks chars with
  | [] => failAfter .unfinishedObject []
  | c :: rest =>
    if c = '\x7d' then .ok (false, c :: rest)
    else if first then
      if c = '"' then .ok (true, c :: rest) else failAfter .keyNotString (c :: rest)
    else if c = ',' then
      match skipBlanks rest with
      | [] => failAfter .unfinishedValue []
      | d :: rest =>
        if d = '"' then .ok (true, d :: rest)
        else if d = '\x7d' then failAfter .trailingComma (d :: rest)
        else failAfter .keyNotString (d :: rest)
    else failAfter .missingObjectComma (c :: rest)

def readElements (element : List Char → Except Failure (Json × List Char)) :
    Nat → Bool → List Json → List Char → Except Failure (List Json × List Char)
  | 0, _, _, chars => failAt .unfinishedList chars
  | budget + 1, first, done, chars => do
    let (more, chars) ← nextElement first chars
    if more then
      let (value, chars) ← element chars
      readElements element budget false (value :: done) chars
    else .ok (done.reverse, chars.tail)

def readFields (budget : Nat) (element : List Char → Except Failure (Json × List Char)) :
    Nat → Bool → List (String × Json) → List Char →
      Except Failure (List (String × Json) × List Char)
  | 0, _, _, chars => failAt .unfinishedObject chars
  | rounds + 1, first, done, chars => do
    let (more, chars) ← nextKey first chars
    if more then
      let (key, chars) ← readString budget chars.tail
      let ((), chars) ← readColon chars
      let (value, chars) ← element chars
      readFields budget element rounds false ((key, value) :: done) chars
    else .ok (Entries.ofList done.reverse, chars.tail)

def maxDepth : Nat := 128

def readValue (budget : Nat) : Nat → List Char → Except Failure (Json × List Char)
  | depth, chars =>
    match skipBlanks chars with
    | [] => failAfter .unfinishedValue []
    | c :: rest =>
      if c = 'n' then readWord .null "ull".toList rest
      else if c = 't' then readWord (.bool true) "rue".toList rest
      else if c = 'f' then readWord (.bool false) "alse".toList rest
      else if c = '-' then readNumber true rest
      else if (digit? c).isSome then readNumber false (c :: rest)
      else if c = '"' then do
        let (text, rest) ← readString budget rest
        .ok (.string text, rest)
      else if c = '[' then
        match depth with
        | 0 => failAfter .tooDeep (c :: rest)
        | depth + 1 => do
          let (elements, rest) ← readElements (readValue budget depth) budget true [] rest
          .ok (.array elements, rest)
      else if c = '\x7b' then
        match depth with
        | 0 => failAfter .tooDeep (c :: rest)
        | depth + 1 => do
          let (fields, rest) ← readFields budget (readValue budget depth) budget true [] rest
          .ok (.object fields, rest)
      else failAfter .missingValue (c :: rest)

def ofCharsWithin (depth : Nat) (chars : List Char) : Except Failure Json := do
  let (value, rest) ← readValue (chars.length + 1) depth chars
  match skipBlanks rest with
  | [] => .ok value
  | rest => failAfter .trailingCharacters rest

def ofChars (chars : List Char) : Except Failure Json :=
  ofCharsWithin (maxDepth - 1) chars

def ofText (text : String) : Except String Json :=
  (ofChars text.toList).mapError fun failure => failure.message text.toList

end Json

end SchemaGraph
