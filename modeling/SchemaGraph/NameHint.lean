/-!
This module contains name hints. A hint is explicit when the document itself gives the name (by a
title or a definition) and inferred when the surroundings do (a property, the caller's name for the
document). Explicit hints win over inferred ones, and the name of an element is the singular of
the name of its collection.
-/

namespace SchemaGraph

structure NameHint where
  text : String
  isInferred : Bool
  deriving DecidableEq, Inhabited

namespace NameHint

def explicit (text : String) : NameHint :=
  ⟨text, false⟩

def inferred (text : String) : NameHint :=
  ⟨text, true⟩

def weaken (hint : NameHint) : NameHint :=
  inferred hint.text

def strengthen (hint other : NameHint) : NameHint :=
  if hint.isInferred && !other.isInferred then other else hint

/--
Whether a character is the given small letter in either case. The long s counts as an s.
-/
def isLetter (letter c : Char) : Bool :=
  c = letter || c = letter.toUpper || (letter = 's' && c = 'ſ')

def isVowel (c : Char) : Bool :=
  isLetter 'a' c || isLetter 'e' c || isLetter 'i' c || isLetter 'o' c || isLetter 'u' c

def dropEnding? : List Char → List Char → Option (List Char)
  | [], word => some word
  | _ :: _, [] => none
  | letter :: letters, c :: rest => if isLetter letter c then dropEnding? letters rest else none

def hasEnding (ending : String) (word : List Char) : Bool :=
  (dropEnding? ending.toList.reverse word).isSome

def isOneLine (chars : List Char) : Bool :=
  chars.all fun c => c ≠ '\n'

/--
The ending `ies` behind a consonant becomes `y`. What stands before the consonant has to be on one
line.
-/
def singularOfIes? (word : List Char) : Option (List Char) :=
  match dropEnding? "ies".toList.reverse word with
  | some (c :: rest) =>
    if !isVowel c && isOneLine rest then some ('y' :: c :: rest) else none
  | _ => none

def singularOfEs? (word : List Char) : Option (List Char) :=
  match dropEnding? "es".toList.reverse word with
  | some stem =>
    let hisses := ["s", "x", "z", "ch", "sh"].any fun ending => hasEnding ending stem
    if hisses && isOneLine stem then some stem else none
  | none => none

def singularOfSelf? (word : List Char) : Option (List Char) :=
  let stays := ["ss", "us", "is"].any fun ending => hasEnding ending word
  if stays && isOneLine word then some word else none

def singularOfS? (word : List Char) : Option (List Char) :=
  match dropEnding? ['s'] word with
  | some (c :: rest) => if isOneLine (c :: rest) then some (c :: rest) else none
  | _ => none

def singularForm (word : List Char) : List Char :=
  let reversed := word.reverse
  let result :=
    (singularOfIes? reversed).or <|
    (singularOfEs? reversed).or <|
    (singularOfSelf? reversed).or <|
    singularOfS? reversed
  (result.getD reversed).reverse

def singular (hint : NameHint) : NameHint :=
  inferred (String.ofList (singularForm hint.text.toList))

example : (explicit "categories").singular = inferred "category" := by decide

example : (explicit "Matches").singular = inferred "Match" := by decide

example : (explicit "status").singular = inferred "status" := by decide

end NameHint

end SchemaGraph
