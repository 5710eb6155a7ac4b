/-!
This module contains the split of a text at its slashes, which references and file paths share.
-/

namespace SchemaGraph

def slashParts : List Char → List (List Char)
  | [] => [[]]
  | c :: rest =>
    if c = '/' then [] :: slashParts rest
    else
      match slashParts rest with
      | [] => [[c]]
      | part :: more => (c :: part) :: more

theorem slashParts_ne_nil (chars : List Char) : slashParts chars ≠ [] := by
  cases chars with
  | nil => simp [slashParts]
  | cons c rest =>
    simp only [slashParts]
    split
    . simp
    . split <;> simp

end SchemaGraph
