import SchemaGraph.Json.Reader
import SchemaGraph.Proofs.Document.UniqueKeys

/-!
This module contains the proof that no value that is read from a text has an object with two fields
of one key. The reader keeps the last of such fields.
-/

namespace SchemaGraph

namespace Json

variable {α β : Type} {P : α → Prop} {Q : β → Prop}

def Yields (P : α → Prop) (reading : Except Failure (α × List Char)) : Prop :=
  ∀ a rest, reading = .ok (a, rest) → P a

theorem yields_ok {a : α} {rest : List Char} (h : P a) : Yields P (.ok (a, rest)) := by
  rintro _ _ ⟨⟩
  exact h

theorem yields_error (failure : Failure) : Yields P (.error failure) := by
  rintro _ _ ⟨⟩

theorem yields_bind {reading : Except Failure (α × List Char)}
    {next : α × List Char → Except Failure (β × List Char)} (h : Yields P reading)
    (hnext : ∀ a rest, P a → Yields Q (next (a, rest))) : Yields Q (reading >>= next) := by
  cases reading with
  | error failure => exact yields_error failure
  | ok result => exact hnext _ _ (h _ _ rfl)

theorem yields_true (reading : Except Failure (α × List Char)) :
    Yields (fun _ => True) reading :=
  fun _ _ _ => trivial

theorem yields_readWord {value : α} (h : P value) (letters chars : List Char) :
    Yields P (readWord value letters chars) := by
  induction letters generalizing chars with
  | nil => exact yields_ok h
  | cons letter letters ih =>
    cases chars with
    | nil => exact yields_error _
    | cons c rest =>
      unfold readWord
      split
      . exact ih rest
      . exact yields_error _

def IsNumber : Json → Prop
  | .integer _ => True
  | .double _ => True
  | _ => False

theorem hasUniqueKeys_of_isNumber {value : Json} (h : value.IsNumber) :
    value.hasUniqueKeys = true := by
  cases value with
  | integer n => rfl
  | double d => rfl
  | _ => cases h

section Number

variable (isNegative : Bool) (significand : Nat) (exponent : Int) (chars : List Char)

theorem yields_finishDouble :
    Yields IsNumber (finishDouble isNegative significand exponent chars) := by
  unfold finishDouble
  split
  . exact yields_ok trivial
  . exact yields_error _

theorem yields_readExponentDigits (raised : Bool) :
    Yields IsNumber (readExponentDigits isNegative significand exponent raised chars) := by
  have hfinish : ∀ value chars, Yields IsNumber
      (readExponentDigits.finish isNegative significand exponent raised value chars) := by
    intro value chars
    apply yields_finishDouble
  unfold readExponentDigits
  split
  . exact yields_error _
  split
  . exact yields_error _
  dsimp only
  split
  . apply hfinish
  split
  . split
    . exact yields_error _
    . apply yields_finishDouble
  . apply hfinish

theorem yields_readExponent :
    Yields IsNumber (readExponent isNegative significand exponent chars) := by
  unfold readExponent
  split
  . apply yields_readExponentDigits
  . apply yields_readExponentDigits
  . apply yields_readExponentDigits

theorem yields_readScaled :
    Yields IsNumber (readScaled isNegative significand exponent chars) := by
  unfold readScaled
  split
  . apply yields_readExponent
  . apply yields_readExponent
  . apply yields_finishDouble

theorem yields_readFraction :
    Yields IsNumber (readFraction isNegative significand exponent chars) := by
  unfold readFraction
  dsimp only
  split
  . split
    . exact yields_error _
    . apply yields_readScaled
  split
  . apply yields_readScaled
  split
  . exact yields_error _
  . apply yields_readScaled

theorem yields_readNumberTail (exponent : Nat) :
    Yields IsNumber (readNumberTail isNegative significand exponent chars) := by
  unfold readNumberTail
  split
  . apply yields_readFraction
  . apply yields_readExponent
  . apply yields_readExponent
  split
  . apply yields_finishDouble
  split
  . split
    . apply yields_finishDouble
    . exact yields_ok trivial
  . exact yields_ok trivial

theorem yields_readNumber : Yields IsNumber (readNumber isNegative chars) := by
  unfold readNumber
  split
  . exact yields_error _
  . split
    . exact yields_error _
    . apply yields_readNumberTail
  . split
    . apply yields_readNumberTail
    . exact yields_error _

end Number

variable {element : List Char → Except Failure (Json × List Char)} {P : Json → Prop}

theorem yields_readElements (helement : ∀ chars, Yields P (element chars)) (budget : Nat)
    (first : Bool) {done : List Json} (hdone : ∀ value ∈ done, P value) (chars : List Char) :
    Yields (fun values => ∀ value ∈ values, P value)
      (readElements element budget first done chars) := by
  induction budget generalizing first done chars with
  | zero => exact yields_error _
  | succ budget ih =>
    unfold readElements
    refine yields_bind (yields_true _) ?_
    intro more chars _
    dsimp only
    split
    . refine yields_bind (helement chars) ?_
      intro value chars hvalue
      apply ih
      exact List.forall_mem_cons.2 ⟨hvalue, hdone⟩
    . apply yields_ok
      intro value hmem
      exact hdone value (List.mem_reverse.1 hmem)

theorem yields_readFields (helement : ∀ chars, Yields P (element chars)) (budget rounds : Nat)
    (first : Bool) {done : List (String × Json)}
    (hdone : ∀ key value, (key, value) ∈ done → P value) (chars : List Char) :
    Yields (fun fields => (Entries.keys fields).Nodup ∧
        ∀ key value, (key, value) ∈ fields → P value)
      (readFields budget element rounds first done chars) := by
  induction rounds generalizing first done chars with
  | zero => exact yields_error _
  | succ rounds ih =>
    unfold readFields
    refine yields_bind (yields_true _) ?_
    intro more chars _
    dsimp only
    split
    . refine yields_bind (yields_true _) ?_
      intro key chars _
      refine yields_bind (yields_true _) ?_
      intro _ chars _
      refine yields_bind (helement chars) ?_
      intro value chars hvalue
      apply ih
      intro key' value' hmem
      rcases List.mem_cons.1 hmem with heq | hmem
      . cases heq
        exact hvalue
      . exact hdone key' value' hmem
    . apply yields_ok
      refine ⟨Entries.nodup_keys_ofList _, Entries.forall_ofList ?_⟩
      intro key value hmem
      exact hdone key value (List.mem_reverse.1 hmem)

theorem yields_readValue (budget depth : Nat) (chars : List Char) :
    Yields (fun value => value.hasUniqueKeys = true) (readValue budget depth chars) := by
  have hnumber : ∀ isNegative chars,
      Yields (fun value => value.hasUniqueKeys = true) (readNumber isNegative chars) :=
    fun _ _ value rest h => hasUniqueKeys_of_isNumber (yields_readNumber _ _ value rest h)
  induction depth using Nat.strongRecOn generalizing chars with
  | ind depth ih =>
    unfold readValue
    split
    . exact yields_error _
    split
    . apply yields_readWord
      rfl
    split
    . apply yields_readWord
      rfl
    split
    . apply yields_readWord
      rfl
    split
    . apply hnumber
    split
    . apply hnumber
    split
    . refine yields_bind (yields_true _) ?_
      intro text rest _
      apply yields_ok
      rfl
    split
    . split
      . exact yields_error _
      . next depth =>
        have hinner := ih depth (Nat.lt_succ_self depth)
        refine yields_bind (yields_readElements hinner budget true ?_ _) ?_
        . exact fun _ hmem => nomatch hmem
        . intro elements rest helements
          apply yields_ok
          exact elementsHaveUniqueKeys_iff.2 helements
    split
    . split
      . exact yields_error _
      . next depth =>
        have hinner := ih depth (Nat.lt_succ_self depth)
        refine yields_bind (yields_readFields hinner budget budget true ?_ _) ?_
        . exact fun _ _ hmem => nomatch hmem
        . intro fields rest hfields
          apply yields_ok
          exact hasUniqueKeys_object_iff.2 hfields
    . exact yields_error _

theorem hasUniqueKeys_ofCharsWithin {depth : Nat} {chars : List Char} {value : Json}
    (h : ofCharsWithin depth chars = .ok value) : value.hasUniqueKeys = true := by
  unfold ofCharsWithin at h
  cases hread : readValue (chars.length + 1) depth chars with
  | error failure =>
    rw [hread] at h
    cases h
  | ok result =>
    obtain ⟨value', rest⟩ := result
    have hkeys := yields_readValue _ _ _ value' rest hread
    rw [hread] at h
    dsimp only [bind, Except.bind] at h
    split at h
    . cases h
      exact hkeys
    . cases h

theorem hasUniqueKeys_ofText {text : String} {value : Json} (h : ofText text = .ok value) :
    value.hasUniqueKeys = true := by
  unfold ofText at h
  cases hread : ofChars text.toList with
  | error failure =>
    rw [hread] at h
    cases h
  | ok value' =>
    rw [hread] at h
    cases h
    exact hasUniqueKeys_ofCharsWithin hread

end Json

end SchemaGraph
