import Mathlib.Computability.Language
import SchemaGraph.NameHint

/-!
This module contains the rules for singulars as patterns of whole words, and what follows from
them. A rule cuts an ending off a stem that has a certain form, and it may put another ending in its
place. The first rule that a word matches gives its singular, and a word without such a rule is its
own singular.
-/

namespace SchemaGraph

namespace NameHint

open Computability

def foldCase (c : Char) : Char :=
  if c = 'ſ' then 's' else c.toLower

theorem isLower_iff (c : Char) : c.isLower = true ↔ 97 ≤ c.toNat ∧ c.toNat ≤ 122 := by
  change (decide (c.val ≥ 'a'.val) && decide (c.val ≤ 'z'.val)) = true ↔ _
  rw [Bool.and_eq_true, decide_eq_true_eq, decide_eq_true_eq]
  exact Iff.rfl

theorem toNat_toLower (c : Char) :
    c.toLower.toNat = if 65 ≤ c.toNat ∧ c.toNat ≤ 90 then c.toNat + 32 else c.toNat := by
  have hcapital : c.val ≥ 'A'.val ∧ c.val ≤ 'Z'.val ↔ 65 ≤ c.toNat ∧ c.toNat ≤ 90 := Iff.rfl
  unfold Char.toLower
  split
  . next h =>
    have hrange := hcapital.1 h
    rw [if_pos hrange, ← Char.toNat_val, UInt32.toNat_add, Char.toNat_val]
    exact Nat.mod_eq_of_lt (by change c.toNat + 32 < _; omega)
  . next h => rw [if_neg (mt hcapital.2 h)]

theorem toNat_toUpper (c : Char) :
    c.toUpper.toNat = if 97 ≤ c.toNat ∧ c.toNat ≤ 122 then c.toNat - 32 else c.toNat := by
  have hsmall : c.val ≥ 'a'.val ∧ c.val ≤ 'z'.val ↔ 97 ≤ c.toNat ∧ c.toNat ≤ 122 := Iff.rfl
  unfold Char.toUpper
  split
  . next h =>
    have hrange := hsmall.1 h
    rw [if_pos hrange, ← Char.toNat_val, UInt32.toNat_add, Char.toNat_val]
    change (c.toNat + 4294967264) % 4294967296 = c.toNat - 32
    omega
  . next h => rw [if_neg (mt hsmall.2 h)]

theorem isLetter_iff {letter : Char} (hletter : letter.isLower = true) (c : Char) :
    isLetter letter c = true ↔ foldCase c = letter := by
  have hrange := (isLower_iff letter).1 hletter
  have hs : Char.toNat 's' = 115 := rfl
  have hlong : Char.toNat 'ſ' = 383 := rfl
  simp only [isLetter, foldCase, Bool.or_eq_true, Bool.and_eq_true, decide_eq_true_eq,
    ← Char.toNat_inj, apply_ite Char.toNat, toNat_toLower, toNat_toUpper, if_pos hrange, hs, hlong]
  split
  . omega
  . split <;> omega

theorem isVowel_iff (c : Char) : isVowel c = true ↔ foldCase c ∈ "aeiou".toList := by
  have hsmall : "aeiou".toList.all Char.isLower = true := by decide
  have hletter : ∀ letter ∈ "aeiou".toList, isLetter letter c = true ↔ foldCase c = letter :=
    fun letter hmem => isLetter_iff (List.all_eq_true.1 hsmall letter hmem) c
  simp only [String.reduceToList, List.forall_mem_cons] at hletter
  obtain ⟨ha, he, hi, ho, hu, -⟩ := hletter
  simp [isVowel, ha, he, hi, ho, hu, or_assoc]

def spelled (text : String) : Language Char :=
  {word | word.map foldCase = text.toList}

def spelledAmong (texts : List String) : Language Char :=
  {word | ∃ text ∈ texts, word ∈ spelled text}

def anyCharacter : Language Char :=
  {word | ∃ c, c ≠ '\n' ∧ word = [c]}

def otherThan (letters : String) : Language Char :=
  {word | ∃ c, foldCase c ∉ letters.toList ∧ word = [c]}

def EndsIn (ending : String) (word : List Char) : Prop :=
  ending.toList <:+ word.map foldCase

/--
Whether an ending is written in small letters only, as the endings in the rules are. Only such an
ending is found in both cases.
-/
def isSmall (ending : String) : Bool :=
  ending.toList.all Char.isLower

instance (ending : String) (word : List Char) : Decidable (EndsIn ending word) :=
  inferInstanceAs (Decidable (ending.toList <:+ word.map foldCase))

variable {ending : String} {endings : List String} {word stem tail : List Char}

theorem endsIn_iff : EndsIn ending word ↔ ∃ stem, ∃ tail ∈ spelled ending, word = stem ++ tail := by
  constructor
  . rintro ⟨front, hfront⟩
    obtain ⟨stem, tail, hword, -, htail⟩ := List.map_eq_append_iff.1 hfront.symm
    exact ⟨stem, tail, htail, hword⟩
  . rintro ⟨stem, tail, htail, rfl⟩
    rw [EndsIn, List.map_append, show tail.map foldCase = ending.toList from htail]
    exact List.suffix_append _ _

theorem EndsIn.mono {shorter : String} (h : EndsIn ending word)
    (hshorter : shorter.toList <:+ ending.toList) : EndsIn shorter word :=
  hshorter.trans h

theorem EndsIn.unique {other : String} (h : EndsIn ending word) (hother : EndsIn other word)
    (hlength : ending.toList.length = other.toList.length) : ending = other :=
  String.toList_injective
    ((List.suffix_of_suffix_length_le h hother hlength.le).eq_of_length hlength)

theorem length_of_spelled (htail : tail ∈ spelled ending) : tail.length = ending.toList.length := by
  rw [← show tail.map foldCase = ending.toList from htail, List.length_map]

theorem newline_notMem_of_spelled (hsmall : isSmall ending = true) (htail : tail ∈ spelled ending) :
    '\n' ∉ tail := by
  intro hmem
  have hfold : foldCase '\n' ∈ ending.toList := by
    rw [← show tail.map foldCase = ending.toList from htail]
    exact List.mem_map_of_mem hmem
  exact absurd (List.all_eq_true.1 hsmall _ hfold) (by decide)

theorem mem_anyCharacters : word ∈ anyCharacter∗ ↔ '\n' ∉ word := by
  rw [Language.mem_kstar]
  constructor
  . rintro ⟨pieces, rfl, hpieces⟩ hmem
    obtain ⟨piece, hpiece, hmem⟩ := List.mem_flatten.1 hmem
    obtain ⟨c, hc, rfl⟩ := hpieces piece hpiece
    exact hc (List.mem_singleton.1 hmem).symm
  . intro hword
    refine ⟨word.map fun c => [c], ?_, ?_⟩
    . rw [← List.flatMap_def, List.flatMap_singleton']
    intro piece hpiece
    obtain ⟨c, hc, rfl⟩ := List.mem_map.1 hpiece
    exact ⟨c, ne_of_mem_of_not_mem hc hword, rfl⟩

theorem mem_someCharacters : word ∈ anyCharacter * anyCharacter∗ ↔ word ≠ [] ∧ '\n' ∉ word := by
  rw [Language.mem_mul]
  constructor
  . rintro ⟨_, ⟨c, hc, rfl⟩, rest, hrest, rfl⟩
    rw [mem_anyCharacters] at hrest
    simp [hc.symm, hrest]
  . rintro ⟨hne, hword⟩
    cases word with
    | nil => exact absurd rfl hne
    | cons c rest =>
      simp only [List.mem_cons, not_or] at hword
      exact ⟨[c], ⟨c, Ne.symm hword.1, rfl⟩, rest, mem_anyCharacters.2 hword.2, rfl⟩

theorem mem_endingAmong (hsmall : endings.all isSmall = true) :
    word ∈ anyCharacter∗ * spelledAmong endings ↔
      '\n' ∉ word ∧ ∃ ending ∈ endings, EndsIn ending word := by
  rw [Language.mem_mul]
  constructor
  . rintro ⟨stem, hstem, tail, ⟨ending, hmem, htail⟩, rfl⟩
    have hnewline := newline_notMem_of_spelled (List.all_eq_true.1 hsmall ending hmem) htail
    exact ⟨by simp [mem_anyCharacters.1 hstem, hnewline], ending, hmem,
      endsIn_iff.2 ⟨stem, tail, htail, rfl⟩⟩
  . rintro ⟨hword, ending, hmem, hends⟩
    obtain ⟨stem, tail, htail, rfl⟩ := endsIn_iff.1 hends
    exact ⟨stem, mem_anyCharacters.2 fun h => hword (List.mem_append_left _ h), tail,
      ⟨ending, hmem, htail⟩, rfl⟩

theorem mem_lastOtherThan {letters : String} : word ∈ anyCharacter∗ * otherThan letters ↔
    ∃ front c, word = front ++ [c] ∧ foldCase c ∉ letters.toList ∧ '\n' ∉ front := by
  rw [Language.mem_mul]
  constructor
  . rintro ⟨front, hfront, _, ⟨c, hc, rfl⟩, rfl⟩
    exact ⟨front, c, rfl, hc, mem_anyCharacters.1 hfront⟩
  . rintro ⟨front, c, rfl, hc, hfront⟩
    exact ⟨front, mem_anyCharacters.2 hfront, [c], ⟨c, hc, rfl⟩, rfl⟩

structure SingularRule where
  stem : Language Char
  ending : String
  replacement : String

namespace SingularRule

def consonantIes : SingularRule where
  stem := anyCharacter∗ * otherThan "aeiou"
  ending := "ies"
  replacement := "y"

def hissingEs : SingularRule where
  stem := anyCharacter∗ * spelledAmong ["s", "x", "z", "ch", "sh"]
  ending := "es"
  replacement := ""

def noPlural : SingularRule where
  stem := anyCharacter∗ * spelledAmong ["ss", "us", "is"]
  ending := ""
  replacement := ""

def finalS : SingularRule where
  stem := anyCharacter * anyCharacter∗
  ending := "s"
  replacement := ""

def inOrder : List SingularRule :=
  [consonantIes, hissingEs, noPlural, finalS]

def Makes (rule : SingularRule) (word result : List Char) : Prop :=
  ∃ stem ∈ rule.stem, ∃ tail ∈ spelled rule.ending,
    word = stem ++ tail ∧ result = stem ++ rule.replacement.toList

/--
What the first of some rules that is for a word makes of it. If there is none, the word stays.
-/
inductive Gives : List SingularRule → List Char → List Char → Prop where
  | stays (word : List Char) : Gives [] word word
  | first {rule : SingularRule} {rules : List SingularRule} {word result : List Char}
    (hmakes : rule.Makes word result) : Gives (rule :: rules) word result
  | later {rule : SingularRule} {rules : List SingularRule} {word result : List Char}
    (hnone : ∀ other, ¬rule.Makes word other) (hgives : Gives rules word result) :
    Gives (rule :: rules) word result

variable {rule : SingularRule} {rules : List SingularRule} {result other : List Char}

theorem append_replacement (rule : SingularRule) (hnone : rule.replacement = "")
    (stem : List Char) : stem ++ rule.replacement.toList = stem := by
  rw [hnone]
  exact List.append_nil stem

theorem Makes.unique (h : rule.Makes word result) (h' : rule.Makes word other) :
    result = other := by
  -- An ending has a fixed length, so a word can be cut before it at one place only.
  obtain ⟨stem, -, tail, htail, rfl, rfl⟩ := h
  obtain ⟨stem', -, tail', htail', hword, rfl⟩ := h'
  have hlength := (length_of_spelled htail).trans (length_of_spelled htail').symm
  rw [(List.append_inj' hword hlength).1]

theorem Makes.endsIn (h : rule.Makes word result) : EndsIn rule.ending word := by
  obtain ⟨stem, -, tail, htail, hword, -⟩ := h
  exact endsIn_iff.2 ⟨stem, tail, htail, hword⟩

theorem Makes.length_lt (h : rule.Makes word result)
    (hshort : rule.replacement.toList.length < rule.ending.toList.length) :
    result.length < word.length := by
  obtain ⟨stem, -, tail, htail, rfl, rfl⟩ := h
  rw [List.length_append, List.length_append, length_of_spelled htail]
  omega

theorem Gives.unique (h : Gives rules word result) (h' : Gives rules word other) :
    result = other := by
  induction h with
  | stays word =>
    cases h'
    rfl
  | first hmakes =>
    cases h' with
    | first hmakes' => exact hmakes.unique hmakes'
    | later hnone => exact absurd hmakes (hnone _)
  | later hnone _ ih =>
    cases h' with
    | first hmakes' => exact absurd hmakes' (hnone _)
    | later _ hgives' => exact ih hgives'

end SingularRule

open SingularRule

variable {rule : SingularRule} {rules : List SingularRule} {result : List Char}

theorem dropEnding?_eq_some {letters rest : List Char}
    (hsmall : ∀ letter ∈ letters, letter.isLower = true) :
    dropEnding? letters word = some rest ↔
      ∃ tail, tail.map foldCase = letters ∧ word = tail ++ rest := by
  fun_induction dropEnding? letters word with
  | case1 word => simp [eq_comm]
  | case2 letter letters => simp [eq_comm]
  | case3 letter letters c chars hletter ih =>
    obtain ⟨hlower, hsmall⟩ := List.forall_mem_cons.1 hsmall
    have hfold := (isLetter_iff hlower c).1 hletter
    rw [ih hsmall]
    constructor
    . rintro ⟨tail, rfl, rfl⟩
      exact ⟨c :: tail, by simp [hfold], rfl⟩
    . rintro ⟨tail, htail, hword⟩
      cases tail with
      | nil => cases htail
      | cons d tail =>
        cases hword
        exact ⟨tail, (List.cons.inj htail).2, rfl⟩
  | case4 letter letters c chars hletter =>
    obtain ⟨hlower, -⟩ := List.forall_mem_cons.1 hsmall
    constructor
    . intro h
      cases h
    . rintro ⟨tail, htail, hword⟩
      cases tail with
      | nil => cases htail
      | cons d tail =>
        cases hword
        exact absurd ((isLetter_iff hlower c).2 (List.cons.inj htail).1) hletter

theorem dropEnding?_reverse (hsmall : isSmall ending = true) :
    dropEnding? ending.toList.reverse word.reverse = some stem.reverse ↔
      ∃ tail ∈ spelled ending, word = stem ++ tail := by
  rw [dropEnding?_eq_some fun letter hmem =>
    List.all_eq_true.1 hsmall letter (List.mem_reverse.1 hmem)]
  constructor
  . rintro ⟨tail, htail, hword⟩
    refine ⟨tail.reverse, ?_, List.reverse_injective (by simpa using hword)⟩
    change tail.reverse.map foldCase = _
    rw [List.map_reverse, htail, List.reverse_reverse]
  . rintro ⟨tail, htail, rfl⟩
    refine ⟨tail.reverse, ?_, by simp⟩
    rw [List.map_reverse, show tail.map foldCase = _ from htail]

theorem hasEnding_reverse (hsmall : isSmall ending = true) (word : List Char) :
    hasEnding ending word.reverse = true ↔ EndsIn ending word := by
  rw [hasEnding, Option.isSome_iff_exists, endsIn_iff]
  constructor
  . rintro ⟨rest, hrest⟩
    exact ⟨rest.reverse, (dropEnding?_reverse hsmall).1 (by rwa [List.reverse_reverse])⟩
  . rintro ⟨stem, hstem⟩
    exact ⟨stem.reverse, (dropEnding?_reverse hsmall).2 hstem⟩

theorem isOneLine_reverse (word : List Char) : isOneLine word.reverse = true ↔ '\n' ∉ word := by
  simp [isOneLine, List.forall_mem_ne']

theorem endingAmong_reverse (hsmall : endings.all isSmall = true) (word : List Char) :
    ((endings.any fun ending => hasEnding ending word.reverse) && isOneLine word.reverse) = true ↔
      word ∈ anyCharacter∗ * spelledAmong endings := by
  rw [mem_endingAmong hsmall, Bool.and_eq_true, List.any_eq_true, isOneLine_reverse, and_comm]
  refine and_congr_right' (exists_congr fun ending => and_congr_right fun hmem => ?_)
  exact hasEnding_reverse (List.all_eq_true.1 hsmall ending hmem) word

def Follows (form : List Char → Option (List Char)) (rule : SingularRule) : Prop :=
  ∀ word result, form word.reverse = some result.reverse ↔ rule.Makes word result

theorem follows_of_cut {form : List Char → Option (List Char)} (hsmall : isSmall rule.ending = true)
    (hnone : ∀ word, dropEnding? rule.ending.toList.reverse word = none → form word = none)
    (hcut : ∀ word stem, dropEnding? rule.ending.toList.reverse word = some stem.reverse →
      ∃ guard : Bool, (guard = true ↔ stem ∈ rule.stem) ∧
        form word = if guard then some (stem ++ rule.replacement.toList).reverse else none) :
    Follows form rule := by
  intro word result
  constructor
  . intro hform
    cases hdrop : dropEnding? rule.ending.toList.reverse word.reverse with
    | none =>
      rw [hnone _ hdrop] at hform
      cases hform
    | some rest =>
      rw [← List.reverse_reverse rest] at hdrop
      obtain ⟨guard, hguard, heq⟩ := hcut _ _ hdrop
      obtain ⟨tail, htail, hword⟩ := (dropEnding?_reverse hsmall).1 hdrop
      rw [heq, Option.ite_none_right_eq_some, Option.some_inj] at hform
      exact ⟨_, hguard.1 hform.1, tail, htail, hword, (List.reverse_injective hform.2).symm⟩
  . rintro ⟨stem, hstem, tail, htail, hword, rfl⟩
    obtain ⟨guard, hguard, heq⟩ := hcut _ _ ((dropEnding?_reverse hsmall).2 ⟨tail, htail, hword⟩)
    rw [heq, if_pos (hguard.2 hstem)]

theorem follows_consonantIes : Follows singularOfIes? consonantIes := by
  refine follows_of_cut (by decide) ?_ ?_
  . intro word hdrop
    change dropEnding? "ies".toList.reverse word = none at hdrop
    rw [singularOfIes?, hdrop]
  . intro word stem hdrop
    change dropEnding? "ies".toList.reverse word = some stem.reverse at hdrop
    have hstem : stem ∈ consonantIes.stem ↔ _ := mem_lastOtherThan
    rw [hstem, singularOfIes?, hdrop]
    -- An empty stem has no letter that could be a consonant.
    rcases List.eq_nil_or_concat' stem with rfl | ⟨front, c, rfl⟩
    . exact ⟨false, by simp, rfl⟩
    . refine ⟨!isVowel c && isOneLine front.reverse, ?_, ?_⟩
      . rw [Bool.and_eq_true, Bool.not_eq_true', ← Bool.not_eq_true, isVowel_iff,
          isOneLine_reverse]
        constructor
        . rintro ⟨hc, hfront⟩
          exact ⟨front, c, rfl, hc, hfront⟩
        . rintro ⟨front', c', happend, hc, hfront⟩
          obtain ⟨rfl, hlast⟩ := List.append_inj' happend rfl
          cases hlast
          exact ⟨hc, hfront⟩
      . rw [List.reverse_append]
        simp [consonantIes]

theorem follows_hissingEs : Follows singularOfEs? hissingEs := by
  refine follows_of_cut (by decide) ?_ ?_
  . intro word hdrop
    change dropEnding? "es".toList.reverse word = none at hdrop
    rw [singularOfEs?, hdrop]
  . intro word stem hdrop
    change dropEnding? "es".toList.reverse word = some stem.reverse at hdrop
    refine ⟨_, endingAmong_reverse (by decide) stem, ?_⟩
    rw [singularOfEs?, hdrop, append_replacement hissingEs rfl]

theorem follows_noPlural : Follows singularOfSelf? noPlural := by
  refine follows_of_cut (by decide) ?_ ?_
  . intro word hdrop
    cases hdrop
  . intro word stem hdrop
    obtain rfl : word = stem.reverse := Option.some_inj.1 hdrop
    refine ⟨_, endingAmong_reverse (by decide) stem, ?_⟩
    rw [singularOfSelf?, append_replacement noPlural rfl]

theorem follows_finalS : Follows singularOfS? finalS := by
  refine follows_of_cut (by decide) ?_ ?_
  . intro word hdrop
    change dropEnding? ['s'] word = none at hdrop
    rw [singularOfS?, hdrop]
  . intro word stem hdrop
    change dropEnding? ['s'] word = some stem.reverse at hdrop
    have hstem : stem ∈ finalS.stem ↔ _ := mem_someCharacters
    rw [hstem, singularOfS?, hdrop]
    rcases List.eq_nil_or_concat' stem with rfl | ⟨front, c, rfl⟩
    . exact ⟨false, by simp, rfl⟩
    . refine ⟨isOneLine (front ++ [c]).reverse, ?_, ?_⟩
      . rw [isOneLine_reverse]
        exact (and_iff_right (by simp)).symm
      . rw [append_replacement finalS rfl, List.reverse_append]
        rfl

theorem gives_or {form : List Char → Option (List Char)} {others : Option (List Char)}
    (hform : Follows form rule)
    (hothers : Gives rules word (others.getD word.reverse).reverse) :
    Gives (rule :: rules) word (((form word.reverse).or others).getD word.reverse).reverse := by
  cases hresult : form word.reverse with
  | some result =>
    exact .first ((hform word result.reverse).1 (by rw [hresult, List.reverse_reverse]))
  | none =>
    refine .later (fun other hmakes => ?_) hothers
    rw [(hform word other).2 hmakes] at hresult
    cases hresult

theorem gives_singularForm (word : List Char) : Gives inOrder word (singularForm word) := by
  -- The word itself is what is left behind the last of the rules.
  have hstays : Gives [] word ((none : Option (List Char)).getD word.reverse).reverse := by
    rw [Option.getD_none, List.reverse_reverse]
    exact .stays word
  have hgives := gives_or follows_consonantIes (gives_or follows_hissingEs
    (gives_or follows_noPlural (gives_or follows_finalS hstays)))
  rwa [Option.or_none] at hgives

theorem noPlural_makes_iff : noPlural.Makes word result ↔
    result = word ∧ '\n' ∉ word ∧ ∃ ending ∈ ["ss", "us", "is"], EndsIn ending word := by
  have hmem := @mem_endingAmong ["ss", "us", "is"] word (by decide)
  constructor
  . rintro ⟨stem, hstem, tail, htail, rfl, rfl⟩
    obtain rfl : tail = [] := List.map_eq_nil_iff.1 htail
    rw [List.append_nil] at hmem ⊢
    exact ⟨append_replacement noPlural rfl stem, hmem.1 hstem⟩
  . rintro ⟨rfl, hends⟩
    exact ⟨result, hmem.2 hends, [], rfl, (List.append_nil _).symm,
      (append_replacement noPlural rfl _).symm⟩

theorem finalS_makes_iff : finalS.Makes word result ↔
    result ≠ [] ∧ '\n' ∉ word ∧ ∃ tail ∈ spelled "s", word = result ++ tail := by
  constructor
  . rintro ⟨stem, hstem, tail, htail, rfl, rfl⟩
    obtain ⟨hne, hline⟩ := mem_someCharacters.1 hstem
    rw [append_replacement finalS rfl]
    refine ⟨hne, ?_, tail, htail, rfl⟩
    exact fun h => (List.mem_append.1 h).elim hline (newline_notMem_of_spelled (by decide) htail)
  . rintro ⟨hne, hline, tail, htail, rfl⟩
    exact ⟨result, mem_someCharacters.2 ⟨hne, fun h => hline (List.mem_append_left _ h)⟩, tail,
      htail, rfl, (append_replacement finalS rfl _).symm⟩

theorem hissingEs_makes (h : hissingEs.Makes word result) :
    result ≠ [] ∧ ∃ tail ∈ spelled "es", word = result ++ tail := by
  obtain ⟨stem, hstem, tail, htail, rfl, rfl⟩ := h
  rw [append_replacement hissingEs rfl]
  refine ⟨?_, tail, htail, rfl⟩
  rintro rfl
  obtain ⟨-, hends⟩ := (mem_endingAmong (by decide)).1 hstem
  exact absurd hends (by decide)

theorem consonantIes_makes (h : consonantIes.Makes word result) :
    ∃ stem ≠ [], ∃ tail ∈ spelled "ies", word = stem ++ tail ∧ result = stem ++ ['y'] := by
  obtain ⟨stem, hstem, tail, htail, hword, hresult⟩ := h
  obtain ⟨front, c, rfl, -, -⟩ := mem_lastOtherThan.1 hstem
  exact ⟨_, by simp, tail, htail, hword, hresult⟩

theorem cases_of_gives (h : Gives inOrder word result) :
    consonantIes.Makes word result ∨ hissingEs.Makes word result ∨ noPlural.Makes word result ∨
      (finalS.Makes word result ∧ ∀ other, ¬noPlural.Makes word other) ∨
      (result = word ∧ ∀ other, ¬finalS.Makes word other) := by
  cases h with
  | first hmakes => exact Or.inl hmakes
  | later _ h =>
    cases h with
    | first hmakes => exact Or.inr (Or.inl hmakes)
    | later _ h =>
      cases h with
      | first hmakes => exact Or.inr (Or.inr (Or.inl hmakes))
      | later hnone h =>
        cases h with
        | first hmakes => exact Or.inr (Or.inr (Or.inr (Or.inl ⟨hmakes, hnone⟩)))
        | later hnone h =>
          cases h
          exact Or.inr (Or.inr (Or.inr (Or.inr ⟨rfl, hnone⟩)))

theorem shape_of_gives (h : Gives inOrder word result) :
    result = word ∨
      (result ≠ [] ∧ ∃ tail, (tail ∈ spelled "s" ∨ tail ∈ spelled "es") ∧ word = result ++ tail) ∨
      ∃ stem ≠ [], ∃ tail ∈ spelled "ies", word = stem ++ tail ∧ result = stem ++ ['y'] := by
  rcases cases_of_gives h with h | h | h | ⟨h, -⟩ | ⟨h, -⟩
  . exact Or.inr (Or.inr (consonantIes_makes h))
  . obtain ⟨hne, tail, htail, hword⟩ := hissingEs_makes h
    exact Or.inr (Or.inl ⟨hne, tail, Or.inr htail, hword⟩)
  . exact Or.inl (noPlural_makes_iff.1 h).1
  . obtain ⟨hne, -, tail, htail, hword⟩ := finalS_makes_iff.1 h
    exact Or.inr (Or.inl ⟨hne, tail, Or.inl htail, hword⟩)
  . exact Or.inl h

theorem eq_of_gives (h : Gives inOrder word result)
    (hword : (∃ ending ∈ ["ss", "us", "is"], EndsIn ending word) ∨ ¬EndsIn "s" word) :
    result = word := by
  -- The two rules that look for `es` do not apply: the last two letters are no other ending.
  have hnotEs : ¬EndsIn "es" word := by
    intro hes
    rcases hword with ⟨ending, hmem, hends⟩ | hs
    . have hlength : ∀ ending ∈ ["ss", "us", "is"], ending.toList.length = "es".toList.length := by
        decide
      rw [hends.unique hes (hlength ending hmem)] at hmem
      exact absurd hmem (by decide)
    . exact hs (hes.mono (by decide))
  rcases cases_of_gives h with h | h | h | ⟨h, hnone⟩ | ⟨h, -⟩
  . exact absurd (h.endsIn.mono (by decide)) hnotEs
  . exact absurd h.endsIn hnotEs
  . exact (noPlural_makes_iff.1 h).1
  . rcases hword with hends | hs
    . -- A word that the last rule applies to is on one line, so the rule before it applies, too.
      exact absurd (noPlural_makes_iff.2 ⟨rfl, (finalS_makes_iff.1 h).2.1, hends⟩) (hnone word)
    . exact absurd h.endsIn hs
  . exact h

theorem length_lt_of_gives (h : Gives inOrder word result) (hline : '\n' ∉ word)
    (htwo : 2 ≤ word.length) (hs : EndsIn "s" word)
    (hnot : ∀ ending ∈ ["ss", "us", "is"], ¬EndsIn ending word) :
    result.length < word.length := by
  rcases cases_of_gives h with h | h | h | ⟨h, -⟩ | ⟨-, hnone⟩
  . exact h.length_lt (by decide)
  . exact h.length_lt (by decide)
  . obtain ⟨-, -, ending, hmem, hends⟩ := noPlural_makes_iff.1 h
    exact absurd hends (hnot ending hmem)
  . exact h.length_lt (by decide)
  . obtain ⟨stem, tail, htail, rfl⟩ := endsIn_iff.1 hs
    have hlength : tail.length = 1 := length_of_spelled htail
    refine absurd (finalS_makes_iff.2 ⟨?_, hline, tail, htail, rfl⟩) (hnone stem)
    rintro rfl
    rw [List.nil_append] at htwo
    omega

/--
The singular of a word is what the first rule that the word matches makes of it, and nothing else.
It is empty for the empty word only. It is the word itself, or what stands before an ending `s` or
`es`, or what stands before an ending `ies` with a `y` behind it. Words in `ss`, `us` and `is` and
words that do not end in `s` are their own singulars. A word on one line that ends in `s` in another
way gets shorter if it has at least two characters. The singular of a name is always inferred.
-/
theorem singular_forms (hint : NameHint) :
    let word := hint.text.toList
    let result := hint.singular.text.toList
    hint.singular.isInferred = true ∧
    (∀ other, Gives inOrder word other ↔ other = result) ∧
    (result = [] ↔ word = []) ∧
    (result = word ∨
      (result ≠ [] ∧ ∃ tail, (tail ∈ spelled "s" ∨ tail ∈ spelled "es") ∧ word = result ++ tail) ∨
      ∃ stem ≠ [], ∃ tail ∈ spelled "ies", word = stem ++ tail ∧ result = stem ++ ['y']) ∧
    ((∃ ending ∈ ["ss", "us", "is"], EndsIn ending word) ∨ ¬EndsIn "s" word → result = word) ∧
    ('\n' ∉ word → 2 ≤ word.length → EndsIn "s" word →
      (∀ ending ∈ ["ss", "us", "is"], ¬EndsIn ending word) → result.length < word.length) := by
  intro word result
  have hgives : Gives inOrder word result := by
    rw [show result = singularForm word from String.toList_ofList]
    exact gives_singularForm word
  have hshape := shape_of_gives hgives
  refine ⟨rfl, fun other => ⟨fun h => h.unique hgives, fun h => h ▸ hgives⟩, ?_, hshape,
    eq_of_gives hgives, length_lt_of_gives hgives⟩
  rcases hshape with heq | ⟨hne, tail, -, hword⟩ | ⟨stem, hne, tail, -, hword, hresult⟩
  . rw [heq]
  . simp [hword, hne]
  . simp [hword, hresult, hne]

theorem singular_forms_long_s :
    let boxes := "Boxeſ".toList
    ('\n' ∉ boxes ∧ 2 ≤ boxes.length ∧ EndsIn "s" boxes ∧
      (∀ ending ∈ ["ss", "us", "is"], ¬EndsIn ending boxes) ∧
      (explicit "Boxeſ").singular.text.toList.length < boxes.length) ∧
    EndsIn "us" "STATUſ".toList ∧
      (explicit "STATUſ").singular.text.toList = "STATUſ".toList := by
  intro boxes
  have hline : '\n' ∉ boxes := by decide
  have htwo : 2 ≤ boxes.length := by decide
  have hs : EndsIn "s" boxes := by decide
  have hnot : ∀ ending ∈ ["ss", "us", "is"], ¬EndsIn ending boxes := by decide
  have hus : EndsIn "us" "STATUſ".toList := by decide
  obtain ⟨-, -, -, -, -, hshorter⟩ := singular_forms (explicit "Boxeſ")
  obtain ⟨-, -, -, -, hstays, -⟩ := singular_forms (explicit "STATUſ")
  exact ⟨⟨hline, htwo, hs, hnot, hshorter hline htwo hs hnot⟩, hus,
    hstays (Or.inl ⟨"us", by simp, hus⟩)⟩

example : (explicit "\nies").singular = inferred "\ny" := by decide

example : (explicit "two\nboxes").singular = inferred "two\nboxes" := by decide

end NameHint

end SchemaGraph
