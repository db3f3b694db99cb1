import BoxCalculus.Term.Printing
import Mathlib.Data.List.Nodup
import Mathlib.Data.List.Perm.Subperm

/-!
# Fresh names

The name that a binder is written under is a name, and it is neither avoided nor in scope
(`freshName_spec`). A binder that has that name already keeps it (`freshName_freshName`).

Primes are put after a taken name until it is free. The names tried have different lengths, and more
of them are tried than there are names that can be taken, so one of them is free.
-/

namespace BoxCalculus

/-- A name with primes after it. -/
def primed (name : String) : Nat → String
  | 0 => name
  | n + 1 => primed (name ++ "'") n

/-- Each prime makes a name longer. -/
theorem length_primed (name : String) (n : Nat) : (primed name n).length = name.length + n := by
  induction n generalizing name with
  | zero => rfl
  | succ n ih =>
      rw [primed, ih, String.length_append]
      have one : "'".length = 1 := rfl
      omega

/-- The search ends at the name with some primes. -/
theorem primedUntilFree_eq (avoid scope : List String) (n : Nat) (name : String) :
    ∃ k, primedUntilFree avoid scope n name = primed name k := by
  induction n generalizing name with
  | zero => exact ⟨0, rfl⟩
  | succ n ih =>
      rw [primedUntilFree]
      split
      · obtain ⟨k, eq⟩ := ih (name ++ "'")
        exact ⟨k + 1, eq⟩
      · exact ⟨0, rfl⟩

/-- A taken name is given only if all names that have been tried are taken. -/
theorem taken_of_primedUntilFree {avoid scope : List String} {n : Nat} {name : String}
    (stuck : taken avoid scope (primedUntilFree avoid scope n name) = true) :
    ∀ k ≤ n, taken avoid scope (primed name k) = true := by
  induction n generalizing name with
  | zero =>
      intro k le
      obtain rfl := Nat.le_zero.1 le
      exact stuck
  | succ n ih =>
      rw [primedUntilFree] at stuck
      split at stuck
      · rename_i first
        intro k le
        cases k with
        | zero => exact first
        | succ k => exact ih stuck k (Nat.le_of_succ_le_succ le)
      · rename_i first
        exact absurd stuck first

/-- As many primes as there are names that can be taken make a name free. -/
theorem primedUntilFree_free {avoid scope : List String} {n : Nat} (name : String)
    (enough : keywords.length + avoid.length + scope.length ≤ n) :
    taken avoid scope (primedUntilFree avoid scope n name) = false := by
  by_contra stuck
  rw [Bool.not_eq_false] at stuck
  have all := taken_of_primedUntilFree stuck
  have distinct : ((List.range (n + 1)).map (primed name)).Nodup := by
    refine List.Nodup.map (fun i j same => ?_) List.nodup_range
    have lengths := congrArg String.length same
    rw [length_primed, length_primed] at lengths
    omega
  have inside : (List.range (n + 1)).map (primed name) ⊆ keywords ++ avoid ++ scope := by
    intro candidate member
    obtain ⟨k, low, rfl⟩ := List.mem_map.1 member
    have here := all k (Nat.le_of_lt_succ (List.mem_range.1 low))
    simpa [taken, or_assoc] using here
  have le := (List.subperm_of_subset distinct inside).length_le
  simp only [List.length_map, List.length_range, List.length_append] at le
  omega

/-- A word stays one with characters of names after it. -/
theorem isWord_append {name more : String} (word : isWord name = true)
    (parts : ∀ c ∈ more.toList, isNamePart c = true) : isWord (name ++ more) = true := by
  unfold isWord at word ⊢
  rw [String.toList_append]
  cases chars : name.toList with
  | nil => simp [chars] at word
  | cons c rest =>
      simp only [chars, Bool.and_eq_true, List.all_eq_true] at word
      simp only [List.cons_append, Bool.and_eq_true, List.all_eq_true, List.mem_append]
      exact ⟨word.1, fun c member => member.elim (word.2 c) (parts c)⟩

/-- A word stays one with primes after it. -/
theorem isWord_primed {name : String} (word : isWord name = true) (n : Nat) :
    isWord (primed name n) = true := by
  induction n generalizing name with
  | zero => exact word
  | succ n ih =>
      refine ih (isWord_append word fun c member => ?_)
      obtain rfl : c = '\'' := by simpa using member
      rfl

/-- The ASCII digits are digits. -/
theorem isDigit_of_ascii {c : Char} (digit : c.isDigit = true) : Text.isDigit c = true := by
  have bounds : 48 ≤ c.toNat ∧ c.toNat ≤ 57 := by
    simpa [Char.isDigit, UInt32.le_iff_toNat_le] using digit
  simp [Text.isDigit, Text.digitRanges, Text.inRanges, bounds]

/-- The digits of a number can stand in a name. -/
theorem isNamePart_digit (n : Nat) {c : Char} (member : c ∈ (toString n).toList) :
    isNamePart c = true := by
  rw [Nat.toString_eq_ofList_toDigits, String.toList_ofList] at member
  have digit := Nat.isDigit_of_mem_toDigits (by decide) (by decide) member
  simp [isNamePart, isDigit_of_ascii digit]

/-- A name made of letters is a word. -/
theorem isWord_letterName (n : Nat) : isWord (letterName (n + 1)) = true := by
  have letters : ∀ k < 26, Text.isLetter (Char.ofNat (97 + k)) = true := by decide
  have letter := letters (n % 26) (Nat.mod_lt n (by decide))
  induction n using Nat.strongRecOn with
  | ind n ih =>
      rw [letterName, if_neg (Nat.succ_ne_zero n), Nat.add_sub_cancel]
      cases first : n / 26 with
      | zero =>
          rw [letterName, if_pos rfl]
          simp [isWord, isNameStart, letter]
      | succ m =>
          have less : m < n := by omega
          refine isWord_append (ih m less (letters _ (Nat.mod_lt m (by decide)))) fun c member => ?_
          obtain rfl : c = Char.ofNat (97 + n % 26) := by simpa using member
          simp [isNamePart, isNameStart, letter]

/-- A word that is free is a name that is neither avoided nor in scope. -/
theorem isName_of_free {avoid scope : List String} {name : String} (word : isWord name = true)
    (free : taken avoid scope name = false) :
    isName name = true ∧ name ∉ avoid ∧ name ∉ scope := by
  simp only [taken, Bool.or_eq_false_iff] at free
  obtain ⟨⟨keyword, avoided⟩, bound⟩ := free
  refine ⟨?_, by simpa using avoided, by simpa using bound⟩
  rw [isName, word, keyword]
  rfl

/-- The name that a binder is written under is a name that is neither avoided nor in scope. -/
theorem freshName_spec (avoid scope : List String) (name : String) :
    isName (freshName avoid scope name) = true ∧ freshName avoid scope name ∉ avoid ∧
      freshName avoid scope name ∉ scope := by
  have base : isWord (if isName name then name else letterName (scope.length + 1)) = true := by
    split
    · rename_i named
      exact (Bool.and_eq_true_iff.1 named).1
    · exact isWord_letterName scope.length
  unfold freshName
  generalize (if isName name then name else letterName (scope.length + 1)) = base' at base
  dsimp only
  split
  · have word := isWord_append base fun c => isNamePart_digit scope.length (c := c)
    obtain ⟨k, eq⟩ := primedUntilFree_eq avoid scope
      (keywords.length + avoid.length + scope.length) (base' ++ toString scope.length)
    refine isName_of_free ?_ (primedUntilFree_free _ (Nat.le_refl _))
    rw [eq]
    exact isWord_primed word k
  · rename_i free
    exact isName_of_free base (Bool.eq_false_iff.2 free)

/-- A binder keeps a name that is free. -/
theorem freshName_eq {avoid scope : List String} {name : String} (named : isName name = true)
    (avoided : name ∉ avoid) (bound : name ∉ scope) : freshName avoid scope name = name := by
  have keyword : keywords.contains name = false := by
    simpa using (Bool.and_eq_true_iff.1 named).2
  have free : taken avoid scope name = false := by
    simp [taken, avoided, bound] at keyword ⊢
    exact keyword
  simp [freshName, named, free]

/-- A binder keeps the name that it has been given. -/
theorem freshName_freshName (avoid scope : List String) (name : String) :
    freshName avoid scope (freshName avoid scope name) = freshName avoid scope name := by
  obtain ⟨named, avoided, bound⟩ := freshName_spec avoid scope name
  exact freshName_eq named avoided bound

end BoxCalculus
