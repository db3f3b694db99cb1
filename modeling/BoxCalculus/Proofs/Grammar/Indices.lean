import BoxCalculus.Proofs.FreeVariables
import BoxCalculus.Proofs.Grammar.Parsing
import BoxCalculus.Proofs.Grammar.WellFormed
import BoxCalculus.Proofs.VariableQueries
import BoxCalculus.Source.Formatting

/-!
# The indices of terms that are read

What is read is well formed, and with exact sums none of its indices is negative. With machine words
the sum that makes an index out of `#k` and the scope can wrap around, and so can the sums that
putting a local definition in place takes. A sum that wraps around is negative, and a negative index
is never changed afterwards. So what is read has a negative index exactly if it is not what is read
with exact sums (`parsed_formed`), and then it cannot be printed (`wrapped_index`).

The invariant is `Term.Tracks`, between a term that is read with machine words and the one that is
read with exact sums. Each rule of the grammar keeps it (`Derivation.tracked`).
-/

namespace BoxCalculus

/-- A sum of two words that are not negative is negative if it wraps around. -/
theorem Arith.word_add_of_nonneg {i j : Int} (first : 0 ≤ i ∧ i < 2 ^ 63)
    (second : 0 ≤ j ∧ j < 2 ^ 63) (nonneg : 0 ≤ Arith.word.add i j) :
    Arith.word.add i j = i + j := by
  rw [Arith.word_add, Int.bmod_def] at nonneg ⊢
  split at nonneg <;> split <;> omega

/-- No index in the terms of the definition is negative. -/
def Definition.nonneg (definition : Definition) : Bool :=
  definition.type?.all Term.nonneg && definition.term.nonneg

namespace Term

/-- `Tracks n t u` says that `u` is what `t` would be with exact sums: no index of `u` is negative, and
the two are the same if no index of `t` is. The variables of `t` are words and stand below fewer than
`n` binders. -/
structure Tracks (n : Nat) (t u : Term) : Prop where
  words : t.allVars (wordBelow n) 0 = true
  nonneg : u.nonneg = true
  same : t.nonneg = true → t = u

variable {n m depth : Nat} {t u value v : Term}

/-- Whether an index is negative does not depend on the binders around it. -/
theorem nonneg_at (t : Term) (depth : Nat) :
    t.allVars (fun _ i => 0 ≤ i) depth = t.nonneg := by
  rw [Bool.eq_iff_iff]
  constructor
  · intro all
    exact allVars_mono (p := fun _ i => 0 ≤ i) (fun _ _ holds => holds) all
  · intro all
    exact allVars_mono (p := fun _ i => 0 ≤ i) (fun _ _ holds => holds) all

/-- Tracking below fewer binders is tracking below more. -/
theorem Tracks.mono (tracks : Tracks m t u) (le : m ≤ n) : Tracks n t u :=
  ⟨wordBelow_mono le tracks.words, tracks.nonneg, tracks.same⟩

/-- A term with words that are not negative tracks itself. -/
theorem tracks_of_nonneg (words : t.allVars (wordBelow n) 0 = true) (nonneg : t.nonneg = true) :
    Tracks n t t :=
  ⟨words, nonneg, fun _ => rfl⟩

/-- A form other than a variable tracks the same form with parts that track its parts. -/
theorem Tracks.of_parts (us : List Term)
    (parts : List.Forall₂ (fun part u => ∃ m, m + part.1 ≤ n ∧ Tracks m part.2 u) t.parts us)
    (compound : ∀ i, t ≠ .var i := by exact fun _ same => by cases same) :
    Tracks n t (t.withParts us) := by
  have each := forall_zip_binders parts
  rw [← parts_withParts parts.length_eq.symm] at each
  refine ⟨?_, ?_, fun nonneg => ?_⟩
  · rw [allVars_eq_all _ _ compound, List.all_eq_true]
    refine forall_mem_of_forall₂ each.flip (fun _ _ => trivial) fun _ part related _ => ?_
    obtain ⟨-, m, le, tracks⟩ := related
    exact wordBelow_mono (by omega) tracks.words
  · rw [Term.nonneg, allVars_eq_all _ _ (withParts_ne_var compound us), List.all_eq_true]
    refine forall_mem_of_forall₂ each (fun _ _ => trivial) fun part part' related _ => ?_
    obtain ⟨-, m, -, tracks⟩ := related
    rw [nonneg_at]
    exact tracks.nonneg
  · rw [Term.nonneg, allVars_eq_all _ _ compound, List.all_eq_true] at nonneg
    have inside := (List.forall₂_and_left t.parts us).2 ⟨nonneg, parts⟩
    have same : List.Forall₂ (fun part u => part.2 = u) t.parts us := by
      refine inside.imp fun part u related => ?_
      obtain ⟨nonneg, m, -, tracks⟩ := related
      rw [nonneg_at] at nonneg
      exact tracks.same nonneg
    rw [← List.forall₂_map_left_iff, List.forall₂_eq_eq_eq] at same
    rw [← same, withParts_parts]

/-- Declarations track each other if their parts do. -/
theorem Tracks.data {name : String} {ctrs ctrs' : Entries} (tracks : Tracks n t u)
    (related : ctrs.Related (Tracks m) ctrs') (le : m + 1 ≤ n) :
    Tracks n (.data name t ctrs) (.data name u ctrs') := by
  have parts := Tracks.of_parts (n := n) (t := .data name t ctrs) (ctrs'.terms ++ [u]) ?_
  · have count : ctrs'.terms.length = ctrs.length := by
      rw [← related.2.length_eq, Entries.length_terms]
    rwa [withParts_data, List.getLastD_concat, Entries.withTerms_append _ count,
      related.withTerms] at parts
  · rw [parts_data]
    refine List.rel_append ?_ (.cons ⟨n, Nat.le_refl _, tracks⟩ .nil)
    exact List.forall₂_map_left_iff.2 (related.2.imp fun _ _ tracks => ⟨m, le, tracks⟩)

/-- Case analyses track each other if their parts do. -/
theorem Tracks.caseOf {name : String} {type type' motive motive' : Term}
    {branches branches' : Entries} (types : Tracks n type type') (values : Tracks n t u)
    (motives : Tracks m motive motive') (le : m + 1 ≤ n)
    (related : branches.Related (Tracks n) branches') :
    Tracks n (.caseOf type t name motive branches) (.caseOf type' u name motive' branches') := by
  have parts := Tracks.of_parts (n := n) (t := .caseOf type t name motive branches)
    (type' :: u :: motive' :: branches'.terms) ?_
  · rwa [withParts_caseOf, related.withTerms] at parts
  · rw [parts_caseOf]
    refine .cons ⟨n, Nat.le_refl _, types⟩ (.cons ⟨n, Nat.le_refl _, values⟩
      (.cons ⟨m, le, motives⟩ ?_))
    exact List.forall₂_map_left_iff.2 (related.2.imp fun _ _ tracks => ⟨n, Nat.le_refl _, tracks⟩)

/-- Spines track each other if the heads and the arguments do. -/
theorem Tracks.apply {args us : List (Bool × Term)} (tracks : Tracks n t u)
    (others : List.Forall₂ (fun arg u => arg.1 = u.1 ∧ Tracks n arg.2 u.2) args us) :
    Tracks n (t.apply args) (u.apply us) := by
  induction others generalizing t u with
  | nil => exact tracks
  | @cons arg other _ _ related _ ih =>
      obtain ⟨erased, arg⟩ := arg
      obtain ⟨mark, other⟩ := other
      obtain ⟨rfl, related⟩ := related
      refine ih (.of_parts (t := .app erased t arg) [u, other] ?_)
      exact .cons ⟨n, Nat.le_refl _, tracks⟩ (.cons ⟨n, Nat.le_refl _, related⟩ .nil)

/-- Two traversals of a term agree if the first one gives no negative index, and they agree on each
variable of which this is so. -/
theorem bindVars_eq_of_nonneg {f g : Nat → Int → Term}
    (agree : ∀ k i, wordBelow n k i = true → (f k i).nonneg = true → 0 ≤ i ∧ f k i = g k i)
    (words : t.allVars (wordBelow n) 0 = true) (nonneg : (t.bindVars f 0).nonneg = true) :
    t.nonneg = true ∧ t.bindVars f 0 = t.bindVars g 0 := by
  rw [Term.nonneg, allVars_bindVars] at nonneg
  have both := allVars_and words nonneg
  simp only [nonneg_at] at both
  have each : t.allVars (fun k i => decide (0 ≤ i ∧ f k i = g k i)) 0 = true := by
    refine allVars_mono (fun k i holds => ?_) both
    obtain ⟨word, nonneg⟩ := Bool.and_eq_true_iff.1 holds
    exact decide_eq_true (agree _ i word nonneg)
  constructor
  · exact allVars_mono (fun k i holds => decide_eq_true (of_decide_eq_true holds).1) each
  · rw [bindVars_eq_iff]
    exact allVars_mono (fun k i holds => decide_eq_true (of_decide_eq_true holds).2) each

section Sums

variable {k : Nat} {i : Int}

/-- A variable is not negative if its index is not. -/
@[simp] theorem nonneg_var : (var i).nonneg = true ↔ 0 ≤ i :=
  decide_eq_true_iff

/-- Raising variables keeps a negative index, and makes one of a sum that wraps around. -/
theorem shift_word_eq (small : k < 2 ^ 63) (fits : n ≤ 2 ^ 63)
    (words : value.allVars (wordBelow n) 0 = true)
    (nonneg : (value.shift .word k 0).nonneg = true) :
    value.nonneg = true ∧ value.shift .word k 0 = value.shift .exact k 0 := by
  refine bindVars_eq_of_nonneg (fun d i word nonneg => ?_) words nonneg
  obtain ⟨below, word⟩ := wordBelow_iff.1 word
  rw [Arith.word_zero_add (by omega)] at nonneg ⊢
  rw [Arith.exact_add, Arith.exact_add, Int.zero_add]
  by_cases inside : i < d
  · rw [if_pos inside] at nonneg ⊢
    exact ⟨nonneg_var.1 nonneg, (if_pos inside).symm⟩
  · rw [if_neg inside] at nonneg ⊢
    have first : 0 ≤ i := by omega
    have sum := Arith.word_add_of_nonneg ⟨first, word.2⟩ (by omega) (nonneg_var.1 nonneg)
    exact ⟨first, by rw [if_neg inside, sum]⟩

/-- Shifting with exact sums makes no index negative. -/
theorem nonneg_shift_exact (nonneg : value.nonneg = true) :
    (value.shift .exact k 0).nonneg = true := by
  refine allVars_bindVars_of (fun d i holds => ?_) nonneg
  have first : 0 ≤ i := of_decide_eq_true holds
  rw [nonneg_at]
  split
  · exact nonneg_var.2 first
  · exact nonneg_var.2 (by rw [Arith.exact_add]; omega)

/-- Substitution with exact sums makes no index negative. -/
theorem nonneg_subst_exact (nonneg : t.nonneg = true) (values : value.nonneg = true) :
    (t.subst .exact value 0).nonneg = true := by
  refine allVars_bindVars_of (fun d i holds => ?_) nonneg
  have first : 0 ≤ i := of_decide_eq_true holds
  rw [nonneg_at, Arith.exact_add, Int.zero_add]
  dsimp only
  split
  · exact nonneg_shift_exact values
  · split
    · exact nonneg_var.2 (by rw [Arith.exact_add]; omega)
    · exact nonneg_var.2 first

/-- The variables of a word-sized substitution are words, below the binders of both terms. -/
theorem words_subst (words : t.allVars (wordBelow n) 0 = true)
    (values : value.allVars (wordBelow m) 0 = true) :
    (t.subst .word value 0).allVars (wordBelow (n + m)) 0 = true := by
  refine allVars_bindVars_of (fun d i word => ?_) words
  obtain ⟨below, word⟩ := wordBelow_iff.1 word
  have moved (j : Int) : IsWord j → (var j).allVars (wordBelow (n + m)) (0 + d) = true :=
    fun word => wordBelow_iff.2 ⟨by omega, word⟩
  dsimp only
  split
  · refine allVars_bindVars_of (fun e j inner => ?_) values
    obtain ⟨inside, inner⟩ := wordBelow_iff.1 inner
    split
    · exact wordBelow_iff.2 ⟨by omega, inner⟩
    · exact wordBelow_iff.2 ⟨by omega, isWord_add _ _⟩
  · split
    · exact moved _ (isWord_add _ _)
    · exact moved _ word

/-- Substitution keeps track. -/
theorem Tracks.subst (fits : n + m ≤ 2 ^ 63) (body : Tracks n t u) (values : Tracks m value v) :
    Tracks (n + m) (t.subst .word value 0) (u.subst .exact v 0) := by
  refine ⟨words_subst body.words values.words, nonneg_subst_exact body.nonneg values.nonneg,
    fun nonneg => ?_⟩
  -- The values need not be the same, but they are where there is a variable to put them in place of.
  have agree := bindVars_eq_of_nonneg (g := fun depth i =>
    if i = Arith.exact.add 0 depth then v.shift .exact (Arith.exact.add 0 depth) 0
    else if Arith.exact.add 0 depth < i then var (Arith.exact.add i (-1)) else var i)
    (fun d i word nonneg => ?_) body.words nonneg
  · rw [← body.same agree.1]
    exact agree.2
  · obtain ⟨below, word⟩ := wordBelow_iff.1 word
    simp only [Arith.word_zero_add (k := d) (by omega), Arith.exact_add, Int.zero_add] at nonneg ⊢
    split at nonneg
    · rename_i here
      have raised := shift_word_eq (by omega) (by omega) values.words nonneg
      rw [if_pos here, if_pos here, raised.2, values.same raised.1]
      exact ⟨by omega, rfl⟩
    · rename_i elsewhere
      rw [if_neg elsewhere, if_neg elsewhere]
      split at nonneg
      · rename_i outside
        -- A variable from outside is positive, so that lowering it cannot wrap around.
        rw [if_pos outside, if_pos outside, Arith.word_add_eq (by omega) (by omega)]
        exact ⟨by omega, rfl⟩
      · rename_i inside
        rw [if_neg inside, if_neg inside]
        exact ⟨nonneg_var.1 nonneg, rfl⟩

end Sums

end Term

namespace Grammar

open Term

/-- A name that is in scope has an index below the length of the scope. -/
theorem Innermost.lt {scope : List String} {name : String} {index : Nat}
    (innermost : Innermost scope name index) : index < scope.length :=
  (List.getElem?_eq_some_iff.1 innermost.1).1

mutual

/-- A derivation with machine words is one with exact sums, of a term that it tracks. -/
theorem Derivation.tracked : ∀ {scope : List String} {xs : List Lexeme} {t : Term},
    Derivation .word scope xs t → scope.length + xs.length ≤ 2 ^ 63 →
    ∃ u, Nonempty (Derivation .exact scope xs u) ∧ Tracks xs.length t u
  | _, _, _, .univ, _ => ⟨_, ⟨.univ⟩, tracks_of_nonneg rfl rfl⟩
  | scope, _, _, @Derivation.free _ _ _ k numeral small, fits => by
      rw [List.length_singleton] at fits ⊢
      refine ⟨_, ⟨.free numeral small⟩, wordBelow_iff.2 ⟨Nat.one_pos, isWord_add _ _⟩, ?_, ?_⟩
      · rw [nonneg_var, Arith.exact_add]
        omega
      · intro nonneg
        rw [nonneg_var] at nonneg
        rw [Arith.word_add_of_nonneg (by omega) (by omega) nonneg, Arith.exact_add]
  | _, _, _, .bound plain innermost, fits => by
      have small := innermost.lt
      refine ⟨_, ⟨.bound plain innermost⟩, tracks_of_nonneg ?_ (nonneg_var.2 (by omega))⟩
      exact wordBelow_iff.2 ⟨Nat.one_pos, by omega, by omega⟩
  | _, _, _, .reference plain free, _ => ⟨_, ⟨.reference plain free⟩, tracks_of_nonneg rfl rfl⟩
  | _, _, _, .pi plain first second, fits => by
      simp only [List.length_cons, List.length_append] at fits ⊢
      obtain ⟨u, ⟨first⟩, tracks⟩ := first.tracked (by omega)
      obtain ⟨v, ⟨second⟩, tracks'⟩ := second.tracked (by rw [List.length_cons]; omega)
      refine ⟨_, ⟨.pi plain first second⟩, .of_parts [u, v] ?_⟩
      exact .cons ⟨_, by omega, tracks⟩ (.cons ⟨_, by omega, tracks'⟩ .nil)
  | _, _, _, .lam plain first second, fits => by
      simp only [List.length_cons, List.length_append] at fits ⊢
      obtain ⟨u, ⟨first⟩, tracks⟩ := first.tracked (by omega)
      obtain ⟨v, ⟨second⟩, tracks'⟩ := second.tracked (by rw [List.length_cons]; omega)
      refine ⟨_, ⟨.lam plain first second⟩, .of_parts [u, v] ?_⟩
      exact .cons ⟨_, by omega, tracks⟩ (.cons ⟨_, by omega, tracks'⟩ .nil)
  | _, _, _, .bare plain inner, fits => by
      simp only [List.length_cons, List.length_append] at fits ⊢
      obtain ⟨u, ⟨inner⟩, tracks⟩ := inner.tracked (by rw [List.length_cons]; omega)
      refine ⟨_, ⟨.bare plain inner⟩, .of_parts [.hole, u] ?_⟩
      exact .cons ⟨0, by omega, tracks_of_nonneg rfl rfl⟩ (.cons ⟨_, by omega, tracks⟩ .nil)
  | _, _, _, .spine first others, fits => by
      simp only [List.length_cons, List.length_append] at fits ⊢
      obtain ⟨u, ⟨first⟩, tracks⟩ := first.tracked (by omega)
      obtain ⟨us, ⟨others⟩, each⟩ := others.tracked (by omega)
      refine ⟨_, ⟨.spine first others⟩, (tracks.mono (by omega)).apply ?_⟩
      exact each.imp fun _ _ related => ⟨related.1, related.2.mono (by omega)⟩
  | _, _, _, .sigma plain first second, fits => by
      simp only [List.length_cons, List.length_append] at fits ⊢
      obtain ⟨u, ⟨first⟩, tracks⟩ := first.tracked (by omega)
      obtain ⟨v, ⟨second⟩, tracks'⟩ := second.tracked (by rw [List.length_cons]; omega)
      refine ⟨_, ⟨.sigma plain first second⟩, .of_parts [u, v] ?_⟩
      exact .cons ⟨_, by omega, tracks⟩ (.cons ⟨_, by omega, tracks'⟩ .nil)
  | _, _, _, .pair first second third, fits => by
      simp only [List.length_cons, List.length_append] at fits ⊢
      obtain ⟨u, ⟨first⟩, tracks⟩ := first.tracked (by omega)
      obtain ⟨v, ⟨second⟩, tracks'⟩ := second.tracked (by omega)
      obtain ⟨w, ⟨third⟩, tracks''⟩ := third.tracked (by omega)
      refine ⟨_, ⟨.pair first second third⟩, .of_parts [u, v, w] ?_⟩
      exact .cons ⟨_, by omega, tracks⟩ (.cons ⟨_, by omega, tracks'⟩
        (.cons ⟨_, by omega, tracks''⟩ .nil))
  | _, _, _, .split plain fst_plain snd_plain first second third, fits => by
      simp only [List.length_cons, List.length_append] at fits ⊢
      obtain ⟨u, ⟨first⟩, tracks⟩ := first.tracked (by omega)
      obtain ⟨v, ⟨second⟩, tracks'⟩ := second.tracked (by rw [List.length_cons]; omega)
      obtain ⟨w, ⟨third⟩, tracks''⟩ :=
        third.tracked (by rw [List.length_cons, List.length_cons]; omega)
      refine ⟨_, ⟨.split plain fst_plain snd_plain first second third⟩,
        .of_parts [u, v, w] ?_⟩
      exact .cons ⟨_, by omega, tracks⟩ (.cons ⟨_, by omega, tracks'⟩
        (.cons ⟨_, by omega, tracks''⟩ .nil))
  | _, _, _, .data plain nodup first block, fits => by
      simp only [List.length_cons, List.length_append] at fits ⊢
      obtain ⟨u, ⟨first⟩, tracks⟩ := first.tracked (by omega)
      obtain ⟨ctrs, ⟨block⟩, related⟩ := block.tracked (by rw [List.length_cons]; omega)
      refine ⟨_, ⟨.data plain (related.1 ▸ nodup) first block⟩, ?_⟩
      exact (tracks.mono (by omega)).data related (by omega)
  | _, _, _, .ctr plain inner, fits => by
      simp only [List.length_cons] at fits ⊢
      obtain ⟨u, ⟨inner⟩, tracks⟩ := inner.tracked (by omega)
      refine ⟨_, ⟨.ctr plain inner⟩, .of_parts [u] ?_⟩
      exact .cons ⟨_, by omega, tracks⟩ .nil
  | _, _, _, .caseOf plain first second third block, fits => by
      simp only [List.length_cons, List.length_append] at fits ⊢
      obtain ⟨u, ⟨first⟩, tracks⟩ := first.tracked (by omega)
      obtain ⟨v, ⟨second⟩, tracks'⟩ := second.tracked (by omega)
      obtain ⟨w, ⟨third⟩, tracks''⟩ := third.tracked (by rw [List.length_cons]; omega)
      obtain ⟨branches, ⟨block⟩, labels, each⟩ := block.tracked (by omega)
      refine ⟨_, ⟨.caseOf plain first second third block⟩, ?_⟩
      refine (tracks'.mono (by omega)).caseOf (tracks.mono (by omega)) tracks'' (by omega) ?_
      exact ⟨labels, each.imp fun _ _ tracks => tracks.mono (by omega)⟩
  | _, _, _, .dup plain first second, fits => by
      simp only [List.length_cons, List.length_append] at fits ⊢
      obtain ⟨u, ⟨first⟩, tracks⟩ := first.tracked (by omega)
      obtain ⟨v, ⟨second⟩, tracks'⟩ := second.tracked (by rw [List.length_cons]; omega)
      refine ⟨_, ⟨.dup plain first second⟩, .of_parts [u, v] ?_⟩
      exact .cons ⟨_, by omega, tracks⟩ (.cons ⟨_, by omega, tracks'⟩ .nil)
  | _, _, _, .letIn plain first second, fits => by
      simp only [List.length_cons, List.length_append] at fits ⊢
      obtain ⟨v, ⟨first⟩, tracks⟩ := first.tracked (by omega)
      obtain ⟨u, ⟨second⟩, tracks'⟩ := second.tracked (by rw [List.length_cons]; omega)
      exact ⟨_, ⟨.letIn plain first second⟩, (tracks'.subst (by omega) tracks).mono (by omega)⟩
  | _, _, _, .box inner, fits => by
      simp only [List.length_cons] at fits ⊢
      obtain ⟨u, ⟨inner⟩, tracks⟩ := inner.tracked (by omega)
      refine ⟨_, ⟨.box inner⟩, .of_parts [u] ?_⟩
      exact .cons ⟨_, by omega, tracks⟩ .nil
  | _, _, _, .boxType inner, fits => by
      simp only [List.length_cons] at fits ⊢
      obtain ⟨u, ⟨inner⟩, tracks⟩ := inner.tracked (by omega)
      refine ⟨_, ⟨.boxType inner⟩, .of_parts [u] ?_⟩
      exact .cons ⟨_, by omega, tracks⟩ .nil

/-- Arguments that are read with machine words track those that are read with exact sums. -/
theorem Arguments.tracked : ∀ {scope : List String} {xs : List Lexeme}
    {args : List (Bool × Term)}, Arguments .word scope xs args →
    scope.length + xs.length ≤ 2 ^ 63 →
    ∃ us, Nonempty (Arguments .exact scope xs us) ∧
      List.Forall₂ (fun arg u => arg.1 = u.1 ∧ Tracks xs.length arg.2 u.2) args us
  | _, _, _, .nil, _ => ⟨_, ⟨.nil⟩, .nil⟩
  | _, _, _, .cons first others, fits => by
      simp only [List.length_append] at fits ⊢
      obtain ⟨u, ⟨first⟩, tracks⟩ := first.tracked (by omega)
      obtain ⟨us, ⟨others⟩, each⟩ := others.tracked (by omega)
      refine ⟨_, ⟨.cons first others⟩, .cons ⟨rfl, tracks.mono (by omega)⟩ ?_⟩
      exact each.imp fun _ _ related => ⟨related.1, related.2.mono (by omega)⟩

/-- Entries that are read with machine words track those that are read with exact sums. -/
theorem Block.tracked : ∀ {separator : String} {scope : List String} {xs : List Lexeme}
    {entries : Entries}, Block .word separator scope xs entries →
    scope.length + xs.length ≤ 2 ^ 63 →
    ∃ others, Nonempty (Block .exact separator scope xs others) ∧
      entries.Related (Tracks xs.length) others
  | _, _, _, _, .nil, _ => ⟨_, ⟨.nil⟩, rfl, .nil⟩
  | _, _, _, _, .last plain first, fits => by
      simp only [List.length_cons] at fits ⊢
      obtain ⟨u, ⟨first⟩, tracks⟩ := first.tracked (by omega)
      exact ⟨_, ⟨.last plain first⟩, rfl, .cons (tracks.mono (by omega)) .nil⟩
  | _, _, _, _, .cons plain first others, fits => by
      simp only [List.length_cons, List.length_append] at fits ⊢
      obtain ⟨u, ⟨first⟩, tracks⟩ := first.tracked (by omega)
      obtain ⟨rest, ⟨others⟩, labels, each⟩ := others.tracked (by omega)
      refine ⟨_, ⟨.cons plain first others⟩, congrArg (List.cons _) labels,
        .cons (tracks.mono (by omega)) ?_⟩
      exact each.imp fun _ _ tracks => tracks.mono (by omega)

end

/-- `DefinitionTracks first second` says that the second definition is what the first would be with
exact sums. -/
structure DefinitionTracks (first second : Definition) : Prop where
  nonneg : second.nonneg = true
  same : first.nonneg = true → first = second

/-- A definition that is read with machine words tracks the one that is read with exact sums. -/
theorem Written.tracked {tokens : List Token} {definition : Definition}
    (written : Written .word tokens definition) (fits : tokens.length ≤ 2 ^ 63) :
    ∃ other, Written .exact tokens other ∧ DefinitionTracks definition other := by
  cases written with
  | @plain name pos tokens xs t plain same inner =>
      have count := congrArg List.length same
      simp only [List.length_map, List.length_cons] at count fits
      obtain ⟨u, ⟨inner⟩, tracks⟩ := inner.tracked (by rw [List.length_nil]; omega)
      refine ⟨_, .plain plain same inner, tracks.nonneg, fun nonneg => ?_⟩
      rw [tracks.same nonneg]
  | @annotated name pos tokens xs ys type t plain same first second =>
      have count := congrArg List.length same
      simp only [List.length_map, List.length_cons, List.length_append] at count fits
      obtain ⟨u, ⟨first⟩, tracks⟩ := first.tracked (by rw [List.length_nil]; omega)
      obtain ⟨v, ⟨second⟩, tracks'⟩ := second.tracked (by rw [List.length_nil]; omega)
      refine ⟨_, .annotated plain same first second, ?_, fun nonneg => ?_⟩
      · exact Bool.and_eq_true_iff.2 ⟨tracks.nonneg, tracks'.nonneg⟩
      · obtain ⟨types, terms⟩ := Bool.and_eq_true_iff.1 nonneg
        rw [tracks.same types, tracks'.same terms]

/-- Definitions that are read with machine words track those that are read with exact sums. -/
theorem Splits.tracked {tokens : List Token} {definitions : List Definition}
    (splits : Splits .word tokens definitions) (fits : tokens.length ≤ 2 ^ 63) :
    ∃ others, Splits .exact tokens others ∧ List.Forall₂ DefinitionTracks definitions others := by
  induction splits with
  | nil => exact ⟨[], .nil, .nil⟩
  | cons first _ ih =>
      rw [List.length_append] at fits
      obtain ⟨other, written, tracks⟩ := first.tracked (by omega)
      obtain ⟨others, splits, each⟩ := ih (by omega)
      exact ⟨_, .cons written splits, .cons tracks each⟩

end Grammar

/-- There are at most as many tokens as characters. -/
theorem length_le_of_tokensFrom {pass : Nat} {comment : Bool} {chars : List Char} {pos stop : Pos}
    {tokens : List Token} (read : tokensFrom pass comment chars pos = .ok (tokens, stop)) :
    tokens.length ≤ chars.length := by
  fun_induction tokensFrom pass comment chars pos generalizing tokens with
  | case1 =>
      cases read
      exact Nat.le_refl _
  | case2 _ _ _ _ _ ih | case3 _ _ _ ih | case4 _ _ _ _ ih | case5 _ _ _ _ _ ih =>
      exact Nat.le_succ_of_le (ih read)
  | case6 => cases read
  | case7 c rest pos _ _ lexeme more first ih =>
      obtain ⟨⟨later, stop'⟩, others, last⟩ := ok_of_bind read
      cases last
      exact Nat.succ_le_succ (ih others)

variable {file source : String}

/-- A source has at least as many characters as tokens. -/
theorem length_le_of_tokenize {tokens : List Token} {stop : Pos}
    (read : tokenize file source = .ok (tokens, stop)) : tokens.length ≤ source.length := by
  rw [← String.length_toList]
  exact length_le_of_tokensFrom read

/-- A term that is read has no negative index exactly if it is read with exact sums, too. -/
theorem nonneg_iff_parseTerm_exact {t : Term} (small : source.length < 2 ^ 63)
    (ok : parseTerm .word file source = .ok t) :
    t.nonneg = true ↔ parseTerm .exact file source = .ok t := by
  obtain ⟨tokens, stop, read, ⟨derivation⟩⟩ := parseTerm_ok_iff.1 ok
  have count := length_le_of_tokenize read
  obtain ⟨u, exactly, tracks⟩ := derivation.tracked (by
    rw [List.length_nil, List.length_map]
    omega)
  have parsed : parseTerm .exact file source = .ok u :=
    parseTerm_ok_iff.2 ⟨tokens, stop, read, exactly⟩
  rw [parsed, Except.ok.injEq]
  constructor
  · exact fun nonneg => (tracks.same nonneg).symm
  · rintro rfl
    exact tracks.nonneg

/-- Definitions that are read have no negative index exactly if they are read with exact sums, too.
-/
theorem nonneg_iff_parseFile_exact {definitions : List Definition}
    (small : source.length < 2 ^ 63) (ok : parseFile .word file source = .ok definitions) :
    (∀ definition ∈ definitions, definition.nonneg = true) ↔
      parseFile .exact file source = .ok definitions := by
  obtain ⟨tokens, stop, read, splits⟩ := parseFile_ok_iff.1 ok
  have count := length_le_of_tokenize read
  obtain ⟨others, exactly, each⟩ := splits.tracked (by omega)
  have parsed : parseFile .exact file source = .ok others :=
    parseFile_ok_iff.2 ⟨tokens, stop, read, exactly⟩
  rw [parsed, Except.ok.injEq]
  constructor
  · intro nonneg
    have inside := (List.forall₂_and_left definitions others).2 ⟨nonneg, each⟩
    have same := inside.imp fun _ _ related => related.2.same related.1
    rw [List.forall₂_eq_eq_eq] at same
    exact same.symm
  · rintro rfl
    exact forall_mem_of_forall₂ each (fun _ _ => trivial) fun _ _ tracks _ => tracks.nonneg

/-- A formed term can be printed exactly if it has no negative index. -/
theorem Term.Formed.isSome_print? {t : Term} (formed : t.Formed) : t.print?.isSome = t.nonneg := by
  rw [Term.print?, formed.1, Bool.false_or]
  cases t.nonneg <;> rfl

/-- A formed definition can be printed exactly if it has no negative index. -/
theorem Grammar.FormedDefinition.isSome_print? {definition : Definition}
    (formed : FormedDefinition definition) : definition.print?.isSome = definition.nonneg := by
  obtain ⟨name, type?, term, pos⟩ := definition
  have printed : term.print?.isSome = term.nonneg := formed.term.isSome_print?
  cases type? with
  | none =>
      simp only [Definition.print?, Definition.nonneg, Option.all_none, Bool.true_and, ← printed]
      cases term.print? <;> rfl
  | some type =>
      have types := (formed.type type rfl).isSome_print?
      simp only [Definition.print?, Definition.nonneg, Option.all_some, ← types, ← printed]
      cases type.print? <;> cases term.print? <;> rfl

/-- What is read is well formed, but for its indices: every term has its parts, except for domains of
lambdas, only names that can be written, and distinct constructors. It can be printed exactly if none
of its indices is negative, and that is so exactly if it is what is read with exact sums, since an index
only gets negative where a sum wraps around. -/
theorem parsed_formed (file source : String) :
    (∀ t, parseTerm .word file source = .ok t →
      t.Formed ∧ t.print?.isSome = t.nonneg ∧
      (source.length < 2 ^ 63 → (t.nonneg = true ↔ parseTerm .exact file source = .ok t))) ∧
    ∀ definitions, parseFile .word file source = .ok definitions →
      (∀ definition ∈ definitions, Grammar.FormedDefinition definition ∧
        definition.print?.isSome = definition.nonneg) ∧
      (source.length < 2 ^ 63 →
        ((∀ definition ∈ definitions, definition.nonneg = true) ↔
          parseFile .exact file source = .ok definitions)) := by
  constructor
  · intro t ok
    obtain ⟨tokens, stop, read, ⟨derivation⟩⟩ := parseTerm_ok_iff.1 ok
    have formed := derivation.formed (Grammar.spelled_of_tokensFrom read)
    exact ⟨formed, formed.isSome_print?, fun small => nonneg_iff_parseTerm_exact small ok⟩
  · intro definitions ok
    obtain ⟨tokens, stop, read, splits⟩ := parseFile_ok_iff.1 ok
    have formed := splits.formed (Grammar.spelled_of_tokensFrom read)
    refine ⟨fun definition mem => ?_, fun small => nonneg_iff_parseFile_exact small ok⟩
    exact ⟨formed definition mem, (formed definition mem).isSome_print?⟩

/-- A local definition that is put in place below a binder, with a free variable that is raised by
it. -/
theorem parsed_formed_raised : ∃ t,
    parseTerm .word "" "let f = [x] (x #0) in dup y = (f Type) in box (f y)" = .ok t ∧
      t.Formed ∧ t.nonneg = true ∧
      parseTerm .exact "" "let f = [x] (x #0) in dup y = (f Type) in box (f y)" = .ok t := by
  obtain ⟨t, ok, nonneg⟩ : ∃ t,
      parseTerm .word "" "let f = [x] (x #0) in dup y = (f Type) in box (f y)" = .ok t ∧
        t.nonneg = true := ⟨_, rfl, rfl⟩
  obtain ⟨formed, -, same⟩ := (parsed_formed _ _).1 t ok
  exact ⟨t, ok, formed, nonneg, (same (by decide)).1 nonneg⟩

/-- The largest numeral that is a word, in the scope of a local definition. The sum wraps around, so
what is read is not the variable that the numeral is for, and it cannot be printed. -/
theorem wrapped_index : ∃ t,
    parseTerm .word "" "let x = Type in #9223372036854775807" = .ok t ∧ t.nonneg = false ∧
      t.print? = none :=
  ⟨.var (-0x8000_0000_0000_0000), rfl, rfl, rfl⟩

end BoxCalculus
