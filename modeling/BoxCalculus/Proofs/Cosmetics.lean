import BoxCalculus.Proofs.Redexes
import BoxCalculus.Proofs.Runs
import BoxCalculus.Term.Equality
import BoxCalculus.Term.References

/-!
# Terms without their cosmetics

`Term.strip` takes the names of bound variables out of a term and changes its erasure marks. Terms
of the same shape are those that are equal without names and marks (`equal_iff_strip`). The variables
and the references of a term do not depend on either.
-/

namespace BoxCalculus

mutual

/-- The term without the names of its bound variables, with `mark` applied to its erasure marks. -/
def Term.strip (mark : Bool → Bool) : Term → Term
  | .hole => .hole
  | .var index => .var index
  | .univ => .univ
  | .ref name => .ref name
  | .pi erased _ dom cod => .pi (mark erased) "" (dom.strip mark) (cod.strip mark)
  | .lam erased _ dom body => .lam (mark erased) "" (dom.strip mark) (body.strip mark)
  | .app erased fn arg => .app (mark erased) (fn.strip mark) (arg.strip mark)
  | .sigma erased _ fst snd => .sigma (mark erased) "" (fst.strip mark) (snd.strip mark)
  | .pair erased type fst snd =>
      .pair (mark erased) (type.strip mark) (fst.strip mark) (snd.strip mark)
  | .split erased scrutinee _ motive _ _ body =>
      .split (mark erased) (scrutinee.strip mark) "" (motive.strip mark) "" "" (body.strip mark)
  | .data _ type ctrs => .data "" (type.strip mark) (ctrs.strip mark)
  | .ctr name type => .ctr name (type.strip mark)
  | .caseOf type value _ motive branches =>
      .caseOf (type.strip mark) (value.strip mark) "" (motive.strip mark) (branches.strip mark)
  | .dup _ value body => .dup "" (value.strip mark) (body.strip mark)
  | .box value => .box (value.strip mark)
  | .boxType type => .boxType (type.strip mark)

/-- The entries with their terms stripped. -/
def Entries.strip (mark : Bool → Bool) : Entries → Entries
  | .nil => .nil
  | .cons label term rest => .cons label (term.strip mark) (rest.strip mark)

end

/-- The term without names and marks. -/
abbrev Term.bare (t : Term) : Term :=
  t.strip fun _ => false

/-- Entries are stripped by stripping their terms. -/
theorem Entries.strip_eq_map (mark : Bool → Bool) : ∀ entries : Entries,
    entries.strip mark = entries.map (Term.strip mark)
  | .nil => rfl
  | .cons label term rest => by simp [Entries.strip, Entries.map, Entries.strip_eq_map mark rest]

/-- The list of stripped entries has their stripped terms. -/
theorem Entries.toList_strip (mark : Bool → Bool) (entries : Entries) :
    (entries.strip mark).toList = entries.toList.map fun entry => (entry.1, entry.2.strip mark) := by
  rw [Entries.strip_eq_map, Entries.toList_map]

/-- The references of entries are those of their terms. -/
theorem Entries.refs_eq_flatMap : ∀ entries : Entries,
    entries.refs = entries.toList.flatMap fun entry => entry.2.refs
  | .nil => rfl
  | .cons label term rest => by
      simp [Entries.refs, Entries.toList, Entries.refs_eq_flatMap rest]

namespace Term

/-- A stripped term is a gap if the term is. -/
@[simp] theorem isHole_strip (mark : Bool → Bool) (t : Term) : (t.strip mark).isHole = t.isHole := by
  cases t <;> rfl

/-- A stripped term has the same references. -/
@[simp] theorem refs_strip (mark : Bool → Bool) (t : Term) : (t.strip mark).refs = t.refs := by
  induction t with
  | data name type ctrs type_ih ctrs_ih =>
      simp only [strip, refs, type_ih, Entries.strip_eq_map, Entries.refs_eq_flatMap,
        Entries.toList_map, List.flatMap_map]
      rw [List.flatMap_congr ctrs_ih]
  | caseOf type value name motive branches type_ih value_ih motive_ih branches_ih =>
      simp only [strip, refs, type_ih, value_ih, motive_ih, Entries.strip_eq_map,
        Entries.refs_eq_flatMap, Entries.toList_map, List.flatMap_map]
      rw [List.flatMap_congr branches_ih]
  | _ => simp_all [strip, refs]

/-- A stripped term has the same variables. -/
@[simp] theorem allVars_strip (p : Nat → Int → Bool) (mark : Bool → Bool) (t : Term) (depth : Nat) :
    (t.strip mark).allVars p depth = t.allVars p depth := by
  induction t generalizing depth with
  | data name type ctrs type_ih ctrs_ih =>
      rw [Bool.eq_iff_iff]
      simp only [strip, allVars, type_ih, Entries.strip_eq_map,
        Entries.allVars_eq_all, Entries.toList_map, Bool.and_eq_true, List.all_eq_true,
        List.forall_mem_map]
      exact and_congr_right' (forall₂_congr fun entry mem => by rw [ctrs_ih entry mem])
  | caseOf type value name motive branches type_ih value_ih motive_ih branches_ih =>
      rw [Bool.eq_iff_iff]
      simp only [strip, allVars, type_ih, value_ih, motive_ih, Entries.strip_eq_map,
        Entries.allVars_eq_all, Entries.toList_map, Bool.and_eq_true, List.all_eq_true,
        List.forall_mem_map]
      exact and_congr_right' (forall₂_congr fun entry mem => by rw [branches_ih entry mem])
  | _ => simp_all [strip, allVars]

end Term

mutual

/-- Terms of the same shape are those that are equal without names and marks. -/
theorem Term.equal_iff_strip (t u : Term) :
    t.equal u = true ↔ t.strip (fun _ => false) = u.strip fun _ => false := by
  cases t <;> cases u <;>
    simp [Term.equal, Term.strip, Term.equal_iff_strip, Entries.equal_iff_strip, and_assoc]

/-- Entries have the same shape if they are the same without cosmetics. -/
theorem Entries.equal_iff_strip (entries others : Entries) :
    entries.equal others = true ↔
      entries.strip (fun _ => false) = others.strip fun _ => false := by
  cases entries <;> cases others <;>
    simp [Entries.equal, Entries.strip, Term.equal_iff_strip, Entries.equal_iff_strip, and_assoc]

end

namespace Term

/-- Replacing variables commutes with stripping. -/
theorem strip_bindVars (mark : Bool → Bool) (f : Nat → Int → Term) (t : Term) (depth : Nat) :
    (t.bindVars f depth).strip mark =
      (t.strip mark).bindVars (fun depth i => (f depth i).strip mark) depth := by
  induction t generalizing depth with
  | data name type ctrs type_ih ctrs_ih =>
      simp only [bindVars, strip, type_ih, Entries.bindVars_eq_map, Entries.strip_eq_map,
        Entries.map_map]
      exact congrArg (data "" _) (Entries.map_congr fun entry mem => ctrs_ih entry mem _)
  | caseOf type value name motive branches type_ih value_ih motive_ih branches_ih =>
      simp only [bindVars, strip, type_ih, value_ih, motive_ih, Entries.bindVars_eq_map,
        Entries.strip_eq_map, Entries.map_map]
      exact congrArg (caseOf _ _ "" _) (Entries.map_congr fun entry mem => branches_ih entry mem _)
  | _ => simp_all [bindVars, strip]

/-- Shifting commutes with stripping. -/
@[simp] theorem strip_shift (mark : Bool → Bool) (t : Term) (ar : Arith) (delta cutoff : Int) :
    (t.shift ar delta cutoff).strip mark = (t.strip mark).shift ar delta cutoff := by
  rw [shift, strip_bindVars, shift]
  congr 1
  funext depth i
  split <;> rfl

/-- Substitution commutes with stripping. -/
@[simp] theorem strip_subst (mark : Bool → Bool) (t : Term) (ar : Arith) (value : Term) (target : Int) :
    (t.subst ar value target).strip mark = (t.strip mark).subst ar (value.strip mark) target := by
  rw [subst, strip_bindVars, subst]
  congr 1
  funext depth i
  simp only
  split
  · simp
  · split <;> rfl

/-- Taking a spine apart commutes with stripping, with the arguments taken so far. -/
theorem strip_spineOnto (mark : Bool → Bool) (t : Term) (args : List (Bool × Term)) :
    (t.strip mark).spineOnto (args.map fun arg => (mark arg.1, arg.2.strip mark)) =
      ((t.spineOnto args).1.strip mark,
        (t.spineOnto args).2.map fun arg => (mark arg.1, arg.2.strip mark)) := by
  induction t generalizing args with
  | app erased fn arg fn_ih => exact fn_ih ((erased, arg) :: args)
  | _ => rfl

/-- Taking a spine apart commutes with stripping. -/
theorem strip_spine (mark : Bool → Bool) (t : Term) :
    (t.strip mark).spine =
      (t.spine.1.strip mark, t.spine.2.map fun arg => (mark arg.1, arg.2.strip mark)) :=
  strip_spineOnto mark t []

/-- Applying to arguments commutes with stripping. -/
theorem strip_apply (mark : Bool → Bool) (head : Term) (args : List (Bool × Term)) :
    (head.apply args).strip mark =
      (head.strip mark).apply (args.map fun arg => (mark arg.1, arg.2.strip mark)) := by
  induction args generalizing head with
  | nil => rfl
  | cons arg args ih => exact ih (.app arg.1 head arg.2)

end Term

/-- Entries have the same shape if they have the same labels in the same order, and terms of the
same shape. -/
theorem Entries.equal_iff_related : ∀ entries others : Entries,
    entries.equal others = true ↔ entries.Related (fun p q => p.equal q = true) others
  | .nil, .nil => by simp [Entries.equal, Entries.Related]
  | .nil, .cons .. => by simp [Entries.equal, Entries.Related, Entries.labels]
  | .cons .., .nil => by simp [Entries.equal, Entries.Related, Entries.labels]
  | .cons label term rest, .cons label' term' rest' => by
      have ih := Entries.equal_iff_related rest rest'
      simp only [Entries.equal, Entries.Related, Entries.labels, Entries.terms, Entries.toList,
        Bool.and_eq_true, beq_iff_eq, ih, List.map_cons, List.cons.injEq, List.forall₂_cons]
      tauto

/-- Having the same shape is the pullback of equality along `Term.bare`. -/
theorem Term.equal_equivalence : Equivalence fun a b : Term => a.equal b = true where
  refl a := (a.equal_iff_strip a).2 rfl
  symm {a b} same := (b.equal_iff_strip a).2 ((a.equal_iff_strip b).1 same).symm
  trans {a b c} first second :=
    (a.equal_iff_strip c).2 (((a.equal_iff_strip b).1 first).trans ((b.equal_iff_strip c).1 second))

/-- Shifting keeps the shape of terms of the same shape the same. -/
theorem Term.equal_shift_of_equal {a b : Term} (ar : Arith) (delta cutoff : Int)
    (same : a.equal b = true) :
    (a.shift ar delta cutoff).equal (b.shift ar delta cutoff) = true := by
  rw [Term.equal_iff_strip] at same ⊢
  rw [Term.strip_shift, Term.strip_shift, same]

/-- So does substituting terms of the same shape. -/
theorem Term.equal_subst_of_equal {a b v w : Term} (ar : Arith) (target : Int)
    (same : a.equal b = true) (values : v.equal w = true) :
    (a.subst ar v target).equal (b.subst ar w target) = true := by
  rw [Term.equal_iff_strip] at same values ⊢
  rw [Term.strip_subst, Term.strip_subst, same, values]

/-- Terms have the same shape exactly if they are the same without the names of bound variables and
the erasure marks. The names of references and constructors count, and the labels of entries in
their order. Hence having the same shape is an equivalence, which shifting and substitution
respect. -/
theorem equality_up_to_cosmetics :
    (∀ a b : Term, a.equal b = true ↔ a.bare = b.bare) ∧
    (∀ m n : String, (Term.ref m).equal (.ref n) = true ↔ m = n) ∧
    (∀ (m n : String) (a b : Term),
      (Term.ctr m a).equal (.ctr n b) = true ↔ m = n ∧ a.equal b = true) ∧
    (∀ (m n : String) (a b : Term) (ctrs ctrs' : Entries),
      (Term.data m a ctrs).equal (.data n b ctrs') = true ↔
        a.equal b = true ∧ ctrs.Related (fun p q => p.equal q = true) ctrs') ∧
    (∀ (m n : String) (a b v w p q : Term) (branches branches' : Entries),
      (Term.caseOf a v m p branches).equal (.caseOf b w n q branches') = true ↔
        a.equal b = true ∧ v.equal w = true ∧ p.equal q = true ∧
          branches.Related (fun p q => p.equal q = true) branches') ∧
    (Equivalence fun a b : Term => a.equal b = true) ∧
    (∀ (a b : Term) (delta cutoff : Int), a.equal b = true →
      (a.shift .word delta cutoff).equal (b.shift .word delta cutoff) = true) ∧
    (∀ (a b v w : Term) (target : Int), a.equal b = true → v.equal w = true →
      (a.subst .word v target).equal (b.subst .word w target) = true) := by
  refine ⟨Term.equal_iff_strip, ?_, ?_, ?_, ?_, Term.equal_equivalence, ?_, ?_⟩
  · simp [Term.equal]
  · simp [Term.equal]
  · simp [Term.equal, Entries.equal_iff_related]
  · simp [Term.equal, Entries.equal_iff_related, and_assoc]
  · exact fun a b delta cutoff same => Term.equal_shift_of_equal .word delta cutoff same
  · exact fun a b v w target same values => Term.equal_subst_of_equal .word target same values

/-- A pair in a renamed binder, with other marks, into which terms of the same shape are put. The
constructors of a data type are not to be exchanged. -/
theorem equality_up_to_cosmetics_renamed :
    ((Term.lam true "y" .hole (.pair true .univ (.var 0) (.lam false "z" .univ (.var 0)))).equal
      (.lam false "x" .hole (.pair false .univ (.var 0) (.lam true "" .univ (.var 0)))) = true) ∧
    (Term.data "B" .univ (.cons "t" (.var 0) (.cons "f" (.var 0) .nil))).equal
      (.data "B" .univ (.cons "f" (.var 0) (.cons "t" (.var 0) .nil))) = false := by
  refine ⟨equality_up_to_cosmetics.2.2.2.2.2.2.2
    (.lam true "y" .hole (.pair true .univ (.var 0) (.var 1)))
    (.lam false "x" .hole (.pair false .univ (.var 0) (.var 1)))
    (.lam false "z" .univ (.var 0)) (.lam true "" .univ (.var 0)) 0 (by decide) (by decide), ?_⟩
  rw [← Bool.not_eq_true, equality_up_to_cosmetics.2.2.2.1]
  rintro ⟨-, labels, -⟩
  exact absurd labels (by decide)

/-- The right-hand side of a rule without cosmetics. -/
def Contractum.strip (mark : Bool → Bool) : Contractum → Contractum
  | plain t => plain (t.strip mark)
  | under _ value body => under "" (value.strip mark) (body.strip mark)

/-- The term of a stripped contractum is the stripped term. -/
theorem Contractum.term_strip (mark : Bool → Bool) (c : Contractum) :
    (c.strip mark).term = c.term.strip mark := by
  cases c <;> rfl

/-- The rules do not look at cosmetics. -/
theorem Term.contract?_strip (mark : Bool → Bool) (ar : Arith) (t : Term) :
    (t.strip mark).contract? ar .empty = (t.contract? ar .empty).map (Contractum.strip mark) := by
  cases t with
  | app erased fn arg => cases fn <;> simp [Term.contract?, Term.strip, Contractum.strip]
  | split erased scrutinee name motive fstName sndName body =>
      cases scrutinee <;> simp [Term.contract?, Term.strip, Contractum.strip]
  | dup name value body => cases value <;> simp [Term.contract?, Term.strip, Contractum.strip]
  | caseOf type value name motive branches =>
      simp only [Term.contract?, Term.strip, Term.strip_spine]
      generalize value.spine = spine
      obtain ⟨head, args⟩ := spine
      cases head with
      | ctr label type =>
          simp [Term.strip, Entries.strip_eq_map, Entries.find?_map, Contractum.strip,
            Term.strip_apply, Function.comp_def]
      | dup outer boxed inner =>
          cases args with
          | nil =>
              simp [Term.strip, Entries.strip_eq_map, Contractum.strip, Function.comp_def]
          | cons arg args => simp [Term.strip]
      | _ => simp [Term.strip]
  | _ => rfl

/-- Stripped entries are related if their stripped terms are. -/
theorem Entries.Related.strip {S : Term → Term → Prop} {mark : Bool → Bool}
    {entries others : Entries}
    (related : entries.Related (fun p q => S (p.strip mark) (q.strip mark)) others) :
    (entries.strip mark).Related S (others.strip mark) := by
  rw [Entries.strip_eq_map, Entries.strip_eq_map]
  exact related.map id

/-- Terms that differ in their parts do so without cosmetics. -/
theorem Parted.strip {S : Term → Term → Prop} {mark : Bool → Bool} {t u : Term}
    (parted : Parted (fun p q => S (p.strip mark) (q.strip mark)) t u) :
    Parted S (t.strip mark) (u.strip mark) := by
  cases t with
  | pi =>
      obtain ⟨a, b, ra, rb, rfl⟩ := Parted.pi_iff.1 parted
      exact Parted.pi_iff.2 ⟨_, _, ra, rb, rfl⟩
  | lam =>
      obtain ⟨a, b, ra, rb, rfl⟩ := Parted.lam_iff.1 parted
      exact Parted.lam_iff.2 ⟨_, _, ra, rb, rfl⟩
  | app =>
      obtain ⟨a, b, ra, rb, rfl⟩ := Parted.app_iff.1 parted
      exact Parted.app_iff.2 ⟨_, _, ra, rb, rfl⟩
  | sigma =>
      obtain ⟨a, b, ra, rb, rfl⟩ := Parted.sigma_iff.1 parted
      exact Parted.sigma_iff.2 ⟨_, _, ra, rb, rfl⟩
  | pair =>
      obtain ⟨a, b, c, ra, rb, rc, rfl⟩ := Parted.pair_iff.1 parted
      exact Parted.pair_iff.2 ⟨_, _, _, ra, rb, rc, rfl⟩
  | split =>
      obtain ⟨a, b, c, ra, rb, rc, rfl⟩ := Parted.split_iff.1 parted
      exact Parted.split_iff.2 ⟨_, _, _, ra, rb, rc, rfl⟩
  | data =>
      obtain ⟨a, entries, ra, each, rfl⟩ := Parted.data_iff.1 parted
      exact Parted.data_iff.2 ⟨_, _, ra, each.strip, rfl⟩
  | ctr =>
      obtain ⟨a, ra, rfl⟩ := Parted.ctr_iff.1 parted
      exact Parted.ctr_iff.2 ⟨_, ra, rfl⟩
  | caseOf =>
      obtain ⟨a, b, c, entries, ra, rb, rc, each, rfl⟩ := Parted.caseOf_iff.1 parted
      exact Parted.caseOf_iff.2 ⟨_, _, _, _, ra, rb, rc, each.strip, rfl⟩
  | dup =>
      obtain ⟨a, b, ra, rb, rfl⟩ := Parted.dup_iff.1 parted
      exact Parted.dup_iff.2 ⟨_, _, ra, rb, rfl⟩
  | box =>
      obtain ⟨a, ra, rfl⟩ := Parted.box_iff.1 parted
      exact Parted.box_iff.2 ⟨_, ra, rfl⟩
  | boxType =>
      obtain ⟨a, ra, rfl⟩ := Parted.boxType_iff.1 parted
      exact Parted.boxType_iff.2 ⟨_, ra, rfl⟩
  | _ =>
      rw [Parted.leaf_iff rfl] at parted
      subst parted
      exact (Parted.leaf_iff rfl).2 rfl

/-- The parts of a stripped term are the stripped parts. -/
theorem Term.parts_strip (mark : Bool → Bool) (t : Term) :
    (t.strip mark).parts = t.parts.map fun part => (part.1, part.2.strip mark) := by
  cases t <;> simp [Term.strip, Term.parts, Entries.strip_eq_map, Function.comp_def]

/-- A step is one of the stripped terms. -/
theorem Step.strip {ar : Arith} {t u : Term} (mark : Bool → Bool) (step : Step ar .empty t u) :
    Steps ar .empty (t.strip mark) (u.strip mark) := by
  induction t using Term.byParts generalizing u with
  | step t ih =>
      rcases step.root_or_parts with ⟨c, found, rfl⟩ | parts
      · refine .single (.root _ _ ⟨c.strip mark, ?_, c.term_strip mark⟩)
        rw [Term.contract?_strip, found]
        rfl
      · refine parts_steps (Parted.strip (parts.imp fun part mem p step => ?_))
        cases step with
        | refl => exact .refl
        | single step => exact ih part mem step

/-- What a rewriting does it does without cosmetics too. -/
theorem Steps.strip {ar : Arith} {t u : Term} (mark : Bool → Bool) (steps : Steps ar .empty t u) :
    Steps ar .empty (t.strip mark) (u.strip mark) := by
  induction steps with
  | refl => exact .refl
  | tail _ step ih => exact ih.trans (Step.strip mark step)

/-- A normal term stays normal when it is stripped. -/
theorem Normal.strip {ar : Arith} {t : Term} (mark : Bool → Bool) (normal : Normal ar .empty t) :
    Normal ar .empty (t.strip mark) := by
  induction t using Term.byParts with
  | step t ih =>
      obtain ⟨none, parts⟩ := normal_iff.1 normal
      refine normal_iff.2 ⟨by rw [Term.contract?_strip, none]; rfl, fun part mem => ?_⟩
      rw [Term.parts_strip] at mem
      obtain ⟨part, inside, rfl⟩ := List.mem_map.1 mem
      exact ih part inside (parts part inside)

/-- Putting parts in place commutes with stripping. -/
theorem Term.strip_withParts (mark : Bool → Bool) {t : Term} {ps : List Term}
    (same : ps.length = t.parts.length) :
    (t.withParts ps).strip mark = (t.strip mark).withParts (ps.map (Term.strip mark)) := by
  have parted : Parted (fun _ _ => True) t (t.withParts ps) :=
    ⟨ps, List.forall₂_iff_zip.2 ⟨same.symm, fun _ => trivial⟩, rfl⟩
  have stripped : Parted (fun _ _ => True) (t.strip mark) ((t.withParts ps).strip mark) := parted.strip
  have terms := congrArg (List.map (Term.strip mark)) (Term.terms_withParts same)
  rw [List.map_map] at terms
  rw [stripped.eq_withParts, Term.parts_strip, List.map_map, ← terms]
  rfl

/-- The jobs before the rules are those of the term, stripped. -/
theorem Term.early_strip (mark : Bool → Bool) (t : Term) :
    (t.strip mark).early = t.early.map fun job => (job.1, job.2.strip mark) := by
  cases t <;> simp [Term.early, Term.strip, Term.parts, Entries.strip_eq_map, Function.comp_def]

/-- The jobs after the rules are those of the term, stripped. -/
theorem Term.late_strip (mark : Bool → Bool) (t : Term) :
    (t.strip mark).late = t.late.map fun job => (job.1, job.2.strip mark) := by
  cases t <;> rfl

/-- What is left to reduce in a stripped contractum is stripped. -/
theorem Contractum.inner_strip (mark : Bool → Bool) (c : Contractum) :
    (c.strip mark).inner = c.inner.strip mark := by
  cases c <;> rfl

/-- What stands around it is stripped as well. -/
theorem Contractum.around_strip (mark : Bool → Bool) (c : Contractum) (t : Term) :
    (c.strip mark).around (t.strip mark) = (c.around t).strip mark := by
  cases c <;> rfl

/-- The reducer does not look at cosmetics. -/
theorem Run.strip {ar : Arith} {jobs : List (Bool × Term)} {m m' : Meter} {us : List Term}
    (mark : Bool → Bool) (run : Run ar .empty jobs m us m') :
    Run ar .empty (jobs.map fun job => (job.1, job.2.strip mark)) m (us.map (Term.strip mark)) m' := by
  have rebuilt : ∀ {t : Term} {ps qs : List Term}, ps.length = t.early.length →
      qs.length = t.late.length → (t.withParts (ps ++ qs)).strip mark =
        (t.strip mark).withParts (ps.map (Term.strip mark) ++ qs.map (Term.strip mark)) := by
    intro t ps qs early late
    rw [← List.map_append]
    exact Term.strip_withParts mark (Term.length_jobs early late)
  have looked : ∀ {t : Term} {ps : List Term}, ps.length = t.early.length →
      ((t.strip mark).withParts (ps.map (Term.strip mark) ++ (t.strip mark).late.map Prod.snd)).contract?
        ar .empty = ((t.withParts (ps ++ t.late.map Prod.snd)).contract? ar .empty).map
          (Contractum.strip mark) := by
    intro t ps early
    rw [← Term.contract?_strip, rebuilt early (by simp), Term.late_strip, List.map_map, List.map_map]
    rfl
  induction run with
  | nil m => exact .nil m
  | cons job jobs m u m₁ us m₂ _ _ ih ih' => exact .cons _ _ _ _ _ _ _ ih ih'
  | need t m u m₁ _ ih =>
      refine .need _ _ _ _ ?_
      rwa [Meter.need, Term.isHole_strip]
  | stay t m ps m₁ qs m₂ early none late ih ih' =>
      simp only [List.map_cons, List.map_nil]
      rw [rebuilt early.length_eq late.length_eq]
      rw [← Term.early_strip] at ih
      rw [← Term.late_strip] at ih'
      exact .stay _ _ _ _ _ _ ih (by rw [looked early.length_eq, none]; rfl) ih'
  | refused t m ps m₁ c m₂ qs m₃ early some fire late ih ih' =>
      simp only [List.map_cons, List.map_nil]
      rw [rebuilt early.length_eq late.length_eq]
      rw [← Term.early_strip] at ih
      rw [← Term.late_strip] at ih'
      exact .refused _ _ _ _ _ _ _ _ ih (by rw [looked early.length_eq, some]; rfl) fire ih'
  | fired t m ps m₁ c m₂ u m₃ early some fire _ ih ih' =>
      simp only [List.map_cons, List.map_nil, ← c.around_strip]
      rw [← Term.early_strip] at ih
      simp only [List.map_cons, List.map_nil, ← c.inner_strip] at ih'
      exact .fired _ _ _ _ _ _ _ _ ih (by rw [looked early.length_eq, some]; rfl) fire ih'

end BoxCalculus
