import BoxCalculus.Term.Variables
import Mathlib.Data.List.Forall2

/-!
# Terms by their parts

A term is a head and a list of parts. `Term.parts` lists them and `Term.withParts` puts others in
their place, so a statement about all forms of terms can speak of the parts once. `Term.byParts` is
the induction that goes with this view, and `Term.bindVars_eq_withParts` says that a traversal of the
variables acts on each part by itself.

`Parted R t u` says that `u` is `t` with each part replaced by one that `R` relates to it.
-/

namespace BoxCalculus

/-- The entries with other terms under the same labels. -/
def Entries.withTerms : Entries → List Term → Entries
  | .cons label _ rest, term :: terms => .cons label term (rest.withTerms terms)
  | _, _ => .nil

/-- The term with other parts. There have to be as many as it has. -/
def Term.withParts : Term → List Term → Term
  | .pi erased name _ _, [dom, cod] => .pi erased name dom cod
  | .lam erased name _ _, [dom, body] => .lam erased name dom body
  | .app erased _ _, [fn, arg] => .app erased fn arg
  | .sigma erased name _ _, [fst, snd] => .sigma erased name fst snd
  | .pair erased _ _ _, [type, fst, snd] => .pair erased type fst snd
  | .split erased _ name _ fstName sndName _, [scrutinee, motive, body] =>
      .split erased scrutinee name motive fstName sndName body
  | .data name _ ctrs, terms => .data name (terms.getLastD .hole) (ctrs.withTerms terms)
  | .ctr name _, [type] => .ctr name type
  | .caseOf _ _ name _ branches, type :: value :: motive :: terms =>
      .caseOf type value name motive (branches.withTerms terms)
  | .dup name _ _, [value, body] => .dup name value body
  | .box _, [value] => .box value
  | .boxType _, [type] => .boxType type
  | t, _ => t

section Replacing

variable (erased : Bool) (name fstName sndName : String) (a b c a' b' c' : Term) (es : Entries)
  (ps : List Term)

/-- A reference has no parts to replace. -/
@[simp] theorem Term.withParts_ref : (Term.ref name).withParts ps = .ref name := rfl

/-- The parts of an application are the function and the argument. -/
@[simp] theorem Term.withParts_app : (Term.app erased a b).withParts [a', b'] = .app erased a' b' := rfl

/-- The parts of a split are the scrutinee, the motive and the body. -/
@[simp] theorem Term.withParts_split : (Term.split erased a name b fstName sndName c).withParts
    [a', b', c'] = .split erased a' name b' fstName sndName c' := rfl

/-- The parts of a declaration are its constructors, and its type as the last one. -/
@[simp] theorem Term.withParts_data : (Term.data name a es).withParts ps =
    .data name (ps.getLastD .hole) (es.withTerms ps) := rfl

/-- The parts of a case analysis are the declaration, the scrutinee, the motive and the branches. -/
@[simp] theorem Term.withParts_caseOf : (Term.caseOf a b name c es).withParts
    (a' :: b' :: c' :: ps) = .caseOf a' b' name c' (es.withTerms ps) := rfl

/-- The parts of a duplication are the value and the body. -/
@[simp] theorem Term.withParts_dup : (Term.dup name a b).withParts [a', b'] = .dup name a' b' := rfl

end Replacing

namespace Entries

/-- The terms in order. -/
def terms (entries : Entries) : List Term :=
  entries.toList.map Prod.snd

/-- No entries have no terms. -/
@[simp] theorem terms_nil : nil.terms = [] := rfl

/-- The first term is that of the first entry. -/
@[simp] theorem terms_cons (label : String) (term : Term) (rest : Entries) :
    (cons label term rest).terms = term :: rest.terms := rfl

/-- There are as many terms as entries. -/
@[simp] theorem length_terms (entries : Entries) : entries.terms.length = entries.length := by
  simp [terms]

/-- The terms of entries, and whatever comes after them, give the entries back. -/
@[simp] theorem withTerms_terms_append : ∀ (entries : Entries) (more : List Term),
    entries.withTerms (entries.terms ++ more) = entries
  | nil, _ => rfl
  | cons label term rest, more => by simp [withTerms, withTerms_terms_append rest more]

/-- The terms of entries give the entries back. -/
@[simp] theorem withTerms_terms (entries : Entries) : entries.withTerms entries.terms = entries := by
  simpa using withTerms_terms_append entries []

/-- Only as many terms are used as there are entries. -/
theorem withTerms_append : ∀ {entries : Entries} {terms : List Term} (more : List Term),
    terms.length = entries.length → entries.withTerms (terms ++ more) = entries.withTerms terms
  | nil, [], _, _ => by simp [withTerms]
  | cons label term rest, new :: terms, more, same => by
      have shorter : terms.length = rest.length := by simpa [length] using same
      simp [withTerms, withTerms_append more shorter]

/-- The terms that are put in place are those of the entries. -/
@[simp] theorem terms_withTerms : ∀ {entries : Entries} {terms : List Term},
    terms.length = entries.length → (entries.withTerms terms).terms = terms
  | nil, [], _ => rfl
  | cons label term rest, new :: terms, same => by
      have shorter : terms.length = rest.length := by simpa [length] using same
      simp [withTerms, terms_withTerms shorter]

/-- Putting terms in place keeps the labels. -/
@[simp] theorem labels_withTerms : ∀ {entries : Entries} {terms : List Term},
    terms.length = entries.length → (entries.withTerms terms).labels = entries.labels
  | nil, [], _ => rfl
  | cons label term rest, new :: terms, same => by
      have shorter : terms.length = rest.length := by simpa [length] using same
      simp [withTerms, labels, labels_withTerms shorter]

/-- Terms that are put in place can be replaced again. -/
@[simp] theorem withTerms_withTerms : ∀ {entries : Entries} {terms : List Term}
    (others : List Term), terms.length = entries.length →
      (entries.withTerms terms).withTerms others = entries.withTerms others
  | nil, [], _, _ => by simp [withTerms]
  | cons label term rest, new :: terms, others, same => by
      have shorter : terms.length = rest.length := by simpa [length] using same
      cases others with
      | nil => simp [withTerms]
      | cons other others => simp [withTerms, withTerms_withTerms others shorter]

/-- Mapping entries puts the mapped terms in place. -/
theorem map_eq_withTerms (f : Term → Term) : ∀ entries : Entries,
    entries.map f = entries.withTerms (entries.terms.map f)
  | nil => rfl
  | cons label term rest => by simp [map, withTerms, map_eq_withTerms f rest]

/-- The terms of mapped entries are the mapped terms. -/
@[simp] theorem terms_map (f : Term → Term) (entries : Entries) :
    (entries.map f).terms = entries.terms.map f := by
  simp [terms]

/-- Mapping entries keeps the labels. -/
@[simp] theorem labels_map (f : Term → Term) : ∀ entries : Entries,
    (entries.map f).labels = entries.labels
  | nil => rfl
  | cons label term rest => by simp [map, labels, labels_map f rest]

/-- The entry that is found is one of the entries. -/
theorem mem_of_find? {label : String} {term : Term} : ∀ {entries : Entries},
    entries.find? label = some term → (label, term) ∈ entries.toList
  | nil, found => by cases found
  | cons other first rest, found => by
      rw [find?] at found
      split at found
      · cases found
        subst label
        exact List.mem_cons_self
      · exact List.mem_cons_of_mem _ (mem_of_find? found)

/-- Entries are their labels and their terms. -/
theorem ext_labels_terms : ∀ {entries others : Entries}, entries.labels = others.labels →
    entries.terms = others.terms → entries = others
  | nil, nil, _, _ => rfl
  | cons label term rest, cons label' term' rest', labels, terms => by
      simp only [Entries.labels, List.cons.injEq] at labels
      simp only [terms_cons, List.cons.injEq] at terms
      rw [labels.1, terms.1, ext_labels_terms labels.2 terms.2]

end Entries

namespace Term

/-- Induction on terms, where the hypothesis speaks of each part. -/
@[elab_as_elim]
theorem byParts {P : Term → Prop} (step : ∀ t, (∀ part ∈ t.parts, P part.2) → P t) (t : Term) :
    P t := by
  induction t with
  | data name type ctrs ht hc =>
      refine step _ fun part member => ?_
      simp only [parts, List.mem_append, List.mem_map, List.mem_singleton] at member
      obtain ⟨entry, inside, rfl⟩ | rfl := member
      · exact hc entry inside
      · exact ht
  | caseOf type value name motive branches ht hv hm hb =>
      refine step _ fun part member => ?_
      simp only [parts, List.mem_append, List.mem_map, List.mem_cons, List.not_mem_nil,
        or_false] at member
      obtain (rfl | rfl | rfl) | ⟨entry, inside, rfl⟩ := member
      · exact ht
      · exact hv
      · exact hm
      · exact hb entry inside
  | hole | var | univ | ref => exact step _ fun _ none => absurd none List.not_mem_nil
  | ctr _ _ ha | box _ ha | boxType _ ha => exact step _ (List.forall_mem_singleton.2 ha)
  | pi _ _ _ _ ha hb | lam _ _ _ _ ha hb | app _ _ _ ha hb | sigma _ _ _ _ ha hb
  | dup _ _ _ ha hb =>
      exact step _ (List.forall_mem_cons.2 ⟨ha, List.forall_mem_singleton.2 hb⟩)
  | pair _ _ _ _ ha hb hc | split _ _ _ _ _ _ _ ha hb hc =>
      exact step _ (List.forall_mem_cons.2 ⟨ha, List.forall_mem_cons.2
        ⟨hb, List.forall_mem_singleton.2 hc⟩⟩)

/-- The parts of a declaration: the types of its constructors, and then its own type. -/
theorem parts_data (name : String) (type : Term) (ctrs : Entries) :
    (data name type ctrs).parts = ctrs.terms.map (fun term => (1, term)) ++ [(0, type)] := by
  simp [parts, Entries.terms]

/-- The parts of a case analysis: its type, scrutinee and motive, and then its branches. -/
theorem parts_caseOf (type value : Term) (name : String) (motive : Term) (branches : Entries) :
    (caseOf type value name motive branches).parts =
      (0, type) :: (0, value) :: (1, motive) :: branches.terms.map fun term => (0, term) := by
  simp [parts, Entries.terms]

/-- The branches of a case analysis are parts of it. -/
theorem mem_parts_branch {type value motive : Term} {name : String} {branches : Entries}
    {entry : String × Term} (mem : entry ∈ branches.toList) :
    (0, entry.2) ∈ (caseOf type value name motive branches).parts := by
  rw [parts_caseOf]
  exact .tail _ (.tail _ (.tail _ (List.mem_map_of_mem (List.mem_map_of_mem mem))))

/-- As many terms as a declaration has parts: one for each constructor, and a last one. -/
theorem exists_data_parts {name : String} {type : Term} {ctrs : Entries} {ps : List Term}
    (same : ps.length = (data name type ctrs).parts.length) :
    ∃ terms last, terms.length = ctrs.length ∧ ps = terms ++ [last] := by
  rw [parts_data, List.length_append, List.length_map, Entries.length_terms] at same
  have nonempty : ps ≠ [] := by
    rintro rfl
    simp at same
  refine ⟨ps.dropLast, ps.getLast nonempty, ?_, (List.dropLast_append_getLast nonempty).symm⟩
  simp only [List.length_dropLast, same, List.length_singleton]
  omega

/-- Pairing the terms of some entries with one number each. -/
theorem zip_binders (n : Nat) : ∀ {olds news : List Term}, news.length = olds.length →
    ((olds.map fun term => (n, term)).map Prod.fst).zip news = news.map fun term => (n, term)
  | [], [], _ => rfl
  | old :: olds, new :: news, same => by
      have shorter : news.length = olds.length := by simpa using same
      simpa using zip_binders n shorter

/-- After other parts have been put in their place, these are the parts of the term. -/
theorem parts_withParts {t : Term} {ps : List Term} (same : ps.length = t.parts.length) :
    (t.withParts ps).parts = (t.parts.map Prod.fst).zip ps := by
  cases t with
  | data name type ctrs =>
      obtain ⟨terms, last, count, rfl⟩ := exists_data_parts same
      rw [withParts_data, parts_data, parts_data, Entries.withTerms_append _ count,
        Entries.terms_withTerms count, List.map_append,
        List.zip_append (by simpa using count.symm), zip_binders 1 (by simpa using count)]
      simp
  | caseOf type value name motive branches =>
      rw [parts_caseOf] at same ⊢
      match ps, same with
      | type :: value :: motive :: terms, same =>
          have count : terms.length = branches.terms.length := by simpa using same
          simp only [withParts_caseOf, parts_caseOf, List.map_cons, List.zip_cons_cons,
            zip_binders 0 count]
          rw [Entries.terms_withTerms (by simpa using count)]
  | hole | var | univ | ref => rfl
  | ctr | box | boxType =>
      obtain ⟨a, rfl⟩ := List.length_eq_one_iff.1 same
      rfl
  | pi | lam | app | sigma | dup =>
      obtain ⟨a, b, rfl⟩ := List.length_eq_two.1 same
      rfl
  | pair | split =>
      obtain ⟨a, b, c, rfl⟩ := List.length_eq_three.1 same
      rfl

/-- The parts that were put in place, without their binders. -/
theorem terms_withParts {t : Term} {ps : List Term} (same : ps.length = t.parts.length) :
    (t.withParts ps).parts.map Prod.snd = ps := by
  rw [parts_withParts same, List.map_snd_zip (by simp [same])]

/-- A function of the parts that are put in place is one of the parts of the term. -/
theorem map_parts_withParts {t : Term} {ps : List Term} (same : ps.length = t.parts.length)
    (f : Term → α) : ((t.withParts ps).parts.map fun part => f part.2) = ps.map f := by
  conv_rhs => rw [← terms_withParts same, List.map_map]
  rfl

/-- Of two replacements of the parts only the last one counts. -/
theorem withParts_withParts {t : Term} {ps : List Term} (qs : List Term)
    (same : ps.length = t.parts.length) (same' : qs.length = t.parts.length) :
    (t.withParts ps).withParts qs = t.withParts qs := by
  cases t with
  | data name type ctrs =>
      obtain ⟨terms, last, count, rfl⟩ := exists_data_parts same
      rw [withParts_data, withParts_data, withParts_data, Entries.withTerms_append _ count,
        Entries.withTerms_withTerms _ count]
  | caseOf type value name motive branches =>
      rw [parts_caseOf] at same same'
      match ps, qs, same, same' with
      | type :: value :: motive :: terms, type' :: value' :: motive' :: terms', same, _ =>
          have count : terms.length = branches.length := by simpa using same
          rw [withParts_caseOf, withParts_caseOf, withParts_caseOf,
            Entries.withTerms_withTerms _ count]
  | hole | var | univ | ref => rfl
  | ctr | box | boxType =>
      obtain ⟨a, rfl⟩ := List.length_eq_one_iff.1 same
      obtain ⟨b, rfl⟩ := List.length_eq_one_iff.1 same'
      rfl
  | pi | lam | app | sigma | dup =>
      obtain ⟨a, b, rfl⟩ := List.length_eq_two.1 same
      obtain ⟨c, d, rfl⟩ := List.length_eq_two.1 same'
      rfl
  | pair | split =>
      obtain ⟨a, b, c, rfl⟩ := List.length_eq_three.1 same
      obtain ⟨d, e, f, rfl⟩ := List.length_eq_three.1 same'
      rfl

/-- The parts of a term give the term back. -/
@[simp] theorem withParts_parts (t : Term) : t.withParts (t.parts.map Prod.snd) = t := by
  cases t with
  | data name type ctrs =>
      have terms : (ctrs.toList.map fun entry => ((1 : Nat), entry.2)).map Prod.snd = ctrs.terms := by
        simp [Entries.terms]
      simp [parts, terms]
  | caseOf type value name motive branches =>
      have terms : (branches.toList.map fun entry => ((0 : Nat), entry.2)).map Prod.snd =
          branches.terms := by
        simp [Entries.terms]
      simp [parts, terms]
  | _ => rfl

/-- Putting parts in place fills no gap. -/
theorem isHole_withParts (t : Term) (ps : List Term) : (t.withParts ps).isHole = t.isHole := by
  unfold withParts
  split <;> rfl

/-- Putting parts in place makes no variable. -/
theorem withParts_ne_var {t : Term} (compound : ∀ i, t ≠ var i) (ps : List Term) (i : Int) :
    t.withParts ps ≠ var i := by
  unfold withParts
  split <;> simp_all

/-- A traversal of the variables acts on the parts of a term, under their binders. -/
theorem bindVars_eq_withParts (f : Nat → Int → Term) (depth : Nat) {t : Term}
    (compound : ∀ i, t ≠ var i) :
    t.bindVars f depth = t.withParts (t.parts.map fun part => part.2.bindVars f (depth + part.1)) := by
  cases t with
  | var i => exact absurd rfl (compound i)
  | data name type ctrs =>
      have count : (ctrs.terms.map (bindVars f (depth + 1))).length = ctrs.length := by simp
      simp only [bindVars, Entries.bindVars_eq_map, Entries.map_eq_withTerms, parts_data,
        List.map_append, List.map_map, Function.comp_def, List.map_cons, List.map_nil,
        withParts_data, Entries.withTerms_append _ count, List.getLastD_concat, Nat.add_zero]
  | caseOf type value name motive branches =>
      simp only [bindVars, Entries.bindVars_eq_map, Entries.map_eq_withTerms, parts_caseOf,
        List.map_cons, List.map_map, Function.comp_def, withParts_caseOf, Nat.add_zero]
  | _ => rfl

/-- The parts of a term after a traversal of its variables. -/
theorem parts_bindVars (f : Nat → Int → Term) (depth : Nat) {t : Term} (compound : ∀ i, t ≠ var i) :
    (t.bindVars f depth).parts =
      t.parts.map fun part => (part.1, part.2.bindVars f (depth + part.1)) := by
  rw [bindVars_eq_withParts f depth compound, parts_withParts (by simp), List.zip_map']

/-- A question about all variables is one about the variables of each part. -/
theorem allVars_eq_all (p : Nat → Int → Bool) (depth : Nat) {t : Term} (compound : ∀ i, t ≠ var i) :
    t.allVars p depth = t.parts.all fun part => part.2.allVars p (depth + part.1) := by
  cases t with
  | var i => exact absurd rfl (compound i)
  | data name type ctrs =>
      simp [allVars, Entries.allVars_eq_all, parts, Function.comp_def, Bool.and_comm]
  | caseOf type value name motive branches =>
      simp [allVars, Entries.allVars_eq_all, parts, Function.comp_def, Bool.and_assoc]
  | _ => simp [allVars, parts, Bool.and_assoc]

/-- A traversal that fixes the variables of which a question holds fixes each term in which it holds
of all of them. -/
theorem bindVars_of_allVars {f : Nat → Int → Term} {p : Nat → Int → Bool}
    (fixed : ∀ k i, p k i = true → f k i = var i) {depth : Nat} {t : Term}
    (all : t.allVars p depth = true) : t.bindVars f depth = t := by
  induction t using byParts generalizing depth with
  | step t ih =>
      by_cases isVar : ∃ i, t = var i
      · obtain ⟨i, rfl⟩ := isVar
        exact fixed depth i all
      · rw [not_exists] at isVar
        rw [allVars_eq_all p depth isVar, List.all_eq_true] at all
        rw [bindVars_eq_withParts f depth isVar]
        conv_rhs => rw [← withParts_parts t]
        refine congrArg t.withParts (List.map_congr_left fun part member => ?_)
        exact ih part member (all part member)

/-- Traversals that agree on each variable agree, whatever depth they start to count from. -/
theorem bindVars_congr {f g : Nat → Int → Term} {d e : Nat}
    (agree : ∀ k i, f (d + k) i = g (e + k) i) (t : Term) : t.bindVars f d = t.bindVars g e := by
  induction t using byParts generalizing d e with
  | step t ih =>
      by_cases isVar : ∃ i, t = var i
      · obtain ⟨i, rfl⟩ := isVar
        exact agree 0 i
      · rw [not_exists] at isVar
        rw [bindVars_eq_withParts f d isVar, bindVars_eq_withParts g e isVar]
        refine congrArg t.withParts (List.map_congr_left fun part member => ih part member ?_)
        intro k i
        simpa [Nat.add_assoc] using agree (part.1 + k) i

end Term

/-- Related terms stay related when they are given the numbers of the parts they belong to. -/
theorem forall_zip_binders {Q : α × Term → Term → Prop} {parts : List (α × Term)}
    {ps : List Term} (each : List.Forall₂ Q parts ps) :
    List.Forall₂ (fun part part' => part.1 = part'.1 ∧ Q part part'.2) parts
      ((parts.map Prod.fst).zip ps) := by
  induction each with
  | nil => exact .nil
  | cons related _ ih => exact .cons ⟨rfl, related⟩ ih

/-- `Entries.Related R es es'` says that the entries have the same labels, and terms that `R`
relates. -/
def Entries.Related (R : Term → Term → Prop) (entries others : Entries) : Prop :=
  entries.labels = others.labels ∧ List.Forall₂ R entries.terms others.terms

/-- Related entries come about by putting the terms of the ones under the labels of the others. -/
theorem Entries.Related.withTerms {R : Term → Term → Prop} {entries others : Entries}
    (related : entries.Related R others) : entries.withTerms others.terms = others := by
  have count : others.terms.length = entries.length := by
    rw [← related.2.length_eq, Entries.length_terms]
  apply Entries.ext_labels_terms
  · rw [Entries.labels_withTerms count, related.1]
  · rw [Entries.terms_withTerms count]

/-- Related entries, from the terms alone. -/
theorem Entries.related_withTerms {R : Term → Term → Prop} {entries : Entries} {terms : List Term}
    (each : List.Forall₂ R entries.terms terms) : entries.Related R (entries.withTerms terms) := by
  have count : terms.length = entries.length := by rw [← each.length_eq, Entries.length_terms]
  refine ⟨(Entries.labels_withTerms count).symm, ?_⟩
  rwa [Entries.terms_withTerms count]

/-- Mapping keeps entries related if it keeps their terms so. -/
theorem Entries.Related.map {R S : Term → Term → Prop} {f : Term → Term} {entries others : Entries}
    (related : entries.Related R others) (each : ∀ {p q}, R p q → S (f p) (f q)) :
    (entries.map f).Related S (others.map f) := by
  refine ⟨by simpa using related.1, ?_⟩
  rw [Entries.terms_map, Entries.terms_map, List.forall₂_map_left_iff, List.forall₂_map_right_iff]
  exact related.2.imp fun _ _ => each

/-- The terms of related entries under the same label are related. -/
theorem Entries.Related.find? {R : Term → Term → Prop} {wanted : String} {term : Term} :
    ∀ {entries others : Entries}, entries.Related R others →
      entries.find? wanted = some term → ∃ term', others.find? wanted = some term' ∧ R term term'
  | .nil, _, _, found => by simp [Entries.find?] at found
  | .cons label first rest, .nil, related, _ => by simp [Entries.Related, Entries.labels] at related
  | .cons label first rest, .cons label' first' rest', related, found => by
      obtain ⟨labels, terms⟩ := related
      simp only [Entries.labels, List.cons.injEq] at labels
      simp only [Entries.terms_cons, List.forall₂_cons] at terms
      obtain ⟨rfl, labels⟩ := labels
      simp only [Entries.find?] at found ⊢
      split at found
      · obtain rfl := Option.some.inj found
        exact ⟨first', by simp_all, terms.1⟩
      · rename_i differ
        simpa [differ] using Entries.Related.find? ⟨labels, terms.2⟩ found

/-- A condition carries over to the related members of another list. -/
theorem forall_mem_of_forall₂ {α β : Type} {R : α → β → Prop} {P : α → Prop} {Q : β → Prop}
    {xs : List α} {ys : List β} (each : List.Forall₂ R xs ys) (all : ∀ x ∈ xs, P x)
    (keeps : ∀ x y, R x y → P x → Q y) : ∀ y ∈ ys, Q y := by
  induction each with
  | nil => simp
  | cons related _ ih =>
      rw [List.forall_mem_cons] at all ⊢
      exact ⟨keeps _ _ related all.1, ih all.2⟩

/-- `Parted R t u` says that `u` is `t` with each part replaced by one that `R` relates to it. -/
def Parted (R : Term → Term → Prop) (t u : Term) : Prop :=
  ∃ ps, List.Forall₂ (fun part p => R part.2 p) t.parts ps ∧ u = t.withParts ps

namespace Parted

variable {R S : Term → Term → Prop} {t u : Term}

/-- A term is related to itself by its parts if each of them is. -/
theorem of_refl (refl : ∀ part ∈ t.parts, R part.2 part.2) : Parted R t t := by
  refine ⟨t.parts.map Prod.snd, ?_, t.withParts_parts.symm⟩
  rw [List.forall₂_map_right_iff, List.forall₂_same]
  exact refl

/-- Parts that are related are related by a weaker relation. -/
theorem imp (weaker : ∀ part ∈ t.parts, ∀ p, R part.2 p → S part.2 p) (parted : Parted R t u) :
    Parted S t u := by
  obtain ⟨ps, each, rfl⟩ := parted
  have inside := (List.forall₂_and_left t.parts ps).2 ⟨fun _ member => member, each⟩
  exact ⟨ps, inside.imp fun part p h => weaker part h.1 p h.2, rfl⟩

variable {erased : Bool} {name fstName sndName : String} {a b c : Term} {entries : Entries}

/-- A term without parts is related to itself only. -/
theorem leaf_iff (leaf : t.parts = []) : Parted R t u ↔ u = t := by
  have same : t.withParts [] = t := by simpa [leaf] using t.withParts_parts
  simp [Parted, leaf, same]

/-- Terms with one part are related if it is. -/
theorem one_iff {k : Nat} (one : t.parts = [(k, a)]) :
    Parted R t u ↔ ∃ a', R a a' ∧ u = t.withParts [a'] := by
  simp only [Parted, one, List.forall₂_cons_left_iff, List.forall₂_nil_left_iff]
  constructor
  · rintro ⟨_, ⟨a', _, ra, rfl, rfl⟩, rfl⟩
    exact ⟨a', ra, rfl⟩
  · rintro ⟨a', ra, rfl⟩
    exact ⟨_, ⟨a', _, ra, rfl, rfl⟩, rfl⟩

/-- Terms with two parts are related if both are. -/
theorem two_iff {k l : Nat} (two : t.parts = [(k, a), (l, b)]) :
    Parted R t u ↔ ∃ a' b', R a a' ∧ R b b' ∧ u = t.withParts [a', b'] := by
  simp only [Parted, two, List.forall₂_cons_left_iff, List.forall₂_nil_left_iff]
  constructor
  · rintro ⟨_, ⟨a', _, ra, ⟨b', _, rb, rfl, rfl⟩, rfl⟩, rfl⟩
    exact ⟨a', b', ra, rb, rfl⟩
  · rintro ⟨a', b', ra, rb, rfl⟩
    exact ⟨_, ⟨a', _, ra, ⟨b', _, rb, rfl, rfl⟩, rfl⟩, rfl⟩

/-- Terms with three parts are related if all are. -/
theorem three_iff {k l m : Nat} (three : t.parts = [(k, a), (l, b), (m, c)]) :
    Parted R t u ↔ ∃ a' b' c', R a a' ∧ R b b' ∧ R c c' ∧ u = t.withParts [a', b', c'] := by
  simp only [Parted, three, List.forall₂_cons_left_iff, List.forall₂_nil_left_iff]
  constructor
  · rintro ⟨_, ⟨a', _, ra, ⟨b', _, rb, ⟨c', _, rc, rfl, rfl⟩, rfl⟩, rfl⟩, rfl⟩
    exact ⟨a', b', c', ra, rb, rc, rfl⟩
  · rintro ⟨a', b', c', ra, rb, rc, rfl⟩
    exact ⟨_, ⟨a', _, ra, ⟨b', _, rb, ⟨c', _, rc, rfl, rfl⟩, rfl⟩, rfl⟩, rfl⟩

/-- What is related to a function type by its parts is a function type. -/
theorem pi_iff : Parted R (.pi erased name a b) u ↔
    ∃ a' b', R a a' ∧ R b b' ∧ u = .pi erased name a' b' :=
  two_iff rfl

/-- What is related to a lambda by its parts is a lambda. -/
theorem lam_iff : Parted R (.lam erased name a b) u ↔
    ∃ a' b', R a a' ∧ R b b' ∧ u = .lam erased name a' b' :=
  two_iff rfl

/-- What is related to an application by its parts is an application. -/
theorem app_iff : Parted R (.app erased a b) u ↔
    ∃ a' b', R a a' ∧ R b b' ∧ u = .app erased a' b' :=
  two_iff rfl

/-- What is related to a pair type by its parts is a pair type. -/
theorem sigma_iff : Parted R (.sigma erased name a b) u ↔
    ∃ a' b', R a a' ∧ R b b' ∧ u = .sigma erased name a' b' :=
  two_iff rfl

/-- What is related to a pair by its parts is a pair. -/
theorem pair_iff : Parted R (.pair erased a b c) u ↔
    ∃ a' b' c', R a a' ∧ R b b' ∧ R c c' ∧ u = .pair erased a' b' c' :=
  three_iff rfl

/-- What is related to a split by its parts is a split. -/
theorem split_iff : Parted R (.split erased a name b fstName sndName c) u ↔
    ∃ a' b' c', R a a' ∧ R b b' ∧ R c c' ∧ u = .split erased a' name b' fstName sndName c' :=
  three_iff rfl

/-- What is related to a constructor by its declaration is a constructor. -/
theorem ctr_iff : Parted R (.ctr name a) u ↔ ∃ a', R a a' ∧ u = .ctr name a' :=
  one_iff rfl

/-- What is related to a duplication by its parts is a duplication. -/
theorem dup_iff : Parted R (.dup name a b) u ↔ ∃ a' b', R a a' ∧ R b b' ∧ u = .dup name a' b' :=
  two_iff rfl

/-- What is related to a box by its content is a box. -/
theorem box_iff : Parted R (.box a) u ↔ ∃ a', R a a' ∧ u = .box a' :=
  one_iff rfl

/-- What is related to a box type by its part is a box type. -/
theorem boxType_iff : Parted R (.boxType a) u ↔ ∃ a', R a a' ∧ u = .boxType a' :=
  one_iff rfl

/-- Relating two lists is relating all elements but the last, and the last one. -/
theorem forall_append_last {α β : Type} {Q : α → β → Prop} {xs : List α} {ys : List β}
    {x : α} {y : β} :
    List.Forall₂ Q (xs ++ [x]) (ys ++ [y]) ↔ List.Forall₂ Q xs ys ∧ Q x y := by
  rw [← List.forall₂_reverse_iff, List.reverse_append, List.reverse_append]
  simp [List.forall₂_cons, and_comm, List.forall₂_reverse_iff]

/-- What is related to a declaration by its parts is a declaration with the same labels. -/
theorem data_iff : Parted R (.data name a entries) u ↔
    ∃ a' entries', R a a' ∧ entries.Related R entries' ∧ u = .data name a' entries' := by
  constructor
  · rintro ⟨ps, each, rfl⟩
    obtain ⟨terms, last, count, rfl⟩ := Term.exists_data_parts each.length_eq.symm
    rw [Term.parts_data, forall_append_last, List.forall₂_map_left_iff] at each
    refine ⟨last, entries.withTerms terms, each.2, Entries.related_withTerms each.1, ?_⟩
    simp [Entries.withTerms_append _ count]
  · rintro ⟨a', entries', related, others, rfl⟩
    have count : entries'.terms.length = entries.length := by
      rw [← others.2.length_eq, Entries.length_terms]
    refine ⟨entries'.terms ++ [a'], ?_, ?_⟩
    · rw [Term.parts_data, forall_append_last, List.forall₂_map_left_iff]
      exact ⟨others.2, related⟩
    · simp only [Term.withParts_data, List.getLastD_concat, Entries.withTerms_append _ count,
        others.withTerms]

/-- What is related to a case analysis by its parts is a case analysis with the same labels. -/
theorem caseOf_iff : Parted R (.caseOf a b name c entries) u ↔
    ∃ a' b' c' entries', R a a' ∧ R b b' ∧ R c c' ∧ entries.Related R entries' ∧
      u = .caseOf a' b' name c' entries' := by
  constructor
  · rintro ⟨ps, each, rfl⟩
    simp only [Term.parts_caseOf, List.forall₂_cons_left_iff, List.forall₂_map_left_iff] at each
    obtain ⟨a', _, ra, ⟨b', _, rb, ⟨c', terms, rc, each, rfl⟩, rfl⟩, rfl⟩ := each
    exact ⟨a', b', c', entries.withTerms terms, ra, rb, rc, Entries.related_withTerms each, rfl⟩
  · rintro ⟨a', b', c', entries', ra, rb, rc, others, rfl⟩
    refine ⟨a' :: b' :: c' :: entries'.terms, ?_, ?_⟩
    · rw [Term.parts_caseOf]
      exact .cons ra (.cons rb (.cons rc (List.forall₂_map_left_iff.2 others.2)))
    · rw [Term.withParts_caseOf, others.withTerms]

/-- The parts of the two terms stand below the same binders. -/
theorem forall_parts (parted : Parted R t u) :
    List.Forall₂ (fun part part' => part.1 = part'.1 ∧ R part.2 part'.2) t.parts u.parts := by
  obtain ⟨ps, each, rfl⟩ := parted
  rw [Term.parts_withParts each.length_eq.symm]
  exact forall_zip_binders each

/-- A term with the head of another one has the parts of the former. -/
theorem eq_withParts (parted : Parted R t u) : u = t.withParts (u.parts.map Prod.snd) := by
  obtain ⟨ps, each, rfl⟩ := parted
  rw [Term.parts_withParts each.length_eq.symm, List.map_snd_zip (by simp [each.length_eq])]

/-- Parts that are related one after the other are related by the composite. -/
theorem trans {w : Term} (first : Parted R t u) (second : Parted S u w) :
    Parted (fun a c => ∃ b, R a b ∧ S b c) t w := by
  obtain ⟨ps, each, rfl⟩ := first
  obtain ⟨qs, each', rfl⟩ := second
  rw [Term.parts_withParts each.length_eq.symm] at each'
  have same : qs.length = t.parts.length := by
    rw [← each'.length_eq]
    simp [each.length_eq]
  refine ⟨qs, ?_, Term.withParts_withParts qs each.length_eq.symm same⟩
  clear same
  generalize t.parts = parts at each each' ⊢
  induction each generalizing qs with
  | nil => simpa using each'
  | cons related _ ih =>
      simp only [List.map_cons, List.zip_cons_cons, List.forall₂_cons_left_iff] at each'
      obtain ⟨q, qs, related', rest, rfl⟩ := each'
      exact .cons ⟨_, related, related'⟩ (ih qs rest)

/-- Replacing parts that were put in place. -/
theorem of_withParts {ps qs : List Term} (same : ps.length = t.parts.length)
    (each : List.Forall₂ R ps qs) : Parted R (t.withParts ps) (t.withParts qs) := by
  refine ⟨qs, ?_, ?_⟩
  · rw [← List.forall₂_map_left_iff (f := Prod.snd), Term.terms_withParts same]
    exact each
  · rw [Term.withParts_withParts _ same (by rw [← each.length_eq, same])]

/-- Traversals of the variables of two terms are traversals of their parts. -/
theorem bindVars {f g : Nat → Int → Term} {d e : Nat} (compound : ∀ i, t ≠ .var i)
    (parted : Parted R t u)
    (each : ∀ part ∈ t.parts, ∀ part' ∈ u.parts, part.1 = part'.1 → R part.2 part'.2 →
      S (part.2.bindVars f (d + part.1)) (part'.2.bindVars g (e + part'.1))) :
    Parted S (t.bindVars f d) (u.bindVars g e) := by
  obtain ⟨same, related⟩ := List.forall₂_iff_zip.1 parted.forall_parts
  refine ⟨u.parts.map fun part => part.2.bindVars g (e + part.1), ?_, ?_⟩
  · rw [Term.parts_bindVars f d compound, List.forall₂_map_left_iff, List.forall₂_map_right_iff]
    refine List.forall₂_iff_zip.2 ⟨same, fun {part part'} mem => ?_⟩
    obtain ⟨binders, both⟩ := related mem
    exact each part (List.of_mem_zip mem).1 part' (List.of_mem_zip mem).2 binders both
  · obtain ⟨ps, count, rfl⟩ := parted
    rw [Term.bindVars_eq_withParts g e (Term.withParts_ne_var compound ps),
      Term.bindVars_eq_withParts f d compound, Term.withParts_withParts _ count.length_eq.symm,
      Term.withParts_withParts _ (by simp)]
    · simp [same]
    · simp [same]

/-- If the ways in which two relations replace a part can be joined, so can those in which they
replace all parts. -/
theorem join {R' S' : Term → Term → Prop} {w : Term} (first : Parted R t u) (second : Parted S t w)
    (parts : ∀ part ∈ t.parts, ∀ p q, R part.2 p → S part.2 q → ∃ x, R' p x ∧ S' q x) :
    ∃ x, Parted R' u x ∧ Parted S' w x := by
  obtain ⟨ps, each, rfl⟩ := first
  obtain ⟨qs, each', rfl⟩ := second
  have joined : ∃ xs, List.Forall₂ R' ps xs ∧ List.Forall₂ S' qs xs := by
    generalize t.parts = parts at each each' parts
    induction each generalizing qs with
    | nil =>
        obtain rfl := List.forall₂_nil_left_iff.1 each'
        exact ⟨[], .nil, .nil⟩
    | cons related _ ih =>
        obtain ⟨q, qs, related', rest, rfl⟩ := List.forall₂_cons_left_iff.1 each'
        obtain ⟨x, left, right⟩ := parts _ List.mem_cons_self _ _ related related'
        obtain ⟨xs, lefts, rights⟩ :=
          ih qs rest fun part member => parts part (List.mem_cons_of_mem _ member)
        exact ⟨x :: xs, .cons left lefts, .cons right rights⟩
  obtain ⟨xs, lefts, rights⟩ := joined
  exact ⟨t.withParts xs, of_withParts each.length_eq.symm lefts,
    of_withParts each'.length_eq.symm rights⟩

end Parted

end BoxCalculus
