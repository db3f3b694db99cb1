import BoxCalculus.Proofs.Inhabitation
import BoxCalculus.Proofs.Stuck

/-!
# Canonical forms

A normal term without free variables that has a function type is a function, or a declaration or a
constructor applied to arguments; one that has a pair type is a pair, and so on (`Inhabits.canonical`).
So a case analysis with such a scrutinee that is left in a normal term stands in one of its annotations
(`Inhabits.annotates_of_firstStuck`).
-/

namespace BoxCalculus

/-- The kinds of types, by what their values are. -/
inductive Former where
  | univ
  | fn
  | pair
  | box
  | data (labels : List String)

/-- The kind of a type that shows it. A declaration may be applied to arguments. -/
def Term.former? : Term → Option Former
  | .univ => some .univ
  | .pi _ _ _ _ => some .fn
  | .sigma _ _ _ _ => some .pair
  | .boxType _ => some .box
  | .data _ _ ctrs => some (.data ctrs.labels)
  | .app _ fn _ => fn.former?
  | _ => none

/-- A type that shows its kind is rigid. -/
theorem Term.rigid_of_former? {t : Term} {former : Former} (shows : t.former? = some former) :
    t.rigid = true := by
  induction t with
  | app erased fn arg fn_ih => exact fn_ih shows
  | _ => first | rfl | cases shows

/-- Rewriting keeps the kind of a type. -/
theorem Term.former?_steps {t u : Term} {former : Former} (shows : t.former? = some former)
    (steps : Steps .exact .empty t u) : u.former? = some former := by
  have parts := (rigid_steps (rigid_of_former? shows) steps).1
  clear steps
  induction t generalizing u with
  | univ =>
      obtain rfl := (Parted.leaf_iff rfl).1 parts
      exact shows
  | pi =>
      obtain ⟨_, _, -, -, rfl⟩ := Parted.pi_iff.1 parts
      exact shows
  | sigma =>
      obtain ⟨_, _, -, -, rfl⟩ := Parted.sigma_iff.1 parts
      exact shows
  | boxType =>
      obtain ⟨_, -, rfl⟩ := Parted.boxType_iff.1 parts
      exact shows
  | data =>
      obtain ⟨_, _, -, related, rfl⟩ := Parted.data_iff.1 parts
      rw [former?, related.1] at shows
      exact shows
  | app erased fn arg fn_ih =>
      obtain ⟨fn', _, fns, -, rfl⟩ := Parted.app_iff.1 parts
      have head : fn.former? = some former := shows
      have fn_parts := fn_ih head (rigid_steps (rigid_of_former? head) fns).1
      exact fn_parts
  | _ => cases shows

/-- Convertible types are of the same kind. -/
theorem Conv.former_eq {t u : Term} {former former' : Former} (conv : Conv t u)
    (left : t.former? = some former) (right : u.former? = some former') : former = former' := by
  obtain ⟨w, steps, steps'⟩ := conv
  exact Option.some.inj ((Term.former?_steps left steps).symm.trans (Term.former?_steps right steps'))

/-- Instantiation keeps the kind that a type shows. -/
theorem Term.former?_inst {t : Term} {former : Former} (shows : t.former? = some former)
    (σ : Assign) : (t.inst σ).former? = some former := by
  induction t with
  | app erased fn arg fn_ih => exact fn_ih shows
  | data name type ctrs =>
      rw [inst_data, former?, Entries.labels_map]
      exact shows
  | pi => rw [inst_pi]; exact shows
  | sigma => rw [inst_sigma]; exact shows
  | _ => first | exact shows | cases shows

/-- A spine shows the kind of its head. -/
theorem Term.former?_apply (head : Term) (args : List (Bool × Term)) :
    (head.apply args).former? = head.former? := by
  induction args generalizing head with
  | nil => rfl
  | cons arg args ih => exact ih (.app arg.1 head arg.2)

/-- `Ends former t` says that `t` is a function type whose result is of a kind. -/
inductive Ends (former : Former) : Term → Prop where
  | fn (dom cod : Term) : Ends former cod → Ends former (.pi false "" dom cod)
  | result (t : Term) : t.former? = some former → Ends former t

/-- Instantiation keeps the kind of the result. -/
theorem Ends.inst {former : Former} {t : Term} (ends : Ends former t) (σ : Assign) :
    Ends former (t.inst σ) := by
  induction ends generalizing σ with
  | fn dom cod _ ih =>
      rw [Term.inst_pi]
      exact .fn _ _ (ih _)
  | result t shows => exact .result _ (Term.former?_inst shows σ)

/-- The result of an arity is the universe. -/
theorem Arity.ends {t : Term} (arity : Arity t) : Ends .univ t := by
  induction arity with
  | fn dom cod _ ih => exact .fn dom cod ih
  | univ => exact .result _ rfl

/-- The result of a constructor is of the kind of what is put in for the declared type. -/
theorem Telescope.ends {self : Nat} {t : Term} (telescope : Telescope self t) {σ : Assign}
    {former : Former} (closes : (σ self).former? = some former) : Ends former (t.inst σ) := by
  induction telescope generalizing σ with
  | fn dom cod _ ih =>
      rw [Term.inst_pi]
      refine .fn _ _ (ih ?_)
      rw [Assign.up_succ]
      exact Term.former?_inst closes _
  | result self args =>
      rw [Term.inst_apply, Term.inst_var]
      exact .result _ ((Term.former?_apply ..).trans closes)

/-- What can be applied without being a function: a declaration makes types, and a constructor values of
the declared type. -/
inductive Introduces : Term → Former → Prop where
  | data (name type ctrs) : Introduces (.data name type ctrs) .univ
  | ctr (label D labels) : label ∈ labels → Introduces (.ctr label D) (.data labels)

/-- The forms that normal terms without free variables have, by their types. Nothing is said of the
types themselves. -/
inductive Canonical : Term → Term → Prop where
  | type {t T} : Conv .univ T → Canonical t T
  | fn {A B T} (erased name dom body) : Conv (.pi false "" A B) T →
      Canonical (.lam erased name dom body) T
  | pair {A B T} (erased type fst snd) : Conv (.sigma false "" A B) T →
      Canonical (.pair erased type fst snd) T
  | box {A T} (value) : Conv (.boxType A) T → Canonical (.box value) T
  | spine {head former N T} (args : List (Bool × Term)) : Introduces head former → Ends former N →
      Conv N T → Canonical (head.apply args) T

/-- What the values of the kinds of types are, other than types and functions. -/
inductive Form : Term → Former → Prop where
  | univ (t) : Form t .univ
  | fn (t) : Form t .fn
  | pair (erased type fst snd) : Form (.pair erased type fst snd) .pair
  | box (value) : Form (.box value) .box
  | ctr (label D args labels) : label ∈ labels →
      Form ((Term.ctr label D).apply args) (.data labels)

namespace Canonical

variable {t T A B : Term}

/-- A canonical form of a function type that is no function can be applied to one more argument. -/
theorem app {erased : Bool} {fn arg value : Term} (canonical : Canonical fn (.pi false "" A B))
    (normal : Normal .exact .empty (.app erased fn arg))
    (result : Conv (B.inst (Assign.close value)) T) : Canonical (.app erased fn arg) T := by
  cases canonical with
  | type conv => cases conv.former_eq rfl rfl
  | fn => cases (normal_iff.1 normal).1
  | pair _ _ _ _ conv => cases conv.former_eq rfl rfl
  | box _ conv => cases conv.former_eq rfl rfl
  | @spine head _ _ _ args introduces ends conv =>
      cases ends with
      | fn dom cod ends =>
          have longer := spine (args ++ [(erased, arg)]) introduces (ends.inst _)
            ((conv.pi_inj.2.close (.refl value)).trans result)
          rwa [Term.apply_append] at longer
      | result _ shows =>
          cases conv.former_eq shows rfl
          cases introduces

/-- What a canonical form is, if its type shows its kind. -/
theorem form {former : Former} (canonical : Canonical t T) (shows : T.former? = some former) :
    Form t former := by
  cases canonical with
  | type conv =>
      cases conv.former_eq rfl shows
      exact .univ t
  | fn _ _ _ _ conv =>
      cases conv.former_eq rfl shows
      exact .fn _
  | pair _ _ _ _ conv =>
      cases conv.former_eq rfl shows
      exact .pair ..
  | box _ conv =>
      cases conv.former_eq rfl shows
      exact .box _
  | spine args introduces ends conv =>
      cases ends with
      | fn =>
          cases conv.former_eq rfl shows
          exact .fn _
      | result _ shows' =>
          cases conv.former_eq shows' shows
          cases introduces with
          | data => exact .univ _
          | ctr label D _ known => exact .ctr label D args _ known

end Canonical

/-- There is an entry for each label. -/
theorem Entries.exists_find? {label : String} : ∀ {entries : Entries}, label ∈ entries.labels →
    ∃ term, entries.find? label = some term
  | .nil, known => by cases known
  | .cons first term rest, known => by
      rw [Entries.find?]
      split
      · exact ⟨term, rfl⟩
      · rename_i differ
        exact Entries.exists_find? ((List.mem_cons.1 known).resolve_left (Ne.symm differ))

/-- A case analysis of a canonical form of the declared type is a redex. -/
theorem Canonical.caseOf_redex {D value motive type : Term} {name : String}
    {branches ctrs : Entries} {indices : List (Bool × Term)} (labels : branches.labels = ctrs.labels)
    (canonical : Canonical value ((Term.data "" type ctrs).apply indices)) :
    ¬ Normal .exact .empty (.caseOf D value name motive branches) := by
  cases canonical.form (Term.former?_apply ..) with
  | ctr label D' args _ known =>
      obtain ⟨branch, found⟩ := Entries.exists_find? (labels ▸ known)
      exact fun normal => normal _ (.root _ _ (.of_computes (.select _ _ _ _ _ _ _ _ found)))

variable {Γ : Scope} {t T : Term}

/-- Normal terms without free variables are canonical. -/
theorem Inhabits.canonical (inhabits : Inhabits Γ t T) (normal : Normal .exact .empty t)
    (closed : t.closed = true) : Canonical t T := by
  induction t generalizing Γ T with
  | hole | ref => cases inhabits
  | var =>
      cases inhabits with
      | var i =>
          simp only [Term.closed, Term.allVars, decide_eq_true_eq] at closed
          omega
  | univ =>
      cases inhabits with
      | univ conv => exact .type conv
  | pi =>
      cases inhabits with
      | pi _ _ conv => exact .type conv
  | lam =>
      cases inhabits with
      | lam _ conv => exact .fn _ _ _ _ conv
  | app erased fn arg fn_ih =>
      simp only [Term.closed, Term.allVars, Bool.and_eq_true] at closed
      cases inhabits with
      | app fn_typed _ conv =>
          exact (fn_ih fn_typed (normal.part (.head _)) closed.1).app normal conv
  | sigma =>
      cases inhabits with
      | sigma _ _ conv => exact .type conv
  | pair =>
      cases inhabits with
      | pair _ _ conv => exact .pair _ _ _ _ conv
  | split erased scrutinee name motive fstName sndName body scrutinee_ih =>
      simp only [Term.closed, Term.allVars, Bool.and_eq_true] at closed
      cases inhabits with
      | split scrutinee_typed =>
          have canonical := scrutinee_ih scrutinee_typed (normal.part (.head _)) closed.1.1
          cases canonical.form rfl with
          | pair => cases (normal_iff.1 normal).1
  | data =>
      cases inhabits with
      | data arity conv => exact .spine [] (.data ..) arity.ends conv
  | ctr label D =>
      cases inhabits with
      | @ctr _ _ type _ _ ctrs _ proper found conv =>
          have known := List.mem_map_of_mem (f := Prod.fst) (Entries.mem_of_find? found)
          rw [Entries.map_fst_toList] at known
          exact .spine [] (.ctr label D _ known) ((proper.find? found).ends rfl) conv
  | caseOf type value name motive branches _ value_ih =>
      simp only [Term.closed, Term.allVars, Bool.and_eq_true] at closed
      cases inhabits with
      | caseOf _ labels value_typed =>
          have canonical := value_ih value_typed (normal.part (.tail _ (.head _))) closed.1.1.2
          exact absurd normal (canonical.caseOf_redex labels)
  | dup name value body value_ih =>
      simp only [Term.closed, Term.allVars, Bool.and_eq_true] at closed
      cases inhabits with
      | dup value_typed =>
          have canonical := value_ih value_typed (normal.part (.head _)) closed.1
          cases canonical.form rfl with
          | box => cases (normal_iff.1 normal).1
  | box =>
      cases inhabits with
      | box _ conv => exact .box _ conv
  | boxType =>
      cases inhabits with
      | boxType _ conv => exact .type conv

/-- The entries of two lists with the same labels stand together. -/
theorem Entries.exists_mem_zip {entries others : Entries} (labels : entries.labels = others.labels)
    {entry : String × Term} (mem : entry ∈ entries.toList) :
    ∃ other, (entry, other) ∈ entries.toList.zip others.toList := by
  have count : entries.toList.length = others.toList.length := by
    rw [← List.length_map Prod.fst, Entries.map_fst_toList, labels, ← Entries.map_fst_toList,
      List.length_map]
  rw [← List.map_fst_zip (Nat.le_of_eq count)] at mem
  obtain ⟨⟨_, other⟩, inside, rfl⟩ := List.mem_map.1 mem
  exact ⟨other, inside⟩

/-- The parts of a term that typing without annotations does not look at: the domain of a function, the
type of a pair, the parts of a declaration, and the declaration that a constructor or a case analysis
names. -/
def Term.annotations : Term → List Term
  | .lam _ _ dom _ => [dom]
  | .pair _ type _ _ => [type]
  | .data name type ctrs => (Term.data name type ctrs).parts.map Prod.snd
  | .ctr _ type => [type]
  | .caseOf type _ _ _ _ => [type]
  | _ => []

/-- `Annotates a t` says that `a` is an annotation somewhere in `t`. -/
inductive Annotates : Term → Term → Prop where
  | here {a t} : a ∈ t.annotations → Annotates a t
  | inside {a t} {part : Nat × Term} : part ∈ t.parts → Annotates a part.2 → Annotates a t

/-- The parts of a term that are no annotations have types. -/
theorem Inhabits.annotation_or_inhabits (inhabits : Inhabits Γ t T) {part : Nat × Term}
    (mem : part ∈ t.parts) : part.2 ∈ t.annotations ∨ ∃ Δ U, Inhabits Δ part.2 U := by
  cases inhabits with
  | var | univ => cases mem
  | data => exact .inl (List.mem_map_of_mem mem)
  | ctr =>
      simp only [Term.parts, List.mem_singleton] at mem
      subst mem
      exact .inl (.head _)
  | caseOf proper labels value motive branches =>
      simp only [Term.parts_caseOf, Entries.terms, List.map_map, List.mem_cons, List.mem_map] at mem
      obtain rfl | rfl | rfl | ⟨entry, mem, rfl⟩ := mem
      · exact .inl (.head _)
      · exact .inr ⟨_, _, value⟩
      · exact .inr ⟨_, _, motive⟩
      · obtain ⟨other, inside⟩ := Entries.exists_mem_zip labels mem
        exact .inr ⟨_, _, branches _ inside⟩
  | pi first second _ | app first second _ | sigma first second _ | dup first second =>
      simp only [Term.parts, List.mem_cons, List.not_mem_nil, or_false] at mem
      obtain rfl | rfl := mem
      · exact .inr ⟨_, _, first⟩
      · exact .inr ⟨_, _, second⟩
  | lam body =>
      simp only [Term.parts, List.mem_cons, List.not_mem_nil, or_false] at mem
      obtain rfl | rfl := mem
      · exact .inl (.head _)
      · exact .inr ⟨_, _, body⟩
  | pair fst snd =>
      simp only [Term.parts, List.mem_cons, List.not_mem_nil, or_false] at mem
      obtain rfl | rfl | rfl := mem
      · exact .inl (.head _)
      · exact .inr ⟨_, _, fst⟩
      · exact .inr ⟨_, _, snd⟩
  | split scrutinee motive body =>
      simp only [Term.parts, List.mem_cons, List.not_mem_nil, or_false] at mem
      obtain rfl | rfl | rfl := mem
      · exact .inr ⟨_, _, scrutinee⟩
      · exact .inr ⟨_, _, motive⟩
      · exact .inr ⟨_, _, body⟩
  | box only | boxType only =>
      simp only [Term.parts, List.mem_singleton] at mem
      subst mem
      exact .inr ⟨_, _, only⟩

/-- A normal term that has a type is no stuck case analysis. -/
theorem Inhabits.not_isStuck (inhabits : Inhabits Γ t T) (normal : Normal .exact .empty t) :
    t.isStuck = false := by
  cases inhabits with
  | caseOf _ labels value =>
      rw [← Bool.not_eq_true]
      intro closed
      exact (value.canonical (normal.part (.tail _ (.head _))) closed).caseOf_redex labels normal
  | _ => rfl

/-- A stuck case analysis that is left in a normal term stands in an annotation. -/
theorem Inhabits.annotates_of_firstStuck {stuck : Term} (inhabits : Inhabits Γ t T)
    (normal : Normal .exact .empty t) (found : t.firstStuck = some stuck) :
    ∃ a, Annotates a t ∧ a.firstStuck = some stuck := by
  induction t using Term.byParts generalizing Γ T with
  | step t ih =>
      rw [Term.firstStuck_eq, inhabits.not_isStuck normal, if_neg Bool.false_ne_true] at found
      obtain ⟨part, mem, found⟩ := List.exists_of_findSome?_eq_some found
      rcases inhabits.annotation_or_inhabits mem with annotation | ⟨Δ, U, part_typed⟩
      · exact ⟨_, .here annotation, found⟩
      · obtain ⟨a, annotates, found'⟩ := ih part mem part_typed (normal.part mem) found
        exact ⟨a, .inside mem annotates, found'⟩

end BoxCalculus
