import BoxCalculus.Proofs.Telescopes

/-!
# A typing relation

`Typed Γ t T` says that `t` has type `T` in the context `Γ`. The rules are those of the checker with
types up to conversion, for terms without cosmetics, and with two restrictions. The constructors of a
declaration have to be functions into the declared type. A duplication has to open a value that is
convertible to a box, or else the type of its body must not depend on what it binds.

The relation is stable under instantiation (`Typed.inst`), which has weakening, substitution and
conversion of the context as instances.
-/

namespace BoxCalculus

/-- Put the pair of the two innermost variables in place of the variable of a motive. -/
def Assign.paired (type : Term) : Assign
  | 0 => .pair false (type.inst (Assign.raise 2)) (.var 1) (.var 0)
  | i + 1 => .var (i + 2 : Nat)

/-- The term does not depend on its innermost variable. -/
def Independent (t : Term) : Prop :=
  ∃ u : Term, Conv t (u.inst (Assign.raise 1))

/-- The typing relation. A context lists types, the innermost first, each in the context of those
after it. -/
inductive Typed : List Term → Term → Term → Prop where
  | var {Γ A T} (i : Nat) : Γ[i]? = some A → Conv (A.inst (Assign.raise (i + 1))) T →
      Typed Γ (.var i) T
  | univ {Γ T} : Conv .univ T → Typed Γ .univ T
  | pi {Γ dom cod T} : Typed Γ dom .univ → Typed (dom :: Γ) cod .univ →
      Conv .univ T → Typed Γ (.pi false "" dom cod) T
  | lam {Γ dom body cod T} : Typed (dom :: Γ) body cod → Conv (.pi false "" dom cod) T →
      Typed Γ (.lam false "" dom body) T
  | app {Γ fn arg dom cod T} : Typed Γ fn (.pi false "" dom cod) → Typed Γ arg dom →
      Conv (cod.inst (Assign.close arg)) T → Typed Γ (.app false fn arg) T
  | sigma {Γ fst snd T} : Typed Γ fst .univ → Typed (fst :: Γ) snd .univ →
      Conv .univ T → Typed Γ (.sigma false "" fst snd) T
  | pair {Γ type fst snd A B T} : Conv type (.sigma false "" A B) → Typed Γ fst A →
      Typed Γ snd (B.inst (Assign.close fst)) → Conv type T →
      Typed Γ (.pair false type fst snd) T
  | split {Γ scrutinee motive body A B T} : Typed Γ scrutinee (.sigma false "" A B) →
      Typed (.sigma false "" A B :: Γ) motive .univ →
      Typed (B :: A :: Γ) body (motive.inst (Assign.paired (.sigma false "" A B))) →
      Conv (motive.inst (Assign.close scrutinee)) T →
      Typed Γ (.split false scrutinee "" motive "" "" body) T
  | data {Γ type ctrs T} : Conv type T → Typed Γ (.data "" type ctrs) T
  | ctr {Γ D type ctrs A T} (label : String) : Conv D (.data "" type ctrs) → ctrs.Proper →
      ctrs.find? label = some A → Conv (A.inst (Assign.close (.data "" type ctrs))) T →
      Typed Γ (.ctr label D) T
  | caseOf {Γ D type ctrs value indices motive branches T} : Conv D (.data "" type ctrs) →
      ctrs.Proper → branches.labels = ctrs.labels →
      Typed Γ value ((Term.data "" type ctrs).apply indices) →
      Typed ((Term.data "" type ctrs).apply indices :: Γ) motive .univ →
      (∀ entry ∈ branches.toList.zip ctrs.toList, Typed Γ entry.1.2
        (branchType .exact (entry.2.2.inst (Assign.close (.data "" type ctrs))) motive
          (.ctr entry.2.1 (.data "" type ctrs)))) →
      Conv (motive.inst (Assign.close value)) T →
      Typed Γ (.caseOf D value "" motive branches) T
  | unbox {Γ value body content B u T} : Typed Γ value (.boxType content) →
      Typed (content :: Γ) body B → Conv value (.box u) →
      Conv (B.inst (Assign.close u)) T → Typed Γ (.dup "" value body) T
  | float {Γ value body content T} : Typed Γ value (.boxType content) →
      Typed (content :: Γ) body (T.inst (Assign.raise 1)) →
      Typed Γ (.dup "" value body) T
  | box {Γ value A T} : Typed Γ value A → Conv (.boxType A) T →
      Typed Γ (.box value) T
  | boxType {Γ type T} : Typed Γ type .univ → Conv .univ T →
      Typed Γ (.boxType type) T

/-- Making room twice is making room for all binders at once. -/
theorem Term.inst_raise_raise (t : Term) (m n : Nat) :
    (t.inst (Assign.raise m)).inst (Assign.raise n) = t.inst (Assign.raise (m + n)) := by
  rw [Term.inst_inst]
  congr 1
  funext i
  rw [Assign.raise, Term.inst_var, Assign.raise, Assign.raise, Nat.add_assoc]

/-- Putting in the pair commutes with instantiation. -/
theorem Assign.inst_paired (motive type : Term) (σ : Assign) :
    (motive.inst (Assign.paired type)).inst σ.up.up =
      (motive.inst σ.up).inst (Assign.paired (type.inst σ)) := by
  rw [Term.inst_inst, Term.inst_inst]
  congr 1
  funext i
  cases i with
  | zero =>
      have room : (type.inst (Assign.raise 2)).inst σ.up.up =
          (type.inst σ).inst (Assign.raise 2) := by
        rw [← Term.inst_raise_raise type 1 1, Term.inst_raise_up, Term.inst_raise_up,
          Term.inst_raise_raise]
      have first : (Term.var 1).inst σ.up.up = .var 1 := Term.inst_var 1 σ.up.up
      have second : (Term.var 0).inst σ.up.up = .var 0 := Term.inst_var 0 σ.up.up
      have here : (Term.var 0).inst (Assign.paired (type.inst σ)) =
          Assign.paired (type.inst σ) 0 := Term.inst_var 0 _
      rw [Assign.up_zero, here, Assign.paired, Assign.paired, Term.inst_pair, room, first, second]
  | succ i =>
      have beyond : (fun j => (Assign.raise 1 j).inst (Assign.paired (type.inst σ))) =
          Assign.raise 2 := funext fun j => Term.inst_var (j + 1) _
      rw [Assign.paired, Term.inst_var, Assign.up_succ, Assign.up_succ, Term.inst_raise_raise,
        Term.inst_inst, beyond]

variable {Γ Δ : List Term} {t T U : Term}

/-- A term has every type that is convertible to one of its types. -/
theorem Typed.conv (typed : Typed Γ t T) (conv : Conv T U) : Typed Γ t U := by
  induction typed generalizing U with
  | var i found same => exact .var i found (same.trans conv)
  | univ same => exact .univ (same.trans conv)
  | pi dom cod same => exact .pi dom cod (same.trans conv)
  | lam body same => exact .lam body (same.trans conv)
  | app fn arg same => exact .app fn arg (same.trans conv)
  | sigma fst snd same => exact .sigma fst snd (same.trans conv)
  | pair type fst snd same => exact .pair type fst snd (same.trans conv)
  | split scrutinee motive body same => exact .split scrutinee motive body (same.trans conv)
  | data same => exact .data (same.trans conv)
  | ctr label declared proper found same =>
      exact .ctr label declared proper found (same.trans conv)
  | caseOf declared proper labels value motive branches same =>
      exact .caseOf declared proper labels value motive branches (same.trans conv)
  | unbox value body box same => exact .unbox value body box (same.trans conv)
  | float value _ _ ih => exact .float value (ih conv.raise)
  | box value same => exact .box value (same.trans conv)
  | boxType type same => exact .boxType type (same.trans conv)

/-- What does not depend on a variable does not after instantiation. -/
theorem Independent.inst {motive : Term} (independent : Independent motive) (σ : Assign) :
    Independent (motive.inst σ.up) := by
  obtain ⟨u, conv⟩ := independent
  refine ⟨u.inst σ, ?_⟩
  rw [← Term.inst_raise_up]
  exact conv.inst_same _

/-- `P Δ σ Γ` may hold of assignments that give each variable of `Γ` a term of its type in `Δ`, if it
carries over to the binders that a term goes below. -/
structure Admissible (P : List Term → Assign → List Term → Prop) : Prop where
  var : ∀ {Δ σ Γ i A}, P Δ σ Γ → Γ[i]? = some A →
    Typed Δ (σ i) ((A.inst (Assign.raise (i + 1))).inst σ)
  up : ∀ {Δ σ Γ}, P Δ σ Γ → ∀ A : Term, P (A.inst σ :: Δ) σ.up (A :: Γ)

/-- Typing is stable under instantiation. -/
theorem Typed.inst {P : List Term → Assign → List Term → Prop} (admissible : Admissible P)
    (typed : Typed Γ t T) {σ : Assign} (assigned : P Δ σ Γ) :
    Typed Δ (t.inst σ) (T.inst σ) := by
  induction typed generalizing Δ σ with
  | var i found same =>
      rw [Term.inst_var]
      exact (admissible.var assigned found).conv (same.inst_same σ)
  | univ same => exact .univ (same.inst_same σ)
  | pi _ _ same dom_ih cod_ih =>
      rw [Term.inst_pi]
      exact .pi (dom_ih assigned) (cod_ih (admissible.up assigned _)) (same.inst_same σ)
  | lam _ same body_ih =>
      have conv := same.inst_same σ
      rw [Term.inst_pi] at conv
      rw [Term.inst_lam]
      exact .lam (body_ih (admissible.up assigned _)) conv
  | app _ _ same fn_ih arg_ih =>
      have fn := fn_ih assigned
      have conv := same.inst_same σ
      rw [Term.inst_pi] at fn
      rw [Term.inst_close_inst] at conv
      exact .app fn (arg_ih assigned) conv
  | sigma _ _ same fst_ih snd_ih =>
      rw [Term.inst_sigma]
      exact .sigma (fst_ih assigned) (snd_ih (admissible.up assigned _)) (same.inst_same σ)
  | pair type _ _ same fst_ih snd_ih =>
      have form := type.inst_same σ
      have snd := snd_ih assigned
      rw [Term.inst_sigma] at form
      rw [Term.inst_close_inst] at snd
      exact .pair form (fst_ih assigned) snd (same.inst_same σ)
  | split _ _ _ same scrutinee_ih motive_ih body_ih =>
      have scrutinee := scrutinee_ih assigned
      have motive := motive_ih (admissible.up assigned _)
      have body := body_ih (admissible.up (admissible.up assigned _) _)
      have conv := same.inst_same σ
      rw [Assign.inst_paired, Term.inst_sigma] at body
      rw [Term.inst_sigma] at scrutinee motive
      rw [Term.inst_close_inst] at conv
      rw [Term.inst_split]
      exact .split scrutinee motive body conv
  | data same =>
      rw [Term.inst_data]
      exact .data (same.inst_same σ)
  | ctr label declared proper found same =>
      have declared' := declared.inst_same σ
      have conv := same.inst_same σ
      rw [Term.inst_data] at declared'
      rw [Term.inst_close_inst, Term.inst_data] at conv
      refine .ctr label declared' (proper.inst σ) ?_ conv
      rw [Entries.find?_map, found]
      rfl
  | caseOf declared proper labels _ _ _ same value_ih motive_ih branches_ih =>
      have declared' := declared.inst_same σ
      have value := value_ih assigned
      have motive := motive_ih (admissible.up assigned _)
      have conv := same.inst_same σ
      rw [Term.inst_data] at declared'
      rw [Term.inst_apply, Term.inst_data] at value motive
      rw [Term.inst_close_inst] at conv
      rw [Term.inst_caseOf]
      refine .caseOf declared' (proper.inst σ) (by simpa using labels) value motive ?_ conv
      intro entry mem
      rw [Entries.toList_map, Entries.toList_map, List.zip_map] at mem
      obtain ⟨entry, inside, rfl⟩ := List.mem_map.1 mem
      have branch := branches_ih entry inside assigned
      rwa [branchType_inst (proper.constructs (List.of_mem_zip inside).2), Term.inst_close_inst,
        Term.inst_ctr, Term.inst_data] at branch
  | unbox _ _ box same value_ih body_ih =>
      have conv := same.inst_same σ
      rw [Term.inst_close_inst] at conv
      rw [Term.inst_dup]
      exact .unbox (value_ih assigned) (body_ih (admissible.up assigned _)) (box.inst_same σ) conv
  | float _ _ value_ih body_ih =>
      have body := body_ih (admissible.up assigned _)
      rw [Term.inst_raise_up] at body
      rw [Term.inst_dup]
      exact .float (value_ih assigned) body
  | box _ same value_ih => exact .box (value_ih assigned) (same.inst_same σ)
  | boxType _ same type_ih => exact .boxType (type_ih assigned) (same.inst_same σ)

/-- Each variable of `Γ` becomes a variable of the same type in `Δ`. -/
def Renames (Δ : List Term) (σ : Assign) (Γ : List Term) : Prop :=
  ∀ i A, Γ[i]? = some A → ∃ (j : Nat) (B : Term), σ i = .var j ∧ Δ[j]? = some B ∧
    B.inst (Assign.raise (j + 1)) = (A.inst (Assign.raise (i + 1))).inst σ

/-- Renamings are admissible. -/
theorem Renames.admissible : Admissible Renames where
  var := by
    intro Δ σ Γ i A renames found
    obtain ⟨j, B, same, found', type⟩ := renames i A found
    rw [same, ← type]
    exact .var j found' (.refl _)
  up := by
    intro Δ σ Γ renames A i B found
    cases i with
    | zero =>
        cases found
        exact ⟨0, A.inst σ, rfl, rfl, (Term.inst_raise_up A σ).symm⟩
    | succ i =>
        obtain ⟨j, C, same, found', type⟩ := renames i B found
        refine ⟨j + 1, C, ?_, found', ?_⟩
        · rw [Assign.up_succ, same, Term.inst_var]
          rfl
        · rw [← Term.inst_raise_raise C (j + 1) 1, type, ← Term.inst_raise_up,
            Term.inst_raise_raise]

/-- Weakening: what has a type has it in a context with one more variable. -/
theorem Typed.weaken (typed : Typed Γ t T) (A : Term) :
    Typed (A :: Γ) (t.inst (Assign.raise 1)) (T.inst (Assign.raise 1)) :=
  typed.inst Renames.admissible fun i B found =>
    ⟨i + 1, B, rfl, found, (Term.inst_raise_raise B (i + 1) 1).symm⟩

/-- Each variable of `Γ` becomes a term of its type in `Δ`. -/
def Substitutes (Δ : List Term) (σ : Assign) (Γ : List Term) : Prop :=
  ∀ i A, Γ[i]? = some A → Typed Δ (σ i) ((A.inst (Assign.raise (i + 1))).inst σ)

/-- Substitutions are admissible. -/
theorem Substitutes.admissible : Admissible Substitutes where
  var := fun substitutes found => substitutes _ _ found
  up := by
    intro Δ σ Γ substitutes A i B found
    cases i with
    | zero =>
        cases found
        rw [Term.inst_raise_up]
        exact .var 0 rfl (.refl _)
    | succ i =>
        have typed := (substitutes i B found).weaken (A.inst σ)
        rwa [← Term.inst_raise_up, Term.inst_raise_raise, ← Assign.up_succ] at typed

/-- A term of the type that the innermost variable has can be put in its place. -/
theorem Typed.close {value A : Term} (typed : Typed (A :: Γ) t T)
    (values : Typed Γ value A) :
    Typed Γ (t.inst (Assign.close value)) (T.inst (Assign.close value)) := by
  refine typed.inst Substitutes.admissible fun i B found => ?_
  cases i with
  | zero =>
      cases found
      rwa [Term.inst_raise_close]
  | succ i =>
      rw [← Term.inst_raise_raise, Term.inst_raise_close]
      exact .var i found (.refl _)

/-- What stands at a place of a list is related to what stands there in the other. -/
theorem forall₂_getElem? {α β : Type} {R : α → β → Prop} {xs : List α} {ys : List β}
    (each : List.Forall₂ R xs ys) {i : Nat} {y : β} (found : ys[i]? = some y) :
    ∃ x, xs[i]? = some x ∧ R x y := by
  induction each generalizing i with
  | nil => cases found
  | cons related _ ih =>
      cases i with
      | zero =>
          cases found
          exact ⟨_, rfl, related⟩
      | succ i => exact ih found

/-- Conversion of the context. -/
theorem Typed.context (typed : Typed Γ t T) (contexts : List.Forall₂ Conv Δ Γ) :
    Typed Δ t T := by
  have substitutes : Substitutes Δ (fun i => .var i) Γ := by
    intro i A found
    obtain ⟨B, found', conv⟩ := forall₂_getElem? contexts found
    rw [Term.inst_self]
    exact .var i found' (conv.inst_same _)
  have same := typed.inst Substitutes.admissible substitutes
  rwa [Term.inst_self, Term.inst_self] at same

end BoxCalculus
