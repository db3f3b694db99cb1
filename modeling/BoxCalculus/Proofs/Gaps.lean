import BoxCalculus.Proofs.Limits
import BoxCalculus.Proofs.Rules
import BoxCalculus.Proofs.Shape

/-!
# Terms without gaps

In a `sound` term at most domains of lambdas are missing. The rules keep terms sound
(`Term.sound_contract`), whatever the index arithmetic, provided that the definitions of the
environment are. A domain is never needed, so a reduction of sound terms meets no gap
(`Run.no_gap`).
-/

namespace BoxCalculus

open Term (Everywhere)

/-- No part of the term or of any term in it is missing, except for domains of lambdas. The term itself
may be. -/
abbrev Term.Intact (t : Term) : Prop :=
  Everywhere (fun u => u.partsThere = true) t

/-- A sound term is there and intact. -/
theorem Term.sound_iff {t : Term} : t.sound = true ↔ t.isHole = false ∧ t.Intact := by
  rw [sound, Bool.and_eq_true, Bool.not_eq_true', everywhere_iff_everywhere]

/-- The definitions of the environment are sound. -/
def Env.Sound (env : Env) : Prop :=
  ∀ name d, env name = some d → d.sound = true

namespace Term

variable {t u : Term}

/-- Is the term a lambda? -/
def isLam : Term → Bool
  | .lam _ _ _ _ => true
  | _ => false

/-- All parts of a form that is no lambda have to be there. -/
theorem partsThere_eq (other : t.isLam = false) :
    t.partsThere = t.parts.all fun part => !part.2.isHole := by
  cases t with
  | lam => cases other
  | _ => rfl

/-- A change of the parts makes no lambda. -/
theorem isLam_of_parted {R : Term → Term → Prop} (parted : Parted R t u) : u.isLam = t.isLam := by
  obtain ⟨ps, -, rfl⟩ := parted
  unfold withParts
  split <;> rfl

/-- Replacing parts by others, where gaps stay gaps and terms stay terms, keeps the parts there. -/
theorem partsThere_of_parted (parted : Parted (fun p q => q.isHole = p.isHole) t u) :
    u.partsThere = t.partsThere := by
  cases lambda : t.isLam with
  | true =>
      cases t with
      | lam erased name dom body =>
          obtain ⟨dom', body', -, same, rfl⟩ := Parted.lam_iff.1 parted
          simp only [partsThere, same]
      | _ => cases lambda
  | false =>
      rw [partsThere_eq lambda, partsThere_eq ((isLam_of_parted parted).trans lambda)]
      have each := parted.forall_parts
      generalize t.parts = parts, u.parts = parts' at each
      induction each with
      | nil => rfl
      | cons related _ ih => simp only [List.all_cons, related.2, ih]

/-- Putting intact parts in the place of the parts of a term, where gaps stay gaps. -/
theorem Intact.of_parted (intact : t.Intact)
    (parted : Parted (fun p q => q.Intact ∧ q.isHole = p.isHole) t u) : u.Intact := by
  refine .intro ?_ ?_
  · rw [partsThere_of_parted (parted.imp fun _ _ _ => And.right)]
    exact intact.here
  · exact forall_mem_of_forall₂ parted.forall_parts (fun _ _ => trivial) fun _ _ h _ => h.2.1

/-- Replacing variables by terms that are there fills no gap and makes none. -/
theorem isHole_bindVars {f : Nat → Int → Term} (there : ∀ k i, (f k i).isHole = false)
    (depth : Nat) (t : Term) : (t.bindVars f depth).isHole = t.isHole := by
  cases t with
  | var i => exact there depth i
  | _ => rfl

/-- Replacing variables by sound terms keeps a term intact. -/
theorem Intact.bindVars {f : Nat → Int → Term}
    (sound : ∀ k i, (f k i).isHole = false ∧ (f k i).Intact) {depth : Nat} (intact : t.Intact) :
    (t.bindVars f depth).Intact := by
  induction t using Term.byParts generalizing depth with
  | step t ih =>
      by_cases isVar : ∃ i, t = .var i
      · obtain ⟨i, rfl⟩ := isVar
        exact (sound depth i).2
      · rw [not_exists] at isVar
        refine intact.of_parted ⟨_, ?_, bindVars_eq_withParts f depth isVar⟩
        rw [List.forall₂_map_right_iff, List.forall₂_same]
        exact fun part mem => ⟨ih part mem (intact.part mem),
          isHole_bindVars (fun k i => (sound k i).1) _ _⟩

/-- A variable is intact. -/
theorem intact_var (i : Int) : (Term.var i).Intact :=
  .intro rfl fun _ mem => by cases mem

/-- Shifting keeps a term intact. -/
theorem Intact.shift (intact : t.Intact) (ar : Arith) (delta cutoff : Int) :
    (t.shift ar delta cutoff).Intact := by
  refine intact.bindVars fun k i => ?_
  split
  · exact ⟨rfl, intact_var _⟩
  · exact ⟨rfl, intact_var _⟩

/-- Shifting fills no gap and makes none. -/
theorem isHole_shift (t : Term) (ar : Arith) (delta cutoff : Int) :
    (t.shift ar delta cutoff).isHole = t.isHole := by
  refine isHole_bindVars (fun k i => ?_) 0 t
  split <;> rfl

/-- Shifting keeps a term sound. -/
theorem sound_shift (sound : t.sound = true) (ar : Arith) (delta cutoff : Int) :
    (t.shift ar delta cutoff).sound = true := by
  rw [sound_iff] at sound ⊢
  exact ⟨by rw [isHole_shift, sound.1], sound.2.shift ar delta cutoff⟩

/-- Substitution of a sound value keeps a term sound. -/
theorem sound_subst {value : Term} (sound : t.sound = true) (values : value.sound = true)
    (ar : Arith) (target : Int) : (t.subst ar value target).sound = true := by
  have placed : ∀ (k : Nat) (i : Int),
      (if i = ar.add target k then value.shift ar (ar.add target k) 0
        else if ar.add target k < i then var (ar.add i (-1)) else var i).sound = true := by
    intro k i
    split
    · exact sound_shift values ar _ _
    · split <;> rfl
  rw [sound_iff] at sound ⊢
  exact ⟨(isHole_bindVars (fun k i => (sound_iff.1 (placed k i)).1) 0 t).trans sound.1,
    sound.2.bindVars fun k i => sound_iff.1 (placed k i)⟩

/-- A term other than a lambda is sound if it is there and its parts are sound. -/
theorem sound_iff_parts (there : t.isHole = false) (other : t.isLam = false) :
    t.sound = true ↔ ∀ part ∈ t.parts, part.2.sound = true := by
  have split : ∀ u : Term, u.sound = true ↔ (!u.isHole) = true ∧ u.Intact := by
    intro u
    rw [sound_iff, Bool.not_eq_true']
  simp only [split, there, Bool.not_false, true_and]
  constructor
  · intro intact part mem
    have here := intact.here
    rw [partsThere_eq other, List.all_eq_true] at here
    exact ⟨here part mem, intact.part mem⟩
  · intro parts
    refine .intro ?_ fun part mem => (parts part mem).2
    rw [partsThere_eq other, List.all_eq_true]
    exact fun part mem => (parts part mem).1

/-- The body of a sound lambda is sound. -/
theorem sound_lam {erased : Bool} {name : String} {dom body : Term}
    (sound : (Term.lam erased name dom body).sound = true) : body.sound = true := by
  rw [sound_iff] at sound
  have here : (!body.isHole) = true := sound.2.here
  exact sound_iff.2 ⟨by simpa using here, sound.2.part (.tail _ (.head _))⟩

/-- An application is sound if its parts are. -/
theorem sound_app {erased : Bool} {fn arg : Term} :
    (Term.app erased fn arg).sound = true ↔ fn.sound = true ∧ arg.sound = true := by
  rw [sound_iff_parts rfl rfl]
  simp [parts]

/-- A duplication is sound if its parts are. -/
theorem sound_dup {name : String} {value body : Term} :
    (Term.dup name value body).sound = true ↔ value.sound = true ∧ body.sound = true := by
  rw [sound_iff_parts rfl rfl]
  simp [parts]

/-- A spine is sound if the head and the arguments are. -/
theorem sound_apply {head : Term} {args : List (Bool × Term)} :
    (head.apply args).sound = true ↔
      head.sound = true ∧ ∀ arg ∈ args, arg.2.sound = true := by
  induction args generalizing head with
  | nil => simp [apply]
  | cons arg args ih =>
      rw [List.forall_mem_cons, ← and_assoc, ← sound_app]
      exact ih

/-- A split is sound if its parts are. -/
theorem sound_split {erased : Bool} {scrutinee motive body : Term} {name fstName sndName : String} :
    (Term.split erased scrutinee name motive fstName sndName body).sound = true ↔
      scrutinee.sound = true ∧ motive.sound = true ∧ body.sound = true := by
  rw [sound_iff_parts rfl rfl]
  simp [parts]

/-- A case analysis is sound if its parts are. -/
theorem sound_caseOf {type value motive : Term} {name : String} {branches : Entries} :
    (Term.caseOf type value name motive branches).sound = true ↔ type.sound = true ∧
      value.sound = true ∧ motive.sound = true ∧ ∀ branch ∈ branches.terms, branch.sound = true := by
  rw [sound_iff_parts rfl rfl, parts_caseOf]
  simp only [List.forall_mem_cons, List.forall_mem_map]

/-- What a rule gives is sound. -/
theorem sound_contract {ar : Arith} {env : Env} {c : Contractum} (rule : Rule ar env t c)
    (defs : env.Sound) (sound : t.sound = true) : c.term.sound = true := by
  have room : ∀ {u : Term} (cutoff : Int), u.sound = true → (u.shift ar 1 cutoff).sound = true :=
    fun cutoff sound => sound_shift sound ar 1 cutoff
  cases rule with
  | unfold name d found => exact defs name d found
  | beta =>
      obtain ⟨fn, arg⟩ := sound_app.1 sound
      exact sound_subst (sound_lam fn) arg ar 0
  | floatApp =>
      obtain ⟨fn, arg⟩ := sound_app.1 sound
      obtain ⟨value, body⟩ := sound_dup.1 fn
      exact sound_dup.2 ⟨value, sound_app.2 ⟨body, room 0 arg⟩⟩
  | unpair erased erased' type fst snd =>
      obtain ⟨pair, -, body⟩ := sound_split.1 sound
      rw [sound_iff_parts rfl rfl] at pair
      have fst_sound := pair (0, fst) (.tail _ (.head _))
      have snd_sound := pair (0, snd) (.tail _ (.tail _ (.head _)))
      exact sound_subst (sound_subst body (room 0 snd_sound) ar 0) fst_sound ar 0
  | floatSplit =>
      obtain ⟨scrutinee, motive, body⟩ := sound_split.1 sound
      obtain ⟨value, inner⟩ := sound_dup.1 scrutinee
      exact sound_dup.2 ⟨value, sound_split.2 ⟨inner, room 1 motive, room 2 body⟩⟩
  | unbox name value =>
      obtain ⟨box, body⟩ := sound_dup.1 sound
      rw [sound_iff_parts rfl rfl] at box
      exact sound_subst body (box (0, value) (.head _)) ar 0
  | floatDup =>
      obtain ⟨outer, body⟩ := sound_dup.1 sound
      obtain ⟨value, inner⟩ := sound_dup.1 outer
      exact sound_dup.2 ⟨value, sound_dup.2 ⟨inner, room 1 body⟩⟩
  | select type label ctrType args self motive branches branch found =>
      obtain ⟨-, value, -, all⟩ := sound_caseOf.1 sound
      have mem : branch ∈ branches.terms := List.mem_map_of_mem (Entries.mem_of_find? found)
      exact sound_apply.2 ⟨all branch mem, (sound_apply.1 value).2⟩
  | floatCase type name value inner self motive branches =>
      obtain ⟨type_sound, scrutinee, motive_sound, all⟩ := sound_caseOf.1 sound
      obtain ⟨value_sound, inner_sound⟩ := sound_dup.1 scrutinee
      refine sound_dup.2 ⟨value_sound,
        sound_caseOf.2 ⟨room 0 type_sound, inner_sound, room 1 motive_sound, ?_⟩⟩
      rw [Entries.terms_map, List.forall_mem_map]
      exact fun branch mem => room 0 (all branch mem)

end Term

/-- What a job needs: no part is missing except for domains of lambdas, and the term is there if it has
to be. -/
def Fit (job : Bool × Term) : Prop :=
  job.2.Intact ∧ (job.1 = true → job.2.isHole = false)

/-- The parts of an intact term fit. -/
theorem fit_jobs {t : Term} (intact : t.Intact) : ∀ job ∈ t.early ++ t.late, Fit job := by
  rw [Term.early_append_late, List.forall_mem_map]
  refine fun part mem => ⟨intact.part mem, fun needed => ?_⟩
  have other : t.isLam = false := by
    cases t with
    | app | dup => rfl
    | _ => cases needed
  have here := intact.here
  rw [Term.partsThere_eq other, List.all_eq_true] at here
  simpa using here part mem

/-- A term with its jobs replaced, where gaps stay gaps. -/
theorem rebuilt {t : Term} {ps qs : List Term} (intact : t.Intact)
    (early : List.Forall₂ (fun job u => u.Intact ∧ u.isHole = job.2.isHole) t.early ps)
    (late : List.Forall₂ (fun job u => u.Intact ∧ u.isHole = job.2.isHole) t.late qs) :
    (t.withParts (ps ++ qs)).Intact ∧ (t.withParts (ps ++ qs)).isHole = t.isHole :=
  ⟨intact.of_parted (.of_jobs early late), t.isHole_withParts _⟩

/-- No rule applies to a gap. -/
theorem Rule.isHole_eq {ar : Arith} {env : Env} {t : Term} {c : Contractum}
    (rule : Rule ar env t c) : t.isHole = false := by
  cases rule <;> rfl

/-- A reduction of terms that fit meets no gap, provided that the definitions are sound. It leaves gaps
where there were gaps, and nowhere else. -/
theorem Run.no_gap {ar : Arith} {env : Env} {jobs : List (Bool × Term)} {m m' : Meter}
    {us : List Term} (run : Run ar env jobs m us m') (defs : env.Sound) (fit : ∀ job ∈ jobs, Fit job) :
    List.Forall₂ (fun job u => u.Intact ∧ u.isHole = job.2.isHole) jobs us ∧
      (m'.stopped = some .gap → m.stopped = some .gap) := by
  induction run with
  | nil => exact ⟨.nil, id⟩
  | cons job jobs m u m₁ us m₂ _ _ ih ih' =>
      rw [List.forall_mem_cons] at fit
      obtain ⟨first, before⟩ := ih (by simpa using fit.1)
      obtain ⟨rest, after⟩ := ih' fit.2
      exact ⟨.cons (by simpa using first) rest, before ∘ after⟩
  | need t m u m₁ _ ih =>
      obtain ⟨intact, there⟩ := fit _ List.mem_cons_self
      rw [Meter.need, there rfl] at ih
      simpa using ih (by simpa [Fit] using intact)
  | stay t m ps m₁ qs m₂ _ _ _ ih ih' =>
      obtain ⟨intact, -⟩ := fit _ List.mem_cons_self
      obtain ⟨early, late⟩ := List.forall_mem_append.1 (fit_jobs intact)
      obtain ⟨first, before⟩ := ih early
      obtain ⟨last, after⟩ := ih' late
      exact ⟨.cons (rebuilt intact first last) .nil, before ∘ after⟩
  | refused t m ps m₁ c m₂ qs m₃ _ _ fire _ ih ih' =>
      obtain ⟨intact, -⟩ := fit _ List.mem_cons_self
      obtain ⟨early, late⟩ := List.forall_mem_append.1 (fit_jobs intact)
      obtain ⟨first, before⟩ := ih early
      obtain ⟨last, after⟩ := ih' late
      exact ⟨.cons (rebuilt intact first last) .nil,
        fun gap => before (Meter.gap_before_fire fire (after gap))⟩
  | fired t m ps m₁ c m₂ u m₃ _ some fire _ ih ih' =>
      obtain ⟨intact, -⟩ := fit _ List.mem_cons_self
      obtain ⟨early, late⟩ := List.forall_mem_append.1 (fit_jobs intact)
      obtain ⟨first, before⟩ := ih early
      have same : List.Forall₂ (fun job u => u.Intact ∧ u.isHole = job.2.isHole) t.late
          (t.late.map Prod.snd) := by
        rw [List.forall₂_map_right_iff, List.forall₂_same]
        exact fun job mem => ⟨(late job mem).1, rfl⟩
      obtain ⟨redex, here⟩ := rebuilt intact first same
      have rule := rule_of_contract? some
      have there := rule.isHole_eq
      have contractum := Term.sound_contract rule defs (Term.sound_iff.2 ⟨there, redex⟩)
      rw [there] at here
      rw [← c.around_inner] at contractum
      have inner : c.inner.sound = true := by
        cases c with
        | plain => exact contractum
        | under => exact (Term.sound_dup.1 contractum).2
      obtain ⟨next, after⟩ := ih' (List.forall_mem_singleton.2
        ⟨(Term.sound_iff.1 inner).2, fun _ => (Term.sound_iff.1 inner).1⟩)
      have result : u.sound = true := by
        obtain ⟨result, same⟩ : u.Intact ∧ u.isHole = c.inner.isHole := by simpa using next
        exact Term.sound_iff.2 ⟨same.trans (Term.sound_iff.1 inner).1, result⟩
      have around : (c.around u).sound = true := by
        cases c with
        | plain => exact result
        | under => exact Term.sound_dup.2 ⟨(Term.sound_dup.1 contractum).1, result⟩
      rw [Term.sound_iff] at around
      exact ⟨.cons ⟨around.2, around.1.trans here⟩ .nil,
        fun gap => before (Meter.gap_before_fire fire (after gap))⟩

end BoxCalculus
