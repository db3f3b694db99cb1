import BoxCalculus.Index

/-!
# Terms

The calculus has dependent functions, dependent pairs, inductive declarations with case analysis,
and boxes, whose contents a duplication binds. Variables are de Bruijn indices; a name that no
binder of the term binds is a reference to a definition. Binder names and erasure marks are carried
for printing only.

A term may have gaps: `Term.hole` stands for a term that is not there. The domain of a lambda is a
hole when the lambda is written without one.
-/

namespace BoxCalculus

mutual

/-- A term. In a constructor that binds variables the last arguments are the ones in scope of them:
`pi`, `lam`, `sigma` and `dup` bind one variable in their last argument, `split` binds the scrutinee
in its motive and two components in its body (the first is variable 1, the second variable 0),
`data` binds the declared type in the types of its constructors, and `caseOf` binds the scrutinee in
its motive. -/
inductive Term where
  | hole
  | var (index : Int)
  | univ
  | ref (name : String)
  | pi (erased : Bool) (name : String) (dom cod : Term)
  | lam (erased : Bool) (name : String) (dom body : Term)
  | app (erased : Bool) (fn arg : Term)
  | sigma (erased : Bool) (name : String) (fst snd : Term)
  | pair (erased : Bool) (type fst snd : Term)
  | split (erased : Bool) (scrutinee : Term) (name : String) (motive : Term)
      (fstName sndName : String) (body : Term)
  | data (name : String) (type : Term) (ctrs : Entries)
  | ctr (name : String) (type : Term)
  | caseOf (type value : Term) (name : String) (motive : Term) (branches : Entries)
  | dup (name : String) (value body : Term)
  | box (value : Term)
  | boxType (type : Term)

/-- Labelled terms in order: the constructors of a declaration with their types, or the branches of
a case analysis. -/
inductive Entries where
  | nil
  | cons (label : String) (term : Term) (rest : Entries)

end

deriving instance DecidableEq, Inhabited for Term, Entries

namespace Entries

/-- The entries as a list. -/
def toList : Entries → List (String × Term)
  | nil => []
  | cons label term rest => (label, term) :: rest.toList

/-- The entries of a list. -/
def ofList : List (String × Term) → Entries
  | [] => nil
  | (label, term) :: rest => cons label term (ofList rest)

/-- How many entries there are. -/
def length : Entries → Nat
  | nil => 0
  | cons _ _ rest => rest.length + 1

/-- The labels in order. -/
def labels : Entries → List String
  | nil => []
  | cons label _ rest => label :: rest.labels

/-- The term of the first entry with this label. -/
def find? (wanted : String) : Entries → Option Term
  | nil => none
  | cons label term rest => if label = wanted then some term else rest.find? wanted

/-- Apply a function to each term and keep the labels. -/
def map (f : Term → Term) : Entries → Entries
  | nil => nil
  | cons label term rest => cons label (f term) (rest.map f)

/-- The entries of a list are the list. -/
@[simp] theorem toList_ofList (entries : List (String × Term)) :
    (ofList entries).toList = entries := by
  induction entries with
  | nil => rfl
  | cons entry rest ih => simp [ofList, toList, ih]

/-- The list of entries gives the entries back. -/
@[simp] theorem ofList_toList : ∀ entries : Entries, ofList entries.toList = entries
  | nil => rfl
  | cons label term rest => by simp [toList, ofList, ofList_toList rest]

/-- The list of entries is as long as the entries. -/
@[simp] theorem length_toList : ∀ entries : Entries, entries.toList.length = entries.length
  | nil => rfl
  | cons label term rest => by simp [toList, length, length_toList rest]

/-- The first components of the list are the labels. -/
@[simp] theorem map_fst_toList : ∀ entries : Entries,
    entries.toList.map Prod.fst = entries.labels
  | nil => rfl
  | cons label term rest => by simp [toList, labels, map_fst_toList rest]

/-- Mapping entries maps the terms in the list. -/
@[simp] theorem toList_map (f : Term → Term) : ∀ entries : Entries,
    (entries.map f).toList = entries.toList.map fun entry => (entry.1, f entry.2)
  | nil => rfl
  | cons label term rest => by simp [map, toList, toList_map f rest]

end Entries

namespace Term

/-- Induction on terms, where the hypothesis for labelled terms speaks of each of them. -/
@[elab_as_elim, induction_eliminator]
theorem induct {P : Term → Prop} (hole : P hole) (var : ∀ index, P (var index)) (univ : P univ)
    (ref : ∀ name, P (ref name))
    (pi : ∀ erased name dom cod, P dom → P cod → P (pi erased name dom cod))
    (lam : ∀ erased name dom body, P dom → P body → P (lam erased name dom body))
    (app : ∀ erased fn arg, P fn → P arg → P (app erased fn arg))
    (sigma : ∀ erased name fst snd, P fst → P snd → P (sigma erased name fst snd))
    (pair : ∀ erased type fst snd, P type → P fst → P snd → P (pair erased type fst snd))
    (split : ∀ erased scrutinee name motive fstName sndName body, P scrutinee → P motive →
      P body → P (split erased scrutinee name motive fstName sndName body))
    (data : ∀ name type ctrs, P type → (∀ entry ∈ ctrs.toList, P entry.2) →
      P (data name type ctrs))
    (ctr : ∀ name type, P type → P (ctr name type))
    (caseOf : ∀ type value name motive branches, P type → P value → P motive →
      (∀ entry ∈ branches.toList, P entry.2) → P (caseOf type value name motive branches))
    (dup : ∀ name value body, P value → P body → P (dup name value body))
    (box : ∀ value, P value → P (box value)) (boxType : ∀ type, P type → P (boxType type))
    (t : Term) : P t :=
  @Term.rec P (fun entries => ∀ entry ∈ entries.toList, P entry.2) hole var univ ref pi lam app
    sigma pair split data ctr caseOf dup box boxType (by simp [Entries.toList])
    (fun _ _ _ term rest => List.forall_mem_cons.2 ⟨term, rest⟩) t

/-- Is the term a gap? -/
def isHole : Term → Bool
  | hole => true
  | _ => false

/-- A term is a gap if it is `hole`. -/
@[simp] theorem isHole_iff (t : Term) : t.isHole = true ↔ t = hole := by
  cases t <;> simp [isHole]

/-- The application of a term to arguments, each with its erasure mark. -/
def apply (head : Term) (args : List (Bool × Term)) : Term :=
  args.foldl (fun fn arg => app arg.1 fn arg.2) head

/-- Unwind an application onto arguments collected before. -/
def spineOnto : Term → List (Bool × Term) → Term × List (Bool × Term)
  | app erased fn arg, args => fn.spineOnto ((erased, arg) :: args)
  | head, args => (head, args)

/-- The head of an application chain and its arguments in order. -/
def spine (t : Term) : Term × List (Bool × Term) :=
  t.spineOnto []

/-- What has been taken apart can be put together again. -/
theorem apply_spineOnto (t : Term) (args : List (Bool × Term)) :
    (t.spineOnto args).1.apply (t.spineOnto args).2 = t.apply args := by
  fun_induction spineOnto t args with
  | case1 args erased fn arg ih => simpa [apply] using ih
  | case2 => rfl

/-- Applying the head of a term to its arguments gives the term back. -/
theorem apply_spine (t : Term) : t.spine.1.apply t.spine.2 = t :=
  apply_spineOnto t []

/-- The immediate subterms with the number of variables bound around each, in the order in which
they are visited. -/
def parts : Term → List (Nat × Term)
  | hole | var _ | univ | ref _ => []
  | pi _ _ dom cod => [(0, dom), (1, cod)]
  | lam _ _ dom body => [(0, dom), (1, body)]
  | app _ fn arg => [(0, fn), (0, arg)]
  | sigma _ _ fst snd => [(0, fst), (1, snd)]
  | pair _ type fst snd => [(0, type), (0, fst), (0, snd)]
  | split _ scrutinee _ motive _ _ body => [(0, scrutinee), (1, motive), (2, body)]
  | data _ type ctrs => ctrs.toList.map (fun entry => (1, entry.2)) ++ [(0, type)]
  | ctr _ type => [(0, type)]
  | caseOf type value _ motive branches =>
      [(0, type), (0, value), (1, motive)] ++ branches.toList.map fun entry => (0, entry.2)
  | dup _ value body => [(0, value), (1, body)]
  | box value => [(0, value)]
  | boxType type => [(0, type)]

/-- The parts of a term that are there. Gaps are left out. -/
def children (t : Term) : List (Nat × Term) :=
  t.parts.filter fun child => !child.2.isHole

end Term

end BoxCalculus
