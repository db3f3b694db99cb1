import BoxCalculus.Term.Variables

/-!
# Erasure

Erasure removes what does not matter when a term is run. An erased lambda is dropped and its variable
becomes the universe, an erased application keeps only its function, and the domain of every lambda
is forgotten.
-/

namespace BoxCalculus

mutual

/-- The term without its erased parts. -/
def Term.erase (ar : Arith) : Term → Term
  | .hole => .hole
  | .var index => .var index
  | .univ => .univ
  | .ref name => .ref name
  | .pi erased name dom cod => .pi erased name (dom.erase ar) (cod.erase ar)
  | .lam erased name _ body =>
      if erased then (body.erase ar).subst ar .univ 0 else .lam false name .hole (body.erase ar)
  | .app erased fn arg => if erased then fn.erase ar else .app false (fn.erase ar) (arg.erase ar)
  | .sigma erased name fst snd => .sigma erased name (fst.erase ar) (snd.erase ar)
  | .pair erased type fst snd => .pair erased (type.erase ar) (fst.erase ar) (snd.erase ar)
  | .split erased scrutinee name motive fstName sndName body =>
      .split erased (scrutinee.erase ar) name (motive.erase ar) fstName sndName (body.erase ar)
  | .data name type ctrs => .data name (type.erase ar) (ctrs.erase ar)
  | .ctr name type => .ctr name (type.erase ar)
  | .caseOf type value name motive branches =>
      .caseOf (type.erase ar) (value.erase ar) name (motive.erase ar) (branches.erase ar)
  | .dup name value body => .dup name (value.erase ar) (body.erase ar)
  | .box value => .box (value.erase ar)
  | .boxType type => .boxType (type.erase ar)

/-- The entries without their erased parts. -/
def Entries.erase (ar : Arith) : Entries → Entries
  | .nil => .nil
  | .cons label term rest => .cons label (term.erase ar) (rest.erase ar)

end

mutual

/-- Can the term be erased? It must not be a gap, and neither must the body of a lambda nor the kept
part of an application. Gaps elsewhere stay. -/
def Term.erasable : Term → Bool
  | .hole => false
  | .var _ | .univ | .ref _ => true
  | .lam _ _ _ body => body.erasable
  | .app erased fn arg => fn.erasable && (erased || arg.erasable)
  | .pi _ _ dom cod => (dom.isHole || dom.erasable) && (cod.isHole || cod.erasable)
  | .sigma _ _ fst snd => (fst.isHole || fst.erasable) && (snd.isHole || snd.erasable)
  | .pair _ type fst snd =>
      (type.isHole || type.erasable) && (fst.isHole || fst.erasable) &&
        (snd.isHole || snd.erasable)
  | .split _ scrutinee _ motive _ _ body =>
      (scrutinee.isHole || scrutinee.erasable) && (motive.isHole || motive.erasable) &&
        (body.isHole || body.erasable)
  | .data _ type ctrs => (type.isHole || type.erasable) && ctrs.erasable
  | .ctr _ type => type.isHole || type.erasable
  | .caseOf type value _ motive branches =>
      (type.isHole || type.erasable) && (value.isHole || value.erasable) &&
        (motive.isHole || motive.erasable) && branches.erasable
  | .dup _ value body => (value.isHole || value.erasable) && (body.isHole || body.erasable)
  | .box value => value.isHole || value.erasable
  | .boxType type => type.isHole || type.erasable

/-- Can each entry be erased, where it is not a gap? -/
def Entries.erasable : Entries → Bool
  | .nil => true
  | .cons _ term rest => (term.isHole || term.erasable) && rest.erasable

end

/-- The term without its erased parts, if it can be erased. -/
def Term.erase? (ar : Arith) (t : Term) : Option Term :=
  if t.erasable then some (t.erase ar) else none

end BoxCalculus
