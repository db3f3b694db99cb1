import BoxCalculus.Term.Basic

/-!
# References

The names a term refers to outside its own binders.
-/

namespace BoxCalculus

mutual

/-- The names of the references in a term, in no particular order and as often as they occur. -/
def Term.refs : Term → List String
  | .hole | .univ | .var _ => []
  | .ref name => [name]
  | .pi _ _ dom cod => dom.refs ++ cod.refs
  | .lam _ _ dom body => dom.refs ++ body.refs
  | .app _ fn arg => fn.refs ++ arg.refs
  | .sigma _ _ fst snd => fst.refs ++ snd.refs
  | .pair _ type fst snd => type.refs ++ fst.refs ++ snd.refs
  | .split _ scrutinee _ motive _ _ body => scrutinee.refs ++ motive.refs ++ body.refs
  | .data _ type ctrs => type.refs ++ ctrs.refs
  | .ctr _ type => type.refs
  | .caseOf type value _ motive branches =>
      type.refs ++ value.refs ++ motive.refs ++ branches.refs
  | .dup _ value body => value.refs ++ body.refs
  | .box value => value.refs
  | .boxType type => type.refs

/-- The names of the references in each entry. -/
def Entries.refs : Entries → List String
  | .nil => []
  | .cons _ term rest => term.refs ++ rest.refs

end

/-- The names a term refers to, each once and in the order of their code points. -/
def Term.refNames (t : Term) : List String :=
  (t.refs.mergeSort fun a b => !(b < a)).eraseDups

end BoxCalculus
