import BoxCalculus.Term.Basic

/-!
# Equality up to cosmetics

Terms are compared by their shape. The names of bound variables and the erasure marks do not count;
the names of references and constructors, the labels of entries and their order do.
-/

namespace BoxCalculus

mutual

/-- Do the terms have the same shape? -/
def Term.equal : Term → Term → Bool
  | .hole, .hole | .univ, .univ => true
  | .var i, .var j => i == j
  | .ref m, .ref n => m == n
  | .pi _ _ dom cod, .pi _ _ dom' cod' => dom.equal dom' && cod.equal cod'
  | .lam _ _ dom body, .lam _ _ dom' body' => dom.equal dom' && body.equal body'
  | .app _ fn arg, .app _ fn' arg' => fn.equal fn' && arg.equal arg'
  | .sigma _ _ fst snd, .sigma _ _ fst' snd' => fst.equal fst' && snd.equal snd'
  | .pair _ type fst snd, .pair _ type' fst' snd' =>
      type.equal type' && fst.equal fst' && snd.equal snd'
  | .split _ scrutinee _ motive _ _ body, .split _ scrutinee' _ motive' _ _ body' =>
      scrutinee.equal scrutinee' && motive.equal motive' && body.equal body'
  | .data _ type ctrs, .data _ type' ctrs' => type.equal type' && ctrs.equal ctrs'
  | .ctr name type, .ctr name' type' => name == name' && type.equal type'
  | .caseOf type value _ motive branches, .caseOf type' value' _ motive' branches' =>
      type.equal type' && value.equal value' && motive.equal motive' && branches.equal branches'
  | .dup _ value body, .dup _ value' body' => value.equal value' && body.equal body'
  | .box value, .box value' => value.equal value'
  | .boxType type, .boxType type' => type.equal type'
  | _, _ => false

/-- Do the entries have the same labels in the same order, with terms of the same shape? -/
def Entries.equal : Entries → Entries → Bool
  | .nil, .nil => true
  | .cons label term rest, .cons label' term' rest' =>
      label == label' && term.equal term' && rest.equal rest'
  | _, _ => false

end

end BoxCalculus
