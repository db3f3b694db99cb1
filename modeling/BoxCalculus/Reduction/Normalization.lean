import BoxCalculus.Reduction.Meter
import BoxCalculus.Reduction.Rules

/-!
# Normalization

A term is reduced from the inside out: first its parts, then the rule that applies to the result,
and then what that rule gives. When the meter refuses a step the rest of the term is only rebuilt,
so a run that stops early returns a partly reduced term.

`Term.reduceWith` goes through one term and leaves what a rule gives to its argument `again`;
`reduceUpTo` ties the knot for at most as many rounds as it is given. A round starts only after a
step, so as many rounds as the meter has steps are enough.
-/

namespace BoxCalculus

/-- Go on with the right-hand side of a rule. -/
def Contractum.resume (again : Term → Meter → Term × Meter) :
    Contractum → Meter → Term × Meter
  | plain t, m => again t m
  | under name value body, m =>
      let (body, m) := again body m
      (.dup name value body, m)

/-- Apply the rule for a term whose parts are reduced, if there is one and the meter grants it. -/
def Term.contractWith (ar : Arith) (env : Env) (again : Term → Meter → Term × Meter) (t : Term)
    (m : Meter) : Term × Meter :=
  match t.contract? ar env with
  | none => (t, m)
  | some contractum =>
      match m.fire with
      | (true, m) => contractum.resume again m
      | (false, m) => (t, m)

mutual

/-- Reduce the parts of a term and then the term itself. -/
def Term.reduceWith (ar : Arith) (env : Env) (again : Term → Meter → Term × Meter) :
    Term → Meter → Term × Meter
  | .hole, m => (.hole, m)
  | .var index, m => (.var index, m)
  | .univ, m => (.univ, m)
  | .ref name, m => (Term.ref name).contractWith ar env again m
  | .pi erased name dom cod, m =>
      let (dom, m) := dom.reduceWith ar env again m
      let (cod, m) := cod.reduceWith ar env again m
      (.pi erased name dom cod, m)
  | .lam erased name dom body, m =>
      let (dom, m) := dom.reduceWith ar env again m
      let (body, m) := body.reduceWith ar env again m
      (.lam erased name dom body, m)
  | .app erased fn arg, m =>
      let (fn, m) := fn.reduceWith ar env again (m.need fn)
      let (arg, m) := arg.reduceWith ar env again (m.need arg)
      (Term.app erased fn arg).contractWith ar env again m
  | .sigma erased name fst snd, m =>
      let (fst, m) := fst.reduceWith ar env again m
      let (snd, m) := snd.reduceWith ar env again m
      (.sigma erased name fst snd, m)
  | .pair erased type fst snd, m =>
      let (type, m) := type.reduceWith ar env again m
      let (fst, m) := fst.reduceWith ar env again m
      let (snd, m) := snd.reduceWith ar env again m
      (.pair erased type fst snd, m)
  | .split erased scrutinee name motive fstName sndName body, m =>
      let (scrutinee, m) := scrutinee.reduceWith ar env again m
      let (motive, m) := motive.reduceWith ar env again m
      let (body, m) := body.reduceWith ar env again m
      (Term.split erased scrutinee name motive fstName sndName body).contractWith ar env again m
  | .data name type ctrs, m =>
      let (ctrs, m) := ctrs.reduceWith ar env again m
      let (type, m) := type.reduceWith ar env again m
      (.data name type ctrs, m)
  | .ctr name type, m =>
      let (type, m) := type.reduceWith ar env again m
      (.ctr name type, m)
  | .caseOf type value name motive branches, m =>
      let (type, m) := type.reduceWith ar env again m
      let (value, m) := value.reduceWith ar env again m
      let (motive, m) := motive.reduceWith ar env again m
      let (branches, m) := branches.reduceWith ar env again m
      (Term.caseOf type value name motive branches).contractWith ar env again m
  | .dup name value body, m =>
      let (value, m) := value.reduceWith ar env again (m.need value)
      -- The body is reduced only if the duplication stays where it is.
      let stay := fun (m : Meter) =>
        let (body, m) := body.reduceWith ar env again (m.need body)
        (Term.dup name value body, m)
      match (Term.dup name value body).contract? ar env with
      | none => stay m
      | some contractum =>
          match m.fire with
          | (true, m) => contractum.resume again m
          | (false, m) => stay m
  | .box value, m =>
      let (value, m) := value.reduceWith ar env again m
      (.box value, m)
  | .boxType type, m =>
      let (type, m) := type.reduceWith ar env again m
      (.boxType type, m)

/-- Reduce each entry in order. -/
def Entries.reduceWith (ar : Arith) (env : Env) (again : Term → Meter → Term × Meter) :
    Entries → Meter → Entries × Meter
  | .nil, m => (.nil, m)
  | .cons label term rest, m =>
      let (term, m) := term.reduceWith ar env again m
      let (rest, m) := rest.reduceWith ar env again m
      (.cons label term rest, m)

end

/-- Reduce a term in at most `rounds + 1` rounds, where a round goes through a term that a rule has
given. There has to be a term to start a round with. -/
def reduceUpTo (ar : Arith) (env : Env) : (rounds : Nat) → Term → Meter → Term × Meter
  | 0, t, m => t.reduceWith ar env (fun t m => (t, m)) (m.need t)
  | rounds + 1, t, m => t.reduceWith ar env (reduceUpTo ar env rounds) (m.need t)

/-- Reduce a term as far as the meter grants steps. -/
def reduce (ar : Arith) (env : Env) (t : Term) (m : Meter) : Term × Meter :=
  reduceUpTo ar env m.remaining t m

mutual

/-- The first case analysis in a term whose scrutinee is closed, or missing. -/
def Term.firstStuck : Term → Option Term
  | .hole | .var _ | .univ | .ref _ => none
  | .pi _ _ dom cod => dom.firstStuck <|> cod.firstStuck
  | .lam _ _ dom body => dom.firstStuck <|> body.firstStuck
  | .app _ fn arg => fn.firstStuck <|> arg.firstStuck
  | .sigma _ _ fst snd => fst.firstStuck <|> snd.firstStuck
  | .pair _ type fst snd => type.firstStuck <|> fst.firstStuck <|> snd.firstStuck
  | .split _ scrutinee _ motive _ _ body =>
      scrutinee.firstStuck <|> motive.firstStuck <|> body.firstStuck
  | .data _ type ctrs => ctrs.firstStuck <|> type.firstStuck
  | .ctr _ type => type.firstStuck
  | .caseOf type value name motive branches =>
      if value.closed then some (.caseOf type value name motive branches)
      else type.firstStuck <|> value.firstStuck <|> motive.firstStuck <|> branches.firstStuck
  | .dup _ value body => value.firstStuck <|> body.firstStuck
  | .box value => value.firstStuck
  | .boxType type => type.firstStuck

/-- The first such case analysis in some entries. -/
def Entries.firstStuck : Entries → Option Term
  | .nil => none
  | .cons _ term rest => term.firstStuck <|> rest.firstStuck

end

/-- Is the term a case analysis without a scrutinee? -/
def Term.lacksScrutinee : Term → Bool
  | .caseOf _ value _ _ _ => value.isHole
  | _ => false

end BoxCalculus
