import BoxCalculus.Source.Parser

/-!
# The grammar of the written form

`Derivation ar scope lexemes t` is a derivation of the term `t` from some lexemes, by the rules of
the written form. It depends on the scope, the names that are bound around the term, the innermost
first: a name of the scope is a variable and any other name is a reference. Derivations are data, and
not only a relation, so that there can be one or more of them for some lexemes.

The sums that make an index out of `#k` and the scope, and those that putting a local definition in
place takes, are sums of `ar`. The grammar of the written form is the one with exact sums,
`Derivation .exact`; the one with machine words describes a reader whose sums wrap around.

`Splits ar tokens definitions` says that the tokens of a file are those of the definitions, one
after the other.
-/

namespace BoxCalculus.Grammar

/-- The mark of an erased binder or argument. -/
def mark (erased : Bool) : List Lexeme :=
  if erased then [.symbol "-"] else []

/-- The binder with the index is the innermost one of the scope that has the name. -/
def Innermost (scope : List String) (name : String) (index : Nat) : Prop :=
  scope[index]? = some name ∧ name ∉ scope.take index

/-- The digits are a decimal numeral of the number. -/
def Numeral (digits : String) (k : Nat) : Prop :=
  (∀ c ∈ digits.toList, c.isDigit = true) ∧ Nat.ofDigitChars 10 digits.toList 0 = k

mutual

/-- `Derivation ar scope lexemes t` derives the term `t` from the lexemes. -/
inductive Derivation (ar : Arith) : List String → List Lexeme → Term → Type where
  /-- `Type` -/
  | univ {scope} : Derivation ar scope [.word "Type"] .univ
  /-- `#k`, the variable that is `k` binders outside of the scope -/
  | free {scope digits k} (numeral : Numeral digits k) (small : k < 0x8000_0000_0000_0000) :
      Derivation ar scope [.free digits] (.var (ar.add k scope.length))
  /-- a name that is bound -/
  | bound {scope name index} (plain : name ∉ keywords) (innermost : Innermost scope name index) :
      Derivation ar scope [.word name] (.var index)
  /-- a name that is not bound -/
  | reference {scope name} (plain : name ∉ keywords) (free : name ∉ scope) :
      Derivation ar scope [.word name] (.ref name)
  /-- `{x : A} B` and `{-x : A} B` -/
  | pi {scope erased name xs ys dom cod} (plain : name ∉ keywords)
      (first : Derivation ar scope xs dom) (second : Derivation ar (name :: scope) ys cod) :
      Derivation ar scope
        (.symbol "\x7b" :: (mark erased ++ .word name :: .symbol ":" ::
          (xs ++ .symbol "\x7d" :: ys)))
        (.pi erased name dom cod)
  /-- `[x : A] b` and `[-x : A] b` -/
  | lam {scope erased name xs ys dom body} (plain : name ∉ keywords)
      (first : Derivation ar scope xs dom) (second : Derivation ar (name :: scope) ys body) :
      Derivation ar scope
        (.symbol "[" :: (mark erased ++ .word name :: .symbol ":" :: (xs ++ .symbol "]" :: ys)))
        (.lam erased name dom body)
  /-- `[x] b` and `[-x] b` -/
  | bare {scope erased name xs body} (plain : name ∉ keywords)
      (inner : Derivation ar (name :: scope) xs body) :
      Derivation ar scope
        (.symbol "[" :: (mark erased ++ .word name :: .symbol "]" :: xs))
        (.lam erased name .hole body)
  /-- `(f a -b c)`, also without arguments -/
  | spine {scope xs ys fn args} (first : Derivation ar scope xs fn)
      (others : Arguments ar scope ys args) :
      Derivation ar scope (.symbol "(" :: (xs ++ (ys ++ [.symbol ")"]))) (fn.apply args)
  /-- `<x : A> B` and `<-x : A> B` -/
  | sigma {scope erased name xs ys fst snd} (plain : name ∉ keywords)
      (first : Derivation ar scope xs fst) (second : Derivation ar (name :: scope) ys snd) :
      Derivation ar scope
        (.symbol "<" :: (mark erased ++ .word name :: .symbol ":" :: (xs ++ .symbol ">" :: ys)))
        (.sigma erased name fst snd)
  /-- `pair T a b` and `pair- T a b` -/
  | pair {scope erased xs ys zs type fst snd} (first : Derivation ar scope xs type)
      (second : Derivation ar scope ys fst) (third : Derivation ar scope zs snd) :
      Derivation ar scope (.word "pair" :: (mark erased ++ (xs ++ (ys ++ zs))))
        (.pair erased type fst snd)
  /-- `split v as s return P with x y => b` and `split- v as s return P with x y => b` -/
  | split {scope erased name fstName sndName xs ys zs scrutinee motive body}
      (plain : name ∉ keywords) (fst_plain : fstName ∉ keywords) (snd_plain : sndName ∉ keywords)
      (first : Derivation ar scope xs scrutinee) (second : Derivation ar (name :: scope) ys motive)
      (third : Derivation ar (sndName :: fstName :: scope) zs body) :
      Derivation ar scope
        (.word "split" :: (mark erased ++ (xs ++ .word "as" :: .word name :: .word "return" ::
          (ys ++ .word "with" :: .word fstName :: .word sndName :: .symbol "=>" :: zs))))
        (.split erased scrutinee name motive fstName sndName body)
  /-- `data S : M { c : T; d : U }` -/
  | data {scope name xs ys type ctrs} (plain : name ∉ keywords) (nodup : ctrs.labels.Nodup)
      (first : Derivation ar scope xs type) (block : Block ar ":" (name :: scope) ys ctrs) :
      Derivation ar scope
        (.word "data" :: .word name :: .symbol ":" ::
          (xs ++ .symbol "\x7b" :: (ys ++ [.symbol "\x7d"])))
        (.data name type ctrs)
  /-- `.c I` -/
  | ctr {scope name xs type} (plain : name ∉ keywords) (inner : Derivation ar scope xs type) :
      Derivation ar scope (.symbol "." :: .word name :: xs) (.ctr name type)
  /-- `case v of I as s return P { c => f; d => g }` -/
  | caseOf {scope name xs ys zs ws value type motive branches} (plain : name ∉ keywords)
      (first : Derivation ar scope xs value) (second : Derivation ar scope ys type)
      (third : Derivation ar (name :: scope) zs motive) (block : Block ar "=>" scope ws branches) :
      Derivation ar scope
        (.word "case" :: (xs ++ .word "of" :: (ys ++ .word "as" :: .word name :: .word "return" ::
          (zs ++ .symbol "\x7b" :: (ws ++ [.symbol "\x7d"])))))
        (.caseOf type value name motive branches)
  /-- `dup x = v in b` -/
  | dup {scope name xs ys value body} (plain : name ∉ keywords)
      (first : Derivation ar scope xs value) (second : Derivation ar (name :: scope) ys body) :
      Derivation ar scope
        (.word "dup" :: .word name :: .symbol "=" :: (xs ++ .word "in" :: ys))
        (.dup name value body)
  /-- `let x = v in b`, which stands for the body with the value in place of the variable -/
  | letIn {scope name xs ys value body} (plain : name ∉ keywords)
      (first : Derivation ar scope xs value) (second : Derivation ar (name :: scope) ys body) :
      Derivation ar scope
        (.word "let" :: .word name :: .symbol "=" :: (xs ++ .word "in" :: ys))
        (body.subst ar value 0)
  /-- `box v` -/
  | box {scope xs value} (inner : Derivation ar scope xs value) :
      Derivation ar scope (.word "box" :: xs) (.box value)
  /-- `Box T` -/
  | boxType {scope xs type} (inner : Derivation ar scope xs type) :
      Derivation ar scope (.word "Box" :: xs) (.boxType type)

/-- The arguments of a function. -/
inductive Arguments (ar : Arith) : List String → List Lexeme → List (Bool × Term) → Type where
  | nil {scope} : Arguments ar scope [] []
  | cons {scope erased xs ys arg args} (first : Derivation ar scope xs arg)
      (others : Arguments ar scope ys args) :
      Arguments ar scope (mark erased ++ (xs ++ ys)) ((erased, arg) :: args)

/-- The entries of a block, between its braces. The separator stands between the label and the term
of an entry. Entries are divided by `;`, and there may be one after the last. -/
inductive Block (ar : Arith) : (separator : String) → List String → List Lexeme → Entries →
    Type where
  | nil {separator scope} : Block ar separator scope [] .nil
  | last {separator scope label xs term} (plain : label ∉ keywords)
      (first : Derivation ar scope xs term) :
      Block ar separator scope (.word label :: .symbol separator :: xs) (.cons label term .nil)
  | cons {separator scope label xs ys term rest} (plain : label ∉ keywords)
      (first : Derivation ar scope xs term) (others : Block ar separator scope ys rest) :
      Block ar separator scope (.word label :: .symbol separator :: (xs ++ .symbol ";" :: ys))
        (.cons label term rest)

end

/-- The tokens are those of a definition, which stands where its name does. -/
inductive Written (ar : Arith) : List Token → Definition → Prop where
  /-- `name = term` -/
  | plain {name pos tokens xs t} (plain : name ∉ keywords)
      (same : tokens.map Token.lexeme = .symbol "=" :: xs) (inner : Derivation ar [] xs t) :
      Written ar (⟨.word name, pos⟩ :: tokens) ⟨name, none, t, pos⟩
  /-- `name : type = term` -/
  | annotated {name pos tokens xs ys type t} (plain : name ∉ keywords)
      (same : tokens.map Token.lexeme = .symbol ":" :: (xs ++ .symbol "=" :: ys))
      (first : Derivation ar [] xs type) (second : Derivation ar [] ys t) :
      Written ar (⟨.word name, pos⟩ :: tokens) ⟨name, some type, t, pos⟩

/-- The tokens are those of the definitions, one after the other. -/
inductive Splits (ar : Arith) : List Token → List Definition → Prop where
  | nil : Splits ar [] []
  | cons {tokens rest definition definitions} (first : Written ar tokens definition)
      (others : Splits ar rest definitions) :
      Splits ar (tokens ++ rest) (definition :: definitions)

end BoxCalculus.Grammar
