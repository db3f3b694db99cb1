import BoxCalculus.Proofs.RoundTrip.Tokens
import BoxCalculus.Proofs.Shape
import Mathlib.Algebra.Group.Int.Defs
import Mathlib.Algebra.Group.Nat.Defs

/-!
# The tokens of written terms

`Term.pieces` writes a term token by token. It is the written form of the term (`chars_pieces`), and
it is legible (`legible_pieces`).
-/

namespace BoxCalculus

/-- The mark of an erased binder or argument, as a token. -/
def markPieces (erased : Bool) : List Piece :=
  if erased then [.symbol "-"] else []

mutual

/-- The written form of a term in a scope, token by token. -/
def Term.pieces (avoid : List String) : Term → (scope : List String) → (inSpine : Bool) → List Piece
  | .hole, _, _ => []
  | .var index, scope, _ =>
      match if 0 ≤ index then scope[index.toNat]? else none with
      | some name => [.word name]
      | none => [.free (index - scope.length).toNat]
  | .univ, _, _ => [.word "Type"]
  | .ref name, _, _ => [.word name]
  | .pi erased name dom cod, scope, _ =>
      let name := freshName avoid scope name
      .symbol "\x7b" :: (markPieces erased ++ .word name :: .blank :: .symbol ":" :: .blank ::
        (dom.pieces avoid scope false ++ .symbol "\x7d" :: .blank ::
          cod.pieces avoid (name :: scope) false))
  | .lam erased name dom body, scope, _ =>
      let name := freshName avoid scope name
      let dom := if dom.isHole then []
        else .blank :: .symbol ":" :: .blank :: dom.pieces avoid scope false
      .symbol "[" :: (markPieces erased ++ .word name :: (dom ++ .symbol "]" :: .blank ::
        body.pieces avoid (name :: scope) false))
  | .app erased fn arg, scope, inSpine =>
      let spine := fn.pieces avoid scope true ++ .blank ::
        (markPieces erased ++ arg.pieces avoid scope false)
      if inSpine then spine else .symbol "(" :: (spine ++ [.symbol ")"])
  | .sigma erased name fst snd, scope, _ =>
      let name := freshName avoid scope name
      .symbol "<" :: (markPieces erased ++ .word name :: .blank :: .symbol ":" :: .blank ::
        (fst.pieces avoid scope false ++ .symbol ">" :: .blank ::
          snd.pieces avoid (name :: scope) false))
  | .pair erased type fst snd, scope, _ =>
      .word "pair" :: (markPieces erased ++ .blank :: (type.pieces avoid scope false ++ .blank ::
        (fst.pieces avoid scope false ++ .blank :: snd.pieces avoid scope false)))
  | .split erased scrutinee name motive fstName sndName body, scope, _ =>
      let name := freshName avoid scope name
      let fstName := freshName avoid scope fstName
      let sndName := freshName avoid (fstName :: scope) sndName
      .word "split" :: (markPieces erased ++ .blank :: (scrutinee.pieces avoid scope false ++
        .blank :: .word "as" :: .blank :: .word name :: .blank :: .word "return" :: .blank ::
        (motive.pieces avoid (name :: scope) false ++ .blank :: .word "with" :: .blank ::
          .word fstName :: .blank :: .word sndName :: .blank :: .symbol "=>" :: .blank ::
          body.pieces avoid (sndName :: fstName :: scope) false)))
  | .data name type ctrs, scope, _ =>
      let name := freshName avoid scope name
      .word "data" :: .blank :: .word name :: .blank :: .symbol ":" :: .blank ::
        (type.pieces avoid scope false ++ .blank :: .symbol "\x7b" ::
          ctrs.pieces avoid ":" (name :: scope))
  | .ctr name type, scope, _ =>
      .symbol "." :: .word name :: .blank :: type.pieces avoid scope false
  | .caseOf type value name motive branches, scope, _ =>
      let name := freshName avoid scope name
      .word "case" :: .blank :: (value.pieces avoid scope false ++ .blank :: .word "of" :: .blank ::
        (type.pieces avoid scope false ++ .blank :: .word "as" :: .blank :: .word name :: .blank ::
          .word "return" :: .blank :: (motive.pieces avoid (name :: scope) false ++ .blank ::
            .symbol "\x7b" :: branches.pieces avoid "=>" scope)))
  | .dup name value body, scope, _ =>
      let name := freshName avoid scope name
      .word "dup" :: .blank :: .word name :: .blank :: .symbol "=" :: .blank ::
        (value.pieces avoid scope false ++ .blank :: .word "in" :: .blank ::
          body.pieces avoid (name :: scope) false)
  | .box value, scope, _ => .word "box" :: .blank :: value.pieces avoid scope false
  | .boxType type, scope, _ => .word "Box" :: .blank :: type.pieces avoid scope false

/-- The written forms of entries up to the closing brace, token by token. -/
def Entries.pieces (avoid : List String) (separator : String) :
    Entries → (scope : List String) → List Piece
  | .nil, _ => [.symbol "\x7d"]
  | .cons label term rest, scope =>
      .blank :: .word label :: .blank :: .symbol separator :: .blank ::
        (term.pieces avoid scope false ++
          if rest.labels.isEmpty then [.blank, .symbol "\x7d"]
          else .symbol ";" :: rest.pieces avoid separator scope)

end

/-- The variable of the term is an index. -/
def Term.indexed : Term → Bool
  | .var index => 0 ≤ index && index < 2 ^ 63
  | _ => true

/-- The names of the term can be written, and the constructors it declares have names of their
own. -/
def Term.named : Term → Bool
  | .ref name | .ctr name _ => isName name
  | .data _ _ ctrs => ctrs.labels.all isName && decide ctrs.labels.Nodup
  | .caseOf _ _ _ _ branches => branches.labels.all isName
  | _ => true

/-- The term is there, and it can be written and read back. -/
inductive Writable : Term → Prop
  | var (index : Nat) : index < 2 ^ 63 → Writable (.var index)
  | univ : Writable .univ
  | ref (name : String) : isName name = true → Writable (.ref name)
  | pi (erased : Bool) (name : String) (dom cod : Term) : Writable dom → Writable cod →
      Writable (.pi erased name dom cod)
  | bare (erased : Bool) (name : String) (body : Term) : Writable body →
      Writable (.lam erased name .hole body)
  | lam (erased : Bool) (name : String) (dom body : Term) : Writable dom → Writable body →
      Writable (.lam erased name dom body)
  | app (erased : Bool) (fn arg : Term) : Writable fn → Writable arg → Writable (.app erased fn arg)
  | sigma (erased : Bool) (name : String) (fst snd : Term) : Writable fst → Writable snd →
      Writable (.sigma erased name fst snd)
  | pair (erased : Bool) (type fst snd : Term) : Writable type → Writable fst → Writable snd →
      Writable (.pair erased type fst snd)
  | split (erased : Bool) (scrutinee : Term) (name : String) (motive : Term)
      (fstName sndName : String) (body : Term) : Writable scrutinee → Writable motive →
      Writable body → Writable (.split erased scrutinee name motive fstName sndName body)
  | data (name : String) (type : Term) (ctrs : Entries) :
      (∀ label ∈ ctrs.labels, isName label = true) → ctrs.labels.Nodup → Writable type →
      (∀ entry ∈ ctrs.toList, Writable entry.2) → Writable (.data name type ctrs)
  | ctr (name : String) (type : Term) : isName name = true → Writable type →
      Writable (.ctr name type)
  | caseOf (type value : Term) (name : String) (motive : Term) (branches : Entries) :
      (∀ label ∈ branches.labels, isName label = true) → Writable type → Writable value →
      Writable motive → (∀ entry ∈ branches.toList, Writable entry.2) →
      Writable (.caseOf type value name motive branches)
  | dup (name : String) (value body : Term) : Writable value → Writable body →
      Writable (.dup name value body)
  | box (value : Term) : Writable value → Writable (.box value)
  | boxType (type : Term) : Writable type → Writable (.boxType type)

/-- A term that can be written is there. -/
theorem Writable.isHole_eq {t : Term} (writable : Writable t) : t.isHole = false := by
  cases writable <;> rfl

/-- A term of which at most domains of lambdas are missing can be written if its variables are
indices and its names can be written. -/
theorem writable_of_sound {t : Term} (sound : t.sound = true)
    (indexed : t.everywhere Term.indexed = true) (named : t.everywhere Term.named = true) :
    Writable t := by
  rw [Term.sound, Bool.and_eq_true, Bool.not_eq_true'] at sound
  obtain ⟨there, sound⟩ := sound
  induction t using Term.byParts with
  | _ t ih =>
  have each (part : Nat × Term) (mem : part ∈ t.parts) (there : part.2.isHole = false) :
      Writable part.2 :=
    ih part mem ((Term.everywhere_iff.1 indexed).2 part mem) ((Term.everywhere_iff.1 named).2 part mem)
      there ((Term.everywhere_iff.1 sound).2 part mem)
  replace indexed := (Term.everywhere_iff.1 indexed).1
  replace named := (Term.everywhere_iff.1 named).1
  replace sound := (Term.everywhere_iff.1 sound).1
  clear ih
  cases t with
  | hole => cases there
  | var index =>
      simp only [Term.indexed, Bool.and_eq_true, decide_eq_true_eq] at indexed
      obtain ⟨index, rfl⟩ := Int.eq_ofNat_of_zero_le indexed.1
      exact .var index (by omega)
  | lam erased name dom body =>
      simp only [Term.parts, List.forall_mem_cons, Term.partsThere, Bool.not_eq_true'] at each sound
      cases missing : dom.isHole with
      | true =>
          rw [Term.isHole_iff] at missing
          exact missing ▸ .bare erased name body (each.2.1 sound)
      | false => exact .lam erased name dom body (each.1 missing) (each.2.1 sound)
  | data name type ctrs =>
      simp only [Term.partsThere, Term.named, Term.parts, List.all_eq_true, List.forall_mem_append,
        List.forall_mem_singleton, List.forall_mem_map, Bool.and_eq_true, decide_eq_true_eq,
        Bool.not_eq_true'] at sound named each
      exact .data name type ctrs named.1 named.2 (each.2 sound.2) fun entry mem =>
        each.1 entry mem (sound.1 entry mem)
  | caseOf type value name motive branches =>
      simp only [Term.partsThere, Term.named, Term.parts, List.all_eq_true, List.forall_mem_cons,
        List.forall_mem_append, List.forall_mem_map, Bool.not_eq_true'] at sound named each
      exact .caseOf type value name motive branches named (each.1.1 sound.1.1)
        (each.1.2.1 sound.1.2.1) (each.1.2.2.1 sound.1.2.2.1) fun entry mem =>
          each.2 entry mem (sound.2 entry mem)
  | _ =>
      simp only [Term.partsThere, Term.named, Term.parts, List.all_eq_true, List.forall_mem_cons,
        Bool.not_eq_true'] at sound named each
      constructor <;> simp_all

/-- No pieces have no characters. -/
@[simp] theorem charsOf_nil : charsOf [] = [] := rfl

/-- The characters of the first piece come first. -/
@[simp] theorem charsOf_cons (piece : Piece) (rest : List Piece) :
    charsOf (piece :: rest) = piece.chars ++ charsOf rest := rfl

/-- The characters of two lists come one after the other. -/
@[simp] theorem charsOf_append (first second : List Piece) :
    charsOf (first ++ second) = charsOf first ++ charsOf second :=
  List.flatMap_append

/-- The mark of erasure is written as its characters. -/
@[simp] theorem charsOf_markPieces (erased : Bool) :
    charsOf (markPieces erased) = (erasureMark erased).toList := by
  cases erased <;> simp [markPieces, erasureMark, Piece.chars]

/-- Entries that are written one by one are written as a block. -/
theorem Entries.chars_pieces {avoid : List String} {scope : List String} (separator : String) :
    ∀ {entries : Entries},
    (∀ entry ∈ entries.toList, (entry.2.text avoid scope false).toList =
      charsOf (entry.2.pieces avoid scope false)) →
    (blockText (entries.texts avoid (" " ++ separator ++ " ") scope)).toList =
      '\x7b' :: charsOf (entries.pieces avoid separator scope)
  | .nil, _ => by simp [blockText, Entries.texts, Entries.pieces, Piece.chars]
  | .cons label term .nil, each => by
      simp only [Entries.toList, List.mem_singleton, forall_eq] at each
      simp [blockText, Entries.texts, Entries.pieces, Entries.labels, Piece.chars, each]
  | .cons label term (.cons next second rest), each => by
      have more := chars_pieces separator fun entry mem =>
        each entry (List.mem_cons_of_mem _ mem)
      have first := each (label, term) List.mem_cons_self
      rw [Entries.pieces]
      simpa [blockText, Entries.texts, Entries.labels, Piece.chars, first] using more

/-- The tokens of a term make up its written form. -/
theorem chars_pieces (avoid : List String) {t : Term} (writable : Writable t) (scope : List String)
    (inSpine : Bool) :
    (t.text avoid scope inSpine).toList = charsOf (t.pieces avoid scope inSpine) := by
  induction writable generalizing scope inSpine with
  | var index =>
      rw [Term.text.eq_def, Term.pieces]
      simp only [Int.natCast_nonneg, if_true, Int.toNat_natCast]
      cases bound : scope[index]? with
      | some name => simp [Piece.chars]
      | none =>
          have free : (index : Int) - scope.length = (index - scope.length : Nat) := by
            have := List.getElem?_eq_none_iff.1 bound
            omega
          have written (n : Nat) : toString (n : Int) = toString n := rfl
          rw [free, written]
          simp [Piece.chars]
  | univ => simp [Term.text.eq_def _ .univ, Term.pieces, Piece.chars]
  | ref name => simp [Term.text.eq_def _ (.ref name), Term.pieces, Piece.chars]
  | pi erased name dom cod _ _ dom_ih cod_ih =>
      simp [Term.text.eq_def _ (.pi ..), Term.pieces, Piece.chars, dom_ih, cod_ih]
  | bare erased name body _ body_ih =>
      simp [Term.text.eq_def _ (.lam ..), Term.pieces, Term.isHole, Piece.chars, body_ih]
  | lam erased name dom body there _ dom_ih body_ih =>
      simp [Term.text.eq_def _ (.lam ..), Term.pieces, there.isHole_eq, Piece.chars, dom_ih, body_ih]
  | app erased fn arg _ _ fn_ih arg_ih =>
      cases inSpine <;>
        simp [Term.text.eq_def _ (.app ..), Term.pieces, Piece.chars, fn_ih, arg_ih]
  | sigma erased name fst snd _ _ fst_ih snd_ih =>
      simp [Term.text.eq_def _ (.sigma ..), Term.pieces, Piece.chars, fst_ih, snd_ih]
  | pair erased type fst snd _ _ _ type_ih fst_ih snd_ih =>
      simp [Term.text.eq_def _ (.pair ..), Term.pieces, Piece.chars, type_ih, fst_ih, snd_ih]
  | split erased scrutinee name motive fstName sndName body _ _ _ scrutinee_ih motive_ih body_ih =>
      simp [Term.text.eq_def _ (.split ..), Term.pieces, Piece.chars, scrutinee_ih, motive_ih,
        body_ih]
  | data name type ctrs _ _ _ _ type_ih ctrs_ih =>
      have block (scope : List String) := Entries.chars_pieces ":" fun entry mem =>
        ctrs_ih entry mem scope false
      simpa [Term.text.eq_def _ (.data ..), Term.pieces, Piece.chars, type_ih] using block _
  | ctr name type _ _ ih =>
      simp [Term.text.eq_def _ (.ctr ..), Term.pieces, Piece.chars, ih]
  | caseOf type value name motive branches _ _ _ _ _ type_ih value_ih motive_ih branches_ih =>
      have block := Entries.chars_pieces "=>" fun entry mem => branches_ih entry mem scope false
      simpa [Term.text.eq_def _ (.caseOf ..), Term.pieces, Piece.chars, type_ih, value_ih,
        motive_ih] using block
  | dup name value body _ _ value_ih body_ih =>
      simp [Term.text.eq_def _ (.dup ..), Term.pieces, Piece.chars, value_ih, body_ih]
  | box value _ ih => simp [Term.text.eq_def _ (.box ..), Term.pieces, Piece.chars, ih]
  | boxType type _ ih => simp [Term.text.eq_def _ (.boxType ..), Term.pieces, Piece.chars, ih]

/-- The pieces are legible, and a word may stand right before them. -/
def Clear (pieces : List Piece) : Prop :=
  Legible pieces ∧ ∀ next ∈ pieces.head?, (Piece.word "").touches next = false

/-- A word is legible if it is one and what follows is clear of it. -/
@[simp] theorem legible_word {text : String} {rest : List Piece} :
    Legible (.word text :: rest) ↔ isWord text = true ∧ Clear rest := by
  have same (next : Piece) : (Piece.word text).touches next = (Piece.word "").touches next := by
    cases next <;> rfl
  simp only [Legible, Clear, Piece.valid, same]
  exact and_congr_right fun _ => and_comm

/-- A free variable is legible if what follows is clear of it. -/
@[simp] theorem legible_free {index : Nat} {rest : List Piece} :
    Legible (.free index :: rest) ↔ Clear rest := by
  have same (next : Piece) : (Piece.free index).touches next = (Piece.word "").touches next := by
    cases next <;> rfl
  simp only [Legible, Clear, Piece.valid, same, true_and]
  exact and_comm

/-- A blank does not touch anything. -/
@[simp] theorem legible_blank {rest : List Piece} : Legible (.blank :: rest) ↔ Legible rest := by
  simp [Legible, Piece.valid, Piece.touches]

/-- A symbol is legible if it is one and does not become an arrow. -/
@[simp] theorem legible_symbol {text : String} {rest : List Piece} :
    Legible (.symbol text :: rest) ↔
      text ∈ Piece.symbols ∧ (text = "=" → rest.head? ≠ some (.symbol ">")) ∧ Legible rest := by
  have apart : (∀ next ∈ rest.head?, (Piece.symbol text).touches next = false) ↔
      (text = "=" → rest.head? ≠ some (.symbol ">")) := by
    cases rest with
    | nil => simp
    | cons next rest => cases next <;> simp [Piece.touches]
  rw [Legible, apart]
  simp [Piece.valid]

/-- The end is clear. -/
@[simp] theorem clear_nil : Clear [] := by
  simp [Clear, Legible]

/-- A blank is clear of what stands before it. -/
@[simp] theorem clear_blank {rest : List Piece} : Clear (.blank :: rest) ↔ Legible rest := by
  simp [Clear, Piece.touches]

/-- A symbol is clear of what stands before it. -/
@[simp] theorem clear_symbol {text : String} {rest : List Piece} :
    Clear (.symbol text :: rest) ↔ Legible (.symbol text :: rest) := by
  simp [Clear, Piece.touches]

/-- A mark is legible before what is. -/
@[simp] theorem legible_markPieces {erased : Bool} {rest : List Piece} :
    Legible (markPieces erased ++ rest) ↔ Legible rest := by
  cases erased <;> simp [markPieces, Piece.symbols]

/-- A mark, or a blank without one, is clear of what stands before it. -/
@[simp] theorem clear_markPieces {erased : Bool} {rest : List Piece} :
    Clear (markPieces erased ++ .blank :: rest) ↔ Legible rest := by
  cases erased <;> simp [markPieces, Piece.symbols]

/-- A name is a word. -/
theorem isWord_of_isName {name : String} (named : isName name = true) : isWord name = true :=
  (Bool.and_eq_true_iff.1 named).1

/-- A fresh name is a word. -/
@[simp] theorem isWord_freshName (avoid scope : List String) (name : String) :
    isWord (freshName avoid scope name) = true :=
  isWord_of_isName (freshName_spec avoid scope name).1

/-- With a fresh name the scope still has words only. -/
theorem words_cons {avoid scope : List String} (bound : ∀ name ∈ scope, isWord name = true)
    (name : String) : ∀ other ∈ freshName avoid scope name :: scope, isWord other = true :=
  List.forall_mem_cons.2 ⟨isWord_freshName avoid scope name, bound⟩

/-- Entries are legible if their terms are. -/
theorem Entries.legible_pieces {avoid scope : List String} {separator : String}
    (valid : separator ∈ Piece.symbols) {rest : List Piece} (legible : Legible rest) :
    ∀ {entries : Entries}, (∀ label ∈ entries.labels, isName label = true) →
    (∀ entry ∈ entries.toList, ∀ {rest : List Piece}, Clear rest →
      Legible (entry.2.pieces avoid scope false ++ rest)) →
    Legible (entries.pieces avoid separator scope ++ rest)
  | .nil, _, _ => by simp [Entries.pieces, Piece.symbols, legible]
  | .cons label term .nil, names, each => by
      simp only [Entries.toList, Entries.labels, List.forall_mem_singleton] at names each
      have symbol : "\x7d" ∈ Piece.symbols := by decide
      simp [Entries.pieces, Entries.labels, isWord_of_isName names, valid, each, symbol, legible]
  | .cons label term (.cons next second more), names, each => by
      simp only [Entries.toList, Entries.labels] at names each
      rw [List.forall_mem_cons] at names each
      have tail : Legible ((Entries.cons next second more).pieces avoid separator scope ++ rest) :=
        Entries.legible_pieces valid legible names.2 each.2
      have symbol : ";" ∈ Piece.symbols := by decide
      rw [Entries.pieces]
      simp [Entries.labels, isWord_of_isName names.1, valid, each.1, symbol, tail]

/-- A term that can be written is legible. -/
theorem legible_pieces (avoid : List String) {t : Term} (writable : Writable t)
    {scope : List String} (bound : ∀ name ∈ scope, isWord name = true) (inSpine : Bool)
    {rest : List Piece} (clear : Clear rest) : Legible (t.pieces avoid scope inSpine ++ rest) := by
  have words : isWord "Type" = true ∧ isWord "pair" = true ∧ isWord "split" = true ∧
      isWord "as" = true ∧ isWord "return" = true ∧ isWord "with" = true ∧ isWord "data" = true ∧
      isWord "case" = true ∧ isWord "of" = true ∧ isWord "dup" = true ∧ isWord "in" = true ∧
      isWord "box" = true ∧ isWord "Box" = true := by
    decide +kernel
  induction writable generalizing scope inSpine rest with
  | var index =>
      rw [Term.pieces]
      split
      next name found =>
        simp only [Int.natCast_nonneg, if_true, Int.toNat_natCast] at found
        simp [bound name (List.mem_of_getElem? found), clear]
      next => simp [clear]
  | univ => simp [Term.pieces, words, clear]
  | ref name named => simp [Term.pieces, isWord_of_isName named, clear]
  | pi erased name dom cod _ _ dom_ih cod_ih =>
      simp [Term.pieces, Piece.symbols, dom_ih bound, cod_ih (words_cons bound _), clear]
  | bare erased name body _ body_ih =>
      simp [Term.pieces, Piece.symbols, Term.isHole, body_ih (words_cons bound _), clear]
  | lam erased name dom body there _ dom_ih body_ih =>
      simp [Term.pieces, Piece.symbols, there.isHole_eq, dom_ih bound,
        body_ih (words_cons bound _), clear]
  | app erased fn arg _ _ fn_ih arg_ih =>
      cases inSpine <;>
        simp [Term.pieces, Piece.symbols, fn_ih bound, arg_ih bound, clear, clear.1]
  | sigma erased name fst snd _ _ fst_ih snd_ih =>
      simp [Term.pieces, Piece.symbols, fst_ih bound, snd_ih (words_cons bound _), clear]
  | pair erased type fst snd _ _ _ type_ih fst_ih snd_ih =>
      simp only [Term.pieces, List.cons_append, List.append_assoc, legible_word, words, true_and,
        clear_markPieces]
      refine type_ih bound false ?_
      simp [fst_ih bound, snd_ih bound, clear]
  | split erased scrutinee name motive fstName sndName body _ _ _ scrutinee_ih motive_ih body_ih =>
      simp only [Term.pieces, List.cons_append, List.append_assoc, legible_word, words, true_and,
        clear_markPieces]
      refine scrutinee_ih bound false ?_
      simp [Piece.symbols, words, motive_ih (words_cons bound _),
        body_ih (words_cons (words_cons bound _) _), clear]
  | data name type ctrs names _ _ _ type_ih ctrs_ih =>
      have block : Legible (ctrs.pieces avoid ":" (freshName avoid scope name :: scope) ++ rest) :=
        Entries.legible_pieces (by decide) clear.1 names fun entry mem _ clear =>
          ctrs_ih entry mem (words_cons bound _) false clear
      simp [Term.pieces, Piece.symbols, words, type_ih bound, block]
  | ctr name type named _ ih =>
      simp [Term.pieces, Piece.symbols, isWord_of_isName named, ih bound, clear]
  | caseOf type value name motive branches names _ _ _ _ type_ih value_ih motive_ih branches_ih =>
      have block : Legible (branches.pieces avoid "=>" scope ++ rest) :=
        Entries.legible_pieces (by decide) clear.1 names fun entry mem _ clear =>
          branches_ih entry mem bound false clear
      simp only [Term.pieces, List.cons_append, List.append_assoc, legible_word, words, true_and,
        clear_blank]
      refine value_ih bound false ?_
      simp [Piece.symbols, words, type_ih bound, motive_ih (words_cons bound _), block]
  | dup name value body _ _ value_ih body_ih =>
      simp [Term.pieces, Piece.symbols, words, value_ih bound,
        body_ih (words_cons bound _), clear]
  | box value _ ih => simp [Term.pieces, words, ih bound, clear]
  | boxType type _ ih => simp [Term.pieces, words, ih bound, clear]

end BoxCalculus
