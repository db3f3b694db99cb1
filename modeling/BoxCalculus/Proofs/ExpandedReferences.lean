import BoxCalculus.Proofs.Expansion
import BoxCalculus.Proofs.ReferenceCycles

/-!
# Expanding references

A reference expands to what its definition expands to on its own, although the expansion of the
definition is then looked for below the reference and with less room (`Book.expand_ref`). A cycle
through the reference would have been met before: if the expansion of the definition goes through the
definition itself, it succeeds there as well.

After expansion the kernel does not look into the book any more (`Book.expansion_needs_no_book`).
-/

namespace BoxCalculus

namespace Book

section Expansion

variable {book : Book} {depth deeper : Nat} {path path' : List String} {name : String}
  {definition : Definition} {t e x : Term}

/-- A term expands to the same if its references are answered in the same way. -/
theorem expandUpTo_of_unfolding
    (answers : ∀ name x, book.unfolding depth path name = some (.ok x) →
      book.unfolding deeper path' name = some (.ok x))
    (ok : book.expandUpTo depth path t = .ok e) : book.expandUpTo deeper path' t = .ok e := by
  obtain ⟨there, ok⟩ := expandUpTo_ok_iff.1 ok
  have leaves : LeavesIn (fun _ => True) (fun _ => True) e := leavesIn_iff_refs.2 fun _ _ => trivial
  refine expandUpTo_ok_iff.2 ⟨there, Term.expandWith_transfer ok leaves ?_ ?_⟩
  · exact fun name silent _ => unfolding_eq_none_iff.2 (unfolding_eq_none_iff.1 silent)
  · exact fun name x answered _ => answers name x answered

/-- A definition is answered in the same way if terms expand to the same. -/
theorem answer_of_expandUpTo
    (kept : ∀ {t e}, book.expandUpTo depth path t = .ok e → book.expandUpTo deeper path' t = .ok e)
    (ok : book.answer depth path definition = .ok x) :
    book.answer deeper path' definition = .ok x := by
  obtain ⟨body, expanded, kind⟩ := answer_ok_iff.1 ok
  refine answer_ok_iff.2 ⟨body, kept expanded, kind.imp id ?_⟩
  rintro ⟨given, type, annotated, lacks, expanded', same⟩
  exact ⟨given, type, annotated, lacks, kept expanded', same⟩

/-- An expansion is the same with more room for references in a row, and below fewer references. -/
theorem expandUpTo_mono (room : depth ≤ deeper) (fewer : ∀ name ∈ path', name ∈ path)
    (ok : book.expandUpTo depth path t = .ok e) : book.expandUpTo deeper path' t = .ok e := by
  induction depth using Nat.strongRecOn generalizing deeper path path' t e with
  | ind depth ih =>
      refine expandUpTo_of_unfolding (fun name x answered => ?_) ok
      obtain ⟨below, definition, rfl, found, fresh, answered⟩ := unfolding_ok_iff.1 answered
      obtain ⟨deeper, rfl⟩ : ∃ k, deeper = k + 1 := ⟨deeper - 1, by omega⟩
      refine unfolding_ok_iff.2 ⟨deeper, definition, rfl, found, ?_, ?_⟩
      · rw [List.contains_eq_mem, decide_eq_false_iff_not] at fresh ⊢
        exact fun met => fresh (fewer name met)
      · refine answer_of_expandUpTo (ih below (by omega) (by omega) fun other mem => ?_) answered
        rw [List.mem_append] at mem ⊢
        exact mem.imp (fewer other) id

/-- An expansion that never answers a definition is the same below a reference to it. -/
theorem expandUpTo_avoid (found : book.find? name = some definition)
    (unmet : ∀ below < depth, ∀ path x, book.answer below (path ++ [name]) definition ≠ .ok x)
    (ok : book.expandUpTo depth path t = .ok e) :
    book.expandUpTo depth (name :: path) t = .ok e := by
  induction depth using Nat.strongRecOn generalizing path t e with
  | ind depth ih =>
      refine expandUpTo_of_unfolding (fun other x answered => ?_) ok
      obtain ⟨below, definition', rfl, found', fresh, answered⟩ := unfolding_ok_iff.1 answered
      have differ : other ≠ name := by
        rintro rfl
        cases found.symm.trans found'
        exact unmet below (Nat.lt_succ_self _) path x answered
      refine unfolding_ok_iff.2 ⟨below, definition', rfl, found', ?_, ?_⟩
      · rw [List.contains_cons, fresh, Bool.or_false, beq_eq_false_iff_ne]
        exact differ
      · have unmet' := fun k (less : k < below) => unmet k (by omega)
        exact answer_of_expandUpTo (ih below (by omega) unmet') answered

/-- An expansion needs no more room than there are names that are not on the path. -/
theorem expandUpTo_room {room : Nat} (valid : book.Path path)
    (enough : book.length ≤ room + path.length) (ok : book.expandUpTo depth path t = .ok e) :
    book.expandUpTo room path t = .ok e := by
  induction room generalizing depth path t e with
  | zero =>
      refine expandUpTo_of_unfolding (fun name x answered => ?_) ok
      obtain ⟨below, definition, rfl, found, fresh, -⟩ := unfolding_ok_iff.1 answered
      rw [List.contains_eq_mem, decide_eq_false_iff_not] at fresh
      exact absurd (valid.mem_of_length (by omega) found) fresh
  | succ room ih =>
      refine expandUpTo_of_unfolding (fun name x answered => ?_) ok
      obtain ⟨below, definition, rfl, found, fresh, answered⟩ := unfolding_ok_iff.1 answered
      refine unfolding_ok_iff.2 ⟨room, definition, rfl, found, fresh, ?_⟩
      rw [List.contains_eq_mem, decide_eq_false_iff_not] at fresh
      refine answer_of_expandUpTo (ih (valid.extend found fresh) ?_) answered
      rw [List.length_append, List.length_singleton]
      omega

/-- A reference expands to the answer for its definition, if there is one in the whole book. -/
theorem expand_ref (found : book.find? name = some definition)
    (ok : book.answer book.length [] definition = .ok x) : book.expand (.ref name) = .ok x := by
  have answered : ∀ {depth : Nat} {y : Term}, depth < book.length →
      book.answer depth [name] definition = .ok y → book.expand (.ref name) = .ok y := by
    intro depth y less answer
    have here : book.expandUpTo (depth + 1) [] (.ref name) = .ok y := by
      refine expandUpTo_ok_iff.2 ⟨rfl, ?_⟩
      rw [Term.expandWith, unfolding_ok_iff.2 ⟨depth, definition, rfl, found, rfl, answer⟩]
      rfl
    exact expandUpTo_mono less (fun _ mem => mem) here
  by_cases met : ∃ below < book.length, ∃ path y, book.answer below (path ++ [name]) definition = .ok y
  · -- The definition has been answered somewhere below itself, so it has the same answer here.
    obtain ⟨below, less, path, y, answer⟩ := met
    have narrow : book.answer below [name] definition = .ok y :=
      answer_of_expandUpTo (expandUpTo_mono (Nat.le_refl _) fun _ => List.mem_append_right path) answer
    have whole : book.answer book.length [] definition = .ok y :=
      answer_of_expandUpTo (expandUpTo_mono (Nat.le_of_lt less) fun _ mem => by cases mem) narrow
    rw [ok] at whole
    cases whole
    exact answered less narrow
  · have unmet : ∀ below < book.length, ∀ path y,
        book.answer below (path ++ [name]) definition ≠ .ok y :=
      fun below less path y answer => met ⟨below, less, path, y, answer⟩
    have valid : book.Path [name] := Path.extend ⟨List.nodup_nil, by simp⟩ found (by simp)
    have positive : 1 ≤ book.length := valid.length_le
    have enough : book.length ≤ book.length - 1 + [name].length := by
      rw [List.length_singleton]
      omega
    have below : book.answer book.length [name] definition = .ok x :=
      answer_of_expandUpTo (expandUpTo_avoid found unmet) ok
    exact answered (by omega) (answer_of_expandUpTo (expandUpTo_room valid enough) below)

end Expansion

/-- After expansion the book is not looked into: the kernel over the book infers, accepts and
normalizes what the kernel without an environment does, up to the failures and the partly reduced
terms. -/
theorem expansion_needs_no_book (book : Book) {t type e e' : Term} (expanded : book.expand t = .ok e)
    (expanded' : book.expand type = .ok e') (fuel : Int) (canceled : Bool) :
    let k : Kernel := { env := book.lookup, fuel := fuel }
    let alone : Kernel := { fuel := fuel }
    k.infer canceled e = alone.infer canceled e ∧
      k.check canceled e e' = alone.check canceled e e' ∧
      k.normalize canceled e = alone.normalize canceled e := by
  let C := undefined_condition .word empty book
  have holds : ∀ {t e : Term}, book.expand t = .ok e → C.holds 0 e := by
    intro t e ok
    refine leavesIn_iff_refs.2 fun name mem => ⟨rfl, ?_⟩
    exact leavesIn_iff_refs.1 (leavesIn_expandUpTo ok) name mem
  refine ⟨C.kernel_infer_eq fuel canceled (holds expanded),
    C.kernel_check_eq fuel canceled (holds expanded) (holds expanded'), ?_⟩
  have same : reduce .word book.lookup e _ = reduce .word .empty e _ :=
    C.reduce_eq (holds expanded) (Meter.start fuel canceled)
  simp only [Kernel.normalize, same]

/-- A run that is out of fuel leaves the same term, and a check the same verdict. -/
theorem expansion_needs_no_book_outOfFuel :
    let k : Kernel := { env := identityBook.lookup, fuel := 3 }
    (k.normalize false expandedDup).2 = some (.stopped .outOfFuel) ∧
      k.normalize false expandedDup = ({ fuel := 3 } : Kernel).normalize false expandedDup ∧
      k.check false expandedDup .univ = ({ fuel := 3 } : Kernel).check false expandedDup .univ := by
  have expanded : identityBook.expand referringDup = .ok expandedDup := by rfl
  have expanded' : identityBook.expand .univ = .ok .univ := by rfl
  obtain ⟨-, checks, normalizes⟩ := expansion_needs_no_book identityBook expanded expanded' 3 false
  exact ⟨rfl, normalizes, checks⟩

end Book

end BoxCalculus
