/-!
# Index arithmetic

Variables are de Bruijn indices, and indices are integers. Every sum that a transform forms is
passed through an `Arith`, which says how sums are brought back into range. Programs run with
`Arith.word`, where an index is a 64-bit machine word and sums wrap around; `Arith.exact` keeps every
sum as it is, so the two differ only where a sum leaves the range of a word.
-/

namespace BoxCalculus

/-- How a sum of indices is brought back into the range of indices. -/
structure Arith where
  norm : Int → Int

namespace Arith

/-- Unbounded integers: a sum is kept as it is. -/
def exact : Arith := ⟨id⟩

/-- Machine words of 64 bits: a sum is taken modulo `2 ^ 64`, into `-2 ^ 63 ≤ i < 2 ^ 63`. -/
def word : Arith := ⟨fun i => (Int64.ofInt i).toInt⟩

/-- The sum of two indices. -/
def add (ar : Arith) (i j : Int) : Int :=
  ar.norm (i + j)

/-- Exact sums are sums. -/
@[simp] theorem exact_add (i j : Int) : exact.add i j = i + j := rfl

/-- A word sum is the balanced remainder of the sum modulo `2 ^ 64`. -/
theorem word_add (i j : Int) : word.add i j = (i + j).bmod 0x1_0000_0000_0000_0000 :=
  Int64.toInt_ofInt ..

/-- Word sums agree with exact sums as long as the sum is a word. -/
theorem word_add_eq {i j : Int} (lower : -0x8000_0000_0000_0000 ≤ i + j)
    (upper : i + j < 0x8000_0000_0000_0000) : word.add i j = i + j := by
  rw [word_add, Int.bmod_eq_of_le] <;> omega

end Arith

end BoxCalculus
