import Mathlib.Logic.Function.Basic
import Mathlib.Data.Nat.Basic

/-!
# Arrays that are shared

An array is known by its reference, so that two holders of one reference see
each other's changes. The operations are those of a growable array: a new array,
cutting it off at a length, and appending to it.
-/

namespace Sglang.Support

abbrev Ref := ℕ

structure Arrays (α : Type*) where
  cell : Ref → List α
  next : Ref

namespace Arrays

variable {α : Type*} (A : Arrays α) {a b : Ref}

def empty : Arrays α := ⟨fun _ => [], 0⟩

/-- The array that is created next. -/
def new (xs : List α) : Arrays α := ⟨Function.update A.cell A.next xs, A.next + 1⟩

/-- `del a[n:]` -/
def truncate (a : Ref) (n : ℕ) : Arrays α :=
  { A with cell := Function.update A.cell a ((A.cell a).take n) }

/-- `a.extend(xs)` -/
def extend (a : Ref) (xs : List α) : Arrays α :=
  { A with cell := Function.update A.cell a (A.cell a ++ xs) }

@[simp] theorem next_new (xs : List α) : (A.new xs).next = A.next + 1 := rfl

@[simp] theorem next_truncate (n : ℕ) : (A.truncate a n).next = A.next := rfl

@[simp] theorem next_extend (xs : List α) : (A.extend a xs).next = A.next := rfl

end Arrays

end Sglang.Support
