import Mathlib.Algebra.Group.Nat.Basic
import CocaHeap.Tree

/-! # `usize` arithmetic

The index arithmetic of `binary_heap.rs` on 64-bit `usize`, where overflow and underflow panic
(a `debug` build; a `release` build wraps instead, and where no overflow happens the two agree).
`Checked.lean` runs the heap algorithms on these.
-/

namespace CocaHeap

/-- Why a run of the code stops before it returns. -/
inductive Fault
  | overflow
  | outOfBounds
  | assertFailed
  | stackOverflow
  deriving DecidableEq, Repr

namespace Usize

def size : Nat := 2 ^ 64

def add (x y : Nat) : Except Fault Nat := if x + y < size then .ok (x + y) else .error .overflow

def sub (x y : Nat) : Except Fault Nat := if y ≤ x then .ok (x - y) else .error .overflow

def mul (x y : Nat) : Except Fault Nat := if x * y < size then .ok (x * y) else .error .overflow

theorem add_of_lt {x y : Nat} (h : x + y < 2 ^ 64) : add x y = pure (x + y) := if_pos h

theorem sub_of_le {x y : Nat} (h : y ≤ x) : sub x y = pure (x - y) := if_pos h

theorem mul_of_lt {x y : Nat} (h : x * y < 2 ^ 64) : mul x y = pure (x * y) := if_pos h

theorem add_of_ge {x y : Nat} (h : 2 ^ 64 ≤ x + y) : add x y = .error .overflow := if_neg (by unfold size; omega)

theorem sub_of_lt {x y : Nat} (h : x < y) : sub x y = .error .overflow := if_neg (by omega)

theorem mul_of_ge {x y : Nat} (h : 2 ^ 64 ≤ x * y) : mul x y = .error .overflow := if_neg (by unfold size; omega)

/-! ## The three functions of the tree, on `usize` -/

def parent (i : Nat) : Except Fault Nat := do
  let s ← add i 1
  sub (s / 2) 1

def left (i : Nat) : Except Fault Nat := do
  let s ← add i 1
  let d ← mul 2 s
  sub d 1

def right (i : Nat) : Except Fault Nat := do
  let s ← add i 1
  mul 2 s

theorem parent_eq {j : Nat} (h0 : 0 < j) (h : j < 2 ^ 64 - 1) : parent j = .ok (CocaHeap.parent j) := by
  simp only [parent, add_of_lt (show j + 1 < 2 ^ 64 by omega), pure_bind,
    sub_of_le (show 1 ≤ (j + 1) / 2 by omega)]
  rfl

theorem left_eq {i : Nat} (h : i ≤ 2 ^ 63 - 2) : left i = .ok (CocaHeap.left i) := by
  simp only [left, add_of_lt (show i + 1 < 2 ^ 64 by omega),
    pure_bind, mul_of_lt (show 2 * (i + 1) < 2 ^ 64 by omega), sub_of_le (show 1 ≤ 2 * (i + 1) by omega)]
  rfl

theorem right_eq {i : Nat} (h : i ≤ 2 ^ 63 - 2) : right i = .ok (CocaHeap.right i) := by
  simp only [right, add_of_lt (show i + 1 < 2 ^ 64 by omega),
    pure_bind, mul_of_lt (show 2 * (i + 1) < 2 ^ 64 by omega)]
  rfl

theorem parent_ok {i p : Nat} (h : parent i = .ok p) : p = CocaHeap.parent i := by
  unfold parent at h
  by_cases h₁ : i + 1 < 2 ^ 64
  · rw [add_of_lt h₁, pure_bind] at h
    by_cases h₂ : 1 ≤ (i + 1) / 2
    · rw [sub_of_le h₂] at h; cases h; rfl
    · rw [sub_of_lt (by omega)] at h; cases h
  · rw [add_of_ge (by omega)] at h; cases h

theorem left_overflow {i : Nat} (h : 2 ^ 63 - 2 < i) : left i = .error .overflow := by
  unfold left
  by_cases h₁ : i + 1 < 2 ^ 64
  · rw [add_of_lt h₁, pure_bind, mul_of_ge (by omega)]; rfl
  · rw [add_of_ge (by omega)]; rfl

end Usize

/-- On 64-bit `usize`, `left` and `right` do not wrap below `2 ^ 63 - 1`, `parent` does not
wrap strictly between `0` and `2 ^ 64 - 1`, and the three encode one tree. -/
theorem usize_tree_arith (i j : Nat) (hi : i ≤ 2 ^ 63 - 2) (hj0 : 0 < j) (hj : j < 2 ^ 64 - 1) :
    Usize.left i = .ok (2 * i + 1) ∧ Usize.right i = .ok (2 * i + 2) ∧
    (Usize.left i >>= Usize.parent) = .ok i ∧ (Usize.right i >>= Usize.parent) = .ok i ∧
    ∃ p, Usize.parent j = .ok p ∧ p < j ∧ (Usize.left p = .ok j ∨ Usize.right p = .ok j) := by
  have hl : 2 * i + 1 < 2 ^ 64 - 1 := by omega
  have hp : CocaHeap.parent j ≤ 2 ^ 63 - 2 := by unfold CocaHeap.parent; omega
  refine ⟨by simp [Usize.left_eq hi], by simp [Usize.right_eq hi], ?_, ?_, ?_⟩
  · rw [Usize.left_eq hi]
    exact (Usize.parent_eq (by simp) (by simpa using hl)).trans (by rw [parent_left])
  · rw [Usize.right_eq hi]
    exact (Usize.parent_eq (by simp) (by simp; omega)).trans (by rw [parent_right])
  · refine ⟨_, Usize.parent_eq hj0 hj, parent_lt hj0, ?_⟩
    rw [Usize.left_eq hp, Usize.right_eq hp]
    rcases eq_left_or_right hj0 with e | e
    · exact .inl (congrArg _ e.symm)
    · exact .inr (congrArg _ e.symm)

theorem usize_tree_arith_at_bounds :
    (2 ^ 63 - 2 ≤ 2 ^ 63 - 2 ∧ 0 < 2 ^ 64 - 2 ∧ 2 ^ 64 - 2 < 2 ^ 64 - 1) ∧
      Usize.left (2 ^ 63 - 2) = .ok (2 * (2 ^ 63 - 2) + 1) :=
  ⟨by decide, (usize_tree_arith (2 ^ 63 - 2) (2 ^ 64 - 2) (by decide) (by decide) (by decide)).1⟩

end CocaHeap
