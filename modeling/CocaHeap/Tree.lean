import Mathlib.Logic.Basic
import Mathlib.Order.Basic

/-! # The array encoding of the tree

`parent`, `left` and `right` are the 0-based versions of CLRS's `PARENT`, `LEFT` and `RIGHT`
that `binary_heap.rs` uses, here on `Nat`. `Usize.lean` checks that the 64-bit versions compute
the same values. `InSubtree` is the subtree they define.
-/

namespace CocaHeap

/-! ## Index arithmetic -/

/-- `PARENT(i + 1) - 1`. At `0` the `usize` code would underflow; it never asks. -/
def parent (i : Nat) : Nat := (i + 1) / 2 - 1

def left (i : Nat) : Nat := 2 * (i + 1) - 1

def right (i : Nat) : Nat := 2 * (i + 1)

@[simp] theorem left_eq (i : Nat) : left i = 2 * i + 1 := by unfold left; omega

@[simp] theorem right_eq (i : Nat) : right i = 2 * i + 2 := by unfold right; omega

@[simp] theorem parent_two_mul_add_one (i : Nat) : parent (2 * i + 1) = i := by unfold parent; omega

@[simp] theorem parent_two_mul_add_two (i : Nat) : parent (2 * i + 2) = i := by unfold parent; omega

theorem parent_left (i : Nat) : parent (left i) = i := by simp

theorem parent_right (i : Nat) : parent (right i) = i := by simp

theorem parent_lt {i : Nat} (h : 0 < i) : parent i < i := by unfold parent; omega

theorem eq_left_or_right {c : Nat} (h : 0 < c) : c = left (parent c) ∨ c = right (parent c) := by
  simp only [left_eq, right_eq, parent]; omega

theorem parent_eq_iff {c p : Nat} (h : 0 < c) : parent c = p ↔ c = left p ∨ c = right p := by
  simp only [left_eq, right_eq, parent]; omega

/-! ## Subtrees -/

/-- `k` is in the subtree rooted at `r`. -/
inductive InSubtree (r : Nat) : Nat → Prop
  | refl : InSubtree r r
  | leftChild {k : Nat} : InSubtree r k → InSubtree r (left k)
  | rightChild {k : Nat} : InSubtree r k → InSubtree r (right k)

namespace InSubtree

theorem le {r k : Nat} (h : InSubtree r k) : r ≤ k := by
  induction h with
  | refl => exact Nat.le_refl r
  | leftChild _ ih | rightChild _ ih => simp only [left_eq, right_eq]; omega

theorem of_parent {r c : Nat} (hc : 0 < c) (h : InSubtree r (parent c)) : InSubtree r c := by
  rcases eq_left_or_right hc with e | e <;> rw [e]
  · exact h.leftChild
  · exact h.rightChild

theorem eq_or_parent {r c : Nat} (h : InSubtree r c) :
    c = r ∨ (0 < c ∧ InSubtree r (parent c)) := by
  cases h with
  | refl => exact .inl rfl
  | leftChild h => exact .inr ⟨by simp, by rwa [parent_left]⟩
  | rightChild h => exact .inr ⟨by simp, by rwa [parent_right]⟩

theorem trans {r s k : Nat} (h₁ : InSubtree r s) (h₂ : InSubtree s k) : InSubtree r k := by
  induction h₂ with
  | refl => exact h₁
  | leftChild _ ih => exact ih.leftChild
  | rightChild _ ih => exact ih.rightChild

theorem zero (k : Nat) : InSubtree 0 k := by
  induction k using Nat.strongRecOn with
  | _ k ih =>
    rcases Nat.eq_zero_or_pos k with rfl | hk
    · exact .refl
    · exact of_parent hk (ih _ (parent_lt hk))

theorem iff_children {i k : Nat} :
    InSubtree i k ↔ k = i ∨ InSubtree (left i) k ∨ InSubtree (right i) k := by
  constructor
  · intro h
    induction h with
    | refl => exact .inl rfl
    | leftChild _ ih =>
      rcases ih with rfl | h | h
      · exact .inr (.inl .refl)
      · exact .inr (.inl h.leftChild)
      · exact .inr (.inr h.leftChild)
    | rightChild _ ih =>
      rcases ih with rfl | h | h
      · exact .inr (.inr .refl)
      · exact .inr (.inl h.rightChild)
      · exact .inr (.inr h.rightChild)
  · rintro (rfl | h | h)
    · exact .refl
    · exact (InSubtree.refl.leftChild).trans h
    · exact (InSubtree.refl.rightChild).trans h

end InSubtree

/-- `InSubtree r k`, decided by walking up from `k` for at most `fuel` steps. -/
def inSubtreeB (r : Nat) : Nat → Nat → Bool
  | 0, k => k == r
  | fuel + 1, k => k == r || (decide (r < k) && inSubtreeB r fuel (parent k))

theorem inSubtreeB_iff (r : Nat) :
    ∀ fuel k, k ≤ fuel → (inSubtreeB r fuel k = true ↔ InSubtree r k) := by
  intro fuel
  induction fuel with
  | zero =>
    intro k hk
    obtain rfl : k = 0 := by omega
    simp only [inSubtreeB, beq_iff_eq]
    exact ⟨fun h => h ▸ .refl, fun h => by have := h.le; omega⟩
  | succ fuel ih =>
    intro k hk
    simp only [inSubtreeB, Bool.or_eq_true, beq_iff_eq, Bool.and_eq_true, decide_eq_true_eq]
    constructor
    · rintro (rfl | ⟨hrk, h⟩)
      · exact .refl
      · have := parent_lt (show 0 < k by omega)
        exact .of_parent (by omega) ((ih _ (by omega)).mp h)
    · intro h
      rcases h.eq_or_parent with rfl | ⟨hk0, hp⟩
      · exact .inl rfl
      · have := parent_lt hk0
        exact .inr ⟨by have := hp.le; omega, (ih _ (by omega)).mpr hp⟩

instance (r k : Nat) : Decidable (InSubtree r k) :=
  decidable_of_iff _ (inSubtreeB_iff r k k (Nat.le_refl k))

end CocaHeap
