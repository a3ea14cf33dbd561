import CocaHeap.Tree
import Mathlib.Data.List.FinRange
import Mathlib.Logic.Equiv.Basic

/-! # Slices and the max-heap property

A slice `&mut [T]` is a `List`. `swap` is `slice::swap`, `ltAt` and `LeAt` compare two entries,
and `IsHeap` and `HeapFrom` are the max-heap property of a whole slice and of one subtree.
-/

namespace CocaHeap

variable {α : Type*}

/-! ## `swap` -/

/-- `slice::swap`. Out of range the code panics; it never goes there (`Checked.lean`), and the
model leaves the slice as it is. -/
def swap (a : List α) (i j : Nat) : List α :=
  match a[i]?, a[j]? with
  | some x, some y => (a.set i y).set j x
  | _, _ => a

theorem swap_of_lt {a : List α} {i j : Nat} (hi : i < a.length) (hj : j < a.length) :
    swap a i j = (a.set i a[j]).set j a[i] := by
  simp [swap, List.getElem?_eq_getElem hi, List.getElem?_eq_getElem hj]

theorem swap_of_not_lt {a : List α} {i j : Nat} (h : ¬ (i < a.length ∧ j < a.length)) :
    swap a i j = a := by
  unfold swap
  split
  · rename_i hx hy
    exact absurd ⟨(List.getElem?_eq_some_iff.mp hx).1, (List.getElem?_eq_some_iff.mp hy).1⟩ h
  · rfl

@[simp] theorem length_swap (a : List α) (i j : Nat) : (swap a i j).length = a.length := by
  unfold swap; split <;> simp

theorem getElem?_swap {a : List α} {i j : Nat} (hi : i < a.length) (hj : j < a.length) (k : Nat) :
    (swap a i j)[k]? = a[Equiv.swap i j k]? := by
  rw [swap_of_lt hi hj, Equiv.swap_apply_def]
  simp only [List.getElem?_set, List.length_set]
  split_ifs <;> subst_vars <;> simp_all [List.getElem?_eq_getElem]

theorem getElem?_swap_of_ne {a : List α} {i j k : Nat} (hi : k ≠ i) (hj : k ≠ j) :
    (swap a i j)[k]? = a[k]? := by
  by_cases h : i < a.length ∧ j < a.length
  · rw [getElem?_swap h.1 h.2, Equiv.swap_apply_of_ne_of_ne hi hj]
  · rw [swap_of_not_lt h]

theorem swap_perm (a : List α) (i j : Nat) : (swap a i j).Perm a := by
  by_cases h : i < a.length ∧ j < a.length
  · obtain ⟨hi, hj⟩ := h
    have e : swap a i j = List.ofFn (a.get ∘ Equiv.swap ⟨i, hi⟩ ⟨j, hj⟩) := by
      apply List.ext_getElem (by simp)
      intro k hk _
      have hk' : k < a.length := by simpa using hk
      have := getElem?_swap hi hj k
      rw [List.getElem?_eq_getElem hk] at this
      simp only [List.getElem_ofFn, Function.comp_apply, List.get_eq_getElem, Equiv.swap_apply_def,
        Fin.ext_iff] at this ⊢
      split_ifs at this ⊢ <;> simp_all [List.getElem?_eq_getElem]
    rw [e]
    simpa using Equiv.Perm.ofFn_comp_perm (Equiv.swap ⟨i, hi⟩ ⟨j, hj⟩) a.get
  · rw [swap_of_not_lt h]

/-! ## Comparing two entries -/

variable [LinearOrder α]

/-- `a[j] < a[k]`, with both entries present. -/
def ltAt (a : List α) (j k : Nat) : Prop := ∃ x ∈ a[j]?, ∃ y ∈ a[k]?, x < y

/-- `a[c] ≤ a[p]` wherever both entries are present. -/
def LeAt (a : List α) (c p : Nat) : Prop := ∀ x ∈ a[c]?, ∀ y ∈ a[p]?, x ≤ y

instance (a : List α) (j k : Nat) : Decidable (ltAt a j k) :=
  inferInstanceAs (Decidable (∃ x ∈ a[j]?, ∃ y ∈ a[k]?, x < y))

instance (a : List α) (c p : Nat) : Decidable (LeAt a c p) :=
  inferInstanceAs (Decidable (∀ x ∈ a[c]?, ∀ y ∈ a[p]?, x ≤ y))

theorem not_ltAt {a : List α} {j k : Nat} : ¬ ltAt a j k ↔ LeAt a k j := by
  simp only [ltAt, LeAt, not_exists, not_and, not_lt]
  exact ⟨fun h x hx y hy => h y hy x hx, fun h y hy x hx => h x hx y hy⟩

theorem ltAt.leAt {a : List α} {j k : Nat} (h : ltAt a j k) : LeAt a j k := by
  obtain ⟨x, hx, y, hy, hxy⟩ := h
  intro x' hx' y' hy'
  cases Option.mem_unique hx hx'
  cases Option.mem_unique hy hy'
  exact hxy.le

theorem ltAt.lt_length {a : List α} {j k : Nat} (h : ltAt a j k) : j < a.length ∧ k < a.length := by
  obtain ⟨x, hx, y, hy, -⟩ := h
  exact ⟨(List.getElem?_eq_some_iff.mp hx).1, (List.getElem?_eq_some_iff.mp hy).1⟩

theorem LeAt.refl (a : List α) (k : Nat) : LeAt a k k := by
  intro x hx y hy
  cases Option.mem_unique hx hy
  exact le_rfl

theorem LeAt.trans {a : List α} {c p q : Nat} (h₁ : LeAt a c p) (h₂ : LeAt a p q)
    (hp : c < a.length → p < a.length) : LeAt a c q := by
  intro x hx z hz
  have hc : c < a.length := (List.getElem?_eq_some_iff.mp hx).1
  exact (h₁ x hx _ (List.getElem?_eq_getElem (hp hc))).trans (h₂ _ (List.getElem?_eq_getElem (hp hc)) z hz)

theorem leAt_congr {a b : List α} {c p c' p' : Nat} (hc : b[c]? = a[c']?) (hp : b[p]? = a[p']?) :
    LeAt b c p ↔ LeAt a c' p' := by
  rw [LeAt, LeAt, hc, hp]

theorem leAt_swap {a : List α} {i j : Nat} (hi : i < a.length) (hj : j < a.length) (c p : Nat) :
    LeAt (swap a i j) c p ↔ LeAt a (Equiv.swap i j c) (Equiv.swap i j p) := by
  rw [LeAt, LeAt, getElem?_swap hi hj, getElem?_swap hi hj]

/-! ## The max-heap property -/

/-- The max-heap property: every entry other than the root is at most its parent. -/
def IsHeap (a : List α) : Prop := ∀ i < a.length, 0 < i → LeAt a i (parent i)

/-- The subtree rooted at `r` is in max-heap order within `a`. -/
def HeapFrom (a : List α) (r : Nat) : Prop :=
  ∀ i < a.length, 0 < i → InSubtree r (parent i) → LeAt a i (parent i)

instance (a : List α) : Decidable (IsHeap a) :=
  inferInstanceAs (Decidable (∀ i < a.length, 0 < i → LeAt a i (parent i)))

instance (a : List α) (r : Nat) : Decidable (HeapFrom a r) :=
  inferInstanceAs (Decidable (∀ i < a.length, 0 < i → InSubtree r (parent i) → LeAt a i (parent i)))

theorem leAt_of_length_le {a : List α} {c p : Nat} (h : a.length ≤ c) : LeAt a c p := by
  intro x hx
  simp [List.getElem?_eq_none h] at hx

-- The bound in `HeapFrom` is only there to make it decidable.
theorem heapFrom_iff {a : List α} {r : Nat} :
    HeapFrom a r ↔ ∀ i, 0 < i → InSubtree r (parent i) → LeAt a i (parent i) := by
  refine ⟨fun h i hi hr => ?_, fun h i _ => h i⟩
  by_cases hl : i < a.length
  · exact h i hl hi hr
  · exact leAt_of_length_le (by omega)

theorem isHeap_iff_heapFrom_zero {a : List α} : IsHeap a ↔ HeapFrom a 0 :=
  ⟨fun h i hl hi _ => h i hl hi, fun h i hl hi => h i hl hi (.zero _)⟩

theorem HeapFrom.mono {a : List α} {r s : Nat} (h : HeapFrom a r) (hs : InSubtree r s) :
    HeapFrom a s :=
  fun i hl hi hp => h i hl hi (hs.trans hp)

theorem HeapFrom.congr {a b : List α} {r : Nat} (h : HeapFrom a r)
    (he : ∀ k, InSubtree r k → b[k]? = a[k]?) : HeapFrom b r := by
  refine heapFrom_iff.mpr fun i hi hp => ?_
  rw [leAt_congr (he i (.of_parent hi hp)) (he _ hp)]
  exact heapFrom_iff.mp h i hi hp

theorem HeapFrom.le_root {a : List α} {r k : Nat} (h : HeapFrom a r) (hk : InSubtree r k) :
    LeAt a k r := by
  induction hk with
  | refl => exact .refl a r
  | @leftChild k hk ih =>
    refine LeAt.trans ?_ ih (fun _ => by simp at *; omega)
    simpa using heapFrom_iff.mp h (left k) (by simp) (by simpa using hk)
  | @rightChild k hk ih =>
    refine LeAt.trans ?_ ih (fun _ => by simp at *; omega)
    simpa using heapFrom_iff.mp h (right k) (by simp) (by simpa using hk)

end CocaHeap
