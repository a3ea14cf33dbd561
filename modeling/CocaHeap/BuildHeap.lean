import CocaHeap.Heapify

/-! # Building a heap in place

`From<Vec>::from` and `Extend::extend` both run `for i in (0..n/2).rev() { heapify(a, i) }`.
After the turn for `k` every subtree rooted at `k` or later is in order (`HeapBelow`); the
positions from `n/2` on are leaves, so that holds before the first turn.
-/

namespace CocaHeap

variable {α : Type*} [LinearOrder α]

/-- `for i in (0..n/2).rev() { heapify(a, i) }`. -/
def buildHeap (a : List α) : List α := (List.range (a.length / 2)).reverse.foldl heapify a

/-- The slice after the turns of that loop for `n/2 - 1` down to `k`. -/
def buildHeapFrom (a : List α) (k : Nat) : List α :=
  (List.range' k (a.length / 2 - k)).reverse.foldl heapify a

theorem buildHeapFrom_zero (a : List α) : buildHeapFrom a 0 = buildHeap a := by
  rw [buildHeapFrom, buildHeap, List.range_eq_range', Nat.sub_zero]

theorem buildHeapFrom_half (a : List α) : buildHeapFrom a (a.length / 2) = a := by
  simp [buildHeapFrom]

theorem buildHeapFrom_succ {a : List α} {k : Nat} (hk : k < a.length / 2) :
    buildHeapFrom a k = heapify (buildHeapFrom a (k + 1)) k := by
  rw [buildHeapFrom, show a.length / 2 - k = a.length / 2 - (k + 1) + 1 by omega, List.range'_succ,
    List.reverse_cons, List.foldl_append]
  rfl

theorem foldl_heapify_length (a : List α) (l : List Nat) : (l.foldl heapify a).length = a.length := by
  induction l generalizing a with
  | nil => rfl
  | cons k l ih => rw [List.foldl_cons, ih, length_heapify]

theorem foldl_heapify_perm (a : List α) (l : List Nat) : (l.foldl heapify a).Perm a := by
  induction l generalizing a with
  | nil => exact .refl a
  | cons k l ih => exact (ih _).trans (heapify_perm a k)

@[simp] theorem length_buildHeap (a : List α) : (buildHeap a).length = a.length :=
  foldl_heapify_length a _

/-- Every pair whose parent is at `k` or later is in order. -/
def HeapBelow (a : List α) (k : Nat) : Prop := ∀ c, 0 < c → k ≤ parent c → LeAt a c (parent c)

theorem heapBelow_iff {a : List α} {k : Nat} : HeapBelow a k ↔ ∀ j, k ≤ j → HeapFrom a j :=
  ⟨fun h _ hj => heapFrom_iff.mpr fun c hc hp => h c hc (le_trans hj hp.le),
    fun h c hc hk => heapFrom_iff.mp (h _ hk) c hc .refl⟩

theorem heapBelow_half (a : List α) : HeapBelow a (a.length / 2) := by
  intro c hc hk
  exact leAt_of_length_le (by simp only [parent] at hk; omega)

theorem heapBelow_heapify {a : List α} {k : Nat} (h : HeapBelow a (k + 1)) :
    HeapBelow (heapify a k) k := by
  have hf := heapBelow_iff.mp h
  have hk := heapFrom_heapify (hf (left k) (by simp; omega)) (hf (right k) (by simp; omega))
  intro c hc hkc
  by_cases hs : InSubtree k (parent c)
  · exact heapFrom_iff.mp hk c hc hs
  have hcs : ¬ InSubtree k c := fun h' =>
    h'.eq_or_parent.elim (fun e => by have := parent_lt hc; omega) fun h' => hs h'.2
  rw [leAt_congr (getElem?_heapify_of_not_inSubtree hcs) (getElem?_heapify_of_not_inSubtree hs)]
  have : k ≠ parent c := fun e => hs (e ▸ .refl)
  exact h c hc (by omega)

theorem heapBelow_buildHeapFrom (a : List α) :
    ∀ k, k ≤ a.length / 2 → HeapBelow (buildHeapFrom a k) k := by
  suffices ∀ m k, a.length / 2 - k = m → k ≤ a.length / 2 → HeapBelow (buildHeapFrom a k) k from
    fun k => this _ k rfl
  intro m
  induction m with
  | zero =>
    intro k hm hk
    obtain rfl : k = a.length / 2 := by omega
    rw [buildHeapFrom_half]
    exact heapBelow_half a
  | succ m ih =>
    intro k hm hk
    rw [buildHeapFrom_succ (by omega)]
    exact heapBelow_heapify (ih (k + 1) (by omega) (by omega))

theorem isHeap_buildHeap (a : List α) : IsHeap (buildHeap a) := by
  rw [isHeap_iff_heapFrom_zero, ← buildHeapFrom_zero]
  exact heapBelow_iff.mp (heapBelow_buildHeapFrom a 0 (Nat.zero_le _)) 0 le_rfl

theorem buildHeap_perm (a : List α) : (buildHeap a).Perm a := foldl_heapify_perm a _

/-- The loop of `From<Vec>::from` and `Extend::extend`: the positions from `n/2` on are leaves,
after the turn for `k` every subtree rooted at `k` or later is in max-heap order, and the loop
ends with a permutation of the slice in max-heap order. -/
theorem buildHeap_spec (a : List α) :
    (∀ j, a.length / 2 ≤ j → a.length ≤ left j) ∧
      (∀ k ≤ a.length / 2, ∀ j, k ≤ j → HeapFrom (buildHeapFrom a k) j) ∧
      IsHeap (buildHeap a) ∧ (buildHeap a).Perm a :=
  ⟨fun j hj => by simp; omega, fun k hk => heapBelow_iff.mp (heapBelow_buildHeapFrom a k hk),
    isHeap_buildHeap a, buildHeap_perm a⟩

end CocaHeap
