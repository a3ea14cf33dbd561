import CocaHeap.Heapify
import Mathlib.Data.List.Sort

/-! # The in-place heapsort of `into_sorted_vec`

`for i in (1..a.len()).rev() { a.swap(0, i); heapify(&mut a[..i], 0); }`. After the turn for
`i`, the prefix `a[..i]` is a heap, the suffix `a[i..]` is sorted, and no entry of the prefix is
above an entry of the suffix (`SortInv`).
-/

namespace CocaHeap

variable {α : Type*}

/-! ## Slices and prefixes -/

theorem swap_append {p s : List α} {i j : Nat} (hi : i < p.length) (hj : j < p.length) :
    swap (p ++ s) i j = swap p i j ++ s := by
  rw [swap_of_lt (by simp; omega) (by simp; omega), swap_of_lt hi hj, List.getElem_append_left hi,
    List.getElem_append_left hj, List.set_append_left _ _ hi, List.set_append_left _ _ (by simpa)]

variable [LinearOrder α]

theorem HeapFrom.take {a : List α} {r : Nat} (h : HeapFrom a r) (n : Nat) :
    HeapFrom (a.take n) r := by
  refine heapFrom_iff.mpr fun c hc hp => ?_
  by_cases hcn : c < n
  · have := parent_lt hc
    have e₁ : (a.take n)[c]? = a[c]? := by rw [List.getElem?_take, if_pos hcn]
    have e₂ : (a.take n)[parent c]? = a[parent c]? := by rw [List.getElem?_take, if_pos (by omega)]
    rw [leAt_congr e₁ e₂]
    exact heapFrom_iff.mp h c hc hp
  · exact leAt_of_length_le (by simp; omega)

/-! ## One turn -/

/-- One turn of the loop of `into_sorted_vec`: `a.swap(0, i); heapify(&mut a[..i], 0)`. -/
def sortStep (a : List α) (i : Nat) : List α :=
  heapify ((swap a 0 i).take i) 0 ++ (swap a 0 i).drop i

@[simp] theorem length_sortStep (a : List α) (i : Nat) : (sortStep a i).length = a.length := by
  simp only [sortStep, List.length_append, length_heapify, List.length_take, List.length_drop,
    length_swap]
  omega

theorem sortStep_perm (a : List α) (i : Nat) : (sortStep a i).Perm a :=
  ((heapify_perm _ 0).append_right _).trans (by rw [List.take_append_drop]; exact swap_perm a 0 i)

theorem sortStep_append {p : List α} (s : List α) {i : Nat} (hi : i < p.length) :
    sortStep (p ++ s) i = sortStep p i ++ s := by
  rw [sortStep, sortStep, swap_append (by omega) hi, List.take_append_of_le_length (by simp; omega),
    List.drop_append_of_le_length (by simp; omega), List.append_assoc]

/-- What the loop keeps: the prefix `a[..i]` is a heap, the suffix `a[i..]` is sorted, and every
entry of the prefix is at most every entry of the suffix. -/
structure SortInv (a : List α) (i : Nat) : Prop where
  heap : IsHeap (a.take i)
  sorted : (a.drop i).Sorted (· ≤ ·)
  le : ∀ x ∈ a.take i, ∀ y ∈ a.drop i, x ≤ y

theorem IsHeap.le_head {a : List α} (h : IsHeap a) (h0 : 0 < a.length) : ∀ x ∈ a, x ≤ a[0] := by
  intro x hx
  obtain ⟨k, hk⟩ := List.mem_iff_getElem?.mp hx
  exact (isHeap_iff_heapFrom_zero.mp h).le_root (.zero k) x hk _ (List.getElem?_eq_getElem h0)

theorem take_sortStep {b : List α} {i : Nat} (hi : i < b.length) :
    (sortStep b i).take i = heapify ((swap b 0 i).take i) 0 := by
  have hlen : (heapify ((swap b 0 i).take i) 0).length = i := by simp; omega
  rw [sortStep, List.take_append_of_le_length hlen.ge, List.take_of_length_le hlen.le]

theorem drop_sortStep {b : List α} {i : Nat} (hi : i < b.length) :
    (sortStep b i).drop i = b[0] :: b.drop (i + 1) := by
  have h0 : 0 < b.length := by omega
  have hlen : (heapify ((swap b 0 i).take i) 0).length = i := by simp; omega
  have hroot : (swap b 0 i)[i]? = some b[0] := by
    rw [getElem?_swap h0 hi, Equiv.swap_apply_right, List.getElem?_eq_getElem h0]
  rw [sortStep, List.drop_append_of_le_length hlen.ge, List.drop_of_length_le hlen.le,
    List.nil_append, List.drop_eq_getElem_cons (by simpa), (List.getElem?_eq_some_iff.mp hroot).2]
  congr 1
  exact List.ext_getElem? fun k => by
    rw [List.getElem?_drop, List.getElem?_drop, getElem?_swap_of_ne (by omega) (by omega)]

theorem SortInv.step {b : List α} {i : Nat} (h : SortInv b (i + 1)) (hi : i < b.length) :
    SortInv (sortStep b i) i := by
  have h0 : 0 < b.length := by omega
  -- The prefix after the swap holds entries of the old prefix `b[..i+1]`.
  have hmem : ∀ x ∈ (swap b 0 i).take i, x ∈ b.take (i + 1) := by
    intro x hx
    obtain ⟨k, hk⟩ := List.mem_iff_getElem?.mp hx
    rw [List.getElem?_take] at hk
    split_ifs at hk with hki
    · rw [getElem?_swap h0 hi] at hk
      refine List.mem_iff_getElem?.mpr ⟨Equiv.swap 0 i k, ?_⟩
      rw [List.getElem?_take, if_pos, hk]
      rw [Equiv.swap_apply_def]
      split_ifs <;> omega
  have hsub : ∀ r, 0 < r → HeapFrom ((swap b 0 i).take i) r := fun r hr =>
    ((isHeap_iff_heapFrom_zero.mp h.heap).mono (.zero r) |>.take i |>.congr fun k hk => by
      have := hk.le
      rw [List.take_take, min_eq_left (by omega), List.getElem?_take, List.getElem?_take]
      split_ifs
      · exact getElem?_swap_of_ne (by omega) (by omega)
      · rfl)
  have hmax := h.heap.le_head (by simp; omega)
  simp only [List.getElem_take] at hmax
  refine ⟨?_, ?_, ?_⟩
  · rw [take_sortStep hi]
    exact isHeap_iff_heapFrom_zero.mpr (heapFrom_heapify (hsub _ (by simp)) (hsub _ (by simp)))
  · rw [drop_sortStep hi]
    exact List.sorted_cons.mpr ⟨h.le _ (List.mem_take_iff_getElem.mpr ⟨0, by omega, rfl⟩), h.sorted⟩
  · rw [take_sortStep hi, drop_sortStep hi]
    intro x hx y hy
    have hx' := hmem x ((heapify_perm _ 0).mem_iff.mp hx)
    rcases List.mem_cons.mp hy with rfl | hy
    · exact hmax x hx'
    · exact h.le x hx' y hy

/-! ## The whole loop -/

/-- The loop of `into_sorted_vec`. -/
def sortLoop (a : List α) : List α := (List.range' 1 (a.length - 1)).reverse.foldl sortStep a

/-- The slice after the turns of that loop for `n - 1` down to `i`. -/
def sortLoopFrom (a : List α) (i : Nat) : List α :=
  (List.range' i (a.length - i)).reverse.foldl sortStep a

theorem sortLoopFrom_one (a : List α) : sortLoopFrom a 1 = sortLoop a := rfl

theorem sortLoopFrom_length (a : List α) : sortLoopFrom a a.length = a := by
  simp [sortLoopFrom]

theorem sortLoopFrom_succ {a : List α} {i : Nat} (hi : i < a.length) :
    sortLoopFrom a i = sortStep (sortLoopFrom a (i + 1)) i := by
  rw [sortLoopFrom, show a.length - i = a.length - (i + 1) + 1 by omega, List.range'_succ,
    List.reverse_cons, List.foldl_append]
  rfl

theorem foldl_sortStep_length (a : List α) (l : List Nat) : (l.foldl sortStep a).length = a.length := by
  induction l generalizing a with
  | nil => rfl
  | cons k l ih => rw [List.foldl_cons, ih, length_sortStep]

theorem foldl_sortStep_perm (a : List α) (l : List Nat) : (l.foldl sortStep a).Perm a := by
  induction l generalizing a with
  | nil => exact .refl a
  | cons k l ih => exact (ih _).trans (sortStep_perm a k)

theorem foldl_sortStep_append {p : List α} (s : List α) (l : List Nat) (hl : ∀ i ∈ l, i < p.length) :
    l.foldl sortStep (p ++ s) = l.foldl sortStep p ++ s := by
  induction l generalizing p with
  | nil => rfl
  | cons k l ih =>
    rw [List.foldl_cons, List.foldl_cons, sortStep_append s (hl k (.head _))]
    exact ih fun i hi => by rw [length_sortStep]; exact hl i (.tail _ hi)

theorem sortInv_length {a : List α} (h : IsHeap a) : SortInv a a.length :=
  ⟨by rwa [List.take_length], by simp, by simp⟩

theorem sortInv_sortLoopFrom {a : List α} (ha : IsHeap a) :
    ∀ i, 1 ≤ i → i ≤ a.length → SortInv (sortLoopFrom a i) i := by
  suffices ∀ m i, a.length - i = m → 1 ≤ i → i ≤ a.length → SortInv (sortLoopFrom a i) i from
    fun i => this _ i rfl
  intro m
  induction m with
  | zero =>
    intro i hm _ hi
    obtain rfl : i = a.length := by omega
    rw [sortLoopFrom_length]
    exact sortInv_length ha
  | succ m ih =>
    intro i hm h1 hi
    rw [sortLoopFrom_succ (by omega)]
    exact (ih (i + 1) (by omega) (by omega) (by omega)).step (by rw [sortLoopFrom, foldl_sortStep_length]; omega)

theorem sortLoop_sorted {a : List α} (ha : IsHeap a) : (sortLoop a).Sorted (· ≤ ·) := by
  rcases Nat.eq_zero_or_pos a.length with h0 | h0
  · rw [List.length_eq_zero.mp h0]; exact List.sorted_nil
  have h := sortInv_sortLoopFrom ha 1 le_rfl h0
  rw [sortLoopFrom_one] at h
  rw [← List.take_append_drop 1 (sortLoop a)]
  refine List.pairwise_append.mpr ⟨?_, h.sorted, h.le⟩
  rcases sortLoop a with _ | ⟨x, l⟩ <;> simp

theorem sortLoop_perm (a : List α) : (sortLoop a).Perm a := foldl_sortStep_perm a _

@[simp] theorem length_sortLoop (a : List α) : (sortLoop a).length = a.length :=
  foldl_sortStep_length a _

end CocaHeap
