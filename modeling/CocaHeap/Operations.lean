import CocaHeap.BinaryHeap

/-! # What each method does

One lemma per method of `BinaryHeap`, `PeekMut` and the sorted iterators: the entries after it,
up to order, and that it keeps the max-heap property. `HeapBelow a 1` (every pair below the root
is in order) is what holds of a heap whose root was overwritten, while a `PeekMut` is live.
-/

namespace CocaHeap

variable {α : Type*}

/-! ## `swap_remove(0)` on slices -/

theorem set_last_dropLast {a : List α} {i : Nat} (hi : i < a.length) :
    (a.set i a[a.length - 1]).dropLast = (swap a i (a.length - 1)).dropLast := by
  apply List.ext_getElem?
  intro k
  rw [List.getElem?_dropLast, List.getElem?_dropLast, List.length_set, length_swap]
  split_ifs with hk
  · rw [getElem?_swap hi (by omega), List.getElem?_set, Equiv.swap_apply_def]
    by_cases hki : k = i
    · subst hki; simp [List.getElem?_eq_getElem (show a.length - 1 < a.length by omega), hi]
    · simp [hki, Ne.symm hki, show k ≠ a.length - 1 by omega]
  · rfl

theorem swapRemove_perm {a : List α} {i : Nat} (hi : i < a.length) :
    (a[i] :: (a.set i a[a.length - 1]).dropLast).Perm a := by
  have hne : swap a i (a.length - 1) ≠ [] := List.ne_nil_of_length_pos (by simp; omega)
  have hlast : (swap a i (a.length - 1)).getLast hne = a[i] := by
    rw [List.getLast_eq_getElem]
    have := getElem?_swap hi (show a.length - 1 < a.length by omega) (a.length - 1)
    rw [Equiv.swap_apply_right, List.getElem?_eq_getElem (by simp; omega),
      List.getElem?_eq_getElem hi] at this
    simpa using this
  rw [set_last_dropLast hi]
  refine (List.perm_append_singleton _ _).symm.trans ?_
  rw [← hlast, List.dropLast_append_getLast hne]
  exact swap_perm a i _

variable [LinearOrder α]

/-! ## Below the root -/

theorem IsHeap.heapBelow_one {a : List α} (h : IsHeap a) : HeapBelow a 1 :=
  fun c hc _ => heapFrom_iff.mp (isHeap_iff_heapFrom_zero.mp h) c hc (.zero _)

theorem isHeap_heapify_zero {a : List α} (h : HeapBelow a 1) : IsHeap (heapify a 0) := by
  have hb := heapBelow_iff.mp h
  exact isHeap_iff_heapFrom_zero.mpr (heapFrom_heapify (hb _ (by simp)) (hb _ (by simp)))

theorem HeapBelow.set_zero {a : List α} (h : HeapBelow a 1) (v : α) : HeapBelow (a.set 0 v) 1 := by
  intro c hc hp
  have := parent_lt hc
  rw [leAt_congr (List.getElem?_set_ne (by omega)) (List.getElem?_set_ne (by omega))]
  exact h c hc hp

theorem HeapBelow.set_zero_dropLast {a : List α} (h : HeapBelow a 1) (v : α) :
    HeapBelow (a.set 0 v).dropLast 1 := by
  intro c hc hp
  have := parent_lt hc
  by_cases hcl : c < (a.set 0 v).length - 1
  · have e₁ : (a.set 0 v).dropLast[c]? = (a.set 0 v)[c]? := by rw [List.getElem?_dropLast, if_pos hcl]
    have e₂ : (a.set 0 v).dropLast[parent c]? = (a.set 0 v)[parent c]? := by
      rw [List.getElem?_dropLast, if_pos (by omega)]
    rw [leAt_congr e₁ e₂]
    exact h.set_zero v c hc hp
  · exact leAt_of_length_le (by simp at hcl ⊢; omega)

namespace BinaryHeap

/-! ## Construction -/

@[simp] theorem fromVec_items (v : Vec α) : (fromVec v).a.items = buildHeap v.items := rfl

@[simp] theorem fromVec_capacity (v : Vec α) : (fromVec v).a.capacity = v.capacity := rfl

theorem fromIter_eq {c : Nat} {xs : List α} (hxs : xs.length ≤ c) :
    fromIter c xs = some (fromVec ⟨xs, c, hxs⟩) := by
  simp [fromIter, Vec.fromIter, Vec.extend_eq_some (v := Vec.fromStorage c) (by simpa using hxs)]

theorem tryPush_of_full {h : BinaryHeap α} (x : α) (hf : h.a.capacity ≤ h.a.items.length) :
    h.tryPush x = (.error x, h) := by
  rw [tryPush, Vec.tryPush_eq_error hf]

theorem tryPush_of_lt {h : BinaryHeap α} (x : α) (hl : h.a.items.length < h.a.capacity) :
    (h.tryPush x).1 = .ok () ∧
      (h.tryPush x).2.a.items = siftUp (h.a.items ++ [x]) h.a.items.length ∧
      (h.tryPush x).2.a.capacity = h.a.capacity := by
  simp [tryPush, Vec.tryPush_eq_ok hl]

theorem isHeap_tryPush {h : BinaryHeap α} (x : α) (hh : IsHeap h.a.items) :
    IsHeap (h.tryPush x).2.a.items := by
  by_cases hl : h.a.items.length < h.a.capacity
  · rw [(tryPush_of_lt x hl).2.1]
    refine isHeap_siftUp ?_
    simpa using siftUpInv_last (a := h.a.items ++ [x]) (by simp) (by simpa using hh)
  · rwa [tryPush_of_full x (by omega)]

theorem tryPush_perm {h : BinaryHeap α} (x : α) (hl : h.a.items.length < h.a.capacity) :
    (h.tryPush x).2.a.items.Perm (h.a.items ++ [x]) := by
  rw [(tryPush_of_lt x hl).2.1]
  exact siftUp_perm _ _

theorem push_eq_some_iff {h h' : BinaryHeap α} {x : α} :
    h.push x = some h' ↔ h.a.items.length < h.a.capacity ∧ h.tryPush x = (.ok (), h') := by
  by_cases hl : h.a.items.length < h.a.capacity
  · obtain ⟨h1, -⟩ := tryPush_of_lt x hl
    rw [push, show h.tryPush x = (.ok (), (h.tryPush x).2) from Prod.ext h1 rfl]
    simp [hl]
  · rw [push, tryPush_of_full x (by omega)]
    simp [hl]

/-! ## `pop` -/

theorem pop_fst {h : BinaryHeap α} (h0 : 0 < h.a.items.length) : h.pop.1 = some h.a.items[0] := by
  rw [pop_of_len_pos h0]; rfl

theorem pop_eq_root {h : BinaryHeap α} (h0 : 0 < h.a.items.length) :
    h.pop = (some h.a.items[0], h.pop.2) :=
  Prod.ext (pop_fst h0) rfl

theorem pop_items {h : BinaryHeap α} (h0 : 0 < h.a.items.length) :
    h.pop.2.a.items = heapify (h.a.items.set 0 h.a.items[h.a.items.length - 1]).dropLast 0 := by
  rw [pop_of_len_pos h0]; rfl

@[simp] theorem pop_capacity (h : BinaryHeap α) : h.pop.2.a.capacity = h.a.capacity := by
  rcases Nat.eq_zero_or_pos h.a.items.length with h0 | h0
  · rw [pop_of_isEmpty (by simpa [isEmpty, Vec.isEmpty, Vec.len] using h0)]
  · rw [pop_of_len_pos h0]; rfl

theorem pop_of_nil {h : BinaryHeap α} (h0 : h.a.items = []) : h.pop = (none, h) :=
  pop_of_isEmpty (by simp [isEmpty, Vec.isEmpty_iff, h0])

theorem pop_perm {h : BinaryHeap α} (h0 : 0 < h.a.items.length) :
    (h.a.items[0] :: h.pop.2.a.items).Perm h.a.items := by
  rw [pop_items h0]
  exact ((heapify_perm _ _).cons _).trans (swapRemove_perm h0)

-- `pop` only needs the order below the root: it replaces the root anyway.
theorem isHeap_pop_of_heapBelow {h : BinaryHeap α} (h0 : 0 < h.a.items.length)
    (hh : HeapBelow h.a.items 1) : IsHeap h.pop.2.a.items := by
  rw [pop_items h0]
  exact isHeap_heapify_zero (hh.set_zero_dropLast _)

theorem isHeap_pop {h : BinaryHeap α} (hh : IsHeap h.a.items) : IsHeap h.pop.2.a.items := by
  rcases Nat.eq_zero_or_pos h.a.items.length with h0 | h0
  · rwa [pop_of_nil (List.length_eq_zero.mp h0)]
  · exact isHeap_pop_of_heapBelow h0 hh.heapBelow_one

/-! ## `extend`, `clear`, `drain` -/

theorem extend_of_fits {h : BinaryHeap α} {xs : List α}
    (hl : h.a.items.length + xs.length ≤ h.a.capacity) :
    ∃ h', h.extend xs = some h' ∧ h'.a.items = buildHeap (h.a.items ++ xs) ∧
      h'.a.capacity = h.a.capacity :=
  ⟨⟨(⟨h.a.items ++ xs, h.a.capacity, by simpa using hl⟩ : Vec α).modifySlice buildHeap
    length_buildHeap⟩, by rw [extend, Vec.extend_eq_some hl]; rfl, rfl, rfl⟩

theorem extend_of_overflow {h : BinaryHeap α} {xs : List α}
    (hl : h.a.capacity < h.a.items.length + xs.length) : h.extend xs = none := by
  rw [extend, Vec.extend_eq_none hl]; rfl


/-! ## Popping everything -/

theorem popAll_of_nil {h : BinaryHeap α} (h0 : h.a.items = []) : h.popAll = ([], h) := by
  rw [popAll]; split <;> simp_all [pop_of_nil h0]

theorem popAll_of_len_pos {h : BinaryHeap α} (h0 : 0 < h.a.items.length) :
    h.popAll = (h.a.items[0] :: h.pop.2.popAll.1, h.pop.2.popAll.2) := by
  rw [popAll]
  split
  · rename_i hp
    rw [Prod.ext_iff, pop_fst h0] at hp; simp at hp
  · rename_i x h' hp
    obtain ⟨rfl, rfl⟩ : h.a.items[0] = x ∧ h.pop.2 = h' := by
      rw [Prod.ext_iff, pop_fst h0] at hp; simpa using hp
    rfl

theorem popAll_spec (h : BinaryHeap α) :
    h.popAll.1.Perm h.a.items ∧ h.popAll.2.a.items = [] ∧ h.popAll.2.a.capacity = h.a.capacity := by
  induction h using popAll.induct with
  | case1 h h' hp =>
    have h0 : h.a.items = [] := by
      by_contra hne
      rw [Prod.ext_iff, pop_fst (List.length_pos.mpr hne)] at hp; simp at hp
    rw [popAll_of_nil h0, h0]; simp
  | case2 h x h' hp ih =>
    have h0 : 0 < h.a.items.length := by
      by_contra hz; rw [pop_of_nil (List.length_eq_zero.mp (by omega))] at hp; simp at hp
    obtain ⟨rfl, rfl⟩ : h.a.items[0] = x ∧ h.pop.2 = h' := by
      rw [Prod.ext_iff, pop_fst h0] at hp; simpa using hp
    rw [popAll_of_len_pos h0]
    exact ⟨(ih.1.cons _).trans (pop_perm h0), ih.2.1, by rw [ih.2.2, pop_capacity]⟩

theorem peekMut_eq_some_iff {h : BinaryHeap α} {g : PeekMut α} :
    h.peekMut = some g ↔ 0 < h.a.items.length ∧ g.heap = h := by
  unfold peekMut
  split_ifs with hE
  · simp only [isEmpty, Vec.isEmpty_iff] at hE
    simp [hE]
  · have := len_pos_of_not_isEmpty hE
    constructor
    · rintro ⟨⟩; exact ⟨this, rfl⟩
    · rintro ⟨-, rfl⟩; rfl

theorem peekMut_eq_none_iff {h : BinaryHeap α} : h.peekMut = none ↔ h.a.items = [] := by
  unfold peekMut
  split_ifs with hE
  · simpa [isEmpty, Vec.isEmpty_iff] using hE
  · simpa [isEmpty, Vec.isEmpty_iff] using hE

end BinaryHeap

/-! ## The guard -/

namespace PeekMut

@[simp] theorem drop_items (g : PeekMut α) : g.drop.a.items = heapify g.heap.a.items 0 := rfl

@[simp] theorem drop_capacity (g : PeekMut α) : g.drop.a.capacity = g.heap.a.capacity := rfl

theorem pop_eq (g : PeekMut α) : g.pop = (g.deref, g.heap.pop.2) := by
  have := BinaryHeap.pop_fst (h := g.heap) g.nonempty
  simp only [pop, deref, this, Option.get_some, List.get_eq_getElem]

theorem isHeap_drop {g : PeekMut α} (hg : HeapBelow g.heap.a.items 1) : IsHeap g.drop.a.items :=
  isHeap_heapify_zero hg

end PeekMut

end CocaHeap
