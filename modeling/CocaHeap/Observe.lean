import CocaHeap.Run

/-! # Bulk calls and a leaked guard

`extend` and `FromIterator` behave as pushing their entries one at a time: they end holding the
same entries over the same storage. A leaked `PeekMut` skips the `heapify` of its `Drop`, and the
heap it leaves is in order exactly when the root still beats its children.
-/

namespace CocaHeap

variable {α : Type*} [LinearOrder α]

/-! ## Bulk calls and one call per entry -/

theorem step_push {h : BinaryHeap α} (x : α) (hl : h.a.items.length < h.a.capacity) :
    step (.heap h) (.push x) = some (.unit, .heap (h.tryPush x).2) := by
  simp only [step, heapStep,
    BinaryHeap.push_eq_some_iff.mpr ⟨hl, Prod.ext (BinaryHeap.tryPush_of_lt x hl).1 rfl⟩]
  rfl

theorem run_pushes {h : BinaryHeap α} {xs : List α}
    (hl : h.a.items.length + xs.length ≤ h.a.capacity) :
    ∃ h' : BinaryHeap α, run (.heap h) (xs.map .push) = some (xs.map fun _ => .unit, .heap h') ∧
      (h'.a.items : Multiset α) = ↑h.a.items + ↑xs ∧ h'.a.capacity = h.a.capacity := by
  induction xs generalizing h with
  | nil => exact ⟨h, rfl, by simp, rfl⟩
  | cons x xs ih =>
    have hx : h.a.items.length < h.a.capacity := by simp at hl; omega
    obtain ⟨-, hitems, hcap⟩ := BinaryHeap.tryPush_of_lt x hx
    obtain ⟨h', hr, he, hc⟩ := ih (h := (h.tryPush x).2) (by
      rw [hitems, hcap, length_siftUp, List.length_append, List.length_singleton]
      simp only [List.length_cons] at hl
      omega)
    refine ⟨h', by rw [List.map_cons, run_cons_of_step _ (step_push x hx), hr]; rfl, ?_,
      hc.trans hcap⟩
    rw [he, Multiset.coe_eq_coe.mpr (BinaryHeap.tryPush_perm x hx)]
    simp [add_assoc]

/-- `extend` and `FromIterator` are pushing their entries one at a time: each leaves a heap that
holds the same entries over the same storage as the pushes do, the same abstract state. -/
theorem extend_eq_pushes :
    (∀ (h : BinaryHeap α) (xs : List α), h.a.items.length + xs.length ≤ h.a.capacity →
      ∃ h₁ h₂ : BinaryHeap α, run (.heap h) [.extend xs] = some ([.unit], .heap h₁) ∧
        run (.heap h) (xs.map .push) = some (xs.map fun _ => .unit, .heap h₂) ∧
        abs (.heap h₁) = abs (.heap h₂)) ∧
    (∀ (c : Nat) (xs : List α), xs.length ≤ c →
      ∃ h₁ h₂ : BinaryHeap α, BinaryHeap.fromIter c xs = some h₁ ∧
        run (.heap (BinaryHeap.fromStorage c)) (xs.map .push) =
          some (xs.map fun _ => .unit, .heap h₂) ∧
        abs (.heap h₁) = abs (.heap h₂)) := by
  refine ⟨fun h xs hl => ?_, fun c xs hl => ?_⟩
  · obtain ⟨h₁, he₁, hitems, hcap⟩ := BinaryHeap.extend_of_fits hl
    obtain ⟨h₂, hr, he, hc⟩ := run_pushes hl
    refine ⟨h₁, h₂, ?_, hr, abs_heap (q := PQ.ofVec h₂.a) ?_ (hcap.trans hc.symm)⟩
    · simp only [run, step, heapStep, he₁]; rfl
    · show (h₁.a.items : Multiset α) = h₂.a.items
      rw [he, hitems, Multiset.coe_eq_coe.mpr (buildHeap_perm _), Multiset.coe_add]
  · obtain ⟨h₂, hr, he, hc⟩ := run_pushes (h := BinaryHeap.fromStorage c) (by simpa using hl)
    refine ⟨_, h₂, BinaryHeap.fromIter_eq hl, hr, ?_⟩
    rw [abs_fromVec]
    exact (abs_heap (q := PQ.ofVec ⟨xs, c, hl⟩) (by simpa [PQ.ofVec] using he) hc).symm

theorem extend_eq_pushes_two :
    (BinaryHeap.fromStorage 3 : BinaryHeap ℕ).a.items.length + [1, 2].length ≤
        (BinaryHeap.fromStorage 3 : BinaryHeap ℕ).a.capacity ∧ [1, 2].length ≤ 3 ∧
      (∃ h₁ h₂ : BinaryHeap ℕ, run (.heap (BinaryHeap.fromStorage 3)) [.extend [1, 2]] =
          some ([.unit], .heap h₁) ∧
        run (.heap (BinaryHeap.fromStorage 3)) ([1, 2].map .push) =
          some ([1, 2].map fun _ => .unit, .heap h₂) ∧ abs (.heap h₁) = abs (.heap h₂)) ∧
      ∃ h₁ h₂ : BinaryHeap ℕ, BinaryHeap.fromIter 3 [1, 2] = some h₁ ∧
        run (.heap (BinaryHeap.fromStorage 3)) ([1, 2].map .push) =
          some ([1, 2].map fun _ => .unit, .heap h₂) ∧ abs (.heap h₁) = abs (.heap h₂) :=
  ⟨by decide, by decide, extend_eq_pushes.1 _ [1, 2] (by decide), extend_eq_pushes.2 3 [1, 2] (by decide)⟩

/-! ## A leaked guard -/

omit [LinearOrder α] in
/-- `mem::forget(guard)`: the borrow ends without the guard's `Drop`, so the heap is left as the
guard saw it, with whatever the root's slot holds. -/
def PeekMut.leak (g : PeekMut α) : BinaryHeap α := g.heap

theorem isHeap_iff_root_ge {a : List α} (h : HeapBelow a 1) :
    IsHeap a ↔ LeAt a 1 0 ∧ LeAt a 2 0 := by
  have hb := heapBelow_iff.mp h
  refine ⟨fun hh => ?_, fun ⟨h₁, h₂⟩ => ?_⟩
  · have := heapFrom_iff.mp (isHeap_iff_heapFrom_zero.mp hh)
    exact ⟨this 1 (by decide) (.zero _), this 2 (by decide) (.zero _)⟩
  · exact isHeap_iff_heapFrom_zero.mpr
      (heapFrom_of_children (hb _ (by simp)) (hb _ (by simp)) h₁ h₂)

/-- Leaking a guard skips the `heapify` of its `Drop`. The heap it leaves is a max-heap exactly
when the root's slot holds an entry at least both of its children, as it does when nothing was
written through the guard; the next `pop` returns that entry, which is a greatest one exactly
then. -/
theorem leak_isHeap_iff {g : PeekMut α} (hr : Reachable (.peeking g)) :
    (IsHeap g.leak.a.items ↔ LeAt g.heap.a.items 1 0 ∧ LeAt g.heap.a.items 2 0) ∧
      g.leak.pop.1 = some g.deref ∧
      ((∀ y ∈ g.leak.a.items, y ≤ g.deref) ↔ LeAt g.heap.a.items 1 0 ∧ LeAt g.heap.a.items 2 0) := by
  have hiff := isHeap_iff_root_ge (a := g.heap.a.items) hr.inv
  have h0 : g.heap.a.items[0]? = some g.deref := by rw [g.items_eq_cons, List.getElem?_cons_zero]
  refine ⟨hiff, by rw [PeekMut.leak, BinaryHeap.pop_fst g.nonempty]; rfl, fun hmax => ?_, fun hc => ?_⟩
  · constructor <;> intro x hx y hy <;> rw [h0, Option.mem_some_iff] at hy <;> subst hy
    all_goals exact hmax x (List.getElem?_mem hx)
  · simpa [PeekMut.deref, PeekMut.leak] using (hiff.mpr hc).le_head g.nonempty

theorem leak_isHeap_iff_after_write :
    Reachable (.peeking ((⟨⟨⟨[3, 1, 2], 3, by decide⟩⟩, by decide⟩ : PeekMut ℕ).set 0)) ∧
      ¬ IsHeap ((⟨⟨⟨[3, 1, 2], 3, by decide⟩⟩, by decide⟩ : PeekMut ℕ).set 0).leak.a.items ∧
      ((⟨⟨⟨[3, 1, 2], 3, by decide⟩⟩, by decide⟩ : PeekMut ℕ).set 0).leak.pop.1 = some 0 ∧
      ¬ ∀ y ∈ ((⟨⟨⟨[3, 1, 2], 3, by decide⟩⟩, by decide⟩ : PeekMut ℕ).set 0).leak.a.items, y ≤ 0 := by
  -- `From<Vec>` builds `[3, 1, 2]` from `[1, 3, 2]`; then `peek_mut` and `*guard = 0`.
  have hv : BinaryHeap.fromVec ⟨[1, 3, 2], 3, by decide⟩ = ⟨⟨[3, 1, 2], 3, by decide⟩⟩ := by
    show BinaryHeap.mk (Vec.mk (heapify [1, 3, 2] 0) 3 _) = _
    rw [BinaryHeap.mk.injEq, Vec.mk.injEq, heapify_of_ne (by decide), heapify_of_eq (by decide)]
    exact ⟨rfl, rfl⟩
  have h₀ : Reachable (.heap (⟨⟨[3, 1, 2], 3, by decide⟩⟩ : BinaryHeap ℕ)) := hv ▸ .fromVec _
  have hr : Reachable (.peeking ((⟨⟨⟨[3, 1, 2], 3, by decide⟩⟩, by decide⟩ : PeekMut ℕ).set 0)) :=
    (h₀.step (o := .peekMut) rfl).step (o := .write 0) rfl
  obtain ⟨h₁, h₂, h₃⟩ := leak_isHeap_iff hr
  exact ⟨hr, fun hh => absurd (h₁.mp hh) (by decide), h₂, fun hm => absurd (h₃.mp hm) (by decide)⟩

end CocaHeap
