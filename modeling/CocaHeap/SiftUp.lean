import CocaHeap.Slice

/-! # The sift-up loop of `try_push`

`try_push` appends the item and then walks it up towards the root. The loop keeps
`SiftUpInv`: every parent and child pair is in order except perhaps the one above the walking
entry, and the parent above it is at least both of its children.
-/

namespace CocaHeap

variable {α : Type*} [LinearOrder α]

/-- The `while` loop of `try_push`: while `i > 0` and `a[parent(i)] < a[i]`, swap the two and go
to the parent. -/
def siftUp (a : List α) (i : Nat) : List α :=
  if 0 < i ∧ ltAt a (parent i) i then siftUp (swap a i (parent i)) (parent i) else a
termination_by i
decreasing_by exact parent_lt ‹_ ∧ _›.1

theorem siftUp_of_lt {a : List α} {i : Nat} (h : 0 < i ∧ ltAt a (parent i) i) :
    siftUp a i = siftUp (swap a i (parent i)) (parent i) := by
  rw [siftUp, if_pos h]

theorem siftUp_of_not {a : List α} {i : Nat} (h : ¬ (0 < i ∧ ltAt a (parent i) i)) :
    siftUp a i = a := by
  rw [siftUp, if_neg h]

@[simp] theorem length_siftUp (a : List α) (i : Nat) : (siftUp a i).length = a.length := by
  induction a, i using siftUp.induct with
  | case1 a i h ih => rw [siftUp_of_lt h, ih, length_swap]
  | case2 a i h => rw [siftUp_of_not h]

theorem siftUp_perm (a : List α) (i : Nat) : (siftUp a i).Perm a := by
  induction a, i using siftUp.induct with
  | case1 a i h ih => rw [siftUp_of_lt h]; exact ih.trans (swap_perm _ _ _)
  | case2 a i h => rw [siftUp_of_not h]

/-- The invariant of the loop at the walking position `i`. -/
structure SiftUpInv (a : List α) (i : Nat) : Prop where
  /-- Every pair but `(parent i, i)` is in order. -/
  except : ∀ c, 0 < c → c ≠ i → LeAt a c (parent c)
  /-- `a[parent i]` is at least every child of `i`. -/
  grand : 0 < i → ∀ c, 0 < c → parent c = i → LeAt a c (parent i)

theorem SiftUpInv.step {a : List α} {i : Nat} (h : SiftUpInv a i) (hi : 0 < i)
    (hlt : ltAt a (parent i) i) : SiftUpInv (swap a i (parent i)) (parent i) := by
  obtain ⟨hp, hil⟩ := hlt.lt_length
  have hpi := parent_lt hi
  constructor
  · intro c hc hcp
    rw [leAt_swap hil hp]
    by_cases hci : c = i
    · rw [hci, Equiv.swap_apply_left, Equiv.swap_apply_right]
      exact hlt.leAt
    rw [Equiv.swap_apply_of_ne_of_ne hci hcp]
    by_cases hc1 : parent c = i
    · rw [hc1, Equiv.swap_apply_left]
      exact h.grand hi c hc hc1
    by_cases hc2 : parent c = parent i
    · rw [hc2, Equiv.swap_apply_right]
      exact (hc2 ▸ h.except c hc hci).trans hlt.leAt (fun _ => hp)
    · rw [Equiv.swap_apply_of_ne_of_ne hc1 hc2]
      exact h.except c hc hci
  · intro hp0 c hc hcp
    have hpp := parent_lt hp0
    have hσ : Equiv.swap i (parent i) (parent (parent i)) = parent (parent i) :=
      Equiv.swap_apply_of_ne_of_ne (by omega) (by omega)
    rw [leAt_swap hil hp, hσ]
    have hup := h.except _ hp0 (by omega)
    by_cases hci : c = i
    · rwa [hci, Equiv.swap_apply_left]
    · have hcp' : c ≠ parent i := by have := parent_lt hc; omega
      rw [Equiv.swap_apply_of_ne_of_ne hci hcp']
      exact (hcp ▸ h.except c hc hci).trans hup (fun _ => hp)

theorem SiftUpInv.isHeap {a : List α} {i : Nat} (h : SiftUpInv a i)
    (hstop : ¬ (0 < i ∧ ltAt a (parent i) i)) : IsHeap a := by
  intro c _ hc
  by_cases hci : c = i
  · subst hci
    exact not_ltAt.mp fun h' => hstop ⟨hc, h'⟩
  · exact h.except c hc hci

theorem isHeap_siftUp {a : List α} {i : Nat} (h : SiftUpInv a i) : IsHeap (siftUp a i) := by
  induction a, i using siftUp.induct with
  | case1 a i hc ih => rw [siftUp_of_lt hc]; exact ih (h.step hc.1 hc.2)
  | case2 a i hc => rw [siftUp_of_not hc]; exact h.isHeap hc

theorem siftUpInv_last {a : List α} (hn : 0 < a.length) (h : IsHeap (a.take (a.length - 1))) :
    SiftUpInv a (a.length - 1) := by
  constructor
  · intro c hc hcn
    by_cases hcl : c < a.length
    · have := parent_lt hc
      have e : ∀ k, k < a.length - 1 → (a.take (a.length - 1))[k]? = a[k]? := fun k hk => by
        rw [List.getElem?_take, if_pos hk]
      rw [← leAt_congr (e c (by omega)) (e _ (by omega))]
      exact h c (by simp; omega) hc
    · exact leAt_of_length_le (by omega)
  · intro _ c hc hcp
    rw [parent_eq_iff hc] at hcp
    exact leAt_of_length_le (by rcases hcp with rfl | rfl <;> simp <;> omega)

/-- The sift-up of `try_push`, from a slice whose prefix `a[..n-1]` is a heap: the invariant
holds at the start and every turn of the loop keeps it, and the loop ends with a permutation of
the slice in max-heap order. -/
theorem siftUp_try_push (a : List α) (hn : 0 < a.length) (h : IsHeap (a.take (a.length - 1))) :
    SiftUpInv a (a.length - 1) ∧
      (∀ (b : List α) i, SiftUpInv b i → 0 < i → ltAt b (parent i) i →
        SiftUpInv (swap b i (parent i)) (parent i)) ∧
      IsHeap (siftUp a (a.length - 1)) ∧ (siftUp a (a.length - 1)).Perm a :=
  ⟨siftUpInv_last hn h, fun _ _ hb hi hlt => hb.step hi hlt,
    isHeap_siftUp (siftUpInv_last hn h), siftUp_perm _ _⟩

theorem siftUp_try_push_three :
    0 < [3, 1, 5].length ∧ IsHeap ([3, 1, 5].take ([3, 1, 5].length - 1)) ∧
      IsHeap (siftUp [3, 1, 5] ([3, 1, 5].length - 1)) :=
  ⟨by decide, by decide, (siftUp_try_push [3, 1, 5] (by decide) (by decide)).2.2.1⟩

end CocaHeap
