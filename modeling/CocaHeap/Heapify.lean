import CocaHeap.Slice

/-! # `heapify`

The sift-down of `binary_heap.rs` (MAX-HEAPIFY of CLRS, chapter 6). When the subtrees of the two
children of `i` are in max-heap order, `heapify a i` puts the whole subtree of `i` in order,
moving entries only inside that subtree.
-/

namespace CocaHeap

variable {α : Type*} [LinearOrder α]

/-! ## The child `heapify` picks -/

theorem ltAt.trans {a : List α} {i j k : Nat} (h₁ : ltAt a i j) (h₂ : ltAt a j k) : ltAt a i k := by
  obtain ⟨x, hx, y, hy, hxy⟩ := h₁
  obtain ⟨y', hy', z, hz, hyz⟩ := h₂
  cases Option.mem_unique hy hy'
  exact ⟨x, hx, z, hz, hxy.trans hyz⟩

/-- One comparison of `heapify`: `c` if it is in the slice and `a[c] > a[m]`, else `m`. -/
def pickGreater (a : List α) (m c : Nat) : Nat := if c < a.length ∧ ltAt a m c then c else m

/-- The `largest` of `heapify`: `i`, then the left child if greater, then the right child if
greater than that. -/
def largest (a : List α) (i : Nat) : Nat := pickGreater a (pickGreater a i (left i)) (right i)

theorem pickGreater_eq_or (a : List α) (m c : Nat) : pickGreater a m c = m ∨ pickGreater a m c = c := by
  unfold pickGreater; split_ifs <;> simp

theorem ltAt_pickGreater {a : List α} {m c : Nat} (h : pickGreater a m c ≠ m) :
    pickGreater a m c = c ∧ ltAt a m c := by
  unfold pickGreater at *; split_ifs at * with hc <;> simp_all

theorem pickGreater_lt_length {a : List α} {m c : Nat} (h : m < a.length) :
    pickGreater a m c < a.length := by
  unfold pickGreater; split_ifs with hc <;> omega

theorem le_pickGreater_left (a : List α) (m c : Nat) : LeAt a m (pickGreater a m c) := by
  unfold pickGreater; split_ifs with hc
  · exact hc.2.leAt
  · exact .refl a m

theorem le_pickGreater_right (a : List α) (m c : Nat) : LeAt a c (pickGreater a m c) := by
  unfold pickGreater; split_ifs with hc
  · exact .refl a c
  · by_cases hl : c < a.length
    · exact not_ltAt.mp fun h => hc ⟨hl, h⟩
    · exact leAt_of_length_le (by omega)

theorem largest_child {a : List α} {i : Nat} (h : largest a i ≠ i) :
    largest a i = left i ∨ largest a i = right i := by
  unfold largest at *
  rcases pickGreater_eq_or a (pickGreater a i (left i)) (right i) with e | e <;> rw [e] at h ⊢
  · rcases pickGreater_eq_or a i (left i) with e' | e' <;> simp_all
  · exact .inr rfl

theorem ltAt_largest {a : List α} {i : Nat} (h : largest a i ≠ i) : ltAt a i (largest a i) := by
  unfold largest at *
  by_cases h₁ : pickGreater a i (left i) = i
  · rw [h₁] at h ⊢
    obtain ⟨e, hlt⟩ := ltAt_pickGreater h
    rw [e]; exact hlt
  · have hl := ltAt_pickGreater h₁
    by_cases h₂ : pickGreater a (pickGreater a i (left i)) (right i) = pickGreater a i (left i)
    · rw [h₂, hl.1]; exact hl.2
    · have hr := ltAt_pickGreater h₂
      rw [hr.1]; rw [hl.1] at hr; exact hl.2.trans hr.2

theorem largest_bounds {a : List α} {i : Nat} (h : largest a i ≠ i) :
    i < largest a i ∧ largest a i < a.length := by
  refine ⟨?_, (ltAt_largest h).lt_length.2⟩
  rcases largest_child h with e | e <;> rw [e] <;> simp only [left_eq, right_eq] <;> omega

theorem largest_ge_of_ne {a : List α} {i : Nat} (h : largest a i ≠ i) :
    2 * i + 1 ≤ largest a i ∧ largest a i < a.length := by
  refine ⟨?_, (largest_bounds h).2⟩
  rcases largest_child h with e | e <;> rw [e] <;> simp

theorem le_largest (a : List α) (i : Nat) :
    LeAt a i (largest a i) ∧ LeAt a (left i) (largest a i) ∧ LeAt a (right i) (largest a i) := by
  have hm : i < a.length → pickGreater a i (left i) < a.length := pickGreater_lt_length
  refine ⟨(le_pickGreater_left a i _).trans (le_pickGreater_left a _ _) hm,
    (le_pickGreater_right a i _).trans (le_pickGreater_left a _ _) (fun h => hm (by simp at h; omega)),
    le_pickGreater_right a _ _⟩

theorem largest_eq_self_iff {a : List α} {i : Nat} :
    largest a i = i ↔ LeAt a (left i) i ∧ LeAt a (right i) i := by
  constructor
  · intro h
    have := le_largest a i
    rw [h] at this
    exact ⟨this.2.1, this.2.2⟩
  · rintro ⟨hl, hr⟩
    have hl' : ¬ ltAt a i (left i) := not_ltAt.mpr hl
    have hr' : ¬ ltAt a i (right i) := not_ltAt.mpr hr
    simp only [largest, pickGreater, hl', hr', and_false, if_false]

/-! ## `heapify` -/

/-- `heapify` of `binary_heap.rs`. -/
def heapify (a : List α) (i : Nat) : List α :=
  let largest := largest a i
  if largest ≠ i then heapify (swap a i largest) largest else a
termination_by a.length - i
decreasing_by
  have := largest_bounds ‹_›
  simp only [length_swap]
  omega

theorem heapify_of_eq {a : List α} {i : Nat} (h : largest a i = i) : heapify a i = a := by
  rw [heapify]
  simp [h]

theorem heapify_of_ne {a : List α} {i : Nat} (h : largest a i ≠ i) :
    heapify a i = heapify (swap a i (largest a i)) (largest a i) := by
  rw [heapify]
  simp [h]

@[simp] theorem heapify_nil (i : Nat) : heapify ([] : List α) i = [] :=
  heapify_of_eq (largest_eq_self_iff.mpr ⟨leAt_of_length_le (by simp), leAt_of_length_le (by simp)⟩)

@[simp] theorem length_heapify (a : List α) (i : Nat) : (heapify a i).length = a.length := by
  induction a, i using heapify.induct with
  | case1 a i _ hne ih => rw [heapify_of_ne hne, ih, length_swap]
  | case2 a i _ heq => rw [heapify_of_eq (not_not.mp heq)]

theorem heapify_perm (a : List α) (i : Nat) : (heapify a i).Perm a := by
  induction a, i using heapify.induct with
  | case1 a i _ hne ih => rw [heapify_of_ne hne]; exact ih.trans (swap_perm _ _ _)
  | case2 a i _ heq => rw [heapify_of_eq (not_not.mp heq)]

theorem inSubtree_largest {a : List α} {i : Nat} (h : largest a i ≠ i) : InSubtree i (largest a i) := by
  rcases largest_child h with e | e <;> rw [e]
  · exact InSubtree.refl.leftChild
  · exact InSubtree.refl.rightChild

theorem getElem?_heapify_of_not_inSubtree {a : List α} {i k : Nat} (hk : ¬ InSubtree i k) :
    (heapify a i)[k]? = a[k]? := by
  induction a, i using heapify.induct with
  | case1 a i _ hne ih =>
    have hm := inSubtree_largest hne
    rw [heapify_of_ne hne, ih (fun h => hk (hm.trans h)),
      getElem?_swap_of_ne (fun e => hk (by rw [e]; exact .refl)) (fun e => hk (by rw [e]; exact hm))]
  | case2 a i _ heq => rw [heapify_of_eq (not_not.mp heq)]

/-! ## What `heapify` keeps and what it restores -/

/-- Every entry of the subtree rooted at `r` is at most `v`. -/
def SubtreeLe (a : List α) (r : Nat) (v : α) : Prop := ∀ k, InSubtree r k → ∀ x ∈ a[k]?, x ≤ v

theorem SubtreeLe.mono {a : List α} {r s : Nat} {v : α} (h : SubtreeLe a r v) (hs : InSubtree r s) :
    SubtreeLe a s v :=
  fun k hk => h k (hs.trans hk)

theorem subtreeLe_heapify {a : List α} {i : Nat} {v : α} (h : SubtreeLe a i v) :
    SubtreeLe (heapify a i) i v := by
  induction a, i using heapify.induct with
  | case1 a i _ hne ih =>
    have hm := inSubtree_largest hne
    obtain ⟨him, hma⟩ := largest_bounds hne
    have hb : SubtreeLe (swap a i (largest a i)) i v := by
      intro k hk
      rw [getElem?_swap (by omega) hma, Equiv.swap_apply_def]
      split_ifs
      exacts [h _ hm, h _ .refl, h k hk]
    rw [heapify_of_ne hne]
    intro k hk
    by_cases hkm : InSubtree (largest a i) k
    · exact ih (hb.mono hm) k hkm
    · rw [getElem?_heapify_of_not_inSubtree hkm]
      exact hb k hk
  | case2 a i _ heq => rwa [heapify_of_eq (not_not.mp heq)]

theorem heapFrom_of_children {a : List α} {i : Nat} (hl : HeapFrom a (left i))
    (hr : HeapFrom a (right i)) (hli : LeAt a (left i) i) (hri : LeAt a (right i) i) :
    HeapFrom a i := by
  refine heapFrom_iff.mpr fun c hc hp => ?_
  rcases InSubtree.iff_children.mp hp with e | h | h
  · rcases (parent_eq_iff hc).mp e with rfl | rfl <;> rw [e]
    exacts [hli, hri]
  · exact heapFrom_iff.mp hl c hc h
  · exact heapFrom_iff.mp hr c hc h

theorem heapFrom_swap_largest {a : List α} {i c : Nat} (hne : largest a i ≠ i)
    (hm : HeapFrom a (largest a i)) (hc : c = left (largest a i) ∨ c = right (largest a i)) :
    HeapFrom (swap a i (largest a i)) c := by
  have him := (largest_bounds hne).1
  have hsub : InSubtree (largest a i) c := by
    rcases hc with rfl | rfl
    exacts [InSubtree.refl.leftChild, InSubtree.refl.rightChild]
  refine (hm.mono hsub).congr fun k hk => getElem?_swap_of_ne ?_ ?_ <;>
  · have := hk.le; rcases hc with rfl | rfl <;> simp at this <;> omega

theorem heapFrom_largest {a : List α} {i : Nat} (hl : HeapFrom a (left i))
    (hr : HeapFrom a (right i)) (hne : largest a i ≠ i) : HeapFrom a (largest a i) := by
  rcases largest_child hne with e | e <;> rw [e] <;> assumption

theorem heapFrom_heapify_swap {a : List α} {i m : Nat} (hm_eq : largest a i = m) (hne : m ≠ i)
    (hl : HeapFrom a (left i)) (hr : HeapFrom a (right i))
    (hd : HeapFrom (heapify (swap a i m) m) m) : HeapFrom (heapify (swap a i m) m) i := by
  subst hm_eq
  obtain ⟨him, hma⟩ := largest_bounds hne
  have hm := heapFrom_largest hl hr hne
  -- Outside the subtree of `m` and off `i` the result is `a`; at `i` it holds the old `a[m]`.
  have fd : ∀ k, ¬ InSubtree (largest a i) k → k ≠ i →
      (heapify (swap a i (largest a i)) (largest a i))[k]? = a[k]? := fun k hk hki => by
    rw [getElem?_heapify_of_not_inSubtree hk,
      getElem?_swap_of_ne hki (fun e => hk (by rw [e]; exact .refl))]
  have di : (heapify (swap a i (largest a i)) (largest a i))[i]? = a[largest a i]? := by
    rw [getElem?_heapify_of_not_inSubtree (fun h => absurd h.le (by omega)),
      getElem?_swap (by omega) hma, Equiv.swap_apply_left]
  -- Every entry of the subtree of `m` is at most the old `a[m]`.
  have dm : SubtreeLe (heapify (swap a i (largest a i)) (largest a i)) (largest a i)
      a[largest a i] := by
    refine subtreeLe_heapify fun k hk => ?_
    rw [getElem?_swap (by omega) hma, Equiv.swap_apply_def]
    split_ifs with h₁ h₂
    · exact absurd (h₁ ▸ hk).le (by omega)
    · exact fun x hx => (le_largest a i).1 x hx _ (List.getElem?_eq_getElem hma)
    · exact fun x hx => hm.le_root hk x hx _ (List.getElem?_eq_getElem hma)
  refine heapFrom_iff.mpr fun c hc hp => ?_
  by_cases hpm : InSubtree (largest a i) (parent c)
  · exact heapFrom_iff.mp hd c hc hpm
  by_cases hcm : c = largest a i
  · rw [hcm, (parent_eq_iff (by omega)).mpr (largest_child hne)]
    intro x hx y hy
    rw [di, List.getElem?_eq_getElem hma] at hy
    cases hy
    exact dm _ .refl x hx
  have hcs : ¬ InSubtree (largest a i) c := fun h => (h.eq_or_parent).elim hcm fun h => hpm h.2
  have hci : c ≠ i := by have := hp.le; have := parent_lt hc; omega
  rcases InSubtree.iff_children.mp hp with e | h | h
  · rw [leAt_congr (fd c hcs hci) (by rw [e]; exact di)]
    rcases (parent_eq_iff hc).mp e with rfl | rfl
    exacts [(le_largest a i).2.1, (le_largest a i).2.2]
  all_goals
    have hpi : parent c ≠ i := by have := h.le; simp at this; omega
    rw [leAt_congr (fd c hcs hci) (fd _ hpm hpi)]
  · exact heapFrom_iff.mp hl c hc h
  · exact heapFrom_iff.mp hr c hc h

theorem heapFrom_heapify {a : List α} {i : Nat} (hl : HeapFrom a (left i))
    (hr : HeapFrom a (right i)) : HeapFrom (heapify a i) i := by
  induction a, i using heapify.induct with
  | case2 a i _ heq =>
    have ⟨hli, hri⟩ := largest_eq_self_iff.mp (not_not.mp heq)
    rw [heapify_of_eq (not_not.mp heq)]
    exact heapFrom_of_children hl hr hli hri
  | case1 a i _ hne ih =>
    have hm := heapFrom_largest hl hr hne
    rw [heapify_of_ne hne]
    exact heapFrom_heapify_swap rfl hne hl hr
      (ih (heapFrom_swap_largest hne hm (.inl rfl)) (heapFrom_swap_largest hne hm (.inr rfl)))

theorem heapify_of_heapFrom {a : List α} {i : Nat} (h : HeapFrom a i) : heapify a i = a := by
  refine heapify_of_eq (largest_eq_self_iff.mpr ⟨?_, ?_⟩)
  · simpa using heapFrom_iff.mp h (left i) (by simp) (by simpa using InSubtree.refl)
  · simpa using heapFrom_iff.mp h (right i) (by simp) (by simpa using InSubtree.refl)

/-- `heapify a i` ends, moves entries only inside the subtree of `i`, leaves that subtree in
max-heap order when both child subtrees were, and changes nothing when it already was. -/
theorem heapify_restores_subtree (a : List α) (i : Nat) (hl : HeapFrom a (left i))
    (hr : HeapFrom a (right i)) :
    (heapify a i).Perm a ∧ (∀ k, ¬ InSubtree i k → (heapify a i)[k]? = a[k]?) ∧
      HeapFrom (heapify a i) i ∧ (HeapFrom a i → heapify a i = a) :=
  ⟨heapify_perm a i, fun _ hk => getElem?_heapify_of_not_inSubtree hk, heapFrom_heapify hl hr,
    heapify_of_heapFrom⟩

theorem heapify_restores_subtree_at_root :
    HeapFrom [1, 3, 2] (left 0) ∧ HeapFrom [1, 3, 2] (right 0) ∧
      HeapFrom (heapify [1, 3, 2] 0) 0 :=
  ⟨by decide, by decide, (heapify_restores_subtree [1, 3, 2] 0 (by decide) (by decide)).2.2.1⟩

end CocaHeap
