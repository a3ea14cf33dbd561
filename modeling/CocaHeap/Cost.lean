import Mathlib.Algebra.Order.BigOperators.Group.List
import Mathlib.Data.Nat.Log
import CocaHeap.Operations
import CocaHeap.Checked

/-! # How much work each operation does

The module comment of `binary_heap.rs` promises `O(log n)` for `push` and `pop`, `O(n)` for
building a heap from a vector and `O(n log n)` for `into_sorted_vec`. A call of `heapify` makes
at most two comparisons and one swap besides the call it makes of itself, and a turn of the
sift-up loop of `try_push` one comparison and one swap, so the work is counted in calls of
`heapify` and in turns of that loop. Each counting copy below follows the code step for step,
and its first component is what the model computes.

The count of `heapify` is also the depth of stack it needs: the checked `heapify` of
`Checked.lean` returns exactly when it is given that many frames.
-/

namespace CocaHeap

variable {α : Type*} [LinearOrder α]

/-! ## Arithmetic of tree heights -/

-- One step down the tree, from `i` to a child `c` in a slice of `n` entries, lowers the height
-- `log₂ (n / (i + 1))` by at least one.
theorem log_div_child_lt {n i c : Nat} (hc : 2 * i + 1 ≤ c) (hn : c < n) :
    Nat.log 2 (n / (c + 1)) + 1 ≤ Nat.log 2 (n / (i + 1)) := by
  have h₂ : 2 ≤ n / (i + 1) := (Nat.le_div_iff_mul_le (Nat.succ_pos i)).mpr (by omega)
  have hpos : 0 < Nat.log 2 (n / (i + 1)) := Nat.log_pos (by norm_num) h₂
  have hle : n / (c + 1) ≤ n / (i + 1) / 2 := by
    rw [Nat.div_div_eq_div_mul]
    exact Nat.div_le_div_left (by omega) (by omega)
  have := Nat.log_mono_right (b := 2) hle
  rw [Nat.log_div_base] at this
  omega

-- Halving `n` lowers the height of every node by one, and of the nodes past `n / 2`, which are
-- leaves, by none.
theorem log_div_le_half (n i : Nat) :
    Nat.log 2 (n / (i + 1)) ≤ (if i < n / 2 then 1 else 0) + Nat.log 2 (n / 2 / (i + 1)) := by
  by_cases h₂ : 2 ≤ n / (i + 1)
  · have hi : i < n / 2 := by
      have := (Nat.le_div_iff_mul_le (Nat.succ_pos i)).mp h₂
      omega
    rw [Nat.log_of_one_lt_of_le (by norm_num) h₂, if_pos hi, Nat.div_div_eq_div_mul,
      Nat.div_div_eq_div_mul, Nat.mul_comm]
    omega
  · rw [Nat.log_of_lt (by omega)]
    exact Nat.zero_le _

theorem sum_range_ite_lt (m k : Nat) :
    ((List.range m).map fun i => if i < k then 1 else 0).sum = min m k := by
  induction m with
  | zero => simp
  | succ m ih =>
    rw [List.range_succ, List.map_append, List.sum_append, ih]
    simp only [List.map_cons, List.map_nil, List.sum_cons, List.sum_nil]
    split_ifs <;> omega

-- The heights of the nodes of a tree of `n` nodes sum to at most `n`: halving `n` lowers the
-- heights of the first `n / 2` nodes by one and leaves a tree of `n / 2` nodes.
theorem sum_log_div_le (n m : Nat) :
    ((List.range m).map fun i => Nat.log 2 (n / (i + 1))).sum ≤ n := by
  induction n using Nat.strong_induction_on generalizing m with
  | _ n ih =>
    rcases Nat.eq_zero_or_pos n with rfl | hn
    · simp
    calc ((List.range m).map fun i => Nat.log 2 (n / (i + 1))).sum
        ≤ ((List.range m).map fun i =>
            (if i < n / 2 then 1 else 0) + Nat.log 2 (n / 2 / (i + 1))).sum :=
          List.sum_le_sum fun i _ => log_div_le_half n i
      _ = min m (n / 2) + ((List.range m).map fun i => Nat.log 2 (n / 2 / (i + 1))).sum := by
          rw [List.sum_map_add, sum_range_ite_lt]
      _ ≤ n / 2 + n / 2 := Nat.add_le_add (min_le_right _ _) (ih (n / 2) (by omega) m)
      _ ≤ n := by omega

/-! ## Loops that count -/

theorem foldl_count {β γ : Type*} {f : β → γ → β × Nat} {g : β → γ → β} (P : β → Prop)
    (bound : γ → Nat) (hf : ∀ b, P b → ∀ x, (f b x).1 = g b x ∧ (f b x).2 ≤ bound x ∧ P (g b x))
    (l : List γ) {b : β} (hb : P b) (c : Nat) :
    (l.foldl (fun r x => ((f r.1 x).1, r.2 + (f r.1 x).2)) (b, c)).1 = l.foldl g b ∧
      (l.foldl (fun r x => ((f r.1 x).1, r.2 + (f r.1 x).2)) (b, c)).2 ≤ c + (l.map bound).sum := by
  induction l generalizing b c with
  | nil => simp
  | cons x l ih =>
    obtain ⟨h₁, h₂, h₃⟩ := hf b hb x
    simp only [List.foldl_cons, h₁, List.map_cons, List.sum_cons]
    obtain ⟨ih₁, ih₂⟩ := ih h₃ (c + (f b x).2)
    exact ⟨ih₁, by omega⟩

/-! ## `heapify` -/

/-- `heapify`, with the number of calls it makes of itself, the first included. -/
def heapifyC (a : List α) (i : Nat) : List α × Nat :=
  let largest := largest a i
  if largest ≠ i then
    let r := heapifyC (swap a i largest) largest
    (r.1, r.2 + 1)
  else (a, 1)
termination_by a.length - i
decreasing_by
  have := largest_bounds ‹_›
  simp only [length_swap]
  omega

theorem heapifyC_of_ne {a : List α} {i : Nat} (h : largest a i ≠ i) :
    heapifyC a i = ((heapifyC (swap a i (largest a i)) (largest a i)).1,
      (heapifyC (swap a i (largest a i)) (largest a i)).2 + 1) := by
  rw [heapifyC]; simp [h]

theorem heapifyC_of_eq {a : List α} {i : Nat} (h : largest a i = i) : heapifyC a i = (a, 1) := by
  rw [heapifyC]; simp [h]

@[simp] theorem heapifyC_fst (a : List α) (i : Nat) : (heapifyC a i).1 = heapify a i := by
  induction a, i using heapifyC.induct with
  | case1 a i _ hne ih => rw [heapifyC_of_ne hne, heapify_of_ne hne]; exact ih
  | case2 a i _ h => rw [heapifyC_of_eq (not_not.mp h), heapify_of_eq (not_not.mp h)]

theorem heapifyC_le (a : List α) (i : Nat) :
    (heapifyC a i).2 ≤ Nat.log 2 (a.length / (i + 1)) + 1 := by
  induction a, i using heapifyC.induct with
  | case1 a i l hne ih =>
    obtain ⟨h₁, h₂⟩ := largest_ge_of_ne hne
    simp only [l, length_swap] at ih
    rw [heapifyC_of_ne hne]
    have := log_div_child_lt h₁ h₂
    omega
  | case2 a i _ h => rw [heapifyC_of_eq (not_not.mp h)]; omega

/-- The depth of stack `heapify` needs is its number of calls: on a slice of at most
`2 ^ 63 - 1` entries, the checked `heapify` with `depth` frames returns exactly when `depth`
covers the calls, and overflows the stack otherwise. From `i` that is at most
`log₂ (n / (i + 1)) + 1` frames, `log₂ n + 1` from the root. -/
theorem heapify_stack_depth {β : Type} [LinearOrder β] {a : List β} {i : Nat}
    (hn : a.length ≤ 2 ^ 63 - 1) (hi : i ≤ 2 ^ 63 - 2) :
    (∀ depth, Checked.heapify depth a i =
      if (heapifyC a i).2 ≤ depth then .ok (heapify a i) else .error .stackOverflow) ∧
      (heapifyC a i).2 ≤ Nat.log 2 (a.length / (i + 1)) + 1 := by
  refine ⟨fun depth => ?_, heapifyC_le a i⟩
  induction a, i using heapifyC.induct generalizing depth with
  | case1 a i _ hne ih =>
    obtain ⟨h₁, h₂⟩ := largest_ge_of_ne hne
    rw [heapifyC_of_ne hne, heapify_of_ne hne]
    cases depth with
    | zero => rfl
    | succ d =>
      rw [Checked.heapify_succ d a hi, if_pos hne, ih (by rwa [length_swap]) (by omega) d]
      simp only [Nat.add_le_add_iff_right]
  | case2 a i _ h =>
    rw [heapifyC_of_eq (not_not.mp h), heapify_of_eq (not_not.mp h)]
    cases depth with
    | zero => rfl
    | succ d => rw [Checked.heapify_succ d a hi, if_neg h, if_pos (by omega)]; rfl

theorem heapify_stack_depth_at_root :
    ([1, 2, 3, 4, 5] : List ℕ).length ≤ 2 ^ 63 - 1 ∧ (0 : Nat) ≤ 2 ^ 63 - 2 ∧
      (heapifyC ([1, 2, 3, 4, 5] : List ℕ) 0).2 ≤ Nat.log 2 (5 / (0 + 1)) + 1 :=
  ⟨by decide, by decide, (heapify_stack_depth (a := [1, 2, 3, 4, 5]) (by decide) (by decide)).2⟩

/-! ## The sift-up loop -/

/-- The loop of `try_push`, with the number of turns it makes. -/
def siftUpC (a : List α) (i : Nat) : List α × Nat :=
  if 0 < i ∧ ltAt a (parent i) i then
    let r := siftUpC (swap a i (parent i)) (parent i)
    (r.1, r.2 + 1)
  else (a, 0)
termination_by i
decreasing_by exact parent_lt ‹_ ∧ _›.1

@[simp] theorem siftUpC_fst (a : List α) (i : Nat) : (siftUpC a i).1 = siftUp a i := by
  induction a, i using siftUpC.induct with
  | case1 a i h ih => rw [siftUpC, if_pos h, siftUp_of_lt h]; exact ih
  | case2 a i h => rw [siftUpC, if_neg h, siftUp_of_not h]

theorem siftUpC_le (a : List α) (i : Nat) : (siftUpC a i).2 ≤ Nat.log 2 (i + 1) := by
  induction a, i using siftUpC.induct with
  | case1 a i h ih =>
    rw [siftUpC, if_pos h]
    have hp : parent i + 1 = (i + 1) / 2 := by unfold parent; omega
    have hpos : 0 < Nat.log 2 (i + 1) := Nat.log_pos (by norm_num) (by omega)
    rw [hp, Nat.log_div_base] at ih
    show (siftUpC _ _).2 + 1 ≤ _
    omega
  | case2 a i h => rw [siftUpC, if_neg h]; exact Nat.zero_le _

/-! ## `pop` and `try_push` -/

namespace BinaryHeap

/-- The calls of `heapify` that `pop` makes: none on an empty heap, else those of
`heapify(a, 0)` on the slice that `swap_remove(0)` leaves. -/
def popCalls (h : BinaryHeap α) : Nat :=
  if hE : h.isEmpty then 0
  else (heapifyC (h.a.swapRemove 0 (len_pos_of_not_isEmpty hE)).2.items 0).2

/-- The turns of the sift-up loop that `try_push` makes: none when the vector is full. -/
def tryPushTurns (h : BinaryHeap α) (item : α) : Nat :=
  match h.a.tryPush item with
  | .error _ => 0
  | .ok a => (siftUpC a.items (a.items.length - 1)).2

theorem popCalls_le (h : BinaryHeap α) : h.popCalls ≤ Nat.log 2 h.len + 1 := by
  unfold popCalls
  split_ifs with hE
  · exact Nat.zero_le _
  · refine (heapifyC_le _ 0).trans (Nat.add_le_add_right (Nat.log_mono_right ?_) 1)
    simp [Nat.div_one]

theorem tryPushTurns_le (h : BinaryHeap α) (x : α) : h.tryPushTurns x ≤ Nat.log 2 (h.len + 1) := by
  unfold tryPushTurns
  by_cases hl : h.a.items.length < h.a.capacity
  · rw [Vec.tryPush_eq_ok hl]
    simpa using siftUpC_le (h.a.items ++ [x]) h.a.items.length
  · rw [Vec.tryPush_eq_error (by omega)]
    exact Nat.zero_le _

/-- `pop` and `try_push` take logarithmic time: `pop` makes at most `log₂ n + 1` calls of
`heapify` on a heap of `n` entries, and the loop of `try_push` turns at most `log₂ (n + 1)`
times. -/
theorem push_pop_logarithmic (h : BinaryHeap α) (x : α) :
    h.popCalls ≤ Nat.log 2 h.len + 1 ∧ h.tryPushTurns x ≤ Nat.log 2 (h.len + 1) :=
  ⟨popCalls_le h, tryPushTurns_le h x⟩

theorem len_pop_le (h : BinaryHeap α) : h.pop.2.len ≤ h.len := by
  rcases Nat.eq_zero_or_pos h.a.items.length with h0 | h0
  · rw [pop_of_nil (List.length_eq_zero.mp h0)]
  · simp only [len_eq, pop_items h0, length_heapify, List.length_dropLast, List.length_set]
    omega

/-- `k` calls of `next` on `drain_sorted` or `into_iter_sorted`, one `pop` each, with the calls of
`heapify` they make. -/
def popsCalls : Nat → BinaryHeap α → Nat
  | 0, _ => 0
  | k + 1, h => h.popCalls + popsCalls k h.pop.2

/-- Sorted iteration takes `O(log n)` per step: `k` calls of `next` make at most
`k * (log₂ n + 1)` calls of `heapify` on a heap of `n` entries, so draining all `n` entries
makes at most `n * (log₂ n + 1)`. -/
theorem sortedIter_n_log_n (h : BinaryHeap α) (k : Nat) :
    popsCalls k h ≤ k * (Nat.log 2 h.len + 1) := by
  induction k generalizing h with
  | zero => exact Nat.zero_le _
  | succ k ih =>
    have hrest : popsCalls k h.pop.2 ≤ k * (Nat.log 2 h.len + 1) :=
      (ih _).trans (Nat.mul_le_mul_left k
        (Nat.add_le_add_right (Nat.log_mono_right (len_pop_le h)) 1))
    calc popsCalls (k + 1) h = h.popCalls + popsCalls k h.pop.2 := rfl
      _ ≤ (Nat.log 2 h.len + 1) + k * (Nat.log 2 h.len + 1) := Nat.add_le_add (popCalls_le h) hrest
      _ = (k + 1) * (Nat.log 2 h.len + 1) := by rw [Nat.succ_mul, Nat.add_comm]

end BinaryHeap

/-! ## Building and sorting -/

/-- The build loop of `From<Vec>` and `extend`, with the calls of `heapify` it makes. -/
def buildHeapC (a : List α) : List α × Nat :=
  (List.range (a.length / 2)).reverse.foldl
    (fun r i => ((heapifyC r.1 i).1, r.2 + (heapifyC r.1 i).2)) (a, 0)

/-- Building a heap takes linear time: the loop makes at most `n / 2 + n` calls of `heapify` on
a slice of `n` entries, one per turn and at most the sum of the nodes' heights besides. -/
theorem buildHeap_linear (a : List α) :
    (buildHeapC a).1 = buildHeap a ∧ (buildHeapC a).2 ≤ a.length / 2 + a.length := by
  obtain ⟨h₁, h₂⟩ := foldl_count (fun b : List α => b.length = a.length)
    (fun i => Nat.log 2 (a.length / (i + 1)) + 1)
    (fun b hb i => ⟨heapifyC_fst b i, hb ▸ heapifyC_le b i, (length_heapify b i).trans hb⟩)
    (List.range (a.length / 2)).reverse rfl 0
  refine ⟨h₁, h₂.trans ?_⟩
  rw [List.map_reverse, List.sum_reverse, List.sum_map_add, Nat.zero_add]
  have := sum_log_div_le a.length (a.length / 2)
  simp only [List.map_const', List.sum_replicate, List.length_range, smul_eq_mul, Nat.mul_one]
  omega

/-- One turn of `into_sorted_vec`, with the calls of `heapify` it makes. -/
def sortStepC (a : List α) (i : Nat) : List α × Nat :=
  let r := heapifyC ((swap a 0 i).take i) 0
  (r.1 ++ (swap a 0 i).drop i, r.2)

/-- The loop of `into_sorted_vec`, with the calls of `heapify` it makes. -/
def sortLoopC (a : List α) : List α × Nat :=
  (List.range' 1 (a.length - 1)).reverse.foldl
    (fun r i => ((sortStepC r.1 i).1, r.2 + (sortStepC r.1 i).2)) (a, 0)

/-- `into_sorted_vec` takes `O(n log n)` time: `n - 1` turns, each with at most `log₂ n + 1`
calls of `heapify`. -/
theorem sortLoop_n_log_n (a : List α) :
    (sortLoopC a).1 = sortLoop a ∧ (sortLoopC a).2 ≤ (a.length - 1) * (Nat.log 2 a.length + 1) := by
  have hstep : ∀ b : List α, b.length = a.length → ∀ i, (sortStepC b i).2 ≤ Nat.log 2 a.length + 1 :=
    fun b hb i => (heapifyC_le _ 0).trans (Nat.add_le_add_right (Nat.log_mono_right (by simp [hb])) 1)
  obtain ⟨h₁, h₂⟩ := foldl_count (fun b : List α => b.length = a.length)
    (fun _ => Nat.log 2 a.length + 1)
    (fun b hb i => ⟨by simp [sortStepC, sortStep], hstep b hb i, (length_sortStep b i).trans hb⟩)
    (List.range' 1 (a.length - 1)).reverse rfl 0
  simpa only [List.map_const', List.sum_replicate, List.length_reverse, List.length_range',
    smul_eq_mul, Nat.zero_add] using And.intro h₁ h₂

end CocaHeap
