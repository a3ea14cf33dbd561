import CocaHeap.Operations
import CocaHeap.Checked

/-! # Sorted extraction

`into_sorted_vec` is an in-place heapsort. `drain_sorted` and `into_iter_sorted` pop one entry
per `next`, and their `Drop` pops the rest: whatever prefix the caller took, the entries come out
(taken, then dropped) in the reverse of `into_sorted_vec`'s order.
-/

namespace CocaHeap

variable {α : Type*}

/-! ## `size_hint` -/

/-- `DrainSorted::size_hint` and `len` call each other until the stack runs out, however deep it
is; `IntoIterSorted::size_hint` asks the heap and returns. -/
theorem drainSorted_sizeHint_overflows (depth : Nat) (it : DrainSorted α) :
    it.sizeHint depth = .error .stackOverflow ∧ it.len depth = .error .stackOverflow ∧
      (IntoIterSorted.mk it.heap).sizeHint = .ok (it.heap.len, some it.heap.len) ∧
      (IntoIterSorted.mk it.heap).len = .ok it.heap.len := by
  have h : ∀ d, it.sizeHint d = .error .stackOverflow := by
    intro d
    induction d with
    | zero => rfl
    | succ d ih => simp only [DrainSorted.sizeHint, exactSizeLen, ih]; rfl
  refine ⟨h depth, ?_, rfl, ?_⟩
  · simp only [DrainSorted.len, exactSizeLen, h]; rfl
  · simp [IntoIterSorted.len, IntoIterSorted.sizeHint, exactSizeLen]; rfl

/-! ## Taking some entries from an iterator -/

/-- The first `k` calls of `next` a caller makes (fewer once `next` gives `None`), and the
iterator after them. -/
def takeNext {σ β : Type*} (next : σ → Option β × σ) : Nat → σ → List β × σ
  | 0, s => ([], s)
  | k + 1, s =>
    match next s with
    | (none, s') => ([], s')
    | (some x, s') => (x :: (takeNext next k s').1, (takeNext next k s').2)

theorem takeNext_wrap {σ τ β : Type*} {next : σ → Option β × σ} {next' : τ → Option β × τ}
    (wrap : τ → σ) (hw : ∀ t, next (wrap t) = ((next' t).1, wrap (next' t).2)) (k : Nat) (t : τ) :
    takeNext next k (wrap t) = ((takeNext next' k t).1, wrap (takeNext next' k t).2) := by
  induction k generalizing t with
  | zero => rfl
  | succ k ih =>
    rw [takeNext, takeNext, hw]
    rcases next' t with ⟨_ | x, t'⟩
    · rfl
    · simp only [ih]

variable [LinearOrder α]

/-! ## `into_sorted_vec` -/

/-- `into_sorted_vec` on a heap: a sorted permutation of the entries, over the same storage; the
loop keeps `SortInv` from its first turn to its last. From `From<Vec>` it is a heapsort. -/
theorem intoSortedVec_spec (h : BinaryHeap α) (hh : IsHeap h.a.items) :
    h.intoSortedVec.capacity = h.a.capacity ∧
      h.intoSortedVec.items.length = h.a.items.length ∧
      h.intoSortedVec.items.Perm h.a.items ∧ h.intoSortedVec.items.Sorted (· ≤ ·) ∧
      (∀ i, 1 ≤ i → i ≤ h.a.items.length → SortInv (sortLoopFrom h.a.items i) i) ∧
      (∀ (b : List α) i, SortInv b (i + 1) → i < b.length → SortInv (sortStep b i) i) ∧
      (∀ v : Vec α, (BinaryHeap.fromVec v).intoSortedVec.items.Perm v.items ∧
        (BinaryHeap.fromVec v).intoSortedVec.items.Sorted (· ≤ ·)) :=
  ⟨rfl, length_sortLoop _, sortLoop_perm _, sortLoop_sorted hh, sortInv_sortLoopFrom hh,
    fun _ _ hb hi => hb.step hi,
    fun _ => ⟨(sortLoop_perm _).trans (buildHeap_perm _), sortLoop_sorted (isHeap_buildHeap _)⟩⟩

theorem intoSortedVec_spec_of_five :
    IsHeap [5, 4, 3, 1, 2] ∧
      (BinaryHeap.intoSortedVec ⟨⟨[5, 4, 3, 1, 2], 5, by decide⟩⟩).items.Sorted (· ≤ ·) :=
  ⟨by decide, (intoSortedVec_spec ⟨⟨[5, 4, 3, 1, 2], 5, by decide⟩⟩ (by decide)).2.2.2.1⟩

/-! ## Popping everything is `into_sorted_vec` backwards -/

theorem sortLoop_eq_pop {a : List α} (h0 : 0 < a.length) :
    sortLoop a = sortLoop (heapify (a.set 0 a[a.length - 1]).dropLast 0) ++ [a[0]] := by
  obtain ⟨m, hm⟩ : ∃ m, a.length = m + 1 := ⟨a.length - 1, by omega⟩
  rcases m with _ | m
  · obtain ⟨x, rfl⟩ := List.length_eq_one.mp hm
    simp [sortLoop]
  have hstep : sortStep a (m + 1) = heapify (a.set 0 a[a.length - 1]).dropLast 0 ++ [a[0]] := by
    have hlast : a.length - 1 = m + 1 := by omega
    rw [sortStep, set_last_dropLast h0, List.dropLast_eq_take, length_swap, hlast,
      List.drop_eq_getElem_cons (by simp; omega), List.drop_of_length_le (by simp; omega)]
    congr 2
    have := getElem?_swap h0 (show m + 1 < a.length by omega) (m + 1)
    rw [Equiv.swap_apply_right, List.getElem?_eq_getElem h0, List.getElem?_eq_getElem (by simp; omega)] at this
    exact Option.some.inj this
  have hp : (heapify (a.set 0 a[a.length - 1]).dropLast 0).length = m + 1 := by simp; omega
  generalize heapify (a.set 0 a[a.length - 1]).dropLast 0 = q at hstep hp ⊢
  generalize a[0] = x at hstep ⊢
  rw [sortLoop, hm, Nat.add_sub_cancel, List.range'_concat, List.reverse_append, List.reverse_singleton,
    List.singleton_append, List.foldl_cons, Nat.one_mul, Nat.add_comm 1 m, hstep,
    foldl_sortStep_append _ _ fun i hi => ?_, sortLoop, hp, Nat.add_sub_cancel]
  rw [List.mem_reverse, List.mem_range'] at hi
  omega

theorem popAll_eq_reverse (h : BinaryHeap α) : h.popAll.1 = (sortLoop h.a.items).reverse := by
  induction h using BinaryHeap.popAll.induct with
  | case1 h h' hp =>
    have h0 : h.a.items = [] := by
      by_contra hne
      rw [Prod.ext_iff, BinaryHeap.pop_fst (List.length_pos.mpr hne)] at hp; simp at hp
    rw [BinaryHeap.popAll_of_nil h0, h0]; rfl
  | case2 h x h' hp ih =>
    have h0 : 0 < h.a.items.length := by
      by_contra hz
      rw [BinaryHeap.pop_of_nil (List.length_eq_zero.mp (by omega))] at hp; simp at hp
    obtain rfl : h.pop.2 = h' := congrArg Prod.snd hp
    rw [BinaryHeap.popAll_of_len_pos h0, ih, BinaryHeap.pop_items h0, sortLoop_eq_pop h0]
    simp

theorem popAll_sorted {h : BinaryHeap α} (hh : IsHeap h.a.items) : h.popAll.1.Sorted (· ≥ ·) := by
  rw [popAll_eq_reverse]
  exact List.pairwise_reverse.mpr (sortLoop_sorted hh)

/-! ## Taking some, then dropping the iterator -/

theorem takeNext_pop_popAll (k : Nat) (h : BinaryHeap α) :
    (takeNext BinaryHeap.pop k h).1 ++ (takeNext BinaryHeap.pop k h).2.popAll.1 = h.popAll.1 ∧
      (takeNext BinaryHeap.pop k h).2.popAll.2 = h.popAll.2 := by
  induction k generalizing h with
  | zero => simp [takeNext]
  | succ k ih =>
    rcases Nat.eq_zero_or_pos h.a.items.length with h0 | h0
    · rw [takeNext, BinaryHeap.pop_of_nil (List.length_eq_zero.mp h0)]
      simp
    · rw [takeNext, BinaryHeap.pop_eq_root h0, BinaryHeap.popAll_of_len_pos h0]
      simp only [List.cons_append, (ih _).1, (ih _).2, and_self]

theorem takeNext_pop_eq_take (k : Nat) (h : BinaryHeap α) :
    (takeNext BinaryHeap.pop k h).1 = h.popAll.1.take k := by
  induction k generalizing h with
  | zero => rfl
  | succ k ih =>
    rcases Nat.eq_zero_or_pos h.a.items.length with h0 | h0
    · have hnil := List.length_eq_zero.mp h0
      rw [takeNext, BinaryHeap.pop_of_nil hnil, BinaryHeap.popAll_of_nil hnil]
      rfl
    · rw [takeNext, BinaryHeap.pop_eq_root h0, BinaryHeap.popAll_of_len_pos h0, List.take_succ_cons]
      exact congrArg (h.a.items[0] :: ·) (ih _)

theorem takeNext_drainSorted (k : Nat) (h : BinaryHeap α) :
    takeNext DrainSorted.next k h.drainSorted =
      ((takeNext BinaryHeap.pop k h).1, ⟨(takeNext BinaryHeap.pop k h).2⟩) :=
  takeNext_wrap DrainSorted.mk (fun _ => rfl) k h

theorem takeNext_intoIterSorted (k : Nat) (h : BinaryHeap α) :
    takeNext IntoIterSorted.next k h.intoIterSorted =
      ((takeNext BinaryHeap.pop k h).1, ⟨(takeNext BinaryHeap.pop k h).2⟩) :=
  takeNext_wrap IntoIterSorted.mk (fun _ => rfl) k h

theorem takeNext_pop_len (h : BinaryHeap α) :
    (takeNext BinaryHeap.pop h.len h).1.length = h.len ∧
      (takeNext BinaryHeap.pop h.len h).2.a.items = [] := by
  generalize hn : h.len = n
  induction n generalizing h with
  | zero => exact ⟨rfl, List.length_eq_zero.mp hn⟩
  | succ n ih =>
    have h0 : 0 < h.a.items.length := by rw [← BinaryHeap.len_eq, hn]; omega
    have hlen : h.pop.2.len = n := by
      simp only [BinaryHeap.len_eq, BinaryHeap.pop_items h0, length_heapify, List.length_dropLast,
        List.length_set] at hn ⊢
      omega
    rw [takeNext, BinaryHeap.pop_eq_root h0]
    exact ⟨congrArg (· + 1) (ih _ hlen).1, (ih _ hlen).2⟩

/-- `IntoIterSorted` keeps the contract of `ExactSizeIterator` that `DrainSorted` breaks: `len()`
returns, and `next` yields exactly that many entries before `None`. -/
theorem intoIterSorted_len_exact (h : BinaryHeap α) :
    h.intoIterSorted.len = .ok h.len ∧
      (takeNext IntoIterSorted.next h.len h.intoIterSorted).1.length = h.len ∧
      ((takeNext IntoIterSorted.next h.len h.intoIterSorted).2.next).1 = none := by
  obtain ⟨hk, hnil⟩ := takeNext_pop_len h
  refine ⟨by simp [IntoIterSorted.len, IntoIterSorted.sizeHint, exactSizeLen]; rfl, ?_, ?_⟩
  · rw [takeNext_intoIterSorted]; exact hk
  · rw [takeNext_intoIterSorted, IntoIterSorted.next, BinaryHeap.pop_of_nil hnil]

/-- However many entries the caller takes from `drain_sorted` (or `into_iter_sorted`) before
dropping it, the `k` calls of `next` return the `k` greatest entries, greatest first, and the
entries taken and then dropped are those of the heap, each once, in non-increasing order:
`into_sorted_vec` backwards. The borrowed heap is empty afterwards. -/
theorem drainSorted_take_then_drop (h : BinaryHeap α) (hh : IsHeap h.a.items) (k : Nat) :
    (takeNext DrainSorted.next k h.drainSorted).1 = h.intoSortedVec.items.reverse.take k ∧
      (takeNext DrainSorted.next k h.drainSorted).1 ++
        (takeNext DrainSorted.next k h.drainSorted).2.drop.1 = h.intoSortedVec.items.reverse ∧
      h.intoSortedVec.items.reverse.Sorted (· ≥ ·) ∧
      h.intoSortedVec.items.reverse.Perm h.a.items ∧
      (takeNext DrainSorted.next k h.drainSorted).2.drop.2.a.items = [] ∧
      (takeNext IntoIterSorted.next k h.intoIterSorted).1 = h.intoSortedVec.items.reverse.take k ∧
      (takeNext IntoIterSorted.next k h.intoIterSorted).1 ++
        (takeNext IntoIterSorted.next k h.intoIterSorted).2.drop = h.intoSortedVec.items.reverse := by
  have hall := takeNext_pop_popAll k h
  have htake := takeNext_pop_eq_take k h
  have hrev : h.popAll.1 = h.intoSortedVec.items.reverse := popAll_eq_reverse h
  rw [takeNext_drainSorted, takeNext_intoIterSorted]
  exact ⟨hrev ▸ htake, hall.1.trans hrev, hrev ▸ popAll_sorted hh,
    (List.reverse_perm _).trans (sortLoop_perm _), hall.2 ▸ (BinaryHeap.popAll_spec h).2.1,
    hrev ▸ htake, hall.1.trans hrev⟩

theorem drainSorted_take_then_drop_two :
    IsHeap [8, 7, 6, 5, 4, 3, 2, 1] ∧
      (takeNext DrainSorted.next 2
        (BinaryHeap.drainSorted ⟨⟨[8, 7, 6, 5, 4, 3, 2, 1], 8, by decide⟩⟩)).1 = [8, 7] ∧
      (takeNext DrainSorted.next 2
        (BinaryHeap.drainSorted ⟨⟨[8, 7, 6, 5, 4, 3, 2, 1], 8, by decide⟩⟩)).2.drop.2.a.items =
        [] := by
  -- The checked loop recurses on the stack depth, so it runs here; it computes the model's loop.
  have hsort : sortLoop [8, 7, 6, 5, 4, 3, 2, 1] = [1, 2, 3, 4, 5, 6, 7, 8] :=
    Except.ok.inj ((Checked.sortLoop_eq (by decide) (by decide) :
      Checked.sortLoop 5 [8, 7, 6, 5, 4, 3, 2, 1] =
        pure (sortLoop [8, 7, 6, 5, 4, 3, 2, 1])).symm.trans rfl)
  have h := drainSorted_take_then_drop ⟨⟨[8, 7, 6, 5, 4, 3, 2, 1], 8, by decide⟩⟩ (by decide) 2
  refine ⟨by decide, ?_, h.2.2.2.2.1⟩
  rw [h.1, show (BinaryHeap.intoSortedVec ⟨⟨[8, 7, 6, 5, 4, 3, 2, 1], 8, by decide⟩⟩).items =
    sortLoop [8, 7, 6, 5, 4, 3, 2, 1] from rfl, hsort]
  rfl

/-! ## Popping while pushing

The test `push_and_pop_randomized_inputs` fills a heap, then for each of a thousand random inputs
pops an entry, asserts that it is at most the entry popped before it or is the newest entry
pushed, and pushes the input.
-/

/-- The second loop of `push_and_pop_randomized_inputs`, one round per input:
`heap.pop().unwrap()`, `assert!(x <= prev || x == newest)`, then `heap.push` of the input, which
becomes `newest` as `x` becomes `prev`. A panic is `none`. -/
def popPushRounds (h : BinaryHeap α) (prev newest : α) : List α → Option Unit
  | [] => some ()
  | y :: ys =>
    match h.pop with
    | (none, _) => none
    | (some x, h₁) =>
      if x ≤ prev ∨ x = newest then (h₁.push y).bind fun h₂ => popPushRounds h₂ x y ys
      else none

theorem pop_push_round {h : BinaryHeap α} (hh : IsHeap h.a.items) (hn : 0 < h.a.items.length)
    (y : α) : ∃ h₂ : BinaryHeap α, h.pop = (some h.a.items[0], h.pop.2) ∧
      h.pop.2.push y = some h₂ ∧ IsHeap h₂.a.items ∧ h₂.a.items.length = h.a.items.length ∧
      ∀ e ∈ h₂.a.items, e ≤ h.a.items[0] ∨ e = y := by
  have hperm := BinaryHeap.pop_perm hn
  have hlen : h.pop.2.a.items.length + 1 = h.a.items.length := hperm.length_eq
  have hroom : h.pop.2.a.items.length < h.pop.2.a.capacity := by
    rw [BinaryHeap.pop_capacity]
    have := h.a.len_le
    omega
  obtain ⟨hok, -, -⟩ := BinaryHeap.tryPush_of_lt y hroom
  have hpush := BinaryHeap.tryPush_perm y hroom
  refine ⟨_, BinaryHeap.pop_eq_root hn,
    BinaryHeap.push_eq_some_iff.mpr ⟨hroom, Prod.ext hok rfl⟩,
    BinaryHeap.isHeap_tryPush y (BinaryHeap.isHeap_pop hh), ?_, fun e he => ?_⟩
  · rw [hpush.length_eq, List.length_append, List.length_singleton, hlen]
  · rcases List.mem_append.mp (hpush.subset he) with he | he
    · exact .inl (hh.le_head hn e (hperm.subset (List.mem_cons_of_mem _ he)))
    · exact .inr (List.mem_singleton.mp he)

/-- The randomized test passes for every seed and every number of rounds: from a heap that is not
empty and whose entries are all at most `prev` or are `newest`, as the first loop leaves it with
`prev = u32::max_value()`, no `pop` finds the heap empty, no `push` finds it full, and no
assertion fails. -/
theorem popPushRounds_passes {h : BinaryHeap α} {prev newest : α} (hh : IsHeap h.a.items)
    (hn : 0 < h.a.items.length) (hprev : ∀ e ∈ h.a.items, e ≤ prev ∨ e = newest) (ys : List α) :
    popPushRounds h prev newest ys = some () := by
  induction ys generalizing h prev newest with
  | nil => rfl
  | cons y ys ih =>
    obtain ⟨h₂, hpop, hpush, hh₂, hlen, hle⟩ := pop_push_round hh hn y
    have hroot := hprev _ (List.getElem_mem hn)
    rw [popPushRounds, hpop]
    simp only [if_pos hroot, hpush, Option.some_bind]
    exact ih hh₂ (hlen ▸ hn) hle

theorem popPushRounds_passes_of_three :
    IsHeap (buildHeap [1, 2, 3]) ∧ 0 < (buildHeap [1, 2, 3]).length ∧
      (∀ e ∈ buildHeap [1, 2, 3], e ≤ 2 ∨ e = 3) ∧
      popPushRounds (BinaryHeap.fromVec ⟨[1, 2, 3], 3, by decide⟩ : BinaryHeap ℕ) 2 3 [7, 2, 5] =
        some () := by
  have hn : 0 < (buildHeap [1, 2, 3]).length := by simp
  have hprev : ∀ e ∈ buildHeap [1, 2, 3], e ≤ 2 ∨ e = 3 := fun e he => by
    have := (buildHeap_perm [1, 2, 3]).mem_iff.mp he
    simp only [List.mem_cons, List.not_mem_nil, or_false] at this
    omega
  exact ⟨isHeap_buildHeap _, hn, hprev, popPushRounds_passes (isHeap_buildHeap _) hn hprev _⟩

end CocaHeap
