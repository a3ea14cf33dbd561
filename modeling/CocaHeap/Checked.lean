import Mathlib.Tactic.Ring
import CocaHeap.Usize
import CocaHeap.BuildHeap
import CocaHeap.SiftUp
import CocaHeap.SortLoop
import CocaHeap.BinaryHeap

/-! # Bounds and overflow

The algorithms of `binary_heap.rs` once more, with every `a[i]`, `a.swap(i, j)` and `&mut a[..i]`
checking its bounds and every `parent`, `left`, `right` and `len() - 1` on 64-bit `usize`
(`Usize.lean`), so that a run stops with a `Fault` where the code would panic. `heapify` calls
itself, and its `depth` is the number of frames left on the stack.

With those overflow checks on, as in a debug build, `heapify` never reads or swaps out of bounds,
whatever `i` it is given: past `2 ^ 63 - 2` it stops at the `2 * (i + 1)` of `left(i)`, before
any read. A release build wraps `right(2 ^ 63 - 1)` to `0` and then reads `a[i]` out of bounds,
but no caller passes such an `i`. On a slice of at most `2 ^ 63 - 1` entries, the bound Rust puts
on slices of entries that are not zero-sized, none of the checked versions stops at all: each
returns what the unchecked version computes.
-/

namespace CocaHeap

namespace Checked

variable {α : Type}

/-! ## Slices -/

/-- `a[i]`: the bounds check panics. -/
def index (a : List α) (i : Nat) : Except Fault α :=
  match a[i]? with
  | some x => pure x
  | none => throw .outOfBounds

/-- `a.swap(i, j)`: panics unless both indices are in bounds. -/
def swap (a : List α) (i j : Nat) : Except Fault (List α) :=
  if i < a.length ∧ j < a.length then pure (CocaHeap.swap a i j) else throw .outOfBounds

/-- `&mut a[..i]`: panics past the end of the slice. -/
def sliceTo (a : List α) (i : Nat) : Except Fault (List α) :=
  if i ≤ a.length then pure (a.take i) else throw .outOfBounds

/-- `Deref` of `PeekMut`: `get_unchecked(0)`, here with the check the code leaves out. -/
def deref (g : PeekMut α) : Except Fault α := index g.heap.a.items 0

theorem index_of_lt {a : List α} {i : Nat} (h : i < a.length) : index a i = pure a[i] := by
  simp [index, List.getElem?_eq_getElem h]

theorem swap_eq_pure {a : List α} {i j : Nat} (hi : i < a.length) (hj : j < a.length) :
    swap a i j = pure (CocaHeap.swap a i j) :=
  if_pos ⟨hi, hj⟩

theorem sliceTo_of_le {a : List α} {i : Nat} (h : i ≤ a.length) : sliceTo a i = pure (a.take i) :=
  if_pos h

theorem deref_eq (g : PeekMut α) : deref g = pure g.deref := index_of_lt g.nonempty

theorem foldlM_eq_pure {β γ ε : Type*} {f : β → γ → Except ε β} {g : β → γ → β} (P : β → Prop)
    {l : List γ} (hf : ∀ b, P b → ∀ x ∈ l, f b x = pure (g b x) ∧ P (g b x)) {b : β} (hb : P b) :
    l.foldlM f b = pure (l.foldl g b) := by
  induction l generalizing b with
  | nil => rfl
  | cons x l ih =>
    obtain ⟨h₁, h₂⟩ := hf b hb x (List.mem_cons_self x l)
    rw [List.foldlM_cons, h₁, pure_bind, List.foldl_cons]
    exact ih (fun b hb y hy => hf b hb y (List.mem_cons_of_mem x hy)) h₂

variable [LinearOrder α]

theorem ltAt_iff {a : List α} {j k : Nat} (hj : j < a.length) (hk : k < a.length) :
    ltAt a j k ↔ a[j] < a[k] := by
  simp [ltAt, List.getElem?_eq_getElem hj, List.getElem?_eq_getElem hk]

/-! ## `heapify` -/

/-- `c < a.len() && a[c] > a[m]`: `c` if so, else `m`. -/
def pickGreater (a : List α) (m c : Nat) : Except Fault Nat :=
  if c < a.length then do
    let x : α ← index a c
    let y : α ← index a m
    pure (if x > y then c else m)
  else pure m

def heapify : Nat → List α → Nat → Except Fault (List α)
  | 0, _, _ => throw .stackOverflow
  | depth + 1, a, i => do
    let l ← Usize.left i
    let r ← Usize.right i
    let largest ← pickGreater a i l
    let largest ← pickGreater a largest r
    if largest ≠ i then
      let a ← swap a i largest
      heapify depth a largest
    else pure a

theorem pickGreater_eq {a : List α} {m c : Nat} (hm : c < a.length → m < a.length) :
    pickGreater a m c = pure (CocaHeap.pickGreater a m c) := by
  unfold pickGreater CocaHeap.pickGreater
  by_cases hc : c < a.length
  · simp [hc, index_of_lt hc, index_of_lt (hm hc), ltAt_iff (hm hc) hc]
  · simp [hc]

theorem heapify_succ (depth : Nat) (a : List α) {i : Nat} (hi : i ≤ 2 ^ 63 - 2) :
    heapify (depth + 1) a i =
      if largest a i ≠ i then heapify depth (CocaHeap.swap a i (largest a i)) (largest a i)
      else pure a := by
  have hl : Usize.left i = pure (left i) := Usize.left_eq hi
  have hr : Usize.right i = pure (right i) := Usize.right_eq hi
  have h₁ : pickGreater a i (left i) = pure (CocaHeap.pickGreater a i (left i)) :=
    pickGreater_eq fun h => by simp only [left_eq] at h; omega
  have h₂ : pickGreater a (CocaHeap.pickGreater a i (left i)) (right i) = pure (largest a i) :=
    pickGreater_eq fun h => by
      rcases CocaHeap.pickGreater_eq_or a i (left i) with e | e <;> rw [e] <;>
        simp only [left_eq, right_eq] at h ⊢ <;> omega
  simp only [heapify, hl, hr, pure_bind, h₁, h₂]
  split_ifs with h
  · have := largest_bounds h
    rw [swap_eq_pure (by omega) this.2, pure_bind]
  · rfl

-- `heapify` reads and swaps only in bounds, for every `i` and every stack: it may run out of stack,
-- or overflow in `left(i)` from `i = 2 ^ 63 - 1` on, but never index past the slice.
theorem heapify_ne_outOfBounds (depth : Nat) (a : List α) (i : Nat) :
    heapify depth a i ≠ .error .outOfBounds := by
  induction depth generalizing a i with
  | zero => exact fun h => by cases h
  | succ d ih =>
    by_cases hi : i ≤ 2 ^ 63 - 2
    · rw [heapify_succ d a hi]
      split_ifs
      · exact ih _ _
      · exact fun h => by cases h
    · rw [heapify, Usize.left_overflow (by omega)]
      exact fun h => by cases h

-- Each recursive call at least doubles `i + 1`, so a slice shorter than `(i + 1) * 2 ^ depth` needs
-- at most `depth + 1` frames. On such a stack, and on a slice of at most `2 ^ 63 - 1` entries,
-- `heapify` does not stop.
theorem heapify_eq {a : List α} {i : Nat} (depth : Nat) (hn : a.length ≤ 2 ^ 63 - 1)
    (hi : i ≤ 2 ^ 63 - 2) (hd : a.length < (i + 1) * 2 ^ depth) :
    heapify (depth + 1) a i = pure (CocaHeap.heapify a i) := by
  induction depth generalizing a i with
  | zero =>
    have hl : largest a i = i := by
      by_contra h
      have := largest_ge_of_ne h
      simp only [pow_zero, Nat.mul_one] at hd
      omega
    rw [heapify_succ 0 a hi, if_neg (not_not.mpr hl), heapify_of_eq hl]
  | succ d ih =>
    rw [heapify_succ _ a hi]
    split_ifs with h
    · obtain ⟨h₁, h₂⟩ := largest_ge_of_ne h
      rw [heapify_of_ne h]
      refine ih (by rwa [length_swap]) (by omega) ?_
      calc (CocaHeap.swap a i (largest a i)).length = a.length := length_swap _ _ _
        _ < (i + 1) * 2 ^ (d + 1) := hd
        _ = (2 * i + 2) * 2 ^ d := by rw [pow_succ]; ring
        _ ≤ (largest a i + 1) * 2 ^ d := Nat.mul_le_mul_right _ (by omega)
    · rw [heapify_of_eq (not_not.mp h)]

/-! ## The loop of `try_push` -/

/-- `while i > 0 && a[parent(i)] < a[i] { a.swap(i, parent(i)); i = parent(i); }`. The body
computes `parent(i)` three times; it is one value, computed here once. -/
def siftUp (a : List α) (i : Nat) : Except Fault (List α) :=
  if i > 0 then
    match _hp : Usize.parent i with
    | .error e => throw e
    | .ok p => do
      let x ← index a p
      let y ← index a i
      if x < y then
        let a ← swap a i p
        siftUp a p
      else pure a
  else pure a
termination_by i
decreasing_by rw [Usize.parent_ok _hp]; exact parent_lt ‹_›

/-- `self.a.try_push(item)?` has put an entry in: `let mut i = a.len() - 1;`, then the loop. -/
def tryPushLoop (a : List α) : Except Fault (List α) := do
  let i ← Usize.sub a.length 1
  siftUp a i

theorem siftUp_succ {a : List α} {i : Nat} (hn : a.length ≤ 2 ^ 63 - 1) (h0 : 0 < i)
    (hi : i < a.length) :
    siftUp a i = if ltAt a (parent i) i then siftUp (CocaHeap.swap a i (parent i)) (parent i)
      else pure a := by
  have hp := parent_lt h0
  rw [siftUp, if_pos h0]
  split
  · rename_i e he; rw [Usize.parent_eq h0 (by omega)] at he; cases he
  · rename_i p he
    obtain rfl := Usize.parent_ok he
    rw [index_of_lt (by omega), pure_bind, index_of_lt hi, pure_bind]
    simp only [ltAt_iff (show parent i < a.length by omega) hi]
    split_ifs
    · rw [swap_eq_pure hi (by omega), pure_bind]
    · rfl

theorem siftUp_eq {a : List α} {i : Nat} (hn : a.length ≤ 2 ^ 63 - 1) (hi : i < a.length) :
    siftUp a i = pure (CocaHeap.siftUp a i) := by
  induction a, i using CocaHeap.siftUp.induct with
  | case1 a i h ih =>
    have hp := parent_lt h.1
    rw [siftUp_succ hn h.1 hi, if_pos h.2, CocaHeap.siftUp_of_lt h]
    exact ih (by rwa [length_swap]) (by rw [length_swap]; omega)
  | case2 a i h =>
    rw [CocaHeap.siftUp_of_not h]
    by_cases h0 : 0 < i
    · rw [siftUp_succ hn h0 hi, if_neg fun hlt => h ⟨h0, hlt⟩]
    · rw [siftUp, if_neg h0]

theorem tryPushLoop_eq {a : List α} (hn : a.length ≤ 2 ^ 63 - 1) (h0 : 0 < a.length) :
    tryPushLoop a = pure (CocaHeap.siftUp a (a.length - 1)) := by
  rw [tryPushLoop, Usize.sub_of_le h0, pure_bind]
  exact siftUp_eq hn (by omega)

/-! ## The loops of `From<Vec>`, `extend` and `into_sorted_vec` -/

/-- `for i in (0..(a.len() / 2)).rev() { heapify(a, i); }`. -/
def buildHeap (depth : Nat) (a : List α) : Except Fault (List α) :=
  (List.range (a.length / 2)).reverse.foldlM (fun a i => heapify depth a i) a

/-- One turn of `into_sorted_vec`: `a.swap(0, i); heapify(&mut a[..i], 0);`. -/
def sortStep (depth : Nat) (a : List α) (i : Nat) : Except Fault (List α) := do
  let a ← swap a 0 i
  let p ← sliceTo a i
  let p ← heapify depth p 0
  pure (p ++ a.drop i)

/-- `for i in (1..a.len()).rev() { ... }`. -/
def sortLoop (depth : Nat) (a : List α) : Except Fault (List α) :=
  (List.range' 1 (a.length - 1)).reverse.foldlM (sortStep depth) a

theorem buildHeap_eq {a : List α} {depth : Nat} (hn : a.length ≤ 2 ^ 63 - 1)
    (hd : a.length < 2 ^ depth) : buildHeap (depth + 1) a = pure (CocaHeap.buildHeap a) := by
  unfold buildHeap CocaHeap.buildHeap
  refine foldlM_eq_pure (fun b => b.length = a.length) (fun b hb i hi => ?_) rfl
  rw [List.mem_reverse, List.mem_range] at hi
  refine ⟨heapify_eq depth (by omega) (by omega) ?_, (length_heapify b i).trans hb⟩
  rw [hb]
  exact hd.trans_le (Nat.le_mul_of_pos_left _ (Nat.succ_pos i))

theorem sortStep_eq {a : List α} {i depth : Nat} (hn : a.length ≤ 2 ^ 63 - 1) (hi : i < a.length)
    (hd : a.length < 2 ^ depth) : sortStep (depth + 1) a i = pure (CocaHeap.sortStep a i) := by
  have hp : ((CocaHeap.swap a 0 i).take i).length = i := by simp; omega
  rw [sortStep, swap_eq_pure (by omega) hi, pure_bind, sliceTo_of_le (by simp; omega), pure_bind,
    heapify_eq depth (by omega) (by omega) (by omega), pure_bind]
  rfl

theorem sortLoop_eq {a : List α} {depth : Nat} (hn : a.length ≤ 2 ^ 63 - 1)
    (hd : a.length < 2 ^ depth) : sortLoop (depth + 1) a = pure (CocaHeap.sortLoop a) := by
  unfold sortLoop CocaHeap.sortLoop
  refine foldlM_eq_pure (fun b => b.length = a.length) (fun b hb i hi => ?_) rfl
  rw [List.mem_reverse, List.mem_range'_1] at hi
  exact ⟨sortStep_eq (by omega) (by omega) (by omega), (length_sortStep b i).trans hb⟩

/-! ## Everything in bounds -/

/-- On a slice of at most `2 ^ 63 - 1` entries: with overflow checks on, `heapify(a, i)` never
indexes out of bounds, for any `i` (a release build wraps `right(2 ^ 63 - 1)` to `0` instead);
from any `i ≤ 2 ^ 63 - 2` (every `i` the code passes is below `a.len()`) it neither overflows nor
faults in any of its recursive calls, given the stack its depth needs; the same holds of the loop
of `try_push` with its `a.len() - 1`, of the build loop and of the loop of `into_sorted_vec`; and
`PeekMut` reads its root only while the heap has one. -/
theorem checked_in_bounds (a : List α) (hn : a.length ≤ 2 ^ 63 - 1) :
    (∀ depth i, heapify depth a i ≠ .error .outOfBounds) ∧
    (∀ depth i, i ≤ 2 ^ 63 - 2 → a.length < (i + 1) * 2 ^ depth →
      heapify (depth + 1) a i = .ok (CocaHeap.heapify a i)) ∧
    (0 < a.length → tryPushLoop a = .ok (CocaHeap.siftUp a (a.length - 1))) ∧
    (∀ depth, a.length < 2 ^ depth → buildHeap (depth + 1) a = .ok (CocaHeap.buildHeap a)) ∧
    (∀ depth, a.length < 2 ^ depth → sortLoop (depth + 1) a = .ok (CocaHeap.sortLoop a)) ∧
    ∀ g : PeekMut α, deref g = .ok g.deref :=
  ⟨fun depth i => heapify_ne_outOfBounds depth a i, fun depth _ hi hd => heapify_eq depth hn hi hd,
    tryPushLoop_eq hn, fun _ hd => buildHeap_eq hn hd, fun _ hd => sortLoop_eq hn hd, deref_eq⟩

theorem checked_in_bounds_five :
    ([5, 1, 4, 2, 3] : List ℕ).length ≤ 2 ^ 63 - 1 ∧
      sortLoop 4 ([5, 1, 4, 2, 3] : List ℕ) = .ok (CocaHeap.sortLoop [5, 1, 4, 2, 3]) :=
  ⟨by decide, (checked_in_bounds [5, 1, 4, 2, 3] (by decide)).2.2.2.2.1 3 (by decide)⟩

end Checked

end CocaHeap
