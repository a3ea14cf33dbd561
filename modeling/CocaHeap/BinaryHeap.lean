import CocaHeap.Usize
import CocaHeap.Vec
import CocaHeap.SiftUp
import CocaHeap.BuildHeap
import CocaHeap.SortLoop

/-! # `BinaryHeap` and its methods

Each method of `binary_heap.rs`, with `&mut self` as a new heap returned next to the result and a
panic as `none`. The guard `PeekMut` and the iterators `DrainSorted` and `IntoIterSorted` are
structures over the heap they borrow or own.
-/

namespace CocaHeap

/-- `BinaryHeap<E, B, I>`: a vector read as a tree in array encoding. -/
structure BinaryHeap (α : Type*) where
  a : Vec α

namespace BinaryHeap

variable {α : Type*}

/-- `From<B>`: an empty heap over `capacity` slots of storage. -/
def fromStorage (capacity : Nat) : BinaryHeap α := ⟨Vec.fromStorage capacity⟩

def peek (h : BinaryHeap α) : Option α := h.a.first

def capacity (h : BinaryHeap α) : Nat := h.a.capacity

def len (h : BinaryHeap α) : Nat := h.a.len

def isEmpty (h : BinaryHeap α) : Bool := h.a.isEmpty

def isFull (h : BinaryHeap α) : Bool := h.a.isFull

def iter (h : BinaryHeap α) : List α := h.a.items

/-- `drain`: `self.a.drain(..)`, the entries in storage order. -/
def drain (h : BinaryHeap α) : List α × BinaryHeap α := (h.a.drain.1, ⟨h.a.drain.2⟩)

def clear (h : BinaryHeap α) : BinaryHeap α := ⟨h.a.clear⟩

def intoVec (h : BinaryHeap α) : Vec α := h.a

/-- `IntoIterator::into_iter`: the vector's own iterator, in storage order. -/
def intoIter (h : BinaryHeap α) : List α := h.a.items

@[simp] theorem len_eq (h : BinaryHeap α) : h.len = h.a.items.length := rfl

@[simp] theorem capacity_eq (h : BinaryHeap α) : h.capacity = h.a.capacity := rfl

@[simp] theorem fromStorage_items (c : Nat) : (fromStorage c : BinaryHeap α).a.items = [] := rfl

@[simp] theorem fromStorage_capacity (c : Nat) : (fromStorage c : BinaryHeap α).a.capacity = c := rfl

@[simp] theorem clear_items (h : BinaryHeap α) : h.clear.a.items = [] := rfl

@[simp] theorem clear_capacity (h : BinaryHeap α) : h.clear.a.capacity = h.a.capacity := rfl

@[simp] theorem drain_fst (h : BinaryHeap α) : h.drain.1 = h.a.items := rfl

@[simp] theorem drain_items (h : BinaryHeap α) : h.drain.2.a.items = [] := rfl

@[simp] theorem drain_capacity (h : BinaryHeap α) : h.drain.2.a.capacity = h.a.capacity := rfl

theorem peek_eq (h : BinaryHeap α) : h.peek = h.a.items.head? := rfl

theorem len_pos_of_not_isEmpty {h : BinaryHeap α} (hE : ¬ h.isEmpty = true) : 0 < h.a.items.length := by
  simp only [isEmpty, Vec.isEmpty_iff] at hE
  exact List.length_pos.mpr hE

variable [LinearOrder α]

/-- `From<Vec>`: the heap is built in place, `for i in (0..n/2).rev() { heapify(a, i) }`. -/
def fromVec (v : Vec α) : BinaryHeap α := ⟨v.modifySlice buildHeap length_buildHeap⟩

/-- `pop`: `swap_remove(0)`, then `heapify(a, 0)`. -/
def pop (h : BinaryHeap α) : Option α × BinaryHeap α :=
  if hE : h.isEmpty then (none, h)
  else
    let r := h.a.swapRemove 0 (len_pos_of_not_isEmpty hE)
    (some r.1, ⟨r.2.modifySlice (heapify · 0) (length_heapify · 0)⟩)

/-- `try_push`: `self.a.try_push(item)?`, then the sift-up loop from the last position. -/
def tryPush (h : BinaryHeap α) (item : α) : Except α Unit × BinaryHeap α :=
  match h.a.tryPush item with
  | .error item => (.error item, h)
  | .ok a => (.ok (), ⟨a.modifySlice (fun s => siftUp s (s.length - 1)) (fun _ => length_siftUp _ _)⟩)

/-- `push`: `try_push`, and a panic when it fails. -/
def push (h : BinaryHeap α) (item : α) : Option (BinaryHeap α) :=
  match h.tryPush item with
  | (.ok (), h') => some h'
  | (.error _, _) => none

/-- `into_sorted_vec`: `for i in (1..a.len()).rev() { a.swap(0, i); heapify(&mut a[..i], 0); }`. -/
def intoSortedVec (h : BinaryHeap α) : Vec α := h.intoVec.modifySlice sortLoop length_sortLoop

/-- `Extend::extend`: `self.a.extend(iter)` (a panic when the storage fills), then the whole slice
is built into a heap again. -/
def extend (h : BinaryHeap α) (xs : List α) : Option (BinaryHeap α) :=
  (h.a.extend xs).map fun a => ⟨a.modifySlice buildHeap length_buildHeap⟩

/-- `FromIterator::from_iter`: `Vec::from_iter`, then `From<Vec>`. -/
def fromIter (capacity : Nat) (xs : List α) : Option (BinaryHeap α) :=
  (Vec.fromIter capacity xs).map fromVec

theorem pop_of_isEmpty {h : BinaryHeap α} (hE : h.isEmpty = true) : h.pop = (none, h) := dif_pos hE

theorem pop_of_len_pos {h : BinaryHeap α} (h0 : 0 < h.a.items.length) :
    h.pop = (some (h.a.swapRemove 0 h0).1,
      ⟨(h.a.swapRemove 0 h0).2.modifySlice (heapify · 0) (length_heapify · 0)⟩) :=
  dif_neg (by simp only [isEmpty, Vec.isEmpty_iff]; exact List.ne_nil_of_length_pos h0)

theorem pop_fst_isSome {h : BinaryHeap α} (h0 : 0 < h.len) : h.pop.1.isSome := by
  rw [pop_of_len_pos h0]; rfl

theorem len_lt_of_pop_eq_some {h h' : BinaryHeap α} {x : α} (hp : h.pop = (some x, h')) :
    h'.len < h.len := by
  rcases Nat.eq_zero_or_pos h.len with h0 | h0
  · rw [pop_of_isEmpty (by simpa [isEmpty, Vec.isEmpty, Vec.len] using h0)] at hp
    cases hp
  · rw [pop_of_len_pos h0] at hp
    cases hp
    simp at h0 ⊢; omega

/-- `self.for_each(drop)` over an iterator whose `next` is `pop`: the entries in the order they
are dropped, and the heap left behind. -/
def popAll (h : BinaryHeap α) : List α × BinaryHeap α :=
  match _hp : h.pop with
  | (none, h') => ([], h')
  | (some x, h') => ((x :: (popAll h').1), (popAll h').2)
termination_by h.len
decreasing_by all_goals exact len_lt_of_pop_eq_some _hp

end BinaryHeap

/-! ## The guard of `peek_mut` -/

/-- `PeekMut`: mutable access to the root of a heap, which is never empty while the guard
lives. -/
structure PeekMut (α : Type*) where
  heap : BinaryHeap α
  nonempty : 0 < heap.len

namespace PeekMut

variable {α : Type*}

/-- `Deref`/`DerefMut`: the root, `get_unchecked(0)`. -/
def deref (g : PeekMut α) : α := g.heap.a.items.get ⟨0, g.nonempty⟩

/-- A write through `DerefMut`: `*guard = v`. -/
def set (g : PeekMut α) (v : α) : PeekMut α :=
  ⟨⟨g.heap.a.modifySlice (·.set 0 v) (fun _ => List.length_set ..)⟩, by simpa using g.nonempty⟩

@[simp] theorem set_items (g : PeekMut α) (v : α) : (g.set v).heap.a.items = g.heap.a.items.set 0 v :=
  rfl

@[simp] theorem set_capacity (g : PeekMut α) (v : α) : (g.set v).heap.a.capacity = g.heap.a.capacity :=
  rfl

variable [LinearOrder α]

/-- `Drop`: `heapify(self.heap.a.as_mut_slice(), 0)`. -/
def drop (g : PeekMut α) : BinaryHeap α := ⟨g.heap.a.modifySlice (heapify · 0) (length_heapify · 0)⟩

/-- `PeekMut::pop`: `this.heap.pop().unwrap()`, and `mem::forget(this)` so `drop` does not
run. -/
def pop (g : PeekMut α) : α × BinaryHeap α :=
  (g.heap.pop.1.get (BinaryHeap.pop_fst_isSome g.nonempty), g.heap.pop.2)

end PeekMut

/-- `peek_mut`: a guard over a heap that is not empty. -/
def BinaryHeap.peekMut {α : Type*} [LinearOrder α] (h : BinaryHeap α) : Option (PeekMut α) :=
  if hE : h.isEmpty then none else some ⟨h, BinaryHeap.len_pos_of_not_isEmpty hE⟩

/-! ## Sorted iteration -/

/-- `DrainSorted`: borrows the heap, and `next` is `pop`. -/
structure DrainSorted (α : Type*) where
  heap : BinaryHeap α

/-- `IntoIterSorted`: owns the heap, and `next` is `pop`. -/
structure IntoIterSorted (α : Type*) where
  heap : BinaryHeap α

def BinaryHeap.drainSorted {α : Type*} (h : BinaryHeap α) : DrainSorted α := ⟨h⟩

def BinaryHeap.intoIterSorted {α : Type*} (h : BinaryHeap α) : IntoIterSorted α := ⟨h⟩

/-- `ExactSizeIterator::len` as `core` gives it to an iterator that does not define it:
`let (lower, upper) = self.size_hint(); assert_eq!(upper, Some(lower)); lower`. -/
def exactSizeLen {σ : Type*} (sizeHint : σ → Except Fault (Nat × Option Nat)) (it : σ) :
    Except Fault Nat := do
  let (lower, upper) ← sizeHint it
  if upper = some lower then pure lower else throw .assertFailed

namespace DrainSorted

variable {α : Type*} [LinearOrder α]

def next (it : DrainSorted α) : Option α × DrainSorted α := (it.heap.pop.1, ⟨it.heap.pop.2⟩)

/-- `size_hint` calls `self.len()`, which is `ExactSizeIterator::len`, which calls this
`size_hint` again. `depth` is the room left on the stack. -/
def sizeHint : Nat → DrainSorted α → Except Fault (Nat × Option Nat)
  | 0, _ => throw .stackOverflow
  | depth + 1, it => do
    let size ← exactSizeLen (sizeHint depth) it
    pure (size, some size)

/-- `ExactSizeIterator::len`, on a stack with room for `depth` calls. -/
def len (depth : Nat) (it : DrainSorted α) : Except Fault Nat := exactSizeLen (sizeHint depth) it

/-- `Drop`: `self.for_each(drop)` pops and drops what is left; the borrowed heap is what remains. -/
def drop (it : DrainSorted α) : List α × BinaryHeap α := it.heap.popAll

end DrainSorted

namespace IntoIterSorted

variable {α : Type*} [LinearOrder α]

def next (it : IntoIterSorted α) : Option α × IntoIterSorted α := (it.heap.pop.1, ⟨it.heap.pop.2⟩)

def sizeHint (it : IntoIterSorted α) : Except Fault (Nat × Option Nat) :=
  pure (it.heap.len, some it.heap.len)

def len (it : IntoIterSorted α) : Except Fault Nat := exactSizeLen sizeHint it

/-- `Drop`: `self.for_each(drop)`; the heap goes with the iterator. -/
def drop (it : IntoIterSorted α) : List α := it.heap.popAll.1

end IntoIterSorted

end CocaHeap
