import Mathlib.Data.List.Basic

/-! # The vector under the heap

`BinaryHeap` wraps a `crate::vec::Vec`, whose code is not part of `binary_heap.rs`. Its
operations here follow the spec: a sequence over storage of a fixed capacity, which never grows.
-/

namespace CocaHeap

/-- Modelled from the spec: `crate::vec::Vec<E, B, I>`, a sequence over storage of `capacity`
slots. The storage backend `B` and the index type `I` only fix `capacity`. -/
structure Vec (α : Type*) where
  items : List α
  capacity : Nat
  len_le : items.length ≤ capacity

namespace Vec

variable {α : Type*}

/-- Modelled from the spec: `Vec::from(buf)`, an empty vector over `capacity` slots. -/
def fromStorage (capacity : Nat) : Vec α := ⟨[], capacity, Nat.zero_le _⟩

/-- Modelled from the spec: `Vec::len`, the number of entries. -/
def len (v : Vec α) : Nat := v.items.length

/-- Modelled from the spec: `Vec::is_empty`. -/
def isEmpty (v : Vec α) : Bool := v.len == 0

/-- Modelled from the spec: `Vec::is_full`, no slot left. -/
def isFull (v : Vec α) : Bool := v.len == v.capacity

/-- Modelled from the spec: `Vec::first`, the entry in slot `0` if there is one. -/
def first (v : Vec α) : Option α := v.items.head?

/-- Modelled from the spec: `Vec::try_push` appends, or hands the item back when the vector is
full. -/
def tryPush (v : Vec α) (x : α) : Except α (Vec α) :=
  if h : v.items.length < v.capacity then .ok ⟨v.items ++ [x], v.capacity, by simp; omega⟩
  else .error x

/-- Modelled from the spec: `Vec::swap_remove(i)` returns `v[i]`, moves the last entry into slot
`i` and shortens the vector by one. -/
def swapRemove (v : Vec α) (i : Nat) (hi : i < v.items.length) : α × Vec α :=
  (v.items[i], ⟨(v.items.set i v.items[v.items.length - 1]).dropLast, v.capacity,
    by simp; have := v.len_le; omega⟩)

/-- Modelled from the spec: a change made through `Vec::as_mut_slice`, which can rewrite the
entries but not the length. -/
def modifySlice (v : Vec α) (f : List α → List α) (hf : ∀ a, (f a).length = a.length) : Vec α :=
  ⟨f v.items, v.capacity, by rw [hf]; exact v.len_le⟩

/-- Modelled from the spec: `Vec::clear`. -/
def clear (v : Vec α) : Vec α := ⟨[], v.capacity, Nat.zero_le _⟩

/-- Modelled from the spec: `Vec::drain(..)` yields the entries in storage order and leaves the
vector empty once the iterator is gone. -/
def drain (v : Vec α) : List α × Vec α := (v.items, v.clear)

/-- Modelled from the spec: `Vec::extend` pushes one item at a time and panics (`none`) when the
storage is full. -/
def extend (v : Vec α) (xs : List α) : Option (Vec α) :=
  if h : v.items.length + xs.length ≤ v.capacity then
    some ⟨v.items ++ xs, v.capacity, by simpa using h⟩
  else none

/-- Modelled from the spec: `Vec::from_iter` over `capacity` slots panics when the iterator
yields more items than that. -/
def fromIter (capacity : Nat) (xs : List α) : Option (Vec α) := (fromStorage capacity).extend xs

@[simp] theorem swapRemove_fst (v : Vec α) (i : Nat) (hi) : (v.swapRemove i hi).1 = v.items[i] := rfl

@[simp] theorem swapRemove_items (v : Vec α) (i : Nat) (hi) :
    (v.swapRemove i hi).2.items = (v.items.set i v.items[v.items.length - 1]).dropLast := rfl

@[simp] theorem swapRemove_capacity (v : Vec α) (i : Nat) (hi) :
    (v.swapRemove i hi).2.capacity = v.capacity := rfl

@[simp] theorem modifySlice_items (v : Vec α) (f : List α → List α) (hf) :
    (v.modifySlice f hf).items = f v.items := rfl

@[simp] theorem modifySlice_capacity (v : Vec α) (f : List α → List α) (hf) :
    (v.modifySlice f hf).capacity = v.capacity := rfl

@[simp] theorem clear_items (v : Vec α) : v.clear.items = [] := rfl

@[simp] theorem clear_capacity (v : Vec α) : v.clear.capacity = v.capacity := rfl

@[simp] theorem fromStorage_items (c : Nat) : (fromStorage c : Vec α).items = [] := rfl

@[simp] theorem fromStorage_capacity (c : Nat) : (fromStorage c : Vec α).capacity = c := rfl

theorem isEmpty_iff (v : Vec α) : v.isEmpty = true ↔ v.items = [] := by
  simp [isEmpty, len]

theorem tryPush_eq_ok {v : Vec α} {x : α} (h : v.items.length < v.capacity) :
    v.tryPush x = .ok ⟨v.items ++ [x], v.capacity, by simp; omega⟩ := dif_pos h

theorem tryPush_eq_error {v : Vec α} {x : α} (h : v.capacity ≤ v.items.length) :
    v.tryPush x = .error x := dif_neg (by omega)

theorem extend_eq_some {v : Vec α} {xs : List α} (h : v.items.length + xs.length ≤ v.capacity) :
    v.extend xs = some ⟨v.items ++ xs, v.capacity, by simpa using h⟩ := dif_pos h

theorem extend_eq_none {v : Vec α} {xs : List α} (h : v.capacity < v.items.length + xs.length) :
    v.extend xs = none := dif_neg (by omega)

end Vec

end CocaHeap
