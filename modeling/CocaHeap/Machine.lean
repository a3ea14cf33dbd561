import CocaHeap.Operations

/-! # The heap as a state machine

A caller owns a `BinaryHeap` and calls its methods one after another. While a `PeekMut` guard or
a `DrainSorted` iterator borrows the heap, the borrow rules let the caller use only the guard or
the iterator, until it is dropped. `step` is one call; a call that panics, or that the borrow
rules reject in that state, has no next state.

`Inv` says what holds between calls: the slice is a max-heap, except at the root while a guard
is live. Every state reachable from a constructor satisfies it.
-/

namespace CocaHeap

/-- What the caller holds: the heap, or a guard or an iterator that borrows it. -/
inductive State (α : Type*)
  | heap (h : BinaryHeap α)
  | peeking (g : PeekMut α)
  | draining (it : DrainSorted α)

/-- The calls. `read` and `write` go through `Deref` and `DerefMut` of the guard; `release` and
`dropIter` drop the guard and the iterator. `drain` stands for the whole life of the `Drain`
iterator, which empties the vector however much of it is consumed. -/
inductive Op (α : Type*)
  | tryPush (x : α)
  | push (x : α)
  | pop
  | peek
  | peekMut
  | read
  | write (v : α)
  | release
  | peekMutPop
  | extend (xs : List α)
  | clear
  | drain
  | drainSorted
  | next
  | dropIter

/-- What a call returns to the caller. `guard` says whether `peek_mut` gave `Some`. -/
inductive Output (α : Type*)
  | unit
  | pushed (r : Except α Unit)
  | item (x : Option α)
  | items (xs : List α)
  | guard (opened : Bool)

variable {α : Type*} [LinearOrder α]

/-! ## One call -/

/-- A call on the heap itself. -/
def heapStep (h : BinaryHeap α) : Op α → Option (Output α × State α)
  | .tryPush x => some (.pushed (h.tryPush x).1, .heap (h.tryPush x).2)
  | .push x => (h.push x).map fun h' => (.unit, .heap h')
  | .pop => some (.item h.pop.1, .heap h.pop.2)
  | .peek => some (.item h.peek, .heap h)
  | .peekMut =>
    match h.peekMut with
    | none => some (.guard false, .heap h)
    | some g => some (.guard true, .peeking g)
  | .extend xs => (h.extend xs).map fun h' => (.unit, .heap h')
  | .clear => some (.unit, .heap h.clear)
  | .drain => some (.items h.drain.1, .heap h.drain.2)
  | .drainSorted => some (.unit, .draining h.drainSorted)
  | _ => none

/-- A call through a live guard. -/
def guardStep (g : PeekMut α) : Op α → Option (Output α × State α)
  | .read => some (.item (some g.deref), .peeking g)
  | .write v => some (.unit, .peeking (g.set v))
  | .release => some (.unit, .heap g.drop)
  | .peekMutPop => some (.item (some g.pop.1), .heap g.pop.2)
  | _ => none

/-- A call on a live `drain_sorted` iterator. -/
def iterStep (it : DrainSorted α) : Op α → Option (Output α × State α)
  | .next => some (.item it.next.1, .draining it.next.2)
  | .dropIter => some (.items it.drop.1, .heap it.drop.2)
  | _ => none

def step : State α → Op α → Option (Output α × State α)
  | .heap h => heapStep h
  | .peeking g => guardStep g
  | .draining it => iterStep it

/-- The states a caller can reach: a heap made by `From<B>`, `From<Vec>` or `FromIterator`, then
any sequence of calls that do not panic. -/
inductive Reachable : State α → Prop
  | fromStorage (c : Nat) : Reachable (.heap (BinaryHeap.fromStorage c))
  | fromVec (v : Vec α) : Reachable (.heap (BinaryHeap.fromVec v))
  | fromIter {c : Nat} {xs : List α} {h : BinaryHeap α} :
      BinaryHeap.fromIter c xs = some h → Reachable (.heap h)
  | step {s s' : State α} {o : Op α} {out : Output α} :
      Reachable s → step s o = some (out, s') → Reachable s'

/-! ## What the calls that can fail do -/

theorem heapStep_push {h : BinaryHeap α} {x : α} {out : Output α} {s' : State α}
    (hs : heapStep h (.push x) = some (out, s')) :
    h.a.items.length < h.a.capacity ∧ out = .unit ∧ s' = .heap (h.tryPush x).2 := by
  obtain ⟨h', hp, ⟨⟩⟩ := Option.map_eq_some'.mp hs
  obtain ⟨hl, ht⟩ := BinaryHeap.push_eq_some_iff.mp hp
  exact ⟨hl, rfl, congrArg (State.heap ∘ Prod.snd) ht.symm⟩

theorem heapStep_extend {h : BinaryHeap α} {xs : List α} {out : Output α} {s' : State α}
    (hs : heapStep h (.extend xs) = some (out, s')) :
    h.a.items.length + xs.length ≤ h.a.capacity ∧ out = .unit ∧ ∃ h' : BinaryHeap α,
      s' = .heap h' ∧ h'.a.items = buildHeap (h.a.items ++ xs) ∧ h'.a.capacity = h.a.capacity := by
  obtain ⟨h', hp, ⟨⟩⟩ := Option.map_eq_some'.mp hs
  by_cases hl : h.a.items.length + xs.length ≤ h.a.capacity
  · obtain ⟨h'', he, hitems, hcap⟩ := BinaryHeap.extend_of_fits hl
    obtain rfl := Option.some.inj (hp.symm.trans he)
    exact ⟨hl, rfl, h', rfl, hitems, hcap⟩
  · rw [BinaryHeap.extend_of_overflow (by omega)] at hp
    cases hp

theorem heapStep_peekMut {h : BinaryHeap α} {out : Output α} {s' : State α}
    (hs : heapStep h .peekMut = some (out, s')) :
    (h.a.items = [] ∧ out = .guard false ∧ s' = .heap h) ∨
      ∃ g : PeekMut α, g.heap = h ∧ out = .guard true ∧ s' = .peeking g := by
  simp only [heapStep] at hs
  split at hs <;> rename_i hg <;> cases hs
  · exact .inl ⟨BinaryHeap.peekMut_eq_none_iff.mp hg, rfl, rfl⟩
  · exact .inr ⟨_, (BinaryHeap.peekMut_eq_some_iff.mp hg).2, rfl, rfl⟩

/-! ## The invariant -/

/-- Between calls the slice is a max-heap; under a live guard, everywhere below the root. -/
def Inv : State α → Prop
  | .heap h => IsHeap h.a.items
  | .peeking g => HeapBelow g.heap.a.items 1
  | .draining it => IsHeap it.heap.a.items

theorem isHeap_nil : IsHeap ([] : List α) := fun _ hi => absurd hi (Nat.not_lt_zero _)

theorem Inv.heapStep {h : BinaryHeap α} {o : Op α} {out : Output α} {s' : State α}
    (hh : IsHeap h.a.items) (hs : heapStep h o = some (out, s')) : Inv s' := by
  cases o with
  | tryPush x => cases hs; exact BinaryHeap.isHeap_tryPush x hh
  | push x =>
    obtain ⟨-, -, rfl⟩ := heapStep_push hs
    exact BinaryHeap.isHeap_tryPush x hh
  | pop => cases hs; exact BinaryHeap.isHeap_pop hh
  | peek => cases hs; exact hh
  | peekMut =>
    rcases heapStep_peekMut hs with ⟨-, -, rfl⟩ | ⟨g, rfl, -, rfl⟩
    exacts [hh, hh.heapBelow_one]
  | extend xs =>
    obtain ⟨-, -, h', rfl, hitems, -⟩ := heapStep_extend hs
    show IsHeap h'.a.items
    exact hitems ▸ isHeap_buildHeap _
  | clear => cases hs; exact isHeap_nil
  | drain => cases hs; exact isHeap_nil
  | drainSorted => cases hs; exact hh
  | read | write _ | release | peekMutPop | next | dropIter => cases hs

theorem Inv.guardStep {g : PeekMut α} {o : Op α} {out : Output α} {s' : State α}
    (hg : HeapBelow g.heap.a.items 1) (hs : guardStep g o = some (out, s')) : Inv s' := by
  cases o with
  | read => cases hs; exact hg
  | write v => cases hs; simpa [Inv] using hg.set_zero v
  | release => cases hs; exact PeekMut.isHeap_drop hg
  | peekMutPop => cases hs; exact BinaryHeap.isHeap_pop_of_heapBelow g.nonempty hg
  | _ => cases hs

theorem Inv.iterStep {it : DrainSorted α} {o : Op α} {out : Output α} {s' : State α}
    (hh : IsHeap it.heap.a.items) (hs : iterStep it o = some (out, s')) : Inv s' := by
  cases o with
  | next => cases hs; exact BinaryHeap.isHeap_pop hh
  | dropIter =>
    cases hs
    show IsHeap it.heap.popAll.2.a.items
    rw [(BinaryHeap.popAll_spec _).2.1]
    exact isHeap_nil
  | _ => cases hs

theorem Inv.step {s s' : State α} {o : Op α} {out : Output α} (hi : Inv s)
    (hs : step s o = some (out, s')) : Inv s' := by
  cases s with
  | heap h => exact Inv.heapStep hi hs
  | peeking g => exact Inv.guardStep hi hs
  | draining it => exact Inv.iterStep hi hs

theorem Reachable.inv {s : State α} (hr : Reachable s) : Inv s := by
  induction hr with
  | fromStorage c => exact isHeap_nil
  | fromVec v => exact isHeap_buildHeap _
  | fromIter hx =>
    obtain ⟨v, -, rfl⟩ := Option.map_eq_some'.mp hx
    exact isHeap_buildHeap _
  | step _ hs ih => exact ih.step hs

/-- Whatever the caller did since the heap was made, once no guard and no iterator is live the
slice is a max-heap: `a[parent(i)] >= a[i]` for every `0 < i < n`, under any total order. -/
theorem reachable_isHeap {h : BinaryHeap α} (hr : Reachable (.heap h)) : IsHeap h.a.items :=
  hr.inv

theorem reachable_isHeap_two_pushes :
    Reachable (.heap (((BinaryHeap.fromStorage 3 : BinaryHeap ℕ).tryPush 1).2.tryPush 2).2) ∧
      IsHeap (((BinaryHeap.fromStorage 3 : BinaryHeap ℕ).tryPush 1).2.tryPush 2).2.a.items :=
  ⟨.step (.step (.fromStorage 3) (o := .tryPush 1) rfl) (o := .tryPush 2) rfl,
    reachable_isHeap (.step (.step (.fromStorage 3) (o := .tryPush 1) rfl) (o := .tryPush 2) rfl)⟩

end CocaHeap
