import Mathlib.Data.Multiset.Basic
import CocaHeap.Machine
import CocaHeap.Sorted

/-! # The heap refines a bounded priority queue

What `BinaryHeap` is for: a multiset of entries with room for `cap` of them, from which `pop`
takes a greatest one. `PQ` is that multiset, `AState` adds the open guard and the open sorted
iterator, and `PQ.Step` says what each call may do. `abs` reads an abstract state off a state of
the machine, and every call made from a reachable state is a `PQ.Step` between the two readings.
-/

namespace CocaHeap

/-- A multiset of entries that fits in `cap` slots. -/
@[ext] structure PQ (α : Type*) where
  elems : Multiset α
  cap : Nat
  card_le : Multiset.card elems ≤ cap

namespace PQ

variable {α : Type*}

def empty (cap : Nat) : PQ α := ⟨0, cap, Nat.zero_le _⟩

def insert (q : PQ α) (x : α) (h : Multiset.card q.elems < q.cap) : PQ α :=
  ⟨x ::ₘ q.elems, q.cap, (Multiset.card_cons x q.elems).trans_le h⟩

def erase [DecidableEq α] (q : PQ α) (x : α) : PQ α :=
  ⟨q.elems.erase x, q.cap, Multiset.card_erase_le.trans q.card_le⟩

def append (q : PQ α) (xs : List α) (h : Multiset.card q.elems + xs.length ≤ q.cap) : PQ α :=
  ⟨q.elems + xs, q.cap, by rw [Multiset.card_add, Multiset.coe_card]; exact h⟩

/-- The entries of a vector, in the room of its storage. -/
def ofVec (v : Vec α) : PQ α := ⟨v.items, v.capacity, (Multiset.coe_card v.items).trans_le v.len_le⟩

theorem ofVec_eq {v : Vec α} {q : PQ α} (he : (v.items : Multiset α) = q.elems)
    (hc : v.capacity = q.cap) : ofVec v = q :=
  PQ.ext he hc

end PQ

/-- The abstract states. Under an open guard the queue's greatest entry has been lifted out of
`rest`, and its slot holds `root`, whatever the caller wrote there. -/
inductive AState (α : Type*)
  | idle (q : PQ α)
  | peeking (rest : PQ α) (root : α) (room : Multiset.card rest.elems < rest.cap)
  | draining (q : PQ α)

def AState.cap {α : Type*} : AState α → Nat
  | .idle q => q.cap
  | .peeking rest _ _ => rest.cap
  | .draining q => q.cap

/-- What each call may do to the queue: `try_push` fails exactly when the queue is full, `pop`,
`peek` and `peek_mut` find a greatest entry, a guard gives back whatever its slot holds when it
is released or popped, and `drain_sorted` hands out greatest entries until it is dropped. -/
inductive PQ.Step {α : Type*} [LinearOrder α] : AState α → Op α → Output α → AState α → Prop
  | tryPushFull (q : PQ α) (x : α) : Multiset.card q.elems = q.cap →
      Step (.idle q) (.tryPush x) (.pushed (.error x)) (.idle q)
  | tryPushOk (q : PQ α) (x : α) (h : Multiset.card q.elems < q.cap) :
      Step (.idle q) (.tryPush x) (.pushed (.ok ())) (.idle (q.insert x h))
  | push (q : PQ α) (x : α) (h : Multiset.card q.elems < q.cap) :
      Step (.idle q) (.push x) .unit (.idle (q.insert x h))
  | popNone (q : PQ α) : q.elems = 0 → Step (.idle q) .pop (.item none) (.idle q)
  | popSome (q : PQ α) (m : α) : m ∈ q.elems → (∀ y ∈ q.elems, y ≤ m) →
      Step (.idle q) .pop (.item (some m)) (.idle (q.erase m))
  | peekNone (q : PQ α) : q.elems = 0 → Step (.idle q) .peek (.item none) (.idle q)
  | peekSome (q : PQ α) (m : α) : m ∈ q.elems → (∀ y ∈ q.elems, y ≤ m) →
      Step (.idle q) .peek (.item (some m)) (.idle q)
  | peekMutNone (q : PQ α) : q.elems = 0 → Step (.idle q) .peekMut (.guard false) (.idle q)
  | peekMutSome (q : PQ α) (m : α) (room : Multiset.card (q.erase m).elems < (q.erase m).cap) :
      m ∈ q.elems → (∀ y ∈ q.elems, y ≤ m) →
      Step (.idle q) .peekMut (.guard true) (.peeking (q.erase m) m room)
  | read (rest : PQ α) (v : α) (room) :
      Step (.peeking rest v room) .read (.item (some v)) (.peeking rest v room)
  | write (rest : PQ α) (v w : α) (room) :
      Step (.peeking rest v room) (.write w) .unit (.peeking rest w room)
  | release (rest : PQ α) (v : α) (room) :
      Step (.peeking rest v room) .release .unit (.idle (rest.insert v room))
  | peekMutPop (rest : PQ α) (v : α) (room) :
      Step (.peeking rest v room) .peekMutPop (.item (some v)) (.idle rest)
  | extend (q : PQ α) (xs : List α) (h : Multiset.card q.elems + xs.length ≤ q.cap) :
      Step (.idle q) (.extend xs) .unit (.idle (q.append xs h))
  | clear (q : PQ α) : Step (.idle q) .clear .unit (.idle (PQ.empty q.cap))
  | drain (q : PQ α) (xs : List α) : (xs : Multiset α) = q.elems →
      Step (.idle q) .drain (.items xs) (.idle (PQ.empty q.cap))
  | drainSorted (q : PQ α) : Step (.idle q) .drainSorted .unit (.draining q)
  | nextNone (q : PQ α) : q.elems = 0 → Step (.draining q) .next (.item none) (.draining q)
  | nextSome (q : PQ α) (m : α) : m ∈ q.elems → (∀ y ∈ q.elems, y ≤ m) →
      Step (.draining q) .next (.item (some m)) (.draining (q.erase m))
  | dropIter (q : PQ α) (xs : List α) : (xs : Multiset α) = q.elems → xs.Sorted (· ≥ ·) →
      Step (.draining q) .dropIter (.items xs) (.idle (PQ.empty q.cap))

theorem PQ.Step.peekMutSome_of_eq {α : Type*} [LinearOrder α] {q rest : PQ α} {m : α}
    (room : Multiset.card rest.elems < rest.cap) (hr : rest = q.erase m) (hm : m ∈ q.elems)
    (hmax : ∀ y ∈ q.elems, y ≤ m) : PQ.Step (.idle q) .peekMut (.guard true) (.peeking rest m room) := by
  subst hr; exact .peekMutSome q m room hm hmax

theorem PQ.Step.write_of_eq {α : Type*} [LinearOrder α] {rest rest' : PQ α} {v w w' : α}
    {room : Multiset.card rest.elems < rest.cap} {room' : Multiset.card rest'.elems < rest'.cap}
    (hr : rest' = rest) (hw : w' = w) :
    PQ.Step (.peeking rest v room) (.write w) .unit (.peeking rest' w' room') := by
  cases hr; cases hw; exact .write _ _ _ _

/-! ## Reading the machine -/

namespace PeekMut

variable {α : Type*}

theorem length_tail_lt (g : PeekMut α) : g.heap.a.items.tail.length < g.heap.a.capacity := by
  have h0 : 0 < g.heap.a.items.length := g.nonempty
  have := g.heap.a.len_le
  rw [List.length_tail]; omega

/-- The entries under a live guard other than its root. -/
def rest (g : PeekMut α) : PQ α :=
  ⟨g.heap.a.items.tail, g.heap.a.capacity, ((Multiset.coe_card _).trans_lt g.length_tail_lt).le⟩

theorem room (g : PeekMut α) : Multiset.card g.rest.elems < g.rest.cap :=
  (Multiset.coe_card _).trans_lt g.length_tail_lt

theorem items_eq_cons (g : PeekMut α) : g.heap.a.items = g.deref :: g.heap.a.items.tail := by
  obtain ⟨⟨⟨_ | ⟨x, l⟩, c, hc⟩⟩, h0⟩ := g
  · simp at h0
  · rfl

theorem set_rest (g : PeekMut α) (v : α) : (g.set v).rest = g.rest := by
  refine PQ.ext ?_ rfl
  show ((g.heap.a.items.set 0 v).tail : Multiset α) = g.heap.a.items.tail
  rw [g.items_eq_cons]
  rfl

theorem set_deref (g : PeekMut α) (v : α) : (g.set v).deref = v := by
  simp [deref]

end PeekMut

variable {α : Type*}

/-- The queue a state stands for. -/
def abs : State α → AState α
  | .heap h => .idle (PQ.ofVec h.a)
  | .peeking g => .peeking g.rest g.deref g.room
  | .draining it => .draining (PQ.ofVec it.heap.a)

theorem abs_heap {h : BinaryHeap α} {q : PQ α} (he : (h.a.items : Multiset α) = q.elems)
    (hc : h.a.capacity = q.cap) : abs (.heap h) = .idle q := by
  rw [abs, PQ.ofVec_eq he hc]

variable [LinearOrder α]

theorem abs_fromVec (v : Vec α) : abs (.heap (BinaryHeap.fromVec v)) = .idle (PQ.ofVec v) :=
  abs_heap (q := PQ.ofVec v) (Multiset.coe_eq_coe.mpr (buildHeap_perm _)) rfl

/-! ## Each call, read abstractly -/

theorem IsHeap.head?_max {a : List α} (hh : IsHeap a) {m : α} (hm : a.head? = some m) :
    m ∈ (a : Multiset α) ∧ ∀ y ∈ (a : Multiset α), y ≤ m := by
  obtain _ | ⟨x, t⟩ := a
  · cases hm
  · cases hm
    exact ⟨by simp, fun y hy => hh.le_head (by simp) y (Multiset.mem_coe.mp hy)⟩

theorem erase_head {x : α} {t l : List α} (hp : (x :: t).Perm l) :
    (l : Multiset α).erase x = t := by
  rw [← Multiset.coe_eq_coe.mpr hp, ← Multiset.cons_coe, Multiset.erase_cons_head]

namespace BinaryHeap

theorem ofVec_tryPush {h : BinaryHeap α} (x : α) (hl : h.a.items.length < h.a.capacity) :
    PQ.ofVec (h.tryPush x).2.a =
      (PQ.ofVec h.a).insert x ((Multiset.coe_card _).trans_lt hl) := by
  refine PQ.ofVec_eq ?_ (tryPush_of_lt x hl).2.2
  rw [Multiset.coe_eq_coe.mpr ((tryPush_perm x hl).trans (List.perm_append_singleton _ _))]
  rfl

theorem pop_cases {h : BinaryHeap α} (hh : IsHeap h.a.items) :
    (h.pop = (none, h) ∧ (PQ.ofVec h.a).elems = 0) ∨
      ∃ m, h.pop.1 = some m ∧ m ∈ (PQ.ofVec h.a).elems ∧ (∀ y ∈ (PQ.ofVec h.a).elems, y ≤ m) ∧
        PQ.ofVec h.pop.2.a = (PQ.ofVec h.a).erase m := by
  rcases Nat.eq_zero_or_pos h.a.items.length with h0 | h0
  · have hnil := List.length_eq_zero.mp h0
    exact .inl ⟨pop_of_nil hnil, by simp [PQ.ofVec, hnil]⟩
  · have hd : h.a.items.head? = some h.a.items[0] := by
      rw [List.head?_eq_getElem?, List.getElem?_eq_getElem h0]
    exact .inr ⟨h.a.items[0], pop_fst h0, (hh.head?_max hd).1, (hh.head?_max hd).2,
      PQ.ofVec_eq (erase_head (pop_perm h0)).symm (pop_capacity h)⟩

end BinaryHeap

theorem refines_heapStep {h : BinaryHeap α} {o : Op α} {out : Output α} {s' : State α}
    (hh : IsHeap h.a.items) (hs : heapStep h o = some (out, s')) :
    PQ.Step (abs (.heap h)) o out (abs s') := by
  cases o with
  | tryPush x =>
    cases hs
    by_cases hl : h.a.items.length < h.a.capacity
    · simp only [abs, (BinaryHeap.tryPush_of_lt x hl).1, BinaryHeap.ofVec_tryPush x hl]
      exact .tryPushOk _ x _
    · rw [BinaryHeap.tryPush_of_full x (by omega)]
      exact .tryPushFull _ x (by simp [PQ.ofVec]; have := h.a.len_le; omega)
  | push x =>
    obtain ⟨hl, rfl, rfl⟩ := heapStep_push hs
    simp only [abs, BinaryHeap.ofVec_tryPush x hl]
    exact .push _ x _
  | pop =>
    cases hs
    rcases BinaryHeap.pop_cases hh with ⟨he, h0⟩ | ⟨m, hm, hmem, hmax, he⟩
    · rw [he]; exact .popNone _ h0
    · simp only [abs, hm, he]; exact .popSome _ m hmem hmax
  | peek =>
    cases hs
    rcases hp : h.peek with _ | m
    · exact .peekNone _ (by simpa [PQ.ofVec, BinaryHeap.peek_eq] using hp)
    · exact .peekSome _ m (hh.head?_max hp).1 (hh.head?_max hp).2
  | peekMut =>
    rcases heapStep_peekMut hs with ⟨hnil, rfl, rfl⟩ | ⟨g, rfl, rfl, rfl⟩
    · exact .peekMutNone _ (by simp [PQ.ofVec, hnil])
    · have hd : g.heap.a.items.head? = some g.deref := by rw [g.items_eq_cons]; rfl
      exact .peekMutSome_of_eq g.room (PQ.ext (erase_head (.of_eq g.items_eq_cons.symm)).symm rfl)
        (hh.head?_max hd).1 (hh.head?_max hd).2
  | extend xs =>
    obtain ⟨hl, rfl, h', rfl, hitems, hcap⟩ := heapStep_extend hs
    have hq : PQ.ofVec h'.a = (PQ.ofVec h.a).append xs (by simpa [PQ.ofVec] using hl) :=
      PQ.ofVec_eq (by rw [hitems, Multiset.coe_eq_coe.mpr (buildHeap_perm _)]; rfl) hcap
    simp only [abs, hq]
    exact .extend _ xs _
  | clear => cases hs; exact .clear _
  | drain => cases hs; exact .drain _ _ rfl
  | drainSorted => cases hs; exact .drainSorted _
  | read | write _ | release | peekMutPop | next | dropIter => cases hs

theorem refines_guardStep {g : PeekMut α} {o : Op α} {out : Output α} {s' : State α}
    (hs : guardStep g o = some (out, s')) : PQ.Step (abs (.peeking g)) o out (abs s') := by
  cases o with
  | read => cases hs; exact .read _ _ _
  | write v => cases hs; exact .write_of_eq (g.set_rest v) (g.set_deref v)
  | release =>
    cases hs
    have hq : PQ.ofVec g.drop.a = g.rest.insert g.deref g.room :=
      PQ.ofVec_eq (Multiset.coe_eq_coe.mpr ((heapify_perm _ 0).trans (.of_eq g.items_eq_cons))) rfl
    simp only [abs, hq]
    exact .release _ _ _
  | peekMutPop =>
    cases hs
    have hq : PQ.ofVec g.heap.pop.2.a = g.rest :=
      PQ.ofVec_eq ((erase_head (BinaryHeap.pop_perm g.nonempty)).symm.trans
        (erase_head (.of_eq g.items_eq_cons.symm))) (BinaryHeap.pop_capacity _)
    simp only [abs, PeekMut.pop_eq, hq]
    exact .peekMutPop _ _ _
  | _ => cases hs

theorem refines_iterStep {it : DrainSorted α} {o : Op α} {out : Output α} {s' : State α}
    (hh : IsHeap it.heap.a.items) (hs : iterStep it o = some (out, s')) :
    PQ.Step (abs (.draining it)) o out (abs s') := by
  cases o with
  | next =>
    cases hs
    rcases BinaryHeap.pop_cases hh with ⟨he, h0⟩ | ⟨m, hm, hmem, hmax, he⟩
    · simp only [DrainSorted.next, he]; exact .nextNone _ h0
    · simp only [abs, DrainSorted.next, hm, he]; exact .nextSome _ m hmem hmax
  | dropIter =>
    cases hs
    obtain ⟨hp, hnil, hc⟩ := BinaryHeap.popAll_spec it.heap
    have hq : PQ.ofVec it.drop.2.a = PQ.empty it.heap.a.capacity :=
      PQ.ofVec_eq (by simp [DrainSorted.drop, hnil, PQ.empty]) hc
    simp only [abs, hq]
    exact .dropIter _ _ (Multiset.coe_eq_coe.mpr hp) (popAll_sorted hh)
  | _ => cases hs

theorem refines_step {s s' : State α} {o : Op α} {out : Output α} (hi : Inv s)
    (hs : step s o = some (out, s')) : PQ.Step (abs s) o out (abs s') := by
  cases s with
  | heap h => exact refines_heapStep hi hs
  | peeking g => exact refines_guardStep hs
  | draining it => exact refines_iterStep hi hs

end CocaHeap
