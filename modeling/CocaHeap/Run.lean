import Mathlib.Tactic.Abel
import CocaHeap.Refinement

/-! # Sessions

A caller's session with a heap is a list of calls, each made on the state the one before left.
`run` executes a session on the machine, and `PQ.Run` says which sessions the bounded priority
queue allows. Every session from a reachable state is one the queue allows, so what holds of the
queue's sessions holds of the heap's: no entry is made up or lost (those left and those handed
out are those there before and those handed in, less what `clear` and a write through the guard
drop), and between two insertions the heap hands its entries out greatest first.
-/

namespace CocaHeap

variable {α : Type*}

/-! ## What goes in and what comes out -/

/-- The entries a call hands to the heap, when the heap takes them: what `try_push` and `push`
store, what a write through the guard puts in the root's slot, and what `extend` appends. -/
def Op.given : Op α → Output α → List α
  | .tryPush x, .pushed (.ok _) => [x]
  | .push x, _ => [x]
  | .write v, _ => [v]
  | .extend xs, _ => xs
  | _, _ => []

/-- The entries a call takes out of the heap: those `pop`, `next` and `PeekMut::pop` return, and
those `drain` and the drop of a `drain_sorted` iterator list as they remove them. -/
def Op.taken : Op α → Output α → List α
  | .pop, .item (some x) | .next, .item (some x) | .peekMutPop, .item (some x) => [x]
  | .drain, .items xs | .dropIter, .items xs => xs
  | _, _ => []

/-- The calls that drop entries without handing them out. -/
def Op.drops : Op α → Bool
  | .clear | .write _ => true
  | _ => false

/-- The calls that put no entry in and hand entries out greatest first: all but `try_push`,
`push`, `extend`, a write through the guard, and `drain`, which yields the storage order. -/
def Op.keepsOrder : Op α → Bool
  | .tryPush _ | .push _ | .extend _ | .write _ | .drain => false
  | _ => true

/-- The entries an abstract state holds; under a guard, the one in the root's slot and the
rest. -/
def AState.contents : AState α → Multiset α
  | .idle q => q.elems
  | .peeking rest root _ => root ::ₘ rest.elems
  | .draining q => q.elems

/-- The entries a call drops: all of them for `clear`, the overwritten one for a write through
the guard. -/
def AState.dropped : AState α → Op α → Multiset α
  | a, .clear => a.contents
  | .peeking _ root _, .write _ => {root}
  | _, _ => 0

/-- The slice of a state's vector: the heap's own, or the one the guard or iterator borrows. -/
def State.slice : State α → List α
  | .heap h => h.a.items
  | .peeking g => g.heap.a.items
  | .draining it => it.heap.a.items

theorem contents_abs (s : State α) : (abs s).contents = s.slice := by
  cases s with
  | peeking g =>
    show g.deref ::ₘ (g.heap.a.items.tail : Multiset α) = g.heap.a.items
    conv_rhs => rw [g.items_eq_cons]
    rfl
  | _ => rfl

theorem AState.dropped_of_drops {a : AState α} {o : Op α} (ho : o.drops = false) : a.dropped o = 0 := by
  cases o <;> cases a <;> first | rfl | cases ho

theorem given_of_keepsOrder {ops : List (Op α)} (ho : ∀ o ∈ ops, o.keepsOrder) (outs : List (Output α)) :
    (List.zipWith Op.given ops outs).flatten = [] := by
  induction ops generalizing outs with
  | nil => rfl
  | cons o os ih =>
    cases outs with
    | nil => rfl
    | cons out outs =>
      have hg : o.given out = [] := by
        have := ho o (List.mem_cons_self o os)
        cases o <;> first | (cases out <;> rfl) | cases this
      simp only [List.zipWith_cons_cons, List.flatten_cons, hg, List.nil_append]
      exact ih (fun o' h' => ho o' (List.mem_cons_of_mem o h')) outs

theorem add_singleton_eq_cons (s : Multiset α) (a : α) : s + {a} = a ::ₘ s := by
  rw [add_comm, Multiset.singleton_add]

variable [LinearOrder α]

/-- No write since the guard was opened: its slot still holds a greatest entry. -/
def AState.RootMax : AState α → Prop
  | .peeking rest root _ => ∀ y ∈ rest.elems, y ≤ root
  | _ => True

/-! ## Sessions of the machine and of the queue -/

/-- The calls `ops` one after another, with what each returned; `none` as soon as one of them has
no next state. -/
def run : State α → List (Op α) → Option (List (Output α) × State α)
  | s, [] => some ([], s)
  | s, o :: os => (step s o).bind fun r => (run r.2 os).map fun t => (r.1 :: t.1, t.2)

/-- The sessions the queue allows: one `PQ.Step` per call. -/
inductive PQ.Run : AState α → List (Op α) → List (Output α) → AState α → Prop
  | nil (a : AState α) : PQ.Run a [] [] a
  | cons {a a' a'' : AState α} {o : Op α} {out : Output α} {os : List (Op α)}
      {outs : List (Output α)} :
      PQ.Step a o out a' → PQ.Run a' os outs a'' → PQ.Run a (o :: os) (out :: outs) a''

theorem run_cons_of_step {s s' : State α} {o : Op α} {out : Output α} (os : List (Op α))
    (hs : step s o = some (out, s')) :
    run s (o :: os) = (run s' os).map fun t => (out :: t.1, t.2) := by
  simp only [run, hs, Option.some_bind]

theorem run_cons_of_none {s : State α} {o : Op α} (os : List (Op α)) (hs : step s o = none) :
    run s (o :: os) = none := by
  simp only [run, hs, Option.none_bind]

theorem run_cons_eq_some {s s'' : State α} {o : Op α} {os : List (Op α)} {outs : List (Output α)}
    (h : run s (o :: os) = some (outs, s'')) : ∃ out s' outs', step s o = some (out, s') ∧
      run s' os = some (outs', s'') ∧ outs = out :: outs' := by
  rcases hs : step s o with _ | ⟨out, s'⟩
  · rw [run_cons_of_none os hs] at h; cases h
  · rw [run_cons_of_step os hs] at h
    obtain ⟨⟨outs', s₂⟩, hr, he⟩ := Option.map_eq_some'.mp h
    cases he
    exact ⟨out, s', outs', rfl, hr, rfl⟩

theorem Reachable.run {s s' : State α} {ops : List (Op α)} {outs : List (Output α)}
    (hr : Reachable s) (h : run s ops = some (outs, s')) :
    PQ.Run (abs s) ops outs (abs s') ∧ Reachable s' := by
  induction ops generalizing s outs with
  | nil => cases h; exact ⟨.nil _, hr⟩
  | cons o os ih =>
    obtain ⟨out, s₁, outs', hs, hrun, rfl⟩ := run_cons_eq_some h
    obtain ⟨hrun', hr'⟩ := ih (hr.step hs) hrun
    exact ⟨.cons (refines_step hr.inv hs) hrun', hr'⟩

/-- The heap's sessions are the queue's: a session from a reachable state is one that `PQ.Run`
allows between the two readings, and it ends in a reachable state. -/
theorem run_refines {s s' : State α} {ops : List (Op α)} {outs : List (Output α)}
    (hr : Reachable s) (h : run s ops = some (outs, s')) :
    PQ.Run (abs s) ops outs (abs s') ∧ Reachable s' :=
  hr.run h

theorem run_refines_pop_push_pop :
    Reachable (.heap (BinaryHeap.fromVec ⟨[1, 3, 2], 4, by decide⟩ : BinaryHeap ℕ)) ∧
      run (.heap (BinaryHeap.fromVec ⟨[1, 3, 2], 4, by decide⟩ : BinaryHeap ℕ))
          [.pop, .tryPush 5, .pop] =
        some ([.item (some 3), .pushed (.ok ()), .item (some 5)],
          .heap ((BinaryHeap.fromVec ⟨[1, 3, 2], 4, by decide⟩).pop.2.tryPush 5).2.pop.2) ∧
      PQ.Run (abs (.heap (BinaryHeap.fromVec ⟨[1, 3, 2], 4, by decide⟩ : BinaryHeap ℕ)))
        [.pop, .tryPush 5, .pop] [.item (some 3), .pushed (.ok ()), .item (some 5)]
        (abs (.heap ((BinaryHeap.fromVec ⟨[1, 3, 2], 4, by decide⟩).pop.2.tryPush 5).2.pop.2)) := by
  set h₀ : BinaryHeap ℕ := BinaryHeap.fromVec ⟨[1, 3, 2], 4, by decide⟩ with hh₀
  have hb : buildHeap [1, 3, 2] = [3, 1, 2] := by
    show heapify [1, 3, 2] 0 = _
    rw [heapify_of_ne (by decide), heapify_of_eq (by decide)]
    rfl
  have h0 : 0 < h₀.a.items.length := by simp [hh₀]
  have hpop : h₀.pop.2.a.items = [2, 1] := by
    rw [BinaryHeap.pop_items h0]
    simp only [hh₀, BinaryHeap.fromVec_items, hb]
    show heapify [2, 1] 0 = [2, 1]
    exact heapify_of_eq (by decide)
  obtain ⟨hok, hpush, -⟩ := BinaryHeap.tryPush_of_lt 5
    (by rw [hpop, BinaryHeap.pop_capacity]; decide : h₀.pop.2.a.items.length < h₀.pop.2.a.capacity)
  have hpush' : (h₀.pop.2.tryPush 5).2.a.items = [5, 1, 2] := by
    rw [hpush, hpop, siftUp_of_lt (by decide), siftUp_of_not (by decide)]
    rfl
  have hrun : run (.heap h₀) [.pop, .tryPush 5, .pop] =
      some ([.item (some 3), .pushed (.ok ()), .item (some 5)],
        .heap (h₀.pop.2.tryPush 5).2.pop.2) := by
    rw [show run (.heap h₀) [.pop, .tryPush 5, .pop] =
      some ([.item h₀.pop.1, .pushed (h₀.pop.2.tryPush 5).1, .item (h₀.pop.2.tryPush 5).2.pop.1],
        .heap (h₀.pop.2.tryPush 5).2.pop.2) from rfl,
      BinaryHeap.pop_fst h0, BinaryHeap.pop_fst (by simp [hpush']), hok]
    simp [hh₀, hb, hpush']
  exact ⟨.fromVec _, hrun, (run_refines (.fromVec _) hrun).1⟩

/-! ## No entry made up or lost -/

theorem PQ.Step.ledger {a a' : AState α} {o : Op α} {out : Output α} (hs : PQ.Step a o out a') :
    a'.contents + o.taken out + a.dropped o = a.contents + o.given out := by
  cases hs with
  | popSome q m hm _ | nextSome q m hm _ | peekMutSome q m _ hm _ =>
    simpa [AState.contents, AState.dropped, Op.taken, Op.given, PQ.erase, add_singleton_eq_cons]
      using Multiset.cons_erase hm
  | drain q xs hx | dropIter q xs hx _ =>
    simpa [AState.contents, AState.dropped, Op.taken, Op.given, PQ.empty] using hx
  | write rest v w _ =>
    simpa [AState.contents, AState.dropped, Op.taken, Op.given, add_singleton_eq_cons]
      using Multiset.cons_swap v w rest.elems
  | _ => simp [AState.contents, AState.dropped, Op.taken, Op.given, PQ.insert, PQ.append,
      PQ.empty, add_singleton_eq_cons]

theorem PQ.Run.ledger {a a' : AState α} {ops : List (Op α)} {outs : List (Output α)}
    (hr : PQ.Run a ops outs a') :
    ∃ dropped : Multiset α, a'.contents + ↑(List.zipWith Op.taken ops outs).flatten + dropped =
        a.contents + ↑(List.zipWith Op.given ops outs).flatten ∧
      ((∀ o ∈ ops, o.drops = false) → dropped = 0) := by
  induction hr with
  | nil => exact ⟨0, by simp, fun _ => rfl⟩
  | @cons a a₁ a' o out os outs hs _ ih =>
    obtain ⟨d, he, hd⟩ := ih
    refine ⟨a.dropped o + d, ?_, fun h => ?_⟩
    · simp only [List.zipWith_cons_cons, List.flatten_cons, ← Multiset.coe_add]
      calc _ = a'.contents + ↑(List.zipWith Op.taken os outs).flatten + d +
              (↑(o.taken out) + a.dropped o) := by abel
        _ = a₁.contents + ↑(o.taken out) + a.dropped o + ↑(List.zipWith Op.given os outs).flatten := by
          rw [he]; abel
        _ = _ := by rw [hs.ledger, add_assoc]
    · rw [AState.dropped_of_drops (h o (List.mem_cons_self o os)),
        hd fun o' h' => h o' (List.mem_cons_of_mem o h'), add_zero]

/-- No entry is made up or lost: over any session from a reachable state, the entries left in
the slice and those handed out are among those there before and those handed in, and are
exactly those when the session neither clears the heap nor writes through a guard. -/
theorem run_ledger {s s' : State α} {ops : List (Op α)} {outs : List (Output α)}
    (hr : Reachable s) (h : run s ops = some (outs, s')) :
    (s'.slice : Multiset α) + ↑(List.zipWith Op.taken ops outs).flatten ≤
        ↑s.slice + ↑(List.zipWith Op.given ops outs).flatten ∧
      ((∀ o ∈ ops, o.drops = false) → (s'.slice : Multiset α) +
        ↑(List.zipWith Op.taken ops outs).flatten = ↑s.slice + ↑(List.zipWith Op.given ops outs).flatten) := by
  obtain ⟨d, he, hd⟩ := (hr.run h).1.ledger
  rw [contents_abs, contents_abs] at he
  exact ⟨he ▸ Multiset.le_add_right _ _, fun h => by rwa [hd h, add_zero] at he⟩

theorem run_ledger_pop_push :
    Reachable (.heap (BinaryHeap.fromVec ⟨[1, 3, 2], 3, by decide⟩ : BinaryHeap ℕ)) ∧
      (∀ o ∈ ([.pop, .tryPush 5] : List (Op ℕ)), o.drops = false) ∧
      ((State.slice (.heap ((BinaryHeap.fromVec ⟨[1, 3, 2], 3, by decide⟩).pop.2.tryPush 5).2) :
          Multiset ℕ) +
        ↑(List.zipWith Op.taken [.pop, .tryPush 5]
          [.item (BinaryHeap.fromVec ⟨[1, 3, 2], 3, by decide⟩ : BinaryHeap ℕ).pop.1,
            .pushed ((BinaryHeap.fromVec ⟨[1, 3, 2], 3, by decide⟩).pop.2.tryPush 5).1]).flatten =
        ↑(State.slice (.heap (BinaryHeap.fromVec ⟨[1, 3, 2], 3, by decide⟩ : BinaryHeap ℕ))) +
        ↑(List.zipWith Op.given [.pop, .tryPush 5]
          [.item (BinaryHeap.fromVec ⟨[1, 3, 2], 3, by decide⟩ : BinaryHeap ℕ).pop.1,
            .pushed ((BinaryHeap.fromVec ⟨[1, 3, 2], 3, by decide⟩).pop.2.tryPush 5).1]).flatten) :=
  by refine ⟨.fromVec _, by decide, (run_ledger (.fromVec _) ?_).2 (by decide)⟩; rfl

/-! ## Greatest first -/

theorem PQ.Step.handsOut_max {a a' : AState α} {o : Op α} {out : Output α}
    (hs : PQ.Step a o out a') (ho : o.keepsOrder) (hm : a.RootMax) :
    a'.RootMax ∧ (o.taken out).Sorted (· ≥ ·) ∧ ∀ x ∈ o.taken out, ∀ y ∈ a'.contents, y ≤ x := by
  cases hs with
  | tryPushFull | tryPushOk | push | write | extend | drain => cases ho
  | popSome q m _ hmax | nextSome q m _ hmax =>
    refine ⟨trivial, List.sorted_singleton m, ?_⟩
    simpa [Op.taken, AState.contents, PQ.erase] using fun y hy => hmax y (Multiset.mem_of_mem_erase hy)
  | peekMutSome q m _ _ hmax =>
    exact ⟨fun y hy => hmax y (Multiset.mem_of_mem_erase hy), List.sorted_nil, by simp [Op.taken]⟩
  | peekMutPop rest v _ =>
    exact ⟨trivial, List.sorted_singleton v, by simpa [Op.taken, AState.contents] using hm⟩
  | dropIter q xs _ hsort => exact ⟨trivial, hsort, by simp [AState.contents, PQ.empty]⟩
  | read => exact ⟨hm, List.sorted_nil, by simp [Op.taken]⟩
  | _ => exact ⟨trivial, List.sorted_nil, by simp [Op.taken]⟩

theorem PQ.Run.handsOut_sorted {a a' : AState α} {ops : List (Op α)} {outs : List (Output α)}
    (hr : PQ.Run a ops outs a') (ho : ∀ o ∈ ops, o.keepsOrder) (hm : a.RootMax) :
    (List.zipWith Op.taken ops outs).flatten.Sorted (· ≥ ·) ∧
      ∀ x ∈ (List.zipWith Op.taken ops outs).flatten, ∀ y ∈ a'.contents, y ≤ x := by
  induction hr with
  | nil => simp
  | @cons a a₁ a' o out os outs hs hrest ih =>
    have ho' : ∀ o' ∈ os, o'.keepsOrder := fun o' h' => ho o' (List.mem_cons_of_mem o h')
    obtain ⟨hm₁, hsort, hmax⟩ := hs.handsOut_max (ho o (List.mem_cons_self o os)) hm
    obtain ⟨ih₁, ih₂⟩ := ih ho' hm₁
    -- what the rest of the session leaves and takes was there after the first call
    have hle : a'.contents + ↑(List.zipWith Op.taken os outs).flatten ≤ a₁.contents := by
      obtain ⟨d, he, -⟩ := hrest.ledger
      rw [given_of_keepsOrder ho', Multiset.coe_nil, add_zero] at he
      exact he ▸ Multiset.le_add_right _ d
    simp only [List.zipWith_cons_cons, List.flatten_cons]
    refine ⟨List.pairwise_append.mpr ⟨hsort, ih₁, fun x hx z hz => hmax x hx z ?_⟩,
      fun x hx y hy => ?_⟩
    · exact Multiset.mem_of_le ((Multiset.le_add_left _ _).trans hle) (Multiset.mem_coe.mpr hz)
    · rcases List.mem_append.mp hx with hx | hx
      · exact hmax x hx y (Multiset.mem_of_le ((Multiset.le_add_right _ _).trans hle) hy)
      · exact ih₂ x hx y hy

/-- Between two insertions the heap hands its entries out greatest first: over any session from
a reachable heap without `try_push`, `push`, `extend`, a write through a guard or `drain`, the
entries handed out come in non-increasing order, each at least every entry left in the slice. -/
theorem run_handsOut_sorted {h : BinaryHeap α} {s' : State α} {ops : List (Op α)}
    {outs : List (Output α)} (hr : Reachable (.heap h)) (ho : ∀ o ∈ ops, o.keepsOrder)
    (hrun : run (.heap h) ops = some (outs, s')) :
    (List.zipWith Op.taken ops outs).flatten.Sorted (· ≥ ·) ∧
      ∀ x ∈ (List.zipWith Op.taken ops outs).flatten, ∀ y ∈ s'.slice, y ≤ x := by
  simpa [contents_abs] using (hr.run hrun).1.handsOut_sorted ho trivial

theorem run_handsOut_sorted_two_pops :
    Reachable (.heap (BinaryHeap.fromVec ⟨[1, 3, 2], 3, by decide⟩ : BinaryHeap ℕ)) ∧
      (∀ o ∈ ([.pop, .pop] : List (Op ℕ)), o.keepsOrder) ∧
      (List.zipWith Op.taken [.pop, .pop]
        [.item (BinaryHeap.fromVec ⟨[1, 3, 2], 3, by decide⟩ : BinaryHeap ℕ).pop.1,
          .item (BinaryHeap.fromVec ⟨[1, 3, 2], 3, by decide⟩ : BinaryHeap ℕ).pop.2.pop.1]).flatten.Sorted
        (· ≥ ·) := by
  have hrun : run (.heap (BinaryHeap.fromVec ⟨[1, 3, 2], 3, by decide⟩ : BinaryHeap ℕ)) [.pop, .pop] =
      some (_, .heap (BinaryHeap.fromVec ⟨[1, 3, 2], 3, by decide⟩ : BinaryHeap ℕ).pop.2.pop.2) := rfl
  exact ⟨.fromVec _, by decide, (run_handsOut_sorted (.fromVec _) (by decide) hrun).1⟩

end CocaHeap
