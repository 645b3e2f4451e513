import DelayLine.ReleaseQueue

/-!
# Release heaps

A heap of pending packets is a max-heap over their release times in reverse, so a packet that is
released first is on top. The order does not look at payloads, and which packet of one release time
is on top is up to the heap. Main statement: `ReleaseQueue.releaseOps_heap`, a release queue is one
of these heaps.
-/

namespace DelayLine

/-- Compares release times in reverse: the packet that is released first is the greatest. -/
def Pending.order (p q : Pending) : Ordering := compare q.releaseAt p.releaseAt

theorem Pending.isLE_order {p q : Pending} :
    (p.order q).isLE = true ↔ q.releaseAt ≤ p.releaseAt :=
  Std.isLE_compare

/-- Whether a member of a list is not less than any other. -/
def IsTop {α : Type} (order : α → α → Ordering) (x : α) (xs : List α) : Prop :=
  x ∈ xs ∧ ∀ y ∈ xs, (order y x).isLE = true

/-- A max-heap: what it holds, in any arrangement, and its operations. Where several elements are
greatest, the one that is shown and the one that is taken out may be any two of them. -/
structure MaxHeap (H : Type) {α : Type} (order : α → α → Ordering) where
  toList : H → List α
  empty : H
  push : H → α → H
  size : H → Nat
  peek? : H → Option α
  pop? : H → Option (α × H)
  toList_empty : toList empty = []
  perm_push (h : H) (x : α) : (toList (push h x)).Perm (x :: toList h)
  size_eq (h : H) : size h = (toList h).length
  peek?_eq_none {h : H} : peek? h = none → toList h = []
  isTop_of_peek? {h : H} {x : α} : peek? h = some x → IsTop order x (toList h)
  pop?_eq_none {h : H} : pop? h = none → toList h = []
  isTop_of_pop? {h r : H} {x : α} : pop? h = some (x, r) → IsTop order x (toList h)
  perm_of_pop? {h r : H} {x : α} : pop? h = some (x, r) → (toList h).Perm (x :: toList r)

/-- The operations on a heap of pending packets. -/
structure ReleaseOps (H : Type) where
  toList : H → List Pending
  empty : H
  push : H → Pending → H
  size : H → Nat
  nextRelease? : H → Option Millis
  popDue : H → Millis → Option (Pending × H)
  wait : H → Millis → Millis

namespace MaxHeap

variable {H : Type} (heap : MaxHeap H Pending.order)

def nextRelease? (h : H) : Option Millis := (heap.peek? h).map Pending.releaseAt

def popDue (h : H) (now : Millis) : Option (Pending × H) := do
  let t ← heap.nextRelease? h
  if t ≤ now then heap.pop? h else none

def wait (h : H) (now : Millis) : Millis :=
  match heap.nextRelease? h with
  | none => idleWait
  | some t => satSub t now

def releaseOps : ReleaseOps H where
  toList := heap.toList
  empty := heap.empty
  push := heap.push
  size := heap.size
  nextRelease? := heap.nextRelease?
  popDue := heap.popDue
  wait := heap.wait

end MaxHeap

inductive HeapCall where
  | push (p : Pending)
  | popDue (now : Millis)
  | wait (now : Millis)
deriving DecidableEq, Repr

inductive HeapAnswer where
  | pushed
  | popped (p? : Option Pending)
  | waited (t : Millis)
deriving DecidableEq, Repr

/-- The packets that a call puts into the heap. -/
def HeapCall.added : HeapCall → List Pending
  | push p => [p]
  | _ => []

/-- The packets that an answer hands back. -/
def HeapAnswer.handed : HeapAnswer → List Pending
  | popped p? => p?.toList
  | _ => []

namespace ReleaseOps

variable {H : Type} (ops : ReleaseOps H)

def step (h : H) : HeapCall → HeapAnswer × H
  | .push p => (.pushed, ops.push h p)
  | .popDue now =>
    match ops.popDue h now with
    | none => (.popped none, h)
    | some (p, r) => (.popped (some p), r)
  | .wait now => (.waited (ops.wait h now), h)

/-- The answers to calls made one after the other, and the heap behind them. -/
def run : H → List HeapCall → List HeapAnswer × H
  | h, [] => ([], h)
  | h, call :: calls =>
    let (answer, next) := ops.step h call
    let (answers, last) := run next calls
    (answer :: answers, last)

theorem run_cons (h : H) (call : HeapCall) (calls : List HeapCall) :
    ops.run h (call :: calls) =
      ((ops.step h call).1 :: (ops.run (ops.step h call).2 calls).1,
        (ops.run (ops.step h call).2 calls).2) :=
  rfl

end ReleaseOps

namespace ReleaseQueue

def pop? (q : ReleaseQueue) : Option (Pending × ReleaseQueue) :=
  q.toList.head?.map fun p => (p, ⟨q.toList.tail, q.sorted.tail⟩)

theorem toList_of_pop? {q r : ReleaseQueue} {p : Pending} (h : q.pop? = some (p, r)) :
    q.toList = p :: r.toList := by
  obtain ⟨_ | ⟨x, xs⟩, hsorted⟩ := q
  · cases h
  · cases h
    rfl

theorem isTop_of_toList_eq {q : ReleaseQueue} {p : Pending} {rest : List Pending}
    (h : q.toList = p :: rest) : IsTop Pending.order p q.toList := by
  refine ⟨h ▸ List.mem_cons_self, fun r hr => Pending.isLE_order.2 ?_⟩
  have hsplit : q.toList = [] ++ p :: rest := h
  exact releaseAt_le_of_toList_eq hsplit (h ▸ hr)

/-- The queue as a heap, which shows and takes out the first packet. -/
def heap : MaxHeap ReleaseQueue Pending.order where
  toList := toList
  empty := empty
  push := push
  size := size
  peek? q := q.toList.head?
  pop? := pop?
  toList_empty := rfl
  perm_push := perm_push
  size_eq _ := rfl
  peek?_eq_none h := List.head?_eq_none_iff.1 h
  isTop_of_peek? h := by
    obtain ⟨rest, hq⟩ := List.head?_eq_some_iff.1 h
    exact isTop_of_toList_eq hq
  pop?_eq_none {q} h := by
    obtain ⟨_ | ⟨x, xs⟩, hsorted⟩ := q
    · rfl
    · cases h
  isTop_of_pop? h := isTop_of_toList_eq (toList_of_pop? h)
  perm_of_pop? h := .of_eq (toList_of_pop? h)

def releaseOps : ReleaseOps ReleaseQueue where
  toList := toList
  empty := empty
  push := push
  size := size
  nextRelease? := nextRelease?
  popDue := popDue
  wait := wait

theorem popDue_heap (q : ReleaseQueue) (now : Millis) : heap.popDue q now = q.popDue now := by
  obtain ⟨_ | ⟨p, rest⟩, h⟩ := q <;> rfl

theorem wait_heap (q : ReleaseQueue) (now : Millis) : heap.wait q now = q.wait now := by
  obtain ⟨_ | ⟨p, rest⟩, h⟩ := q <;> rfl

theorem releaseOps_heap : heap.releaseOps = releaseOps := by
  have hpop : heap.popDue = popDue := funext fun q => funext (popDue_heap q)
  have hwait : heap.wait = wait := funext fun q => funext (wait_heap q)
  rw [MaxHeap.releaseOps, hpop, hwait]
  rfl

end ReleaseQueue

end DelayLine
