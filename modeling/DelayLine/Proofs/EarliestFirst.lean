import Mathlib.Data.Multiset.AddSub
import Mathlib.Order.Bounds.Basic
import DelayLine.ReleaseHeap

/-!
# A heap as a multiset with a minimum

A top in the reversed order is a packet of the earliest release time (`isLeast_of_isTop`). So any
heap shows that time and takes out a packet that has it, and the wait is over when a packet may go
(`MaxHeap.holds`). Which packet that is does not matter to the account of them: those that were
pushed are those that were popped and those that are left (`ReleaseOps.perm_run`).
-/

namespace DelayLine

/-- The times at which packets are to be released. -/
def releaseTimes (s : Multiset Pending) : Set Millis := {t | ∃ p ∈ s, p.releaseAt = t}

theorem isLeast_of_isTop {p : Pending} {l : List Pending} (h : IsTop Pending.order p l) :
    IsLeast (releaseTimes l) p.releaseAt := by
  refine ⟨⟨p, h.1, rfl⟩, ?_⟩
  rintro t ⟨q, hq, rfl⟩
  exact Pending.isLE_order.1 (h.2 q hq)

theorem eq_of_isLeast {s : Set Millis} {t u : Millis} (ht : IsLeast s t) (hu : IsLeast s u) :
    t = u :=
  UInt64.le_antisymm (ht.2 hu.1) (hu.2 ht.1)

namespace ReleaseOps

variable {H : Type} (ops : ReleaseOps H)

/-- What the calls show of a heap that holds the packets of a multiset. -/
structure Holds (h : H) (s : Multiset Pending) : Prop where
  content : (ops.toList h : Multiset Pending) = s
  size : ops.size h = s.card
  nextRelease? (t : Millis) : ops.nextRelease? h = some t ↔ IsLeast (releaseTimes s) t
  nextRelease?_eq_none : ops.nextRelease? h = none ↔ s = 0
  push (p : Pending) : (ops.toList (ops.push h p) : Multiset Pending) = p ::ₘ s
  isSome_popDue (now : Millis) :
    (ops.popDue h now).isSome = true ↔ ∃ t, IsLeast (releaseTimes s) t ∧ t ≤ now
  popDue_eq_some {now : Millis} {p : Pending} {r : H} : ops.popDue h now = some (p, r) →
    IsLeast (releaseTimes s) p.releaseAt ∧ s = p ::ₘ (ops.toList r : Multiset Pending)
  popDue_eq_none {now : Millis} : ops.popDue h now = none →
    ops.step h (.popDue now) = (.popped none, h)
  wait_eq_zero (now : Millis) : ops.wait h now = 0 ↔ (ops.popDue h now).isSome = true
  wait_of_lt {now t : Millis} : IsLeast (releaseTimes s) t → now < t →
    (ops.wait h now).toNat = t.toNat - now.toNat
  wait_of_empty (now : Millis) : s = 0 → ops.wait h now = 65535

/-- Calls on an empty heap come to what they would come to on a multiset: the packets that were
pushed and not popped are in it. -/
def Refines (calls : List HeapCall) : Prop :=
  let added : Multiset Pending := calls.flatMap HeapCall.added
  let handed : Multiset Pending := (ops.run ops.empty calls).1.flatMap HeapAnswer.handed
  handed ≤ added ∧ ops.Holds (ops.run ops.empty calls).2 (added - handed)

end ReleaseOps

namespace MaxHeap

variable {H : Type} {heap : MaxHeap H Pending.order} {h r : H} {now t : Millis} {p : Pending}

theorem nextRelease?_eq_none_iff : heap.nextRelease? h = none ↔ heap.toList h = [] := by
  rw [nextRelease?, Option.map_eq_none_iff]
  refine ⟨heap.peek?_eq_none, fun hempty => Option.eq_none_iff_forall_ne_some.2 fun p hp => ?_⟩
  have hmem := (heap.isTop_of_peek? hp).1
  rw [hempty] at hmem
  cases hmem

theorem nextRelease?_eq_some_iff :
    heap.nextRelease? h = some t ↔ IsLeast (releaseTimes (heap.toList h)) t := by
  have hleast : ∀ u, heap.nextRelease? h = some u → IsLeast (releaseTimes (heap.toList h)) u := by
    intro u hu
    obtain ⟨p, hp, rfl⟩ := Option.map_eq_some_iff.1 hu
    exact isLeast_of_isTop (heap.isTop_of_peek? hp)
  refine ⟨hleast t, fun ht => ?_⟩
  cases hnext : heap.nextRelease? h with
  | none =>
    obtain ⟨p, hp, -⟩ := ht.1
    rw [nextRelease?_eq_none_iff.1 hnext] at hp
    cases hp
  | some u => exact congrArg some (eq_of_isLeast (hleast u hnext) ht)

theorem popDue_eq_some_iff : heap.popDue h now = some (p, r) ↔
    (∃ t, heap.nextRelease? h = some t ∧ t ≤ now) ∧ heap.pop? h = some (p, r) := by
  simp only [popDue, Option.bind_eq_bind, Option.bind_eq_some_iff, Option.ite_none_right_eq_some,
    exists_and_right, ← and_assoc]

theorem isSome_popDue_iff : (heap.popDue h now).isSome = true ↔
    ∃ t, heap.nextRelease? h = some t ∧ t ≤ now := by
  constructor
  · intro hpop
    obtain ⟨⟨p, r⟩, hpop⟩ := Option.isSome_iff_exists.1 hpop
    exact (popDue_eq_some_iff.1 hpop).1
  · rintro ⟨t, ht, hle⟩
    -- A heap that shows a time is not empty, so there is a packet to take out.
    cases hpop : heap.pop? h with
    | none =>
      rw [nextRelease?_eq_none_iff.2 (heap.pop?_eq_none hpop)] at ht
      cases ht
    | some x =>
      exact Option.isSome_iff_exists.2 ⟨x, popDue_eq_some_iff.2 ⟨⟨t, ht, hle⟩, hpop⟩⟩

theorem wait_eq_of_nextRelease? (ht : heap.nextRelease? h = some t) :
    heap.wait h now = satSub t now := by
  rw [wait, ht]

theorem wait_eq_idleWait (hnone : heap.nextRelease? h = none) : heap.wait h now = idleWait := by
  rw [wait, hnone]

theorem wait_eq_zero_iff :
    heap.wait h now = 0 ↔ ∃ t, heap.nextRelease? h = some t ∧ t ≤ now := by
  cases hnext : heap.nextRelease? h with
  | none =>
    rw [wait_eq_idleWait hnext]
    simp [idleWait]
  | some t =>
    rw [wait_eq_of_nextRelease? hnext, ← UInt64.toNat_inj, toNat_satSub, UInt64.toNat_zero,
      Nat.sub_eq_zero_iff_le, ← UInt64.le_iff_toNat_le]
    simp only [Option.some.injEq, exists_eq_left']

theorem holds (heap : MaxHeap H Pending.order) (h : H) :
    heap.releaseOps.Holds h (heap.toList h) where
  content := rfl
  size := heap.size_eq h
  nextRelease? _ := nextRelease?_eq_some_iff
  nextRelease?_eq_none := nextRelease?_eq_none_iff.trans (Multiset.coe_eq_zero _).symm
  push p := Multiset.coe_eq_coe.2 (heap.perm_push h p)
  isSome_popDue now := by
    simp only [← nextRelease?_eq_some_iff]
    exact isSome_popDue_iff
  popDue_eq_some hpop := by
    obtain ⟨-, hpop⟩ := popDue_eq_some_iff.1 hpop
    exact ⟨isLeast_of_isTop (heap.isTop_of_pop? hpop),
      Multiset.coe_eq_coe.2 (heap.perm_of_pop? hpop)⟩
  popDue_eq_none hpop := by rw [ReleaseOps.step, hpop]
  wait_eq_zero now := wait_eq_zero_iff.trans isSome_popDue_iff.symm
  wait_of_lt {now t} ht _ := by
    have hwait : heap.wait h now = satSub t now :=
      wait_eq_of_nextRelease? (nextRelease?_eq_some_iff.2 ht)
    exact (congrArg UInt64.toNat hwait).trans (toNat_satSub ..)
  wait_of_empty now hempty :=
    wait_eq_idleWait (nextRelease?_eq_none_iff.2 ((Multiset.coe_eq_zero _).1 hempty))

end MaxHeap

namespace ReleaseOps

variable {H : Type} {ops : ReleaseOps H} (hops : ∀ h, ops.Holds h (ops.toList h))

include hops

theorem perm_step (h : H) (call : HeapCall) :
    ((ops.step h call).1.handed ++ ops.toList (ops.step h call).2).Perm
      (call.added ++ ops.toList h) := by
  cases call with
  | push p => exact Multiset.coe_eq_coe.1 ((hops h).push p)
  | popDue now =>
    cases hpop : ops.popDue h now with
    | none =>
      rw [(hops h).popDue_eq_none hpop]
      exact .refl _
    | some x =>
      obtain ⟨p, r⟩ := x
      rw [step, hpop]
      exact Multiset.coe_eq_coe.1 ((hops h).popDue_eq_some hpop).2.symm
  | wait now => exact .refl _

theorem perm_run (calls : List HeapCall) (h : H) :
    ((ops.run h calls).1.flatMap HeapAnswer.handed ++ ops.toList (ops.run h calls).2).Perm
      (calls.flatMap HeapCall.added ++ ops.toList h) := by
  induction calls generalizing h with
  | nil => exact .refl _
  | cons call calls ih =>
    have hstep := perm_step hops h call
    have hrun := ih (ops.step h call).2
    simp only [run_cons, List.flatMap_cons, List.append_assoc]
    refine (hrun.append_left _).trans ?_
    refine (List.perm_append_comm_assoc ..).trans ?_
    exact (hstep.append_left _).trans (List.perm_append_comm_assoc ..)

/-- The packets that were pushed are those that were popped and those that are left. -/
theorem refines (hempty : ops.toList ops.empty = []) (calls : List HeapCall) :
    ops.Refines calls := by
  unfold Refines
  intro added handed
  have hadded : ops.toList (ops.run ops.empty calls).2 + handed = added := by
    have hperm := perm_run hops calls ops.empty
    rw [hempty, List.append_nil] at hperm
    exact Multiset.coe_eq_coe.2 (List.perm_append_comm.trans hperm)
  have hleft : added - handed = ops.toList (ops.run ops.empty calls).2 := by
    rw [← hadded, Multiset.add_sub_cancel_right]
  rw [hleft, ← hadded]
  exact ⟨Multiset.le_add_left .., hops _⟩

end ReleaseOps

/-- Any max-heap in the reversed order, and the sorted queue, is a multiset of packets with a
minimum, after whatever calls. -/
theorem heap_refines_multiset {H : Type} (heap : MaxHeap H Pending.order) (calls : List HeapCall) :
    heap.releaseOps.Refines calls ∧ ReleaseQueue.releaseOps.Refines calls := by
  refine ⟨ReleaseOps.refines heap.holds heap.toList_empty calls, ?_⟩
  rw [← ReleaseQueue.releaseOps_heap]
  exact ReleaseOps.refines ReleaseQueue.heap.holds ReleaseQueue.heap.toList_empty calls

/-- Two packets of one release time, up to the last of them. -/
example :
    (ReleaseQueue.releaseOps.run .empty
      [.wait 0, .push ⟨7, [1]⟩, .push ⟨7, []⟩, .wait 5, .popDue 6, .popDue 7, .wait 7]).1 =
    [.waited 65535, .pushed, .pushed, .waited 2, .popped none, .popped (some ⟨7, []⟩),
      .waited 0] := by
  decide

end DelayLine
