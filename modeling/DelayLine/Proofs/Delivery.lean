import Mathlib.Data.List.Perm.Subperm
import Mathlib.Data.Multiset.AddSub
import DelayLine.Proofs.QueueRun

/-!
# Delivery

No run of a queue loses or doubles a packet: those that were taken are those that were popped and
written once, and those still pending (`conserved_step`). No packet goes before its release time,
whatever the clock shows. If the clock never goes back, packets go in the order of their release
times, also over several drains (`ordered_step`).
-/

namespace DelayLine

open PacketQueue
open scoped List

/-- A list in which the values of `f` have been reordered is that of other arguments. -/
theorem exists_map_eq_of_perm {α β : Type} {f : α → β} {xs : List α} {ys : List β}
    (h : xs.map f ~ ys) : ∃ zs, zs ~ xs ∧ zs.map f = ys := by
  have := congrFun₂ (List.eq_map_comp_perm f) ys xs
  obtain ⟨zs, hzs, hperm⟩ := this.mpr h.symm
  exact ⟨zs, hperm, hzs.symm⟩

namespace Run

variable {Q σ : Type} [PacketQueue Q] {clock : Nat → Millis} {r : Run Q σ}

/-- Every drain is sound, and the packets that were taken are those that left and those pending. -/
structure Conserved (r : Run Q σ) : Prop where
  sound : ∀ d ∈ r.drainages, d.Sound
  perm : r.arrivals.map Arrival.pending ~ r.handed ++ (pending r.queue).toList

theorem conserved_step (h : r.Conserved) (c : Call σ) : (r.step clock c).Conserved := by
  cases moves_step clock r c with
  | idle ha hd hp =>
    refine ⟨hd ▸ h.sound, ?_⟩
    rw [ha, hp, handed_of_drainages_eq hd]
    exact h.perm
  | take a _ ha hd hp =>
    refine ⟨hd ▸ h.sound, ?_⟩
    rw [ha, hp, handed_of_drainages_eq hd, List.map_append]
    calc r.arrivals.map Arrival.pending ++ [a.pending]
        ~ a.pending :: r.arrivals.map Arrival.pending := List.perm_append_singleton ..
      _ ~ a.pending :: (r.handed ++ (pending r.queue).toList) := h.perm.cons _
      _ ~ r.handed ++ a.pending :: (pending r.queue).toList := List.perm_middle.symm
      _ ~ r.handed ++ ((pending r.queue).push a.pending).toList :=
        (ReleaseQueue.perm_push ..).symm.append_left _
  | drain d hs hb he _ ha hd =>
    constructor
    · rw [hd]
      intro x hx
      rcases List.mem_append.1 hx with hx | hx
      · exact h.sound x hx
      · exact List.mem_singleton.1 hx ▸ hs
    · rw [ha, handed_of_drainages_append hd, List.append_assoc, ← he, ← hs.parts, hb]
      exact h.perm

theorem Conserved.map_packet_writes (h : r.Conserved) :
    r.writes.map Write.packet = r.handed.map Pending.payload := by
  rw [writes, handed, List.map_flatMap, List.map_flatMap]
  exact List.flatMap_congr fun d hd => (h.sound d hd).packets

theorem Conserved.map_fst_pops (h : r.Conserved) : r.pops.map Prod.fst = r.handed := by
  rw [pops, handed, List.map_flatMap]
  exact List.flatMap_congr fun d hd => List.map_fst_zip (h.sound d hd).length_le

theorem Conserved.due_of_mem_pops (h : r.Conserved) :
    ∀ x ∈ r.pops, x.1.releaseAt ≤ x.2 := by
  intro x hx
  obtain ⟨d, hd, hx⟩ := List.mem_flatMap.1 hx
  exact (h.sound d hd).due x hx

/-- Which of the packets taken have left and which are pending. -/
theorem Conserved.exists_split (h : r.Conserved) : ∃ gone left : List Arrival,
    gone ++ left ~ r.arrivals ∧ gone.map Arrival.pending = r.handed ∧
      left.map Arrival.pending = (pending r.queue).toList := by
  obtain ⟨l, hp, hl⟩ := exists_map_eq_of_perm h.perm
  obtain ⟨gone, left, rfl, hg, hf⟩ := List.map_eq_append_iff.1 hl
  exact ⟨gone, left, hp, hg, hf⟩

/-- Every packet that was taken was written once, in a drain that popped it at a reading not before
its release time, or is pending, and every drain is sound. -/
structure Accounted (r : Run Q σ) : Prop where
  conserved : (r.arrivals.map Arrival.packet : Multiset Packet) =
    r.writes.map Write.packet + (pending r.queue).toList.map Pending.payload
  once : r.writes.map Write.packet = r.pops.map fun x => x.1.payload
  never_early : ∃ gone left : List Arrival, gone ++ left ~ r.arrivals ∧
    List.Forall₂ (fun a x => x.1 = a.pending ∧ a.due ≤ x.2.toNat) gone r.pops ∧
    left.map Arrival.pending = (pending r.queue).toList
  sound : ∀ d ∈ r.drainages, d.Sound

theorem Conserved.accounted (h : r.Conserved) : r.Accounted where
  conserved := by
    have := (h.perm.map Pending.payload)
    rw [List.map_append, ← h.map_packet_writes, List.map_map] at this
    exact Multiset.coe_eq_coe.2 this
  once := by
    rw [h.map_packet_writes, ← h.map_fst_pops, List.map_map]
    rfl
  never_early := by
    obtain ⟨gone, left, hp, hg, hl⟩ := h.exists_split
    refine ⟨gone, left, hp, ?_, hl⟩
    rw [← h.map_fst_pops, ← List.forall₂_eq_eq_eq, List.forall₂_map_left_iff,
      List.forall₂_map_right_iff, List.forall₂_iff_zip] at hg
    refine List.forall₂_iff_zip.2 ⟨hg.1, fun {a x} hax => ?_⟩
    have he : a.pending = x.1 := hg.2 hax
    have hdue := h.due_of_mem_pops x (List.of_mem_zip hax).2
    exact ⟨he.symm, a.toNat_releaseAt_pending ▸ he ▸ UInt64.le_iff_toNat_le.1 hdue⟩
  sound := h.sound

/-- What was handed over came in the order of the release times, and none of it was later than a
pending packet or a reading still to come. -/
structure Ordered (clock : Nat → Millis) (r : Run Q σ) : Prop where
  sorted : r.handed.Pairwise fun p q => p.releaseAt ≤ q.releaseAt
  first : ∀ p ∈ r.handed, ∀ q ∈ (pending r.queue).toList, p.releaseAt ≤ q.releaseAt
  past : ∀ p ∈ r.handed, ∀ i, r.readings ≤ i → p.releaseAt ≤ clock i

theorem ordered_step (hclock : ∀ i j, i ≤ j → clock i ≤ clock j) (h : r.Ordered clock)
    (c : Call σ) : (r.step clock c).Ordered clock := by
  cases moves_step clock r c with
  | idle _ hd hp hr =>
    have hh := handed_of_drainages_eq hd
    exact ⟨hh ▸ h.sorted, hh ▸ hp ▸ h.first, fun p hm i hi => h.past p (hh ▸ hm) i (hr.trans hi)⟩
  | take a ha _ hd hp hr =>
    have hh := handed_of_drainages_eq hd
    refine ⟨hh ▸ h.sorted, ?_, fun p hm i hi => h.past p (hh ▸ hm) i (by omega)⟩
    rw [hh, hp]
    intro p hm q hq
    rcases List.mem_cons.1 ((ReleaseQueue.perm_push ..).mem_iff.1 hq) with rfl | hq
    · exact UInt64.le_trans (h.past p hm r.readings le_rfl) (ha ▸ a.reading_le_releaseAt_pending)
    · exact h.first p hm q hq
  | drain d hs hb he hr _ hd hn =>
    have hh := handed_of_drainages_append hd
    have hsorted := d.before.sorted
    rw [hs.parts] at hsorted
    obtain ⟨hin, -, hcross⟩ := List.pairwise_append.1 hsorted
    have hfirst : ∀ p ∈ r.handed, ∀ q ∈ d.handed ++ d.after.toList, p.releaseAt ≤ q.releaseAt := by
      rw [← hs.parts, hb]
      exact h.first
    refine ⟨?_, ?_, ?_⟩
    · rw [hh]
      exact List.pairwise_append.2 ⟨h.sorted, hin, fun p hm q hq =>
        hfirst p hm q (List.mem_append_left _ hq)⟩
    · rw [hh, ← he]
      intro p hm q hq
      rcases List.mem_append.1 hm with hm | hm
      · exact hfirst p hm q (List.mem_append_right _ hq)
      · exact hcross p hm q hq
    · rw [hh]
      intro p hm i hi
      rcases List.mem_append.1 hm with hm | hm
      · exact h.past p hm i (by omega)
      · obtain ⟨t, ht, hle⟩ := hs.exists_reading hm
        rw [hr] at ht
        obtain ⟨j, hj, rfl⟩ := List.mem_map.1 ht
        have := List.mem_range.1 hj
        exact UInt64.le_trans hle (hclock _ _ (by omega))

theorem conserved_start {q : Q} (hq : (pending q).toList = []) (state : σ) :
    Conserved { queue := q, state } := by
  refine ⟨fun d hd => by simp [drainages] at hd, ?_⟩
  simp [arrivals, handed, drainages, hq]

theorem ordered_start (q : Q) (state : σ) : Ordered clock { queue := q, state } := by
  constructor <;> simp [handed, drainages]

theorem conserved_after {q : Q} (hq : (pending q).toList = []) (clock : Nat → Millis)
    (state : σ) (calls : List (Call σ)) :
    Conserved (after clock { queue := q, state } calls) :=
  after_induction (conserved_start hq state) (fun _ c h => conserved_step h c) calls

theorem ordered_after (hclock : ∀ i j, i ≤ j → clock i ≤ clock j) (q : Q) (state : σ)
    (calls : List (Call σ)) : Ordered clock (after clock { queue := q, state } calls) :=
  after_induction (ordered_start q state) (fun _ c h => ordered_step hclock h c) calls

/-- The packets written are some of those taken, and go in the order of their release times. -/
def InReleaseOrder (r : Run Q σ) : Prop :=
  ∃ order : List Arrival, order <+~ r.arrivals ∧ order.map Arrival.pending = r.handed ∧
    order.map Arrival.packet = r.writes.map Write.packet ∧
    order.Pairwise fun a b => a.due ≤ b.due

theorem inReleaseOrder_after {q : Q} (hq : (pending q).toList = [])
    (hclock : ∀ i j, i ≤ j → clock i ≤ clock j) (state : σ) (calls : List (Call σ)) :
    InReleaseOrder (after clock { queue := q, state } calls) := by
  have hc := conserved_after hq clock state calls
  obtain ⟨gone, left, hp, hg, -⟩ := hc.exists_split
  refine ⟨gone, (List.sublist_append_left gone left).subperm.trans hp.subperm, hg, ?_, ?_⟩
  · rw [hc.map_packet_writes, ← hg, List.map_map]
    rfl
  · have := (ordered_after hclock q state calls).sorted
    rw [← hg, List.pairwise_map] at this
    exact this.imp fun {a b} hab => by
      simpa using UInt64.le_iff_toNat_le.1 hab

end Run

theorem packets_accounted {σ : Type} (clock : Nat → Millis) (state : σ) (calls : List (Call σ)) :
    (∀ rules direction config, Run.Accounted
      (Run.after clock { queue := RuleQueue.start rules direction config, state } calls)) ∧
    ∀ delay, Run.Accounted
      (Run.after clock { queue := ({ delay } : FixedQueue), state } calls) :=
  ⟨fun _ _ _ => (Run.conserved_after rfl ..).accounted, fun _ =>
    (Run.conserved_after rfl ..).accounted⟩

theorem released_in_order {σ : Type} {clock : Nat → Millis}
    (hclock : ∀ i j, i ≤ j → clock i ≤ clock j) (state : σ) (calls : List (Call σ)) :
    (∀ rules direction config, Run.InReleaseOrder
      (Run.after clock { queue := RuleQueue.start rules direction config, state } calls)) ∧
    ∀ delay, Run.InReleaseOrder
      (Run.after clock { queue := ({ delay } : FixedQueue), state } calls) :=
  ⟨fun _ _ _ => Run.inReleaseOrder_after rfl hclock .., fun _ =>
    Run.inReleaseOrder_after rfl hclock ..⟩

/-- Packets of a queue with a delay of 20, the second of which the sink fails on. -/
theorem released_in_order_of_step :
    (∀ i j : Nat, i ≤ j → (if i < 3 then 5 else 40 : Millis) ≤ if j < 3 then 5 else 40) ∧
    let sink := takeAtMost .nothingWritten
    let r := Run.after (fun i => if i < 3 then 5 else 40)
      { queue := ({ delay := 20 } : FixedQueue), state := 1 }
      [.enqueue [1], .enqueue [], .drain sink, .enqueue [2], .drain sink, .drain sink]
    r.InReleaseOrder ∧ r.handed.map Pending.releaseAt = [25, 25] ∧ r.arrivals.length = 3 := by
  have hclock : ∀ i j : Nat, i ≤ j →
      (if i < 3 then 5 else 40 : Millis) ≤ if j < 3 then 5 else 40 := by
    intro i j hij
    split_ifs
    · decide
    · decide
    · omega
    · decide
  exact ⟨hclock, (released_in_order hclock 1 _).2 20, by decide, by decide⟩

end DelayLine
