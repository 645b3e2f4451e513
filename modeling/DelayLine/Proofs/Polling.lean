import Mathlib.Data.Finset.Card
import Mathlib.Order.Bounds.Basic
import DelayLine.Clock
import DelayLine.Proofs.DrainExtent
import DelayLine.Proofs.QueueRun
import DelayLine.Proofs.Waiting

/-!
# Polling

A poller sleeps for the wait of its queue and then drains it, while the clock stands still. It wakes
up at the earliest release time, or at once (`Poller.exists_now_sleep`), and a sink that takes every
packet gets all that are due then (`Poller.written_drain`, `Poller.toList_drain`). If nothing was
due before, those are the packets of one release time, so each round leaves one release time less
(`Poller.releaseTimes_round`) and their number is the number of rounds (`Poller.isLeast_rounds`).
-/

namespace DelayLine

open PacketQueue
open ReleaseQueue (Drained)

namespace ReleaseQueue

variable {σ : Type} {sink : Sink σ} {q : ReleaseQueue} {state : σ} {d : Drained σ} {t : Millis}

/-- If the clock stands still, the packets that are due are written and the others stay. -/
theorem Drains.eq_filter (h : Drains sink (fun _ => t) q state d) (hl : d.lost = none) :
    d.written = q.toList.filter (fun p => p.releaseAt ≤ t) ∧
      d.remaining.toList = q.toList.filter (fun p => t < p.releaseAt) := by
  have hhanded := Drained.handed_of_lost_eq_none hl
  have hlist := h.toList
  rw [hhanded] at hlist
  have hdue : ∀ p ∈ d.written, p.releaseAt ≤ t := by
    intro p hp
    obtain ⟨i, hi⟩ := List.mem_iff_getElem?.1 (hhanded ▸ hp)
    exact h.releaseAt_le hi
  have hlate : ∀ p ∈ d.remaining.toList, t < p.releaseAt := fun p hp => h.lt_releaseAt hl hp
  rw [← hlist, List.filter_append, List.filter_append]
  constructor
  · rw [List.filter_eq_self.2 (by simpa using hdue),
      List.filter_eq_nil_iff.2 (by simpa using hlate), List.append_nil]
  · rw [List.filter_eq_nil_iff.2 (by simpa using hdue),
      List.filter_eq_self.2 (by simpa using hlate), List.nil_append]

/-- The times at which packets are to be released. -/
def releaseTimes (q : ReleaseQueue) : Finset Millis := (q.toList.map Pending.releaseAt).toFinset

theorem mem_releaseTimes : t ∈ q.releaseTimes ↔ ∃ p ∈ q.toList, p.releaseAt = t := by
  rw [releaseTimes, List.mem_toFinset, List.mem_map]

theorem releaseTimes_eq_empty_iff : q.releaseTimes = ∅ ↔ q.toList = [] := by
  rw [releaseTimes, List.toFinset_eq_empty_iff, List.map_eq_nil_iff]

end ReleaseQueue

/-- A poller with its clock, its queue and the state of its sink. -/
structure Poller (Q σ : Type) where
  clock : Clock
  queue : Q
  state : σ

namespace Poller

variable {Q σ : Type} [PacketQueue Q]

def pending (x : Poller Q σ) : ReleaseQueue := PacketQueue.pending x.queue

/-- Sleeps until the wait of the queue is over. -/
def sleep (x : Poller Q σ) : Poller Q σ :=
  { x with clock := x.clock.advance (.ofMillis (x.pending.wait x.clock.now)) }

/-- Drains the queue at a single moment. -/
def drain (sink : Sink σ) (x : Poller Q σ) : Drained σ × Poller Q σ :=
  let (d, queue) := PacketQueue.drain x.queue sink (fun _ => x.clock.now) x.state
  (d, { x with queue, state := d.sink })

def round (sink : Sink σ) (x : Poller Q σ) : Poller Q σ := (x.sleep.drain sink).2

section Drain

variable {sink : Sink σ} (hsink : sink.Works) (x : Poller Q σ)

include hsink

theorem lost_drain : (x.drain sink).1.lost = none := by
  rw [drain, PacketQueue.drain_fst]
  exact (ReleaseQueue.drains_drain ..).lost_eq_none_of_works hsink

theorem result_drain : (x.drain sink).1.result = .ok (x.drain sink).1.written.length := by
  rw [Drained.result, lost_drain hsink]

theorem written_drain : (x.drain sink).1.written =
    x.pending.toList.filter (fun p => p.releaseAt ≤ x.clock.now) := by
  have hl := lost_drain hsink x
  rw [drain, PacketQueue.drain_fst] at hl ⊢
  exact ((ReleaseQueue.drains_drain ..).eq_filter hl).1

theorem toList_drain : (x.drain sink).2.pending.toList =
    x.pending.toList.filter (fun p => x.clock.now < p.releaseAt) := by
  have hl := lost_drain hsink x
  rw [drain, PacketQueue.drain_fst] at hl
  rw [drain, pending, PacketQueue.pending_drain]
  exact ((ReleaseQueue.drains_drain ..).eq_filter hl).2

theorem not_hasDue_drain : ¬(x.drain sink).2.pending.HasDue x.clock.now := by
  rw [ReleaseQueue.not_hasDue_iff, toList_drain hsink]
  intro p hp
  exact of_decide_eq_true (List.mem_filter.1 hp).2

theorem hasDue_iff_written_ne_nil :
    x.pending.HasDue x.clock.now ↔ (x.drain sink).1.written ≠ [] := by
  rw [written_drain hsink, ne_eq, List.filter_eq_nil_iff]
  simp [ReleaseQueue.HasDue]

end Drain

variable {x : Poller Q σ}

@[simp] theorem pending_sleep (x : Poller Q σ) : x.sleep.pending = x.pending := by
  rw [pending, sleep, pending]

/-- The clock shows the earliest release time then, or has not moved. -/
theorem exists_now_sleep (h : x.pending.toList ≠ []) : ∃ r, IsLeast ↑x.pending.releaseTimes r ∧
    x.sleep.clock.now.toNat = x.clock.now.toNat + (x.pending.wait x.clock.now).toNat ∧
    x.sleep.clock.now = max x.clock.now r := by
  obtain ⟨p, hp, hfirst, hwait⟩ := ReleaseQueue.exists_wait_eq h x.clock.now
  have hnow : x.sleep.clock.now = x.clock.now + satSub p.releaseAt x.clock.now := by
    rw [sleep, Clock.advance_ofMillis, hwait]
    rfl
  -- The sum is one of two words, so it does not wrap.
  have hsum : x.sleep.clock.now.toNat =
      x.clock.now.toNat + (p.releaseAt.toNat - x.clock.now.toNat) := by
    have := x.clock.now.toNat_lt
    have := p.releaseAt.toNat_lt
    rw [hnow, UInt64.toNat_add, toNat_satSub, Nat.mod_eq_of_lt (by omega)]
  refine ⟨p.releaseAt, ⟨ReleaseQueue.mem_releaseTimes.2 ⟨p, hp, rfl⟩, fun t ht => ?_⟩, ?_, ?_⟩
  · obtain ⟨r, hr, rfl⟩ := ReleaseQueue.mem_releaseTimes.1 ht
    exact hfirst r hr
  · rw [hsum, hwait, toNat_satSub]
  · rw [← UInt64.toNat_inj, hsum, UInt64.toNat_max]
    omega

theorem hasDue_sleep (h : x.pending.toList ≠ []) : x.sleep.pending.HasDue x.sleep.clock.now := by
  obtain ⟨r, ⟨hr, -⟩, -, hnow⟩ := exists_now_sleep h
  obtain ⟨p, hp, rfl⟩ := ReleaseQueue.mem_releaseTimes.1 hr
  rw [pending_sleep]
  refine ⟨p, hp, UInt64.le_iff_toNat_le.2 ?_⟩
  rw [hnow, UInt64.toNat_max]
  exact Nat.le_max_right ..

/-- From a moment at which nothing is due, the poller sleeps until the earliest release time. -/
theorem isLeast_now_sleep (h : x.pending.toList ≠ []) (hdue : ¬x.pending.HasDue x.clock.now) :
    IsLeast ↑x.pending.releaseTimes x.sleep.clock.now := by
  obtain ⟨r, hr, -, hnow⟩ := exists_now_sleep h
  obtain ⟨p, hp, rfl⟩ := ReleaseQueue.mem_releaseTimes.1 hr.1
  have hlate := UInt64.lt_iff_toNat_lt.1 (ReleaseQueue.not_hasDue_iff.1 hdue p hp)
  have hmax : max x.clock.now p.releaseAt = p.releaseAt := by
    rw [← UInt64.toNat_inj, UInt64.toNat_max]
    omega
  rwa [hnow, hmax]

section Rounds

variable {sink : Sink σ} (hsink : sink.Works)

include hsink

theorem not_hasDue_round (x : Poller Q σ) :
    ¬(x.round sink).pending.HasDue (x.round sink).clock.now :=
  not_hasDue_drain hsink x.sleep

/-- A round from such a moment writes the packets of one release time. -/
theorem written_drain_sleep (h : x.pending.toList ≠ []) (hdue : ¬x.pending.HasDue x.clock.now) :
    (x.sleep.drain sink).1.written =
      x.pending.toList.filter fun p => p.releaseAt = x.sleep.clock.now := by
  obtain ⟨-, hleast⟩ := isLeast_now_sleep h hdue
  rw [written_drain hsink, pending_sleep]
  refine List.filter_congr fun p hp => decide_eq_decide.2 ⟨fun hle => ?_, UInt64.le_of_eq⟩
  exact UInt64.le_antisymm hle (hleast (ReleaseQueue.mem_releaseTimes.2 ⟨p, hp, rfl⟩))

theorem releaseTimes_round (h : x.pending.toList ≠ []) (hdue : ¬x.pending.HasDue x.clock.now) :
    (x.round sink).pending.releaseTimes = x.pending.releaseTimes.erase x.sleep.clock.now := by
  obtain ⟨-, hleast⟩ := isLeast_now_sleep h hdue
  ext t
  rw [Finset.mem_erase, ReleaseQueue.mem_releaseTimes, round, toList_drain hsink, pending_sleep]
  constructor
  · rintro ⟨p, hp, rfl⟩
    obtain ⟨hp, hlate⟩ := List.mem_filter.1 hp
    have hlate : x.sleep.clock.now < p.releaseAt := of_decide_eq_true hlate
    exact ⟨(UInt64.ne_of_lt hlate).symm, ReleaseQueue.mem_releaseTimes.2 ⟨p, hp, rfl⟩⟩
  · rintro ⟨hne, ht⟩
    obtain ⟨p, hp, rfl⟩ := ReleaseQueue.mem_releaseTimes.1 ht
    have hlate := UInt64.lt_of_le_of_ne (hleast ht) hne.symm
    exact ⟨p, List.mem_filter.2 ⟨hp, decide_eq_true hlate⟩, rfl⟩

/-- A queue is empty after as many rounds as it has release times, and not sooner. -/
theorem isLeast_rounds {n : ℕ} (hdue : ¬x.pending.HasDue x.clock.now)
    (hn : x.pending.releaseTimes.card = n) :
    IsLeast {m | ((round sink)^[m] x).pending.toList = []} n := by
  induction n generalizing x with
  | zero =>
    rw [Finset.card_eq_zero, ReleaseQueue.releaseTimes_eq_empty_iff] at hn
    exact ⟨hn, fun m _ => m.zero_le⟩
  | succ n ih =>
    have hne : x.pending.toList ≠ [] := by
      intro h
      rw [ReleaseQueue.releaseTimes_eq_empty_iff.2 h] at hn
      cases hn
    have hcard : (x.round sink).pending.releaseTimes.card = n := by
      rw [releaseTimes_round hsink hne hdue,
        Finset.card_erase_of_mem (isLeast_now_sleep hne hdue).1, hn, Nat.add_sub_cancel]
    obtain ⟨hempty, hleast⟩ := ih (not_hasDue_round hsink x) hcard
    refine ⟨by rwa [Set.mem_ofPred_eq, Function.iterate_succ_apply], fun m hm => ?_⟩
    cases m with
    | zero => exact absurd hm hne
    | succ m =>
      rw [Set.mem_ofPred_eq, Function.iterate_succ_apply] at hm
      exact Nat.succ_le_succ (hleast hm)

end Rounds

end Poller

open Poller

/-- A poller never sleeps too long or for nothing: each round hands over what is earliest, and a
queue that gets no packets is empty after as many rounds as it has release times. -/
theorem polling_empties {Q σ : Type} [PacketQueue Q] {sink : Sink σ} (hsink : sink.Works)
    (x : Poller Q σ) :
    (x.pending.isReady x.clock.now = true ↔ ∃ n, 0 < n ∧ (x.drain sink).1.result = .ok n) ∧
    (x.pending.toList ≠ [] →
      (∃ r, IsLeast ↑x.pending.releaseTimes r ∧
        x.sleep.clock.now.toNat = x.clock.now.toNat + (x.pending.wait x.clock.now).toNat ∧
        x.sleep.clock.now = max x.clock.now r) ∧
      (∃ n, 0 < n ∧ (x.sleep.drain sink).1.result = .ok n) ∧
      (¬x.pending.HasDue x.clock.now → (x.sleep.drain sink).1.written =
        x.pending.toList.filter fun p => p.releaseAt = x.sleep.clock.now) ∧
      (x.round sink).pending.isReady (x.round sink).clock.now = false) ∧
    (¬x.pending.HasDue x.clock.now →
      let last := (round sink)^[x.pending.releaseTimes.card] x
      IsLeast {n | ((round sink)^[n] x).pending.toList = []} x.pending.releaseTimes.card ∧
      last.pending.wait last.clock.now = idleWait) := by
  have hready : ∀ y : Poller Q σ, y.pending.HasDue y.clock.now ↔
      ∃ n, 0 < n ∧ (y.drain sink).1.result = .ok n := by
    intro y
    rw [hasDue_iff_written_ne_nil hsink, ← List.length_pos_iff, result_drain hsink]
    simp only [Except.ok.injEq, exists_eq_right']
  refine ⟨ReleaseQueue.isReady_iff.trans (hready x), fun h => ?_, fun hdue => ?_⟩
  · refine ⟨exists_now_sleep h, (hready x.sleep).1 (hasDue_sleep h),
      written_drain_sleep hsink h, ?_⟩
    rw [← Bool.not_eq_true, ReleaseQueue.isReady_iff]
    exact not_hasDue_round hsink x
  · have hrounds := isLeast_rounds hsink hdue rfl
    exact ⟨hrounds, ReleaseQueue.wait_eq_idleWait hrounds.1⟩

/-- Three packets with two release times. -/
theorem polling_empties_of_two_times :
    let queue := (((⟨20, .empty⟩ : FixedQueue).enqueue 5 [1]).enqueue 9 []).enqueue 5 [2]
    let x : Poller FixedQueue (List Packet) := ⟨⟨7⟩, queue, []⟩
    (collect.Works ∧ x.pending.toList ≠ [] ∧ ¬x.pending.HasDue x.clock.now) ∧
    (x.sleep.drain collect).1.written = [⟨25, [1]⟩, ⟨25, [2]⟩] ∧
    IsLeast {n | ((round collect)^[n] x).pending.toList = []} 2 := by
  intro queue x
  have hworks : collect.Works := fun _ _ => rfl
  have hne : x.pending.toList ≠ [] := by decide
  have hdue : ¬x.pending.HasDue x.clock.now := ReleaseQueue.not_hasDue_iff.2 (by decide)
  obtain ⟨-, hround, hrounds⟩ := polling_empties hworks x
  refine ⟨⟨hworks, hne, hdue⟩, ?_, (hrounds hdue).1⟩
  rw [(hround hne).2.2.1 hdue]
  decide

end DelayLine
