import DelayLine.Link

/-!
# Waiting

No packet of a queue may go before the wait is over (`not_hasDue_of_lt`), and one may go then unless
the queue is empty (`exists_due_after_wait`). The wait that stands for an empty queue is not zero,
so a wait of zero always shows a packet that may go now (`wait_eq_zero_iff`). The wait of a link is
that of one of its queues and not longer than that of the other, so the queue that comes first is
never served late because the other one is empty (`never_oversleeps`).
-/

namespace DelayLine

namespace ReleaseQueue

/-- Some packet may go at the given reading. -/
def HasDue (q : ReleaseQueue) (t : Millis) : Prop := ∃ p ∈ q.toList, p.releaseAt ≤ t

variable {q : ReleaseQueue} {now t : Millis}

theorem not_hasDue_iff : ¬q.HasDue t ↔ ∀ p ∈ q.toList, t < p.releaseAt := by
  simp only [HasDue, not_exists, not_and, UInt64.not_le]

theorem wait_eq_idleWait (h : q.toList = []) : q.wait now = idleWait := by
  rw [wait, nextRelease?, h]
  rfl

/-- The wait is that for the earliest packet. -/
theorem exists_wait_eq (h : q.toList ≠ []) (now : Millis) : ∃ p ∈ q.toList,
    (∀ r ∈ q.toList, p.releaseAt ≤ r.releaseAt) ∧ q.wait now = satSub p.releaseAt now := by
  obtain ⟨p, rest, hq⟩ := List.exists_cons_of_ne_nil h
  refine ⟨p, hq ▸ List.mem_cons_self, fun r hr => ?_, ?_⟩
  · have hsplit : q.toList = [] ++ p :: rest := hq
    exact releaseAt_le_of_toList_eq hsplit (hq ▸ hr)
  · rw [wait, nextRelease?, hq]
    rfl

theorem toNat_wait_le {p : Pending} (hp : p ∈ q.toList) (now : Millis) :
    (q.wait now).toNat ≤ p.releaseAt.toNat - now.toNat := by
  obtain ⟨first, -, hfirst, hwait⟩ := exists_wait_eq (List.ne_nil_of_mem hp) now
  have := UInt64.le_iff_toNat_le.1 (hfirst p hp)
  rw [hwait, toNat_satSub]
  omega

theorem not_hasDue_of_lt (hnow : now ≤ t) (ht : t.toNat < now.toNat + (q.wait now).toNat) :
    ¬q.HasDue t := by
  refine not_hasDue_iff.2 fun p hp => ?_
  have := UInt64.le_iff_toNat_le.1 hnow
  have := toNat_wait_le hp now
  exact UInt64.lt_iff_toNat_lt.2 (by omega)

/-- When the wait is over a packet becomes due, unless one was due all along. -/
theorem exists_due_after_wait (h : q.toList ≠ []) (now : Millis) : ∃ p ∈ q.toList,
    p.releaseAt.toNat = now.toNat + (q.wait now).toNat ∨ q.wait now = 0 ∧ p.releaseAt ≤ now := by
  obtain ⟨p, hp, -, hwait⟩ := exists_wait_eq h now
  refine ⟨p, hp, ?_⟩
  rw [← UInt64.toNat_inj, UInt64.le_iff_toNat_le, hwait, toNat_satSub, UInt64.toNat_zero]
  omega

theorem wait_eq_zero_iff : q.wait now = 0 ↔ q.HasDue now := by
  constructor
  · intro h
    have hq : q.toList ≠ [] := by
      intro hq
      rw [wait_eq_idleWait hq] at h
      cases h
    obtain ⟨p, hp, hdue | ⟨-, hdue⟩⟩ := exists_due_after_wait hq now
    · rw [h, UInt64.toNat_zero] at hdue
      exact ⟨p, hp, UInt64.le_iff_toNat_le.2 (Nat.le_of_eq hdue)⟩
    · exact ⟨p, hp, hdue⟩
  · rintro ⟨p, hp, hdue⟩
    have := toNat_wait_le hp now
    have := UInt64.le_iff_toNat_le.1 hdue
    exact UInt64.toNat_inj.1 (by rw [UInt64.toNat_zero]; omega)

theorem isReady_iff : q.isReady now = true ↔ q.HasDue now := by
  rw [isReady, beq_iff_eq, wait_eq_zero_iff]

end ReleaseQueue

namespace Link

variable (l : Link) (now : Millis)

theorem exists_wait_eq_queue : ∃ d, l.wait now = (l.queue d).pending.wait now := by
  by_cases h : l.uplink.pending.wait now ≤ l.downlink.pending.wait now
  · exact ⟨.uplink, if_pos h⟩
  · exact ⟨.downlink, if_neg h⟩

theorem wait_le_queue (d : Direction) : l.wait now ≤ (l.queue d).pending.wait now := by
  by_cases h : l.uplink.pending.wait now ≤ l.downlink.pending.wait now
  · have hup : l.wait now = l.uplink.pending.wait now := if_pos h
    rw [hup]
    cases d with
    | uplink => exact UInt64.le_refl _
    | downlink => exact h
  · have hdown : l.wait now = l.downlink.pending.wait now := if_neg h
    rw [hdown]
    cases d with
    | uplink => exact UInt64.le_of_lt (UInt64.not_le.1 h)
    | downlink => exact UInt64.le_refl _

end Link

open ReleaseQueue

/-- Whoever sleeps for the wait of a link misses nothing in either direction and wakes up for a
packet, unless the wait is the one that stands for an empty queue and a queue is empty. -/
theorem never_oversleeps (l : Link) (now : Millis) :
    (∀ t, now ≤ t → t.toNat < now.toNat + (l.wait now).toNat →
      ∀ d, ¬(l.queue d).pending.HasDue t) ∧
    (l.wait now = 0 ↔ ∃ d, (l.queue d).pending.HasDue now) ∧
    (l.wait now ≠ idleWait ∨ (∀ d, (l.queue d).pending.toList ≠ []) →
      ∃ d, ∃ p ∈ (l.queue d).pending.toList,
        p.releaseAt.toNat = now.toNat + (l.wait now).toNat ∨
          l.wait now = 0 ∧ p.releaseAt ≤ now) ∧
    ∀ d, ∀ p ∈ (l.queue d).pending.toList,
      (l.wait now).toNat ≤ p.releaseAt.toNat - now.toNat := by
  have hle : ∀ d, (l.wait now).toNat ≤ ((l.queue d).pending.wait now).toNat := fun d =>
    UInt64.le_iff_toNat_le.1 (l.wait_le_queue now d)
  obtain ⟨d, hd⟩ := l.exists_wait_eq_queue now
  refine ⟨fun t hnow ht e => ?_, ⟨fun h => ?_, ?_⟩, fun h => ?_, fun e p hp => ?_⟩
  · have := hle e
    exact not_hasDue_of_lt hnow (by omega)
  · exact ⟨d, wait_eq_zero_iff.1 (hd ▸ h)⟩
  · rintro ⟨e, he⟩
    have := hle e
    rw [wait_eq_zero_iff.2 he, UInt64.toNat_zero] at this
    exact UInt64.toNat_inj.1 (by rw [UInt64.toNat_zero]; omega)
  · have hne : (l.queue d).pending.toList ≠ [] := by
      intro hempty
      rcases h with h | h
      · exact h (hd.trans (wait_eq_idleWait hempty))
      · exact h d hempty
    rw [hd]
    exact ⟨d, exists_due_after_wait hne now⟩
  · exact Nat.le_trans (hle e) (toNat_wait_le hp now)

/-- An uplink without packets, and a packet that comes down. -/
theorem never_oversleeps_of_empty_uplink :
    let l : Link := ⟨.start (.ofList []) .uplink ⟨20, none⟩,
      ((RuleQueue.start (.ofList []) .downlink ⟨20, none⟩).enqueue 1000 (List.replicate 20 0)).2⟩
    (l.uplink.pending.toList = [] ∧ l.wait 1005 ≠ idleWait) ∧
    (((1005 : Millis) ≤ 1019 ∧ (1019 : Millis).toNat < 1005 + (l.wait 1005).toNat) ∧
      ∀ d, ¬(l.queue d).pending.HasDue 1019) ∧
    ∃ d, ∃ p ∈ (l.queue d).pending.toList,
      p.releaseAt.toNat = 1005 + (l.wait 1005).toNat ∨ l.wait 1005 = 0 ∧ p.releaseAt ≤ 1005 := by
  intro l
  have hwait : l.wait 1005 ≠ idleWait := by decide
  have ht : (1005 : Millis) ≤ 1019 ∧ (1019 : Millis).toNat < 1005 + (l.wait 1005).toNat := by
    decide
  obtain ⟨hmiss, -, hwake, -⟩ := never_oversleeps l 1005
  exact ⟨⟨by decide, hwait⟩, ⟨ht, hmiss 1019 ht.1 ht.2⟩, hwake (.inl hwait)⟩

end DelayLine
