import Mathlib.Data.ENat.Basic
import Mathlib.Order.Lattice.Nat
import DelayLine.Proofs.Drain

/-!
# How far a drain goes

A drain can end in two ways: at the first packet that is not due at the reading it is held against,
or at the first packet that the sink fails on. It takes nothing from behind the first of these
(`Drains.length_handed_le`, `Drains.capacity_eq`) and does not stop before
(`Drains.halts`, `Drains.length_written_le`). So the two numbers settle what is written, what is
left, what is returned and how often the clock is read (`drain_extent`), also if the clock goes
back between two readings.
-/

namespace DelayLine

/-- How many packets, offered one after the other, a sink takes before it fails on one. -/
def Sink.capacity {σ : Type} (sink : Sink σ) : σ → List Packet → ℕ∞
  | _, [] => ⊤
  | state, p :: ps =>
    match sink p state with
    | (.ok (), next) => Sink.capacity sink next ps + 1
    | (.error _, _) => 0

namespace Sink

variable {σ : Type} {sink : Sink σ} {state next : σ} {p : Packet}

theorem capacity_cons_of_ok (h : sink p state = (.ok (), next)) (ps : List Packet) :
    sink.capacity state (p :: ps) = sink.capacity next ps + 1 := by
  simp only [capacity, h]

theorem capacity_cons_of_error {fault : WriteFault} (h : sink p state = (.error fault, next))
    (ps : List Packet) : sink.capacity state (p :: ps) = 0 := by
  simp only [capacity, h]

/-- The sink takes every packet. -/
def Works (sink : Sink σ) : Prop := ∀ p state, (sink p state).1 = .ok ()

theorem Works.capacity_eq_top (h : sink.Works) (state : σ) (ps : List Packet) :
    sink.capacity state ps = ⊤ := by
  induction ps generalizing state with
  | nil => rfl
  | cons p ps ih =>
    have hp := h p state
    rcases hs : sink p state with ⟨fault | ⟨⟩, next⟩ <;> rw [hs] at hp
    · cases hp
    · rw [capacity_cons_of_ok hs, ih, top_add]

end Sink

namespace ReleaseQueue

variable {σ : Type}

/-- No packet can be taken after `k` others: no more are there, or the next is not due at its
reading. -/
def Halts (q : ReleaseQueue) (clock : Nat → Millis) (k : Nat) : Prop :=
  k = q.size ∨ ∃ p, q.toList[k]? = some p ∧ clock k < p.releaseAt

namespace Drains

variable {sink : Sink σ} {clock : Nat → Millis} {q : ReleaseQueue} {state : σ} {d : Drained σ}

theorem length_handed_le (h : Drains sink clock q state d) {k : Nat} (hk : q.Halts clock k) :
    d.handed.length ≤ k := by
  by_contra hlt
  have hlt : k < d.handed.length := Nat.lt_of_not_le hlt
  have hget : q.toList[k]? = some d.handed[k] := by
    rw [← h.toList, List.getElem?_append_left hlt, List.getElem?_eq_getElem hlt]
  rcases hk with rfl | ⟨p, hp, hlate⟩
  · obtain ⟨hsize, -⟩ := List.getElem?_eq_some_iff.1 hget
    exact hsize.false
  · rw [hget, Option.some.injEq] at hp
    have hdue := h.releaseAt_le (List.getElem?_eq_getElem hlt)
    exact UInt64.not_le.2 hlate (hp ▸ hdue)

theorem halts (h : Drains sink clock q state d) (hl : d.lost = none) :
    q.Halts clock d.written.length := by
  have hlist := h.toList
  rw [Drained.handed_of_lost_eq_none hl] at hlist
  rcases hr : d.remaining.toList with _ | ⟨p, rest⟩
  · left
    rw [size, ← hlist, hr, List.append_nil]
  · right
    refine ⟨p, ?_, h.lt_releaseAt hl (hr ▸ List.mem_cons_self)⟩
    rw [← hlist, hr, List.getElem?_append_right le_rfl, Nat.sub_self]
    rfl

theorem length_written_le (h : Drains sink clock q state d) :
    d.written.length ≤ sink.capacity state (q.toList.map Pending.payload) := by
  induction h with
  | stop => exact zero_le
  | fail => exact zero_le
  | write hpop hs _ ih =>
    rw [(popDue_eq_some_iff.1 hpop).1, List.map_cons, Sink.capacity_cons_of_ok hs]
    rw [Drained.after, List.length_cons, Nat.cast_add, Nat.cast_one]
    exact add_le_add_left ih 1

theorem capacity_eq (h : Drains sink clock q state d) {l : Pending × WriteFault}
    (hl : d.lost = some l) :
    sink.capacity state (q.toList.map Pending.payload) = d.written.length := by
  induction h with
  | stop => cases hl
  | fail hpop hs =>
    rw [(popDue_eq_some_iff.1 hpop).1, List.map_cons, Sink.capacity_cons_of_error hs]
    rfl
  | write hpop hs _ ih =>
    rw [(popDue_eq_some_iff.1 hpop).1, List.map_cons, Sink.capacity_cons_of_ok hs, ih hl]
    rfl

theorem lost_eq_none_of_works (h : Drains sink clock q state d) (hsink : sink.Works) :
    d.lost = none := by
  rcases hl : d.lost with _ | l
  · rfl
  · have htop := h.capacity_eq hl
    rw [hsink.capacity_eq_top] at htop
    exact absurd htop (ENat.top_ne_natCast _)

/-- If the sink takes enough, the packets are written up to the first that is not due. -/
theorem of_le_capacity (h : Drains sink clock q state d) {k : Nat}
    (hk : IsLeast {k | q.Halts clock k} k)
    (hle : k ≤ sink.capacity state (q.toList.map Pending.payload)) :
    d.lost = none ∧ d.written.length = k := by
  have hhanded := h.length_handed_le hk.1
  rcases hl : d.lost with _ | ⟨p, fault⟩
  · refine ⟨rfl, le_antisymm ?_ (hk.2 (h.halts hl))⟩
    rwa [Drained.handed_of_lost_eq_none hl] at hhanded
  · rw [h.capacity_eq hl, Nat.cast_le] at hle
    rw [Drained.handed_of_lost_eq_some hl, List.length_append, List.length_singleton] at hhanded
    omega

theorem exists_lost_of_capacity_lt (h : Drains sink clock q state d) {k : Nat}
    (hk : IsLeast {k | q.Halts clock k} k)
    (hlt : sink.capacity state (q.toList.map Pending.payload) < k) :
    ∃ p fault, d.lost = some (p, fault) := by
  rcases hl : d.lost with _ | ⟨p, fault⟩
  · have hle := hk.2 (h.halts hl)
    exact absurd (h.length_written_le.trans_lt hlt) (by exact_mod_cast hle.not_gt)
  · exact ⟨p, fault, rfl⟩

theorem handed_eq_take (h : Drains sink clock q state d) :
    d.handed = q.toList.take d.handed.length := by
  rw [← h.toList, List.take_left]

theorem remaining_eq_drop (h : Drains sink clock q state d) :
    d.remaining.toList = q.toList.drop d.handed.length := by
  rw [← h.toList, List.drop_left]

/-- A drain does not depend on readings that it does not take. -/
theorem congr_clock (h : Drains sink clock q state d) {other : Nat → Millis}
    (hclock : ∀ i < d.readings, other i = clock i) : Drains sink other q state d := by
  induction h generalizing other with
  | stop hpop => exact .stop (by rwa [hclock 0 Nat.one_pos])
  | fail hpop hs => exact .fail (by rwa [hclock 0 Nat.one_pos]) hs
  | write hpop hs _ ih =>
    refine .write ?_ hs (ih fun i hi => hclock (i + 1) (Nat.succ_lt_succ hi))
    rwa [hclock 0 (Nat.succ_pos _)]

end Drains

/-- Some number of packets ends every drain. -/
theorem exists_isLeast_halts (q : ReleaseQueue) (clock : Nat → Millis) :
    ∃ k, IsLeast {k | q.Halts clock k} k :=
  ⟨_, Nat.sInf_mem ⟨q.size, .inl rfl⟩, fun _ => Nat.sInf_le⟩

theorem drain_extent (sink : Sink σ) (clock : Nat → Millis) (q : ReleaseQueue) (state : σ) :
    let d := q.drain sink clock state
    let capacity := sink.capacity state (q.toList.map Pending.payload)
    let writes := (q.drain sink.journaled clock (state, [])).sink.2
    (q.toList.map Pending.releaseAt).Pairwise (· ≤ ·) ∧
    (∃ k, IsLeast {k | q.Halts clock k} k ∧
      (k ≤ capacity → d.result = .ok k ∧
        writes = (q.toList.take k).map (fun p => ⟨p.payload, .ok ()⟩) ∧
        d.remaining.toList = q.toList.drop k ∧ d.readings = k + 1) ∧
      (capacity < k → ∃ f : ℕ, capacity = f ∧ ∃ p fault, q.toList[f]? = some p ∧
        d.result = .error fault ∧
        writes = (q.toList.take f).map (fun p => ⟨p.payload, .ok ()⟩) ++
          [⟨p.payload, .error fault⟩] ∧
        d.remaining.toList = q.toList.drop (f + 1) ∧ d.readings = f + 1)) ∧
    d.readings ≤ q.size + 1 ∧
    ∀ other : Nat → Millis, (∀ i < d.readings, other i = clock i) →
      q.drain sink other state = d := by
  intro d capacity writes
  have h : Drains sink clock q state d := drains_drain sink clock q state
  have hwrites : writes = d.writes := by
    simp only [writes, drain_journaled, List.nil_append]
    rfl
  have htake := h.handed_eq_take
  have hdrop := h.remaining_eq_drop
  obtain ⟨k, hk⟩ := exists_isLeast_halts q clock
  refine ⟨List.pairwise_map.2 q.sorted, ⟨k, hk, fun hle => ?_, fun hlt => ?_⟩, ?_,
    fun other hother => (drains_drain sink other q state).eq (h.congr_clock hother)⟩
  · obtain ⟨hl, hlen⟩ := h.of_le_capacity hk hle
    rw [Drained.handed_of_lost_eq_none hl, hlen] at htake hdrop
    refine ⟨?_, ?_, hdrop, by rw [h.readings, hlen]⟩
    · rw [Drained.result, hl, hlen]
    · rw [hwrites, Drained.writes, hl, htake]
      exact List.append_nil _
  · obtain ⟨p, fault, hl⟩ := h.exists_lost_of_capacity_lt hk hlt
    have hhanded := Drained.handed_of_lost_eq_some hl
    have hlist := h.toList
    rw [hhanded, List.append_assoc] at hlist
    rw [hhanded, List.length_append, List.length_singleton] at hdrop
    refine ⟨d.written.length, h.capacity_eq hl, p, fault, ?_, ?_, ?_, hdrop, h.readings⟩
    · rw [← hlist, List.getElem?_append_right le_rfl, Nat.sub_self]
      rfl
    · rw [Drained.result, hl]
    · rw [hwrites, Drained.writes, hl, ← hlist, List.take_left]
      rfl
  · have hsize := h.length_handed_le (k := q.size) (.inl rfl)
    have : d.written.length ≤ d.handed.length := by
      rw [Drained.handed, List.length_append]
      exact Nat.le_add_right _ _
    rw [h.readings]
    omega

/-- A clock that goes back in front of a packet that was due at the first reading. -/
theorem drain_extent_of_backward_clock :
    let clock : Nat → Millis := fun i => if i = 0 then 30 else 8
    let q := ((empty.push ⟨10, [2]⟩).push ⟨5, [1]⟩).push ⟨6, [3]⟩
    let sink := takeAtMost .nothingWritten
    IsLeast {k | q.Halts clock k} 2 ∧
    (2 ≤ collect.capacity [] (q.toList.map Pending.payload) ∧
      (q.drain collect clock []).result = .ok 2 ∧
      (q.drain collect clock []).remaining.toList = [⟨10, [2]⟩]) ∧
    sink.capacity 1 (q.toList.map Pending.payload) < 2 ∧
    ∃ fault, (q.drain sink clock 1).result = .error fault ∧
      (q.drain sink clock 1).remaining.toList = [⟨10, [2]⟩] := by
  intro clock q sink
  have hleast : IsLeast {k | q.Halts clock k} 2 :=
    ⟨.inr ⟨⟨10, [2]⟩, by decide, by decide⟩, fun k hk =>
      (drains_drain collect clock q []).length_handed_le hk⟩
  have hworks : collect.Works := fun _ _ => rfl
  have hone : sink.capacity 1 (q.toList.map Pending.payload) = 1 := rfl
  have htop : 2 ≤ collect.capacity [] (q.toList.map Pending.payload) := by
    rw [hworks.capacity_eq_top]
    exact le_top
  have hlt : sink.capacity 1 (q.toList.map Pending.payload) < 2 := by
    rw [hone]
    exact_mod_cast Nat.one_lt_two
  obtain ⟨-, ⟨k, hk, hok, -⟩, -⟩ := drain_extent collect clock q []
  obtain ⟨-, ⟨l, hl, -, herror⟩, -⟩ := drain_extent sink clock q 1
  cases hk.unique hleast
  cases hl.unique hleast
  obtain ⟨hresult, -, hrest, -⟩ := hok htop
  obtain ⟨f, hf, p, fault, -, hfault, -, hleft, -⟩ := herror hlt
  cases (Nat.cast_inj (R := ℕ∞)).1 (hone.symm.trans hf)
  exact ⟨hleast, ⟨htop, hresult, hrest⟩, hlt, fault, hfault, hleft⟩

end ReleaseQueue

end DelayLine
