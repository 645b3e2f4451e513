import Mathlib.Data.List.Perm.Subperm
import DelayLine.Proofs.Delivery
import DelayLine.Proofs.Metering

/-!
# No overtaking

The packets that are taken have numbers, and `Departs` says in which order they can have left: the
queue cannot tell packets apart that have the same bytes and the same release time, so there may be
several such orders (`traced_after`: there is one). In each of them, of two packets the one that was
taken first and is due first leaves first (`attributed_step`). The delays that a TCP rule gives rise
with the traffic if its alternate delay is not below its base delay (`rising_step`), so a connection
is not reordered.
-/

namespace DelayLine

open PacketQueue
open scoped List

/-- The packet with a number, as it waits in the queue. -/
def pendingAt (arrivals : List Arrival) (i : Nat) : Option Pending :=
  arrivals[i]?.map Arrival.pending

theorem map_pendingAt_range (arrivals : List Arrival) :
    (List.range arrivals.length).map (pendingAt arrivals) =
      (arrivals.map Arrival.pending).map some := by
  refine List.ext_getElem (by simp) fun i hi _ => ?_
  rw [List.length_map, List.length_range] at hi
  simp [pendingAt, hi]

section Names

variable {arrivals : List Arrival} {order : List Nat} {gone left : List Pending}
  (hnames : order.map (pendingAt arrivals) = gone.map some)

include hnames

theorem lt_of_mem_names {i : Nat} (hi : i ∈ order) : i < arrivals.length := by
  have hmem := List.mem_map_of_mem (f := pendingAt arrivals) hi
  rw [hnames] at hmem
  obtain ⟨p, -, hp⟩ := List.mem_map.1 hmem
  obtain ⟨a, ha, -⟩ := Option.map_eq_some_iff.1 hp.symm
  exact (List.getElem?_eq_some_iff.1 ha).1

theorem map_pendingAt_append (more : List Arrival) :
    order.map (pendingAt (arrivals ++ more)) = gone.map some := by
  rw [← hnames]
  refine List.map_congr_left fun i hi => ?_
  rw [pendingAt, List.getElem?_append_left (lt_of_mem_names hnames hi), pendingAt]

/-- A packet that is not among those that are gone is left. -/
theorem mem_of_not_named (h : arrivals.map Arrival.pending ~ gone ++ left) (hnodup : order.Nodup)
    {i : Nat} {a : Arrival} (ha : arrivals[i]? = some a) (hi : i ∉ order) : a.pending ∈ left := by
  have hsub : i :: order ⊆ List.range arrivals.length := by
    refine List.cons_subset.2 ⟨List.mem_range.2 (List.getElem?_eq_some_iff.1 ha).1, fun k hk => ?_⟩
    exact List.mem_range.2 (lt_of_mem_names hnames hk)
  obtain ⟨l, hl, hlrange⟩ := List.subperm_of_subset (List.nodup_cons.2 ⟨hi, hnodup⟩) hsub
  have hnamed : l.map (pendingAt arrivals) ~ gone.map some ++ [some a.pending] := by
    refine (hl.map _).trans ?_
    rw [List.map_cons, hnames, pendingAt, ha]
    exact (List.perm_append_singleton ..).symm
  have hall : (List.range arrivals.length).map (pendingAt arrivals) ~
      gone.map some ++ left.map some := by
    rw [map_pendingAt_range, ← List.map_append]
    exact h.map some
  have hlast : [some a.pending] <+~ left.map some :=
    (List.subperm_append_left _).1
      ((hnamed.symm.subperm.trans (hlrange.map _).subperm).trans hall.subperm)
  simpa using List.singleton_subperm_iff.1 hlast

end Names

/-! ## Orders of departure -/

/-- An order in which the packets taken can have left the queue, by their numbers: each drain hands
over packets that were taken before it and have not left yet. -/
inductive Departs : List Event → List Nat → Prop
  | start : Departs [] []
  | stay {history : List Event} {order : List Nat} (event : Event) :
      Departs history order → event.drainage? = none → Departs (history ++ [event]) order
  | leave {history : List Event} {order : List Nat} (d : Drainage) (out : List Nat) :
      Departs history order → (order ++ out).Nodup →
      out.map (pendingAt (history.filterMap Event.arrival?)) = d.handed.map some →
      Departs (history ++ [.drained d]) (order ++ out)

theorem departs_nil_iff {order : List Nat} : Departs [] order ↔ order = [] := by
  constructor
  · generalize hes : ([] : List Event) = events
    rintro (_ | ⟨_, _, _⟩ | ⟨_, _, _, _, _⟩)
    · rfl
    · simp at hes
    · simp at hes
  · rintro rfl
    exact .start

theorem departs_append_iff {history : List Event} {event : Event} (he : event.drainage? = none)
    {order : List Nat} : Departs (history ++ [event]) order ↔ Departs history order := by
  constructor
  · generalize hes : history ++ [event] = events
    rintro (_ | ⟨_, h, _⟩ | ⟨d, _, _, _, _⟩)
    · simp at hes
    · exact List.append_inj_left' hes rfl ▸ h
    · cases List.append_inj_right' hes rfl
      simp [Event.drainage?] at he
  · exact fun h => .stay event h he

theorem departs_append_drained_iff {history : List Event} {d : Drainage} {order : List Nat} :
    Departs (history ++ [.drained d]) order ↔ ∃ gone out, order = gone ++ out ∧
      Departs history gone ∧ (gone ++ out).Nodup ∧
      out.map (pendingAt (history.filterMap Event.arrival?)) = d.handed.map some := by
  constructor
  · generalize hes : history ++ [.drained d] = events
    rintro (_ | ⟨_, _, he⟩ | ⟨_, out, h, hnodup, hout⟩)
    · simp at hes
    · cases List.append_inj_right' hes rfl
      simp [Event.drainage?] at he
    · obtain ⟨rfl, hevent⟩ := List.append_inj' hes rfl
      cases hevent
      exact ⟨_, out, rfl, h, hnodup, hout⟩
  · rintro ⟨gone, out, rfl, h, hnodup, hout⟩
    exact .leave d out h hnodup hout

namespace Run

variable {Q σ : Type}

/-- In every order in which the packets can have left, packet `j` leaves only after packet `i`. -/
def Precedes (r : Run Q σ) (i j : Nat) : Prop :=
  ∀ order, Departs r.history order → ∀ before after, order = before ++ j :: after → i ∈ before

/-- There are orders in which the packets can have left, and they name all that was handed over. -/
def HasOrder (r : Run Q σ) : Prop :=
  (∃ order, Departs r.history order) ∧ ∀ order, Departs r.history order →
    order.Nodup ∧ order.map (pendingAt r.arrivals) = r.handed.map some

/-- An order names what was handed over, and of two packets the one that was taken first and is due
first comes first. -/
structure Attributed (r : Run Q σ) (order : List Nat) : Prop where
  nodup : order.Nodup
  names : order.map (pendingAt r.arrivals) = r.handed.map some
  first : ∀ i j a b, i < j → r.arrivals[i]? = some a → r.arrivals[j]? = some b → a.due < b.due →
    ∀ before after, order = before ++ j :: after → i ∈ before

theorem attributed_stay {r s : Run Q σ} {order : List Nat} (h : r.Attributed order)
    {more : List Arrival} (ha : s.arrivals = r.arrivals ++ more) (hd : s.drainages = r.drainages) :
    s.Attributed order := by
  refine ⟨h.nodup, ?_, fun i j a b hij hia hjb hdue before after hsplit => ?_⟩
  · rw [ha, map_pendingAt_append h.names, handed_of_drainages_eq hd]
  · have hj : j < r.arrivals.length := lt_of_mem_names h.names (by simp [hsplit])
    rw [ha, List.getElem?_append_left (hij.trans hj)] at hia
    rw [ha, List.getElem?_append_left hj] at hjb
    exact h.first i j a b hij hia hjb hdue before after hsplit

variable [PacketQueue Q] {clock : Nat → Millis} {r s : Run Q σ}

theorem attributed_leave {gone out : List Nat} {d : Drainage} (hr : r.Conserved)
    (h : r.Attributed gone) (hs : d.Sound) (hb : d.before = pending r.queue)
    (ha : s.arrivals = r.arrivals) (hd : s.drainages = r.drainages ++ [d])
    (hnodup : (gone ++ out).Nodup)
    (hout : out.map (pendingAt r.arrivals) = d.handed.map some) : s.Attributed (gone ++ out) := by
  refine ⟨hnodup, ?_, fun i j a b hij hia hjb hdue before after hsplit => ?_⟩
  · rw [ha, List.map_append, h.names, hout, handed_of_drainages_append hd, List.map_append]
  rw [ha] at hia hjb
  -- When the drain comes to `j`, it takes the earliest of all that is left, so `i` is gone.
  have hleave (sent : List Nat) (hsent : out = sent ++ j :: after) : i ∈ gone ++ sent := by
    rw [hsent, List.map_append, List.map_cons] at hout
    obtain ⟨front, back, hhanded, hfront, hback⟩ := List.map_eq_append_iff.1 hout.symm
    obtain ⟨p, rest, rfl, hp, -⟩ := List.map_eq_cons_iff.1 hback
    rw [pendingAt, hjb, Option.map_some, Option.some.injEq] at hp
    have hqueue : (pending r.queue).toList = front ++ b.pending :: (rest ++ d.after.toList) := by
      rw [← hb, hs.parts, hhanded, hp, List.append_assoc, List.cons_append]
    have hperm : r.arrivals.map Arrival.pending ~
        (r.handed ++ front) ++ b.pending :: (rest ++ d.after.toList) := by
      rw [List.append_assoc, ← hqueue]
      exact hr.perm
    have hnames : (gone ++ sent).map (pendingAt r.arrivals) = (r.handed ++ front).map some := by
      rw [List.map_append, h.names, ← hfront, List.map_append]
    by_contra hi
    rw [hsent, ← List.append_assoc] at hnodup
    have hmem := mem_of_not_named hnames hperm (List.nodup_append.1 hnodup).1 hia hi
    have hle := UInt64.le_iff_toNat_le.1 (ReleaseQueue.releaseAt_le_of_toList_eq hqueue hmem)
    rw [Arrival.toNat_releaseAt_pending, Arrival.toNat_releaseAt_pending] at hle
    omega
  rcases List.append_eq_append_iff.1 hsplit with ⟨sent, rfl, hsent⟩ | ⟨rest, rfl, hrest⟩
  · exact hleave sent hsent
  · cases rest with
    | nil => simpa using hleave [] hrest.symm
    | cons k rest =>
      obtain ⟨rfl, -⟩ := List.cons.inj hrest
      exact h.first i j a b hij hia hjb hdue before rest rfl

theorem attributed_step (hr : r.Conserved)
    (h : ∀ order, Departs r.history order → r.Attributed order) (c : Call σ) {order : List Nat}
    (ho : Departs (r.step clock c).history order) : (r.step clock c).Attributed order := by
  obtain ⟨event, he⟩ := history_step clock r c
  rw [he] at ho
  cases moves_step clock r c with
  | idle ha hd =>
    have hn : event.drainage? = none := drainage?_eq_of_drainages he (by simpa using hd)
    rw [departs_append_iff hn] at ho
    exact attributed_stay (h order ho) (ha.trans (List.append_nil _).symm) hd
  | take a _ ha hd =>
    have hn : event.drainage? = none := drainage?_eq_of_drainages he (by simpa using hd)
    rw [departs_append_iff hn] at ho
    exact attributed_stay (h order ho) ha hd
  | drain d hs hb _ _ ha hd =>
    have hevent : event.drainage? = some d := drainage?_eq_of_drainages he hd
    obtain rfl := Event.drainage?_eq_some_iff.1 hevent
    obtain ⟨gone, out, rfl, ho, hnodup, hout⟩ := departs_append_drained_iff.1 ho
    exact attributed_leave hr (h gone ho) hs hb ha hd hnodup hout

/-- Some order accounts for all that left, and the other packets are pending. -/
def Traced (r : Run Q σ) : Prop :=
  ∃ gone left, Departs r.history gone ∧ gone ++ left ~ List.range r.arrivals.length ∧
    left.map (pendingAt r.arrivals) = (pending r.queue).toList.map some

theorem traced_step (h : r.Traced) (c : Call σ) : (r.step clock c).Traced := by
  obtain ⟨gone, left, ho, hperm, hleft⟩ := h
  obtain ⟨event, he⟩ := history_step clock r c
  cases moves_step clock r c with
  | idle ha hd hp =>
    have hn : event.drainage? = none := drainage?_eq_of_drainages he (by simpa using hd)
    exact ⟨gone, left, he ▸ .stay event ho hn, ha ▸ hperm, by rw [ha, hp, hleft]⟩
  | take a _ ha hd hp =>
    have hn : event.drainage? = none := drainage?_eq_of_drainages he (by simpa using hd)
    have hlast : pendingAt (r.arrivals ++ [a]) r.arrivals.length = some a.pending := by
      simp [pendingAt]
    have hnew : (r.arrivals.length :: left).map (pendingAt (r.step clock c).arrivals) ~
        (pending (r.step clock c).queue).toList.map some := by
      rw [ha, hp, List.map_cons, hlast, map_pendingAt_append hleft, ← List.map_cons]
      exact (ReleaseQueue.perm_push ..).symm.map some
    obtain ⟨left', hleft', hmap⟩ := exists_map_eq_of_perm hnew
    refine ⟨gone, left', he ▸ .stay event ho hn, ?_, hmap⟩
    rw [ha, List.length_append, List.length_singleton, List.range_succ]
    calc gone ++ left' ~ gone ++ r.arrivals.length :: left := hleft'.append_left _
      _ ~ r.arrivals.length :: (gone ++ left) := List.perm_middle
      _ ~ r.arrivals.length :: List.range r.arrivals.length := hperm.cons _
      _ ~ List.range r.arrivals.length ++ [r.arrivals.length] :=
        (List.perm_append_singleton ..).symm
  | drain d hs hb hafter _ ha hd =>
    have hevent : event.drainage? = some d := drainage?_eq_of_drainages he hd
    obtain rfl := Event.drainage?_eq_some_iff.1 hevent
    rw [← hb, hs.parts, List.map_append] at hleft
    obtain ⟨out, left', rfl, hout, hleft'⟩ := List.map_eq_append_iff.1 hleft
    rw [← List.append_assoc] at hperm
    have hnodup : (gone ++ out).Nodup :=
      (List.nodup_append.1 (hperm.nodup_iff.2 List.nodup_range)).1
    exact ⟨gone ++ out, left', he ▸ .leave d out ho hnodup hout, ha ▸ hperm,
      by rw [ha, hleft', hafter]⟩

/-! ## Runs from an empty queue -/

theorem attributed_after {q : Q} (hq : (pending q).toList = []) (clock : Nat → Millis) (state : σ)
    (calls : List (Call σ)) {order : List Nat}
    (h : Departs (after clock { queue := q, state } calls).history order) :
    Attributed (after clock { queue := q, state } calls) order := by
  let P (r : Run Q σ) := r.Conserved ∧ ∀ order, Departs r.history order → r.Attributed order
  have hstart : P { queue := q, state } := by
    refine ⟨conserved_start hq state, fun order h => ?_⟩
    obtain rfl := departs_nil_iff.1 h
    exact ⟨.nil, rfl, by simp⟩
  have hstep (r : Run Q σ) (c : Call σ) (h : P r) : P (r.step clock c) :=
    ⟨conserved_step h.1 c, fun _ => attributed_step h.1 h.2 c⟩
  exact (after_induction hstart hstep calls).2 order h

theorem traced_after {q : Q} (hq : (pending q).toList = []) (clock : Nat → Millis) (state : σ)
    (calls : List (Call σ)) : Traced (after clock { queue := q, state } calls) := by
  have hstart : Traced { queue := q, state } := ⟨[], [], .start, .nil, by rw [hq]; rfl⟩
  exact after_induction hstart (fun _ c h => traced_step h c) calls

theorem hasOrder_after {q : Q} (hq : (pending q).toList = []) (clock : Nat → Millis) (state : σ)
    (calls : List (Call σ)) : HasOrder (after clock { queue := q, state } calls) := by
  obtain ⟨order, -, ho, -⟩ := traced_after hq clock state calls
  refine ⟨⟨order, ho⟩, fun order h => ?_⟩
  have h := attributed_after hq clock state calls h
  exact ⟨h.nodup, h.names⟩

/-- A packet that waits no less than one taken at an earlier reading does not overtake it. -/
theorem precedes_after {q : Q} (hq : (pending q).toList = []) (clock : Nat → Millis) (state : σ)
    (calls : List (Call σ)) {i j : Nat} {a b : Arrival} (hij : i < j)
    (hi : (after clock { queue := q, state } calls).arrivals[i]? = some a)
    (hj : (after clock { queue := q, state } calls).arrivals[j]? = some b)
    (hreading : a.reading < b.reading) (hdelay : a.verdict.delay ≤ b.verdict.delay)
    (hmax : a.reading.toNat + a.verdict.delay.toNat < maxAmount.toNat) :
    Precedes (after clock { queue := q, state } calls) i j := fun _ ho =>
  (attributed_after hq clock state calls ho).first i j a b hij hi hj
    (Arrival.due_lt_due hreading hdelay hmax)

theorem delay_of_mem_arrivals (clock : Nat → Millis) (delay : Millis) (state : σ)
    (calls : List (Call σ)) :
    ∀ a ∈ (after clock { queue := ({ delay } : FixedQueue), state } calls).arrivals,
      a.verdict.delay = delay := by
  let P (r : Run FixedQueue σ) := r.queue.delay = delay ∧ ∀ a ∈ r.arrivals, a.verdict.delay = delay
  have hstart : P { queue := { delay }, state } := ⟨rfl, by simp [arrivals]⟩
  have hstep (r : Run FixedQueue σ) (c : Call σ) (h : P r) : P (r.step clock c) := by
    obtain ⟨rfl, h⟩ := h
    refine ⟨by cases c <;> rfl, ?_⟩
    cases c with
    | enqueue p => simpa [step, enqueue, arrivals, Event.arrival?, or_imp, forall_and] using h
    | drain sink => simpa [step, arrivals, Event.arrival?] using h
    | wait => simpa [step, arrivals, Event.arrival?] using h
  exact (after_induction hstart hstep calls).2

/-- The delays that a rule gave never fall, and none is above what it gives next. -/
structure Rising (c : Classifier) (q : DelayRule) (r : Run RuleQueue σ) : Prop where
  classifier : r.queue.classifier = c
  below : ∀ a ∈ r.arrivals, a.verdict.matched = some q.key →
    a.verdict.delay ≤ (q.schedule c.direction).after (r.queue.counters.tally q.key.endpoint).bytes
  rising : r.arrivals.Pairwise fun a b => a.verdict.matched = some q.key →
    b.verdict.matched = some q.key → a.verdict.delay ≤ b.verdict.delay

theorem rising_step {c : Classifier} {q : DelayRule} (hq : q ∈ c.rules.toList)
    (hmeter : q.isMetered = true)
    (hle : (q.schedule c.direction).base ≤ (q.schedule c.direction).switch.alternate)
    {r s : Run RuleQueue σ} (h : Rising c q r) (hs : Meters r s) : Rising c q s := by
  cases hs with
  | quiet pending hqueue ha =>
    constructor <;> simp only [hqueue, ha]
    exacts [h.classifier, h.below, h.rising]
  | refuse p _ hqueue ha =>
    constructor <;> simp only [hqueue, ha]
    exacts [h.classifier, h.below, h.rising]
  | take a pending _ hv hqueue ha =>
    obtain rfl := h.classifier
    have hmono := Schedule.after_mono hle (Classifier.bytes_tally_le_classify r.queue.classifier
      r.queue.counters a.packet q.key.endpoint)
    have hnext (hm : a.verdict.matched = some q.key) : a.verdict.delay =
        (q.schedule r.queue.classifier.direction).after
          (r.queue.counters.tally q.key.endpoint).bytes := by
      rw [hv] at hm ⊢
      rw [Classifier.classify_of_isMetered (Classifier.rule?_eq_some_of_matched hq hm) hmeter]
    constructor <;> simp only [hqueue, ha]
    case below =>
      intro b hb hm
      rcases List.mem_append.1 hb with hb | hb
      · exact UInt64.le_trans (h.below b hb hm) hmono
      · obtain rfl := List.mem_singleton.1 hb
        exact hnext hm ▸ hmono
    case rising =>
      refine List.pairwise_append.2 ⟨h.rising, List.pairwise_singleton _ _, ?_⟩
      intro b hb b' hb' hm hm'
      obtain rfl := List.mem_singleton.1 hb'
      exact hnext hm' ▸ h.below b hb hm

theorem rising_after {rules : RuleSet} {direction : Direction} {q : DelayRule}
    (hq : q ∈ rules.toList) (hmeter : q.isMetered = true)
    (hle : (q.schedule direction).base ≤ (q.schedule direction).switch.alternate)
    (clock : Nat → Millis) (config : LinkConfig) (state : σ) (calls : List (Call σ)) :
    Rising ⟨rules, direction, config.defaultDelay⟩ q
      (after clock { queue := RuleQueue.start rules direction config, state } calls) :=
  after_induction ⟨rfl, by simp [arrivals], .nil⟩
    (fun _ c h => rising_step hq hmeter hle h (meters_step clock _ c)) calls

end Run

theorem connection_in_order {σ : Type} (clock : Nat → Millis) (state : σ)
    (calls : List (Call σ)) :
    (∀ rules direction config,
      let r := Run.after clock { queue := RuleQueue.start rules direction config, state } calls
      r.HasOrder ∧ ∀ q ∈ rules.toList, q.key.protocol = 6 → q.key.endpoint.port ≠ 0 →
        (q.schedule direction).base ≤ (q.schedule direction).switch.alternate →
        ∀ i j a b, i < j → r.arrivals[i]? = some a → r.arrivals[j]? = some b →
          a.verdict.matched = some q.key → b.verdict.matched = some q.key →
          a.reading < b.reading →
          a.reading.toNat + a.verdict.delay.toNat < maxAmount.toNat → r.Precedes i j) ∧
    ∀ delay,
      let r := Run.after clock { queue := ({ delay } : FixedQueue), state } calls
      r.HasOrder ∧ ∀ i j a b, i < j → r.arrivals[i]? = some a → r.arrivals[j]? = some b →
        a.reading < b.reading → a.reading.toNat + delay.toNat < maxAmount.toNat →
        r.Precedes i j := by
  refine ⟨fun rules direction config => ?_, fun delay => ?_⟩
  · intro r
    refine ⟨Run.hasOrder_after rfl .., ?_⟩
    intro q hq hproto hport hle i j a b hij hi hj hma hmb hreading hmax
    have hrising : Run.Rising ⟨rules, direction, config.defaultDelay⟩ q r :=
      Run.rising_after hq (DelayRule.isMetered_iff.2 ⟨hproto, hport⟩) hle ..
    obtain ⟨hi', rfl⟩ := List.getElem?_eq_some_iff.1 hi
    obtain ⟨hj', rfl⟩ := List.getElem?_eq_some_iff.1 hj
    have hdelay := List.pairwise_iff_getElem.1 hrising.rising i j hi' hj' hij hma hmb
    exact Run.precedes_after rfl clock state calls hij hi hj hreading hdelay hmax
  · intro r
    refine ⟨Run.hasOrder_after rfl .., fun i j a b hij hi hj hreading hmax => ?_⟩
    have ha := Run.delay_of_mem_arrivals clock delay state calls a (List.mem_of_getElem? hi)
    have hb := Run.delay_of_mem_arrivals clock delay state calls b (List.mem_of_getElem? hj)
    exact Run.precedes_after rfl clock state calls hij hi hj hreading
      (UInt64.le_of_eq (ha.trans hb.symm)) (ha.symm ▸ hmax)

/-- Three packets of a TCP connection whose delay goes up and one over UDP. The sink fails on the
third packet that it is given. -/
theorem connection_in_order_of_switch :
    let q : DelayRule := ⟨⟨6, ⟨⟨10, 0, 0, 5⟩, 80⟩⟩, ⟨100, ⟨40, 5000⟩⟩, .constant 50⟩
    let rules := Ascending.ofList [q]
    let packet (protocol : UInt8) : Packet := [0, 0, 8, 0, 69, 0, 0, 24, 0, 0, 0, 0, 64, protocol,
      0, 0, 100, 64, 0, 2, 10, 0, 0, 5, 156, 64, 0, 80]
    let sink := takeAtMost .nothingWritten
    let calls := [.enqueue (packet 6), .enqueue (packet 17), .enqueue (packet 6),
      .enqueue (packet 6), .drain sink, .drain sink]
    let clock (i : Nat) : Millis := .ofNat (70 * i)
    let r := Run.after clock
      { queue := RuleQueue.start rules .uplink { defaultDelay := 20 }, state := 2 } calls
    let s := Run.after clock { queue := ({ delay := 10 } : FixedQueue), state := 2 } calls
    (q ∈ rules.toList ∧ (q.schedule .uplink).base ≤ (q.schedule .uplink).switch.alternate) ∧
    r.handed.map Pending.releaseAt = [90, 100, 240] ∧ r.Precedes 0 2 ∧ r.Precedes 2 3 ∧
    s.handed.map Pending.releaseAt = [10, 80, 150, 220] ∧ s.Precedes 0 1 := by
  intro q rules packet sink calls clock r s
  have hq : q ∈ rules.toList := by decide
  have h := connection_in_order clock 2 calls
  have hr := (h.1 rules .uplink { defaultDelay := 20 }).2 q hq rfl (by decide) (by decide)
  have hs := (h.2 10).2
  refine ⟨⟨hq, by decide⟩, by decide, ?_, ?_, by decide, ?_⟩
  · exact hr 0 2 _ _ (by decide) rfl rfl (by decide) (by decide) (by decide) (by decide)
  · exact hr 2 3 _ _ (by decide) rfl rfl (by decide) (by decide) (by decide) (by decide)
  · exact hs 0 1 _ _ (by decide) rfl rfl (by decide) (by decide)

end DelayLine
