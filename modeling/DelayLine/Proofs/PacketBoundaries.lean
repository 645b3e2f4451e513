import Mathlib.Data.List.Basic
import Mathlib.Data.List.Forall2
import DelayLine.Sink

/-!
# Packet boundaries

A call offers a stream what the calls before it have left of one packet. As long as the answers are
interruptions, or that a part is accepted, the rest is offered again (`Sound.after`). Any other
answer is the last one for this packet (`sound_single`). So a packet that is not written has left a
proper prefix of it in the stream, and the next packet starts with its own first byte and with the
answers that were not used up (`sound_transmitAll`).
-/

namespace DelayLine

namespace Answer

/-- How many of the bytes offered are accepted. Behind the last answer these are all. -/
def taken (offered : Nat) : Option Answer → Nat
  | none => offered
  | some (accept limit) => min limit offered
  | some (fail _) => 0

/-- The fault in an answer, if the packet fails with it. An interruption is not such a fault. -/
def fault? : Answer → Option WriteFault
  | accept limit => if limit = 0 then some .nothingWritten else none
  | fail fault => if fault.kind = .interrupted then none else some fault

end Answer

namespace Transmission

variable {p : Packet} {a : Answer} {answers : List Answer} {t : Transmission}

theorem bytes_after (c : WriteCall) (t : Transmission) : (t.after c).bytes = c.chunk ++ t.bytes :=
  rfl

/-- The result of the call for an empty packet. -/
def emptyResult : Option Answer → Except WriteFault Unit
  | some (.fail fault) => .error fault
  | _ => .ok ()

/-- Each call uses up an answer and offers the part of the packet that was not accepted before. A
packet that is not empty is written if and only if the stream has all of it. If it is not written,
the stream has less of it, and the result is the first fault in an answer, which ends the calls. An
empty packet is a single call and has the result of it. -/
structure Sound (p : Packet) (answers : List Answer) (t : Transmission) : Prop where
  answers_eq : t.answers = answers.drop t.calls.length
  offered : ∀ (i : Nat) c, t.calls[i]? = some c →
    (t.calls.take i).flatMap WriteCall.chunk ++ c.offered = p
  accepted : ∀ (i : Nat) c, t.calls[i]? = some c →
    c.accepted = Answer.taken c.offered.length answers[i]?
  result_eq_ok_iff : p ≠ [] → (t.result = .ok () ↔ t.bytes = p)
  of_ok : p ≠ [] → t.result = .ok () → ∀ a ∈ answers.take t.calls.length, a.fault? = none
  of_error : p ≠ [] → ∀ fault, t.result = .error fault → t.bytes <+: p ∧ t.bytes ≠ p ∧
    ∃ before a, answers.take t.calls.length = before ++ [a] ∧ a.fault? = some fault ∧
      ∀ b ∈ before, b.fault? = none
  of_nil : p = [] → t.calls = [⟨[], 0⟩] ∧ t.result = emptyResult answers.head?

/-- A call that leaves something of the packet, and what becomes of the rest. -/
theorem Sound.after {k : Nat} (hk : k < p.length) (htaken : Answer.taken p.length (some a) = k)
    (ha : a.fault? = none) (h : Sound (p.drop k) answers t) :
    Sound p (a :: answers) (t.after ⟨p, k⟩) := by
  have hp : p ≠ [] := List.ne_nil_of_length_pos (by omega)
  have hrest : p.drop k ≠ [] := mt List.drop_eq_nil_iff.1 (by omega)
  have hsplit : p.take k ++ p.drop k = p := List.take_append_drop k p
  have hbytes : (t.after ⟨p, k⟩).bytes = p.take k ++ t.bytes := bytes_after ..
  have hbytes_iff : (t.after ⟨p, k⟩).bytes = p ↔ t.bytes = p.drop k := by
    rw [hbytes]
    nth_rewrite 2 [← hsplit]
    exact List.append_right_inj _
  constructor
  · exact h.answers_eq
  · rintro (_ | i) c hc
    · cases hc
      rfl
    · have := h.offered i c hc
      simp only [Transmission.after, List.take_succ_cons, List.flatMap_cons, List.append_assoc,
        this]
      exact hsplit
  · rintro (_ | i) c hc
    · cases hc
      exact htaken.symm
    · exact h.accepted i c hc
  · intro _
    rw [hbytes_iff]
    exact h.result_eq_ok_iff hrest
  · intro _ hok
    exact List.forall_mem_cons.2 ⟨ha, h.of_ok hrest hok⟩
  · intro _ fault herror
    obtain ⟨hpart, hne, before, last, hused, hlast, hbefore⟩ := h.of_error hrest fault herror
    refine ⟨?_, mt hbytes_iff.1 hne, a :: before, last, congrArg (a :: ·) hused, hlast,
      List.forall_mem_cons.2 ⟨ha, hbefore⟩⟩
    rw [hbytes]
    nth_rewrite 2 [← hsplit]
    exact (List.prefix_append_right_inj _).2 hpart
  · exact fun h => absurd h hp

/-- A single call, of which the answer is that all is accepted or a fault. -/
theorem sound_single {k : Nat} {result : Except WriteFault Unit} (hp : p ≠ [])
    (htaken : Answer.taken p.length answers.head? = k)
    (h : k = p.length ∧ result = .ok () ∧ (∀ a ∈ answers.head?, a.fault? = none) ∨
      k = 0 ∧ ∃ a fault, answers.head? = some a ∧ a.fault? = some fault ∧ result = .error fault) :
    Sound p answers ⟨[⟨p, k⟩], result, answers.drop 1⟩ := by
  have hbytes : bytes ⟨[⟨p, k⟩], result, answers.drop 1⟩ = p.take k := List.append_nil _
  have htake : answers.take 1 = answers.head?.toList := by cases answers <;> rfl
  constructor
  · rfl
  · rintro (_ | i) c hc <;> cases hc
    rfl
  · rintro (_ | i) c hc <;> cases hc
    rw [← List.head?_eq_getElem?]
    exact htaken.symm
  · intro _
    rw [hbytes]
    rcases h with ⟨rfl, rfl, -⟩ | ⟨rfl, a, fault, -, -, rfl⟩
    · simp
    · simpa using hp.symm
  · intro _ hok
    rcases h with ⟨-, -, hfault⟩ | ⟨-, a, fault, -, -, rfl⟩
    · simpa [htake] using hfault
    · cases hok
  · intro _ fault herror
    rcases h with ⟨-, rfl, -⟩ | ⟨rfl, a, fault, hhead, hfault, rfl⟩
    · cases herror
    · cases herror
      refine ⟨hbytes ▸ List.nil_prefix, hbytes ▸ hp.symm, [], a, ?_, hfault, by simp⟩
      simp [htake, hhead]
  · exact fun h => absurd h hp

theorem sound_transmitRest {rest : Bytes} (h : rest ≠ []) (answers : List Answer) :
    Sound rest answers (transmitRest rest answers) := by
  have hpos : 0 < rest.length := List.length_pos_of_ne_nil h
  fun_induction transmitRest rest answers with
  | case1 rest => exact sound_single h rfl (.inl ⟨rfl, rfl, by simp⟩)
  | case2 rest fault answers hfault ih =>
    exact Sound.after hpos rfl (if_pos hfault) (ih h hpos)
  | case3 rest fault answers hfault =>
    exact sound_single h rfl (.inr ⟨rfl, _, fault, rfl, if_neg hfault, rfl⟩)
  | case4 rest answers =>
    exact sound_single h (Nat.zero_min _) (.inr ⟨rfl, _, _, rfl, rfl, rfl⟩)
  | case5 rest limit answers hlimit hle =>
    have hfault : (Answer.accept limit).fault? = none := if_neg hlimit
    exact sound_single h (Nat.min_eq_right hle) (.inl ⟨rfl, rfl, by simpa using hfault⟩)
  | case6 rest limit answers hlimit hlt ih =>
    have hlt : limit < rest.length := Nat.lt_of_not_le hlt
    have hdrop : rest.drop limit ≠ [] := mt List.drop_eq_nil_iff.1 (Nat.not_le.2 hlt)
    exact Sound.after hlt (Nat.min_eq_left (Nat.le_of_lt hlt)) (if_neg hlimit)
      (ih hdrop (List.length_pos_of_ne_nil hdrop))

theorem transmitEmpty_eq (answers : List Answer) :
    transmitEmpty answers = ⟨[⟨[], 0⟩], emptyResult answers.head?, answers.drop 1⟩ := by
  rcases answers with _ | ⟨limit | fault, answers⟩ <;> rfl

theorem sound_transmit (p : Packet) (answers : List Answer) :
    Sound p answers (transmit p answers) := by
  unfold transmit
  split_ifs with hp
  · rw [transmitEmpty_eq, hp]
    constructor
    · rfl
    · rintro (_ | i) c hc <;> cases hc
      rfl
    · rintro (_ | i) c hc <;> cases hc
      rcases answers with _ | ⟨limit | fault, answers⟩
      · rfl
      · exact (Nat.min_zero limit).symm
      · rfl
    · exact fun h => absurd rfl h
    · exact fun h => absurd rfl h
    · exact fun h => absurd rfl h
    · exact fun _ => ⟨rfl, rfl⟩
  · exact sound_transmitRest hp answers

variable {packets : List Packet} {script : List Answer}

theorem Sound.bytes_of_ok (h : Sound p answers t) (hok : t.result = .ok ()) : t.bytes = p := by
  by_cases hp : p = []
  · rw [bytes, (h.of_nil hp).1, hp]
    rfl
  · exact (h.result_eq_ok_iff hp).1 hok

theorem Sound.bytes_of_error (h : Sound p answers t) {fault : WriteFault}
    (herror : t.result = .error fault) : t.bytes <+: p ∧ (p ≠ [] → t.bytes ≠ p) := by
  by_cases hp : p = []
  · rw [bytes, (h.of_nil hp).1]
    exact ⟨List.nil_prefix, fun h => absurd hp h⟩
  · obtain ⟨hpart, hne, -⟩ := h.of_error hp fault herror
    exact ⟨hpart, fun _ => hne⟩

theorem transmitAll_cons (p : Packet) (packets : List Packet) (script : List Answer) :
    transmitAll (p :: packets) script = transmit p script ::
      transmitAll packets (script.drop (transmit p script).calls.length) := by
  rw [← (sound_transmit p script).answers_eq]
  rfl

theorem length_transmitAll (packets : List Packet) (script : List Answer) :
    (transmitAll packets script).length = packets.length := by
  induction packets generalizing script with
  | nil => rfl
  | cons p packets ih => exact congrArg (· + 1) (ih _)

/-- Each packet has the answers behind those that were used for the packets before it. -/
theorem sound_transmitAll (packets : List Packet) (script : List Answer) {i : Nat}
    (hp : packets[i]? = some p) (ht : (transmitAll packets script)[i]? = some t) :
    Sound p (script.drop (((transmitAll packets script).take i).flatMap calls).length) t := by
  induction packets generalizing script i with
  | nil => cases hp
  | cons first packets ih =>
    rw [transmitAll_cons] at ht ⊢
    cases i with
    | zero =>
      cases hp
      cases ht
      exact sound_transmit p script
    | succ i =>
      have := ih _ hp ht
      rwa [List.drop_drop, ← List.length_append, ← List.flatMap_cons] at this

end Transmission

/-- Hands packets to a sink, one after the other, whatever becomes of each. -/
def Sink.handAll {σ : Type} (sink : Sink σ) :
    σ → List Packet → List (Except WriteFault Unit) × σ
  | state, [] => ([], state)
  | state, p :: packets =>
    let (result, next) := sink p state
    let (results, last) := Sink.handAll sink next packets
    (result :: results, last)

theorem handAll_byteStream (packets : List Packet) (script : List Answer) :
    byteStream.handAll script packets =
      let sent := transmitAll packets script
      (sent.map Transmission.result, script.drop (sent.flatMap Transmission.calls).length) := by
  induction packets generalizing script with
  | nil => rfl
  | cons p packets ih =>
    have hanswers := (Transmission.sound_transmit p script).answers_eq
    simp only [Sink.handAll, byteStream, Transmission.transmitAll_cons, hanswers, ih, List.map_cons,
      List.flatMap_cons, List.length_append, List.drop_drop]

theorem handAll_collect (packets kept : List Packet) :
    collect.handAll kept packets = (packets.map fun _ => .ok (), kept ++ packets) := by
  induction packets generalizing kept with
  | nil => simp [Sink.handAll]
  | cons p packets ih => simp [Sink.handAll, collect, ih]

/-- A stream that accepts all has one call for each packet. -/
theorem transmitAll_nil (packets : List Packet) :
    transmitAll packets [] = packets.map fun p => ⟨[⟨p, p.length⟩], .ok (), []⟩ := by
  induction packets with
  | nil => rfl
  | cons p packets ih =>
    have hp : transmit p [] = ⟨[⟨p, p.length⟩], .ok (), []⟩ := by
      cases p <;> rfl
    rw [transmitAll, hp, List.map_cons, ih]

/-- Whatever a stream answers, the bytes of the packets stay apart in it and in order, and a packet
is cut short only if its write fails. A stream that accepts all has one call for each packet, and
the collecting sink keeps the packets themselves. -/
theorem packets_kept_apart (packets : List Packet) (script : List Answer) :
    let sent := transmitAll packets script
    let all := transmitAll packets []
    sent.length = packets.length ∧
    (∀ (i : Nat) p t, packets[i]? = some p → sent[i]? = some t →
      t.Sound p (script.drop ((sent.take i).flatMap Transmission.calls).length)) ∧
    (sent.flatMap Transmission.calls).flatMap WriteCall.chunk = sent.flatMap Transmission.bytes ∧
    List.Forall₂ (fun p t => (t.result = .ok () → t.bytes = p) ∧
      ∀ fault, t.result = .error fault → t.bytes <+: p ∧ (p ≠ [] → t.bytes ≠ p)) packets sent ∧
    byteStream.handAll script packets =
      (sent.map Transmission.result, script.drop (sent.flatMap Transmission.calls).length) ∧
    (∀ kept, collect.handAll kept packets = (packets.map fun _ => .ok (), kept ++ packets)) ∧
    all.map Transmission.result = (packets.map fun _ => .ok ()) ∧
    (all.flatMap Transmission.calls).map WriteCall.offered = packets := by
  intro sent all
  have hlength : sent.length = packets.length := Transmission.length_transmitAll packets script
  have hsound (i : Nat) p t (hp : packets[i]? = some p) (ht : sent[i]? = some t) :=
    Transmission.sound_transmitAll packets script hp ht
  have hall : all = packets.map fun p => ⟨[⟨p, p.length⟩], .ok (), []⟩ := transmitAll_nil packets
  refine ⟨hlength, hsound, List.flatMap_assoc, ?_, handAll_byteStream packets script,
    handAll_collect packets, ?_, ?_⟩
  · refine List.forall₂_iff_get.2 ⟨hlength.symm, fun i hp ht => ?_⟩
    have h := hsound i _ _ (List.getElem?_eq_getElem hp) (List.getElem?_eq_getElem ht)
    exact ⟨h.bytes_of_ok, fun _ => h.bytes_of_error⟩
  · rw [hall, List.map_map]
    rfl
  · rw [hall, List.flatMap_map, List.map_flatMap]
    exact List.flatMap_singleton' packets

/-- An answer that nothing is accepted ends the first packet, and the next interruption the second,
which is empty. -/
example :
    let pause : WriteFault := ⟨.interrupted, []⟩
    transmitAll [[1, 2, 3], [], [4, 5]]
      [.accept 2, .fail pause, .accept 0, .fail pause, .accept 1] =
    [⟨[⟨[1, 2, 3], 2⟩, ⟨[3], 0⟩, ⟨[3], 0⟩], .error .nothingWritten, [.fail pause, .accept 1]⟩,
      ⟨[⟨[], 0⟩], .error pause, [.accept 1]⟩,
      ⟨[⟨[4, 5], 1⟩, ⟨[5], 1⟩], .ok (), []⟩] :=
  rfl

end DelayLine
