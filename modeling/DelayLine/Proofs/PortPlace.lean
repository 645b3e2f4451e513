import DelayLine.Proofs.LiveRules

/-!
# Where ports are read

The ports are the four bytes behind the header as long as the place behind the header is a machine
word. The longest lengths wrap around, and then the four bytes are found at the start of the packet
(`Packet.ports_eq_ok_iff_hasPortsAt`). No decoded header has such a length.
-/

namespace DelayLine

namespace Packet

/-- The four bytes at an offset are the two ports, the first byte of each most significant. -/
structure HasPortsAt (p : Packet) (offset : Nat) (ports : Ports) : Prop where
  fits : offset + 4 ≤ p.length
  source : ports.source.toNat = 256 * (p.byte offset).toNat + (p.byte (offset + 1)).toNat
  destination : ports.destination.toNat =
    256 * (p.byte (offset + 2)).toNat + (p.byte (offset + 3)).toNat

variable {p : Packet} {h : Header} {ports : Ports} {offset : Nat}

theorem hasPortsAt_iff : p.HasPortsAt offset ports ↔
    offset + 4 ≤ p.length ∧ ports = ⟨p.port offset, p.port (offset + 2)⟩ := by
  obtain ⟨source, destination⟩ := ports
  rw [Ports.mk.injEq, ← UInt16.toNat_inj, ← UInt16.toNat_inj, toNat_port, toNat_port]
  exact ⟨fun h => ⟨h.fits, h.source, h.destination⟩, fun h => ⟨h.1, h.2.1, h.2.2⟩⟩

theorem exists_hasPortsAt_iff : (∃ ports, p.HasPortsAt offset ports) ↔ offset + 4 ≤ p.length := by
  simp only [hasPortsAt_iff, exists_and_left, exists_eq, and_true]

/-- The end of the ports wraps around only if it lies behind every packet. -/
theorem transport_fits_iff (hp : p.length < UInt64.size) :
    h.transportOffset ≤ h.transportOffset + 4 ∧ (h.transportOffset + 4).toNat ≤ p.length ↔
      h.transportOffset.toNat + 4 ≤ p.length := by
  have hstart := h.transportOffset.toNat_lt
  have hstop : (h.transportOffset + 4).toNat = (h.transportOffset.toNat + 4) % 2 ^ 64 :=
    UInt64.toNat_add ..
  rw [UInt64.le_iff_toNat_le, hstop]
  unfold UInt64.size at hp
  omega

theorem toNat_transportOffset (h : Header) : h.transportOffset.toNat =
    if 4 + h.length.toNat < UInt64.size then 4 + h.length.toNat
    else 4 + h.length.toNat - UInt64.size := by
  have hlength := h.length.toNat_lt
  have hstart : h.transportOffset.toNat = (4 + h.length.toNat) % 2 ^ 64 := UInt64.toNat_add ..
  rw [hstart]
  unfold UInt64.size
  split <;> omega

theorem ports_eq_ok_iff_hasPortsAt (hp : p.length < UInt64.size) : p.ports h = .ok ports ↔
    (h.protocol = 6 ∨ h.protocol = 17) ∧ (p.HasPortsAt (4 + h.length.toNat) ports ∨
      UInt64.size ≤ 4 + h.length.toNat ∧
        p.HasPortsAt (4 + h.length.toNat - UInt64.size) ports) := by
  have hplace : p.HasPortsAt h.transportOffset.toNat ports ↔
      p.HasPortsAt (4 + h.length.toNat) ports ∨ UInt64.size ≤ 4 + h.length.toNat ∧
        p.HasPortsAt (4 + h.length.toNat - UInt64.size) ports := by
    rw [toNat_transportOffset]
    split_ifs with hlt
    · exact (or_iff_left fun hw => Nat.not_le.2 hlt hw.1).symm
    · have hle := Nat.not_lt.1 hlt
      refine (and_iff_right hle).symm.trans (or_iff_right fun hin => ?_).symm
      have := hin.fits
      omega
  rw [ports_eq_ok_iff, ← and_assoc (a := _ ≤ _), transport_fits_iff hp, ← hasPortsAt_iff, hplace]
  rfl

theorem ports_eq_error_iff {fault : DecodeFault} : p.ports h = .error fault ↔
    ¬(h.protocol = 6 ∨ h.protocol = 17) ∧ fault = .noPorts h.protocol ∨
      (h.protocol = 6 ∨ h.protocol = 17) ∧ (¬∃ ports, p.ports h = .ok ports) ∧
        fault = .truncatedTransport := by
  have hproto : h.protocol ≠ Protocol.tcp ∧ h.protocol ≠ Protocol.udp ↔
      ¬(h.protocol = 6 ∨ h.protocol = 17) := not_or.symm
  simp only [Packet.ports, hproto]
  split_ifs with h1 h2 <;>
    simp [h1, throw, throwThe, MonadExceptOf.throw, pure, Except.pure, eq_comm (a := fault)]

theorem exists_ports_iff (hp : p.length < UInt64.size) : (∃ ports, p.ports h = .ok ports) ↔
    (h.protocol = 6 ∨ h.protocol = 17) ∧ (4 + h.length.toNat + 4 ≤ p.length ∨
      UInt64.size ≤ 4 + h.length.toNat ∧ 4 + h.length.toNat + 4 ≤ p.length + UInt64.size) := by
  simp only [ports_eq_ok_iff_hasPortsAt hp, exists_and_left, exists_or, exists_hasPortsAt_iff]
  refine and_congr_right fun _ => or_congr_right (and_congr_right fun hle => ?_)
  omega

theorem length_of_header (hh : p.header = .ok h) : 4 ∣ h.length.toNat ∧ 20 ≤ h.length.toNat ∧
    h.length.toNat ≤ 60 ∧ 4 + h.length.toNat ≤ p.length := by
  obtain ⟨-, hfive, hfits, rfl⟩ := header_eq_ok_iff.1 hh
  have hwords := words_le_fifteen (p.byte 4)
  have hlength : (UInt64.ofNat (4 * (p.byte 4 &&& 15).toNat)).toNat =
      4 * (p.byte 4 &&& 15).toNat := UInt64.toNat_ofNat_of_lt' (by unfold UInt64.size; omega)
  rw [hlength]
  omega

end Packet

/-- The ports are the four bytes behind the header, or those `2 ^ 64` bytes before them. So whether
four bytes stand behind the header decides if ports are read, unless the place behind the header
wraps around and four bytes stand where it gets to. -/
theorem ports_read_iff {p : Packet} (hp : p.length < UInt64.size) (h : Header) :
    let start := 4 + h.length.toNat
    let hasPorts := h.protocol = 6 ∨ h.protocol = 17
    (∀ ports, p.ports h = .ok ports ↔ hasPorts ∧ (p.HasPortsAt start ports ∨
      UInt64.size ≤ start ∧ p.HasPortsAt (start - UInt64.size) ports)) ∧
    (∀ fault, p.ports h = .error fault ↔ ¬hasPorts ∧ fault = .noPorts h.protocol ∨
      hasPorts ∧ (¬∃ ports, p.ports h = .ok ports) ∧ fault = .truncatedTransport) ∧
    (((∃ ports, p.ports h = .ok ports) ↔ hasPorts ∧ start + 4 ≤ p.length) ↔
      ¬(hasPorts ∧ UInt64.size ≤ start ∧ start + 4 ≤ p.length + UInt64.size)) ∧
    (p.header = .ok h → 4 ∣ h.length.toNat ∧ 20 ≤ h.length.toNat ∧ h.length.toNat ≤ 60 ∧
      start ≤ p.length) := by
  intro start hasPorts
  refine ⟨fun _ => Packet.ports_eq_ok_iff_hasPortsAt hp, fun _ => Packet.ports_eq_error_iff, ?_,
    Packet.length_of_header⟩
  rw [Packet.exists_ports_iff hp]
  have hbehind (hle : UInt64.size ≤ start) : ¬start + 4 ≤ p.length := by omega
  tauto

/-- A header as it is decoded, and one that is so long that the ports wrap around. -/
theorem ports_read_iff_of_wrapped :
    let p : Packet := .looped ⟨6, ⟨⟨10, 0, 0, 5⟩, 80⟩⟩
    let h : Header := ⟨6, ⟨10, 0, 0, 5⟩, ⟨10, 0, 0, 5⟩, 20⟩
    let wrapped : Header := { h with length := 18446744073709551612 }
    p.length < UInt64.size ∧ p.header = .ok h ∧ p.HasPortsAt 24 ⟨80, 80⟩ ∧
      p.ports h = .ok ⟨80, 80⟩ ∧ p.HasPortsAt 0 ⟨0, 2048⟩ ∧ p.ports wrapped = .ok ⟨0, 2048⟩ := by
  intro p h wrapped
  have hp : p.length < UInt64.size := by decide
  have hin : p.HasPortsAt 24 ⟨80, 80⟩ := ⟨by decide, by decide, by decide⟩
  have hfront : p.HasPortsAt 0 ⟨0, 2048⟩ := ⟨by decide, by decide, by decide⟩
  have hwrap : 4 + wrapped.length.toNat = UInt64.size := by decide
  refine ⟨hp, by decide, hin, ((ports_read_iff hp h).1 _).2 ⟨.inl rfl, .inl hin⟩, hfront,
    ((ports_read_iff hp wrapped).1 _).2 ⟨.inl rfl, .inr ⟨Nat.le_of_eq hwrap.symm, ?_⟩⟩⟩
  rwa [hwrap, Nat.sub_self]

theorem ports_read_before_header :
    let p : Packet := [1, 2, 3, 4, 5, 6, 7, 8]
    let h : Header := ⟨6, ⟨0, 0, 0, 0⟩, ⟨0, 0, 0, 0⟩, 18446744073709551612⟩
    p.ports h = .ok ⟨258, 772⟩ ∧ ¬4 + h.length.toNat + 4 ≤ p.length := by
  decide

end DelayLine
