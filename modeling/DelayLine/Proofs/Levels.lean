import Mathlib.Data.List.Perm.Subperm
import Mathlib.Data.List.TFAE
import Mathlib.Tactic.ByContra
import Mathlib.Tactic.TFAE
import DelayLine.RuleSet.Index

/-!
# Levels without gaps

The keys on the way to a rule in an index are the rule's own, and no map on the way is empty. Every
insertion keeps this up (`Valid.insert`), so an index that was built from nothing answers from its
maps as it would from its rules, and two of them that hold the same rules are the same
(`index_determined`).
-/

namespace DelayLine

namespace KeyMap

variable {κ β : Type} [Ranked κ]

theorem put_ne_empty [DecidableEq κ] (m : KeyMap κ β) (k : κ) (v : β) : m.put k v ≠ .empty := by
  intro h
  have hk := get?_put m k k v
  rw [h, if_pos rfl] at hk
  cases hk

theorem pairwise_values {m : KeyMap κ β} {R : β → β → Prop}
    (h : ∀ k l v w, m.get? k = some v → m.get? l = some w → Ranked.rank k < Ranked.rank l → R v w) :
    m.values.Pairwise R := by
  refine List.pairwise_map.2 (m.ascending.imp_of_mem fun hx hy hlt => ?_)
  exact h _ _ _ _ (get?_eq_some_iff.2 hx) (get?_eq_some_iff.2 hy) hlt

/-- A map that is missing if it is empty is known by what is found in it. -/
theorem ext_bind_get? {x y : Option (KeyMap κ β)} (hx : x ≠ some .empty) (hy : y ≠ some .empty)
    (h : ∀ k, (x.bind fun m => m.get? k) = y.bind fun m => m.get? k) : x = y := by
  rcases x with _ | m <;> rcases y with _ | n
  · rfl
  · obtain ⟨k, v, hk⟩ := exists_get?_of_ne_empty fun hn => hy (hn ▸ rfl)
    exact absurd ((h k).trans hk) nofun
  · obtain ⟨k, v, hk⟩ := exists_get?_of_ne_empty fun hm => hx (hm ▸ rfl)
    exact absurd ((h k).symm.trans hk) nofun
  · exact congrArg some (ext_get? h)

end KeyMap

theorem RuleKey.rank_lt_iff {k l : RuleKey} : k.rank < l.rank ↔
    k.protocol < l.protocol ∨ k.protocol = l.protocol ∧ k.endpoint.rank < l.endpoint.rank := by
  have hk := k.endpoint.rank_lt
  have hl := l.endpoint.rank_lt
  unfold rank
  rw [UInt8.lt_iff_toNat_lt, ← UInt8.toNat_inj]
  omega

namespace RuleIndex

/-- Rules are found under their own keys, and no map is empty. -/
structure Valid (t : RuleIndex) : Prop where
  key_eq : ∀ {key r}, t.get? key = some r → r.key = key
  addresses_ne : ∀ protocol, t.rules.get? protocol ≠ some .empty
  ports_ne : ∀ protocol address, t.ports? protocol address ≠ some .empty

variable {t t' : RuleIndex} {s s' : RuleSet} {r : DelayRule} {protocol : UInt8} {address : Address}

theorem valid_empty : Valid empty := ⟨nofun, nofun, nofun⟩

theorem Valid.insert (h : t.Valid) (r : DelayRule) : (t.insert r).2.Valid where
  key_eq := by
    intro key r' hr
    rw [get?_insert] at hr
    split at hr
    · next heq =>
      cases hr
      exact heq
    · exact h.key_eq hr
  addresses_ne := by
    intro protocol
    simp only [RuleIndex.insert, KeyMap.get?_put]
    split
    · exact fun heq => KeyMap.put_ne_empty _ _ _ (Option.some.inj heq)
    · exact h.addresses_ne protocol
  ports_ne := by
    intro protocol address
    rw [ports?_insert]
    split
    · exact fun heq => KeyMap.put_ne_empty _ _ _ (Option.some.inj heq)
    · exact h.ports_ne protocol address

theorem Valid.extend (h : t.Valid) (rules : List DelayRule) : (t.extend rules).Valid := by
  induction rules generalizing t with
  | nil => exact h
  | cons r rules ih => exact ih (h.insert r)

theorem get?_extend (h : ∀ key, t.get? key = s.get? key) (rules : List DelayRule) (key : RuleKey) :
    (t.extend rules).get? key = RuleSet.get? (s.extend rules) key := by
  induction rules generalizing t s with
  | nil => exact h key
  | cons r rules ih =>
    refine ih fun key => ?_
    rw [get?_insert, RuleSet.get?_insert, h]

theorem mem_toList_iff : r ∈ t.toList ↔ ∃ key, t.get? key = some r := by
  simp only [toList, List.mem_flatMap, KeyMap.mem_values]
  constructor
  · rintro ⟨ports, ⟨addresses, ⟨p, hp⟩, ⟨a, ha⟩⟩, ⟨o, ho⟩⟩
    exact ⟨⟨p, a, o⟩, by simp [get?, ports?, hp, ha, ho]⟩
  · rintro ⟨key, hr⟩
    obtain ⟨ports, hports, ho⟩ := Option.bind_eq_some_iff.1 hr
    obtain ⟨addresses, hp, ha⟩ := ports?_eq_some_iff.1 hports
    exact ⟨ports, ⟨addresses, ⟨_, hp⟩, ⟨_, ha⟩⟩, ⟨_, ho⟩⟩

namespace Valid

theorem get?_eq_some_iff (h : t.Valid) {key : RuleKey} :
    t.get? key = some r ↔ r ∈ t.toList ∧ r.key = key := by
  rw [mem_toList_iff]
  constructor
  · exact fun hr => ⟨⟨key, hr⟩, h.key_eq hr⟩
  · rintro ⟨⟨key', hr⟩, rfl⟩
    rwa [h.key_eq hr]

theorem mem_toList (h : t.Valid) : r ∈ t.toList ↔ t.get? r.key = some r := by
  rw [h.get?_eq_some_iff, and_iff_left rfl]

theorem exists_get?_of_ports? (h : t.Valid) {ports : PortRules}
    (hports : t.ports? protocol address = some ports) :
    ∃ port r, t.get? ⟨protocol, address, port⟩ = some r := by
  obtain ⟨port, r, hr⟩ := KeyMap.exists_get?_of_ne_empty fun heq =>
    h.ports_ne protocol address (hports.trans (congrArg some heq))
  exact ⟨port, r, by rw [get?, hports, Option.bind_some, hr]⟩

theorem exists_ports?_iff (h : t.Valid) : (∃ ports, t.ports? protocol address = some ports) ↔
    ∃ r ∈ t.toList, r.key.protocol = protocol ∧ r.key.endpoint.address = address := by
  constructor
  · rintro ⟨ports, hports⟩
    obtain ⟨port, r, hr⟩ := h.exists_get?_of_ports? hports
    exact ⟨r, mem_toList_iff.2 ⟨_, hr⟩, by simp [h.key_eq hr]⟩
  · rintro ⟨r, hr, rfl, rfl⟩
    obtain ⟨ports, hports, -⟩ := Option.bind_eq_some_iff.1 (h.mem_toList.1 hr)
    exact ⟨ports, hports⟩

theorem hasProtocol_iff (h : t.Valid) :
    t.hasProtocol protocol = true ↔ ∃ r ∈ t.toList, r.key.protocol = protocol := by
  rw [hasProtocol, Option.isSome_iff_exists]
  constructor
  · rintro ⟨addresses, hp⟩
    obtain ⟨address, ports, ha⟩ := KeyMap.exists_get?_of_ne_empty fun heq =>
      h.addresses_ne protocol (hp.trans (congrArg some heq))
    obtain ⟨r, hr, hprotocol, -⟩ := h.exists_ports?_iff.1
      ⟨ports, ports?_eq_some_iff.2 ⟨addresses, hp, ha⟩⟩
    exact ⟨r, hr, hprotocol⟩
  · rintro ⟨r, hr, rfl⟩
    obtain ⟨ports, hports, -⟩ := Option.bind_eq_some_iff.1 (h.mem_toList.1 hr)
    obtain ⟨addresses, hp, -⟩ := ports?_eq_some_iff.1 hports
    exact ⟨addresses, hp⟩

theorem isEmpty_iff (h : t.Valid) : t.isEmpty = true ↔ t.toList = [] := by
  rw [isEmpty, List.isEmpty_iff]
  constructor
  · intro hrules
    simp [toList, KeyMap.values, hrules]
  · intro hlist
    by_contra hrules
    obtain ⟨protocol, addresses, hp⟩ := KeyMap.exists_get?_of_ne_empty fun heq =>
      hrules (congrArg Ascending.toList heq)
    obtain ⟨r, hr, -⟩ := h.hasProtocol_iff.1 (Option.isSome_iff_exists.2 ⟨addresses, hp⟩)
    exact List.not_mem_nil (hlist ▸ hr)

theorem get?_of_ports? (h : t.Valid) {ports : PortRules} {port : UInt16}
    (hports : t.ports? protocol address = some ports) :
    ports.get? port = some r ↔ r ∈ t.toList ∧ r.key = ⟨protocol, address, port⟩ := by
  rw [← h.get?_eq_some_iff, get?, hports, Option.bind_some]

theorem pairwise_values_ports (h : t.Valid) {ports : PortRules}
    (hports : t.ports? protocol address = some ports) :
    ports.values.Pairwise fun r r' => r.key.rank < r'.key.rank := by
  refine KeyMap.pairwise_values fun o o' r r' hr hr' hlt => ?_
  rw [((h.get?_of_ports? hports).1 hr).2, ((h.get?_of_ports? hports).1 hr').2]
  exact RuleKey.rank_lt_iff.2 (.inr ⟨rfl, Endpoint.rank_lt_iff.2 (.inr ⟨rfl, hlt⟩)⟩)

theorem key_of_ports? (h : t.Valid) {ports : PortRules}
    (hports : t.ports? protocol address = some ports) (hr : r ∈ ports.values) :
    r.key.protocol = protocol ∧ r.key.endpoint.address = address := by
  obtain ⟨port, hport⟩ := KeyMap.mem_values.1 hr
  rw [((h.get?_of_ports? hports).1 hport).2]
  exact ⟨rfl, rfl⟩

theorem pairwise_toList (h : t.Valid) : t.toList.Pairwise fun r r' => r.key.rank < r'.key.rank := by
  rw [toList, List.pairwise_flatMap, List.pairwise_flatMap]
  refine ⟨?_, ?_, ?_⟩
  · intro ports hports
    obtain ⟨addresses, hp, ha⟩ := List.mem_flatMap.1 hports
    obtain ⟨p, hp⟩ := KeyMap.mem_values.1 hp
    obtain ⟨a, ha⟩ := KeyMap.mem_values.1 ha
    exact h.pairwise_values_ports (ports?_eq_some_iff.2 ⟨addresses, hp, ha⟩)
  · -- Two addresses of one protocol.
    intro addresses hp
    obtain ⟨p, hp⟩ := KeyMap.mem_values.1 hp
    refine KeyMap.pairwise_values fun a a' ports ports' ha ha' hlt r hr r' hr' => ?_
    obtain ⟨hrp, hra⟩ := h.key_of_ports? (ports?_eq_some_iff.2 ⟨addresses, hp, ha⟩) hr
    obtain ⟨hrp', hra'⟩ := h.key_of_ports? (ports?_eq_some_iff.2 ⟨addresses, hp, ha'⟩) hr'
    rw [RuleKey.rank_lt_iff, Endpoint.rank_lt_iff, hrp, hrp', hra, hra']
    exact .inr ⟨rfl, .inl hlt⟩
  · -- Two protocols.
    refine KeyMap.pairwise_values fun p p' addresses addresses' hp hp' hlt => ?_
    intro ports ha ports' ha' r hr r' hr'
    obtain ⟨a, ha⟩ := KeyMap.mem_values.1 ha
    obtain ⟨a', ha'⟩ := KeyMap.mem_values.1 ha'
    obtain ⟨hrp, -⟩ := h.key_of_ports? (ports?_eq_some_iff.2 ⟨addresses, hp, ha⟩) hr
    obtain ⟨hrp', -⟩ := h.key_of_ports? (ports?_eq_some_iff.2 ⟨addresses', hp', ha'⟩) hr'
    rw [RuleKey.rank_lt_iff, hrp, hrp']
    exact .inl hlt

theorem eq_of_get? (h : t.Valid) (h' : t'.Valid) (heq : ∀ key, t.get? key = t'.get? key) :
    t = t' := by
  have hports (protocol : UInt8) (address : Address) :
      t.ports? protocol address = t'.ports? protocol address :=
    KeyMap.ext_bind_get? (h.ports_ne _ _) (h'.ports_ne _ _) fun port =>
      heq ⟨protocol, address, port⟩
  have hrules (protocol : UInt8) : t.rules.get? protocol = t'.rules.get? protocol :=
    KeyMap.ext_bind_get? (h.addresses_ne _) (h'.addresses_ne _) (hports protocol)
  cases t
  cases t'
  exact congrArg RuleIndex.mk (KeyMap.ext_get? hrules)

/-- The rules of an index as a rule set. -/
def ruleSet (h : t.Valid) : RuleSet := ⟨t.toList, h.pairwise_toList⟩

theorem get?_ruleSet (h : t.Valid) (key : RuleKey) : h.ruleSet.get? key = t.get? key :=
  Option.ext fun _ => RuleSet.get?_eq_some_iff.trans h.get?_eq_some_iff.symm

end Valid

/-- An index and a rule set that are built in the same way. -/
inductive Built : RuleIndex → RuleSet → Prop
  | new : Built empty .empty
  | insert {t : RuleIndex} {s : RuleSet} (h : Built t s) (r : DelayRule) :
      Built (t.insert r).2 (s.insert r)
  | extend {t : RuleIndex} {s : RuleSet} (h : Built t s) (rules : List DelayRule) :
      Built (t.extend rules) (s.extend rules)
  | collect (rules : List DelayRule) : Built (ofRules rules) (.ofList rules)
  | parse {t : RuleIndex} {s : RuleSet} {content : Bytes} (ht : RuleIndex.parse content = .ok t)
      (hs : RuleSet.parse content = .ok s) : Built t s

theorem parse_eq_ok_iff {content : Bytes} : RuleIndex.parse content = .ok t ↔
    (RuleSet.read content).rejected = none ∧ ofRules (RuleSet.rulesOf content) = t := by
  rw [parse, Reading.map_values_eq_ok_iff, List.map_map]
  rfl

theorem get?_ofRules (rules : List DelayRule) (key : RuleKey) :
    (ofRules rules).get? key = RuleSet.get? (.ofList rules) key :=
  get?_extend (fun _ => rfl) rules key

namespace Built

theorem valid (h : Built t s) : t.Valid := by
  induction h with
  | new => exact valid_empty
  | insert _ r ih => exact ih.insert r
  | extend _ rules ih => exact ih.extend rules
  | collect rules => exact valid_empty.extend rules
  | parse ht _ =>
    obtain ⟨-, rfl⟩ := parse_eq_ok_iff.1 ht
    exact valid_empty.extend _

theorem get?_eq (h : Built t s) (key : RuleKey) : t.get? key = s.get? key := by
  induction h generalizing key with
  | new => rfl
  | insert _ r ih => rw [get?_insert, RuleSet.get?_insert, ih]
  | extend _ rules ih => exact get?_extend ih rules key
  | collect rules => exact get?_ofRules rules key
  | parse ht hs =>
    obtain ⟨-, rfl⟩ := parse_eq_ok_iff.1 ht
    obtain ⟨-, rfl⟩ := RuleSet.parse_eq_ok_iff.1 hs
    exact get?_ofRules _ key

theorem toList_eq (h : Built t s) : t.toList = s.toList := by
  have hs : h.valid.ruleSet = s := RuleSet.ext_get? fun key => by
    rw [h.valid.get?_ruleSet, h.get?_eq]
  rw [← hs]
  rfl

theorem ports_eq (h : Built t s) (protocol : UInt8) (address : Address) :
    (t.ports? protocol address).elim [] KeyMap.values = s.ports protocol address := by
  have hmem (r : DelayRule) : r ∈ s.ports protocol address ↔
      r ∈ t.toList ∧ r.key.protocol = protocol ∧ r.key.endpoint.address = address := by
    simp [RuleSet.ports, h.toList_eq]
  rcases hports : t.ports? protocol address with _ | ports
  · refine (List.eq_nil_iff_forall_not_mem.2 fun r hr => ?_).symm
    obtain ⟨ports, hsome⟩ := h.valid.exists_ports?_iff.2 ⟨r, (hmem r).1 hr⟩
    cases hports.symm.trans hsome
  · have heq : (⟨ports.values, h.valid.pairwise_values_ports hports⟩ : RuleSet) =
        ⟨s.ports protocol address, s.ascending.filter _⟩ := by
      refine Ascending.ext_mem fun r => ?_
      rw [hmem, KeyMap.mem_values]
      simp only [h.valid.get?_of_ports? hports]
      constructor
      · rintro ⟨port, hr, hkey⟩
        rw [hkey]
        exact ⟨hr, rfl, rfl⟩
      · rintro ⟨hr, rfl, rfl⟩
        exact ⟨r.key.endpoint.port, hr, rfl⟩
    exact congrArg Ascending.toList heq

end Built

/-- An index answers as a rule set does. -/
structure Answers (t : RuleIndex) (s : RuleSet) : Prop where
  toList : t.toList = s.toList
  get? : ∀ key, t.get? key = s.get? key
  hasProtocol : ∀ protocol, t.hasProtocol protocol = s.hasProtocol protocol
  ports : ∀ protocol address,
    (t.ports? protocol address).elim [] KeyMap.values = s.ports protocol address
  replaced : ∀ r, (t.insert r).1 = s.get? r.key

theorem Built.answers (h : Built t s) : t.Answers s where
  toList := h.toList_eq
  get? := h.get?_eq
  hasProtocol := by
    intro protocol
    rw [Bool.eq_iff_iff, h.valid.hasProtocol_iff, h.toList_eq]
    simp [RuleSet.hasProtocol]
  ports := h.ports_eq
  replaced := by
    intro r
    rw [fst_insert, h.get?_eq]

/-- What an index says by its maps is true of its rules, and its rules determine it. -/
theorem index_determined (h : Built t s) (h' : Built t' s') :
    t.Valid ∧ t.Answers s ∧
    [t.isEmpty = true, t.size = 0, t.toList = []].TFAE ∧
    (∀ protocol, t.hasProtocol protocol = true ↔ ∃ r ∈ t.toList, r.key.protocol = protocol) ∧
    (∀ protocol address, (∃ ports, t.ports? protocol address = some ports) ↔
      ∃ r ∈ t.toList, r.key.protocol = protocol ∧ r.key.endpoint.address = address) ∧
    (∀ protocol address ports, t.ports? protocol address = some ports → ∀ port r,
      ports.get? port = some r ↔ r ∈ t.toList ∧ r.key = ⟨protocol, address, port⟩) ∧
    [t = t', ∀ key, t.get? key = t'.get? key, t.toList = t'.toList,
      t.size = t'.size ∧ ∀ r ∈ t.toList, t'.get? r.key = some r, s = s'].TFAE := by
  have hv := h.valid
  have hv' := h'.valid
  refine ⟨hv, h.answers, ?_, fun _ => hv.hasProtocol_iff, fun _ _ => hv.exists_ports?_iff,
    fun _ _ _ hports _ _ => hv.get?_of_ports? hports, ?_⟩
  · tfae_have 1 ↔ 3 := hv.isEmpty_iff
    tfae_have 2 ↔ 3 := List.length_eq_zero_iff
    tfae_finish
  · tfae_have 1 → 3 := fun heq => heq ▸ rfl
    tfae_have 3 → 4 := fun heq =>
      ⟨congrArg List.length heq, fun r hr => hv'.mem_toList.1 (heq ▸ hr)⟩
    tfae_have 4 → 5 := by
      rintro ⟨hsize, hfound⟩
      have hsub : s.toList ⊆ s'.toList := by
        intro r hr
        rw [← h'.toList_eq, hv'.mem_toList]
        exact hfound r (h.toList_eq ▸ hr)
      have hlength : s'.toList.length ≤ s.toList.length := by
        rw [← h.toList_eq, ← h'.toList_eq]
        exact Nat.le_of_eq hsize.symm
      have hperm := (s.nodup.subperm hsub).perm_of_length_le hlength
      exact Ascending.ext_mem fun r => hperm.mem_iff
    tfae_have 5 → 2 := by
      rintro rfl key
      rw [h.get?_eq, h'.get?_eq]
    tfae_have 2 → 1 := hv.eq_of_get? hv'
    tfae_finish

theorem index_determined_of_replaced :
    let r : DelayRule := .constant ⟨6, ⟨1, 2, 3, 4⟩, 80⟩ 1 2
    let r' : DelayRule := .constant ⟨6, ⟨1, 2, 3, 4⟩, 80⟩ 7 8
    let t := ((empty.insert r).2.insert r').2
    t.Valid ∧ t.toList = [r'] ∧ t = ofRules [r'] := by
  intro r r' t
  have hlist : t.toList = [r'] := by decide +kernel
  obtain ⟨hvalid, -, -, -, -, -, heq⟩ :=
    index_determined ((Built.new.insert r).insert r') (Built.collect [r'])
  exact ⟨hvalid, hlist, (heq.out 2 0).1 (hlist.trans (by decide +kernel))⟩

end RuleIndex

end DelayLine
