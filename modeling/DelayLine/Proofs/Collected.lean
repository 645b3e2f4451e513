import Mathlib.Data.Finset.Card
import Mathlib.Logic.Equiv.Defs
import DelayLine.Proofs.Levels

/-!
# Rules collected from a list

A set that was collected from a list holds the last rule of each key (`get?_ofRules_eq`), at
whatever place of the list it stands (`get?_ofRules_eq_some_iff`). So the rules of a list may change
places as long as those with equal keys keep their order, and a set is collected again from its own
rules. Its endpoints are sorted before the equal ones among them are left out, which is why none of
them comes twice (`eraseReps_of_pairwise`).
-/

namespace DelayLine

section Runs

variable {α : Type} [BEq α] [LawfulBEq α] {rank : α → Nat}

/-- In an ascending list equals stand side by side, so one of each run is one of each. -/
theorem exists_eraseReps_loop (hrank : ∀ x y, rank x = rank y → x = y) (x : α) (xs acc : List α)
    (h : (x :: xs).Pairwise fun y z => rank y ≤ rank z) :
    ∃ ys, List.eraseRepsBy.loop (· == ·) x xs acc = acc.reverse ++ ys ∧
      ys.Pairwise (fun y z => rank y < rank z) ∧ ∀ y, y ∈ ys ↔ y ∈ x :: xs := by
  induction xs generalizing x acc with
  | nil => exact ⟨[x], by simp [List.eraseRepsBy.loop], List.pairwise_singleton _ _, by simp⟩
  | cons x' xs ih =>
    obtain ⟨hx, hxs⟩ := List.pairwise_cons.1 h
    by_cases heq : x = x'
    · subst heq
      obtain ⟨ys, hloop, hys, hmem⟩ := ih x acc hxs
      exact ⟨ys, by simpa [List.eraseRepsBy.loop] using hloop, hys, fun y => by simp [hmem]⟩
    · obtain ⟨ys, hloop, hys, hmem⟩ := ih x' (x :: acc) hxs
      have hbeq : (x == x') = false := beq_false_of_ne heq
      refine ⟨x :: ys, by simpa [List.eraseRepsBy.loop, hbeq] using hloop, ?_, by simp [hmem]⟩
      refine List.pairwise_cons.2 ⟨fun y hy => ?_, hys⟩
      have hfirst : rank x < rank x' :=
        Nat.lt_of_le_of_ne (hx x' List.mem_cons_self) fun hr => heq (hrank _ _ hr)
      rcases List.mem_cons.1 ((hmem y).1 hy) with rfl | hy
      · exact hfirst
      · exact Nat.lt_of_lt_of_le hfirst ((List.pairwise_cons.1 hxs).1 y hy)

theorem eraseReps_of_pairwise (hrank : ∀ x y, rank x = rank y → x = y) {xs : List α}
    (h : xs.Pairwise fun y z => rank y ≤ rank z) :
    xs.eraseReps.Pairwise (fun y z => rank y < rank z) ∧ ∀ y, y ∈ xs.eraseReps ↔ y ∈ xs := by
  cases xs with
  | nil => exact ⟨.nil, fun _ => Iff.rfl⟩
  | cons x xs =>
    obtain ⟨ys, hloop, hys, hmem⟩ := exists_eraseReps_loop hrank x xs [] h
    have heq : (x :: xs).eraseReps = ys := hloop
    exact heq ▸ ⟨hys, hmem⟩

end Runs

/-- Keys in the order of the protocol, of the address as a number and of the port. -/
def RuleKey.Precedes (k l : RuleKey) : Prop :=
  k.protocol < l.protocol ∨ k.protocol = l.protocol ∧
    (k.endpoint.address.number < l.endpoint.address.number ∨
      k.endpoint.address = l.endpoint.address ∧ k.endpoint.port < l.endpoint.port)

theorem RuleKey.precedes_iff {k l : RuleKey} : k.Precedes l ↔ k.rank < l.rank := by
  rw [Precedes, rank_lt_iff, Endpoint.rank_lt_iff]

namespace Ascending

variable {α : Type} {rank : α → Nat}

theorem mem_ofList_iff_getElem? {xs : List α} {x : α} :
    x ∈ (ofList xs : Ascending α rank).toList ↔
      ∃ i : Nat, xs[i]? = some x ∧ ∀ j y, i < j → xs[j]? = some y → rank y ≠ rank x := by
  rw [mem_ofList_iff]
  constructor
  · rintro ⟨before, after, rfl, hafter⟩
    refine ⟨before.length, by simp, fun j y hj hy => hafter y ?_⟩
    rw [List.getElem?_append_right (Nat.le_of_lt hj), List.getElem?_cons, if_neg (by omega)] at hy
    exact List.mem_of_getElem? hy
  · rintro ⟨i, hi, hlast⟩
    obtain ⟨hlt, rfl⟩ := List.getElem?_eq_some_iff.1 hi
    refine ⟨xs.take i, xs.drop (i + 1), ?_, fun y hy => ?_⟩
    · rw [List.getElem_cons_drop, List.take_append_drop]
    · obtain ⟨j, hj⟩ := List.mem_iff_getElem?.1 hy
      rw [List.getElem?_drop] at hj
      exact hlast _ y (by omega) hj

end Ascending

namespace RuleIndex

variable {t : RuleIndex} {rules : List DelayRule} {key : RuleKey} {r : DelayRule}

theorem get?_ofRules_eq (rules : List DelayRule) (key : RuleKey) :
    (ofRules rules).get? key = (rules.filter fun r => r.key = key).getLast? := by
  have hkey (r : DelayRule) : (r.key.rank == key.rank) = decide (r.key = key) := by
    rw [Bool.eq_iff_iff, beq_iff_eq, decide_eq_true_iff]
    exact ⟨RuleKey.rank_injective, congrArg _⟩
  rw [get?_ofRules, RuleSet.get?, Ascending.ofList, Ascending.find?_extend, Ascending.find?_empty,
    Option.or_none, List.getLast?_filter]
  simp only [hkey]

theorem get?_ofRules_eq_some_iff : (ofRules rules).get? key = some r ↔
    ∃ i : Nat, rules[i]? = some r ∧ r.key = key ∧
      ∀ j q, i < j → rules[j]? = some q → q.key ≠ key := by
  rw [get?_ofRules, RuleSet.get?_eq_some_iff, Ascending.mem_ofList_iff_getElem?]
  constructor
  · rintro ⟨⟨i, hi, hlast⟩, rfl⟩
    exact ⟨i, hi, rfl, fun j q hj hq hk => hlast j q hj hq (congrArg _ hk)⟩
  · rintro ⟨i, hi, rfl, hlast⟩
    exact ⟨⟨i, hi, fun j q hj hq hr => hlast j q hj hq (RuleKey.rank_injective hr)⟩, rfl⟩

theorem valid_ofRules (rules : List DelayRule) : (ofRules rules).Valid := valid_empty.extend rules

/-- Rules change places, and those with equal keys keep their order. -/
theorem ofRules_ofFn {σ : Equiv.Perm (Fin rules.length)}
    (h : ∀ i j, i < j → rules[i].key = rules[j].key → σ i < σ j) :
    ofRules (List.ofFn fun i => rules[σ.symm i]) = ofRules rules := by
  set moved := List.ofFn fun i => rules[σ.symm i]
  have hto (i : Fin rules.length) : moved[(σ i).val]? = some rules[i] := by
    simp [moved]
  have hfrom {k : Nat} {q : DelayRule} (hq : moved[k]? = some q) :
      ∃ i, k = (σ i).val ∧ q = rules[i] := by
    obtain ⟨hk, rfl⟩ := List.getElem?_eq_some_iff.1 hq
    have hk' : k < rules.length := by simpa [moved] using hk
    exact ⟨σ.symm ⟨k, hk'⟩, by simp, by simp [moved]⟩
  refine (valid_ofRules _).eq_of_get? (valid_ofRules _) fun key => Option.ext fun r => ?_
  rw [get?_ofRules_eq_some_iff, get?_ofRules_eq_some_iff]
  constructor
  · rintro ⟨k, hk, hkey, hlast⟩
    obtain ⟨i, rfl, rfl⟩ := hfrom hk
    refine ⟨i, by simp, hkey, fun j q hij hq hqk => ?_⟩
    obtain ⟨hj, rfl⟩ := List.getElem?_eq_some_iff.1 hq
    exact hlast _ _ (h i ⟨j, hj⟩ hij (hkey.trans hqk.symm)) (hto ⟨j, hj⟩) hqk
  · rintro ⟨i, hi, hkey, hlast⟩
    obtain ⟨hlt, rfl⟩ := List.getElem?_eq_some_iff.1 hi
    refine ⟨_, hto ⟨i, hlt⟩, hkey, fun k q hik hq hqk => ?_⟩
    obtain ⟨j, rfl, rfl⟩ := hfrom hq
    -- The rule at `j` was not behind the last one, and so it is not now.
    rcases Nat.lt_trichotomy i j with hij | rfl | hji
    · exact hlast j _ hij (by simp) hqk
    · exact absurd hik (Nat.lt_irrefl _)
    · exact absurd (h j ⟨i, hlt⟩ hji (hqk.trans hkey.symm)) (Nat.lt_asymm hik)

theorem mem_map_key_iff {key : RuleKey} :
    key ∈ (ofRules rules).toList.map DelayRule.key ↔ key ∈ rules.map DelayRule.key := by
  have hget : (∃ r ∈ (ofRules rules).toList, r.key = key) ↔
      ∃ r, (ofRules rules).get? key = some r :=
    exists_congr fun _ => (valid_ofRules rules).get?_eq_some_iff.symm
  rw [List.mem_map, List.mem_map, hget, get?_ofRules_eq, ← Option.isSome_iff_exists,
    List.getLast?_isSome]
  simp [List.filter_eq_nil_iff]

theorem size_ofRules (rules : List DelayRule) :
    (ofRules rules).size = (rules.map DelayRule.key).toFinset.card := by
  have hnodup : ((ofRules rules).toList.map DelayRule.key).Nodup :=
    List.pairwise_map.2 ((valid_ofRules rules).pairwise_toList.imp fun hlt heq =>
      Nat.ne_of_lt hlt (congrArg RuleKey.rank heq))
  have hkeys : ((ofRules rules).toList.map DelayRule.key).toFinset =
      (rules.map DelayRule.key).toFinset :=
    Finset.ext fun key => by rw [List.mem_toFinset, List.mem_toFinset, mem_map_key_iff]
  rw [← hkeys, List.toFinset_card_of_nodup hnodup, List.length_map, size]

namespace Valid

theorem mem_toList_insert (h : t.Valid) {q : DelayRule} : q ∈ (t.insert r).2.toList ↔
    q = r ∨ q ∈ t.toList ∧ some q ≠ (t.insert r).1 := by
  rw [(h.insert r).mem_toList, h.mem_toList, get?_insert, fst_insert]
  by_cases hkey : r.key = q.key
  · rw [if_pos hkey, hkey, Option.some.injEq, eq_comm]
    exact (or_iff_left fun hq => hq.2 hq.1.symm).symm
  · rw [if_neg hkey]
    constructor
    · exact fun hq => .inr ⟨hq, fun hr => hkey (h.key_eq hr.symm).symm⟩
    · rintro (rfl | hq)
      · exact absurd rfl hkey
      · exact hq.1

theorem ofList_toList (h : t.Valid) : (.ofList t.toList : RuleSet) = h.ruleSet :=
  Ascending.ext (Ascending.toList_ofList h.pairwise_toList)

theorem ofRules_toList (h : t.Valid) : ofRules t.toList = t :=
  (valid_ofRules _).eq_of_get? h fun key => by
    rw [get?_ofRules, h.ofList_toList, h.get?_ruleSet]

theorem extend_toList (h : t.Valid) : t.extend t.toList = t := by
  refine (h.extend _).eq_of_get? h fun key => ?_
  have hfind : h.ruleSet.find? key.rank = t.get? key := h.get?_ruleSet key
  rw [get?_extend (fun key => (h.get?_ruleSet key).symm), RuleSet.get?,
    Ascending.find?_extend_eq_or, h.ofList_toList, hfind, Option.or_self]

end Valid

theorem endpoints_sorted (t : RuleIndex) : t.endpoints.Pairwise (fun e f => e.rank < f.rank) ∧
    ∀ e, e ∈ t.endpoints ↔ ∃ r ∈ t.toList, r.key.endpoint = e := by
  have htrans (a b c : Endpoint) (hab : decide (a.rank ≤ b.rank) = true)
      (hbc : decide (b.rank ≤ c.rank) = true) : decide (a.rank ≤ c.rank) = true :=
    decide_eq_true (Nat.le_trans (of_decide_eq_true hab) (of_decide_eq_true hbc))
  have htotal (a b : Endpoint) : (decide (a.rank ≤ b.rank) || decide (b.rank ≤ a.rank)) = true := by
    simpa using Nat.le_total a.rank b.rank
  have hsorted := List.pairwise_mergeSort htrans htotal (t.toList.map fun r => r.key.endpoint)
  obtain ⟨hpairwise, hmem⟩ := eraseReps_of_pairwise (fun _ _ => Endpoint.rank_injective)
    (hsorted.imp of_decide_eq_true)
  exact ⟨hpairwise, fun e => by rw [endpoints, hmem, List.mem_mergeSort, List.mem_map]⟩

theorem Built.endpoints_eq {s : RuleSet} (h : Built t s) : t.endpoints = s.endpoints := by
  obtain ⟨hpairwise, hmem⟩ := t.endpoints_sorted
  have heq : (⟨t.endpoints, hpairwise⟩ : Ascending Endpoint Endpoint.rank) =
      .ofList (s.toList.map fun r => r.key.endpoint) := Ascending.ext_mem fun e => by
    rw [hmem, h.toList_eq]
    exact RuleSet.mem_endpoints.symm
  exact congrArg Ascending.toList heq

/-- The set that is collected from a list of rules: what is found in it, in which order it lists its
rules and endpoints, and which other lists give the same set. -/
theorem last_rule_wins (rules : List DelayRule) :
    let t := ofRules rules
    (∀ key, t.get? key = (rules.filter fun r => r.key = key).getLast?) ∧
    (∀ r, (t.insert r).1 = (rules.filter fun q => q.key = r.key).getLast? ∧
      ∀ q, q ∈ (t.insert r).2.toList ↔ q = r ∨ q ∈ t.toList ∧ some q ≠ (t.insert r).1) ∧
    (∀ r, r ∈ t.toList ↔ (rules.filter fun q => q.key = r.key).getLast? = some r) ∧
    t.toList.Pairwise (fun r r' => r.key.Precedes r'.key) ∧
    t.size = (rules.map DelayRule.key).toFinset.card ∧
    (∀ σ : Equiv.Perm (Fin rules.length),
      (∀ i j, i < j → rules[i].key = rules[j].key → σ i < σ j) →
        ofRules (List.ofFn fun i => rules[σ.symm i]) = t) ∧
    (∀ a b, (t.extend a).extend b = t.extend (a ++ b)) ∧
    ofRules t.toList = t ∧ t.extend t.toList = t ∧
    t.endpoints.Pairwise (fun e f => e.address.number < f.address.number ∨
      e.address = f.address ∧ e.port < f.port) ∧
    (∀ e, e ∈ t.endpoints ↔ ∃ r ∈ t.toList, r.key.endpoint = e) ∧
    t.Answers (.ofList rules) ∧ t.endpoints = RuleSet.endpoints (.ofList rules) := by
  intro t
  have hvalid : t.Valid := valid_ofRules rules
  have hbuilt : Built t (.ofList rules) := .collect rules
  obtain ⟨hpairwise, hmem⟩ := t.endpoints_sorted
  refine ⟨get?_ofRules_eq rules, fun r => ⟨?_, fun q => hvalid.mem_toList_insert⟩, fun r => ?_,
    hvalid.pairwise_toList.imp RuleKey.precedes_iff.2, size_ofRules rules, fun σ => ofRules_ofFn,
    fun a b => List.foldl_append.symm, hvalid.ofRules_toList, hvalid.extend_toList,
    hpairwise.imp Endpoint.rank_lt_iff.1, hmem, hbuilt.answers, hbuilt.endpoints_eq⟩
  · rw [fst_insert, get?_ofRules_eq]
  · rw [hvalid.mem_toList, get?_ofRules_eq]

end RuleIndex

end DelayLine
