import Mathlib.Data.List.Basic
import DelayLine.Proofs.Columns
import DelayLine.RuleSet.File

/-!
# The last pair of a line

The last two fields of a line with nine have to be amounts, but the rule is that of the other seven
with the forward switch for both directions (`ofTokens_append_eq_ok_iff`). They only decide whether
the line is reported as overruled. What is reported of a file are the accepted lines before the
first that is rejected (`mem_entries_iff`), as far as their last pair is not the one that is used.
-/

namespace DelayLine

/-- Two tokens are read as the threshold and the alternate delay of a switch. -/
structure Switch.IsRead (s : Switch) (threshold alternate : Text) : Prop where
  threshold : amount? threshold = some s.threshold
  alternate : amount? alternate = some s.alternate

theorem Switch.IsRead.eq {s s' : Switch} {t x : Text} (h : s.IsRead t x) (h' : s'.IsRead t x) :
    s = s' := by
  have ht := h.threshold.symm.trans h'.threshold
  have hx := h.alternate.symm.trans h'.alternate
  cases s
  cases s'
  simp_all

namespace DelayRule

variable {head : List Text} {t x t' x' : Text} {r : DelayRule} {o : Option Overruled} {s : Switch}

theorem readSwitch_eq_ok_iff {c c' : Column} :
    (readAmount c t >>= fun threshold => readAmount c' x >>= fun alternate =>
      pure ⟨threshold, alternate⟩) = .ok s ↔ s.IsRead t x := by
  simp only [bind_eq_ok_iff, readAmount_eq_ok_iff]
  constructor
  · rintro ⟨threshold, ht, alternate, hx, h⟩
    cases h
    exact ⟨ht, hx⟩
  · exact fun h => ⟨_, h.threshold, _, h.alternate, rfl⟩

theorem readForwardSwitch_eq_ok_iff : readForwardSwitch t x = .ok s ↔ s.IsRead t x :=
  readSwitch_eq_ok_iff

theorem readReverseSwitch_eq_ok_iff : readReverseSwitch t x = .ok s ↔ s.IsRead t x :=
  readSwitch_eq_ok_iff

theorem ofTokens_append_eq_ok_iff (hhead : head.length = 5) :
    ofTokens (head ++ [t, x, t', x']) = .ok (r, o) ↔ ∃ plain used given,
      ofTokens head = .ok (plain, none) ∧ used.IsRead t x ∧ given.IsRead t' x' ∧
      r = { plain with forward.switch := used, reverse.switch := used } ∧
      o = if given = used then none else some ⟨given, used⟩ := by
  match head, hhead with
  | [p, a, n, f, b], _ =>
    simp only [List.cons_append, List.nil_append, ofTokens, bind_eq_ok_iff,
      readForwardSwitch_eq_ok_iff, readReverseSwitch_eq_ok_iff]
    constructor
    · rintro ⟨plain, hplain, used, hused, given, hgiven, h⟩
      cases h
      exact ⟨plain, used, given, ⟨plain, hplain, rfl⟩, hused, hgiven, rfl, rfl⟩
    · rintro ⟨plain, used, given, ⟨plain', hplain, h⟩, hused, hgiven, rfl, rfl⟩
      cases h
      exact ⟨plain, hplain, used, hused, given, hgiven, rfl⟩

/-- A line with nine fields whose last pair is not the one that is used. -/
def Disagrees (line : Text) (w : Overruled) : Prop :=
  ∃ head t x t' x', Text.fields line = head ++ [t, x, t', x'] ∧ head.length = 5 ∧
    w.used.IsRead t x ∧ w.given.IsRead t' x' ∧ w.given ≠ w.used

theorem eq_some_iff_disagrees {line : Text} (h : ofLine line = .ok (r, o)) {w : Overruled} :
    o = some w ↔ Disagrees line w := by
  unfold ofLine at h
  constructor
  · rintro rfl
    have hlength : (Text.fields line).length ∈ [5, 7, 9] := by
      by_contra hn
      rw [ofTokens_of_length_not_mem hn] at h
      cases h
    rcases exists_eq_of_length hlength with ⟨p, a, n, f, b, hf⟩ | ⟨p, a, n, f, b, t, x, hf⟩ |
      ⟨p, a, n, f, b, t, x, t', x', hf⟩ <;> rw [hf] at h
    · obtain ⟨_, -, h⟩ := bind_eq_ok_iff.1 h
      cases h
    · obtain ⟨_, -, h⟩ := bind_eq_ok_iff.1 h
      obtain ⟨_, -, h⟩ := bind_eq_ok_iff.1 h
      cases h
    · have hhead : [p, a, n, f, b].length = 5 := rfl
      obtain ⟨plain, used, given, -, hused, hgiven, -, ho⟩ := (ofTokens_append_eq_ok_iff hhead).1 h
      split_ifs at ho with heq
      cases ho
      exact ⟨_, t, x, t', x', hf, hhead, hused, hgiven, heq⟩
  · rintro ⟨head, t, x, t', x', hf, hhead, hused, hgiven, hne⟩
    rw [hf] at h
    obtain ⟨plain, used, given, -, hused', hgiven', -, ho⟩ :=
      (ofTokens_append_eq_ok_iff hhead).1 h
    rw [hused'.eq hused, hgiven'.eq hgiven, if_neg hne] at ho
    exact ho

end DelayRule

namespace Reading

variable {α ε : Type} {read : Text → Except ε α}

/-- A line that is text and accepted by its reader. -/
def Accepts (read : Text → Except ε α) (bytes : Bytes) (a : α) : Prop :=
  ∃ t, Text.decode bytes = some t ∧ read t = .ok a

theorem Accepts.eq {bytes : Bytes} {a b : α} (ha : Accepts read bytes a)
    (hb : Accepts read bytes b) : a = b := by
  obtain ⟨t, ht, ha⟩ := ha
  obtain ⟨u, hu, hb⟩ := hb
  rw [ht, Option.some.injEq] at hu
  rw [← hu, ha, Except.ok.injEq] at hb
  exact hb

theorem ofLines_cons_of_accepts {bytes : Bytes} {a : α} (h : Accepts read bytes a) (first : Nat)
    (ls : List Bytes) : ofLines read first (bytes :: ls) =
      ⟨(first, a) :: (ofLines read (first + 1) ls).entries,
        (ofLines read (first + 1) ls).rejected⟩ := by
  obtain ⟨t, ht, ha⟩ := h
  simp only [ofLines, ht, ha]

theorem entries_cons_of_not_accepts {bytes : Bytes} (h : ¬∃ a, Accepts read bytes a) (first : Nat)
    (ls : List Bytes) : (ofLines read first (bytes :: ls)).entries = [] := by
  simp only [ofLines]
  split
  · rfl
  · next t ht =>
    split
    · rfl
    · next a ha => exact absurd ⟨a, t, ht, ha⟩ h

/-- The reading has an entry for each line that is accepted with all the lines before it. -/
theorem mem_entries_iff {first : Nat} {ls : List Bytes} {entry : Nat × α} :
    entry ∈ (ofLines read first ls).entries ↔ ∃ before bytes after,
      ls = before ++ bytes :: after ∧ entry.1 = first + before.length ∧
      (∀ l ∈ before, ∃ a, Accepts read l a) ∧ Accepts read bytes entry.2 := by
  induction ls generalizing first with
  | nil => simp [ofLines]
  | cons l ls ih =>
    by_cases hl : ∃ a, Accepts read l a
    · obtain ⟨a, ha⟩ := hl
      rw [ofLines_cons_of_accepts ha, List.mem_cons, ih]
      constructor
      · rintro (rfl | ⟨before, bytes, after, rfl, hn, hbefore, hbytes⟩)
        · exact ⟨[], l, ls, rfl, rfl, List.forall_mem_nil _, ha⟩
        · refine ⟨l :: before, bytes, after, rfl, ?_, ?_, hbytes⟩
          · rw [hn, List.length_cons]
            omega
          · exact List.forall_mem_cons.2 ⟨⟨a, ha⟩, hbefore⟩
      · rintro ⟨_ | ⟨l', before⟩, bytes, after, hls, hn, hbefore, hbytes⟩
        · cases hls
          exact .inl (Prod.ext hn (hbytes.eq ha))
        · cases hls
          refine .inr ⟨before, bytes, after, rfl, ?_, (List.forall_mem_cons.1 hbefore).2, hbytes⟩
          rw [hn, List.length_cons]
          omega
    · rw [entries_cons_of_not_accepts hl]
      refine iff_of_false List.not_mem_nil ?_
      rintro ⟨_ | ⟨l', before⟩, bytes, after, hls, -, hbefore, hbytes⟩
      · cases hls
        exact hl ⟨_, hbytes⟩
      · cases hls
        exact hl (hbefore l List.mem_cons_self)

theorem pairwise_entries (read : Text → Except ε α) (first : Nat) (ls : List Bytes) :
    (ofLines read first ls).entries.Pairwise fun e f => e.1 < f.1 := by
  induction ls generalizing first with
  | nil => exact .nil
  | cons l ls ih =>
    by_cases hl : ∃ a, Accepts read l a
    · obtain ⟨a, ha⟩ := hl
      rw [ofLines_cons_of_accepts ha]
      refine List.pairwise_cons.2 ⟨fun e he => ?_, ih (first + 1)⟩
      obtain ⟨before, -, -, -, hn, -⟩ := mem_entries_iff.1 he
      rw [hn]
      omega
    · rw [entries_cons_of_not_accepts hl]
      exact .nil

end Reading

namespace RuleSet

theorem pairwise_warnings (content : Bytes) :
    (warnings content).Pairwise fun v w => v.1 < w.1 := by
  rw [warnings, List.pairwise_filterMap]
  refine (Reading.pairwise_entries _ _ _).imp fun hlt v hv w hw => ?_
  obtain ⟨_, -, rfl⟩ := Option.map_eq_some_iff.1 hv
  obtain ⟨_, -, rfl⟩ := Option.map_eq_some_iff.1 hw
  exact hlt

theorem mem_warnings_iff {content : Bytes} {line : Nat} {w : Overruled} :
    (line, w) ∈ warnings content ↔ ∃ before bytes after,
      Text.lines content = before ++ bytes :: after ∧ line = before.length + 1 ∧
      (∀ l ∈ before, ∃ a, Reading.Accepts DelayRule.ofLine l a) ∧
      ∃ t a, Text.decode bytes = some t ∧ DelayRule.ofLine t = .ok a ∧ DelayRule.Disagrees t w := by
  simp only [warnings, List.mem_filterMap, read, Reading.ofContent, Reading.mem_entries_iff]
  constructor
  · rintro ⟨⟨n, r, o⟩, ⟨before, bytes, after, hls, hn, hbefore, t, ht, hr⟩, hw⟩
    obtain ⟨w', ho, hw⟩ := Option.map_eq_some_iff.1 hw
    cases hw
    refine ⟨before, bytes, after, hls, hn.trans (Nat.add_comm ..), hbefore, t, _, ht, hr, ?_⟩
    exact (DelayRule.eq_some_iff_disagrees hr).1 ho
  · rintro ⟨before, bytes, after, hls, hn, hbefore, t, ⟨r, o⟩, ht, hr, hw⟩
    refine ⟨(line, r, o), ⟨before, bytes, after, hls, hn.trans (Nat.add_comm ..), hbefore, t, ht,
      hr⟩, ?_⟩
    rw [(DelayRule.eq_some_iff_disagrees hr).2 hw]
    rfl

/-- Fractions do not count, and nothing is reported behind a line that is rejected. -/
example :
    let first := "17 10.0.0.5 53 5 6 900 7 900.5 7.25\n".toList
    let second := "17 10.0.0.5 53 5 6 900 7 901 7\n".toList
    let third := "17 10.0.0.5 53 5 6 900 7 901 -7\n".toList
    warnings (Text.encode (first ++ second ++ third ++ second)) = [(2, ⟨⟨901, 7⟩, ⟨900, 7⟩⟩)] := by
  decide +kernel

end RuleSet

open DelayRule in
theorem last_pair_announced (line : Text) (content : Bytes) :
    (∀ r o, ofLine line = .ok (r, o) → ∀ head t x t' x',
      Text.fields line = head ++ [t, x, t', x'] → head.length = 5 →
      ∃ plain used, ofTokens head = .ok (plain, none) ∧ used.IsRead t x ∧
        r = { plain with forward.switch := used, reverse.switch := used } ∧
        (∀ direction carried, (r.schedule direction).after carried =
          if carried < used.threshold then (plain.schedule direction).base else used.alternate) ∧
        ∀ other u y given, Text.fields other = head ++ [t, x, u, y] → given.IsRead u y →
          ofLine other = .ok (r, if given = used then none else some ⟨given, used⟩)) ∧
    (RuleSet.warnings content).Pairwise (fun v w => v.1 < w.1) ∧
    ∀ number w, (number, w) ∈ RuleSet.warnings content ↔ ∃ before bytes after,
      Text.lines content = before ++ bytes :: after ∧ number = before.length + 1 ∧
      (∀ l ∈ before, ∃ a, Reading.Accepts ofLine l a) ∧
      ∃ text a, Text.decode bytes = some text ∧ ofLine text = .ok a ∧ Disagrees text w := by
  refine ⟨fun r o h head t x t' x' hf hhead => ?_, RuleSet.pairwise_warnings content,
    fun _ _ => RuleSet.mem_warnings_iff⟩
  rw [ofLine, hf] at h
  obtain ⟨plain, used, given, hplain, hused, -, rfl, -⟩ := (ofTokens_append_eq_ok_iff hhead).1 h
  refine ⟨plain, used, hplain, hused, rfl, ?_, fun other u y given hother hgiven => ?_⟩
  · intro direction carried
    cases direction <;> rfl
  · rw [ofLine, hother]
    exact (ofTokens_append_eq_ok_iff hhead).2 ⟨plain, used, given, hplain, hused, hgiven, rfl, rfl⟩

end DelayLine
