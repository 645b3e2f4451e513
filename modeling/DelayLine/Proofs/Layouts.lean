import Mathlib.Data.List.TFAE
import Mathlib.Tactic.TFAE
import DelayLine.Proofs.Rereading

/-!
# The rules that lines can hold

The rules that can be read from a line are those whose reverse switch a line can hold. Their own
lines are read as them, and no line that is read as such a rule has fewer columns than the rule's
own (`DelayRule.Layout.length_tokens_le`), also where the rule can be read from several layouts
because a switch is the one that is put in its place when it is left out.
-/

namespace DelayLine.DelayRule

variable {r : DelayRule} {n : Nat}

theorem length_tokens (r : DelayRule) : r.tokens.length =
    5 + (if r.showsForward then 2 else 0) + (if r.showsReverse then 2 else 0) := by
  rw [tokens_eq, List.length_append, List.length_append, apply_ite List.length,
    apply_ite List.length]
  rfl

theorem Layout.length_tokens_le (h : Layout n r) : r.tokens.length ≤ n := by
  cases h with
  | five key f b =>
    rw [tokens_constant]
    exact Nat.le_refl 5
  | seven key f b used =>
    have hreverse : ¬showsReverse ⟨key, ⟨f, used⟩, .constant b⟩ = true := fun h =>
      showsReverse_iff.1 h rfl
    rw [length_tokens, if_neg hreverse]
    split_ifs <;> omega
  | nine =>
    rw [length_tokens]
    split_ifs <;> omega

theorem exists_ofLine_render_iff : (∃ o, ofLine r.render = .ok (r, o)) ↔ r.FitsLine := by
  simp only [ofLine_render, Except.ok.injEq, Prod.mk.injEq, exists_and_left, exists_eq', and_true,
    reread_eq_self_iff]

theorem readable_tfae (r : DelayRule) :
    List.TFAE [∃ line o, ofLine line = .ok (r, o), ∃ o, ofLine r.render = .ok (r, o),
      r.reverse = .constant r.reverse.base ∨ r.reverse.switch = r.forward.switch] ∧
    ∀ line o, ofLine line = .ok (r, o) →
      (Text.fields r.render).length ≤ (Text.fields line).length := by
  constructor
  · tfae_have 1 → 3 := fun ⟨_, _, h⟩ => fitsLine_iff.1 (layout_of_ofTokens h).fitsLine
    tfae_have 3 → 2 := fun h => exists_ofLine_render_iff.2 (fitsLine_iff.2 h)
    tfae_have 2 → 1 := fun ⟨o, h⟩ => ⟨r.render, o, h⟩
    tfae_finish
  · intro line o h
    rw [fields_render]
    exact (layout_of_ofTokens h).length_tokens_le

/-- A rule that never switches, in a line that shows it a switch. -/
theorem readable_tfae_of_spare_columns :
    let line := "17 10.0.0.5 53 5.5 6 18446744073709551615 5".toList
    let r : DelayRule := .constant ⟨17, ⟨10, 0, 0, 5⟩, 53⟩ 5 6
    ofLine line = .ok (r, none) ∧ (∃ o, ofLine r.render = .ok (r, o)) ∧
    (Text.fields line).length = 7 ∧ (Text.fields r.render).length = 5 ∧
    (Text.fields r.render).length ≤ (Text.fields line).length := by
  intro line r
  have hread : (ofLine line).toOption = some (r, none) := by decide +kernel
  have hline : ofLine line = .ok (r, none) := by
    rcases h : ofLine line with fault | read <;> rw [h] at hread
    · cases hread
    · exact congrArg Except.ok (Option.some.inj hread)
  obtain ⟨htfae, hlength⟩ := readable_tfae r
  have hrender := htfae.out 0 1
  exact ⟨hline, hrender.1 ⟨line, none, hline⟩, by decide, by decide +kernel,
    hlength line none hline⟩

end DelayLine.DelayRule
