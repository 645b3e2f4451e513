import DelayLine.CommandLine.Run
import DelayLine.Proofs.Siblings

/-!
# What a command leaves behind

A command reads its file to the end before it prints or creates anything. So it either did all of
its work, which `Command.Performs` describes by what can be seen of it (`Command.performs_of_run`),
or it failed and left no trace, and then its work could not be done
(`Command.exists_run_of_performs`).
-/

namespace DelayLine

theorem map_mapError_eq_ok_iff {α β ε ε' : Type} {x : Except ε α} {f : ε → ε'} {g : α → β} {b : β} :
    (x.mapError f).map g = .ok b ↔ ∃ a, x = .ok a ∧ g a = b := by
  cases x <;> simp [Except.mapError, Except.map]

theorem FileTree.create_eq_ok_iff {t t' : FileTree} {path : Text} {content : Bytes} :
    t.create path content = .ok t' ↔
      ∃ place, t.placeOf path = .ok place ∧ t.put place (.file content) = t' := by
  rw [create, bind_eq_ok_iff]
  simp [pure, Except.pure]

namespace Command

/-- What was printed and which files there are after a command has done its work: the file that
it saves holds the text, and all else is as it was. -/
inductive Performs (t : FileTree) : Command → Text → FileTree → Prop
  | table {file content s} : t.read file = .ok content → RuleSet.parse content = .ok s →
      Performs t (.table file) s.table t
  | canonical {file content s} : t.read file = .ok content → RuleSet.parse content = .ok s →
      Performs t (.canonical file) s.render t
  | print {file content profile records} : t.read file = .ok content →
      RoundTrip.parse content = .ok records →
      Performs t (.generate file profile none) (RoundTrip.rules profile records).render t
  | save {file content profile records path place t'} : t.read file = .ok content →
      RoundTrip.parse content = .ok records → t.placeOf path = .ok place →
      t'.find? place = some (.file (Text.encode (RoundTrip.rules profile records).render)) →
      t'.read path = .ok (Text.encode (RoundTrip.rules profile records).render) →
      (∀ p, p ≠ place → t'.find? p = t.find? p) → t'.home = t.home →
      Performs t (.generate file profile (some path)) [] t'

variable {c : Command} {t t' : FileTree} {content : Bytes} {path text : Text} {o : Outcome}

theorem effect_eq_print_iff : c.effect content = .ok (.print text) ↔
    (∃ file s, c = .table file ∧ RuleSet.parse content = .ok s ∧ s.table = text) ∨
    (∃ file s, c = .canonical file ∧ RuleSet.parse content = .ok s ∧ s.render = text) ∨
    ∃ file profile records, c = .generate file profile none ∧
      RoundTrip.parse content = .ok records ∧ (RoundTrip.rules profile records).render = text := by
  rcases c with file | file | ⟨file, profile, _ | path⟩ <;>
    simp [effect, map_mapError_eq_ok_iff, and_assoc]

theorem effect_eq_save_iff : c.effect content = .ok (.save path text) ↔
    ∃ file profile records, c = .generate file profile (some path) ∧
      RoundTrip.parse content = .ok records ∧ (RoundTrip.rules profile records).render = text := by
  rcases c with file | file | ⟨file, profile, _ | output⟩ <;>
    simp [effect, map_mapError_eq_ok_iff, and_assoc, and_left_comm]

theorem performs_of_run (h : c.run t = .ok o) : c.Performs t o.output o.tree := by
  obtain ⟨content, hread, ⟨text, he, rfl⟩ | ⟨path, text, t', he, hcreate, rfl⟩⟩ := run_eq_ok_iff.1 h
  · obtain ⟨_, _, rfl, hs, rfl⟩ | ⟨_, _, rfl, hs, rfl⟩ | ⟨_, _, _, rfl, hr, rfl⟩ :=
      effect_eq_print_iff.1 he
    · exact .table hread hs
    · exact .canonical hread hs
    · exact .print hread hr
  · obtain ⟨_, _, _, rfl, hr, rfl⟩ := effect_eq_save_iff.1 he
    obtain ⟨place, hplace, rfl⟩ := FileTree.create_eq_ok_iff.1 hcreate
    have hne := FileTree.ne_nil_of_placeOf hplace
    refine .save hread hr hplace ?_ (FileTree.read_put_self hplace) (fun p hp => ?_) rfl
    · rw [FileTree.find?_put hne, if_pos rfl]
    · rw [FileTree.find?_put hne, if_neg hp]

/-- A command whose work can be done does not fail. -/
theorem exists_run_of_performs {output : Text} (h : c.Performs t output t') :
    ∃ o, c.run t = .ok o := by
  cases h with
  | table hread hs =>
    exact ⟨_, run_eq_ok_iff.2 ⟨_, hread,
      .inl ⟨_, effect_eq_print_iff.2 (.inl ⟨_, _, rfl, hs, rfl⟩), rfl⟩⟩⟩
  | canonical hread hs =>
    exact ⟨_, run_eq_ok_iff.2 ⟨_, hread,
      .inl ⟨_, effect_eq_print_iff.2 (.inr (.inl ⟨_, _, rfl, hs, rfl⟩)), rfl⟩⟩⟩
  | print hread hr =>
    exact ⟨_, run_eq_ok_iff.2 ⟨_, hread,
      .inl ⟨_, effect_eq_print_iff.2 (.inr (.inr ⟨_, _, _, rfl, hr, rfl⟩)), rfl⟩⟩⟩
  | save hread hr hplace =>
    exact ⟨_, run_eq_ok_iff.2 ⟨_, hread,
      .inr ⟨_, _, _, effect_eq_save_iff.2 ⟨_, _, _, rfl, hr, rfl⟩,
        FileTree.create_eq_ok_iff.2 ⟨_, hplace, rfl⟩, rfl⟩⟩⟩

end Command

/-- A run that fails leaves no trace, one that does not has done its command's work, and no run
fails whose work can be done. -/
theorem failures_without_effects (args : List Text) (t : FileTree) :
    let o := Command.runArguments args t
    (o.status ≠ 0 → o.output = [] ∧ o.tree = t) ∧
    (o.status = 0 → Command.parse args = .error .help ∨ Command.parse args = .error .version ∨
      ∃ c, Command.parse args = .ok c ∧ c.Performs t o.output o.tree) ∧
    ∀ c, Command.parse args = .ok c → o.status ≠ 0 → ∀ output t', ¬c.Performs t output t' := by
  intro o
  refine ⟨Command.runArguments_of_status_ne_zero, fun hstatus => ?_, ?_⟩
  · rcases hparse : Command.parse args with stop | c
    · have ho : o = ⟨stop.answer.1, stop.answer.2, t⟩ := Command.runArguments_of_stop hparse
      cases stop with
      | help => exact .inl rfl
      | version => exact .inr (.inl rfl)
      | misuse =>
        have : (2 : UInt8) = 0 := (congrArg Command.Outcome.status ho).symm.trans hstatus
        exact absurd this (by decide)
    rcases hrun : c.run t with failure | outcome
    · have ho : o = ⟨1, [], t⟩ := Command.runArguments_of_failure hparse hrun
      have : (1 : UInt8) = 0 := (congrArg Command.Outcome.status ho).symm.trans hstatus
      exact absurd this (by decide)
    · have ho : o = outcome := Command.runArguments_of_run hparse hrun
      exact .inr (.inr ⟨c, rfl, ho ▸ Command.performs_of_run hrun⟩)
  · intro c hparse hstatus output t' hperforms
    obtain ⟨outcome, hrun⟩ := Command.exists_run_of_performs hperforms
    have ho : o = outcome := Command.runArguments_of_run hparse hrun
    exact hstatus (ho ▸ Command.status_of_run_eq_ok hrun)

/-- Rules made from a file and saved in the same file, which is kept where its last line is bad. -/
theorem failures_without_effects_of_overwrite :
    let args := ["gen", "./r", "-or"].map String.toList
    let tree (content : String) : FileTree :=
      .put {} ["r".toList] (.file (Text.encode content.toList))
    let bad := tree "10.0.0.6 80 100\n10.0.0.5 443\n"
    let good := tree "10.0.0.6 80 100\n10.0.0.5 443 39.2\n"
    let saved := tree "6 10.0.0.5 443 20 20\n6 10.0.0.6 80 50 50\n"
    let c := Command.generate "./r".toList .base (some "r".toList)
    (Command.runArguments args bad = ⟨1, [], bad⟩ ∧
      ∀ output t', ¬c.Performs bad output t') ∧
    Command.runArguments args good = ⟨0, [], saved⟩ ∧ c.Performs good [] saved := by
  intro args tree bad good saved c
  have hparse : Command.parse args = .ok c := rfl
  have hbad : (Command.runArguments args bad).status = 1 := by decide +kernel
  have hgood : Command.runArguments args good = ⟨0, [], saved⟩ := by decide +kernel
  have hfailed : (Command.runArguments args bad).status ≠ 0 := hbad ▸ by decide
  obtain ⟨hkept, -, hnone⟩ := failures_without_effects args bad
  obtain ⟨-, hdone, -⟩ := failures_without_effects args good
  obtain ⟨houtput, htree⟩ := hkept hfailed
  refine ⟨⟨?_, hnone c hparse hfailed⟩, hgood, ?_⟩
  · generalize Command.runArguments args bad = o at hbad houtput htree ⊢
    obtain ⟨status, output, left⟩ := o
    rw [Command.Outcome.mk.injEq]
    exact ⟨hbad, houtput, htree⟩
  rw [hgood, hparse] at hdone
  obtain h | h | ⟨c', hc, hperforms⟩ := hdone rfl
  · cases h
  · cases h
  · cases hc
    exact hperforms

end DelayLine
