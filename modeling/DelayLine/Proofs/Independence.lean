import DelayLine.Proofs.Teardown

/-!
# Independent directions

The directions of a link do not see each other, in whatever order their calls are made: what a call
comes to, what is left in the queue and what is written in the end is what a queue of one direction
would have come to alone.
-/

namespace DelayLine

open LinkRun (ofDirection?)

/-- Steps of the clock are seen by both directions. Calls are compared by what was seen of them, and
so after every call. -/
theorem directions_independent {σ : Type} (rules : RuleSet) (config : LinkConfig)
    (states : Direction → σ) (readings : Readings) (actions : List (Action (Direction × Call σ))) :
    let l := LinkRun.after { link := .start rules config, states } (timed readings actions)
    let alone d := Run.perform { queue := RuleQueue.start rules d config, state := states d }
      (timed readings (actions.filterMap (ofDirection? d)))
    (∀ d, l.events d = (alone d).history ∧ l.link.queue d = (alone d).queue ∧
      l.states d = (alone d).state) ∧
    (∀ t stem, config.stem = some stem → ∀ d kind,
      let path := CounterFiles.path ⟨stem, d⟩ kind
      (l.link.close t).tree.read path = ((alone d).queue.close t).tree.read path ∧
      (l.link.drop t).tree.read path = ((alone d).queue.drop t).tree.read path) ∧
    ∀ readings' actions',
      (∀ d, timed readings' (actions'.filterMap (ofDirection? d)) =
        timed readings (actions.filterMap (ofDirection? d))) →
      let l' := LinkRun.after { link := .start rules config, states } (timed readings' actions')
      l'.link = l.link ∧ l'.states = l.states ∧ (∀ d, l'.events d = l.events d) ∧
      ∀ t, l'.link.close t = l.link.close t ∧ l'.link.drop t = l.link.drop t := by
  intro l alone
  have hprojects := LinkRun.projects_timed rules config states readings actions
  refine ⟨fun d => ⟨(hprojects d).events, (hprojects d).queue, (hprojects d).state⟩,
    fun t stem hstem d kind => ?_, fun readings' actions' h => ?_⟩
  · intro path
    have houtput := LinkRun.output_after rules config states (timed readings actions)
    have hread : (l.link.close t).tree.read path = ((alone d).queue.close t).tree.read path := by
      rw [← (hprojects d).queue]
      obtain ⟨f, hf, hpath⟩ : ∃ f ∈ (l.link.queue d).files, f.1 = path :=
        RuleQueue.exists_mem_files (by rw [houtput, hstem]; rfl) kind
      -- What was saved at a file is all that can be read there.
      have hsame := (Link.saved_close houtput d).unique (RuleQueue.saved_close (houtput d) t)
      exact hpath ▸ hsame.2 f hf
    refine ⟨hread, ?_⟩
    rw [RuleQueue.drop_eq_close, ← hread, Link.close_eq, Link.drop_eq]
  · intro l'
    have hprojects' (d : Direction) : LinkRun.Projects l' d (alone d) := by
      simpa only [h] using LinkRun.projects_timed rules config states readings' actions' d
    obtain ⟨hlink, hstates, hevents⟩ := LinkRun.ext_projects hprojects' hprojects
    refine ⟨hlink, hstates, hevents, fun t => ?_⟩
    rw [hlink]
    exact ⟨rfl, rfl⟩

end DelayLine
