import DelayLine.Proofs.LinkRun
import DelayLine.Proofs.Metering
import DelayLine.Proofs.Siblings

/-!
# Teardown

A queue that is torn down writes its counters once, in order, up to the first file that has no
place. Closing and dropping differ in who hears of a fault, and what is dropped after it was closed
writes nothing more (`RuleQueue.drop_persist`). A link tears down both of its queues, and each
leaves what it leaves on its own (`Link.saved_close`). The counters have a line for each endpoint of
the rules, whatever traffic there was (`Run.Metered.renderBy_eq`).
-/

namespace DelayLine

open FileTree (Siblings Saved)

/-- A line for each endpoint of the rules, in order, with a number that belongs to it. -/
def RuleSet.report (rules : RuleSet) (count : Endpoint → Nat) : Text :=
  rules.endpoints.flatMap fun e => e.render ++ ' ' :: Numeral.render (count e) ++ ['\n']

/-- What counter files have to say in the end, in the order in which they are written. -/
def CounterFiles.reports (f : CounterFiles) (rules : RuleSet) (q : RuleQueue) :
    List (Text × Bytes) :=
  [(f.path .total, Text.encode (Numeral.render q.totalBytes.toNat ++ ['\n'])),
    (f.path .bytes, Text.encode (rules.report fun e => (q.counters.tally e).bytes.toNat)),
    (f.path .packets, Text.encode (rules.report fun e => (q.counters.tally e).packets.toNat))]

/-- The faults of a result that nobody is told of. -/
def faults : Except PersistFault Unit → List PersistFault
  | .ok () => []
  | .error fault => [fault]

namespace RuleQueue

/-- What a queue writes when it is torn down, in order. -/
def files (q : RuleQueue) : List (Text × Bytes) :=
  q.output.elim [] fun f => f.contents q.totalBytes q.counters

theorem persist_eq (q : RuleQueue) (t : FileTree) : q.persist t =
    ((t.createAll q.files).1, { q with output := none }, (t.createAll q.files).2) := by
  obtain ⟨classifier, counters, pending, total, output⟩ := q
  cases output <;> rfl

theorem drop_eq (q : RuleQueue) (t : FileTree) :
    q.drop t = ⟨.ok (), faults (t.createAll q.files).1, (t.createAll q.files).2⟩ := by
  rw [drop, persist_eq]
  cases (t.createAll q.files).1 <;> rfl

/-- The drop after closing has nothing left to write. -/
theorem drop_persist (q : RuleQueue) (t t' : FileTree) :
    (q.persist t).2.1.drop t' = ⟨.ok (), [], t'⟩ := by
  rw [persist_eq]
  rfl

theorem close_eq (q : RuleQueue) (t : FileTree) :
    q.close t = ⟨(t.createAll q.files).1, [], (t.createAll q.files).2⟩ := by
  simp only [close, drop_persist]
  rw [persist_eq]

theorem tree_close (q : RuleQueue) (t : FileTree) :
    (q.close t).tree = (t.createAll q.files).2 := by
  rw [close_eq]

theorem logged_close (q : RuleQueue) (t : FileTree) : (q.close t).logged = [] := by
  rw [close_eq]

theorem close_of_files_eq_nil {q : RuleQueue} (h : q.files = []) (t : FileTree) :
    q.close t = ⟨.ok (), [], t⟩ := by
  rw [close_eq, h]
  rfl

theorem drop_eq_close (q : RuleQueue) (t : FileTree) :
    q.drop t = ⟨.ok (), faults (q.close t).result, (q.close t).tree⟩ := by
  rw [drop_eq, close_eq]

end RuleQueue

section Output

variable {q r : RuleQueue} {stem? : Option Text} {d e : Direction} {f g : Text × Bytes}

theorem RuleQueue.exists_of_mem_files (h : q.output = stem?.map fun stem => ⟨stem, d⟩)
    (hf : f ∈ q.files) :
    ∃ stem kind, stem? = some stem ∧ f.1 = CounterFiles.path ⟨stem, d⟩ kind := by
  rw [RuleQueue.files, h] at hf
  cases stem? with
  | none => cases hf
  | some stem =>
    obtain ⟨kind, -, rfl⟩ := List.mem_map.1 hf
    exact ⟨stem, kind, rfl, rfl⟩

theorem RuleQueue.exists_mem_files {files : CounterFiles} (h : q.output = some files)
    (kind : CounterKind) : ∃ f ∈ q.files, f.1 = files.path kind := by
  rw [RuleQueue.files, h]
  exact ⟨_, List.mem_map_of_mem (by cases kind <;> decide), rfl⟩

theorem RuleQueue.pairwise_files (h : q.output = stem?.map fun stem => ⟨stem, d⟩) :
    q.files.Pairwise fun f g => Siblings f.1 g.1 ∧ f.1 ≠ g.1 := by
  rw [files, h]
  cases stem? with
  | none => exact .nil
  | some stem =>
    have hkinds : [CounterKind.total, .bytes, .packets].Pairwise (· ≠ ·) := by decide
    exact List.pairwise_map.2 (hkinds.imp fun hne =>
      ⟨CounterFiles.siblings_path stem d d _ _, fun he => hne (CounterFiles.path_inj.1 he).2⟩)

/-- Files of both directions do not meet. -/
theorem RuleQueue.siblings_of_mem_files (hq : q.output = stem?.map fun stem => ⟨stem, d⟩)
    (hr : r.output = stem?.map fun stem => ⟨stem, e⟩) (hde : d ≠ e) (hf : f ∈ q.files)
    (hg : g ∈ r.files) : Siblings f.1 g.1 ∧ f.1 ≠ g.1 := by
  obtain ⟨stem, k, hstem, hk⟩ := exists_of_mem_files hq hf
  obtain ⟨_, l, hstem', hl⟩ := exists_of_mem_files hr hg
  cases hstem.symm.trans hstem'
  rw [hk, hl]
  refine ⟨CounterFiles.siblings_path stem d e k l, fun he => hde ?_⟩
  exact congrArg CounterFiles.direction (CounterFiles.path_inj.1 he).1

end Output

namespace Run

variable {σ : Type} {r : Run RuleQueue σ} {c : Classifier}

/-- There is a tally for each endpoint of the rules, and no other. -/
theorem Metered.map_endpoint_eq (h : Metered c r) :
    r.queue.counters.toList.map Tally.endpoint = c.rules.endpoints :=
  Counters.map_endpoint_eq h.seeded

theorem Metered.renderBy_eq (h : Metered c r) (count : Tally → UInt64) :
    r.queue.counters.renderBy count =
      c.rules.report fun e => (count (r.queue.counters.tally e)).toNat := by
  rw [RuleSet.report, ← h.map_endpoint_eq, List.flatMap_map, Counters.renderBy]
  refine List.flatMap_congr fun t ht => ?_
  have : r.queue.counters.tally t.endpoint = t := by
    rw [Counters.tally, Counters.tally?_eq_some_iff.2 ⟨ht, rfl⟩, Option.getD_some]
  rw [this]

/-- The books of a queue and the place for them. -/
structure Booked (rules : RuleSet) (d : Direction) (config : LinkConfig)
    (r : Run RuleQueue σ) : Prop where
  metered : Metered ⟨rules, d, config.defaultDelay⟩ r
  output : r.queue.output = config.stem.map fun stem => ⟨stem, d⟩

variable {rules : RuleSet} {d : Direction} {config : LinkConfig}

theorem booked_start (rules : RuleSet) (d : Direction) (config : LinkConfig) (state : σ) :
    Booked rules d config { queue := RuleQueue.start rules d config, state } :=
  ⟨metered_start .., rfl⟩

theorem booked_step (h : Booked rules d config r) (clock : Nat → Millis) (call : Call σ) :
    Booked rules d config (r.step clock call) := by
  have hm := meters_step clock r call
  refine ⟨metered_step h.metered hm, ?_⟩
  rw [← h.output]
  cases hm with
  | quiet _ hq => rw [hq]
  | refuse _ _ hq => rw [hq]
  | take _ _ _ _ hq => rw [hq]

theorem Booked.files_eq (h : Booked rules d config r) :
    r.queue.files =
      config.stem.elim [] fun stem => CounterFiles.reports ⟨stem, d⟩ rules r.queue := by
  rw [RuleQueue.files, h.output]
  cases config.stem with
  | none => rfl
  | some stem =>
    simp only [Option.map_some, Option.elim_some, CounterFiles.contents, CounterFiles.text,
      h.metered.renderBy_eq]
    rfl

end Run

namespace LinkRun

variable {σ : Type} (rules : RuleSet) (config : LinkConfig) (states : Direction → σ)
  (calls : List (Readings × Direction × Call σ)) (d : Direction)

theorem exists_booked :
    ∃ r : Run RuleQueue σ, r.Booked rules d config ∧
      (after { link := .start rules config, states } calls).link.queue d = r.queue := by
  have hprojects := projects_after (projects_start rules config states d) calls
  exact ⟨_, Run.perform_induction (Run.booked_start rules d config (states d))
    (fun _ clock c h => Run.booked_step h clock c) _, hprojects.queue⟩

theorem output_after :
    ((after { link := .start rules config, states } calls).link.queue d).output =
      config.stem.map fun stem => ⟨stem, d⟩ := by
  obtain ⟨r, h, hq⟩ := exists_booked rules config states calls d
  rw [hq, h.output]

theorem files_after :
    ((after { link := .start rules config, states } calls).link.queue d).files =
      config.stem.elim [] fun stem => CounterFiles.reports ⟨stem, d⟩ rules
        ((after { link := .start rules config, states } calls).link.queue d) := by
  obtain ⟨r, h, hq⟩ := exists_booked rules config states calls d
  rw [hq, h.files_eq]

end LinkRun

theorem RuleQueue.saved_close {q : RuleQueue} {stem? : Option Text} {d : Direction}
    (h : q.output = stem?.map fun stem => ⟨stem, d⟩) (t : FileTree) :
    Saved t (q.close t).tree q.files (q.close t).result := by
  rw [close_eq]
  exact FileTree.saved_createAll (pairwise_files h)

theorem RuleQueue.find?_close {q : RuleQueue} {stem? : Option Text} {d : Direction}
    (h : q.output = stem?.map fun stem => ⟨stem, d⟩) {t : FileTree} {place : Path}
    (hplace : ∀ f ∈ q.files, t.placeOf f.1 ≠ .ok place) :
    (q.close t).tree.find? place = t.find? place := by
  rw [close_eq]
  exact FileTree.find?_createAll ((pairwise_files h).imp And.left) hplace

namespace Link

theorem close_eq (l : Link) (t : FileTree) :
    let up := l.uplink.close t
    let down := l.downlink.close up.tree
    l.close t = ⟨up.result.bind fun _ => down.result,
      match up.result with
      | .ok () => []
      | .error _ => faults down.result,
      down.tree⟩ := by
  unfold close
  simp only [RuleQueue.drop_eq_close, RuleQueue.logged_close]
  rcases (l.uplink.close t).result with fault | ⟨⟩ <;> rfl

theorem drop_eq (l : Link) (t : FileTree) :
    let up := l.uplink.close t
    let down := l.downlink.close up.tree
    l.drop t = ⟨.ok (), faults up.result ++ faults down.result, down.tree⟩ := by
  simp only [drop, RuleQueue.drop_eq_close]

variable {l : Link} {stem? : Option Text} {t : FileTree}
  (h : ∀ d, (l.queue d).output = stem?.map fun stem => ⟨stem, d⟩)

include h

theorem siblings_of_mem_files {f g : Text × Bytes} (hf : f ∈ l.uplink.files)
    (hg : g ∈ l.downlink.files) : Siblings f.1 g.1 ∧ f.1 ≠ g.1 :=
  RuleQueue.siblings_of_mem_files (h .uplink) (h .downlink) (by decide) hf hg

/-- The uplink does not stand in the way of the downlink. -/
theorem saved_downlink :
    Saved t (l.close t).tree l.downlink.files
      (l.downlink.close (l.uplink.close t).tree).result := by
  rw [close_eq]
  refine (RuleQueue.saved_close (h .downlink) _).congr (fun g hg => ?_) (fun g hg => ?_)
    fun _ _ => rfl <;> rw [RuleQueue.tree_close]
  · exact (FileTree.placeOf_createAll fun f hf => (siblings_of_mem_files h hf hg).1).symm
  · exact (FileTree.read_createAll fun f hf => siblings_of_mem_files h hf hg).symm

theorem result_close_downlink :
    (l.downlink.close (l.uplink.close t).tree).result = (l.downlink.close t).result :=
  ((saved_downlink h).unique (RuleQueue.saved_close (h .downlink) t)).1

/-- Each direction leaves what it leaves on its own. -/
theorem saved_close (d : Direction) :
    Saved t (l.close t).tree (l.queue d).files ((l.queue d).close t).result := by
  cases d with
  | uplink =>
    -- The downlink is torn down later, but its files are others.
    refine (RuleQueue.saved_close (h .uplink) t).congr (fun _ _ => rfl) (fun _ _ => rfl)
      fun f hf => ?_
    rw [close_eq, RuleQueue.tree_close]
    refine FileTree.read_createAll fun g hg => ?_
    obtain ⟨hsib, hne⟩ := siblings_of_mem_files h hf hg
    exact ⟨hsib.symm, hne.symm⟩
  | downlink =>
    have hsaved := saved_downlink h (t := t)
    rwa [result_close_downlink h] at hsaved

theorem find?_close {place : Path}
    (hplace : ∀ d, ∀ f ∈ (l.queue d).files, t.placeOf f.1 ≠ .ok place) :
    (l.close t).tree.find? place = t.find? place := by
  have hdown : ∀ g ∈ l.downlink.files, (l.uplink.close t).tree.placeOf g.1 ≠ .ok place := by
    intro g hg
    rw [RuleQueue.tree_close,
      FileTree.placeOf_createAll fun f hf => (siblings_of_mem_files h hf hg).1]
    exact hplace .downlink g hg
  rw [close_eq]
  exact (RuleQueue.find?_close (h .downlink) hdown).trans
    (RuleQueue.find?_close (h .uplink) (hplace .uplink))

end Link

theorem RuleSet.pairwise_endpoints (rules : RuleSet) : rules.endpoints.Pairwise fun e f =>
    e.address.number < f.address.number ∨ e.address = f.address ∧ e.port < f.port  := by
  refine (Ascending.ascending _).imp fun {e f} h => ?_
  exact Endpoint.rank_lt_iff.1 h

theorem teardown_complete {σ : Type} (rules : RuleSet) (config : LinkConfig) :
    let reports (d : Direction) (q : RuleQueue) : List (Text × Bytes) :=
      config.stem.elim [] fun stem => CounterFiles.reports ⟨stem, d⟩ rules q
    (rules.endpoints.Pairwise fun e f =>
      e.address.number < f.address.number ∨ e.address = f.address ∧ e.port < f.port) ∧
    (∀ e, e ∈ rules.endpoints ↔ ∃ r ∈ rules.toList, r.key.endpoint = e) ∧
    (∀ d clock (state : σ) calls t,
      let q := (Run.after clock { queue := RuleQueue.start rules d config, state } calls).queue
      let closed := q.close t
      Saved t closed.tree (reports d q) closed.result ∧
      (closed.result = .ok () ↔ ∀ f ∈ reports d q, ∃ place, t.placeOf f.1 = .ok place) ∧
      (∀ place, (∀ f ∈ reports d q, t.placeOf f.1 ≠ .ok place) →
        closed.tree.find? place = t.find? place) ∧
      closed.logged = [] ∧ q.drop t = ⟨.ok (), faults closed.result, closed.tree⟩ ∧
      (∀ t', (q.persist t).2.1.drop t' = ⟨.ok (), [], t'⟩) ∧
      (config.stem = none → closed = ⟨.ok (), [], t⟩)) ∧
    ∀ (states : Direction → σ) calls t,
      let l := (LinkRun.after { link := .start rules config, states } calls).link
      let closed := l.close t
      let result d := ((l.queue d).close t).result
      (∀ d, Saved t closed.tree (reports d (l.queue d)) (result d)) ∧
      closed.result = (result .uplink).bind (fun _ => result .downlink) ∧
      closed.logged =
        (match result .uplink with
          | .ok () => []
          | .error _ => faults (result .downlink)) ∧
      l.drop t = ⟨.ok (), faults (result .uplink) ++ faults (result .downlink), closed.tree⟩ ∧
      (∀ place, (∀ d, ∀ f ∈ reports d (l.queue d), t.placeOf f.1 ≠ .ok place) →
        closed.tree.find? place = t.find? place) ∧
      (config.stem = none → closed = ⟨.ok (), [], t⟩) := by
  intro reports
  refine ⟨rules.pairwise_endpoints, fun _ => RuleSet.mem_endpoints,
    fun d clock state calls t => ?_, fun states calls t => ?_⟩
  · intro q closed
    have hbooked : Run.Booked rules d config (Run.after clock _ calls) :=
      Run.after_induction (Run.booked_start rules d config state)
        (fun _ c h => Run.booked_step h clock c) calls
    have hfiles : q.files = reports d q := hbooked.files_eq
    have hsaved : Saved t closed.tree q.files closed.result := q.saved_close hbooked.output t
    refine ⟨hfiles ▸ hsaved, hfiles ▸ hsaved.result_eq_ok_iff,
      fun place h => q.find?_close hbooked.output (hfiles ▸ h), q.logged_close t,
      q.drop_eq_close t, q.drop_persist t, fun hstem => ?_⟩
    exact RuleQueue.close_of_files_eq_nil
      (by simp only [hfiles, reports, hstem, Option.elim_none]) t
  · intro l closed result
    have houtput := LinkRun.output_after rules config states calls
    have hfiles (d : Direction) : (l.queue d).files = reports d (l.queue d) :=
      LinkRun.files_after rules config states calls d
    have hdown := Link.result_close_downlink houtput (t := t)
    have hclosed : closed = _ := l.close_eq t
    have hdropped : l.drop t = _ := l.drop_eq t
    rw [hdown] at hclosed hdropped
    refine ⟨fun d => hfiles d ▸ Link.saved_close houtput d, congrArg Teardown.result hclosed,
      congrArg Teardown.logged hclosed, ?_,
      fun place h => Link.find?_close houtput fun d => hfiles d ▸ h d, fun hstem => ?_⟩
    · rw [hdropped, hclosed]
      rfl
    · have hnone (d : Direction) : (l.queue d).close t = ⟨.ok (), [], t⟩ :=
        RuleQueue.close_of_files_eq_nil (by simp only [hfiles, reports, hstem, Option.elim_none]) t
      have hup : l.uplink.close t = _ := hnone .uplink
      have hdown : l.downlink.close t = _ := hnone .downlink
      rw [hclosed, hup, hdown]
      rfl

/-- A directory in the place of the second file. -/
example :
    let rules : RuleSet := .ofList [.constant ⟨6, ⟨⟨10, 0, 0, 5⟩, 80⟩⟩ 100 100]
    let q := RuleQueue.start rules .uplink { defaultDelay := 20, stem := some ['r'] }
    let blocked := "r.bytes_per_conn_uplink".toList
    let closed := q.close { entries := [([blocked], .directory)] }
    closed.result = .error ⟨blocked, .isDirectory⟩ ∧
      closed.tree.files = [(["r.bytes_uplink".toList], Text.encode ['0', '\n'])] := by
  decide

end DelayLine
