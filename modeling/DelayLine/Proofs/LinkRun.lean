import DelayLine.Link
import DelayLine.Proofs.QueueRun

/-!
# Runs of a link

A link is used by calls on either of its queues and by steps of the clock, in any order. One call
moves the direction it is made on as it would move a queue that is used alone
(`projects_step_self`), and does not move the other (`projects_step_of_ne`). So what a direction
goes through is the run of a single queue that gets its calls at the same readings
(`projects_after`).
-/

namespace DelayLine

/-- The readings that the clock gives during a call, in order. -/
abbrev Readings := Nat → Millis

/-- What happens next: the clock moves, or a call is made. -/
inductive Action (α : Type)
  | clock (move : Readings → Readings)
  | call (c : α)

/-- The calls among some actions, each with the readings of the clock during it. -/
def timed {α : Type} : Readings → List (Action α) → List (Readings × α)
  | _, [] => []
  | readings, .clock move :: actions => timed (move readings) actions
  | readings, .call c :: actions => (readings, c) :: timed readings actions

namespace Run

variable {Q σ : Type} [PacketQueue Q]

/-- One call with readings of its own. -/
def stepAt (r : Run Q σ) (x : Readings × Call σ) : Run Q σ :=
  r.step (fun i => x.1 (i - r.readings)) x.2

def perform (r : Run Q σ) (calls : List (Readings × Call σ)) : Run Q σ := calls.foldl stepAt r

theorem perform_induction {P : Run Q σ → Prop} {r : Run Q σ} (hr : P r)
    (hstep : ∀ s clock c, P s → P (s.step clock c)) (calls : List (Readings × Call σ)) :
    P (r.perform calls) := by
  induction calls generalizing r with
  | nil => exact hr
  | cons x calls ih => exact ih (hstep r _ x.2 hr)

/-- What came before a call has no effect but through the queue and the state of the sinks. -/
theorem stepAt_eq (r : Run Q σ) (readings : Readings) (c : Call σ) :
    let s := step readings { queue := r.queue, state := r.state } c
    r.stepAt (readings, c) =
      { s with readings := r.readings + s.readings, history := r.history ++ s.history } := by
  cases c with
  | enqueue p =>
    simp only [stepAt, step, Nat.sub_self]
    split <;> simp
  | drain sink => simp [stepAt, step]
  | wait => simp [stepAt, step]

end Run

namespace Link

@[simp] theorem queue_setQueue_self (l : Link) (d : Direction) (q : RuleQueue) :
    (l.setQueue d q).queue d = q := by
  cases d <;> rfl

theorem queue_setQueue_of_ne {d e : Direction} (h : d ≠ e) (l : Link) (q : RuleQueue) :
    (l.setQueue d q).queue e = l.queue e := by
  cases d <;> cases e <;> first | rfl | exact absurd rfl h

theorem queue_start (rules : RuleSet) (config : LinkConfig) (d : Direction) :
    (start rules config).queue d = .start rules d config := by
  cases d <;> rfl

theorem ext_queue {l m : Link} (h : ∀ d, l.queue d = m.queue d) : l = m := by
  obtain ⟨up, down⟩ := l
  exact congrArg₂ Link.mk (h .uplink) (h .downlink)

end Link

/-- A link in use, the state of the sinks of each direction and what has happened in which
direction. -/
structure LinkRun (σ : Type) where
  link : Link
  states : Direction → σ
  history : List (Direction × Event) := []

namespace LinkRun

variable {σ α : Type}

/-- One call on the queue of a direction. -/
def step (l : LinkRun σ) (x : Readings × Direction × Call σ) : LinkRun σ :=
  let (readings, d, c) := x
  let r := Run.step readings { queue := l.link.queue d, state := l.states d } c
  { link := l.link.setQueue d r.queue
    states := Function.update l.states d r.state
    history := l.history ++ r.history.map fun event => (d, event) }

def after (l : LinkRun σ) (calls : List (Readings × Direction × Call σ)) : LinkRun σ :=
  calls.foldl step l

/-- What has happened in a direction. -/
def events (l : LinkRun σ) (d : Direction) : List Event :=
  l.history.filterMap fun (e, event) => if e = d then some event else none

theorem events_step (l : LinkRun σ) (readings : Readings) (e d : Direction) (c : Call σ) :
    (l.step (readings, e, c)).events d =
      if e = d then
        l.events d ++ (Run.step readings { queue := l.link.queue e, state := l.states e } c).history
      else l.events d := by
  obtain ⟨event, h⟩ := Run.history_step readings { queue := l.link.queue e, state := l.states e } c
  simp only [step, events, h, List.filterMap_append]
  split_ifs with he <;> simp [he]

/-- A step of the clock, or a call of the given direction. -/
def ofDirection? (d : Direction) : Action (Direction × α) → Option (Action α)
  | .clock move => some (.clock move)
  | .call (e, c) => if e = d then some (.call c) else none

/-- The calls of a direction. -/
def callOf? (d : Direction) : Readings × Direction × α → Option (Readings × α)
  | (readings, e, c) => if e = d then some (readings, c) else none

theorem timed_filterMap_ofDirection? (d : Direction) (readings : Readings)
    (actions : List (Action (Direction × α))) :
    timed readings (actions.filterMap (ofDirection? d)) =
      (timed readings actions).filterMap (callOf? d) := by
  induction actions generalizing readings with
  | nil => rfl
  | cons action actions ih =>
    match action with
    | .clock move => exact ih _
    | .call (e, c) =>
      by_cases he : e = d <;>
        simp [timed, ofDirection?, callOf?, he, ih]

/-- A direction of a link is in the state of a run of its own. -/
structure Projects (l : LinkRun σ) (d : Direction) (r : Run RuleQueue σ) : Prop where
  queue : l.link.queue d = r.queue
  state : l.states d = r.state
  events : l.events d = r.history

variable {l : LinkRun σ} {d : Direction} {r : Run RuleQueue σ}

theorem projects_start (rules : RuleSet) (config : LinkConfig) (states : Direction → σ)
    (d : Direction) : Projects { link := .start rules config, states } d
      { queue := RuleQueue.start rules d config, state := states d } :=
  ⟨Link.queue_start rules config d, rfl, rfl⟩

theorem projects_step_self (h : Projects l d r) (readings : Readings) (c : Call σ) :
    Projects (l.step (readings, d, c)) d (r.stepAt (readings, c)) := by
  obtain ⟨hq, hs, he⟩ := h
  rw [Run.stepAt_eq, ← hq, ← hs, ← he]
  exact ⟨Link.queue_setQueue_self .., Function.update_self ..,
    (l.events_step ..).trans (if_pos rfl)⟩

theorem projects_step_of_ne (h : Projects l d r) {e : Direction} (hne : e ≠ d)
    (readings : Readings) (c : Call σ) : Projects (l.step (readings, e, c)) d r where
  queue := (Link.queue_setQueue_of_ne hne ..).trans h.queue
  state := (Function.update_of_ne hne.symm ..).trans h.state
  events := (l.events_step ..).trans ((if_neg hne).trans h.events)

theorem projects_after (h : Projects l d r) (calls : List (Readings × Direction × Call σ)) :
    Projects (l.after calls) d (r.perform (calls.filterMap (callOf? d))) := by
  induction calls generalizing l r with
  | nil => exact h
  | cons x calls ih =>
    obtain ⟨readings, e, c⟩ := x
    rw [List.filterMap_cons, callOf?]
    split_ifs with he
    · subst he
      exact ih (projects_step_self h readings c)
    · exact ih (projects_step_of_ne h he readings c)

theorem projects_timed (rules : RuleSet) (config : LinkConfig) (states : Direction → σ)
    (readings : Readings) (actions : List (Action (Direction × Call σ))) (d : Direction) :
    Projects (after { link := .start rules config, states } (timed readings actions)) d
      (Run.perform { queue := RuleQueue.start rules d config, state := states d }
        (timed readings (actions.filterMap (ofDirection? d)))) := by
  rw [timed_filterMap_ofDirection?]
  exact projects_after (projects_start rules config states d) _

/-- What each direction goes through is all there is to a link. -/
theorem ext_projects {l m : LinkRun σ} {runs : Direction → Run RuleQueue σ}
    (hl : ∀ d, Projects l d (runs d)) (hm : ∀ d, Projects m d (runs d)) :
    l.link = m.link ∧ l.states = m.states ∧ ∀ d, l.events d = m.events d :=
  ⟨Link.ext_queue fun d => (hl d).queue.trans (hm d).queue.symm,
    funext fun d => (hl d).state.trans (hm d).state.symm,
    fun d => (hl d).events.trans (hm d).events.symm⟩

end LinkRun

end DelayLine
