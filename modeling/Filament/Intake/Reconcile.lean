import Filament.Intake.Submit

/-!
# Reconciling scheduled runs

`ReconcileScheduled` lists the runs of a schedule that are still scheduled, deletes them one by one and
files those of the next occurrence.  Each of these is a call of its own, and `Submit` may promote a run
in between.

* `Phase`, `Reconciliation`, `World`, `step` : reconciliations beside the calls of `Submit`, the writers
  of existing rows and other callers that delete runs;
* `Listed`, `Undisturbed` : no run leaves the scheduled state while a reconciliation has it on its list;
* **`reconcile_removes_scheduled`** : under that, a reconciliation deletes only scheduled runs;
* `promoted_run_is_deleted` : a run that is promoted after it was listed.
-/

namespace Filament.Reconciling

open Function List

open Intake (Row Reply createRun)

/-! ### The model -/

/-- Where a reconciliation is, or how it has returned. -/
inductive Phase where
  /-- `DropScheduled` lists the pending runs. -/
  | listing
  /-- It deletes them, in order. -/
  | deleting (pending : List String)
  /-- The next occurrence is compiled. -/
  | compiling
  /-- The runs of the next occurrence are filed, each with whether it is continuous. -/
  | scheduling (runs : List (String × Bool))
  | returned
  | failed
  deriving DecidableEq, Repr

/-- A call of `ReconcileScheduled`; `fires` when the schedule will fire again. -/
structure Reconciliation where
  schedule : String
  fires : Bool
  phase : Phase
  deriving DecidableEq, Repr

/-- Runs and calls of `Submit`, the reconciliations, and the rows they have deleted, as they were. -/
structure World where
  intake : Intake.World
  reconciliations : List Reconciliation
  removed : List (String × Row)

/-- Before the first call. -/
def World.start (rows : String → Option Row) : World := ⟨.start rows, [], []⟩

/-- Move the reconciliation `j` to another phase. -/
def World.move (w : World) (j : ℕ) (r : Reconciliation) (phase : Phase) : World :=
  { w with reconciliations := w.reconciliations.set j { r with phase := phase } }

/-- What `DropScheduled` goes on with; when nothing is left to delete, the next occurrence is compiled
if there is one. -/
def dropping (r : Reconciliation) (pending : List String) : Phase :=
  if pending ≠ [] then .deleting pending else if r.fires then .compiling else .returned

/-- What is left to file of the next occurrence. -/
def filing (runs : List (String × Bool)) : Phase := if runs ≠ [] then .scheduling runs else .returned

/-- What the calls of a reconciliation are answered: the runs in the store, and those that are
compiled for the next occurrence. -/
structure Answer where
  reply : Reply
  runs : List String
  compiled : List (String × Bool)

variable (sha1 : String → String) (scheduleOf : String → String)

/-- Whether `ListRuns` returns a run for a schedule. -/
def isPending (w : World) (schedule id : String) : Bool :=
  decide (scheduleOf id = schedule) &&
    (w.intake.rows id).any fun row => decide (row.status = .runScheduled)

/-- `DeleteRun`. -/
def World.deleteRun (w : World) (id : String) : World :=
  { w with
    intake := Intake.step sha1 w.intake (.drops id)
    removed := w.removed ++ (w.intake.rows id).toList.map fun row => (id, row) }

/-- One call to the store by the reconciliation `j`, with its answer. -/
def Reconciliation.step (w : World) (j : ℕ) (r : Reconciliation) (a : Answer) : World :=
  match r.phase, a.reply with
  | .returned, _ => w
  | .failed, _ => w
  | _, .error => w.move j r .failed
  | .listing, .ok => w.move j r (dropping r (a.runs.filter (isPending scheduleOf w r.schedule)))
  | .deleting [], .ok => w.move j r (dropping r [])
  | .deleting (id :: pending), .ok => (w.deleteRun sha1 id).move j r (dropping r pending)
  | .compiling, .ok => w.move j r (filing a.compiled)
  | .scheduling [], .ok => w.move j r (filing [])
  | .scheduling ((id, continuous) :: runs), .ok =>
    { w with intake := Intake.step sha1 w.intake (.schedules id continuous) }.move j r (filing runs)

/-- An event. -/
inductive Event where
  /-- Of the calls of `Submit` and `Schedule`, the writers of rows and other callers. -/
  | intake (e : Intake.Event)
  /-- `ReconcileScheduled` is called. -/
  | begins (schedule : String) (fires : Bool)
  /-- The reconciliation `j` goes on. -/
  | steps (j : ℕ) (a : Answer)

/-- One event. -/
def step (w : World) : Event → World
  | .intake e => { w with intake := Intake.step sha1 w.intake e }
  | .begins schedule fires =>
    { w with reconciliations := w.reconciliations ++ [⟨schedule, fires, .listing⟩] }
  | .steps j a =>
    match w.reconciliations[j]? with
    | none => w
    | some r => r.step sha1 scheduleOf w j a

/-! ### Runs on a list -/

variable {r : Reconciliation} {phase : Phase} {j : ℕ}

/-- A reconciliation is still to delete the run. -/
def World.Listed (w : World) (id : String) : Prop :=
  ∃ r ∈ w.reconciliations, ∃ pending, r.phase = .deleting pending ∧ id ∈ pending

/-- The event does not make a run leave the scheduled state, or be filed, while it is listed: no
`Submit` is about to file it, and no one writes its row. -/
def Undisturbed (w : World) : Event → Prop
  | .intake (.steps i _ _) => ∀ c, w.intake.calls[i]? = some c → c.phase = .creating →
      ¬w.Listed c.id
  | .intake (.writes id _ _) => ¬w.Listed id
  | _ => True

/-- What is listed is scheduled or gone, and only scheduled rows were deleted. -/
structure Inv (w : World) : Prop where
  listed : ∀ id, w.Listed id → ∀ row, w.intake.rows id = some row → row.status = .runScheduled
  removed : ∀ p ∈ w.removed, p.2.status = .runScheduled

variable {sha1 scheduleOf} {w : World} {e : Intake.Event}

theorem inv_start (rows : String → Option Row) : Inv (World.start rows) := by
  refine ⟨fun id hid => ?_, nofun⟩
  obtain ⟨r, hr, -⟩ := hid
  cases hr

/-- Moving a reconciliation lists no run other than those of its new phase. -/
theorem listed_move {id : String} (h : (w.move j r phase).Listed id) :
    w.Listed id ∨ ∃ pending, phase = .deleting pending ∧ id ∈ pending := by
  obtain ⟨r', hr', pending, hphase, hid⟩ := h
  rcases mem_or_eq_of_mem_set hr' with hr' | rfl
  · exact .inl ⟨r', hr', pending, hphase, hid⟩
  · exact .inr ⟨pending, hphase, hid⟩

theorem Inv.move (h : Inv w) (hphase : ∀ pending, phase = .deleting pending → ∀ id ∈ pending, ∀ row,
      w.intake.rows id = some row → row.status = .runScheduled) : Inv (w.move j r phase) := by
  refine ⟨fun id hid row hrow => ?_, h.removed⟩
  rcases listed_move hid with hlisted | ⟨pending, hdeleting, hmem⟩
  · exact h.listed id hlisted row hrow
  · exact hphase pending hdeleting id hmem row hrow

theorem Inv.move_plain (h : Inv w) (hphase : ∀ pending, phase ≠ .deleting pending) :
    Inv (w.move j r phase) :=
  h.move fun pending hdeleting => absurd hdeleting (hphase pending)

theorem filing_ne_deleting (runs : List (String × Bool)) (pending : List String) :
    filing runs ≠ .deleting pending := by
  unfold filing
  split_ifs <;> nofun

theorem dropping_eq_deleting {pending pending' : List String}
    (h : dropping r pending = .deleting pending') : pending' = pending := by
  unfold dropping at h
  split_ifs at h
  exact (Phase.deleting.inj h).symm

/-! ### The steps of intake -/

theorem createRun_scheduled {existing : Option Row} {row row' : Row} (hrow : row.status = .runScheduled)
    (h : (createRun existing row).2 = some row')
    (hexisting : ∀ old, existing = some old → old.status = .runScheduled) :
    row'.status = .runScheduled := by
  cases existing with
  | none =>
    obtain rfl : row = row' := by simpa [createRun] using h
    exact hrow
  | some old =>
    have hold := hexisting old rfl
    simp only [createRun, hold, if_true, Option.some.injEq] at h
    rw [← h]
    exact hrow

/-- The rows after one call of `Submit`: as before, or the call is creating and only its own row is
written, or its row is deleted. -/
theorem rows_call_step (v : Intake.World) (i : ℕ) (c : Intake.Call) (live : Bool) (reply : Reply)
    (id : String) : (c.step v i live reply).rows id = v.rows id ∨
      (c.step v i live reply).rows id = none ∨ c.phase = .creating ∧ c.id = id := by
  unfold Intake.Call.step
  split
  · next hphase =>
    split
    · exact .inl rfl
    split
    · by_cases hid : c.id = id
      · exact .inr (.inr ⟨hphase, hid⟩)
      · exact .inl (update_of_ne (Ne.symm hid) ..)
    · exact .inl rfl
  · split <;> exact .inl rfl
  · exact .inl rfl
  · split
    · by_cases hid : c.id = id
      · subst hid
        exact .inr (.inl (update_self ..))
      · exact .inl (update_of_ne (Ne.symm hid) ..)
    · exact .inl rfl
  · exact .inl rfl
  · exact .inl rfl

/-- A listed run stays scheduled, or is deleted, by what else happens. -/
theorem Inv.intake_step (h : Inv w) (he : Undisturbed w (.intake e)) {id : String}
    (hid : w.Listed id) {row : Row} (hrow : (Intake.step sha1 w.intake e).rows id = some row) :
    row.status = .runScheduled := by
  cases e with
  | begins req random => exact h.listed id hid row hrow
  | steps i live reply =>
    rw [Intake.step] at hrow
    cases hc : w.intake.calls[i]? with
    | none =>
      rw [hc] at hrow
      exact h.listed id hid row hrow
    | some c =>
      rw [hc] at hrow
      rcases rows_call_step w.intake i c live reply id with heq | hnone | ⟨hphase, rfl⟩
      · exact h.listed id hid row (heq ▸ hrow)
      · simp only [hnone] at hrow
        cases hrow
      · exact absurd hid (he c hc hphase)
  | schedules id' continuous =>
    by_cases heq : id = id'
    · subst heq
      simp only [Intake.step, Intake.World.write, update_self] at hrow
      exact createRun_scheduled rfl hrow fun old hold => h.listed id hid old hold
    · simp only [Intake.step, Intake.World.write, update_of_ne heq] at hrow
      exact h.listed id hid row hrow
  | writes id' status started =>
    have hne : id ≠ id' := fun heq => he (heq ▸ hid)
    rw [Intake.step] at hrow
    split at hrow
    · exact h.listed id hid row hrow
    split_ifs at hrow
    · exact h.listed id hid row hrow
    · simp only [Intake.World.write, update_of_ne hne] at hrow
      exact h.listed id hid row hrow
  | drops id' =>
    by_cases heq : id = id'
    · subst heq
      simp [Intake.step] at hrow
    · simp only [Intake.step, update_of_ne heq] at hrow
      exact h.listed id hid row hrow

theorem Inv.intake (h : Inv w) (he : Undisturbed w (.intake e)) :
    Inv { w with intake := Intake.step sha1 w.intake e } :=
  ⟨fun _ hid _ hrow => h.intake_step he hid hrow, h.removed⟩

/-! ### The steps of a reconciliation -/

theorem Inv.deleteRun (h : Inv w) {id : String} (hid : w.Listed id) : Inv (w.deleteRun sha1 id) := by
  have hnext : Inv { w with intake := Intake.step sha1 w.intake (.drops id) } := h.intake trivial
  refine ⟨hnext.listed, fun p hp => ?_⟩
  rcases mem_append.1 hp with hp | hp
  · exact h.removed p hp
  · obtain ⟨row, hrow, rfl⟩ := mem_map.1 hp
    exact h.listed id hid row (Option.mem_toList.1 hrow)

theorem Inv.reconcile (h : Inv w) (hr : w.reconciliations[j]? = some r) (a : Answer) :
    Inv (r.step sha1 scheduleOf w j a) := by
  have hmem : r ∈ w.reconciliations := mem_of_getElem? hr
  unfold Reconciliation.step
  split
  · exact h
  · exact h
  · exact h.move_plain nofun
  · -- the list holds what is scheduled now
    refine h.move fun pending hphase id hid row hrow => ?_
    rw [dropping_eq_deleting hphase, mem_filter] at hid
    exact (show _ ∧ row.status = .runScheduled by simpa [isPending, hrow] using hid.2).2
  · refine h.move fun pending hphase id hid => ?_
    rw [dropping_eq_deleting hphase] at hid
    cases hid
  · next id pending hphase _ =>
    have hlisted : ∀ id' ∈ id :: pending, w.Listed id' := fun id' hid' => ⟨r, hmem, _, hphase, hid'⟩
    have hnext : Inv (w.deleteRun sha1 id) := h.deleteRun (hlisted id (.head _))
    refine hnext.move fun pending' hphase' id' hid' row hrow => ?_
    rw [dropping_eq_deleting hphase'] at hid'
    exact hnext.listed id' (hlisted id' (.tail _ hid')) row hrow
  · exact h.move_plain (filing_ne_deleting _)
  · exact h.move_plain (filing_ne_deleting _)
  · next id continuous runs _ _ =>
    have hnext : Inv { w with intake := Intake.step sha1 w.intake (.schedules id continuous) } :=
      h.intake trivial
    exact hnext.move_plain (filing_ne_deleting _)

theorem Inv.step (h : Inv w) {e : Event} (he : Undisturbed w e) :
    Inv (Reconciling.step sha1 scheduleOf w e) := by
  cases e with
  | intake e => exact h.intake he
  | begins schedule fires =>
    refine ⟨fun id hid => h.listed id ?_, h.removed⟩
    obtain ⟨r, hr, pending, hphase, hid⟩ := hid
    rcases mem_append.1 hr with hr | hr
    · exact ⟨r, hr, pending, hphase, hid⟩
    · obtain rfl : r = ⟨schedule, fires, .listing⟩ := by simpa using hr
      cases hphase
  | steps j a =>
    rw [Reconciling.step]
    split
    · exact h
    · next r hr => exact h.reconcile hr a

/-- **A reconciliation deletes only scheduled runs, when no run leaves the scheduled state while it is
listed.**  Over any interleaving of reconciliations with calls of `Submit`, the writers of existing rows
and other callers. -/
theorem reconcile_removes_scheduled (sha1 scheduleOf : String → String) (rows : String → Option Row)
    (events : List Event)
    (h : Trace.Along (step sha1 scheduleOf) Undisturbed (World.start rows) events) :
    ∀ p ∈ (Trace.run (step sha1 scheduleOf) (World.start rows) events).removed,
      p.2.status = .runScheduled := by
  have hinv : Inv (Trace.run (step sha1 scheduleOf) (World.start rows) events) :=
    Trace.inv_run_of_along (fun _ _ hinv he => hinv.step he) (inv_start rows) h
  exact hinv.removed

section Witness

private def daily (_ : String) : String := "daily"

private def scheduledRow : Row := ⟨.runScheduled, false, false⟩

private def filedAhead (id : String) : Option Row := if id = "acme|k" then some scheduledRow else none

private def occurrence : Intake.Request := ⟨"acme", "k", false⟩

/-- The reconciliation lists the run and deletes it, and a `Submit` files it again afterwards. -/
private def inOrder : List Event :=
  [.begins "daily" false, .steps 0 ⟨.ok, ["acme|k"], []⟩, .steps 0 ⟨.ok, [], []⟩,
   .intake (.begins occurrence "r"), .intake (.steps 0 false .ok), .intake (.steps 0 false .ok)]

/-- The `Submit` comes between the list and the deletion. -/
private def between : List Event :=
  [.begins "daily" false, .steps 0 ⟨.ok, ["acme|k"], []⟩, .intake (.begins occurrence "r"),
   .intake (.steps 0 false .ok), .intake (.steps 0 false .ok), .steps 0 ⟨.ok, [], []⟩]

/-- The reconciliation is over when the run is submitted. -/
private theorem inOrder_undisturbed :
    Trace.Along (step id daily) Undisturbed (World.start filedAhead) inOrder := by
  refine ⟨trivial, trivial, trivial, trivial, fun c _ _ hlisted => ?_, fun c _ _ hlisted => ?_,
    trivial⟩
  all_goals
    obtain ⟨r, hr, pending, hphase, -⟩ := hlisted
    obtain rfl : r = ⟨"daily", false, .returned⟩ := mem_singleton.1 hr
    cases hphase

/-- A reconciliation that is over when the run is submitted deletes the scheduled row. -/
theorem listed_run_is_deleted :
    ("acme|k", scheduledRow) ∈
        (Trace.run (step id daily) (World.start filedAhead) inOrder).removed ∧
      scheduledRow.status = .runScheduled := by
  have hremoved : ("acme|k", scheduledRow) ∈
      (Trace.run (step id daily) (World.start filedAhead) inOrder).removed := by decide
  exact ⟨hremoved,
    reconcile_removes_scheduled id daily filedAhead inOrder inOrder_undisturbed _ hremoved⟩

/-- A run that `Submit` has promoted, dispatched and accepted loses its row to a reconciliation that
listed it before. -/
theorem promoted_run_is_deleted :
    let w := Trace.run (step id daily) (World.start filedAhead) between
    w.intake.calls.map (fun c => (c.id, c.phase)) = [("acme|k", .accepted)] ∧
      w.intake.rows "acme|k" = none ∧ ("acme|k", ⟨.runRequested, false, false⟩) ∈ w.removed := by
  decide

end Witness

end Filament.Reconciling
