import Mathlib.Data.List.Sort
import Filament.Lib.AList
import Filament.Intake.Submit

/-!
# The scheduler

A tick claims the schedules that are due and serves them one by one: under the skip policy a
schedule with an active run only advances; otherwise the pipeline is compiled, one run per route is
submitted, and the schedule advances when every submission has succeeded.  A failure releases the
claim, so that the next tick serves the occurrence again.

* `next`, `nextFire` : the next time a cron expression fires;
* `runID` : the id of the run of a route at an occurrence;
* `submit` : a whole call of `Submit`, with the replies it meets;
* `fire`, `advance`, `reconcileScheduled`, `serve` : one due schedule;
* `World`, `step` : the ticks beside the writers of existing rows and callers that delete runs.

Times are seconds.
-/

namespace Filament.Scheduler

open Intake (Row Reply createRun idFor inspect)

/-! ### The next occurrence -/

/-- The bound on the scan of `next`, in minutes. -/
def maxSearch : ℕ := 5 * 366 * 24 * 60

/-- The scan of `next`, minute by minute. -/
def search (fires : ℕ → Bool) : ℕ → ℕ → Option ℕ
  | 0, _ => none
  | n + 1, t => if fires t then some t else search fires n (t + 60)

/-- The first whole minute after `t` at which the expression fires. -/
def next (fires : ℕ → Bool) (t : ℕ) : Option ℕ :=
  search fires maxSearch ((t / 60 + 1) * 60)

theorem le_of_search {fires : ℕ → Bool} {n t u : ℕ} (h : search fires n t = some u) : t ≤ u := by
  induction n generalizing t with
  | zero => cases h
  | succ n ih =>
    rw [search] at h
    split_ifs at h
    · exact Nat.le_of_eq (Option.some.inj h)
    · have := ih h
      omega

theorem lt_of_next {fires : ℕ → Bool} {t u : ℕ} (h : next fires t = some u) : t < u := by
  have hle := le_of_search h
  omega

/-! ### Schedules and runs -/

/-- What a tick does while a run of the schedule is active. -/
inductive OverlapPolicy where
  | overlapSkip
  | overlapAllow
  deriving DecidableEq, Repr

/-- The definition of a schedule; `cron` is `none` when its expression or its timezone is not
valid. -/
structure ScheduleSpec where
  tenant : TenantID
  pipelineID : String
  cron : Option (ℕ → Bool)
  overlap : OverlapPolicy

/-- A schedule's row. -/
structure ScheduleState where
  id : String
  spec : ScheduleSpec
  enabled : Bool
  lastFired : Option ℕ
  nextFire : Option ℕ
  claimedAt : Option ℕ

/-- The next fire of a definition. -/
def nextFire (spec : ScheduleSpec) (after : ℕ) : Option ℕ :=
  spec.cron.bind fun fires => next fires after

theorem lt_of_nextFire {spec : ScheduleSpec} {t u : ℕ} (h : nextFire spec t = some u) : t < u := by
  obtain ⟨fires, -, hu⟩ := Option.bind_eq_some_iff.1 h
  exact lt_of_next hu

/-- A route at an occurrence of a schedule. -/
structure Key where
  schedule : String
  occurrence : ℕ
  route : String
  deriving DecidableEq, Repr

/-- The idempotency salt of an occurrence. -/
def occurrenceToken (id : String) (occurrence : ℕ) : String := id ++ ":" ++ toString occurrence

/-- The request `Compile` makes for a route; a schedule's runs are bounded. -/
def request (spec : ScheduleSpec) (key : Key) : Intake.Request :=
  ⟨spec.tenant, spec.pipelineID ++ ":" ++ occurrenceToken key.schedule key.occurrence ++ ":" ++
    key.route, false⟩

/-- The id a route's run is filed under. -/
def runID (sha1 : String → String) (spec : ScheduleSpec) (key : Key) : RunID :=
  idFor sha1 "" (request spec key)

/-- A run of a schedule. -/
structure Filed where
  key : Key
  row : Row
  deriving DecidableEq, Repr

abbrev Rows := AList fun _ : RunID => Filed

/-- The statuses the overlap check looks for. -/
def active : RunStatus → Bool
  | .runRequested | .runRunning | .runPaused => true
  | _ => false

/-- A run of the schedule is active. -/
def hasActiveRuns (rows : Rows) (schedule : String) : Bool :=
  rows.entries.any fun e => e.2.key.schedule = schedule && active e.2.row.status

/-! ### Submitting a run -/

/-- The replies one call of `Submit` meets. -/
structure Replies where
  create : Reply
  load : Reply
  dispatch : Reply
  delete : Reply
  deriving DecidableEq, Repr

/-- How a call of `Submit` ends; `left` when it fails and the row it filed stays. -/
inductive Outcome where
  | accepted
  | left
  | failed
  deriving DecidableEq, Repr

/-- After the dispatch of a row that was there. -/
def redispatched : Reply → Outcome
  | .ok => .accepted
  | .error => .failed

/-- A call of `Submit` for a bounded run. -/
def submit (rows : Rows) (id : RunID) (key : Key) (r : Replies) : Outcome × Rows :=
  match r.create, createRun ((rows.lookup id).map Filed.row) ⟨.runRequested, false, false⟩ with
  | .ok, (.created, some row) =>
    match r.dispatch, r.delete with
    | .ok, _ => (.accepted, rows.insert id ⟨key, row⟩)
    | .error, .ok => (.failed, rows.erase id)
    | .error, .error => (.left, rows.insert id ⟨key, row⟩)
  | .ok, (.conflict, some row) =>
    match r.load, inspect row with
    | .ok, .accepted => (.accepted, rows)
    | .ok, _ => (redispatched r.dispatch, rows)
    | .error, _ => (.failed, rows)
  | _, _ => (.failed, rows)

/-! ### Serving a schedule -/

/-- A call of `Submit` by the scheduler. -/
structure Submitted where
  key : Key
  id : RunID
  outcome : Outcome
  deriving DecidableEq, Repr

/-- The tables, the schedules claimed by the current tick and still to be served, the time of the
tick, and every call of `Submit` so far. -/
structure World where
  schedules : List ScheduleState
  rows : Rows
  batch : List ScheduleState
  clock : ℕ
  submits : List Submitted

/-- `fire` : submit the compiled routes in turn, up to the first that fails; the result is whether
all of them succeeded. -/
def fire (sha1 : String → String) (w : World) (st : ScheduleState) (occurrence : ℕ) :
    List (String × Replies) → Bool × World
  | [] => (true, w)
  | (route, r) :: rest =>
    let key : Key := ⟨st.id, occurrence, route⟩
    let id := runID sha1 st.spec key
    let s := submit w.rows id key r
    let w' := { w with rows := s.2, submits := w.submits ++ [⟨key, id, s.1⟩] }
    if s.1 = .accepted then fire sha1 w' st occurrence rest else (false, w')

variable (sha1 : String → String) (w : World) (st : ScheduleState)

/-- `SaveSchedule` : write the row and clear the claim. -/
def World.saveSchedule : Reply → World
  | .ok =>
    { w with
      schedules := w.schedules.map fun s => if s.id = st.id then { st with claimedAt := none } else s }
  | .error => w

/-- `ReleaseScheduleClaim`. -/
def World.releaseScheduleClaim (id : String) : Reply → World
  | .ok =>
    { w with
      schedules := w.schedules.map fun s => if s.id = id then { s with claimedAt := none } else s }
  | .error => w

/-- Move a schedule on without firing it. -/
def advance (reply : Reply) : ScheduleState × World :=
  match nextFire st.spec w.clock with
  | some t =>
    let st' := { st with nextFire := some t }
    (st', w.saveSchedule st' reply)
  | none => (st, w)

/-- What a call of `ReconcileScheduled` meets: the listing of the pending rows, how many of them are
deleted before a failure, and the compiled routes with the replies of `Schedule`. -/
structure Reconcile where
  list : Reply
  deleted : ℕ
  compile : Option (List (String × Reply))

/-- The pending rows of a schedule. -/
def pending (rows : Rows) (schedule : String) : List RunID :=
  (rows.entries.filter fun e => e.2.key.schedule = schedule && e.2.row.status = .runScheduled).map
    Sigma.fst

/-- `Schedule` for each compiled route in turn, up to the first that fails. -/
def schedule (sha1 : String → String) (st : ScheduleState) (occurrence : ℕ) (rows : Rows) :
    List (String × Reply) → Rows
  | [] => rows
  | (_, .error) :: _ => rows
  | (route, .ok) :: rest =>
    let key : Key := ⟨st.id, occurrence, route⟩
    let id := runID sha1 st.spec key
    match createRun ((rows.lookup id).map Filed.row) ⟨.runScheduled, false, false⟩ with
    | (.created, some row) => schedule sha1 st occurrence (rows.insert id ⟨key, row⟩) rest
    | _ => schedule sha1 st occurrence rows rest

/-- `ReconcileScheduled` : drop the pending rows and file those of the next occurrence. -/
def reconcileScheduled (rows : Rows) (st : ScheduleState) (r : Reconcile) : Rows :=
  match r.list with
  | .error => rows
  | .ok =>
    let ids := pending rows st.id
    let rows' := (ids.take r.deleted).foldl (fun rows id => rows.erase id) rows
    if r.deleted < ids.length then rows'
    else
      match st.enabled, st.nextFire, r.compile with
      | true, some occurrence, some routes => schedule sha1 st occurrence rows' routes
      | _, _, _ => rows'

/-- What serving a schedule meets: the reply of the overlap check, the compiled routes with the
replies their submissions meet, and the replies of the calls that follow. -/
structure Choices where
  overlap : Reply
  compile : Option (List (String × Replies))
  release : Reply
  save : Reply
  reconcile : Reconcile

/-- A schedule that has fired. -/
def fired (now : ℕ) (st : ScheduleState) : ScheduleState :=
  { st with lastFired := some now, nextFire := (nextFire st.spec now).or st.nextFire }

/-- The part of `runDue` that fires a schedule. -/
def serveFire (c : Choices) : World :=
  match c.compile with
  | none => w.releaseScheduleClaim st.id c.release
  | some routes =>
    match fire sha1 w st (st.nextFire.getD w.clock) routes with
    | (false, w') => w'.releaseScheduleClaim st.id c.release
    | (true, w') =>
      match c.save with
      | .error => w'
      | .ok =>
        { w'.saveSchedule (fired w.clock st) .ok with
          rows := reconcileScheduled sha1 w'.rows (fired w.clock st) c.reconcile }

/-- The body of `runDue` for one claimed schedule. -/
def serve (c : Choices) : World :=
  match st.spec.overlap, c.overlap, hasActiveRuns w.rows st.id with
  | .overlapSkip, .error, _ => w.releaseScheduleClaim st.id c.release
  | .overlapSkip, .ok, true =>
    let s := advance w st c.save
    { s.2 with rows := reconcileScheduled sha1 w.rows s.1 c.reconcile }
  | _, _, _ => serveFire sha1 w st c

/-! ### Ticks -/

/-- How long a claim is honored. -/
def scheduleLeaseTTL : ℕ := 300

/-- A schedule is due and not claimed. -/
def due (now : ℕ) (s : ScheduleState) : Bool :=
  s.enabled && s.nextFire.any (· ≤ now) && s.claimedAt.all (· + scheduleLeaseTTL < now)

/-- `ClaimDue` : the due schedules by their next fire. -/
def claimDue (now : ℕ) (schedules : List ScheduleState) : List ScheduleState :=
  (schedules.filter (due now)).insertionSort fun a b => a.nextFire.getD 0 ≤ b.nextFire.getD 0

/-- Lease the claimed schedules. -/
def leaseSchedules (now : ℕ) (schedules : List ScheduleState) : List ScheduleState :=
  schedules.map fun s => if due now s then { s with claimedAt := some now } else s

/-- An event. -/
inductive Event where
  /-- A tick claims the due schedules. -/
  | ticks (elapsed : ℕ) (reply : Reply)
  /-- The tick serves its next schedule. -/
  | serves (c : Choices)
  /-- The process restarts. -/
  | restarts
  /-- The API reconciles the pending rows of a schedule. -/
  | reconciles (id : String) (r : Reconcile)
  /-- The tracker or a command writes an existing row; only intake moves a row out of scheduled. -/
  | writes (id : RunID) (status : RunStatus) (started : Bool)
  /-- A caller deletes a run. -/
  | drops (id : RunID)

/-- One event. -/
def step : Event → World
  | .ticks elapsed reply =>
    let now := w.clock + elapsed
    match w.batch, reply with
    | [], .ok =>
      { w with
        schedules := leaseSchedules now w.schedules
        batch := claimDue now w.schedules
        clock := now }
    | [], .error => { w with clock := now }
    | _ :: _, _ => w
  | .serves c =>
    match w.batch with
    | [] => w
    | st :: rest => serve sha1 { w with batch := rest } st c
  | .restarts => { w with batch := [] }
  | .reconciles id r =>
    match w.schedules.find? fun s => s.id = id with
    | none => w
    | some st => { w with rows := reconcileScheduled sha1 w.rows st r }
  | .writes id status started =>
    match w.rows.lookup id with
    | none => w
    | some filed =>
      if filed.row.status = .runScheduled ∨ status = .runScheduled then w
      else { w with rows := w.rows.insert id ⟨filed.key, ⟨status, started, filed.row.continuous⟩⟩ }
  | .drops id => { w with rows := w.rows.erase id }

end Filament.Scheduler
