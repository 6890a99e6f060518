import Filament.Lib.Trace
import Filament.Run

/-!
# Run intake

`Submit` files a run under the id of its request and dispatches its trigger; when the dispatch of a
run it has filed fails, it deletes the row again.  A call that finds the row already filed reports
it, after dispatching the trigger once more if the run has not started.  `Schedule` files a row
ahead of its occurrence, which a later `Submit` promotes.

* `idFor` : the id of a request, stable when it has an idempotency key;
* `createRun` : the statement that inserts a row or promotes a scheduled one;
* `Call`, `Call.step` : one call of `Submit`, a step for each call to the store and the bus;
* `World`, `step` : any number of calls beside `Schedule`, the writers of existing rows and callers
  that delete runs.
-/

namespace Filament.Intake

/-- What `Submit` reads of a request. -/
structure Request where
  tenant : String
  idempotencyKey : String
  /-- `Options.Execution` is continuous. -/
  continuous : Bool
  deriving Repr, DecidableEq

/-- The id of a request: a digest of the tenant and the key, or a random id without one. -/
def idFor (sha1 : String → String) (random : String) (req : Request) : String :=
  if req.idempotencyKey = "" then random else sha1 (req.tenant ++ "|" ++ req.idempotencyKey)

/-- What `Submit` reads of a row. -/
structure Row where
  status : RunStatus
  /-- A start has been observed. -/
  started : Bool
  /-- The request's execution is continuous. -/
  continuous : Bool
  deriving Repr, DecidableEq

/-- What `CreateRun` reports. -/
inductive Created where
  | created
  | conflict
  deriving Repr, DecidableEq

/-- `CreateRun` : insert the row, or promote one that is still scheduled; the columns of a start that
was observed are kept. -/
def createRun (existing : Option Row) (row : Row) : Created × Option Row :=
  match existing with
  | none => (.created, some row)
  | some old =>
    if old.status = .runScheduled then (.created, some { row with started := old.started })
    else (.conflict, some old)

/-! ### One call of `Submit` -/

/-- Where a call is, or how it has returned. -/
inductive Phase where
  | creating
  /-- The row was there; it is read. -/
  | loading
  /-- The trigger is published; `owned` when this call has filed the row. -/
  | dispatching (owned : Bool)
  /-- The dispatch of a row this call has filed failed. -/
  | deleting
  | accepted
  | failed
  deriving Repr, DecidableEq

/-- A call of `Submit`. -/
structure Call where
  id : String
  continuous : Bool
  phase : Phase
  /-- A caller has deleted the run since this call began. -/
  dropped : Bool
  deriving Repr, DecidableEq

/-- The result of a call to the store or the bus. -/
inductive Reply where
  | ok
  | error
  deriving Repr, DecidableEq

/-- The rows by run id, and the calls of `Submit`. -/
structure World where
  rows : String → Option Row
  calls : List Call

/-- Before the first call. -/
def World.start (rows : String → Option Row) : World := ⟨rows, []⟩

/-- Move the call `i` to another phase. -/
def World.move (w : World) (i : ℕ) (c : Call) (phase : Phase) : World :=
  { w with calls := w.calls.set i { c with phase := phase } }

/-- Write the row of a run. -/
def World.write (w : World) (id : String) (row : Option Row) : World :=
  { w with rows := Function.update w.rows id row }

/-- The status a call files its row under: a continuous run whose stream has a live run waits as
scheduled. -/
def filed (c : Call) (live : Bool) : Row :=
  ⟨if c.continuous && live then .runScheduled else .runRequested, false, c.continuous⟩

/-- After `CreateRun` has conflicted: progressed runs, and continuous ones, need no dispatch. -/
def inspect (row : Row) : Phase :=
  if row.continuous then .accepted
  else if row.status ≠ .runRequested || row.started then .accepted
  else .dispatching false

/-- After a dispatch. -/
def dispatched (c : Call) (owned : Bool) : Reply → Phase
  | .ok => .accepted
  | .error => if owned then (if c.continuous then .accepted else .deleting) else .failed

/-- One call to the store or the bus by the call `i`, with its reply. -/
def Call.step (w : World) (i : ℕ) (c : Call) (live : Bool) (reply : Reply) : World :=
  match c.phase with
  | .creating =>
    match reply with
    | .error => w.move i c .failed
    | .ok =>
      match createRun (w.rows c.id) (filed c live) with
      | (.created, row) => (w.write c.id row).move i c (.dispatching true)
      | (.conflict, _) => w.move i c .loading
  | .loading =>
    match reply, w.rows c.id with
    | .ok, some row => w.move i c (inspect row)
    | _, _ => w.move i c .failed
  | .dispatching owned => w.move i c (dispatched c owned reply)
  | .deleting =>
    match reply with
    | .ok => (w.write c.id none).move i c .failed
    | .error => w.move i c .failed
  | .accepted => w
  | .failed => w

/-! ### Interleavings -/

/-- An event. -/
inductive Event where
  /-- `Submit` is called; `random` is the id it draws. -/
  | begins (req : Request) (random : String)
  /-- The call `i` goes on; `live` when its stream has a live run. -/
  | steps (i : ℕ) (live : Bool) (reply : Reply)
  /-- `Schedule` files a row ahead. -/
  | schedules (id : String) (continuous : Bool)
  /-- The tracker or a command writes an existing row; only intake files a row as scheduled. -/
  | writes (id : String) (status : RunStatus) (started : Bool)
  /-- A caller deletes the run. -/
  | drops (id : String)

/-- One event. -/
def step (sha1 : String → String) (w : World) : Event → World
  | .begins req random =>
    { w with calls := w.calls ++ [⟨idFor sha1 random req, req.continuous, .creating, false⟩] }
  | .steps i live reply =>
    match w.calls[i]? with
    | none => w
    | some c => c.step w i live reply
  | .schedules id continuous =>
    w.write id (createRun (w.rows id) ⟨.runScheduled, false, continuous⟩).2
  | .writes id status started =>
    match w.rows id with
    | none => w
    | some row =>
      if status = .runScheduled then w else w.write id (some ⟨status, started, row.continuous⟩)
  | .drops id =>
    { w with
      rows := Function.update w.rows id none
      calls := w.calls.map fun c => if c.id = id then { c with dropped := true } else c }

end Filament.Intake
