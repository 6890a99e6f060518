import Filament.Lib.Trace
import Filament.Stream.Attempts

/-!
# The stream store as a system

The operations of supervisors, workers and callers on one store, in any order.  Every operation is a
transaction under the lock of its pipeline; the database clock only advances.

* `Op`, `Event` : an operation, and the time that passes before its checks and its writes;
* `exec`, `step` : what it does; an operation that fails changes nothing;
* `submitted`, `scheduled` : the rows that callers create runs from (`internal/runs/runs.go`).
-/

namespace Filament.Streams

/-- The row a caller submits a run with. -/
def submitted (run : RunID) (request : RunRequest) : RunState :=
  { RunState.fresh run request.tenant with request := request }

/-- The row of a run created ahead of its schedule. -/
def scheduled (run : RunID) (request : RunRequest) : RunState :=
  { submitted run request with status := .runScheduled }

/-- An operation on the store. -/
inductive Op where
  | submit (run : RunID) (request : RunRequest) (desired : Option DesiredStream)
  | schedule (run : RunID) (request : RunRequest)
  | resolve (desired : DesiredStream)
  | reconcile (id : String) (tenant : TenantID) (resources : List String) (bootstrapMode : String)
  | activate (request : StreamStateRequest) (spec : RunSpec)
  | setDesired (change : DesiredStateChange)
  | start (request : StartAttemptRequest)
  | claim (lease : LeaseToken)
  | renew (lease : LeaseToken) (ttl : ℕ)
  | yield (lease : LeaseToken)
  | finish (lease : LeaseToken) (termination : AttemptTermination) (reason : String)
  | retire (lease : LeaseToken)
  | commit (request : EpochCommit)
  deriving DecidableEq, Repr

/-- What the operation makes of the tables. -/
def exec (codecs : Codecs) (t : Tables) (clock : Clock) : Op → Except StreamError Tables
  | .submit run request desired => createRun t (submitted run request) desired clock
  | .schedule run request => createRun t (scheduled run request) none clock
  | .resolve desired => Prod.snd <$> resolveReplicationStream t desired
  | .reconcile id tenant resources mode =>
    reconcileReplicationStreamResources t id tenant resources mode
  | .activate request spec => activateStream t request spec
  | .setDesired change => setDesiredState t change clock.stamp
  | .start request => Prod.snd <$> startAttempt t request clock.stamp
  | .claim lease => claimStreamAttempt t lease clock
  | .renew lease ttl => renewLease t lease ttl clock
  | .yield lease => yieldAttempt t lease clock.stamp
  | .finish lease termination reason => endAttempt t lease termination reason clock
  | .retire lease => retireUnclaimedAttempt t lease clock.stamp
  | .commit request => Prod.snd <$> commitEpoch codecs t request clock

/-- An operation whose transaction began at `began`, made its checks after `wait` and its writes
after another `work`. -/
structure Event where
  op : Op
  began : ℕ
  wait : ℕ
  work : ℕ
  deriving DecidableEq, Repr

/-- The store and the database clock. -/
structure System where
  tables : Tables
  clock : ℕ

variable (codecs : Codecs) (s : System) (e : Event)

/-- The readings of a transaction. -/
def System.reading : Clock := ⟨e.began, s.clock + e.wait, s.clock + e.wait + e.work⟩

/-- The operation of an event commits with the tables `t`. -/
def System.Commits (t : Tables) : Prop :=
  exec codecs s.tables (s.reading e) e.op = .ok t

/-- A committed operation replaces the tables; the clock advances either way. -/
def step : System :=
  match exec codecs s.tables (s.reading e) e.op with
  | .ok t => ⟨t, (s.reading e).stamp⟩
  | .error _ => ⟨s.tables, (s.reading e).stamp⟩

theorem step_of_commits {codecs : Codecs} {s : System} {e : Event} {t : Tables}
    (h : s.Commits codecs e t) : step codecs s e = ⟨t, (s.reading e).stamp⟩ := by
  unfold System.Commits at h
  simp only [step, h]

theorem step_cases :
    (step codecs s e).tables = s.tables ∨ s.Commits codecs e (step codecs s e).tables := by
  unfold step System.Commits
  cases h : exec codecs s.tables (s.reading e) e.op with
  | error => exact .inl rfl
  | ok t => exact .inr rfl

theorem commits_of_isOk {codecs : Codecs} {s : System} {e : Event}
    (h : (exec codecs s.tables (s.reading e) e.op).isOk = true) :
    s.Commits codecs e (step codecs s e).tables := by
  unfold step System.Commits
  cases hexec : exec codecs s.tables (s.reading e) e.op with
  | error => simp [hexec, Except.isOk, Except.toBool] at h
  | ok t => rfl

/-- A store with pipelines and nothing else. -/
def System.fresh (pipelines : String → Option Pipeline) : System := ⟨.fresh pipelines, 0⟩

end Filament.Streams
