import Filament.Run
import Filament.Checkpoint

/-!
# The run store

The tables behind a run (package `datastore/sqlite`): run rows with their resource states, the
high-water mark of folded facts, the cursors of one run and the cursors shared by the runs of a
pipeline route.

* `Store.loadRun`, `Store.saveRun` : the read and the upsert of a run row;
* `Store.transitionRun` : the compare-and-swap of a lifecycle command;
* `Store.dedupSeen` : the mark a fact advances;
* `Store.saveCheckpoint`, `Store.saveResourceCheckpoint` : run-scoped and pipeline-scoped cursors.

Every operation is one transaction: an operation that fails leaves the store as it was.
-/

namespace Filament

open Checkpoint

/-- Why a store operation failed: no such row for the tenant, or anything else. -/
inductive StoreError where
  | errNotFound
  | failed
  | errVersionConflict
  deriving DecidableEq, Repr

/-- A pipeline-scoped cursor and the run that wrote it last. -/
structure ResourceCheckpointState where
  tenant : TenantID
  run : RunID
  cursor : Cursor
  deriving DecidableEq, Repr

/-- The primary key of a pipeline-scoped cursor. -/
structure CheckpointRow where
  pipelineID : String
  pipelineVersionID : String
  route : String
  resource : String
  deriving DecidableEq, Repr

/-- The row a key is filed under. -/
def ResourceCheckpointKey.row (key : ResourceCheckpointKey) : CheckpointRow :=
  ⟨key.pipelineID, key.pipelineVersionID, key.route, key.resource⟩

/-- The tables. -/
structure Store where
  runs : RunID → Option RunState
  marks : TenantID × RunID → Option ℕ
  checkpoints : RunID × String → Option (TenantID × Cursor)
  resourceCheckpoints : CheckpointRow → Option ResourceCheckpointState

/-- A resource row keeps no enabled flag: it is read back as set. -/
def ResourceState.stored (rs : ResourceState) : ResourceState := { rs with enabled := true }

/-- The row after an upsert: lifecycle stamps are first-write-wins, and resource rows that the saved
state does not carry stay. -/
def RunState.upsert (old : Option RunState) (r : RunState) : RunState :=
  { r with
    startedAt := (old.bind RunState.startedAt).or r.startedAt
    endedAt := (old.bind RunState.endedAt).or r.endedAt
    resources := fun name =>
      ((r.resources name).map ResourceState.stored).or (old.bind fun o => o.resources name) }

/-- What a transition does besides setting the status. -/
structure RunTransitionOptions where
  resetExecution : Bool
  preserveProgress : Bool
  ended : Bool
  deriving DecidableEq, Repr

/-- Clears the attempt-local state of a resource. -/
def ResourceState.reset (preserveProgress : Bool) (rs : ResourceState) : ResourceState :=
  { rs with
    status := .runRequested
    records := if preserveProgress then rs.records else 0
    bytes := if preserveProgress then rs.bytes else 0
    error := "" }

/-- The row after a transition. -/
def RunState.transition (target : RunStatus) (opts : RunTransitionOptions) (now : ℕ) (r : RunState) :
    RunState :=
  if opts.resetExecution then
    { r with
      status := target
      records := if opts.preserveProgress then r.records else 0
      bytes := if opts.preserveProgress then r.bytes else 0
      cpuSeconds := 0
      memoryPeakBytes := 0
      startedAt := none
      endedAt := none
      error := ""
      resources := fun name => (r.resources name).map (ResourceState.reset opts.preserveProgress) }
  else
    { r with
      status := target
      endedAt := if opts.ended then r.endedAt.or (some now) else r.endedAt }

@[simp] theorem RunState.status_transition (target : RunStatus) (opts : RunTransitionOptions) (now : ℕ)
    (r : RunState) : (r.transition target opts now).status = target := by
  unfold RunState.transition
  split_ifs <;> rfl

namespace Store

variable (s : Store)

/-- Loads a run with its resource states; the id is the row's. -/
def loadRun (tenant : TenantID) (run : RunID) : Except StoreError RunState :=
  match s.runs run with
  | some r => if r.tenant = tenant then .ok { r with run := run } else .error .errNotFound
  | none => .error .errNotFound

/-- The store with another row of a run. -/
def setRun (run : RunID) (r : RunState) : Store :=
  { s with runs := Function.update s.runs run (some r) }

/-- Upserts a run; a row of another tenant is not touched. -/
def saveRun (r : RunState) : Except StoreError Store :=
  if ∀ old ∈ s.runs r.run, old.tenant = r.tenant then
    .ok (s.setRun r.run (r.upsert (s.runs r.run)))
  else .error .errNotFound

/-- Moves a run whose status is one of `source` to `target`. -/
def transitionRun (tenant : TenantID) (run : RunID) (source : List RunStatus)
    (target : RunStatus) (opts : RunTransitionOptions) (now : ℕ) : Except StoreError Store :=
  match s.loadRun tenant run with
  | .error e => .error e
  | .ok r =>
    if r.status ∈ source then
      .ok (s.setRun run (r.transition target opts now))
    else .error .errVersionConflict

/-- Advances the mark of a run and reports whether it was already there. A mark refers to its
run. -/
def dedupSeen (tenant : TenantID) (run : RunID) (seq : ℕ) : Except StoreError (Bool × Store) :=
  if s.runs run = none then .error .failed
  else if ∃ last ∈ s.marks (tenant, run), seq ≤ last then .ok (true, s)
  else .ok (false, { s with marks := Function.update s.marks (tenant, run) (some seq) })

/-- The store with another cursor of a run's resource. -/
def setCheckpoint (run : RunID) (resource : String) (tenant : TenantID) (cursor : Cursor) : Store :=
  { s with checkpoints := Function.update s.checkpoints (run, resource) (some (tenant, cursor)) }

/-- Upserts a resource's cursor for a run. -/
def saveCheckpoint (tenant : TenantID) (run : RunID) (cp : CheckpointData) :
    Except StoreError Store :=
  match s.loadRun tenant run with
  | .error e => .error e
  | .ok _ =>
    if ∀ old ∈ s.checkpoints (run, cp.resourceName), old.1 = tenant then
      .ok (s.setCheckpoint run cp.resourceName tenant cp.cursor)
    else .error .errNotFound

/-- A resource's saved cursor for a run. -/
def loadCheckpoint (tenant : TenantID) (run : RunID) (resource : String) :
    Except StoreError CheckpointData :=
  match s.checkpoints (run, resource) with
  | some (t, cursor) => if t = tenant then .ok ⟨resource, cursor⟩ else .error .errNotFound
  | none => .error .errNotFound

/-- The store with another pipeline-scoped cursor. -/
def setResourceCheckpoint (row : CheckpointRow) (state : ResourceCheckpointState) : Store :=
  { s with resourceCheckpoints := Function.update s.resourceCheckpoints row (some state) }

/-- Upserts durable cross-run progress. -/
def saveResourceCheckpoint (tenant : TenantID) (key : ResourceCheckpointKey)
    (run : RunID) (cp : CheckpointData) : Except StoreError Store :=
  if cp.resourceName ≠ key.resource then .error .failed
  else if ∀ old ∈ s.resourceCheckpoints key.row, old.tenant = tenant then
    .ok (s.setResourceCheckpoint key.row ⟨tenant, run, cp.cursor⟩)
  else .error .errNotFound

/-- Durable cross-run progress. -/
def loadResourceCheckpoint (tenant : TenantID) (key : ResourceCheckpointKey) :
    Except StoreError CheckpointData :=
  match s.resourceCheckpoints key.row with
  | some state =>
    if state.tenant = tenant then .ok ⟨key.resource, state.cursor⟩
    else .error .errNotFound
  | none => .error .errNotFound

/-! ### What an operation that succeeds has done -/

variable {s s' : Store} {tenant : TenantID} {run : RunID} {r : RunState} {seen : Bool} {seq : ℕ}

theorem loadRun_eq_ok :
    s.loadRun tenant run = .ok r ↔
      ∃ row, s.runs run = some row ∧ row.tenant = tenant ∧ { row with run := run } = r := by
  unfold loadRun
  cases h : s.runs run with
  | none => simp
  | some row =>
    by_cases ht : row.tenant = tenant <;> simp [ht]

theorem saveRun_eq_ok (h : s.saveRun r = .ok s') :
    s' = s.setRun r.run (r.upsert (s.runs r.run)) := by
  unfold saveRun at h
  split_ifs at h
  cases h
  rfl

@[simp] theorem setRun_runs_self (s : Store) (run : RunID) (r : RunState) :
    (s.setRun run r).runs run = some r :=
  Function.update_self ..

theorem dedupSeen_eq_ok (h : s.dedupSeen tenant run seq = .ok (seen, s')) :
    (seen = true ∧ s' = s ∧ ∃ last ∈ s.marks (tenant, run), seq ≤ last) ∨
      (seen = false ∧ (∀ last ∈ s.marks (tenant, run), last < seq) ∧
        s' = { s with marks := Function.update s.marks (tenant, run) (some seq) }) := by
  unfold dedupSeen at h
  split_ifs at h with hrun hseen
  · cases h
    exact .inl ⟨rfl, rfl, hseen⟩
  · cases h
    refine .inr ⟨rfl, fun last hlast => ?_, rfl⟩
    exact Nat.lt_of_not_le fun hle => hseen ⟨last, hlast, hle⟩

theorem dedupSeen_runs (h : s.dedupSeen tenant run seq = .ok (seen, s')) : s'.runs = s.runs := by
  rcases dedupSeen_eq_ok h with ⟨-, rfl, -⟩ | ⟨-, -, rfl⟩ <;> rfl

variable {cp : CheckpointData} {key : ResourceCheckpointKey}

theorem saveCheckpoint_eq_ok (h : s.saveCheckpoint tenant run cp = .ok s') :
    s' = s.setCheckpoint run cp.resourceName tenant cp.cursor := by
  unfold saveCheckpoint at h
  cases hr : s.loadRun tenant run with
  | error e =>
    rw [hr] at h
    cases h
  | ok r =>
    simp only [hr] at h
    split_ifs at h
    cases h
    rfl

theorem loadCheckpoint_eq_ok {resource : String} :
    s.loadCheckpoint tenant run resource = .ok cp ↔
      s.checkpoints (run, resource) = some (tenant, cp.cursor) ∧ cp.resourceName = resource := by
  obtain ⟨name, cursor⟩ := cp
  unfold loadCheckpoint
  cases h : s.checkpoints (run, resource) with
  | none => simp
  | some row =>
    obtain ⟨t, cursor'⟩ := row
    by_cases ht : t = tenant
    · simp [ht, eq_comm, and_comm]
    · simp [ht]

theorem loadResourceCheckpoint_eq_ok :
    s.loadResourceCheckpoint tenant key = .ok cp ↔
      ∃ run, s.resourceCheckpoints key.row = some ⟨tenant, run, cp.cursor⟩ ∧
        cp.resourceName = key.resource := by
  obtain ⟨name, cursor⟩ := cp
  unfold loadResourceCheckpoint
  cases h : s.resourceCheckpoints key.row with
  | none => simp
  | some state =>
    obtain ⟨t, run, cursor'⟩ := state
    by_cases ht : t = tenant
    · simp [ht, eq_comm, and_comm]
    · simp [ht]

theorem saveResourceCheckpoint_eq_ok (h : s.saveResourceCheckpoint tenant key run cp = .ok s') :
    s' = s.setResourceCheckpoint key.row ⟨tenant, run, cp.cursor⟩ := by
  unfold saveResourceCheckpoint at h
  split_ifs at h
  cases h
  rfl

end Store

end Filament
