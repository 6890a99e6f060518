import Filament.Postgres.ExtractChanges

/-!
# Releasing the source's slot

`acknowledgeDurableChanges` lets the source forget what every resource of a replication stream has
durably taken: it lists the stored cursors of the stream's active resources and hands them to
`AcknowledgeChanges`, which advances the slot to the least of them.  A run does this when it starts
and once more after it has completed, when the row of the run may be settled already and the next
run of the route under way.

The model is one replication stream of one route, with all the runs of its history:

* `reconcileStreamMembership`, `saveStreamResourceCheckpoint`, `deleteStreamResourceCheckpoint`,
  `listStreamResourceCheckpoints` : the statements of the store;
* `waitForDurableStreamCheckpoints`, `routeStreamCheckpoints`, `acknowledgeChanges` : the runner's
  acknowledgement, one step for each of its calls;
* `creates` : a run is admitted when no run of the route is active or paused;
* `streams`, `marks` : what a cycle of `ExtractChanges` may report;
* `ends`, `promotes`, `settles` : the terminal fact, and the tracker's saves one by one.
-/

namespace Filament.Acknowledge

open Postgres (LSN StoredCursor Checkpoints startPostgresLSN postgresResourceFloors)

/-! ### The stream's resources -/

/-- The status of a resource of the stream. -/
inductive Membership where
  | pending
  | active
  | retired
  deriving Repr, DecidableEq

/-- A row of `replication_stream_resources` with its checkpoint row. -/
structure Member where
  status : Membership
  cursor : Option StoredCursor
  deriving Repr, DecidableEq

/-- The members of the stream by resource name, which is unique, and the names in use. -/
structure Members where
  names : List String
  row : String → Option Member

namespace Members

/-- The cursor that `LoadStreamResourceCheckpoint` returns. -/
def load (m : Members) (resource : String) : Option StoredCursor :=
  match m.row resource with
  | some ⟨.active, cursor⟩ => cursor
  | _ => none

/-- `ListStreamResourceCheckpoints` : the cursors of the active members. -/
def listStreamResourceCheckpoints (m : Members) : Checkpoints :=
  m.names.filterMap fun resource => (m.load resource).map fun cursor => (resource, cursor)

/-- `UpsertReplicationStreamResource` : a new or retired member becomes pending. -/
def upsert : Option Member → Member
  | none => ⟨.pending, none⟩
  | some ⟨.retired, cursor⟩ => ⟨.pending, cursor⟩
  | some member => member

/-- `ReconcileReplicationStreamResources` : the members are the resources of the run, the ones left
out are retired. -/
def reconcileStreamMembership (m : Members) (resources : List String) : Members where
  names := m.names ∪ resources
  row := fun resource =>
    if resource ∈ resources then some (upsert (m.row resource))
    else (m.row resource).map fun member => { member with status := .retired }

/-- `SaveStreamResourceCheckpoint` : a member that is not retired takes the cursor and is active. -/
def saveStreamResourceCheckpoint (m : Members) (resource : String) (cursor : StoredCursor) :
    Option Members :=
  match m.row resource with
  | none => none
  | some ⟨.retired, _⟩ => none
  | some _ => some { m with row := Function.update m.row resource (some ⟨.active, some cursor⟩) }

/-- `DeleteStreamResourceCheckpoint` : the cursor goes, and the member is pending again. -/
def deleteStreamResourceCheckpoint (m : Members) (resource : String) : Members :=
  { m with
    row := Function.update m.row resource ((m.row resource).map fun member =>
      ⟨if member.status = .retired then .retired else .pending, none⟩) }

end Members

/-! ### Runs -/

/-- The terminal fact of a run: completed, paused with a committed sink, or anything that promotes
no cursor. -/
inductive Outcome where
  | completed
  | paused
  | failed
  deriving Repr, DecidableEq

/-- The row of a run as the index over active runs sees it. -/
inductive Row where
  | active
  | paused
  | ended
  deriving Repr, DecidableEq

/-- Where a run is. -/
inductive Phase where
  | reconciling
  | resyncing
  | loading
  /-- Waiting for the store to reach these cursors, none when the run starts. -/
  | waiting (targets : Checkpoints)
  | listing
  /-- About to call `AcknowledgeChanges` with these checkpoints. -/
  | calling (floor : Checkpoints)
  | snapshotting
  | positioning
  | reading
  /-- The final position has been reported for every resource. -/
  | marked
  | over
  deriving Repr, DecidableEq

/-- A bounded CDC run of the route. -/
structure Run where
  resources : List String
  resync : List String
  phase : Phase
  /-- The second acknowledgement has been reached. -/
  finishing : Bool
  /-- The cursors the run resumes from. -/
  checkpoints : Checkpoints
  /-- The position read before the snapshot of the resources without a cursor, and the one read
  after it. -/
  bootstrap : LSN
  watermark : LSN
  /-- The newest cursor reported for each resource. -/
  latest : Checkpoints
  /-- The terminal fact on its way to the tracker. -/
  published : Option Outcome
  /-- The cursors that the tracker still has to save for it. -/
  flushing : Checkpoints
  row : Row

/-- The source database, the store and the runs. -/
structure World where
  wal : LSN
  slot : LSN
  members : Members
  runs : List Run

/-- A new stream. -/
def World.fresh (wal slot : LSN) : World := ⟨wal, slot, ⟨[], fun _ => none⟩, []⟩

/-- A run before its first step. -/
def Run.create (resources resync : List String) : Run where
  resources := resources
  resync := resync
  phase := .reconciling
  finishing := false
  checkpoints := []
  bootstrap := 0
  watermark := 0
  latest := []
  published := none
  flushing := []
  row := .active

/-! ### The acknowledgement -/

/-- Whether the durable cursor is at or beyond the target, by sequence and then position. -/
def streamCheckpointReached : StoredCursor → StoredCursor → Bool
  | .stream durableLSN durableSeq, .stream targetLSN targetSeq =>
    if durableSeq < targetSeq then false else durableSeq > targetSeq || durableLSN == targetLSN
  | _, _ => false

/-- Whether one pass of `waitForDurableStreamCheckpoints` finds every target reached. -/
def waitForDurableStreamCheckpoints (m : Members) (targets : Checkpoints) : Bool :=
  targets.all fun target =>
    match m.load target.1 with
    | none => false
    | some durable => streamCheckpointReached durable target.2

/-- `routeStreamCheckpoints` : the stored cursors that are stream cursors. -/
def routeStreamCheckpoints (m : Members) : Checkpoints :=
  m.listStreamResourceCheckpoints.filter fun state => state.2 != .notStream

/-- The position that `AcknowledgeChanges` derives, if it derives one. -/
def position (checkpoints : Checkpoints) : Option LSN :=
  match startPostgresLSN checkpoints with
  | .ok (start, _) => start
  | .error _ => none

/-- `AcknowledgeChanges` : the slot never moves back. -/
def acknowledgeChanges (slot : LSN) (checkpoints : Checkpoints) : LSN :=
  match position checkpoints with
  | none => slot
  | some target => max slot target

/-- Where a run goes on after an acknowledgement. -/
def Run.acknowledged (r : Run) : Run :=
  { r with phase := if r.finishing then .over else .snapshotting }

/-! ### Steps -/

/-- Replace the run `i`. -/
def World.put (w : World) (i : ℕ) (r : Run) : World := { w with runs := w.runs.set i r }

/-- The cursors of the resources that have one. -/
def loadChangeCheckpoints (m : Members) (resources : List String) : Checkpoints :=
  resources.filterMap fun resource => (m.load resource).map fun cursor => (resource, cursor)

/-- Where the changes of a resource start in this run, unless the cursors are refused. -/
def Run.floor (r : Run) (resource : String) : Option LSN :=
  match postgresResourceFloors r.checkpoints with
  | .ok floors => some ((floors resource).getD r.bootstrap)
  | .error _ => none

/-- The newest cursor of a resource. -/
def Run.report (r : Run) (resource : String) (lsn : LSN) (seq : ℕ) : Run :=
  { r with latest := (resource, .stream lsn seq) :: r.latest.filter fun cp => cp.1 != resource }

/-- An event of the history. -/
inductive Event where
  /-- The source writes more. -/
  | advances (n : ℕ)
  /-- A run is submitted. -/
  | creates (resources resync : List String)
  /-- A paused run is resumed. -/
  | resumes (i : ℕ)
  | reconciles (i : ℕ)
  | resyncs (i : ℕ)
  | loads (i : ℕ)
  | waits (i : ℕ)
  | lists (i : ℕ)
  | calls (i : ℕ)
  /-- The acknowledgement gives up with an error. -/
  | skips (i : ℕ)
  | snapshots (i : ℕ)
  | watermarks (i : ℕ)
  /-- A batch of a resource was written, with its last row's position. -/
  | streams (i : ℕ) (resource : String) (lsn : LSN) (seq : ℕ)
  /-- The final position was reported for every resource. -/
  | marks (i : ℕ) (lsn : LSN) (seq : ℕ)
  | ends (i : ℕ) (outcome : Outcome)
  /-- The tracker saves one cursor of a terminal fact, the ones before it being saved or failed. -/
  | promotes (i : ℕ) (resource : String)
  /-- The tracker saves the row of the run. -/
  | settles (i : ℕ)

/-- One event on the run `i`. -/
def Run.step (w : World) (i : ℕ) (r : Run) : Event → World
  | .resumes _ =>
    if r.row = .paused then w.put i (Run.create r.resources r.resync) else w
  | .reconciles _ =>
    if r.phase = .reconciling then
      { w with members := w.members.reconcileStreamMembership r.resources }.put i
        { r with phase := .resyncing }
    else w
  | .resyncs _ =>
    if r.phase = .resyncing then
      { w with members := r.resync.foldl Members.deleteStreamResourceCheckpoint w.members }.put i
        { r with phase := .loading }
    else w
  | .loads _ =>
    if r.phase = .loading then
      w.put i { r with
        checkpoints := loadChangeCheckpoints w.members r.resources, phase := .waiting [] }
    else w
  | .waits _ =>
    match r.phase with
    | .waiting targets =>
      if waitForDurableStreamCheckpoints w.members targets then w.put i { r with phase := .listing }
      else w
    | _ => w
  | .lists _ =>
    if r.phase = .listing then
      match routeStreamCheckpoints w.members with
      | [] => w.put i r.acknowledged
      | cp :: cps => w.put i { r with phase := .calling (cp :: cps) }
    else w
  | .calls _ =>
    match r.phase with
    | .calling floor =>
      { w with slot := acknowledgeChanges w.slot floor }.put i r.acknowledged
    | _ => w
  | .skips _ =>
    match r.phase with
    | .waiting _ => w.put i r.acknowledged
    | .listing => w.put i r.acknowledged
    | _ => w
  | .snapshots _ =>
    match startPostgresLSN r.checkpoints with
    | .error _ => w
    | .ok (start, _) =>
      if r.phase = .snapshotting ∧ w.slot ≤ start.getD w.slot then
        w.put i { r with bootstrap := w.wal, phase := .positioning }
      else w
  | .watermarks _ =>
    if r.phase = .positioning then
      w.put i { r with watermark := w.wal, phase := .reading }
    else w
  | .streams _ resource lsn seq =>
    match r.floor resource with
    | none => w
    | some floor =>
      if r.phase = .reading ∧ resource ∈ r.resources ∧ floor ≤ lsn ∧ lsn ≤ w.wal then
        w.put i (r.report resource lsn seq)
      else w
  | .marks _ lsn seq =>
    if r.phase = .reading ∧ r.watermark ≤ lsn ∧ lsn ≤ w.wal then
      w.put i { r with
        latest := r.resources.map fun resource => (resource, .stream lsn seq), phase := .marked }
    else w
  | .ends _ outcome =>
    if r.published = none then
      match outcome with
      | .completed =>
        if r.phase = .marked then
          w.put i { r with
            published := some .completed, flushing := r.latest, finishing := true
            phase := .waiting r.latest }
        else w
      | .paused =>
        w.put i { r with published := some .paused, flushing := r.latest, phase := .over }
      | .failed => w.put i { r with published := some .failed, phase := .over }
    else w
  | .promotes _ resource =>
    match r.flushing.lookup resource with
    | none => w
    | some cursor =>
      match w.members.saveStreamResourceCheckpoint resource cursor with
      | none => w
      | some members =>
        { w with members := members }.put i
          { r with flushing := r.flushing.filter fun cp => cp.1 != resource }
  | .settles _ =>
    if r.flushing = [] then
      match r.published with
      | none => w
      | some .paused => w.put i { r with row := .paused }
      | some _ => w.put i { r with row := .ended }
    else w
  | _ => w

/-- The run an event is about. -/
def Event.run : Event → Option ℕ
  | .advances _ => none
  | .creates _ _ => none
  | .resumes i => some i
  | .reconciles i => some i
  | .resyncs i => some i
  | .loads i => some i
  | .waits i => some i
  | .lists i => some i
  | .calls i => some i
  | .skips i => some i
  | .snapshots i => some i
  | .watermarks i => some i
  | .streams i _ _ _ => some i
  | .marks i _ _ => some i
  | .ends i _ => some i
  | .promotes i _ => some i
  | .settles i => some i

/-- One event; an event that is not possible changes nothing. -/
def step (w : World) (event : Event) : World :=
  match event, event.run with
  | .advances n, _ => { w with wal := w.wal + n }
  | .creates resources resync, _ =>
    -- `runs_active_replication_route_idx` admits one active run for the route.
    if w.runs.all fun r => r.row == .ended then
      { w with runs := w.runs ++ [Run.create resources resync] }
    else w
  | event, some i =>
    match w.runs[i]? with
    | none => w
    | some r => r.step w i event
  | _, none => w

end Filament.Acknowledge
