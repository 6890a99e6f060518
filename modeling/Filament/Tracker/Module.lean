import Mathlib.Data.List.AList
import Filament.Datastore.Runs

/-!
# The tracker

Module `tracker` folds the facts of the bus into the run store. It keeps, between facts, the cursors
accumulated for each resource and what it needs to decide when to persist them.

* `Fact`, `Data` : the facts it folds;
* `Module` : its memory, lost when the process restarts;
* `update` : what a fact does to the run state;
* `persistCheckpoint`, `foldCursor`, `flushResource`, `flushRunFor` : the cursors;
* `apply`, `onFact` : the handler.

Every call of the store may fail: `fails` says which calls of one delivery do. A failed call changes
nothing in the store.
-/

namespace Filament.Tracker

open Checkpoint

/-- What every fact carries. -/
structure Envelope where
  tenant : TenantID
  run : RunID
  resource : String
  stamp : ℕ
  deriving DecidableEq, Repr

/-- The payload of a fact; `other` are the facts that are not folded. -/
inductive Data where
  | runRequested
  | runStarted
  | runCompleted (records bytes : ℤ)
  | runFailed (error : String)
  | runPartial (error : String)
  | runCanceled
  | runPaused (committed : Bool)
  | heartbeat (cpuSeconds : ℚ) (memoryBytes memoryPeakBytes : ℤ)
  | resourceStarted
  | resourceCompleted (records bytes : ℤ)
  | resourceFailed (error : String)
  | batchWritten (records bytes : ℤ) (checkpoint : Option CheckpointData)
      (checkpointPolicy : CheckpointPolicy)
  | checkpointSaved (checkpoint : Option CheckpointData)
  | runPauseRequested
  | runCancelRequested
  | notifierAttempted
  | other
  deriving DecidableEq

/-- One fact. -/
structure Fact where
  env : Envelope
  data : Data
  deriving DecidableEq

/-- A message of the bus: the fact it decodes to, `none` for a foreign one, and its stream
sequence. -/
structure Message where
  fact : Option Fact
  seq : ℕ
  deriving DecidableEq

/-- The facts that end an attempt. -/
def Data.terminal : Data → Bool
  | .runCompleted _ _ | .runFailed _ | .runPartial _ | .runCanceled | .runPaused _ => true
  | _ => false

/-- The store calls of one delivery; a flush makes the last three for several resources. -/
inductive Call where
  | executionModeLoadRun
  | dedupSeen
  | mutateLoadRun
  | mutateSaveRun
  | cadenceLoadRun
  | loadCheckpoint
  | loadCheckpointLoadRun
  | loadResourceCheckpoint
  | loadCheckpointAgain
  | persistLoadRun (resource : String)
  | saveCheckpoint (resource : String)
  | saveResourceCheckpoint (resource : String)
  deriving DecidableEq, Repr

/-- A store call that may fail. -/
def Call.attempt {α : Type} (fails : Call → Bool) (c : Call) (result : Except StoreError α) :
    Except StoreError α :=
  if fails c then .error .failed else result

/-- The key of an accumulator. -/
structure CkKey where
  run : RunID
  resource : String
  deriving DecidableEq, Repr

/-- The accumulator a fact is about. -/
def Envelope.key (env : Envelope) : CkKey := ⟨env.run, env.resource⟩

/-- The key of a cached execution mode. -/
structure RunKey where
  tenant : TenantID
  run : RunID
  deriving DecidableEq, Repr

/-- Written rows per bitmap shard against the shard's expected total. -/
structure BmAccount where
  acked : ℤ → ℤ
  want : ℤ → Option ℤ

/-- An account without rows. -/
def newBmAccount : BmAccount := ⟨fun _ => 0, fun _ => none⟩

/-- The memory of the tracker. An entry of `cp` may hold no cursor: none was stored when it was
made. -/
structure Module where
  modes : AList (fun _ : RunKey => ExecutionMode)
  cp : AList (fun _ : CkKey => Option CheckpointData)
  since : CkKey → ℤ
  every : RunID → Option ℤ
  bm : CkKey → Option BmAccount
  boundary : CkKey → CheckpointPolicy

/-- A tracker that has folded nothing. -/
def Module.new : Module := ⟨∅, ∅, fun _ => 0, fun _ => none, fun _ => none, fun _ => .unset⟩

/-- The store and the tracker's memory. -/
structure World where
  store : Store
  mem : Module

/-! ### The run state -/

/-- The named resource's state, a fresh one if it is absent. -/
def resourceRef (r : RunState) (name : String) : ResourceState :=
  (r.resources name).getD ⟨true, .runRunning, 0, 0, ""⟩

/-- Updates the named resource's state. -/
def updateResource (name : String) (fn : ResourceState → ResourceState) (r : RunState) : RunState :=
  { r with resources := Function.update r.resources name (some (fn (resourceRef r name))) }

/-- A resource that was only requested runs. -/
def markRunning (rs : ResourceState) : ResourceState :=
  { rs with status := if rs.status = .runRequested then .runRunning else rs.status }

/-- Stamps the run's finish time once. -/
def finishedAt (stamp : ℕ) (r : RunState) : RunState :=
  { r with endedAt := r.endedAt.or (some stamp) }

/-- What folding a fact does to the run state. -/
def update (env : Envelope) (d : Data) (r : RunState) : RunState :=
  match d with
  | .runStarted => { r with status := .runRunning, startedAt := some env.stamp }
  | .runCompleted records bytes =>
    finishedAt env.stamp { r with status := .runCompleted, records := records, bytes := bytes }
  | .runFailed error => finishedAt env.stamp { r with status := .runFailed, error := error }
  | .runPartial error => finishedAt env.stamp { r with status := .runPartial, error := error }
  | .runCanceled => finishedAt env.stamp { r with status := .runCanceled }
  | .runPaused _ => finishedAt env.stamp { r with status := .runPaused }
  | .heartbeat cpuSeconds memoryBytes memoryPeakBytes =>
    { r with
      cpuSeconds := max r.cpuSeconds cpuSeconds
      memoryPeakBytes := max (max r.memoryPeakBytes memoryPeakBytes) memoryBytes }
  | .resourceStarted =>
    updateResource env.resource
      (fun rs => markRunning { rs with enabled := true }) r
  | .resourceCompleted records bytes =>
    updateResource env.resource
      (fun rs => { rs with status := .runCompleted, records := records, bytes := bytes }) r
  | .resourceFailed error =>
    updateResource env.resource (fun rs => { rs with status := .runFailed, error := error }) r
  | .batchWritten records bytes _ _ =>
    updateResource env.resource
      (fun rs => markRunning
        { rs with records := rs.records + records, bytes := rs.bytes + bytes })
      { r with records := r.records + records, bytes := r.bytes + bytes }
  | _ => r

section Handler

variable (unmarshal : String → Option (List String)) (fails : Call → Bool)

/-- Loads the run, applies `fn` and saves it back; the run is created on first sight. -/
def mutate (env : Envelope) (fn : RunState → RunState) (s : Store) : Except StoreError Store :=
  match Call.attempt fails .mutateLoadRun (s.loadRun env.tenant env.run) with
  | .ok r => Call.attempt fails .mutateSaveRun (s.saveRun (fn r))
  | .error .errNotFound =>
    Call.attempt fails .mutateSaveRun (s.saveRun (fn (RunState.fresh env.run env.tenant)))
  | .error e => .error e

/-! ### Cursors -/

/-- The run's own stored cursor. -/
def runCheckpoint (s : Store) (tenant : TenantID) (run : RunID) (resource : String) :
    Option CheckpointData :=
  (Call.attempt fails .loadCheckpointAgain (s.loadCheckpoint tenant run resource)).toOption

/-- The stored cursor: of the pipeline for progress shared across runs, else the run's own. -/
def storedCheckpoint (s : Store) (tenant : TenantID) (run : RunID) (resource : String) :
    Option CheckpointData :=
  match Call.attempt fails .loadCheckpointLoadRun (s.loadRun tenant run) with
  | .ok state =>
    if state.request.crossRun resource then
      match state.request.resourceCheckpointKey resource with
      | some key =>
        (Call.attempt fails .loadResourceCheckpoint (s.loadResourceCheckpoint tenant key)).toOption
      | none => runCheckpoint fails s tenant run resource
    else runCheckpoint fails s tenant run resource
  | .error _ => runCheckpoint fails s tenant run resource

/-- The stored cursor of a run's resource; replayed attempt state of the run comes first. -/
def loadCheckpoint (s : Store) (tenant : TenantID) (run : RunID) (resource : String) :
    Option CheckpointData :=
  match Call.attempt fails .loadCheckpoint (s.loadCheckpoint tenant run resource) with
  | .ok cp =>
    if requiresReplay (some cp) then some cp else storedCheckpoint fails s tenant run resource
  | .error _ => storedCheckpoint fails s tenant run resource

/-- Persists a cursor and reports whether it was written. Before the sink has committed
(`promoteCommitGated` is false) only replayed attempt state and cursors of full reads whose batches
are durable when they are written go to the run; cross-run progress is never written then. -/
def persistCheckpoint (m : Module) (s : Store) (tenant : TenantID) (run : RunID) (site : String)
    (cp : CheckpointData) (promoteCommitGated : Bool) : Except StoreError (Bool × Store) :=
  if !promoteCommitGated && requiresReplay (some cp) then
    (Call.attempt fails (.saveCheckpoint site) (s.saveCheckpoint tenant run cp)).map fun s =>
      (true, s)
  else if m.boundary ⟨run, cp.resourceName⟩ = .checkpointAfterCommit && !promoteCommitGated then
    .ok (false, s)
  else
    match Call.attempt fails (.persistLoadRun site) (s.loadRun tenant run) with
    | .error e => .error e
    | .ok state =>
      if state.request.crossRun cp.resourceName && !promoteCommitGated then .ok (false, s)
      else
        match state.request.crossRun cp.resourceName,
          state.request.resourceCheckpointKey cp.resourceName with
        | true, some key =>
          (Call.attempt fails (.saveResourceCheckpoint site)
            (s.saveResourceCheckpoint tenant key run cp)).map fun s => (true, s)
        | _, _ =>
          (Call.attempt fails (.saveCheckpoint site) (s.saveCheckpoint tenant run cp)).map fun s =>
            (true, s)

/-- The store after a persist whose error is only logged. -/
def persistLogged (m : Module) (s : Store) (tenant : TenantID) (run : RunID) (site : String)
    (cp : CheckpointData) : Store :=
  match persistCheckpoint fails m s tenant run site cp false with
  | .ok (_, s') => s'
  | .error _ => s

/-- The run's persist cadence, cached. -/
def cadence (tenant : TenantID) (run : RunID) (w : World) : ℤ × Module :=
  match w.mem.every run with
  | some n => (n, w.mem)
  | none =>
    let n :=
      match Call.attempt fails .cadenceLoadRun (w.store.loadRun tenant run) with
      | .ok r => if 0 < r.request.options.checkpointEvery then r.request.options.checkpointEvery else 25
      | .error _ => 25
    (n, { w.mem with every := Function.update w.mem.every run (some n) })

/-- The accumulated cursor of a resource; the stored one is recovered after a restart. -/
def accumulated (env : Envelope) (w : World) : Option CheckpointData × Module :=
  match w.mem.cp.lookup env.key with
  | some base => (base, w.mem)
  | none =>
    let base := loadCheckpoint fails w.store env.tenant env.run env.resource
    (base, { w.mem with cp := w.mem.cp.insert env.key base })

/-- Counts a written batch toward the cadence; the cursor comes back when it is to be persisted. -/
def countBatch (env : Envelope) (merged : CheckpointData) (always : Bool) (w : World) :
    Option CheckpointData × Module :=
  let m := { w.mem with
    cp := w.mem.cp.insert env.key (some merged)
    since := Function.update w.mem.since env.key (w.mem.since env.key + 1) }
  if always then (some merged, { m with since := Function.update m.since env.key 0 })
  else
    let (n, m) := cadence fails env.tenant env.run ⟨w.store, m⟩
    if n ≤ m.since env.key then (some merged, { m with since := Function.update m.since env.key 0 })
    else (none, m)

/-- Folds a keyset delta. -/
def foldShard (env : Envelope) (cp : CheckpointData) (w : World) : Option CheckpointData × Module :=
  let (base, m) := accumulated fails env w
  match mergeShardDelta base cp with
  | none => (none, m)
  | some merged =>
    countBatch fails env merged (requiresReplay (some merged)) ⟨w.store, m⟩

/-- Folds a change-stream position: the newer position replaces the cursor. -/
def foldStream (env : Envelope) (cp : CheckpointData) (w : World) : Option CheckpointData × Module :=
  let (base, m) := accumulated fails env w
  match mergeStream base cp with
  | none => (none, m)
  | some merged => countBatch fails env merged false ⟨w.store, m⟩

/-- The account of a bitmap shard after an ack or a completion marker. -/
def BmAccount.count (acct : BmAccount) (part ack want : ℤ) (hasWant : Bool) : BmAccount where
  acked := Function.update acct.acked part (acct.acked part + ack)
  want := if hasWant then Function.update acct.want part (some want) else acct.want

/-- Marks a shard of the plan as done. -/
def markDone (ks : KeysetCheckpoint) (part : ℤ) : KeysetCheckpoint :=
  { ks with shards := ks.shards.modify part.toNat fun s => { s with done := true } }

/-- All rows of the shard are written. -/
def BmAccount.complete (acct : BmAccount) (part : ℤ) : Bool :=
  match acct.want part with
  | none => false
  | some total => decide (total ≤ acct.acked part)

/-- The cursor with a shard of its plan marked as done; `none` without a plan, and for a shard that
is out of range or already done. -/
def completeShard (base : Option CheckpointData) (part : ℤ) : Option CheckpointData :=
  match base, parseKeyset base with
  | some b, some ks =>
    if part < 0 then none
    else
      match ks.shards[part.toNat]? with
      | none => none
      | some shard =>
        if shard.done then none else some ((markDone ks part).toCheckpoint b.resourceName)
  | _, _ => none

/-- Folds the write acks of a bitmap shard; a shard that is fully written is marked done in the
resource's cursor, which is persisted at once. -/
def foldBitmap (env : Envelope) (part ack want : ℤ) (hasWant : Bool) (w : World) :
    Option CheckpointData × Module :=
  let (base, m) := accumulated fails env w
  let acct := ((m.bm env.key).getD newBmAccount).count part ack want hasWant
  let m := { m with bm := Function.update m.bm env.key (some acct) }
  if acct.complete part then
    match completeShard base part with
    | some merged => (some merged, { m with cp := m.cp.insert env.key (some merged) })
    | none => (none, m)
  else (none, m)

variable (env : Envelope) (cp : Option CheckpointData) (w : World)

/-- Merges the delta of a written batch into the resource's cursor; the cursor comes back when it is
to be persisted. -/
def foldCursor : Option CheckpointData × Module :=
  match cp with
  | none => (none, w.mem)
  | some cp =>
    match decodeDelta cp with
    | .coarse part ack want hasWant => foldBitmap fails env part ack want hasWant w
    | .stream _ _ => foldStream fails env cp w
    | .unknown => (none, w.mem)
    | .shard _ _ => foldShard fails env cp w

/-- The cursor of a resource that completes: the accumulated one, else the stored one. -/
def resourceCursor : Option CheckpointData :=
  ((w.mem.cp.lookup env.key).getD none).or
    (loadCheckpoint fails w.store env.tenant env.run env.resource)

/-- Persists the cursor of a resource that completes. -/
def flushCursor : World :=
  let m := { w.mem with since := Function.update w.mem.since env.key 0 }
  match cp with
  | none => ⟨w.store, m⟩
  | some cp => ⟨persistLogged fails m w.store env.tenant env.run env.resource cp, m⟩

/-- Flushes apply-durable progress when a resource completes; a finished backfill plan first becomes
its watermark. -/
def flushResource : World :=
  match promoteIncrementalBackfill unmarshal (resourceCursor fails env w) with
  | some promoted =>
    flushCursor fails env (some promoted)
      ⟨w.store, { w.mem with cp := w.mem.cp.insert env.key (some promoted) }⟩
  | none => flushCursor fails env (resourceCursor fails env w) w

/-- The accumulated cursors of a run. -/
def Module.pending (m : Module) (run : RunID) : List (String × CheckpointData) :=
  m.cp.entries.filterMap fun e =>
    if e.1.run = run then e.2.map fun cp => (e.1.resource, cp) else none

/-- Persists some cursors; the second result says whether one of them failed. -/
def persistAll (m : Module) (tenant : TenantID) (run : RunID) (promoteCommitGated : Bool) :
    Store → List (String × CheckpointData) → Store × Bool
  | s, [] => (s, false)
  | s, (resource, cp) :: pending =>
    match persistCheckpoint fails m s tenant run resource cp promoteCommitGated with
    | .ok (_, s') => persistAll m tenant run promoteCommitGated s' pending
    | .error _ => ((persistAll m tenant run promoteCommitGated s pending).1, true)

/-- Persists every accumulated cursor of the run. -/
def flushRunFor (promoteCommitGated : Bool) (w : World) : World × Bool :=
  let m := { w.mem with since := fun key =>
    if key.run = env.run ∧ (w.mem.cp.lookup key).isSome then 0 else w.mem.since key }
  let (s, failed) :=
    persistAll fails m env.tenant env.run promoteCommitGated w.store (w.mem.pending env.run)
  (⟨s, m⟩, failed)

/-- Drops what the memory holds of a run. -/
def evictRun (run : RunID) (m : Module) : Module where
  modes := ⟨m.modes.entries.filter fun e => e.1.run ≠ run, m.modes.nodupKeys.sublist List.filter_sublist⟩
  cp := ⟨m.cp.entries.filter fun e => e.1.run ≠ run, m.cp.nodupKeys.sublist List.filter_sublist⟩
  since := fun key => if key.run = run then 0 else m.since key
  every := Function.update m.every run none
  bm := fun key => if key.run = run then none else m.bm key
  boundary := fun key => if key.run = run then .unset else m.boundary key

/-- Folds a terminal fact: its cursors first, then the run state. -/
def terminal (env : Envelope) (promoteCommitGated : Bool) (fn : RunState → RunState) (w : World) :
    World × Except StoreError Unit :=
  let (w, failed) := flushRunFor fails env promoteCommitGated w
  if failed then (w, .error .failed)
  else
    match mutate fails env fn w.store with
    | .error e => (w, .error e)
    | .ok s => (⟨s, evictRun env.run w.mem⟩, .ok ())

/-- The run state of a non-terminal fact, then what the fact does to the cursors. -/
def mutateThen (d : Data) (next : World → World) (w : World) : World × Except StoreError Unit :=
  match mutate fails env (update env d) w.store with
  | .error e => (w, .error e)
  | .ok s => (next ⟨s, w.mem⟩, .ok ())

/-- Remembers when a resource's batches are durable. -/
def rememberBoundary (policy : CheckpointPolicy) (m : Module) : Module :=
  if policy = .unset then m
  else { m with boundary := Function.update m.boundary env.key policy }

/-- What a written batch does to the cursors. -/
def foldBatch : World :=
  match foldCursor fails env cp w with
  | (some cp, m) => ⟨persistLogged fails m w.store env.tenant env.run env.resource cp, m⟩
  | (none, m) => ⟨w.store, m⟩

/-- Persists a cursor fact's checkpoint. -/
def applyCheckpoint : World × Except StoreError Unit :=
  match cp with
  | none => (w, .ok ())
  | some cp =>
    match persistCheckpoint fails w.mem w.store env.tenant env.run env.resource cp false with
    | .ok (_, s) => (⟨s, w.mem⟩, .ok ())
    | .error e => (w, .error e)

/-- Folds one fact into the run store. -/
def apply (f : Fact) (w : World) : World × Except StoreError Unit :=
  match f.data with
  | .runCompleted _ _ => terminal fails f.env true (update f.env f.data) w
  | .runFailed _ | .runPartial _ | .runCanceled =>
    terminal fails f.env false (update f.env f.data) w
  | .runPaused committed => terminal fails f.env committed (update f.env f.data) w
  | .runStarted | .resourceStarted | .resourceFailed _ | .heartbeat _ _ _ =>
    mutateThen fails f.env f.data id w
  | .resourceCompleted _ _ =>
    mutateThen fails f.env f.data (flushResource unmarshal fails f.env) w
  | .batchWritten _ _ cp policy =>
    mutateThen fails f.env f.data (foldBatch fails f.env cp)
      ⟨w.store, rememberBoundary f.env policy w.mem⟩
  | .checkpointSaved cp => applyCheckpoint fails f.env cp w
  | .runRequested | .runPauseRequested | .runCancelRequested | .notifierAttempted | .other =>
    (w, .ok ())

/-- How many execution modes are cached. -/
def maxExecutionModes : ℕ := 4096

/-- Caches a mode; a full cache first gives up an entry. -/
def cacheMode (key : RunKey) (mode : ExecutionMode) (m : Module) : Module :=
  let modes :=
    match m.modes.entries with
    | e :: _ => if maxExecutionModes ≤ m.modes.entries.length then m.modes.erase e.1 else m.modes
    | [] => m.modes
  { m with modes := modes.insert key mode }

/-- The execution mode of a run; a run that is not there yet counts as bounded. -/
def executionMode (tenant : TenantID) (run : RunID) (w : World) :
    Except StoreError (ExecutionMode × Module) :=
  match w.mem.modes.lookup ⟨tenant, run⟩ with
  | some mode => .ok (mode, w.mem)
  | none =>
    match Call.attempt fails .executionModeLoadRun (w.store.loadRun tenant run) with
    | .error .errNotFound => .ok (.bounded, w.mem)
    | .error e => .error e
    | .ok state =>
      let mode := state.request.options.execution.normalize
      .ok (mode, cacheMode ⟨tenant, run⟩ mode w.mem)

/-- Folds a fact of a bounded run: terminal facts before the mark advances, the others after. -/
def fold (f : Fact) (seq : ℕ) (w : World) : World × Except StoreError Unit :=
  if f.data.terminal then
    match apply unmarshal fails f w with
    | (w, .error e) => (w, .error e)
    | (w, .ok ()) =>
      match Call.attempt fails .dedupSeen (w.store.dedupSeen f.env.tenant f.env.run seq) with
      | .error e => (w, .error e)
      | .ok (_, s) => (⟨s, w.mem⟩, .ok ())
  else
    match Call.attempt fails .dedupSeen (w.store.dedupSeen f.env.tenant f.env.run seq) with
    | .error e => (w, .error e)
    | .ok (true, s) => (⟨s, w.mem⟩, .ok ())
    | .ok (false, s) => apply unmarshal fails f ⟨s, w.mem⟩

/-- The handler: `ok` acknowledges the message, an error has it redelivered. -/
def onFact (msg : Message) (w : World) : World × Except StoreError Unit :=
  match msg.fact with
  | none => (w, .ok ())
  | some f =>
    if f.data = .notifierAttempted then (w, .ok ())
    else
      match executionMode fails f.env.tenant f.env.run w with
      | .error e => (w, .error e)
      | .ok (mode, m) =>
        if mode = .continuous then (⟨w.store, m⟩, .ok ())
        else fold unmarshal fails f msg.seq ⟨w.store, m⟩

end Handler

end Filament.Tracker
