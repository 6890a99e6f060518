import Filament.Stream.System

/-!
# What the operations leave alone

Most statements of the stream store only move the intent of a stream, its members, and the status of
its runs.

* `ReplicationStream.identity` : the columns of a stream that only a new generation and a commit
  change;
* `RunRow.Drains` : a run keeps its identity and its certified totals, and it does not start to wait;
* `Settles` : the tables differ in nothing else.

Every helper of `Control` settles, and so do `activateStream`, `setDesiredState` and the
reconciliation of members.
-/

namespace Filament.Streams

open Except Table

/-- The columns that identify a generation, its status and its last epoch. -/
def ReplicationStream.identity (s : ReplicationStream) :
    String × TenantID × String × String × ℕ × StreamStatus × ℕ :=
  (s.id, s.tenantID, s.pipelineID, s.routeKey, s.generation, s.status, s.lastEpoch)

/-- The run `b` is the run `a`, with the same certified totals, and waits only if `a` did. -/
structure RunRow.Drains (a b : RunRow) : Prop where
  run : b.state.run = a.state.run
  tenant : b.state.tenant = a.state.tenant
  request : b.state.request = a.state.request
  records : b.state.records = a.state.records
  bytes : b.state.bytes = a.state.bytes
  createdAt : b.createdAt = a.createdAt
  lastCommittedAt : b.lastCommittedAt = a.lastCommittedAt
  scheduled : b.state.status = .runScheduled → a.state.status = .runScheduled

theorem RunRow.Drains.refl (a : RunRow) : a.Drains a := ⟨rfl, rfl, rfl, rfl, rfl, rfl, rfl, id⟩

theorem RunRow.Drains.trans (a b c : RunRow) (h : a.Drains b) (h' : b.Drains c) : a.Drains c where
  run := h'.run.trans h.run
  tenant := h'.tenant.trans h.tenant
  request := h'.request.trans h.request
  records := h'.records.trans h.records
  bytes := h'.bytes.trans h.bytes
  createdAt := h'.createdAt.trans h.createdAt
  lastCommittedAt := h'.lastCommittedAt.trans h.lastCommittedAt
  scheduled := h.scheduled ∘ h'.scheduled

/-- Only intent, members and the status of runs differ. -/
structure Settles (t t' : Tables) : Prop where
  pipelines : t'.pipelines = t.pipelines
  attempts : t'.attempts = t.attempts
  epochs : t'.epochs = t.epochs
  sequence : t'.sequence = t.sequence
  streams : t'.streams.map ReplicationStream.identity = t.streams.map ReplicationStream.identity
  runs : List.Forall₂ RunRow.Drains t.runs t'.runs

namespace Settles

variable {t t' t'' : Tables}

theorem refl (t : Tables) : Settles t t :=
  ⟨rfl, rfl, rfl, rfl, rfl, List.forall₂_same.2 fun a _ => RunRow.Drains.refl a⟩

theorem trans (h : Settles t t') (h' : Settles t' t'') : Settles t t'' where
  pipelines := h'.pipelines.trans h.pipelines
  attempts := h'.attempts.trans h.attempts
  epochs := h'.epochs.trans h.epochs
  sequence := h'.sequence.trans h.sequence
  streams := h'.streams.trans h.streams
  runs := h.runs.trans RunRow.Drains.trans h'.runs

end Settles

/-- What a stream is and what is asked of it. -/
def ReplicationStream.standing (s : ReplicationStream) :
    (String × TenantID × String × String × ℕ × StreamStatus × ℕ) × Option RunID × StreamDesiredState :=
  (s.identity, s.currentRunID, s.desiredState)

/-- Not even the intent of a stream or its current run differ. -/
structure Calm (t t' : Tables) : Prop extends Settles t t' where
  standing : t'.streams.map ReplicationStream.standing = t.streams.map ReplicationStream.standing

namespace Calm

variable {t t' t'' : Tables}

theorem refl (t : Tables) : Calm t t := { Settles.refl t with standing := rfl }

theorem trans (h : Calm t t') (h' : Calm t' t'') : Calm t t'' :=
  { h.toSettles.trans h'.toSettles with standing := h'.standing.trans h.standing }

end Calm

/-! ### Statements -/

variable (id : String) {tenant : TenantID} {stamp : ℕ} {run : RunID}

variable {t t' : Tables}

theorem settles_updateStreams {p : ReplicationStream → Prop} [DecidablePred p]
    {f : ReplicationStream → ReplicationStream} (hf : ∀ s, (f s).identity = s.identity) :
    Settles t (t.updateStreams p f).2 :=
  { Settles.refl t with streams := map_update fun s _ _ => hf s }

theorem settles_initializeStreamExecution (tenant : TenantID) (run : RunID) (spec : RunSpec) :
    Settles t (t.initializeStreamExecution id tenant run spec) :=
  settles_updateStreams fun _ => rfl

theorem settles_changeStreamDesiredState (tenant : TenantID) (revision : ℕ)
    (desired : StreamDesiredState) :
    Settles t (t.changeStreamDesiredState id tenant revision desired).2 :=
  settles_updateStreams fun _ => rfl

theorem settles_replaceStoppedActivation (tenant : TenantID) (run : RunID) (spec : RunSpec) :
    Settles t (t.replaceStoppedActivation id tenant run spec).2 :=
  settles_updateStreams fun _ => rfl

theorem settles_stopStreamForSuccessor (tenant : TenantID) :
    Settles t (t.stopStreamForSuccessor id tenant).2 :=
  settles_updateStreams fun _ => rfl

theorem settles_setSuccessor (tenant : TenantID) (run : RunID) (spec : RunSpec) :
    Settles t (t.promoteStreamSuccessor id tenant run spec).2 :=
  settles_updateStreams fun _ => rfl

theorem calm_bumpReplicationStreamMembershipRevision (tenant : TenantID) :
    Calm t (t.bumpReplicationStreamMembershipRevision id tenant) :=
  ⟨settles_updateStreams fun _ => rfl, map_update fun _ _ _ => rfl⟩

theorem calm_members (members : List Member) : Calm t { t with members := members } :=
  { Calm.refl t with }

theorem calm_updateMembers {p : Member → Prop} [DecidablePred p] {f : Member → Member} :
    Calm t (t.updateMembers p f) :=
  calm_members _

theorem calm_updateRuns {p : RunRow → Prop} [DecidablePred p] {f : RunState → RunState}
    (h : t.updateRuns p f = .ok t')
    (hf : ∀ r, (f r).run = r.run ∧ (f r).tenant = r.tenant ∧ (f r).request = r.request ∧
      (f r).records = r.records ∧ (f r).bytes = r.bytes ∧ (f r).status ≠ .runScheduled) :
    Calm t t' := by
  unfold Tables.updateRuns Tables.putRuns at h
  split_ifs at h
  cases h
  refine { Calm.refl t with runs := forall₂_update RunRow.Drains.refl fun r _ _ => ?_ }
  obtain ⟨hrun, htenant, hrequest, hrecords, hbytes, hstatus⟩ := hf r.state
  exact ⟨hrun, htenant, hrequest, hrecords, hbytes, rfl, rfl, fun h => absurd h hstatus⟩

theorem phase_ne_scheduled (t : Tables) (s : ReplicationStream) : t.phase s ≠ .runScheduled := by
  unfold Tables.phase
  split_ifs <;> simp

theorem calm_syncContinuousRunPhase {id : String}
    (h : t.syncContinuousRunPhase id tenant = .ok t') : Calm t t' := by
  unfold Tables.syncContinuousRunPhase at h
  split at h
  · cases h
    exact Calm.refl t
  · exact calm_updateRuns h fun _ => ⟨rfl, rfl, rfl, rfl, rfl, phase_ne_scheduled _ _⟩

theorem calm_finishStoppedContinuousRun {id : String}
    (h : t.finishStoppedContinuousRun id tenant stamp = .ok t') : Calm t t' := by
  unfold Tables.finishStoppedContinuousRun at h
  split at h
  · cases h
    exact Calm.refl t
  · exact calm_updateRuns h fun _ => ⟨rfl, rfl, rfl, rfl, rfl, by simp⟩

theorem calm_markContinuousRunStarted (h : t.markContinuousRunStarted run tenant stamp = .ok t') :
    Calm t t' :=
  calm_updateRuns h fun _ => ⟨rfl, rfl, rfl, rfl, rfl, by simp⟩

theorem calm_requestSuccessorRun (h : t.requestSuccessorRun run tenant = .ok t') : Calm t t' :=
  calm_updateRuns h fun _ => ⟨rfl, rfl, rfl, rfl, rfl, by simp⟩

theorem calm_cancelSuccessorRun (h : t.cancelSuccessorRun run tenant stamp = .ok t') : Calm t t' :=
  calm_updateRuns h fun _ => ⟨rfl, rfl, rfl, rfl, rfl, by simp⟩

/-! ### Membership -/

theorem calm_upsertReplicationStreamResource (tenant : TenantID) (mode name : String) :
    Calm t (t.upsertReplicationStreamResource id tenant mode name) := by
  unfold Tables.upsertReplicationStreamResource
  split_ifs <;> exact calm_members _

theorem calm_foldl {α : Type*} {f : Tables → α → Tables} (hf : ∀ t a, Calm t (f t a))
    (as : List α) : Calm t (as.foldl f t) := by
  induction as generalizing t with
  | nil => exact Calm.refl t
  | cons a as ih => exact (hf t a).trans ih

theorem calm_reconcileStreamMembership (tenant : TenantID) (names : List String) (mode : String)
    (reset : List String) : Calm t (reconcileStreamMembership t id tenant names mode reset) := by
  have hupsert : Calm t (names.foldl
      (fun t name => t.upsertReplicationStreamResource id tenant mode name) t) :=
    calm_foldl (fun _ _ => calm_upsertReplicationStreamResource ..) _
  have hretire := hupsert.trans (calm_members
    ((names.foldl (fun t name => t.upsertReplicationStreamResource id tenant mode name)
      t).retireReplicationStreamResources id names).members)
  have hreset : Calm t
      (let retired := (names.foldl (fun t name => t.upsertReplicationStreamResource id tenant mode
        name) t).retireReplicationStreamResources id names
      if reset = [] then retired else retired.resetStreamMembers id tenant reset) := by
    split_ifs
    · exact hretire
    · exact hretire.trans (calm_members _)
  unfold reconcileStreamMembership
  simp only
  split_ifs at hreset ⊢ <;>
    first
    | exact hreset
    | exact hreset.trans (calm_bumpReplicationStreamMembershipRevision ..)

theorem calm_reviseStreamMembership (stream : ReplicationStream) (spec : RunSpec) :
    Calm t (reviseStreamMembership t stream spec) :=
  calm_reconcileStreamMembership ..

/-! ### Succession -/

variable {r : RunState}

theorem settles_promoteStreamSuccessor {id : String}
    (h : promoteStreamSuccessor t id tenant = .ok t') : Settles t t' := by
  simp only [promoteStreamSuccessor, ofOption_bind_eq_ok] at h
  obtain ⟨stream, -, h⟩ := h
  split at h
  · cases h
    exact Settles.refl t
  split_ifs at h
  · simp only [bind_eq_ok, require_eq_ok, exists_const] at h
    obtain ⟨-, -, t₁, hrequest, hsync⟩ := h
    have hplaced := (calm_requestSuccessorRun hrequest).trans (calm_syncContinuousRunPhase hsync)
    exact (calm_reviseStreamMembership stream _).toSettles.trans
      ((settles_setSuccessor ..).trans hplaced.toSettles)
  · cases h
    exact Settles.refl t

theorem settles_settleStoppedStream {id : String}
    (h : settleStoppedStream t id tenant stamp = .ok t') : Settles t t' := by
  simp only [settleStoppedStream, bind_eq_ok] at h
  obtain ⟨t₁, hsync, t₂, hfinish, hpromote⟩ := h
  have hfinished := (calm_syncContinuousRunPhase hsync).trans (calm_finishStoppedContinuousRun hfinish)
  exact hfinished.toSettles.trans (settles_promoteStreamSuccessor hpromote)

theorem calm_cancelStreamSuccessor {stream : ReplicationStream} {keep : RunID}
    (h : cancelStreamSuccessor t stream keep stamp = .ok t') : Calm t t' := by
  unfold cancelStreamSuccessor at h
  split at h
  · cases h
    exact Calm.refl t
  split_ifs at h
  · cases h
    exact Calm.refl t
  · exact calm_cancelSuccessorRun h

theorem settles_queueStreamSuccessor (h : queueStreamSuccessor t r stamp = .ok t') :
    Settles t t' := by
  simp only [queueStreamSuccessor, bind_eq_ok, ofOption_eq_ok, require_eq_ok, exists_const] at h
  obtain ⟨ref, -, -, stream, -, t₁, hcancel, -, hsettle⟩ := h
  exact (calm_cancelStreamSuccessor hcancel).toSettles.trans
    ((settles_stopStreamForSuccessor ..).trans (settles_settleStoppedStream hsettle))

theorem settles_initializeContinuousActivation (h : initializeContinuousActivation t r = .ok t') :
    Settles t t' := by
  simp only [initializeContinuousActivation, bind_eq_ok, ofOption_eq_ok, require_eq_ok,
    exists_const] at h
  obtain ⟨ref, -, -, stream, -, -, h⟩ := h
  split_ifs at h
  · simp only [bind_eq_ok, require_eq_ok, exists_const] at h
    obtain ⟨-, -, h⟩ := h
    cases h
    exact (calm_reviseStreamMembership stream _).toSettles.trans
      (settles_replaceStoppedActivation ..)
  · cases h
    refine (settles_initializeStreamExecution ..).trans
      (calm_foldl (fun t name => ?_) _).toSettles
    unfold Tables.activateStreamResource
    split_ifs
    · exact Calm.refl t
    · exact calm_members _

theorem settles_admitRun (h : admitRun t r stamp = .ok t') : Settles t t' := by
  unfold admitRun at h
  split_ifs at h
  · exact settles_queueStreamSuccessor h
  · exact settles_initializeContinuousActivation h
  · cases h
    exact Settles.refl t

/-! ### Operations -/

theorem settles_activateStream {req : StreamStateRequest} {spec : RunSpec}
    (h : activateStream t req spec = .ok t') : Settles t t' := by
  simp only [activateStream, bind_eq_ok, require_eq_ok, exists_const] at h
  obtain ⟨stream, -, -, h⟩ := h
  split at h
  · simp only [bind_eq_ok, require_eq_ok, exists_const] at h
    obtain rfl := ok.inj h.2
    exact Settles.refl t
  · simp only [bind_eq_ok] at h
    obtain ⟨_, -, h⟩ := h
    cases h
    exact settles_initializeStreamExecution ..

theorem settles_setDesiredState {change : DesiredStateChange}
    (h : setDesiredState t change stamp = .ok t') : Settles t t' := by
  simp only [setDesiredState, bind_eq_ok, ofOption_eq_ok, require_eq_ok, exists_const] at h
  obtain ⟨stream, -, -, current, -, -, -, t₁, hcancel, hsettle⟩ := h
  refine Settles.trans ?_ (settles_settleStoppedStream hsettle)
  split_ifs at hcancel
  · exact (settles_changeStreamDesiredState ..).trans
      (calm_cancelStreamSuccessor hcancel).toSettles
  · cases hcancel
    exact settles_changeStreamDesiredState ..

theorem calm_reconcileReplicationStreamResources {id : String} {resources : List String}
    {mode : String} (h : reconcileReplicationStreamResources t id tenant resources mode = .ok t') :
    Calm t t' := by
  simp only [reconcileReplicationStreamResources, bind_eq_ok, require_eq_ok, exists_const] at h
  obtain rfl := ok.inj h.2.2.2
  exact calm_reconcileStreamMembership ..

end Filament.Streams
