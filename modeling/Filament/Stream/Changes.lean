import Mathlib.Algebra.BigOperators.Group.List.Basic
import Filament.Stream.Frames

/-!
# What an operation can do

A committed operation is a sequence of elementary changes to the tables.

* `Settles` : intent, members and the status of runs move;
* `Resolves` : a generation is retired and the next one inserted;
* `Tables.createRun` : a run is inserted, or a scheduled one refreshed;
* `Starts` : an attempt is admitted;
* `Touches` : attempts that have not ended are renewed, claimed, asked to yield or ended;
* `Certifies` : an epoch is inserted.

`exec_cases` takes an operation apart, and `exec_preserves` is the rule for invariants: what every
elementary change preserves, every operation preserves.
-/

namespace Filament.Streams

open Except Table Option

variable {codecs : Codecs} {t t' : Tables} {clock : Clock} {op : Op}

/-! ### Streams and runs -/

variable {stream s' : ReplicationStream} {desired : DesiredStream}

/-- The rows after the stream `id` is retired. -/
def retireRows (id : String) (rows : List ReplicationStream) : List ReplicationStream :=
  update (fun s => s.id = id ∧ s.status = .active) (fun s => { s with status := .retired }) rows

theorem exists_of_mem_retireRows {id : String} {rows : List ReplicationStream}
    (h : s' ∈ retireRows id rows) : ∃ s ∈ rows, s' = s ∨ s' = { s with status := .retired } := by
  obtain ⟨s, hs, rfl⟩ := mem_update.1 h
  refine ⟨s, hs, ?_⟩
  split_ifs
  · exact .inr rfl
  · exact .inl rfl

/-- The active generation of a route is kept, or a new one is inserted and the old one retired. -/
inductive Resolves (t : Tables) : Tables → Prop
  | kept : Resolves t t
  | replaced (d : DesiredStream) (generation : ℕ) (retired : String)
      (hlock : t.LockPipelineForReplicationStream d.pipelineID d.tenant)
      (hid : ∀ s ∈ t.streams, s.id ≠ d.id) :
      Resolves t { t with streams := retireRows retired t.streams ++ [d.row generation] }

theorem map_id_retireRows (id : String) (rows : List ReplicationStream) :
    (retireRows id rows).map ReplicationStream.id = rows.map ReplicationStream.id :=
  map_update fun _ _ _ => rfl

theorem resolves_replaceGeneration {current : Option ReplicationStream}
    (hlock : t.LockPipelineForReplicationStream desired.pipelineID desired.tenant)
    (h : replaceGeneration t desired current = .ok (stream, t')) : Resolves t t' := by
  simp only [replaceGeneration, bind_eq_ok, pure_eq_ok_iff, Prod.mk.injEq] at h
  obtain ⟨t₁, hcreate, -, rfl⟩ := h
  unfold Tables.createReplicationStream at hcreate
  split_ifs at hcreate with hunique
  cases hcreate
  simp only [not_exists, not_and, not_or] at hunique
  cases current with
  | none =>
    -- without an active generation nothing is retired
    have hsame : retireRows desired.id t.streams = t.streams :=
      update_eq_self fun s hs hp => absurd hp.1 (hunique s hs).1
    have := Resolves.replaced (t := t) desired
      (t.nextReplicationStreamGeneration desired.pipelineID desired.route) desired.id hlock
      fun s hs => (hunique s hs).1
    rwa [hsame] at this
  | some s =>
    refine Resolves.replaced desired _ s.id hlock fun s' hs' => ?_
    obtain ⟨s'', hs'', hid⟩ := List.exists_of_map_eq (map_id_retireRows s.id t.streams).symm hs'
    exact hid ▸ (hunique s'' hs'').1

theorem resolves_of_resolveReplicationStream
    (h : resolveReplicationStream t desired = .ok (stream, t')) : Resolves t t' := by
  simp only [resolveReplicationStream, bind_eq_ok, require_eq_ok, exists_const] at h
  obtain ⟨-, hlock, h⟩ := h
  split at h
  · split_ifs at h
    · obtain ⟨-, rfl⟩ : _ ∧ t = t' := by simpa using h
      exact .kept
    · exact resolves_replaceGeneration hlock h
  · exact resolves_replaceGeneration hlock h

/-- The run that is admitted is the run that was submitted, with its stream. -/
theorem admitted_submitted (t : Tables) (run : RunID) (request : RunRequest)
    (stream : ReplicationStream) : ∃ status, admitted t (submitted run request) stream =
      { submitted run request with
        status := status, request := { request with replicationStream := some stream.ref } } := by
  simp only [admitted]
  split <;> exact ⟨_, rfl⟩

/-- A run is created where none was, or refreshes its scheduled row. -/
theorem createRun_cases {r : RunState} {began : ℕ} (h : t.createRun r began = .ok t') :
    ((∀ old ∈ t.runs, old.state.run ≠ r.run) ∧
      t' = { t with runs := t.runs ++ [⟨r.upsert none, began, none⟩] }) ∨
    ((∃ old ∈ t.runs, old.ScheduledAs r.run r.tenant) ∧
      t' = { t with runs := update (RunRow.ScheduledAs r.run r.tenant) (RunRow.refresh r) t.runs }) := by
  unfold Tables.createRun Tables.putRuns at h
  split_ifs at h with hold hsched
  · exact .inr ⟨hsched, (Except.ok.inj h).symm⟩
  · exact .inl ⟨fun old hmem heq => hold ⟨old, hmem, heq⟩, (Except.ok.inj h).symm⟩

/-! ### Attempts -/

variable {a b : StreamAttempt} {lease : LeaseToken}

/-- The attempt `b` is the attempt `a`, and a claim and an end are final. -/
structure StreamAttempt.Keeps (a b : StreamAttempt) : Prop where
  token : b.token = a.token
  streamID : b.streamID = a.streamID
  tenantID : b.tenantID = a.tenantID
  claimed : a.claimedAt ≠ none → b.claimedAt ≠ none
  ended : a.ended ≠ none → b.ended = a.ended

theorem StreamAttempt.Keeps.refl (a : StreamAttempt) : a.Keeps a :=
  ⟨rfl, rfl, rfl, id, fun _ => rfl⟩

theorem StreamAttempt.Keeps.trans (a b c : StreamAttempt) (h : a.Keeps b) (h' : b.Keeps c) :
    a.Keeps c where
  token := h'.token.trans h.token
  streamID := h'.streamID.trans h.streamID
  tenantID := h'.tenantID.trans h.tenantID
  claimed := h'.claimed ∘ h.claimed
  ended ha := by
    have hb := h.ended ha
    rw [h'.ended (hb ▸ ha), hb]

theorem StreamAttempt.Keeps.clean (h : a.Keeps b) (ha : a.Clean) : b.Clean := by
  unfold Clean at ha ⊢
  rwa [h.ended fun hnone => not_clean_of_unended hnone ha]

/-- Attempts that have not ended change. -/
structure Touches (t t' : Tables) : Prop where
  same : t' = { t with attempts := t'.attempts }
  attempts : List.Forall₂ StreamAttempt.Keeps t.attempts t'.attempts

theorem touches_updateAttempts {p : StreamAttempt → Prop} [DecidablePred p]
    {f : StreamAttempt → StreamAttempt} (hp : ∀ a, p a → a.ended = none)
    (hf : ∀ a, (f a).token = a.token ∧ (f a).streamID = a.streamID ∧ (f a).tenantID = a.tenantID ∧
      (a.claimedAt ≠ none → (f a).claimedAt ≠ none)) :
    Touches t (t.updateAttempts p f).2 where
  same := rfl
  attempts := forall₂_update StreamAttempt.Keeps.refl fun a _ ha =>
    ⟨(hf a).1, (hf a).2.1, (hf a).2.2.1, (hf a).2.2.2, fun h => absurd (hp a ha) h⟩

/-- A new attempt takes the next token, on an active stream whose route was left cleanly. -/
structure Starts (t t' : Tables) : Prop where
  intro ::
  exists_attempt : ∃ stream ∈ t.streams, ∃ a : StreamAttempt,
    stream.status = .active ∧ a.token = t.sequence + 1 ∧ a.streamID = stream.id ∧
    a.tenantID = stream.tenantID ∧ a.ended = none ∧
    (∀ previous ∈ t.getLatestRouteAttempt stream.pipelineID stream.routeKey stream.tenantID,
      previous.Clean) ∧
    t' = { t with attempts := t.attempts ++ [a], sequence := t.sequence + 1 }

theorem mem_of_lockRuntime {req : StreamStateRequest} (h : lockRuntime t req = .ok stream) :
    stream ∈ t.streams ∧ stream.id = req.stream.id ∧ stream.tenantID = req.tenant ∧
      stream.generation = req.stream.generation := by
  simp only [lockRuntime, bind_eq_ok, ofOption_eq_ok, require_eq_ok, exists_const] at h
  obtain ⟨-, -, -, -, h⟩ := h
  exact first_eq_some h

theorem startAttempt_cases {req : StartAttemptRequest} {stamp : ℕ}
    (h : startAttempt t req stamp = .ok (a, t')) : t' = t ∨ Starts t t' := by
  simp only [startAttempt, bind_eq_ok, ofOption_eq_ok, require_eq_ok, exists_const] at h
  obtain ⟨-, stream, hlock, activation, -, -, h⟩ := h
  split at h
  · simp only [bind_eq_ok, require_eq_ok, exists_const, pure_eq_ok_iff, Prod.mk.injEq] at h
    exact .inl h.2.2.symm
  · simp only [bind_eq_ok, require_eq_ok, exists_const] at h
    obtain ⟨hactive, -, hclean, h⟩ := h
    obtain rfl : _ = t' := congrArg Prod.snd (Except.ok.inj h)
    exact .inr ⟨stream, (mem_of_lockRuntime hlock).1, _, hactive, rfl, rfl, rfl, rfl, hclean, rfl⟩

/-- What an attempt that may write is: the latest of its route, of this stream, not ended, and live
if that is required. -/
theorem of_currentAttempt {requireLive : Bool} {now : ℕ} {u : Unit}
    (h : currentAttempt t stream lease requireLive now = .ok u) :
    ∃ row, t.getLatestRouteAttempt stream.pipelineID stream.routeKey stream.tenantID = some row ∧
      row.token = lease.attempt.token ∧ row.streamID = stream.id ∧ row.ended = none ∧
      (requireLive = true → now < row.expiresAt) := by
  simp only [currentAttempt, bind_eq_ok, ofOption_eq_ok, require_eq_ok, exists_const] at h
  obtain ⟨_, -, row, hrow, activation, -, ⟨htoken, hstream, -, -⟩, hended, hlive⟩ := h
  exact ⟨row, hrow, htoken, hstream, hended, hlive⟩

/-! ### Epochs -/

variable (clock stream) in
/-- The row of a new epoch. -/
def epochRow (cert : EpochCertificate) (snapshot : DomainPositions) : StreamEpoch :=
  ⟨stream.id, stream.tenantID, cert.ref.epoch, cert.ref.attempt.token, cert, snapshot, clock.stamp⟩

/-- An epoch is inserted: `cert` is the next epoch of an active stream, certified by the live owner of
the route, and its totals are those of its receipts. -/
structure Certifies (codecs : Codecs) (clock : Clock) (t t' : Tables) (cert : EpochCertificate)
    (stream : ReplicationStream) (settled : Tables) (snapshot : DomainPositions) : Prop where
  lock : lockRuntime t (requestOf cert.lease) = .ok stream
  fresh : t.getStreamEpoch stream.id stream.tenantID cert.ref.epoch = none
  active : stream.status = .active
  next : cert.ref.epoch = stream.lastEpoch + 1
  claims : cert.coverage.claims = []
  revision : cert.ref.membershipRevision = stream.membershipRevision
  totals : (cert.records, cert.bytes) = receiptTotals cert.receipts
  calm : Calm t settled
  progress : mergePositions codecs
    ((if 0 < stream.lastEpoch then settled.latestStreamPositions stream else []).map
      fun e => (e.1.domain, e.1))
    (if 0 < stream.lastEpoch then settled.latestStreamPositions stream else []) []
    cert.coverage.positions = .ok snapshot
  owner : currentAttempt settled stream cert.lease true clock.now = .ok ()
  run : ∃ r ∈ settled.runs, r.state.tenant = stream.tenantID ∧ r.state.run = cert.ref.attempt.runID
  stored : t' = { settled with
    epochs := settled.epochs ++ [epochRow clock stream cert snapshot]
    runs := update (fun r => r.state.tenant = stream.tenantID ∧ r.state.run = cert.ref.attempt.runID)
      (RunRow.credit (epochRow clock stream cert snapshot)) settled.runs
    streams := update
      (fun s => s.id = stream.id ∧ s.tenantID = stream.tenantID ∧ s.lastEpoch = stream.lastEpoch)
      (fun s => { s with lastEpoch := cert.ref.epoch }) settled.streams }

theorem addProgress_foldl (receipts : List EpochReceipt) (r : RunState) :
    let r' := receipts.foldl RunRow.addProgress r
    r'.tenant = r.tenant ∧ r'.run = r.run ∧ r'.records = r.records ∧ r'.bytes = r.bytes ∧
      r'.status = r.status ∧ r'.request = r.request := by
  induction receipts generalizing r with
  | nil => exact ⟨rfl, rfl, rfl, rfl, rfl, rfl⟩
  | cons receipt receipts ih => exact ih (RunRow.addProgress r receipt)

/-- Identifiers of streams are unique. -/
def Tables.UniqueStreams (t : Tables) : Prop := (t.streams.map ReplicationStream.id).Nodup

theorem Tables.UniqueStreams.eq (h : t.UniqueStreams) {s : ReplicationStream} (hs : s ∈ t.streams)
    (hs' : s' ∈ t.streams) (hid : s.id = s'.id) : s = s' :=
  List.inj_on_of_nodup_map h hs hs' hid

theorem lastEpoch_of_getStreamExecution (hids : t.UniqueStreams) (hs : stream ∈ t.streams)
    {activation : Tables.StreamExecution}
    (h : t.getStreamExecution stream.id stream.tenantID = some activation) :
    activation.lastEpoch = stream.lastEpoch := by
  simp only [Tables.getStreamExecution, bind_eq_bind, bind_eq_some_iff,
    pure_def, Option.some.injEq] at h
  obtain ⟨s, hfirst, run, -, rfl⟩ := h
  obtain ⟨hmem, hid, -⟩ := first_eq_some hfirst
  rw [hids.eq hmem hs hid]

theorem receiptTotals_perm {receipts receipts' : List EpochReceipt} (h : receipts.Perm receipts') :
    receiptTotals receipts = receiptTotals receipts' :=
  Prod.ext (h.map _).sum_eq (h.map _).sum_eq

theorem of_canonicalBytes {c cert : EpochCertificate} (h : c.canonicalBytes codecs = .ok cert) :
    cert.tenant = c.tenant ∧ cert.ref = c.ref ∧ cert.records = c.records ∧ cert.bytes = c.bytes ∧
      receiptTotals cert.receipts = receiptTotals c.receipts := by
  simp only [EpochCertificate.canonicalBytes, bind_eq_ok, require_eq_ok, exists_const,
    pure_eq_ok_iff] at h
  obtain ⟨-, _, -, _, -, coverage, -, -, -, rfl⟩ := h
  exact ⟨rfl, rfl, rfl, rfl, receiptTotals_perm (List.perm_insertionSort ..)⟩

theorem calm_activateEpochMembers (stream : ReplicationStream) (activated : List String)
    (stamp : ℕ) : Calm t (activateEpochMembers t stream activated stamp) := by
  have hmembers : Calm t (t.activateStreamMembers stream.id stream.tenantID activated stamp).2 :=
    calm_updateMembers
  simp only [activateEpochMembers]
  split_ifs
  · exact Calm.refl t
  · exact hmembers
  · exact hmembers.trans (calm_bumpReplicationStreamMembershipRevision ..)

/-- A commit returns a stored epoch, or inserts the next one. -/
theorem commitEpoch_cases (hids : t.UniqueStreams) {request : EpochCommit} {c : EpochCertificate}
    (h : commitEpoch codecs t request clock = .ok (c, t')) :
    (t' = t ∧ ∃ e ∈ t.epochs, request.certificate.canonicalBytes codecs = .ok e.certificate) ∨
    ∃ cert stream settled snapshot, request.certificate.canonicalBytes codecs = .ok cert ∧
      Certifies codecs clock t t' cert stream settled snapshot := by
  simp only [commitEpoch, bind_eq_ok, require_eq_ok, exists_const] at h
  obtain ⟨cert, hcanonical, hclaims, stream, hlock, h⟩ := h
  split at h
  case h_1 old hold =>
    simp only [bind_eq_ok, require_eq_ok, exists_const, pure_eq_ok_iff, Prod.mk.injEq] at h
    exact .inl ⟨h.2.2.symm, old, (first_eq_some hold).1, h.1 ▸ hcanonical⟩
  case h_2 hfresh =>
    simp only [bind_eq_ok, pure_eq_ok_iff, Prod.mk.injEq] at h
    obtain ⟨t₁, hinsert, -, rfl⟩ := h
    simp only [insertEpoch, validateEpochMembership, bind_eq_ok, ofOption_eq_ok, require_eq_ok,
      exists_const, pure_eq_ok_iff] at hinsert
    obtain ⟨hactive, _, hcompletion, activation, hexecution, ⟨-, -, hnext⟩, settled,
      ⟨hrevision, _, -, rfl⟩, _, -, snapshot, hprogress, _, howner, inserted, hstored, -, rfl⟩ := hinsert
    have hmem := (mem_of_lockRuntime hlock).1
    have hlast := lastEpoch_of_getStreamExecution hids hmem hexecution
    obtain ⟨-, -, hrecords, hbytes, htotals⟩ := of_canonicalBytes hcanonical
    rw [validateProgress, hlast] at hprogress
    rw [hlast] at hnext
    unfold Tables.createStreamEpoch at hstored
    split_ifs at hstored with hrun
    cases hstored
    refine .inr ⟨cert, stream, _, snapshot, hcanonical, hlock, hfresh, hactive, hnext, hclaims,
      hrevision, ?_, calm_activateEpochMembers .., hprogress, howner, hrun, ?_⟩
    · rw [hrecords, hbytes, htotals]
      exact request.totals_of_validateCompletion hcompletion
    · rw [hlast]
      rfl

/-! ### Operations -/

/-- An elementary change that neither admits an attempt nor inserts an epoch. -/
inductive Quiet : Tables → Tables → Prop
  | settles {t t' : Tables} (h : Settles t t') : Quiet t t'
  | resolves {t t' : Tables} (h : Resolves t t') : Quiet t t'
  | creates {t t' : Tables} (run : RunID) (request : RunRequest) (status : RunStatus)
      (ref : Option StreamRef) (began : ℕ)
      (h : t.createRun { submitted run request with
        status := status, request := { request with replicationStream := ref } } began = .ok t') :
      Quiet t t'
  | touches {t t' : Tables} (h : Touches t t') : Quiet t t'

open Relation in
theorem quiet_createRun {run : RunID} {request : RunRequest} {desired : Option DesiredStream}
    (h : createRun t (submitted run request) desired clock = .ok t') :
    ReflTransGen Quiet t t' := by
  cases desired with
  | none => exact .single (.creates run request .runRequested request.replicationStream _ h)
  | some d =>
    simp only [createRun, bind_eq_ok, require_eq_ok, exists_const] at h
    obtain ⟨-, ⟨stream, t₁⟩, hresolve, t₂, hcreate, hadmit⟩ := h
    obtain ⟨status, hadmitted⟩ := admitted_submitted t₁ run request stream
    rw [hadmitted] at hcreate
    have hresolves : Quiet t t₁ := .resolves (resolves_of_resolveReplicationStream hresolve)
    have hcreates : Quiet t₁ t₂ := .creates run request status _ _ hcreate
    exact .tail (.tail (.single hresolves) hcreates) (.settles (settles_admitRun hadmit))

open Relation in
/-- **What an operation can do.** A committed operation is a sequence of quiet changes, or it admits
an attempt, or it inserts the epoch that was to be committed. -/
theorem exec_cases (hids : t.UniqueStreams) (h : exec codecs t clock op = .ok t') :
    ReflTransGen Quiet t t' ∨ Starts t t' ∨
      ∃ request cert stream settled snapshot, op = .commit request ∧
        request.certificate.canonicalBytes codecs = .ok cert ∧
        Certifies codecs clock t t' cert stream settled snapshot := by
  cases op with
  | submit run request desired => exact .inl (quiet_createRun h)
  | schedule run request =>
    exact .inl (.single (.creates run request .runScheduled request.replicationStream _ h))
  | resolve desired =>
    obtain ⟨⟨stream, t₁⟩, hresolve, rfl⟩ := map_eq_ok.1 h
    exact .inl (.single (.resolves (resolves_of_resolveReplicationStream hresolve)))
  | reconcile id tenant resources mode =>
    exact .inl (.single (.settles (calm_reconcileReplicationStreamResources h).toSettles))
  | activate request spec => exact .inl (.single (.settles (settles_activateStream h)))
  | setDesired change => exact .inl (.single (.settles (settles_setDesiredState h)))
  | start request =>
    obtain ⟨⟨a, t₁⟩, hstart, rfl⟩ := map_eq_ok.1 h
    rcases startAttempt_cases hstart with rfl | hstarts
    · exact .inl .refl
    · exact .inr (.inl hstarts)
  | claim lease =>
    simp only [exec, claimStreamAttempt, bind_eq_ok, require_eq_ok, exists_const] at h
    obtain ⟨_, -, stream, -, _, -, -, hmark⟩ := h
    refine .inl (.tail (.single (.touches ?_)) (.settles (calm_markContinuousRunStarted hmark).toSettles))
    exact touches_updateAttempts (fun a ha => ha.2.2.2.2.2.1) fun _ => ⟨rfl, rfl, rfl, fun _ => by simp⟩
  | renew lease ttl =>
    simp only [exec, renewLease, bind_eq_ok, require_eq_ok, exists_const, pure_eq_ok_iff] at h
    obtain ⟨-, stream, -, -, _, -, -, rfl⟩ := h
    refine .inl (.single (.touches ?_))
    exact touches_updateAttempts (fun a ha => ha.2.2.1) fun _ => ⟨rfl, rfl, rfl, id⟩
  | yield lease =>
    simp only [exec, yieldAttempt, bind_eq_ok, pure_eq_ok_iff] at h
    obtain ⟨_, -, rfl⟩ := h
    refine .inl (.single (.touches ?_))
    exact touches_updateAttempts (fun a ha => ha.2.2) fun _ => ⟨rfl, rfl, rfl, id⟩
  | finish lease termination reason =>
    simp only [exec, endAttempt, bind_eq_ok, require_eq_ok, exists_const] at h
    obtain ⟨stream, -, _, -, -, hsettle⟩ := h
    refine .inl (.tail (.single (.touches ?_)) (.settles (settles_settleStoppedStream hsettle)))
    exact touches_updateAttempts (fun a ha => ha.2.2.1) fun _ => ⟨rfl, rfl, rfl, id⟩
  | retire lease =>
    simp only [exec, retireUnclaimedAttempt, bind_eq_ok] at h
    obtain ⟨_, -, hsettle⟩ := h
    refine .inl (.tail (.single (.touches ?_)) (.settles (settles_settleStoppedStream hsettle)))
    exact touches_updateAttempts (fun a ha => ha.2.2.2.1) fun _ => ⟨rfl, rfl, rfl, id⟩
  | commit request =>
    obtain ⟨⟨c, t₁⟩, hcommit, rfl⟩ := map_eq_ok.1 h
    rcases commitEpoch_cases hids hcommit with ⟨rfl, -⟩ | ⟨cert, stream, settled, snapshot, hcert, hc⟩
    · exact .inl .refl
    · exact .inr (.inr ⟨request, cert, stream, settled, snapshot, rfl, hcert, hc⟩)

/-- **The rule for invariants.** What every elementary change preserves, every operation
preserves. -/
theorem exec_preserves {Inv : Tables → Prop} (hids : ∀ t, Inv t → t.UniqueStreams)
    (hquiet : ∀ t t', Quiet t t' → Inv t → Inv t') (hstarts : ∀ t t', Starts t t' → Inv t → Inv t')
    (hcertifies : ∀ t t' cert stream settled snapshot,
      Certifies codecs clock t t' cert stream settled snapshot → Inv t → Inv t')
    (h : exec codecs t clock op = .ok t') (hinv : Inv t) : Inv t' := by
  rcases exec_cases (hids t hinv) h with hchain | hs | ⟨_, cert, stream, settled, snapshot, -, -, hc⟩
  · clear h
    induction hchain with
    | refl => exact hinv
    | tail _ hlast ih => exact hquiet _ _ hlast ih
  · exact hstarts _ _ hs hinv
  · exact hcertifies _ _ cert stream settled snapshot hc hinv

theorem quiet_keeps (h : Relation.ReflTransGen Quiet t t') :
    t'.epochs = t.epochs ∧ List.Forall₂ StreamAttempt.Keeps t.attempts t'.attempts := by
  induction h with
  | refl => exact ⟨rfl, List.forall₂_same.2 fun a _ => .refl a⟩
  | tail _ hlast ih =>
    obtain ⟨hepochs, hattempts⟩ := ih
    cases hlast with
    | settles h => exact ⟨h.epochs.trans hepochs, h.attempts ▸ hattempts⟩
    | resolves h =>
      cases h with
      | kept | replaced => exact ⟨hepochs, hattempts⟩
    | creates run request status ref began h =>
      rcases createRun_cases h with ⟨-, rfl⟩ | ⟨-, rfl⟩ <;> exact ⟨hepochs, hattempts⟩
    | touches h =>
      refine ⟨?_, hattempts.trans StreamAttempt.Keeps.trans h.attempts⟩
      rw [h.same]
      exact hepochs

section

variable (hids : t.UniqueStreams) (h : exec codecs t clock op = .ok t')
include hids h

/-- An operation keeps the epochs, or it is a commit that inserts the normal form of its
certificate. -/
theorem exec_epochs :
    t'.epochs = t.epochs ∨ ∃ request row, op = .commit request ∧
      request.certificate.canonicalBytes codecs = .ok row.certificate ∧
      t'.epochs = t.epochs ++ [row] := by
  rcases exec_cases hids h with hquiet | ⟨-, -, -, -, -, -, -, -, -, rfl⟩ |
    ⟨request, cert, stream, settled, snapshot, hop, hcert, hc⟩
  · exact .inl (quiet_keeps hquiet).1
  · exact .inl rfl
  · refine .inr ⟨request, epochRow clock stream cert snapshot, hop, hcert, ?_⟩
    rw [hc.stored, ← hc.calm.epochs]

theorem exec_attempts (ha : a ∈ t.attempts) : ∃ b ∈ t'.attempts, a.Keeps b := by
  rcases exec_cases hids h with hquiet | ⟨-, -, -, -, -, -, -, -, -, rfl⟩ | ⟨_, _, _, _, _, -, -, hc⟩
  · exact (quiet_keeps hquiet).2.exists_of_mem_left ha
  · exact ⟨a, List.mem_append_left _ ha, .refl a⟩
  · refine ⟨a, ?_, .refl a⟩
    rw [hc.stored]
    exact hc.calm.attempts ▸ ha

end

theorem claimStreamAttempt_spec (h : claimStreamAttempt t lease clock = .ok t') :
    (∃ a ∈ t.attempts, a.token = lease.attempt.token ∧ a.claimedAt = none) ∧
      ∃ b ∈ t'.attempts, b.token = lease.attempt.token ∧ b.claimedAt ≠ none := by
  simp only [claimStreamAttempt, bind_eq_ok, require_eq_ok, exists_const] at h
  obtain ⟨_, -, stream, -, _, -, hone, hmark⟩ := h
  obtain ⟨a, ha, hclaimable⟩ := Table.affected_pos.1 (hone ▸ Nat.one_pos)
  obtain ⟨htoken, -, -, -, hunclaimed, -⟩ := id hclaimable
  refine ⟨⟨a, ha, htoken, hunclaimed⟩, { a with claimedAt := some clock.stamp }, ?_, htoken, ?_⟩
  · rw [(calm_markContinuousRunStarted hmark).attempts]
    exact Table.mem_update.2 ⟨a, ha, if_pos hclaimable⟩
  · exact some_ne_none _

end Filament.Streams
