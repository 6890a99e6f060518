import Filament.Stream.Fencing
import Filament.Stream.Progress

/-!
# The epoch log

The epochs of a stream are numbered without a gap, their positions only move forward, and every run
counts exactly what its epochs certify.

* `Logged` : the invariant of the tables;
* `commitEpoch_retry`, `commitEpoch_conflict` : a stored epoch answers to its own certificate and to
  no other;
* `epoch_log` : the log of every reachable state.
-/

namespace Filament.Streams

open Except Table List Tables RunRow

variable {codecs : Codecs} {t t' : Tables} {clock : Clock}

/-- The epoch was committed for the run. -/
def RunRow.Certified (r : RunRow) (e : StreamEpoch) : Prop :=
  r.state.tenant = e.tenantID ∧ r.state.run = e.certificate.ref.attempt.runID

instance (r : RunRow) : DecidablePred r.Certified := fun _ => inferInstanceAs (Decidable (_ ∧ _))

/-- The receipts of the epochs stored for a run. -/
def RunRow.receipts (r : RunRow) (epochs : List StreamEpoch) : List EpochReceipt :=
  (epochs.filter fun e => r.Certified e).flatMap fun e => e.certificate.receipts

/-- The run counts what its epochs certify, and an epoch of it leaves a stamp. -/
structure RunRow.Counts (r : RunRow) (epochs : List StreamEpoch) : Prop where
  totals : (r.state.records, r.state.bytes) = receiptTotals (r.receipts epochs)
  stamped : (∃ e ∈ epochs, r.Certified e) → r.lastCommittedAt ≠ none

/-- From one epoch to the next: a covered domain has the covered position, at or after its last one,
and a domain that is not covered keeps its position. -/
structure Advances (codecs : Codecs) (e e' : StreamEpoch) : Prop where
  covered : ∀ new ∈ e'.certificate.coverage.positions, new ∈ e'.positions
  forward : ∀ old ∈ e.positions, ∀ new ∈ e'.certificate.coverage.positions,
    old.1.domain = new.1.domain → old.1 = new.1 ∧ Forward codecs new.1 old.2 new.2
  kept : ∀ old ∈ e.positions,
    (∀ new ∈ e'.certificate.coverage.positions, new.1.domain ≠ old.1.domain) → old ∈ e'.positions

/-- The certificate of a stored epoch addresses its stream, which can be locked. -/
structure Addressed (t : Tables) (e : StreamEpoch) : Prop where
  epoch : e.certificate.ref.epoch = e.epoch
  claims : e.certificate.coverage.claims = []
  request : requestOf e.certificate.lease =
    ⟨e.tenantID, e.streamID, e.certificate.ref.attempt.generation⟩
  valid : e.tenantID ≠ "" ∧ e.streamID ≠ "" ∧ 0 < e.certificate.ref.attempt.generation
  stream : ∃ s ∈ t.streams, s.id = e.streamID ∧ s.tenantID = e.tenantID ∧
    s.generation = e.certificate.ref.attempt.generation ∧
    t.LockPipelineForReplicationStream s.pipelineID s.tenantID

/-- The invariant of the epoch log. -/
structure Logged (codecs : Codecs) (t : Tables) : Prop where
  fenced : Fenced t
  addressed : ∀ e ∈ t.epochs, Addressed t e
  gapless : ∀ s ∈ t.streams, ∀ n,
    (∃ e ∈ t.epochs, e.streamID = s.id ∧ e.epoch = n) ↔ 1 ≤ n ∧ n ≤ s.lastEpoch
  single : ∀ e ∈ t.epochs, ∀ e' ∈ t.epochs, e.streamID = e'.streamID → e.epoch = e'.epoch → e = e'
  distinct : ∀ e ∈ t.epochs, e.positions.Distinct
  advances : ∀ e ∈ t.epochs, ∀ e' ∈ t.epochs, e'.streamID = e.streamID → e'.epoch = e.epoch + 1 →
    Advances codecs e e'
  known : ∀ e ∈ t.epochs, ∃ r ∈ t.runs, r.Certified e
  counted : ∀ r ∈ t.runs, r.Counts t.epochs

theorem logged_fresh (codecs : Codecs) (pipelines : String → Option Pipeline) :
    Logged codecs (.fresh pipelines) where
  fenced := fenced_fresh pipelines
  addressed := by simp [fresh]
  gapless := by simp [fresh]
  single := by simp [fresh]
  distinct := by simp [fresh]
  advances := by simp [fresh]
  known := by simp [fresh]
  counted := by simp [fresh]

/-! ### Stored epochs -/

variable {e : StreamEpoch} {cert : EpochCertificate} {stream : ReplicationStream}

theorem pipeline_of_lockRuntime {req : StreamStateRequest} (h : lockRuntime t req = .ok stream) :
    (req.tenant ≠ "" ∧ req.stream.id ≠ "" ∧ 0 < req.stream.generation) ∧
      t.LockPipelineForReplicationStream stream.pipelineID stream.tenantID := by
  have htenant := (mem_of_lockRuntime h).2.2.1
  simp only [lockRuntime, bind_eq_ok, ofOption_eq_ok, require_eq_ok, exists_const] at h
  obtain ⟨hvalid, pipeline, hget, hlock, hfirst⟩ := h
  rw [lockReplicationStreamGeneration] at hfirst
  obtain rfl : stream.pipelineID = pipeline := by
    simpa [getReplicationStreamPipelineID, hfirst] using hget
  exact ⟨hvalid, htenant ▸ hlock⟩

theorem Addressed.mono (hkeeps : KeepsStreams t t') (hpipelines : t'.pipelines = t.pipelines)
    (h : Addressed t e) : Addressed t' e := by
  obtain ⟨s, hs, hid, htenant, hgeneration, hlock⟩ := h.stream
  obtain ⟨s', hs', hkey⟩ := hkeeps s hs
  simp only [ReplicationStream.key, Prod.mk.injEq] at hkey
  refine { h with stream := ⟨s', hs', hkey.1.trans hid, hkey.2.1.trans htenant,
    hkey.2.2.2.2.trans hgeneration, ?_⟩ }
  unfold Tables.LockPipelineForReplicationStream
  rw [hpipelines, hkey.2.2.1, hkey.2.1]
  exact hlock

section

variable (h : Logged codecs t) (he : e ∈ t.epochs) {request : EpochCommit}
include h he

theorem Logged.lockRuntime :
    ∃ s ∈ t.streams, lockRuntime t (requestOf e.certificate.lease) = .ok s ∧ s.id = e.streamID ∧
      s.tenantID = e.tenantID := by
  have ha := h.addressed e he
  obtain ⟨s, hs, hid, htenant, hgeneration, hlock⟩ := ha.stream
  -- the lookup by identifier, tenant and generation finds the only stream with that identifier
  have hfirst : first (fun s => s.id = e.streamID ∧ s.tenantID = e.tenantID ∧
      s.generation = e.certificate.ref.attempt.generation) t.streams = some s := by
    cases hfind : first (fun s => s.id = e.streamID ∧ s.tenantID = e.tenantID ∧
        s.generation = e.certificate.ref.attempt.generation) t.streams with
    | none => exact absurd ⟨hid, htenant, hgeneration⟩ (first_eq_none.1 hfind s hs)
    | some s' =>
      obtain ⟨hs', hid', -⟩ := first_eq_some hfind
      rw [h.fenced.unique.eq hs' hs (hid'.trans hid.symm)]
  refine ⟨s, hs, ?_, hid, htenant⟩
  rw [htenant] at hlock
  simp [Streams.lockRuntime, ha.request, ha.valid, bind_eq_ok,
    getReplicationStreamPipelineID, lockReplicationStreamGeneration, hfirst, hlock]

theorem Logged.getStreamEpoch :
    t.getStreamEpoch e.streamID e.tenantID e.epoch = some e := by
  unfold Tables.getStreamEpoch
  cases hfind : first (fun e' => e'.streamID = e.streamID ∧ e'.tenantID = e.tenantID ∧
      e'.epoch = e.epoch) t.epochs with
  | none => exact absurd ⟨rfl, rfl, rfl⟩ (first_eq_none.1 hfind e he)
  | some e' =>
    obtain ⟨he', hid, -, hepoch⟩ := first_eq_some hfind
    rw [h.single e' he' e he hid hepoch]

/-- A stored epoch answers to its own certificate, and nothing changes. -/
theorem commitEpoch_retry (hcert : request.certificate.canonicalBytes codecs = .ok e.certificate)
    (clock : Clock) : commitEpoch codecs t request clock = .ok (e.certificate, t) := by
  obtain ⟨s, -, hlock, hid, htenant⟩ := h.lockRuntime he
  have hget := h.getStreamEpoch he
  have ha := h.addressed e he
  rw [← hid, ← htenant, ← ha.epoch] at hget
  simp only [commitEpoch, hcert, ok_bind, hlock, hget, ha.claims]
  simp [require]

/-- A stored epoch answers to no other certificate. -/
theorem commitEpoch_conflict (hcert : request.certificate.canonicalBytes codecs = .ok cert)
    (hstream : cert.ref.attempt.streamID = e.streamID) (hepoch : cert.ref.epoch = e.epoch)
    (hne : cert ≠ e.certificate) (clock : Clock) (result : EpochCertificate × Tables) :
    commitEpoch codecs t request clock ≠ .ok result := by
  intro hcommit
  simp only [commitEpoch, bind_eq_ok, require_eq_ok, exists_const, hcert] at hcommit
  obtain ⟨_, heq, -, stream, hlock, hcommit⟩ := hcommit
  cases heq
  obtain ⟨hmem, hid, -⟩ := mem_of_lockRuntime hlock
  obtain ⟨s, hs, hsid, hstenant, -⟩ := (h.addressed e he).stream
  obtain rfl := h.fenced.unique.eq hmem hs (hid.trans (hstream.trans hsid.symm))
  have hget := h.getStreamEpoch he
  rw [← hsid, ← hstenant, ← hepoch] at hget
  rw [hget] at hcommit
  simp only [bind_eq_ok, require_eq_ok, exists_const] at hcommit
  exact hne hcommit.1.symm

end

/-! ### Runs -/

variable {r r' old : RunRow} {epochs : List StreamEpoch}

section

variable (htenant : r'.state.tenant = r.state.tenant) (hrun : r'.state.run = r.state.run)
include htenant hrun

theorem RunRow.Certified.congr (e : StreamEpoch) : r'.Certified e ↔ r.Certified e := by
  unfold RunRow.Certified
  rw [htenant, hrun]

theorem RunRow.receipts_congr : r'.receipts = r.receipts := by
  funext epochs
  simp only [receipts, RunRow.Certified.congr htenant hrun]

end

theorem RunRow.Counts.congr (h : r.Counts epochs) (htenant : r'.state.tenant = r.state.tenant)
    (hrun : r'.state.run = r.state.run) (hrecords : r'.state.records = r.state.records)
    (hbytes : r'.state.bytes = r.state.bytes) (hstamp : r'.lastCommittedAt = r.lastCommittedAt) :
    r'.Counts epochs := by
  constructor
  · rw [hrecords, hbytes, receipts_congr htenant hrun]
    exact h.totals
  · simp only [RunRow.Certified.congr htenant hrun, hstamp]
    exact h.stamped

theorem RunRow.counts_of_uncertified (h : ∀ e ∈ epochs, ¬r.Certified e)
    (hrecords : r.state.records = 0) (hbytes : r.state.bytes = 0) : r.Counts epochs := by
  constructor
  · have hnone : epochs.filter r.Certified = [] := by
      simpa [filter_eq_nil_iff] using h
    rw [receipts, hnone, hrecords, hbytes]
    rfl
  · rintro ⟨e, he, hcert⟩
    exact absurd hcert (h e he)

/-- Refreshing a scheduled run keeps what its epochs counted. -/
theorem RunRow.Counts.refresh (h : old.Counts epochs) {r : RunState}
    (hold : old.ScheduledAs r.run r.tenant) (hrecords : r.records = 0) (hbytes : r.bytes = 0) :
    (refresh r old).Counts epochs := by
  by_cases hcounted :
      old.lastCommittedAt ≠ none ∨ old.state.request.options.execution = .continuous
  · exact h.congr hold.2.1.symm hold.1.symm (if_pos hcounted) (if_pos hcounted) rfl
  -- without a stamp the run has no epochs
  refine counts_of_uncertified (fun e he hcert => hcounted (.inl ?_))
    ((if_neg hcounted).trans hrecords) ((if_neg hcounted).trans hbytes)
  exact h.stamped ⟨e, he, (RunRow.Certified.congr hold.2.1.symm hold.1.symm e).1 hcert⟩

theorem receiptTotals_append (receipts receipts' : List EpochReceipt) :
    receiptTotals (receipts ++ receipts') =
      ((receiptTotals receipts).1 + (receiptTotals receipts').1,
        (receiptTotals receipts).2 + (receiptTotals receipts').2) := by
  simp [receiptTotals]

theorem RunRow.receipts_append (r : RunRow) (epochs : List StreamEpoch) (e : StreamEpoch) :
    r.receipts (epochs ++ [e]) =
      r.receipts epochs ++ if r.Certified e then e.certificate.receipts else [] := by
  unfold receipts
  by_cases he : r.Certified e <;> simp [he]

/-- The run of a new epoch counts its receipts. -/
theorem RunRow.Counts.credit (h : r.Counts epochs) (he : r.Certified e)
    (htotals : (e.certificate.records, e.certificate.bytes) = receiptTotals e.certificate.receipts) :
    (RunRow.credit e r).Counts (epochs ++ [e]) := by
  obtain ⟨htenant, hrun, hrecords, hbytes, -⟩ := addProgress_foldl e.certificate.receipts
    { r.state with
      records := r.state.records + e.certificate.records
      bytes := r.state.bytes + e.certificate.bytes }
  refine ⟨?_, fun _ => by simp [RunRow.credit]⟩
  rw [RunRow.receipts_congr (r := r) htenant hrun, RunRow.receipts_append, if_pos he,
    receiptTotals_append, ← h.totals, ← htotals]
  exact Prod.ext hrecords hbytes

theorem RunRow.Counts.append (h : r.Counts epochs) (he : ¬r.Certified e) :
    r.Counts (epochs ++ [e]) := by
  constructor
  · rw [receipts_append, if_neg he, append_nil]
    exact h.totals
  · rintro ⟨e', he', hcert⟩
    rcases mem_append.1 he' with hmem | hmem
    · exact h.stamped ⟨e', hmem, hcert⟩
    · exact absurd (mem_singleton.1 hmem ▸ hcert) he

/-! ### Preservation -/

namespace Logged

section

variable (h : Logged codecs t)
include h

theorem exists_stream (he : e ∈ t.epochs) :
    ∃ s ∈ t.streams, s.id = e.streamID := by
  obtain ⟨s, hs, hid, -⟩ := (h.addressed e he).stream
  exact ⟨s, hs, hid⟩

/-- Nothing but the epochs, the numbers the streams have reached and the counts of the runs
matters. -/
theorem congr (hfenced : Fenced t') (hepochs : t'.epochs = t.epochs)
    (hpipelines : t'.pipelines = t.pipelines) (hkeeps : KeepsStreams t t')
    (hstreams : ∀ s' ∈ t'.streams, (∃ s ∈ t.streams, s.id = s'.id ∧ s.lastEpoch = s'.lastEpoch) ∨
      s'.lastEpoch = 0 ∧ ∀ s ∈ t.streams, s.id ≠ s'.id)
    (hruns : ∀ r ∈ t.runs, ∃ r' ∈ t'.runs,
      r'.state.tenant = r.state.tenant ∧ r'.state.run = r.state.run)
    (hcounts : ∀ r ∈ t'.runs, r.Counts t.epochs) : Logged codecs t' := by
  refine ⟨hfenced, ?_, ?_, ?_, ?_, ?_, ?_, ?_⟩ <;> rw [hepochs]
  · exact fun e he => (h.addressed e he).mono hkeeps hpipelines
  · intro s' hs' n
    rcases hstreams s' hs' with ⟨s, hs, hid, hlast⟩ | ⟨hzero, hnew⟩
    · rw [← hid, ← hlast]
      exact h.gapless s hs n
    -- a new stream has no epochs
    constructor
    · rintro ⟨e, he, hid, -⟩
      obtain ⟨s, hs, hsid⟩ := h.exists_stream he
      exact absurd (hsid.trans hid) (hnew s hs)
    · omega
  · exact h.single
  · exact h.distinct
  · exact h.advances
  · intro e he
    obtain ⟨r, hr, hcert⟩ := h.known e he
    obtain ⟨r', hr', htenant, hrun⟩ := hruns r hr
    exact ⟨r', hr', (RunRow.Certified.congr htenant hrun e).2 hcert⟩
  · exact hcounts

theorem settles (hs : Settles t t') : Logged codecs t' := by
  refine h.congr (h.fenced.settles hs) hs.epochs hs.pipelines (keepsStreams_of_map_eq hs.keys)
    (fun s' hs' => .inl ?_) (fun r hr => ?_) fun r' hr' => ?_
  · obtain ⟨s, hmem, hidentity⟩ := exists_of_map_eq hs.streams hs'
    simp only [ReplicationStream.identity, Prod.mk.injEq] at hidentity
    exact ⟨s, hmem, hidentity.1, hidentity.2.2.2.2.2.2⟩
  · obtain ⟨r', hr', hdrains⟩ := hs.runs.exists_of_mem_left hr
    exact ⟨r', hr', hdrains.tenant, hdrains.run⟩
  · obtain ⟨r, hr, hdrains⟩ := hs.runs.exists_of_mem_right hr'
    exact (h.counted r hr).congr hdrains.tenant hdrains.run hdrains.records hdrains.bytes
      hdrains.lastCommittedAt

theorem congr_runs (hfenced : Fenced t') (hepochs : t'.epochs = t.epochs)
    (hpipelines : t'.pipelines = t.pipelines) (hruns : t'.runs = t.runs) (hkeeps : KeepsStreams t t')
    (hstreams : ∀ s' ∈ t'.streams, (∃ s ∈ t.streams, s.id = s'.id ∧ s.lastEpoch = s'.lastEpoch) ∨
      s'.lastEpoch = 0 ∧ ∀ s ∈ t.streams, s.id ≠ s'.id) : Logged codecs t' :=
  h.congr hfenced hepochs hpipelines hkeeps hstreams (fun r hr => ⟨r, hruns ▸ hr, rfl, rfl⟩)
    fun r hr => h.counted r (hruns ▸ hr)

theorem resolves (hr : Resolves t t') : Logged codecs t' := by
  have hfenced := h.fenced.resolves hr
  have hkeeps := (Quiet.resolves hr).keepsStreams
  cases hr with
  | kept => exact h
  | replaced d generation retired hlock hid =>
    refine h.congr_runs hfenced rfl rfl rfl hkeeps fun s' hs' => ?_
    rcases mem_append.1 hs' with hs' | hs'
    · obtain ⟨s, hs, hs' | hs'⟩ := exists_of_mem_retireRows hs' <;>
        exact .inl ⟨s, hs, hs' ▸ rfl, hs' ▸ rfl⟩
    · obtain rfl := mem_singleton.1 hs'
      exact .inr ⟨rfl, hid⟩

theorem congr_attempts (hfenced : Fenced t')
    (hsame : t' = { t with attempts := t'.attempts, sequence := t'.sequence }) : Logged codecs t' := by
  rw [hsame] at hfenced ⊢
  exact h.congr_runs hfenced rfl rfl rfl (fun s hs => ⟨s, hs, rfl⟩)
    fun s hs => .inl ⟨s, hs, rfl, rfl⟩

theorem creates {r : RunState} {began : ℕ} (hrecords : r.records = 0) (hbytes : r.bytes = 0)
    (hfenced : Fenced t') (hc : t.createRun r began = .ok t') :
    Logged codecs t' := by
  rcases createRun_cases hc with ⟨hnew, rfl⟩ | ⟨-, rfl⟩
  · refine h.congr hfenced rfl rfl (fun s hs => ⟨s, hs, rfl⟩) (fun s hs => .inl ⟨s, hs, rfl, rfl⟩)
      (fun old hold => ⟨old, mem_append_left _ hold, rfl, rfl⟩) fun r' hr' => ?_
    rcases mem_append.1 hr' with hr' | hr'
    · exact h.counted r' hr'
    obtain rfl := mem_singleton.1 hr'
    refine counts_of_uncertified (fun e he hcert => ?_) hrecords hbytes
    obtain ⟨old, hold, hcert'⟩ := h.known e he
    exact hnew old hold (hcert'.2.trans hcert.2.symm)
  · refine h.congr hfenced rfl rfl (fun s hs => ⟨s, hs, rfl⟩) (fun s hs => .inl ⟨s, hs, rfl, rfl⟩)
      (fun old hold => ?_) fun r' hr' => ?_
    · refine ⟨_, mem_update.2 ⟨old, hold, rfl⟩, ?_⟩
      split_ifs with hsched
      · exact ⟨hsched.2.1.symm, hsched.1.symm⟩
      · exact ⟨rfl, rfl⟩
    · obtain ⟨old, hold, rfl⟩ := mem_update.1 hr'
      split_ifs with hsched
      · exact (h.counted old hold).refresh hsched hrecords hbytes
      · exact h.counted old hold

theorem quiet (hq : Quiet t t') : Logged codecs t' := by
  have hfenced := h.fenced.quiet hq
  cases hq with
  | settles hs => exact h.settles hs
  | resolves hr => exact h.resolves hr
  | creates run request status ref began hc => exact h.creates rfl rfl hfenced hc
  | touches ht =>
    refine h.congr_attempts hfenced ?_
    rw [ht.same]

theorem starts (hs : Starts t t') : Logged codecs t' := by
  refine h.congr_attempts (h.fenced.starts hs) ?_
  obtain ⟨-, -, -, -, -, -, -, -, -, rfl⟩ := hs
  rfl

end

/-! ### A new epoch -/

variable (t stream) in
/-- The positions that an epoch of `stream` starts from. -/
def base : DomainPositions :=
  if 0 < stream.lastEpoch then t.latestStreamPositions stream else []

theorem base_eq (h : Logged codecs t) (he : e ∈ t.epochs) (hid : e.streamID = stream.id)
    (hepoch : e.epoch = stream.lastEpoch) (hpos : 0 < stream.lastEpoch) :
    base t stream = e.positions := by
  rw [base, if_pos hpos, latestStreamPositions]
  split
  · next e' hfind =>
    obtain ⟨he', hid', hepoch'⟩ := first_eq_some hfind
    rw [h.single e' he' e he (hid'.trans hid.symm) (hepoch'.trans hepoch.symm)]
  · next hfind => exact absurd ⟨hid, hepoch⟩ (first_eq_none.1 hfind e he)

theorem base_distinct (h : Logged codecs t) (stream : ReplicationStream) :
    (base t stream).Distinct := by
  unfold base latestStreamPositions
  split_ifs
  · split
    · next e hfind => exact h.distinct e (first_eq_some hfind).1
    · exact nodup_nil
  · exact nodup_nil

variable (codecs t t' stream) in
/-- A new epoch: the next of its stream, whose run counts its receipts. -/
structure Appends (row : StreamEpoch) : Prop where
  mem : stream ∈ t.streams
  id : row.streamID = stream.id
  next : row.epoch = stream.lastEpoch + 1
  addressed : Addressed t row
  totals : (row.certificate.records, row.certificate.bytes) =
    receiptTotals row.certificate.receipts
  run : ∃ r ∈ t.runs, r.Certified row
  merge : mergePositions codecs ((base t stream).map fun e => (e.1.domain, e.1)) (base t stream) []
    row.certificate.coverage.positions = .ok row.positions
  epochs : t'.epochs = t.epochs ++ [row]
  pipelines : t'.pipelines = t.pipelines
  runs : t'.runs = update (fun r => r.Certified row) (RunRow.credit row) t.runs
  streams : t'.streams = update
    (fun s => s.id = stream.id ∧ s.tenantID = stream.tenantID ∧ s.lastEpoch = stream.lastEpoch)
    (fun s => { s with lastEpoch := row.epoch }) t.streams

variable {stream : ReplicationStream} {row : StreamEpoch} {snapshot : DomainPositions}
  {settled : Tables}

theorem Appends.mem_epochs (ha : Appends codecs t t' stream row) :
    e ∈ t'.epochs ↔ e ∈ t.epochs ∨ e = row := by
  rw [ha.epochs, mem_append, mem_singleton]

theorem Appends.keepsStreams (ha : Appends codecs t t' stream row) : KeepsStreams t t' := by
  refine keepsStreams_of_map_eq ?_
  rw [ha.streams]
  exact map_update fun _ _ _ => rfl

section

variable (ha : Appends codecs t t' stream row) (h : Logged codecs t) {e' : StreamEpoch}
include ha h

theorem Appends.range (he : e ∈ t.epochs) (hid : e.streamID = row.streamID) :
    1 ≤ e.epoch ∧ e.epoch < row.epoch := by
  have := (h.gapless stream ha.mem e.epoch).1 ⟨e, he, hid.trans ha.id, rfl⟩
  have := ha.next
  omega

theorem Appends.gapless {s' : ReplicationStream} (hs' : s' ∈ t'.streams) (n : ℕ) :
    (∃ e ∈ t'.epochs, e.streamID = s'.id ∧ e.epoch = n) ↔ 1 ≤ n ∧ n ≤ s'.lastEpoch := by
  rw [ha.streams] at hs'
  obtain ⟨s, hs, rfl⟩ := mem_update.1 hs'
  have hgapless := h.gapless s hs n
  simp only [ha.mem_epochs, or_and_right, exists_or, exists_eq_left]
  split_ifs with heq
  · obtain rfl := h.fenced.unique.eq hs ha.mem heq.1
    simp only [hgapless, ha.id, ha.next, true_and]
    omega
  have hne : stream.id ≠ s.id := by
    intro hid
    obtain rfl := h.fenced.unique.eq ha.mem hs hid
    exact heq ⟨rfl, rfl, rfl⟩
  rw [hgapless]
  simp [ha.id, hne]

theorem Appends.single (he : e ∈ t'.epochs) (he' : e' ∈ t'.epochs) (hid : e.streamID = e'.streamID)
    (hepoch : e.epoch = e'.epoch) : e = e' := by
  rcases ha.mem_epochs.1 he with hold | rfl <;> rcases ha.mem_epochs.1 he' with hold' | rfl
  · exact h.single e hold e' hold' hid hepoch
  · have := ha.range h hold hid
    omega
  · have := ha.range h hold' hid.symm
    omega
  · rfl

/-- The new epoch starts from the positions of the last one. -/
theorem Appends.advances_new (he : e ∈ t.epochs) (hid : row.streamID = e.streamID)
    (hepoch : row.epoch = e.epoch + 1) :
    Advances codecs e row := by
  obtain ⟨-, hcovered, hkept⟩ := mergePositions_spec (h.base_distinct stream)
    (h.base_distinct stream) (fun _ _ => Iff.rfl) ha.merge
  have hpos := (ha.range h he hid.symm).1
  have hlast : e.epoch = stream.lastEpoch := by
    have := ha.next
    omega
  rw [h.base_eq he (hid.symm.trans ha.id) hlast (hlast ▸ hpos)] at hcovered hkept
  exact ⟨fun new hnew => (hcovered new hnew).2.1,
    fun old hold new hnew hdomain => (hcovered new hnew).2.2 old hold hdomain, hkept⟩

theorem Appends.advances (he : e ∈ t'.epochs) (he' : e' ∈ t'.epochs)
    (hid : e'.streamID = e.streamID) (hepoch : e'.epoch = e.epoch + 1) : Advances codecs e e' := by
  rcases ha.mem_epochs.1 he with hold | rfl <;> rcases ha.mem_epochs.1 he' with hold' | rfl
  · exact h.advances e hold e' hold' hid hepoch
  · exact ha.advances_new h hold hid hepoch
  · have := ha.range h hold' hid
    omega
  · omega

theorem Appends.known (he : e ∈ t'.epochs) : ∃ r ∈ t'.runs, r.Certified e := by
  have hcert : ∃ r ∈ t.runs, r.Certified e := by
    rcases ha.mem_epochs.1 he with hold | rfl
    · exact h.known e hold
    · exact ha.run
  obtain ⟨r, hr, hcert⟩ := hcert
  rw [ha.runs]
  refine ⟨_, mem_update.2 ⟨r, hr, rfl⟩, ?_⟩
  split_ifs
  · obtain ⟨htenant, hrun, -⟩ := addProgress_foldl row.certificate.receipts _
    exact (RunRow.Certified.congr htenant hrun e).2 hcert
  · exact hcert

theorem Appends.counted (hr' : r' ∈ t'.runs) : r'.Counts t'.epochs := by
  rw [ha.runs] at hr'
  rw [ha.epochs]
  obtain ⟨r, hr, rfl⟩ := mem_update.1 hr'
  split_ifs with hcert
  · exact (h.counted r hr).credit hcert ha.totals
  · exact (h.counted r hr).append hcert

end

theorem appends (h : Logged codecs t) (hfenced : Fenced t')
    (ha : Appends codecs t t' stream row) : Logged codecs t' where
  fenced := hfenced
  addressed e he := by
    rcases ha.mem_epochs.1 he with hold | rfl
    · exact (h.addressed e hold).mono ha.keepsStreams ha.pipelines
    · exact ha.addressed.mono ha.keepsStreams ha.pipelines
  gapless s' hs' n := ha.gapless h hs' n
  single e he e' he' := ha.single h he he'
  distinct e he := by
    rcases ha.mem_epochs.1 he with hold | rfl
    · exact h.distinct e hold
    · exact (mergePositions_spec (h.base_distinct stream) (h.base_distinct stream)
        (fun _ _ => Iff.rfl) ha.merge).1
  advances e he e' he' := ha.advances h he he'
  known e he := ha.known h he
  counted r hr := ha.counted h hr

/-- The epoch that a commit inserts is the next of its stream. -/
theorem appends_of_certifies (hc : Certifies codecs clock t t' cert stream settled snapshot) :
    ∃ stream', Appends codecs settled t' stream' (epochRow clock stream cert snapshot) := by
  obtain ⟨hmem, hid, htenant, hgeneration⟩ := mem_of_lockRuntime hc.lock
  obtain ⟨hvalid, hlock⟩ := pipeline_of_lockRuntime hc.lock
  obtain ⟨s, hs, hidentity⟩ := exists_of_map_eq hc.calm.streams.symm hmem
  simp only [ReplicationStream.identity, Prod.mk.injEq] at hidentity
  obtain ⟨hsid, hstenant, hpipeline, -, hsgeneration, -, hlast⟩ := hidentity
  refine ⟨s, hs, hsid.symm, hlast ▸ hc.next, ?_, hc.totals, hc.run, ?_, ?_, ?_, ?_, ?_⟩
  · refine ⟨rfl, hc.claims, ?_, ?_, s, hs, hsid, hstenant, hsgeneration.trans hgeneration, ?_⟩
    · rw [epochRow, htenant, hid]
      rfl
    · rw [epochRow, htenant, hid]
      exact hvalid
    · unfold Tables.LockPipelineForReplicationStream
      rw [hc.calm.pipelines, hpipeline, hstenant]
      exact hlock
  · have hbase : base settled s =
        if 0 < stream.lastEpoch then settled.latestStreamPositions stream else [] := by
      simp only [base, latestStreamPositions, hsid, hlast]
    rw [hbase]
    exact hc.progress
  · exact congrArg epochs hc.stored
  · exact (congrArg pipelines hc.stored).trans rfl
  · exact congrArg runs hc.stored
  · rw [hsid, hstenant, hlast]
    exact congrArg streams hc.stored

theorem certifies (h : Logged codecs t)
    (hc : Certifies codecs clock t t' cert stream settled snapshot) : Logged codecs t' := by
  obtain ⟨stream', ha⟩ := appends_of_certifies hc
  exact (h.settles hc.calm.toSettles).appends (h.fenced.certifies hc) ha

theorem exec {op : Op} (h : Logged codecs t) (he : exec codecs t clock op = .ok t') :
    Logged codecs t' :=
  exec_preserves (fun _ h => h.fenced.unique) (fun _ _ hq h => h.quiet hq)
    (fun _ _ hs h => h.starts hs) (fun _ _ _ _ _ _ hc h => h.certifies hc) he h

theorem step {s : System} (e : Event) (h : Logged codecs s.tables) :
    Logged codecs (step codecs s e).tables := by
  rcases step_cases codecs s e with heq | hcommits
  · exact heq ▸ h
  · exact h.exec hcommits

end Logged

theorem logged_run (codecs : Codecs) (pipelines : String → Option Pipeline) (events : List Event) :
    Logged codecs (Trace.run (step codecs) (.fresh pipelines) events).tables :=
  @Trace.inv_run _ _ (step codecs) (fun s => Logged codecs s.tables) _ (fun _ e h => h.step e)
    (logged_fresh codecs pipelines) events

/-- **The epoch log.** In every reachable state the epochs of a stream are exactly `1` to its last
one, each stored once; from one epoch to the next positions move forward, and a domain that is not
covered keeps its own; a stored epoch answers to its own certificate without a change and to no other;
and every run counts the receipts of the epochs stored for it. -/
theorem epoch_log (codecs : Codecs) (pipelines : String → Option Pipeline) (events : List Event) :
    let t := (Trace.run (step codecs) (.fresh pipelines) events).tables
    (∀ s ∈ t.streams, ∀ n,
      (∃ e ∈ t.epochs, e.streamID = s.id ∧ e.epoch = n) ↔ 1 ≤ n ∧ n ≤ s.lastEpoch) ∧
    (∀ e ∈ t.epochs, e.positions.Distinct ∧ ∀ e' ∈ t.epochs, e'.streamID = e.streamID →
      (e'.epoch = e.epoch → e' = e) ∧ (e'.epoch = e.epoch + 1 → Advances codecs e e')) ∧
    (∀ e ∈ t.epochs, ∀ request clock cert, request.certificate.canonicalBytes codecs = .ok cert →
      (cert = e.certificate → commitEpoch codecs t request clock = .ok (e.certificate, t)) ∧
      (cert.ref.attempt.streamID = e.streamID → cert.ref.epoch = e.epoch → cert ≠ e.certificate →
        ∀ result, commitEpoch codecs t request clock ≠ .ok result)) ∧
    ∀ r ∈ t.runs, (r.state.records, r.state.bytes) = receiptTotals (r.receipts t.epochs) := by
  intro t
  have h : Logged codecs t := logged_run codecs pipelines events
  refine ⟨h.gapless, fun e he => ⟨h.distinct e he, fun e' he' hid => ⟨?_, ?_⟩⟩,
    fun e he request clock cert hcert => ⟨?_, ?_⟩, fun r hr => (h.counted r hr).totals⟩
  · exact h.single e' he' e he hid
  · exact h.advances e he e' he' hid
  · rintro rfl
    exact commitEpoch_retry h he hcert clock
  · intro hid hepoch hne
    exact commitEpoch_conflict h he hcert hid hepoch hne clock

end Filament.Streams
