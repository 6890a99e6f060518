import Filament.Stream.Fencing

/-!
# Who runs a stream

The current run of a stream changes when a submission finds the stream free, when an admitted run is
activated, and when a successor that waits is promoted.

* `RunRow.Rests` : a run keeps its request, and it does not start to wait;
* `Moves` : the current run of a stream stays, and a stopped stream stays stopped; or a run that
  waited for the stream is promoted;
* `Succeeds` : nothing else happens to current runs.

Every operation succeeds in this sense but `submit`, `schedule`, `resolve` and `activate`.
-/

namespace Filament.Streams

open Except Table Option ReplicationStream

variable {codecs : Codecs} {t t' : Tables} {clock : Clock}

/-- The run `b` is the run `a`, and waits only if `a` did. -/
structure RunRow.Rests (a b : RunRow) : Prop where
  run : b.state.run = a.state.run
  tenant : b.state.tenant = a.state.tenant
  request : b.state.request = a.state.request
  createdAt : b.createdAt = a.createdAt
  scheduled : b.state.status = .runScheduled → a.state.status = .runScheduled

variable {tenant : TenantID}

namespace RunRow.Rests

theorem refl (a : RunRow) : a.Rests a := ⟨rfl, rfl, rfl, rfl, id⟩

theorem trans (a b c : RunRow) (h : a.Rests b) (h' : b.Rests c) : a.Rests c where
  run := h'.run.trans h.run
  tenant := h'.tenant.trans h.tenant
  request := h'.request.trans h.request
  createdAt := h'.createdAt.trans h.createdAt
  scheduled := h.scheduled ∘ h'.scheduled

theorem of_drains {a b : RunRow} (h : a.Drains b) : a.Rests b :=
  ⟨h.run, h.tenant, h.request, h.createdAt, h.scheduled⟩

theorem waits {a b : RunRow} (h : a.Rests b) {ref : StreamRef} (hb : b.Waits tenant ref) :
    a.Waits tenant ref :=
  ⟨h.tenant ▸ hb.1, h.scheduled hb.2.1, h.request ▸ hb.2.2⟩

end RunRow.Rests

variable {s' s : ReplicationStream}

theorem ReplicationStream.ref_of_key (h : s.key = s'.key) :
    s.id = s'.id ∧ s.tenantID = s'.tenantID ∧ s.ref = s'.ref := by
  simp only [key, Prod.mk.injEq] at h
  exact ⟨h.1, h.2.1, by rw [ref, ref, h.1, h.2.2.2.2]⟩

/-- What happened to the current run of a stream. -/
inductive Moves (t t' : Tables) (s s' : ReplicationStream) : Prop
  | stays (hrun : s'.currentRunID = s.currentRunID)
      (hstopped : s.desiredState = .stopped → s'.desiredState = .stopped)
  | promoted (r r' : RunRow) (hr : r ∈ t.runs) (hwaits : r.Waits s.tenantID s.ref)
      (hr' : r' ∈ t'.runs) (hsame : r'.state.run = r.state.run)
      (hplaced : r'.state.status ≠ .runScheduled) (hrun : s'.currentRunID = some r.state.run)

/-- Runs rest, and current runs change by promotion only. -/
structure Succeeds (t t' : Tables) : Prop where
  runs : List.Forall₂ RunRow.Rests t.runs t'.runs
  keys : t'.streams.map ReplicationStream.key = t.streams.map ReplicationStream.key
  moves : ∀ s' ∈ t'.streams, ∃ s ∈ t.streams, s.key = s'.key ∧ Moves t t' s s'

theorem Calm.exists_stream (h : Calm t t') (hs' : s' ∈ t'.streams) :
    ∃ s ∈ t.streams, s.key = s'.key ∧ s'.currentRunID = s.currentRunID ∧
      s'.desiredState = s.desiredState := by
  obtain ⟨s, hs, heq⟩ := List.exists_of_map_eq h.standing hs'
  simp only [ReplicationStream.standing, ReplicationStream.identity, Prod.mk.injEq] at heq
  obtain ⟨⟨hid, htenant, hpipeline, hroute, hgeneration, -⟩, hrun, hdesired⟩ := heq
  refine ⟨s, hs, ?_, hrun.symm, hdesired.symm⟩
  rw [ReplicationStream.key, ReplicationStream.key, hid, htenant, hpipeline, hroute, hgeneration]

namespace Succeeds

variable {t'' : Tables}

theorem moves_trans (hruns : List.Forall₂ RunRow.Rests t.runs t'.runs)
    (hruns' : List.Forall₂ RunRow.Rests t'.runs t''.runs) {s'' : ReplicationStream}
    (hkey : s.key = s'.key) (h : Moves t t' s s') (h' : Moves t' t'' s' s'') :
    Moves t t'' s s'' := by
  obtain ⟨-, htenant, href⟩ := ref_of_key hkey
  cases h' with
  | stays hrun' hstopped' =>
    cases h with
    | stays hrun hstopped => exact .stays (hrun'.trans hrun) (hstopped' ∘ hstopped)
    | promoted r r' hr hwaits hr' hsame hplaced hrun =>
      obtain ⟨r'', hr'', hrests⟩ := hruns'.exists_of_mem_left hr'
      exact .promoted r r'' hr hwaits hr'' (hrests.run.trans hsame) (hplaced ∘ hrests.scheduled)
        (hrun'.trans hrun)
  | promoted r' r'' hr' hwaits hr'' hsame hplaced hrun =>
    -- whoever waits now waited before
    obtain ⟨r, hr, hrests⟩ := hruns.exists_of_mem_right hr'
    rw [← htenant, ← href] at hwaits
    exact .promoted r r'' hr (hrests.waits hwaits) hr'' (hsame.trans hrests.run) hplaced
      (hrests.run ▸ hrun)

theorem trans (h : Succeeds t t') (h' : Succeeds t' t'') : Succeeds t t'' where
  runs := h.runs.trans RunRow.Rests.trans h'.runs
  keys := h'.keys.trans h.keys
  moves s'' hs'' := by
    obtain ⟨s', hs', hkey', hmoves'⟩ := h'.moves s'' hs''
    obtain ⟨s, hs, hkey, hmoves⟩ := h.moves s' hs'
    exact ⟨s, hs, hkey.trans hkey', moves_trans h.runs h'.runs hkey hmoves hmoves'⟩

theorem uniqueStreams (h : Succeeds t t') (hids : t.UniqueStreams) : t'.UniqueStreams := by
  have hmap := congrArg (List.map Prod.fst) h.keys
  rw [List.map_map, List.map_map] at hmap
  exact (congrArg List.Nodup hmap).mpr hids

theorem of_eq (hruns : t'.runs = t.runs) (hstreams : t'.streams = t.streams) : Succeeds t t' where
  runs := hruns ▸ List.forall₂_same.2 fun r _ => .refl r
  keys := congrArg _ hstreams
  moves s hs := ⟨s, hstreams ▸ hs, rfl, .stays rfl id⟩

theorem of_calm (h : Calm t t') : Succeeds t t' where
  runs := h.runs.imp fun _ _ => .of_drains
  keys := h.keys
  moves s' hs' := by
    obtain ⟨s, hs, hkey, hrun, hdesired⟩ := h.exists_stream hs'
    exact ⟨s, hs, hkey, .stays hrun hdesired.trans⟩

theorem of_updateStreams {p : ReplicationStream → Prop} [DecidablePred p]
    {f : ReplicationStream → ReplicationStream} (hkey : ∀ s, (f s).key = s.key)
    (hrun : ∀ s, (f s).currentRunID = s.currentRunID)
    (hstopped : ∀ s ∈ t.streams, p s → s.desiredState = .stopped → (f s).desiredState = .stopped) :
    Succeeds t (t.updateStreams p f).2 where
  runs := List.forall₂_same.2 fun r _ => .refl r
  keys := map_update fun s _ _ => hkey s
  moves s' hs' := by
    obtain ⟨s, hs, rfl⟩ := mem_update.1 hs'
    refine ⟨s, hs, ?_⟩
    split_ifs with hp
    · exact ⟨(hkey s).symm, .stays (hrun s) (hstopped s hs hp)⟩
    · exact ⟨rfl, .stays rfl id⟩

end Succeeds

/-! ### Succession -/

variable {id : String} {stamp : ℕ} {stream : ReplicationStream} {f : RunState → RunState}
  {p : RunRow → Prop}

theorem of_updateRuns [DecidablePred p] (h : t.updateRuns p f = .ok t') :
    t' = { t with runs := update p (fun r => { r with state := f r.state }) t.runs } := by
  unfold Tables.updateRuns Tables.putRuns at h
  split_ifs at h
  exact (Except.ok.inj h).symm

theorem mem_of_updateRuns [DecidablePred p] (h : t.updateRuns p f = .ok t') {r : RunRow}
    (hr : r ∈ t.runs) : (if p r then { r with state := f r.state } else r) ∈ t'.runs := by
  rw [of_updateRuns h]
  exact mem_update.2 ⟨r, hr, rfl⟩

theorem runs_foldl_upsert (id : String) (tenant : TenantID) (mode : String) (names : List String) :
    (names.foldl (fun t name => t.upsertReplicationStreamResource id tenant mode name) t).runs =
      t.runs := by
  induction names generalizing t with
  | nil => rfl
  | cons name names ih =>
    rw [List.foldl_cons, ih]
    unfold Tables.upsertReplicationStreamResource
    split_ifs <;> rfl

theorem runs_reviseStreamMembership (stream : ReplicationStream) (spec : RunSpec) :
    (reviseStreamMembership t stream spec).runs = t.runs := by
  have hupsert := @runs_foldl_upsert t stream.id stream.tenantID "snapshot" spec.request.resources
  unfold reviseStreamMembership reconcileStreamMembership
  simp only
  split_ifs <;> exact hupsert

/-- What a promotion does: nothing, if nobody waits or the stream is not settled; otherwise the newest
waiting run becomes the current run of its stream. -/
theorem promoteStreamSuccessor_cases (h : promoteStreamSuccessor t id tenant = .ok t') :
    ∃ stream, t.getReplicationStream id = some stream ∧
      (t' = t ∨ ∃ successor, t.streamSuccessor tenant stream.ref = some successor ∧
        ∃ t₀ spec, Calm t t₀ ∧ t₀.runs = t.runs ∧ t.StreamSettled stream ∧
          (t₀.promoteStreamSuccessor id tenant successor.state.run spec).1 = 1 ∧
          Calm (t₀.promoteStreamSuccessor id tenant successor.state.run spec).2 t' ∧
          ∃ r' ∈ t'.runs, r'.state.run = successor.state.run ∧ r'.state.status ≠ .runScheduled) := by
  simp only [promoteStreamSuccessor, ofOption_bind_eq_ok] at h
  obtain ⟨stream, hstream, h⟩ := h
  refine ⟨stream, hstream, ?_⟩
  split at h
  · exact .inl (Except.ok.inj h).symm
  case h_2 successor hsuccessor =>
    split_ifs at h with hsettled
    · simp only [bind_eq_ok, require_eq_ok, exists_const] at h
      obtain ⟨hone, -, t₁, hrequest, hsync⟩ := h
      have hruns := runs_reviseStreamMembership (t := t) stream (executionSpec
        { RunState.fresh successor.state.run tenant with request := successor.state.request })
      have hcalm := calm_syncContinuousRunPhase hsync
      obtain ⟨hmem, ⟨htenant, hscheduled, -⟩, -⟩ := newest_eq_some hsuccessor
      -- the successor is requested, and it does not go back to waiting
      have hplaced := mem_of_updateRuns hrequest (hruns.symm ▸ hmem)
      rw [if_pos ⟨rfl, htenant, hscheduled⟩] at hplaced
      obtain ⟨r', hr', hdrains⟩ := hcalm.runs.exists_of_mem_left hplaced
      exact .inr ⟨successor, hsuccessor, _, _, calm_reviseStreamMembership .., hruns, hsettled, hone,
        (calm_requestSuccessorRun hrequest).trans hcalm, r', hr', hdrains.run,
        fun hs => absurd (hdrains.scheduled hs) (by simp)⟩
    · exact .inl (Except.ok.inj h).symm

theorem mem_of_getReplicationStream (h : t.getReplicationStream id = some stream) :
    stream ∈ t.streams ∧ stream.id = id :=
  first_eq_some h

theorem succeeds_stopStreamForSuccessor (id : String) (tenant : TenantID) :
    Succeeds t (t.stopStreamForSuccessor id tenant).2 :=
  .of_updateStreams (fun _ => rfl) (fun _ => rfl) fun _ _ _ _ => rfl

section

variable (hids : t.UniqueStreams)
include hids

theorem succeeds_promoteStreamSuccessor (h : promoteStreamSuccessor t id tenant = .ok t') :
    Succeeds t t' := by
  obtain ⟨stream, hstream, rfl | ⟨successor, hsuccessor, t₀, spec, hcalm, hruns, -, -, hcalm', r', hr',
    hsame, hplaced⟩⟩ := promoteStreamSuccessor_cases h
  · exact .of_eq rfl rfl
  obtain ⟨hmem, hid⟩ := mem_of_getReplicationStream hstream
  obtain ⟨hwaiter, hwaits, -⟩ := newest_eq_some hsuccessor
  refine (Succeeds.of_calm hcalm).trans ⟨?_, ?_, fun s' hs' => ?_⟩
  · exact hcalm'.runs.imp fun _ _ => .of_drains
  · exact hcalm'.keys.trans (map_update fun _ _ _ => rfl)
  obtain ⟨s₁, hs₁, hkey₁, hrun, hdesired⟩ := hcalm'.exists_stream hs'
  obtain ⟨s, hs, rfl⟩ := mem_update.1 hs₁
  refine ⟨s, hs, ?_⟩
  split_ifs at hkey₁ hrun hdesired with hp
  · -- the row that is promoted is the stream whose successor was looked up
    obtain ⟨s₀, hs₀, hkey⟩ := List.exists_of_map_eq hcalm.keys hs
    obtain ⟨hid₀, -, href⟩ := ref_of_key hkey
    obtain rfl := hids.eq hs₀ hmem (hid₀.trans (hp.1.trans hid.symm))
    rw [href, ← hp.2.1] at hwaits
    exact ⟨hkey₁, .promoted successor r' (hruns ▸ hwaiter) hwaits hr' hsame hplaced hrun⟩
  · exact ⟨hkey₁, .stays hrun hdesired.trans⟩

theorem succeeds_settleStoppedStream (h : settleStoppedStream t id tenant stamp = .ok t') :
    Succeeds t t' := by
  simp only [settleStoppedStream, bind_eq_ok] at h
  obtain ⟨t₁, hsync, t₂, hfinish, hpromote⟩ := h
  have hcalm := Succeeds.of_calm
    ((calm_syncContinuousRunPhase hsync).trans (calm_finishStoppedContinuousRun hfinish))
  exact hcalm.trans (succeeds_promoteStreamSuccessor (hcalm.uniqueStreams hids) hpromote)

theorem succeeds_queueStreamSuccessor {r : RunState} (h : queueStreamSuccessor t r stamp = .ok t') :
    Succeeds t t' := by
  simp only [queueStreamSuccessor, bind_eq_ok, ofOption_eq_ok, require_eq_ok, exists_const] at h
  obtain ⟨ref, -, -, stream, -, t₁, hcancel, -, hsettle⟩ := h
  have hstop := (Succeeds.of_calm (calm_cancelStreamSuccessor hcancel)).trans
    (succeeds_stopStreamForSuccessor stream.id stream.tenantID)
  exact hstop.trans (succeeds_settleStoppedStream (hstop.uniqueStreams hids) hsettle)

theorem succeeds_setDesiredState {change : DesiredStateChange}
    (h : setDesiredState t change stamp = .ok t') : Succeeds t t' := by
  simp only [setDesiredState, bind_eq_ok, ofOption_eq_ok, require_eq_ok, exists_const] at h
  obtain ⟨stream, hlock, -, current, hcurrent, hstopped, -, t₁, hcancel, hsettle⟩ := h
  have hchange : Succeeds t (t.changeStreamDesiredState stream.id stream.tenantID
      change.expectedRevision change.desired).2 := by
    refine .of_updateStreams (fun _ => rfl) (fun _ => rfl) fun s hs hp hstate => ?_
    simp only [Tables.getStreamExecution, bind_eq_bind, bind_eq_some_iff,
      pure_def, Option.some.injEq] at hcurrent
    obtain ⟨s₀, hfirst, run, -, rfl⟩ := hcurrent
    obtain ⟨hs₀, hid, -⟩ := first_eq_some hfirst
    obtain rfl := hids.eq hs hs₀ (hp.1.trans hid.symm)
    exact hstopped hstate
  have hcanceled : Succeeds t t₁ := by
    split_ifs at hcancel
    · exact hchange.trans (.of_calm (calm_cancelStreamSuccessor hcancel))
    · exact Except.ok.inj hcancel ▸ hchange
  exact hcanceled.trans (succeeds_settleStoppedStream (hcanceled.uniqueStreams hids) hsettle)

end

/-! ### Operations -/

/-- The operations that create or place a run, or insert a generation. -/
def Op.Admits : Op → Prop
  | .submit .. | .schedule .. | .resolve .. | .activate .. => True
  | _ => False

theorem succeeds_certifies {cert : EpochCertificate} {settled : Tables} {snapshot : DomainPositions}
    (hc : Certifies codecs clock t t' cert stream settled snapshot) : Succeeds t t' := by
  refine (Succeeds.of_calm hc.calm).trans ?_
  rw [hc.stored]
  refine ⟨forall₂_update RunRow.Rests.refl fun r _ _ => ?_, map_update fun _ _ _ => rfl,
    fun s' hs' => ?_⟩
  · obtain ⟨htenant, hrun, -, -, hstatus, hrequest⟩ := addProgress_foldl cert.receipts
      { r.state with records := r.state.records + cert.records, bytes := r.state.bytes + cert.bytes }
    exact ⟨hrun, htenant, hrequest, rfl, fun h => hstatus ▸ h⟩
  · obtain ⟨s, hs, rfl⟩ := mem_update.1 hs'
    refine ⟨s, hs, ?_⟩
    split_ifs <;> exact ⟨rfl, .stays rfl id⟩

/-- **The current run.** Without an admission, current runs change by promotion only, and a stream that
was stopped is started by promotion only. -/
theorem exec_succeeds (hids : t.UniqueStreams) {op : Op} (h : exec codecs t clock op = .ok t')
    (hop : ¬op.Admits) : Succeeds t t' := by
  cases op with
  | submit | schedule | resolve | activate => exact absurd trivial hop
  | reconcile id tenant resources mode =>
    exact .of_calm (calm_reconcileReplicationStreamResources h)
  | setDesired change => exact succeeds_setDesiredState hids h
  | start request =>
    obtain ⟨⟨a, t₁⟩, hstart, rfl⟩ := map_eq_ok.1 h
    rcases startAttempt_cases hstart with rfl | ⟨-, -, -, -, -, -, -, -, -, rfl⟩ <;>
      exact .of_eq rfl rfl
  | claim lease =>
    simp only [exec, claimStreamAttempt, bind_eq_ok, require_eq_ok, exists_const] at h
    obtain ⟨_, -, stream, -, _, -, -, hmark⟩ := h
    refine Succeeds.trans ?_ (.of_calm (calm_markContinuousRunStarted hmark))
    exact .of_eq rfl rfl
  | renew lease ttl =>
    simp only [exec, renewLease, bind_eq_ok, require_eq_ok, exists_const, pure_eq_ok_iff] at h
    obtain ⟨-, stream, -, -, _, -, -, rfl⟩ := h
    exact .of_eq rfl rfl
  | yield lease =>
    simp only [exec, yieldAttempt, bind_eq_ok, pure_eq_ok_iff] at h
    obtain ⟨_, -, rfl⟩ := h
    exact .of_eq rfl rfl
  | finish lease termination reason =>
    simp only [exec, endAttempt, bind_eq_ok, require_eq_ok, exists_const] at h
    obtain ⟨stream, -, _, -, -, hsettle⟩ := h
    refine Succeeds.trans ?_ (succeeds_settleStoppedStream ?_ hsettle)
    · exact .of_eq rfl rfl
    · exact hids
  | retire lease =>
    simp only [exec, retireUnclaimedAttempt, bind_eq_ok] at h
    obtain ⟨_, -, hsettle⟩ := h
    refine Succeeds.trans ?_ (succeeds_settleStoppedStream ?_ hsettle)
    · exact .of_eq rfl rfl
    · exact hids
  | commit request =>
    obtain ⟨⟨c, t₁⟩, hcommit, rfl⟩ := map_eq_ok.1 h
    rcases commitEpoch_cases hids hcommit with ⟨rfl, -⟩ | ⟨cert, stream, settled, snapshot, -, hc⟩
    · exact .of_eq rfl rfl
    · exact succeeds_certifies hc

end Filament.Streams
