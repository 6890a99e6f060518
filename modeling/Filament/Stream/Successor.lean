import Filament.Stream.Admission

/-!
# Waiting successors

A run submitted to a live stream waits until the live run has drained.

* `Placed` : current runs do not wait, and whoever waits has a stream with a current run;
* `OneWaits` : at most one run waits for a generation;
* `queue_spec` : a submission behind a live run leaves its run waiting alone, or promotes it at once,
  if nobody else waited or somebody newer.
-/

namespace Filament.Streams

open Except Table List ReplicationStream

variable {codecs : Codecs} {t t' : Tables} {clock : Clock}

/-! ### Who waits -/

variable {createdAt : ℕ} {r : RunState} {run : RunID}

/-- Runs have their own identifiers, a current run does not wait, and whoever waits, waits for a
generation of its tenant that has a current run. -/
structure Placed (t : Tables) : Prop where
  unique : t.UniqueStreams
  nodup : t.runIDs.Nodup
  current : ∀ s ∈ t.streams, ∀ c, s.currentRunID = some c →
    ∃ r ∈ t.runs, r.state.run = c ∧ r.state.status ≠ .runScheduled
  served : ∀ r ∈ t.runs, r.state.status = .runScheduled →
    ∀ ref, r.state.request.replicationStream = some ref →
      ∃ s ∈ t.streams, s.ref = ref ∧ s.tenantID = r.state.tenant ∧ s.currentRunID ≠ none

/-- At most one run waits for a generation. -/
def OneWaits (t : Tables) : Prop :=
  ∀ a ∈ t.runs, ∀ b ∈ t.runs, ∀ tenant ref, a.Waits tenant ref → b.Waits tenant ref → a = b

theorem placed_fresh (pipelines : String → Option Pipeline) : Placed (.fresh pipelines) where
  unique := nodup_nil
  nodup := nodup_nil
  current := by simp [Tables.fresh]
  served := by simp [Tables.fresh]

theorem rests_runIDs (h : List.Forall₂ RunRow.Rests t.runs t'.runs) : t'.runIDs = t.runIDs :=
  h.map_eq fun _ _ hr => hr.run

theorem OneWaits.rests (h : OneWaits t) (hnodup : t.runIDs.Nodup)
    (hruns : List.Forall₂ RunRow.Rests t.runs t'.runs) : OneWaits t' := by
  intro a' ha' b' hb' tenant ref hwa hwb
  obtain ⟨a, ha, hrests⟩ := hruns.exists_of_mem_right ha'
  obtain ⟨b, hb, hrests'⟩ := hruns.exists_of_mem_right hb'
  have hab := h a ha b hb tenant ref (hrests.waits hwa) (hrests'.waits hwb)
  have hnodup' : t'.runIDs.Nodup := rests_runIDs hruns ▸ hnodup
  exact eq_of_runIDs hnodup' ha' hb' (hrests.run.trans (hab ▸ hrests'.run.symm))

/-- A written row that does not wait lets nobody wait who did not. -/
theorem OneWaits.writes (h : OneWaits t) (hw : Writes t t' r createdAt)
    (hr : r.status ≠ .runScheduled ∨ r.request.replicationStream = none) : OneWaits t' := by
  have hold : ∀ a ∈ t'.runs, ∀ tenant ref, a.Waits tenant ref → a ∈ t.runs := by
    intro a ha tenant ref hwaits
    by_cases hrun : a.state.run = r.run
    · obtain ⟨ρ, hρ, hid, -, hstatus, hrequest, -⟩ := hw.row
      obtain rfl := eq_of_runIDs hw.nodup ha hρ (hrun.trans hid.symm)
      rcases hr with hr | hr
      · exact absurd (hstatus ▸ hwaits.2.1) hr
      · rw [← hrequest, hwaits.2.2] at hr
        exact absurd hr nofun
    · exact (hw.others a hrun).1 ha
  exact fun a ha b hb tenant ref hwa hwb =>
    h a (hold a ha tenant ref hwa) b (hold b hb tenant ref hwb) tenant ref hwa hwb

namespace Placed

section

variable (h : Placed t)
include h

theorem succeeds (hs : Succeeds t t') : Placed t' where
  unique := hs.uniqueStreams h.unique
  nodup := rests_runIDs hs.runs ▸ h.nodup
  current s' hs' c hc := by
    obtain ⟨s, hmem, -, hmoves⟩ := hs.moves s' hs'
    cases hmoves with
    | stays hrun hstopped =>
      obtain ⟨r, hr, hid, hstatus⟩ := h.current s hmem c (hrun ▸ hc)
      obtain ⟨r', hr', hrests⟩ := hs.runs.exists_of_mem_left hr
      exact ⟨r', hr', hrests.run.trans hid, hstatus ∘ hrests.scheduled⟩
    | promoted r r' hr hwaits hr' hsame hplaced hrun =>
      exact ⟨r', hr', hsame.trans (Option.mem_unique hrun hc), hplaced⟩
  served r' hr' hstatus ref href := by
    obtain ⟨r, hr, hrests⟩ := hs.runs.exists_of_mem_right hr'
    obtain ⟨s, hmem, hsref, htenant, hcurrent⟩ :=
      h.served r hr (hrests.scheduled hstatus) ref (hrests.request ▸ href)
    obtain ⟨s', hs', hkey⟩ := exists_of_map_eq hs.keys.symm hmem
    obtain ⟨s₀, hmem₀, hkey₀, hmoves⟩ := hs.moves s' hs'
    obtain rfl := h.unique.eq hmem₀ hmem (congrArg Prod.fst (hkey₀.trans hkey))
    obtain ⟨-, htenant', href'⟩ := ref_of_key hkey
    refine ⟨s', hs', href'.trans hsref, htenant'.trans (htenant.trans hrests.tenant.symm), ?_⟩
    cases hmoves with
    | stays hrun hstopped => exact hrun ▸ hcurrent
    | promoted r r' hr hwaits hr' hsame hplaced hrun => simp [hrun]

theorem resolves (hfenced : Fenced t) (hr : Resolves t t') : Placed t' := by
  have hunique := (hfenced.resolves hr).unique
  cases hr with
  | kept => exact h
  | replaced d generation retired hlock hid =>
    refine ⟨hunique, h.nodup, fun s' hs' c hc => ?_, fun r hr hstatus ref href => ?_⟩
    · rcases mem_append.1 hs' with hs' | hs'
      · obtain ⟨s, hs, rfl | rfl⟩ := exists_of_mem_retireRows hs' <;> exact h.current _ hs c hc
      · rw [mem_singleton.1 hs'] at hc
        exact absurd hc nofun
    · obtain ⟨s, hs, hserved⟩ := h.served r hr hstatus ref href
      refine ⟨_, mem_append_left _ (mem_update.2 ⟨s, hs, rfl⟩), ?_⟩
      split_ifs <;> exact hserved

theorem writes (hw : Writes t t' r createdAt)
    (hserved : r.status = .runScheduled → ∀ ref, r.request.replicationStream = some ref →
      ∃ s ∈ t.streams, s.ref = ref ∧ s.tenantID = r.tenant ∧ s.currentRunID ≠ none) :
    Placed t' := by
  refine ⟨?_, hw.nodup, fun s hs c hc => ?_, fun b hb hstatus ref href => ?_⟩
  · unfold Tables.UniqueStreams
    rw [hw.streams]
    exact h.unique
  · obtain ⟨b, hb, hrun, hstatus⟩ := h.current s (hw.streams ▸ hs) c hc
    -- the row of a current run is not scheduled, so it is not rewritten
    have hne : b.state.run ≠ r.run := fun heq => hstatus (hw.free b hb heq)
    exact ⟨b, (hw.others b hne).2 hb, hrun, hstatus⟩
  · rw [hw.streams]
    by_cases hrun : b.state.run = r.run
    · obtain ⟨ρ, hρ, hid, htenant, hstatus', hrequest, -⟩ := hw.row
      obtain rfl := eq_of_runIDs hw.nodup hb hρ (hrun.trans hid.symm)
      exact htenant ▸ hserved (hstatus' ▸ hstatus) ref (hrequest ▸ href)
    · exact h.served b ((hw.others b hrun).1 hb) hstatus ref href

theorem places {free : ReplicationStream → Prop} (hp : Places run free t t')
    (hrun : (∃ s ∈ t.streams, free s) → ∃ r ∈ t.runs, r.state.run = run ∧ r.state.status ≠ .runScheduled) :
    Placed t' := by
  have hids := congrArg (map Prod.fst) hp.keys
  rw [map_map, map_map] at hids
  refine ⟨(congrArg Nodup hids).mpr h.unique, ?_, fun s' hs' c hc => ?_,
    fun r hr hstatus ref href => ?_⟩
  · unfold Tables.runIDs
    rw [hp.runs]
    exact h.nodup
  · rw [hp.runs]
    obtain ⟨s, hs, -, ⟨hsame, -⟩ | ⟨hfree, hplaced⟩⟩ := hp.moves s' hs'
    · exact h.current s hs c (hsame ▸ hc)
    · obtain rfl := Option.mem_unique hplaced hc
      exact hrun ⟨s, hs, hfree⟩
  · obtain ⟨s, hs, hsref, htenant, hcurrent⟩ := h.served r (hp.runs ▸ hr) hstatus ref href
    obtain ⟨s', hs', hkey⟩ := exists_of_map_eq hp.keys.symm hs
    obtain ⟨s₀, hs₀, hkey₀, hmoves⟩ := hp.moves s' hs'
    obtain rfl := h.unique.eq hs₀ hs (congrArg Prod.fst (hkey₀.trans hkey))
    obtain ⟨-, htenant', href'⟩ := ref_of_key hkey
    refine ⟨s', hs', href'.trans hsref, htenant'.trans htenant, ?_⟩
    rcases hmoves with ⟨hsame, -⟩ | ⟨-, hplaced⟩
    · exact hsame ▸ hcurrent
    · simp [hplaced]

theorem activates {req : StreamStateRequest} {spec : RunSpec}
    (ha : activateStream t req spec = .ok t') : Placed t' := by
  rcases activateStream_cases ha with rfl | ⟨stream, hlock, hnone, hvalid, hplaces⟩
  · exact h
  refine h.places hplaces fun _ => ?_
  obtain ⟨hmem, hid, htenant, -⟩ := mem_of_lockRuntime hlock
  simp only [validateActivation, bind_eq_ok, ofOption_eq_ok, require_eq_ok, exists_const] at hvalid
  obtain ⟨-, request, hload, -, href, -⟩ := hvalid
  simp only [Tables.loadRunRequest, Option.map_eq_some_iff] at hload
  obtain ⟨r, hfirst, rfl⟩ := hload
  obtain ⟨hr, hrun, -⟩ := first_eq_some hfirst
  refine ⟨r, hr, hrun, fun hstatus => ?_⟩
  -- a run that waits has a stream with a current run, but this stream has none
  obtain ⟨s, hs, hsref, -, hcurrent⟩ := h.served r hr hstatus _ href
  obtain rfl := h.unique.eq hs hmem ((congrArg StreamRef.id hsref).trans hid.symm)
  have hfind : first (fun s' => s'.id = s.id ∧ s'.tenantID = s.tenantID) t.streams = some s := by
    cases hfirst' : first (fun s' => s'.id = s.id ∧ s'.tenantID = s.tenantID) t.streams with
    | none => exact absurd ⟨rfl, rfl⟩ (first_eq_none.1 hfirst' s hs)
    | some s' =>
      obtain ⟨hs', hid', -⟩ := first_eq_some hfirst'
      rw [h.unique.eq hs' hs hid']
  obtain ⟨c, hc⟩ := Option.ne_none_iff_exists'.1 hcurrent
  simp [Tables.getStreamExecution, hfind, hc] at hnone

end

end Placed

/-! ### Queueing -/

variable {stamp : ℕ} {t₁ t₂ : Tables} {ρ r : RunRow} {stream : ReplicationStream}
  {request : RunRequest} {d : DesiredStream}

theorem mem_of_settled {id : String} {tenant : TenantID}
    (hsync : t.syncContinuousRunPhase id tenant = .ok t₁)
    (hfinish : t₁.finishStoppedContinuousRun id tenant stamp = .ok t₂) (hr : r ∈ t.runs)
    (hcurrent : ∀ s ∈ t.streams, s.id = id → s.currentRunID ≠ some r.state.run) : r ∈ t₂.runs := by
  have h₁ : r ∈ t₁.runs ∧ t₁.streams = t.streams := by
    unfold Tables.syncContinuousRunPhase at hsync
    split at hsync
    · exact (Except.ok.inj hsync) ▸ ⟨hr, rfl⟩
    · next s hfirst =>
      obtain ⟨hs, hid, -⟩ := first_eq_some hfirst
      have hmem := mem_of_updateRuns hsync hr
      rw [if_neg fun hp => hcurrent s hs hid hp.1] at hmem
      exact ⟨hmem, (congrArg Tables.streams (of_updateRuns hsync)).trans rfl⟩
  unfold Tables.finishStoppedContinuousRun at hfinish
  split at hfinish
  · exact (Except.ok.inj hfinish) ▸ h₁.1
  · next s hfirst =>
    obtain ⟨hs, hid, -⟩ := first_eq_some hfirst
    have hmem := mem_of_updateRuns hfinish h₁.1
    rwa [if_neg fun hp => hcurrent s (h₁.2 ▸ hs) hid hp.1] at hmem

variable (t stream) in
/-- Only the run `ρ` waits for the generation. -/
structure Alone (ρ : RunRow) : Prop where
  mem : ρ ∈ t.runs
  waits : ρ.Waits stream.tenantID stream.ref
  only : ∀ b ∈ t.runs, b.Waits stream.tenantID stream.ref → b = ρ

/-- Withdrawing the newest waiting run leaves `ρ` alone, if at most one other run waits and it is
newer. -/
theorem alone_cancelStreamSuccessor (hnodup : t.runIDs.Nodup) (hρ : ρ ∈ t.runs)
    (hwaits : ρ.Waits stream.tenantID stream.ref)
    (hone : ∀ a ∈ t.runs, ∀ b ∈ t.runs, a.Waits stream.tenantID stream.ref →
      b.Waits stream.tenantID stream.ref → a.state.run ≠ ρ.state.run → b.state.run ≠ ρ.state.run → a = b)
    (hnewer : ∀ b ∈ t.runs, b.Waits stream.tenantID stream.ref → b.state.run ≠ ρ.state.run →
      ρ.createdAt < b.createdAt) (h : cancelStreamSuccessor t stream ρ.state.run stamp = .ok t') :
    Alone t' stream ρ := by
  obtain ⟨w, hw⟩ : ∃ w, t.streamSuccessor stream.tenantID stream.ref = some w :=
    exists_newest hρ hwaits
  obtain ⟨hmem, hwaits', hmax⟩ := newest_eq_some hw
  simp only [cancelStreamSuccessor, hw] at h
  split_ifs at h with hkeep
  · cases h
    obtain rfl := eq_of_runIDs hnodup hmem hρ hkeep
    refine ⟨hmem, hwaits, fun b hb hbwaits => ?_⟩
    by_contra hne
    have hrun : b.state.run ≠ w.state.run := fun heq => hne (eq_of_runIDs hnodup hb hmem heq)
    exact absurd (hmax b hb hbwaits) (not_le.2 (hnewer b hb hbwaits hrun))
  · have hρ' := mem_of_updateRuns h hρ
    rw [if_neg fun hp => hkeep hp.1.symm] at hρ'
    refine ⟨hρ', hwaits, fun b hb hbwaits => ?_⟩
    rw [of_updateRuns h] at hb
    obtain ⟨b₀, hb₀, rfl⟩ := mem_update.1 hb
    split_ifs at hbwaits ⊢ with hp
    · exact absurd hbwaits.2.1 nofun
    by_contra hne
    have hrun : b₀.state.run ≠ ρ.state.run := fun heq => hne (eq_of_runIDs hnodup hb₀ hρ heq)
    obtain rfl := hone b₀ hb₀ w hmem hbwaits hwaits' hrun hkeep
    exact hp ⟨rfl, hbwaits.1, hbwaits.2.1⟩

variable (t stream) in
/-- The run waits alone, or it was promoted and nobody waits. -/
def Queued (run : RunID) : Prop :=
  (∃ ρ, ρ.state.run = run ∧ Alone t stream ρ) ∨
    (∀ b ∈ t.runs, ¬b.Waits stream.tenantID stream.ref) ∧
      ∃ s ∈ t.streams, s.id = stream.id ∧ s.currentRunID = some run ∧ s.desiredState = .enabled

theorem Alone.only_of_rests (h : Alone t stream ρ)
    (hruns : List.Forall₂ RunRow.Rests t.runs t'.runs) {b : RunRow} (hb : b ∈ t'.runs)
    (hwaits : b.Waits stream.tenantID stream.ref) : b.state.run = ρ.state.run := by
  obtain ⟨b₀, hb₀, hrests⟩ := hruns.exists_of_mem_right hb
  rw [hrests.run, h.only b₀ hb₀ (hrests.waits hwaits)]

/-- Settling a stream keeps whoever waits alone, or promotes it. -/
theorem Alone.settles (h : Alone t stream ρ) (hplaced : Placed t)
    (hmem : ∃ s ∈ t.streams, s.key = stream.key)
    (hs : settleStoppedStream t stream.id stream.tenantID stamp = .ok t') :
    Queued t' stream ρ.state.run := by
  simp only [settleStoppedStream, bind_eq_ok] at hs
  obtain ⟨t₁, hsync, t₂, hfinish, hpromote⟩ := hs
  have hcalm := (calm_syncContinuousRunPhase hsync).trans (calm_finishStoppedContinuousRun hfinish)
  have hplaced₂ := hplaced.succeeds (.of_calm hcalm)
  -- the current run of the stream does not wait, so it is another one
  have hcurrent : ∀ s ∈ t.streams, s.id = stream.id → s.currentRunID ≠ some ρ.state.run := by
    rintro s hs - hc
    obtain ⟨r, hr, hrun, hstatus⟩ := hplaced.current s hs _ hc
    exact hstatus (eq_of_runIDs hplaced.nodup hr h.mem hrun ▸ h.waits.2.1)
  have halone : Alone t₂ stream ρ := by
    have hρ := mem_of_settled hsync hfinish h.mem hcurrent
    refine ⟨hρ, h.waits, fun b hb hwaits => ?_⟩
    exact eq_of_runIDs hplaced₂.nodup hb hρ
      (h.only_of_rests (Succeeds.of_calm hcalm).runs hb hwaits)
  have hsucceeds := succeeds_promoteStreamSuccessor hplaced₂.unique hpromote
  have hplaced' := hplaced₂.succeeds hsucceeds
  obtain ⟨s, hget, rfl | ⟨successor, hsuccessor, t₀, spec, -, -, -, hone, hcalm', r', hr', hsame,
    hstatus⟩⟩ := promoteStreamSuccessor_cases hpromote
  · exact .inl ⟨ρ, rfl, halone⟩
  -- the stream whose successor is looked up is this one
  obtain ⟨hs, hid⟩ := mem_of_getReplicationStream hget
  obtain ⟨s₀, hs₀, hkey₀⟩ := hmem
  obtain ⟨s₂, hs₂, hkey₂⟩ := exists_of_map_eq hcalm.keys.symm hs₀
  obtain ⟨hid₂, -, href₂⟩ := ref_of_key (hkey₂.trans hkey₀)
  obtain rfl := hplaced₂.unique.eq hs hs₂ (hid.trans hid₂.symm)
  obtain ⟨hwaiter, hwaits, -⟩ := newest_eq_some hsuccessor
  obtain rfl := halone.only successor hwaiter (href₂ ▸ hwaits)
  refine .inr ⟨fun b hb hwaits' => ?_, ?_⟩
  · have hrun := halone.only_of_rests hsucceeds.runs hb hwaits'
    exact hstatus (eq_of_runIDs hplaced'.nodup hr' hb (hsame.trans hrun.symm) ▸ hwaits'.2.1)
  · obtain ⟨s₁, hs₁, hp⟩ := affected_pos.1 (hone ▸ Nat.one_pos)
    obtain ⟨s', hs', heq⟩ := exists_of_map_eq hcalm'.standing.symm
      (mem_update.2 ⟨s₁, hs₁, if_pos hp⟩)
    simp only [standing, identity, Prod.mk.injEq] at heq
    exact ⟨s', hs', heq.1.1.trans hp.1, heq.2.1, heq.2.2⟩

theorem OneWaits.of_alone (hone : OneWaits t)
    (hold : ∀ b ∈ t₁.runs, b.state.run ≠ ρ.state.run → b ∈ t.runs)
    (hruns : List.Forall₂ RunRow.Rests t₁.runs t₂.runs) (hnodup : t₂.runIDs.Nodup)
    (h : Alone t₂ stream ρ) : OneWaits t₂ := by
  intro a ha b hb tenant ref hwa hwb
  have hsame : ∀ x ∈ t₂.runs, ∀ y ∈ t₂.runs, x.Waits tenant ref → y.Waits tenant ref →
      x.state.run = ρ.state.run → x = y := by
    intro x hx y hy hwx hwy hrun
    obtain rfl := eq_of_runIDs hnodup hx h.mem hrun
    obtain rfl : tenant = stream.tenantID := hwx.1.symm.trans h.waits.1
    obtain rfl : ref = stream.ref := Option.mem_unique hwx.2.2 h.waits.2.2
    exact (h.only y hy hwy).symm
  by_cases hra : a.state.run = ρ.state.run
  · exact hsame a ha b hb hwa hwb hra
  by_cases hrb : b.state.run = ρ.state.run
  · exact (hsame b hb a ha hwb hwa hrb).symm
  obtain ⟨a₁, ha₁, hrests⟩ := hruns.exists_of_mem_right ha
  obtain ⟨b₁, hb₁, hrests'⟩ := hruns.exists_of_mem_right hb
  have hab := hone a₁ (hold a₁ ha₁ (hrests.run ▸ hra)) b₁ (hold b₁ hb₁ (hrests'.run ▸ hrb)) tenant ref
    (hrests.waits hwa) (hrests'.waits hwb)
  exact eq_of_runIDs hnodup ha hb (hrests.run.trans (hab ▸ hrests'.run.symm))

/-- The row of a run that waits for `stream`. -/
def waiting (run : RunID) (request : RunRequest) (stream : ReplicationStream) : RunState :=
  { submitted run request with
    status := .runScheduled, request := { request with replicationStream := some stream.ref } }

/-- The active generation that a submission finds. -/
theorem Queues.mem (h : Queues t request d stream) : stream ∈ t.streams :=
  (first_eq_some h.2.1).1

/-- A live run is the current run of its stream. -/
theorem Queues.current (h : Queues t request d stream) (hids : t.UniqueStreams) :
    stream.tenantID = request.tenant ∧ stream.currentRunID ≠ none := by
  obtain ⟨s, hs, hid, htenant, r, -, hrun, -⟩ := h.2.2.2
  obtain rfl := hids.eq hs h.mem hid
  exact ⟨htenant, by simp [hrun]⟩

/-- **Queueing.** A submission behind a live run leaves its run waiting alone, if nobody else waited
or somebody newer. -/
theorem queue_spec (hplaced : Placed t) (hone : OneWaits t) (hq : Queues t request d stream)
    (hnewer : ∀ w ∈ t.runs, w.Waits stream.tenantID stream.ref → w.state.run ≠ run →
      createdAt < w.createdAt) (hw : Writes t t₁ (waiting run request stream) createdAt)
    (h : queueStreamSuccessor t₁ (waiting run request stream) stamp = .ok t') :
    Placed t' ∧ OneWaits t' ∧ Queued t' stream run := by
  have hplaced₁ : Placed t₁ := by
    refine hplaced.writes hw fun _ ref href => ⟨stream, hq.mem, ?_, hq.current hplaced.unique⟩
    exact Option.some.inj href
  have hsucceeds := succeeds_queueStreamSuccessor hplaced₁.unique h
  simp only [queueStreamSuccessor, bind_eq_ok, ofOption_eq_ok, require_eq_ok, exists_const] at h
  obtain ⟨ref, href, -, locked, hlock, t₂, hcancel, -, hsettle⟩ := h
  cases href
  obtain ⟨hlocked, hid, htenant, -⟩ := first_eq_some hlock
  have hstream : stream ∈ t₁.streams := hw.streams ▸ hq.mem
  obtain rfl := hplaced₁.unique.eq hlocked hstream hid
  obtain ⟨ρ, hρ, hrun, hρtenant, hstatus, hrequest, hcreated⟩ := hw.row
  replace hrun : ρ.state.run = run := hrun
  have hwaits : ρ.Waits locked.tenantID locked.ref :=
    ⟨hρtenant.trans htenant.symm, hstatus, hrequest ▸ rfl⟩
  have hold : ∀ b ∈ t₁.runs, b.state.run ≠ ρ.state.run → b ∈ t.runs := fun b hb hne =>
    (hw.others b fun heq => hne (heq.trans hrun.symm)).1 hb
  have halone : Alone t₂ locked ρ := by
    refine alone_cancelStreamSuccessor hplaced₁.nodup hρ hwaits (fun a ha b hb hwa hwb hna hnb => ?_)
      (fun b hb hwb hne => ?_) (hrun ▸ hcancel)
    · exact hone a (hold a ha hna) b (hold b hb hnb) _ _ hwa hwb
    · exact hcreated ▸ hnewer b (hold b hb hne) hwb fun heq => hne (heq.trans hrun.symm)
  have hcalm := calm_cancelStreamSuccessor hcancel
  have hplaced₂ := hplaced₁.succeeds (.of_calm hcalm)
  have hone₂ := hone.of_alone hold (Succeeds.of_calm hcalm).runs hplaced₂.nodup halone
  have hstop := @succeeds_stopStreamForSuccessor t₂ locked.id locked.tenantID
  have hplaced₃ := hplaced₂.succeeds hstop
  have hsettled := succeeds_settleStoppedStream hplaced₃.unique hsettle
  have hkeys := exists_of_map_eq (hstop.keys.trans hcalm.keys).symm hstream
  refine ⟨hplaced₁.succeeds hsucceeds, hone₂.rests hplaced₂.nodup (hstop.trans hsettled).runs, ?_⟩
  have halone₃ : Alone (t₂.stopStreamForSuccessor locked.id locked.tenantID).2 locked ρ :=
    { halone with }
  exact hrun ▸ halone₃.settles hplaced₃ hkeys hsettle

end Filament.Streams
