import Filament.Stream.Successor

/-!
# Stops are final

A stop withdraws whoever waits, so that a stopped stream runs again only for a later submission.

* `InLine` : the invariant about who runs and who waits;
* `Stopped` : since a stop, a stream runs and is waited for only by what was submitted later;
* `Orderly` : a submission behind a live run finds nobody else waiting, or somebody newer;
* `successors_of_orderly` : in every orderly run a submission that queues leaves its run waiting
  alone, and a stop is final;
* `stop_undone` : two submissions behind a live run leave two runs waiting, and the older one runs
  after a stop.
-/

namespace Filament.Streams

open Except Table List ReplicationStream

variable {codecs : Codecs} {t t' : Tables} {clock : Clock}

/-! ### Orderly submissions -/

/-- Every other run that waits for the generation is newer than the row of the submitted run. -/
def Op.Orderly (t : Tables) (began : ℕ) : Op → Prop
  | .submit run request (some d) =>
    run ≠ "" ∧ ∀ stream ∈ t.getActiveReplicationStream d.pipelineID d.route,
      Queues t request d stream → ∀ w ∈ t.runs, w.Waits stream.tenantID stream.ref →
        w.state.run ≠ run → submittedAt t run request.tenant began < w.createdAt
  | .schedule _ request => request.replicationStream = none
  | _ => True

/-- A submission behind a live run finds nobody else waiting, or somebody newer; and a run that is
created ahead of its schedule does not name a stream. -/
def Orderly (s : System) (e : Event) : Prop := e.op.Orderly s.tables e.began

/-- The run that an operation submits. -/
def Op.submission : Op → Option RunID
  | .submit run _ _ => some run
  | _ => none

/-- The runs that the events submit. -/
def submissions (events : List Event) : List RunID := events.filterMap fun e => e.op.submission

/-! ### The invariant -/

variable {r : RunState} {createdAt : ℕ} {run : RunID} {stream : ReplicationStream}
  {free : ReplicationStream → Prop} {op : Op}

/-- Who runs and who waits. -/
structure InLine (t : Tables) : Prop where
  placed : Placed t
  one : OneWaits t
  named : ∀ r ∈ t.runs, r.state.status = .runScheduled → r.state.request.replicationStream ≠ none →
    r.state.run ≠ ""

theorem inLine_fresh (pipelines : String → Option Pipeline) : InLine (.fresh pipelines) where
  placed := placed_fresh pipelines
  one := by simp [OneWaits, Tables.fresh]
  named := by simp [Tables.fresh]

namespace InLine

section

variable (h : InLine t)
include h

theorem named_rests (hruns : List.Forall₂ RunRow.Rests t.runs t'.runs) :
    ∀ r ∈ t'.runs, r.state.status = .runScheduled → r.state.request.replicationStream ≠ none →
      r.state.run ≠ "" := by
  intro r' hr' hstatus href
  obtain ⟨r, hr, hrests⟩ := hruns.exists_of_mem_right hr'
  exact hrests.run ▸ h.named r hr (hrests.scheduled hstatus) (hrests.request ▸ href)

theorem named_writes (hw : Writes t t' r createdAt)
    (hr : r.status = .runScheduled → r.request.replicationStream ≠ none → r.run ≠ "") :
    ∀ b ∈ t'.runs, b.state.status = .runScheduled → b.state.request.replicationStream ≠ none →
      b.state.run ≠ "" := by
  intro b hb hstatus href
  by_cases hrun : b.state.run = r.run
  · obtain ⟨ρ, hρ, hid, -, hstatus', hrequest, -⟩ := hw.row
    obtain rfl := eq_of_runIDs hw.nodup hb hρ (hrun.trans hid.symm)
    exact hrun ▸ hr (hstatus' ▸ hstatus) (hrequest ▸ href)
  · exact h.named b ((hw.others b hrun).1 hb) hstatus href

theorem succeeds (hs : Succeeds t t') : InLine t' where
  placed := h.placed.succeeds hs
  one := h.one.rests h.placed.nodup hs.runs
  named := h.named_rests hs.runs

theorem resolves (hfenced : Fenced t) (hr : Resolves t t') : InLine t' := by
  have hplaced := h.placed.resolves hfenced hr
  cases hr with
  | kept => exact h
  | replaced d generation retired hlock hid => exact ⟨hplaced, h.one, h.named⟩

theorem writes (hw : Writes t t' r createdAt)
    (hr : r.status ≠ .runScheduled ∨ r.request.replicationStream = none) : InLine t' where
  placed := h.placed.writes hw fun hstatus ref href => by
    rcases hr with hr | hr
    · exact absurd hstatus hr
    · exact absurd (hr.symm.trans href) nofun
  one := h.one.writes hw hr
  named := h.named_writes hw fun hstatus href => by
    rcases hr with hr | hr
    · exact absurd hstatus hr
    · exact absurd hr href

theorem places (hp : Places run free t t') (hplaced : Placed t') :
    InLine t' where
  placed := hplaced
  one := by
    unfold OneWaits
    rw [hp.runs]
    exact h.one
  named := by
    rw [hp.runs]
    exact h.named

/-- A submission behind a live run, if it is orderly. -/
theorem queues {request : RunRequest} {d : DesiredStream}
    (ho : (Op.submit run request (some d)).Orderly t clock.began) (hq : Queues t request d stream)
    {t₁ : Tables}
    (hw : Writes t t₁ (waiting run request stream) (submittedAt t run request.tenant clock.began))
    (hqueue : queueStreamSuccessor t₁ (waiting run request stream) clock.stamp = .ok t') :
    InLine t' ∧ Queued t' stream run := by
  obtain ⟨hrun, hnewer⟩ := ho
  obtain ⟨hplaced, hone, hqueued⟩ := queue_spec h.placed h.one hq (hnewer stream hq.2.1 hq) hw hqueue
  refine ⟨⟨hplaced, hone, fun b hb hstatus href => ?_⟩, hqueued⟩
  have hunique : t₁.UniqueStreams := by
    unfold Tables.UniqueStreams
    rw [hw.streams]
    exact h.placed.unique
  obtain ⟨r, hr, hrests⟩ := (succeeds_queueStreamSuccessor hunique hqueue).runs.exists_of_mem_right hb
  exact hrests.run ▸ h.named_writes hw (fun _ _ => hrun) r hr (hrests.scheduled hstatus)
    (hrests.request ▸ href)

/-- **One step.** An orderly operation keeps the runs in line. -/
theorem exec (hfenced : Fenced t) (he : exec codecs t clock op = .ok t')
    (ho : op.Orderly t clock.began) : InLine t' := by
  cases op with
  | submit run request desired =>
    cases desired with
    | none => exact h.writes (writes_createRun h.placed.nodup he) (.inl nofun)
    | some d =>
      rcases submit_cases h.placed.nodup he with ⟨stream, t₁, hq, hw, hqueue⟩ |
        ⟨-, t₁, t₂, ref, createdAt, hr, hw, hp⟩
      · exact (h.queues ho hq hw hqueue).1
      have hline := (h.resolves hfenced hr).writes hw (.inl nofun)
      refine hline.places hp (hline.placed.places hp fun _ => ?_)
      obtain ⟨ρ, hρ, hrun, -, hstatus, -⟩ := hw.row
      exact ⟨ρ, hρ, hrun, by simp [hstatus, submitted, RunState.fresh]⟩
  | schedule run request => exact h.writes (writes_createRun h.placed.nodup he) (.inr ho)
  | resolve desired =>
    obtain ⟨⟨stream, t₁⟩, hresolve, rfl⟩ := map_eq_ok.1 he
    exact h.resolves hfenced (resolves_of_resolveReplicationStream hresolve)
  | activate request spec =>
    have hplaced := h.placed.activates he
    rcases activateStream_cases he with rfl | ⟨stream, -, -, -, hp⟩
    · exact h
    · exact h.places hp hplaced
  | reconcile | setDesired | start | claim | renew | yield | finish | retire | commit =>
    exact h.succeeds (exec_succeeds h.placed.unique he fun hadmits => hadmits)

end

end InLine

/-! ### After a stop -/

variable {stamp : ℕ} {events : List Event} {s : System}

/-- Since a stop, the stream `id` runs, and is waited for, only by runs in `since`. -/
structure Stopped (id : String) (since : List RunID) (t : Tables) : Prop where
  known : ∃ s ∈ t.streams, s.id = id
  current : ∀ s ∈ t.streams, s.id = id → s.currentRunID ≠ none ∧
    (s.desiredState = .stopped ∨ ∃ run ∈ since, s.currentRunID = some run)
  waiting : ∀ r ∈ t.runs, r.state.status = .runScheduled →
    ∀ ref, r.state.request.replicationStream = some ref → ref.id = id → r.state.run ∈ since

namespace Stopped

variable {id : String} {since : List RunID}

section

variable (h : Stopped id since t)
include h

theorem mono {since' : List RunID} (hsub : since ⊆ since') :
    Stopped id since' t where
  known := h.known
  current s hs hid := by
    obtain ⟨hcurrent, hstopped | ⟨run, hmem, hrun⟩⟩ := h.current s hs hid
    · exact ⟨hcurrent, .inl hstopped⟩
    · exact ⟨hcurrent, .inr ⟨run, hsub hmem, hrun⟩⟩
  waiting r hr hstatus ref href hid := hsub (h.waiting r hr hstatus ref href hid)

theorem known_of_keys
    (hkeys : t'.streams.map key = t.streams.map key) :
    ∃ s ∈ t'.streams, s.id = id := by
  obtain ⟨s, hs, hid⟩ := h.known
  obtain ⟨s', hs', hkey⟩ := exists_of_map_eq hkeys.symm hs
  exact ⟨s', hs', (congrArg Prod.fst hkey).trans hid⟩

theorem succeeds (hs : Succeeds t t') : Stopped id since t' where
  known := h.known_of_keys hs.keys
  current s' hs' hid := by
    obtain ⟨s, hmem, hkey, hmoves⟩ := hs.moves s' hs'
    obtain ⟨hsid, -, -⟩ := ref_of_key hkey
    obtain ⟨hcurrent, hsince⟩ := h.current s hmem (hsid.trans hid)
    cases hmoves with
    | stays hrun hstopped => exact hrun ▸ ⟨hcurrent, hsince.imp_left hstopped⟩
    | promoted r r' hr hwaits hr' hsame hplaced hrun =>
      -- whoever is promoted waited, and so it was submitted later
      refine ⟨by simp [hrun], .inr ⟨r.state.run, ?_, hrun⟩⟩
      exact h.waiting r hr hwaits.2.1 s.ref hwaits.2.2 (hsid.trans hid)
  waiting r' hr' hstatus ref href hid := by
    obtain ⟨r, hr, hrests⟩ := hs.runs.exists_of_mem_right hr'
    exact hrests.run ▸ h.waiting r hr (hrests.scheduled hstatus) ref (hrests.request ▸ href) hid

theorem resolves (hr : Resolves t t') : Stopped id since t' := by
  cases hr with
  | kept => exact h
  | replaced d generation retired hlock hfresh =>
    obtain ⟨s, hs, hid⟩ := h.known
    refine ⟨?_, fun s' hs' hid' => ?_, h.waiting⟩
    · refine ⟨_, mem_append_left _ (mem_update.2 ⟨s, hs, rfl⟩), ?_⟩
      split_ifs <;> exact hid
    · rcases mem_append.1 hs' with hs' | hs'
      · obtain ⟨s₀, hs₀, rfl | rfl⟩ := exists_of_mem_retireRows hs'
        · exact h.current _ hs₀ hid'
        · exact h.current s₀ hs₀ hid'
      · obtain rfl := mem_singleton.1 hs'
        exact absurd (hid.trans hid'.symm) (hfresh s hs)

theorem writes (hw : Writes t t' r createdAt)
    (hr : r.status = .runScheduled → r.request.replicationStream ≠ none → r.run ∈ since) :
    Stopped id since t' where
  known := hw.streams ▸ h.known
  current := hw.streams ▸ h.current
  waiting b hb hstatus ref href hid := by
    by_cases hrun : b.state.run = r.run
    · obtain ⟨ρ, hρ, hid', -, hstatus', hrequest, -⟩ := hw.row
      obtain rfl := eq_of_runIDs hw.nodup hb hρ (hrun.trans hid'.symm)
      refine hrun ▸ hr (hstatus' ▸ hstatus) ?_
      rw [← hrequest, href]
      simp
    · exact h.waiting b ((hw.others b hrun).1 hb) hstatus ref href hid

theorem places (hp : Places run free t t')
    (hrun : ∀ s, free s → s.currentRunID ≠ none → run ∈ since) :
    Stopped id since t' where
  known := h.known_of_keys hp.keys
  current s' hs' hid := by
    obtain ⟨s, hs, hkey, hmoves⟩ := hp.moves s' hs'
    obtain ⟨hsid, -, -⟩ := ref_of_key hkey
    obtain ⟨hcurrent, hsince⟩ := h.current s hs (hsid.trans hid)
    rcases hmoves with ⟨hsame, hdesired⟩ | ⟨hfree, hplaced⟩
    · rw [hsame, hdesired]
      exact ⟨hcurrent, hsince⟩
    · exact ⟨by simp [hplaced], .inr ⟨run, hrun s hfree hcurrent, hplaced⟩⟩
  waiting := hp.runs ▸ h.waiting

/-- **One step after a stop.** An orderly operation starts a stopped stream only for what it
submits. -/
theorem exec (hline : InLine t) (he : exec codecs t clock op = .ok t')
    (ho : op.Orderly t clock.began) : Stopped id (since ++ op.submission.toList) t' := by
  have hmono : Stopped id (since ++ op.submission.toList) t := h.mono (subset_append_left ..)
  cases op with
  | submit run request desired =>
    have hrun : run ∈ since ++ (Op.submit run request desired).submission.toList := by
      simp [Op.submission]
    cases desired with
    | none => exact hmono.writes (writes_createRun hline.placed.nodup he) fun _ _ => hrun
    | some d =>
      rcases submit_cases hline.placed.nodup he with ⟨stream, t₁, hq, hw, hqueue⟩ |
        ⟨-, t₁, t₂, ref, createdAt, hr, hw, hp⟩
      · have hunique : t₁.UniqueStreams := by
          unfold Tables.UniqueStreams
          rw [hw.streams]
          exact hline.placed.unique
        exact (hmono.writes hw fun _ _ => hrun).succeeds (succeeds_queueStreamSuccessor hunique hqueue)
      · exact ((hmono.resolves hr).writes hw fun _ _ => hrun).places hp fun _ _ _ => hrun
  | schedule run request =>
    exact hmono.writes (writes_createRun hline.placed.nodup he) fun _ href => absurd ho href
  | resolve desired =>
    obtain ⟨⟨stream, t₁⟩, hresolve, rfl⟩ := map_eq_ok.1 he
    exact hmono.resolves (resolves_of_resolveReplicationStream hresolve)
  | activate request spec =>
    rcases activateStream_cases he with rfl | ⟨stream, -, -, -, hp⟩
    · exact hmono
    · exact hmono.places hp fun _ hfree hcurrent => absurd hfree hcurrent
  | reconcile | setDesired | start | claim | renew | yield | finish | retire | commit =>
    exact hmono.succeeds (exec_succeeds hline.placed.unique he fun hadmits => hadmits)

end

end Stopped

/-- If at most one run waits, then withdrawing the newest one leaves nobody waiting. -/
theorem InLine.cancelStreamSuccessor (h : InLine t)
    (hcancel : cancelStreamSuccessor t stream "" stamp = .ok t') :
    ∀ b ∈ t'.runs, ¬b.Waits stream.tenantID stream.ref := by
  unfold Streams.cancelStreamSuccessor at hcancel
  split at hcancel
  · next hnone =>
    cases hcancel
    exact newest_eq_none.1 hnone
  · next w hw =>
    obtain ⟨hmem, hwaits, -⟩ := newest_eq_some hw
    rw [if_neg (h.named w hmem hwaits.2.1 (by simp [hwaits.2.2]))] at hcancel
    intro b hb hbwaits
    rw [of_updateRuns hcancel] at hb
    obtain ⟨b₀, hb₀, rfl⟩ := mem_update.1 hb
    split_ifs at hbwaits with hp
    · exact absurd hbwaits.2.1 nofun
    · obtain rfl := h.one b₀ hb₀ w hmem _ _ hbwaits hwaits
      exact hp ⟨rfl, hbwaits.1, hbwaits.2.1⟩

theorem ref_of_keys (hids : t.UniqueStreams)
    (hkeys : t'.streams.map key = t.streams.map key)
    {s : ReplicationStream} (hstream : stream ∈ t.streams) (hs : s ∈ t'.streams)
    (hid : s.id = stream.id) : s.tenantID = stream.tenantID ∧ s.ref = stream.ref := by
  obtain ⟨s₀, hs₀, hkey⟩ := exists_of_map_eq hkeys hs
  obtain ⟨hid₀, htenant, href⟩ := ref_of_key hkey
  obtain rfl := hids.eq hs₀ hstream (hid₀.trans hid)
  exact ⟨htenant.symm, href.symm⟩

/-- Settling a stream that nobody waits for promotes nobody. -/
theorem calm_settleStoppedStream (hids : t.UniqueStreams)
    (hstream : ∃ s ∈ t.streams, s.key = stream.key)
    (hnone : ∀ b ∈ t.runs, ¬b.Waits stream.tenantID stream.ref)
    (h : settleStoppedStream t stream.id stream.tenantID stamp = .ok t') : Calm t t' := by
  simp only [settleStoppedStream, bind_eq_ok] at h
  obtain ⟨t₁, hsync, t₂, hfinish, hpromote⟩ := h
  have hcalm := (calm_syncContinuousRunPhase hsync).trans (calm_finishStoppedContinuousRun hfinish)
  obtain ⟨s, hget, rfl | ⟨successor, hsuccessor, -⟩⟩ := promoteStreamSuccessor_cases hpromote
  · exact hcalm
  obtain ⟨hs, hid⟩ := mem_of_getReplicationStream hget
  obtain ⟨s₀, hs₀, hkey₀⟩ := hstream
  obtain ⟨hid₀, htenant₀, href₀⟩ := ref_of_key hkey₀
  obtain ⟨-, href⟩ := ref_of_keys hids hcalm.keys hs₀ hs (hid.trans hid₀.symm)
  obtain ⟨hmem, hwaits, -⟩ := newest_eq_some hsuccessor
  obtain ⟨b, hb, hdrains⟩ := hcalm.runs.exists_of_mem_right hmem
  rw [href, href₀] at hwaits
  exact absurd ((RunRow.Rests.of_drains hdrains).waits hwaits) (hnone b hb)

/-- **A stop.** Nobody waits for the generation, and its stream is stopped. -/
theorem InLine.stop (h : InLine t) {change : DesiredStateChange}
    (hdesired : change.desired = .stopped) (hset : setDesiredState t change stamp = .ok t') :
    (∀ b ∈ t'.runs, ¬b.Waits change.request.tenant change.request.stream) ∧
      Stopped change.request.stream.id [] t' := by
  have hsucceeds := succeeds_setDesiredState h.placed.unique hset
  have hline' := h.succeeds hsucceeds
  simp only [setDesiredState, bind_eq_ok, ofOption_eq_ok, require_eq_ok, exists_const] at hset
  obtain ⟨stream, hlock, -, current, -, -, hone, t₁, hcancel, hsettle⟩ := hset
  rw [if_pos hdesired] at hcancel
  obtain ⟨hmem, hid, htenant, hgeneration⟩ := mem_of_lockRuntime hlock
  have href : stream.ref = change.request.stream := by
    rw [ref, hid, hgeneration]
  have hchange : Succeeds t (t.changeStreamDesiredState stream.id stream.tenantID
      change.expectedRevision change.desired).2 :=
    .of_updateStreams (fun _ => rfl) (fun _ => rfl) fun _ _ _ _ => hdesired
  have hcanceled := calm_cancelStreamSuccessor hcancel
  have hplaced₁ := (h.placed.succeeds hchange).succeeds (.of_calm hcanceled)
  have hcalm := calm_settleStoppedStream hplaced₁.unique
    (exists_of_map_eq (hcanceled.keys.trans hchange.keys).symm hmem)
    ((h.succeeds hchange).cancelStreamSuccessor hcancel) hsettle
  have hnone : ∀ b ∈ t'.runs, ¬b.Waits stream.tenantID stream.ref := by
    intro b hb hwaits
    obtain ⟨b₁, hb₁, hdrains⟩ := hcalm.runs.exists_of_mem_right hb
    exact (h.succeeds hchange).cancelStreamSuccessor hcancel b₁ hb₁
      ((RunRow.Rests.of_drains hdrains).waits hwaits)
  refine ⟨href ▸ htenant ▸ hnone, ?_, fun s' hs' hsid => ?_, fun r hr hstatus ref hreq hrid => ?_⟩
  · obtain ⟨s', hs', hkey⟩ := exists_of_map_eq hsucceeds.keys.symm hmem
    exact ⟨s', hs', (congrArg Prod.fst hkey).trans hid⟩
  · obtain ⟨s₁, hs₁, hkey, hrun, hstate⟩ := (hcanceled.trans hcalm).exists_stream hs'
    obtain ⟨s, hs, rfl⟩ := mem_update.1 hs₁
    -- the row that was found is the only one with the identifier
    obtain ⟨found, hfound, hp⟩ := affected_pos.1 (hone ▸ Nat.one_pos)
    obtain rfl := h.placed.unique.eq hfound hmem hp.1
    have hsid' : s.id = found.id := by
      have hid₁ := (ref_of_key hkey).1
      split_ifs at hid₁ <;> exact hid₁.trans (hsid.trans hid.symm)
    obtain rfl := h.placed.unique.eq hs hfound hsid'
    rw [if_pos hp] at hrun hstate
    exact ⟨hrun ▸ hp.2.2.2, .inl (hstate.trans hdesired)⟩
  · obtain ⟨s, hs, hsref, hstenant, -⟩ := hline'.placed.served r hr hstatus ref hreq
    have hsid : s.id = stream.id := (congrArg StreamRef.id hsref).trans (hrid.trans hid.symm)
    obtain ⟨htenant', href'⟩ := ref_of_keys h.placed.unique hsucceeds.keys hmem hs hsid
    refine absurd ⟨?_, hstatus, ?_⟩ (hnone r hr)
    · exact hstenant.symm.trans htenant'
    · rw [hreq, ← hsref, href']

/-! ### Runs of the system -/

theorem InLine.step {e : Event} (h : InLine s.tables) (hfenced : Fenced s.tables) (ho : Orderly s e) :
    InLine (step codecs s e).tables := by
  rcases step_cases codecs s e with heq | hcommits
  · exact heq ▸ h
  · exact h.exec hfenced hcommits ho

/-- Orderly runs keep the runs in line. -/
theorem inLine_run (codecs : Codecs) (pipelines : String → Option Pipeline)
    (h : Trace.Along (step codecs) Orderly (.fresh pipelines) events) :
    let s := Trace.run (step codecs) (.fresh pipelines) events
    Fenced s.tables ∧ InLine s.tables :=
  @Trace.inv_run_of_along _ _ (step codecs) Orderly (fun s => Fenced s.tables ∧ InLine s.tables)
    _ _ (fun _ e hinv ho => ⟨hinv.1.step codecs e, hinv.2.step hinv.1 ho⟩)
    ⟨fenced_fresh pipelines, inLine_fresh pipelines⟩ h

/-- A stream that was stopped runs only for later submissions. -/
theorem stopped_run {id : String} {since : List RunID} (hfenced : Fenced s.tables)
    (hline : InLine s.tables) (h : Stopped id since s.tables)
    (ho : Trace.Along (step codecs) Orderly s events) :
    Stopped id (since ++ submissions events) (Trace.run (step codecs) s events).tables := by
  induction events generalizing s since with
  | nil => simpa [submissions] using h
  | cons e events ih =>
    obtain ⟨hfirst, hrest⟩ := ho
    have hnext : Stopped id (since ++ e.op.submission.toList) (step codecs s e).tables := by
      rcases step_cases codecs s e with heq | hcommits
      · exact heq ▸ h.mono (subset_append_left ..)
      · exact h.exec hline hcommits hfirst
    have hsubmissions : submissions (e :: events) =
        e.op.submission.toList ++ submissions events := by
      cases hop : e.op.submission <;> simp [submissions, hop]
    rw [hsubmissions, ← append_assoc]
    exact ih (hfenced.step codecs e) (hline.step hfenced hfirst) hnext hrest

/-- **Successors and stops.** In every orderly run, a committed submission that finds a live run leaves
its run waiting alone for the generation, or promotes it at once and leaves nobody waiting; and after a
committed stop nobody waits, and whenever the stream is not stopped its current run was submitted
later. -/
theorem successors_of_orderly (codecs : Codecs) (pipelines : String → Option Pipeline)
    (before : List Event) (e : Event) (later : List Event) (t : Tables)
    (ho : Trace.Along (step codecs) Orderly (.fresh pipelines) (before ++ e :: later))
    (hcommits : (Trace.run (step codecs) (.fresh pipelines) before).Commits codecs e t) :
    let s := Trace.run (step codecs) (.fresh pipelines) before
    (∀ run request d stream, e.op = .submit run request (some d) →
      Queues s.tables request d stream → Queued t stream run) ∧
    ∀ change, e.op = .setDesired change → change.desired = .stopped →
      (∀ r ∈ t.runs, ¬r.Waits change.request.tenant change.request.stream) ∧
      ∀ u ∈ (Trace.run (step codecs) s (e :: later)).tables.streams,
        u.id = change.request.stream.id → u.desiredState ≠ .stopped →
          ∃ run ∈ submissions later, u.currentRunID = some run := by
  intro s
  obtain ⟨hbefore, he, hlater⟩ := Trace.along_append.1 ho
  obtain ⟨hfenced, hline⟩ := inLine_run codecs pipelines hbefore
  have hexec : exec codecs s.tables (s.reading e) e.op = .ok t := hcommits
  unfold Orderly at he
  refine ⟨fun run request d stream hop hq => ?_, fun change hop hdesired => ?_⟩
  · rw [hop] at hexec he
    rcases submit_cases hline.placed.nodup hexec with ⟨stream', t₁, hq', hw, hqueue⟩ | ⟨hnot, -⟩
    · obtain rfl := Option.mem_unique hq.2.1 hq'.2.1
      exact (hline.queues he hq hw hqueue).2
    · exact absurd hq (hnot stream)
  · have hset : setDesiredState s.tables change (s.reading e).stamp = .ok t := by
      rw [hop] at hexec
      exact hexec
    obtain ⟨hnone, hstopped⟩ := hline.stop hdesired hset
    refine ⟨hnone, fun u hu hid hstate => ?_⟩
    have htables : (step codecs s e).tables = t := by rw [step_of_commits hcommits]
    rw [← htables] at hstopped
    have hrun := stopped_run (hfenced.step codecs e) (hline.step hfenced he) hstopped hlater
    exact (hrun.current u hu hid).2.resolve_left hstate

/-! ### A stop that is undone -/

instance (t : Tables) (request : RunRequest) (d : DesiredStream) (stream : ReplicationStream) :
    Decidable (Queues t request d stream) :=
  inferInstanceAs (Decidable (_ ∧ _ ∧ _ ∧ _))

instance (t : Tables) (began : ℕ) (op : Op) : Decidable (op.Orderly t began) := by
  cases op with
  | submit run request desired =>
    cases desired with
    | none => exact inferInstanceAs (Decidable True)
    | some d => exact inferInstanceAs (Decidable (_ ∧ _))
  | schedule run request => exact inferInstanceAs (Decidable (_ = _))
  | resolve | reconcile | activate | setDesired | start | claim | renew | yield | finish | retire
  | commit => exact inferInstanceAs (Decidable True)

namespace Demo

def noCodecs : Codecs :=
  ⟨fun _ _ => .error (.other "unknown codec"), fun _ => .ok (), fun _ _ _ => .ok (), fun _ => []⟩

def pipelines (id : String) : Option Pipeline := if id = "orders" then some ⟨"acme", false⟩ else none

def request : RunRequest :=
  { RunRequest.zero with
    tenant := "acme", pipelineID := "orders", pipelineVersionID := "v1", checkpointRoute := "wal",
    resources := ["public.orders"], sourceConnectionID := "pg", sinkConnectionID := "lake",
    options := { RunRequest.zero.options with execution := .continuous } }

def desired : DesiredStream := ⟨"stream", "acme", "orders", "wal", "pg", "lake", "slot", "fp", "v1"⟩

/-- Submits a continuous run. -/
def submit (run : RunID) (began : ℕ) : Event := ⟨.submit run request (some desired), began, 1, 1⟩

/-- A run is submitted and an attempt of it starts. -/
def live : List Event :=
  [submit "r1" 1,
    ⟨.start ⟨"acme", ⟨"stream", 1⟩, "r1", "x1", "v1", "wal", "d1", 1, 1000⟩, 3, 1, 1⟩]

/-- Asks the stream to stop. -/
def stop (revision : ℕ) : Event :=
  ⟨.setDesired ⟨⟨"acme", ⟨"stream", 1⟩⟩, revision, .stopped⟩, 20, 1, 1⟩

/-- The attempt ends. -/
def drain : Event := ⟨.finish ⟨"acme", ⟨"r1", "x1", "stream", 1, 1⟩⟩ .clean "", 30, 1, 1⟩

/-- The runs that wait for the generation. -/
def waiters (s : System) : List RunID :=
  (s.tables.runs.filter fun r => r.Waits "acme" ⟨"stream", 1⟩).map fun r => r.state.run

end Demo

open Demo in
/-- After two submissions behind a live run both wait; a stop withdraws the newer one only, and when the
live run has drained the older one is promoted. -/
theorem stop_undone :
    waiters (Trace.run (step noCodecs) (.fresh Demo.pipelines)
      (live ++ [submit "r2" 5, submit "r3" 6])) = ["r2", "r3"] ∧
    waiters (Trace.run (step noCodecs) (.fresh Demo.pipelines)
      (live ++ [submit "r2" 5, submit "r3" 6, stop 3])) = ["r2"] ∧
    (Trace.run (step noCodecs) (.fresh Demo.pipelines)
      (live ++ [submit "r2" 5, submit "r3" 6, stop 3, drain])).tables.streams.map
        (fun s => (s.currentRunID, s.desiredState)) = [(some "r2", .enabled)] := by
  decide +kernel

open Demo in
theorem successors_of_orderly_stop :
    Trace.Along (step noCodecs) Orderly (.fresh Demo.pipelines)
        (live ++ [submit "r2" 5] ++ stop 2 :: [drain]) ∧
      ∀ u ∈ (Trace.run (step noCodecs) (.fresh Demo.pipelines)
          (live ++ [submit "r2" 5] ++ stop 2 :: [drain])).tables.streams,
        u.id = "stream" → u.desiredState = .stopped := by
  have ho : Trace.Along (step noCodecs) Orderly (.fresh Demo.pipelines)
      (live ++ [submit "r2" 5] ++ stop 2 :: [drain]) := by
    unfold Orderly
    decide +kernel
  refine ⟨ho, fun u hu hid => ?_⟩
  have hcommits := @commits_of_isOk noCodecs
    (Trace.run (step noCodecs) (.fresh Demo.pipelines) (live ++ [submit "r2" 5])) (stop 2)
    (by decide +kernel)
  have hstop := (successors_of_orderly noCodecs Demo.pipelines (live ++ [submit "r2" 5]) (stop 2)
    [drain] _ ho hcommits).2 _ rfl rfl
  by_contra hstate
  obtain ⟨run, hrun, -⟩ := hstop.2 u hu hid hstate
  exact absurd hrun nofun

end Filament.Streams
