import Filament.Stream.Succession

/-!
# Admitting a run

What a submission does before a run waits or runs: its stream is resolved, its row is written, and the
stream is activated for it if nothing is live there.

* `Writes` : the row of the run is there, and every other row is as it was;
* `Places` : streams that were free for the run have it as their current run;
* `Queues` : the submission finds a live run on the generation that it asks for.
-/

namespace Filament.Streams

open Except Table List

variable {codecs : Codecs} {t t' : Tables} {clock : Clock} {d : DesiredStream} {r : RunState}
  {stream s : ReplicationStream}

/-! ### The row of the run -/

/-- The identifiers of the runs. -/
def Tables.runIDs (t : Tables) : List RunID := t.runs.map fun r => r.state.run

theorem eq_of_runIDs (h : t.runIDs.Nodup) {a b : RunRow} (ha : a ∈ t.runs) (hb : b ∈ t.runs)
    (hrun : a.state.run = b.state.run) : a = b :=
  inj_on_of_nodup_map h ha hb hrun

/-- When the row of a submitted run was or will be created. -/
def submittedAt (t : Tables) (run : RunID) (tenant : TenantID) (began : ℕ) : ℕ :=
  match first (RunRow.ScheduledAs run tenant) t.runs with
  | some old => old.createdAt
  | none => began

/-- The row of `r` is written, where none was or a scheduled one. -/
structure Writes (t t' : Tables) (r : RunState) (createdAt : ℕ) : Prop where
  streams : t'.streams = t.streams
  nodup : t'.runIDs.Nodup
  row : ∃ ρ ∈ t'.runs, ρ.state.run = r.run ∧ ρ.state.tenant = r.tenant ∧ ρ.state.status = r.status ∧
    ρ.state.request = r.request ∧ ρ.createdAt = createdAt
  others : ∀ b : RunRow, b.state.run ≠ r.run → (b ∈ t'.runs ↔ b ∈ t.runs)
  free : ∀ old ∈ t.runs, old.state.run = r.run → old.state.status = .runScheduled

theorem writes_createRun (hnodup : t.runIDs.Nodup) {began : ℕ} (h : t.createRun r began = .ok t') :
    Writes t t' r (submittedAt t r.run r.tenant began) := by
  rcases createRun_cases h with ⟨hnew, rfl⟩ | ⟨⟨old, hold, hsched⟩, rfl⟩
  · have hnone : first (RunRow.ScheduledAs r.run r.tenant) t.runs = none :=
      first_eq_none.2 fun b hb hp => hnew b hb hp.1
    refine ⟨rfl, ?_, ⟨⟨r.upsert none, began, none⟩, by simp, rfl, rfl, rfl, rfl, ?_⟩, fun b hb => ?_,
      fun b hb hrun => absurd hrun (hnew b hb)⟩
    · unfold Tables.runIDs at hnodup ⊢
      rw [map_append]
      refine List.Nodup.append hnodup (nodup_singleton _) fun x hx hx' => ?_
      obtain ⟨b, hb, rfl⟩ := mem_map.1 hx
      exact hnew b hb (mem_singleton.1 hx')
    · rw [submittedAt, hnone]
    · have hne : b ≠ ⟨r.upsert none, began, none⟩ := fun heq => hb (heq ▸ rfl)
      simp [hne]
  · -- the only row with the identifier of the run is the scheduled one
    have hunique : ∀ b ∈ t.runs, b.state.run = r.run → b = old := fun b hb hrun =>
      eq_of_runIDs hnodup hb hold (hrun.trans hsched.1.symm)
    obtain ⟨found, hfound⟩ : ∃ x, first (RunRow.ScheduledAs r.run r.tenant) t.runs = some x := by
      cases hfirst : first (RunRow.ScheduledAs r.run r.tenant) t.runs with
      | none => exact absurd hsched (first_eq_none.1 hfirst old hold)
      | some x => exact ⟨x, rfl⟩
    obtain rfl := hunique found (first_eq_some hfound).1 (first_eq_some hfound).2.1
    refine ⟨rfl, ?_, ⟨RunRow.refresh r found, mem_update.2 ⟨found, hold, if_pos hsched⟩, rfl, rfl,
      rfl, rfl, ?_⟩, fun b hb => ?_, fun b hb hrun => hunique b hb hrun ▸ hsched.2.2⟩
    · refine (congrArg List.Nodup (map_update fun b _ hp => ?_)).mpr hnodup
      exact hp.1.symm
    · rw [submittedAt, hfound]
      rfl
    · rw [mem_update]
      constructor
      · rintro ⟨x, hx, rfl⟩
        split_ifs at hb ⊢ with hp
        · exact absurd rfl hb
        · exact hx
      · exact fun hmem => ⟨b, hmem, if_neg fun hp => hb hp.1⟩

/-! ### The current run -/

/-- Streams that were free have `run` as their current run, and others are as they were. -/
structure Places (run : RunID) (free : ReplicationStream → Prop) (t t' : Tables) : Prop where
  runs : t'.runs = t.runs
  keys : t'.streams.map ReplicationStream.key = t.streams.map ReplicationStream.key
  moves : ∀ s' ∈ t'.streams, ∃ s ∈ t.streams, s.key = s'.key ∧
    ((s'.currentRunID = s.currentRunID ∧ s'.desiredState = s.desiredState) ∨
      (free s ∧ s'.currentRunID = some run))

namespace Places

variable {run : RunID} {free p : ReplicationStream → Prop} {t'' : Tables}

theorem refl (t : Tables) : Places run free t t :=
  ⟨rfl, rfl, fun s hs => ⟨s, hs, rfl, .inl ⟨rfl, rfl⟩⟩⟩

theorem of_updateStreams [DecidablePred p] {f : ReplicationStream → ReplicationStream}
    (hkey : ∀ s, (f s).key = s.key) (hrun : ∀ s, (f s).currentRunID = some run)
    (hfree : ∀ s, p s → free s) :
    Places run free t (t.updateStreams p f).2 where
  runs := rfl
  keys := map_update fun s _ _ => hkey s
  moves s' hs' := by
    obtain ⟨s, hs, rfl⟩ := mem_update.1 hs'
    refine ⟨s, hs, ?_⟩
    split_ifs with hp
    · exact ⟨(hkey s).symm, .inr ⟨hfree s hp, hrun s⟩⟩
    · exact ⟨rfl, .inl ⟨rfl, rfl⟩⟩

theorem calm_trans (h : Calm t t') (hruns : t'.runs = t.runs)
    (h' : Places run (fun _ => True) t' t'') : Places run (fun _ => True) t t'' where
  runs := h'.runs.trans hruns
  keys := h'.keys.trans h.keys
  moves s'' hs'' := by
    obtain ⟨s', hs', hkey', hmoves⟩ := h'.moves s'' hs''
    obtain ⟨s, hs, hkey, hrun, hdesired⟩ := h.exists_stream hs'
    rw [hrun, hdesired] at hmoves
    exact ⟨s, hs, hkey.trans hkey', hmoves⟩

theorem congr (h : Places run free t t') (hruns : t''.runs = t'.runs)
    (hstreams : t''.streams = t'.streams) : Places run free t t'' where
  runs := hruns.trans h.runs
  keys := hstreams ▸ h.keys
  moves := hstreams ▸ h.moves

end Places

theorem foldl_activateStreamResource (id : String) (tenant : TenantID) (names : List String) :
    (names.foldl (fun t name => t.activateStreamResource id tenant name) t).runs = t.runs ∧
      (names.foldl (fun t name => t.activateStreamResource id tenant name) t).streams =
        t.streams := by
  induction names generalizing t with
  | nil => exact ⟨rfl, rfl⟩
  | cons name names ih =>
    obtain ⟨hruns, hstreams⟩ := @ih (t.activateStreamResource id tenant name)
    rw [foldl_cons, hruns, hstreams]
    unfold Tables.activateStreamResource
    split_ifs <;> exact ⟨rfl, rfl⟩

theorem places_initializeContinuousActivation (h : initializeContinuousActivation t r = .ok t') :
    Places r.run (fun _ => True) t t' := by
  simp only [initializeContinuousActivation, bind_eq_ok, ofOption_eq_ok, require_eq_ok,
    exists_const] at h
  obtain ⟨ref, -, -, stream, -, -, h⟩ := h
  split_ifs at h
  · simp only [bind_eq_ok, require_eq_ok, exists_const] at h
    obtain ⟨-, -, h⟩ := h
    cases h
    exact .calm_trans (calm_reviseStreamMembership ..) (runs_reviseStreamMembership ..)
      (.of_updateStreams (fun _ => rfl) (fun _ => rfl) fun _ _ => trivial)
  · cases h
    obtain ⟨hruns, hstreams⟩ := foldl_activateStreamResource ref.id r.tenant r.request.resources
    refine Places.congr ?_ hruns hstreams
    exact .of_updateStreams (fun _ => rfl) (fun _ => rfl) fun _ _ => trivial

/-- An admitted run is placed only on a stream that never had one. -/
theorem activateStream_cases {req : StreamStateRequest} {spec : RunSpec}
    (h : activateStream t req spec = .ok t') :
    t' = t ∨ ∃ stream, lockRuntime t req = .ok stream ∧
      t.getStreamExecution stream.id stream.tenantID = none ∧
      validateActivation t stream req spec = .ok () ∧
      Places spec.run (fun s => s.currentRunID = none) t t' := by
  simp only [activateStream, bind_eq_ok, require_eq_ok, exists_const] at h
  obtain ⟨stream, hlock, -, h⟩ := h
  split at h
  · simp only [bind_eq_ok, require_eq_ok, exists_const] at h
    exact .inl (Except.ok.inj h.2).symm
  case h_2 hnone =>
    simp only [bind_eq_ok] at h
    obtain ⟨_, hvalid, h⟩ := h
    cases h
    exact .inr ⟨stream, hlock, hnone, hvalid,
      .of_updateStreams (fun _ => rfl) (fun _ => rfl) fun _ hp => hp.2.2⟩

/-! ### Submissions -/

/-- The submission finds a live run on the generation `stream` that it asks for. -/
def Queues (t : Tables) (request : RunRequest) (d : DesiredStream) (stream : ReplicationStream) :
    Prop :=
  request.options.execution.normalize = .continuous ∧
    t.getActiveReplicationStream d.pipelineID d.route = some stream ∧
    stream.continuityFingerprint = d.continuityFingerprint ∧
    t.StreamHasLiveRun stream.id request.tenant

section

variable (h : resolveReplicationStream t d = .ok (stream, t'))
include h

/-- Only a generation that is kept can have a live run. -/
theorem resolve_of_live {tenant : TenantID} (hlive : t'.StreamHasLiveRun stream.id tenant) :
    t' = t ∧ t.getActiveReplicationStream d.pipelineID d.route = some stream ∧
      stream.continuityFingerprint = d.continuityFingerprint := by
  have hreplaced : ∀ current, replaceGeneration t d current = .ok (stream, t') → False := by
    intro current hr
    simp only [replaceGeneration, bind_eq_ok, pure_eq_ok_iff, Prod.mk.injEq] at hr
    obtain ⟨t₁, hcreate, rfl, rfl⟩ := hr
    unfold Tables.createReplicationStream at hcreate
    split_ifs at hcreate with hunique
    cases hcreate
    obtain ⟨s, hs, hid, -, r, -, hrun, -⟩ := hlive
    rcases mem_append.1 hs with hs | hs
    · exact hunique ⟨s, hs, .inl hid⟩
    · rw [mem_singleton.1 hs] at hrun
      cases hrun
  simp only [resolveReplicationStream, bind_eq_ok, require_eq_ok, exists_const] at h
  obtain ⟨-, -, h⟩ := h
  split at h
  · next current hactive =>
    split_ifs at h with hfingerprint
    · obtain ⟨rfl, rfl⟩ : current = stream ∧ t = t' := by simpa using h
      exact ⟨rfl, hactive, hfingerprint⟩
    · exact absurd h (hreplaced _)
  · exact absurd h (hreplaced _)

theorem resolve_of_active (hactive : t.getActiveReplicationStream d.pipelineID d.route = some s)
    (hfingerprint : s.continuityFingerprint = d.continuityFingerprint) : s = stream ∧ t = t' := by
  simp only [resolveReplicationStream, bind_eq_ok, require_eq_ok, exists_const, hactive,
    if_pos hfingerprint] at h
  simpa using h.2.2

end

/-- What a submission with a stream does: it queues behind a live run, or its run does not wait. -/
theorem submit_cases (hnodup : t.runIDs.Nodup) {run : RunID} {request : RunRequest}
    (h : createRun t (submitted run request) (some d) clock = .ok t') :
    (∃ stream t₁, Queues t request d stream ∧
      Writes t t₁ { submitted run request with
          status := .runScheduled, request := { request with replicationStream := some stream.ref } }
        (submittedAt t run request.tenant clock.began) ∧
      queueStreamSuccessor t₁ { submitted run request with
          status := .runScheduled, request := { request with replicationStream := some stream.ref } }
        clock.stamp = .ok t') ∨
    (∀ stream, ¬Queues t request d stream) ∧ ∃ t₁ t₂ ref createdAt, Resolves t t₁ ∧
      Writes t₁ t₂ { submitted run request with
        request := { request with replicationStream := ref } } createdAt ∧
      Places run (fun _ => True) t₂ t' := by
  simp only [createRun, bind_eq_ok, require_eq_ok, exists_const] at h
  obtain ⟨-, ⟨stream, t₁⟩, hresolve, t₂, hcreate, hadmit⟩ := h
  have hresolves := resolves_of_resolveReplicationStream hresolve
  have hnodup₁ : t₁.runIDs.Nodup := by
    cases hresolves with
    | kept | replaced => exact hnodup
  have hplain (hnot : ¬(request.options.execution.normalize = .continuous ∧
      t₁.StreamHasLiveRun stream.id request.tenant)) :
      admitted t₁ (submitted run request) stream = { submitted run request with
        request := { request with replicationStream := some stream.ref } } :=
    if_neg hnot
  by_cases hcontinuous : request.options.execution.normalize = .continuous
  · by_cases hlive : t₁.StreamHasLiveRun stream.id request.tenant
    · have hadmitted : admitted t₁ (submitted run request) stream = { submitted run request with
          status := .runScheduled, request := { request with replicationStream := some stream.ref } } :=
        if_pos ⟨hcontinuous, hlive⟩
      obtain ⟨rfl, hactive, hfingerprint⟩ := resolve_of_live hresolve hlive
      rw [hadmitted] at hcreate hadmit
      have hqueue := (if_pos hcontinuous).symm.trans hadmit
      refine .inl ⟨stream, t₂, ⟨hcontinuous, hactive, hfingerprint, hlive⟩,
        writes_createRun hnodup hcreate, ?_⟩
      exact (if_pos rfl).symm.trans hqueue
    · rw [hplain fun hboth => hlive hboth.2] at hcreate hadmit
      have hinit := (if_pos hcontinuous).symm.trans hadmit
      refine .inr ⟨fun s hq => ?_, t₁, t₂, _, _, hresolves, writes_createRun hnodup₁ hcreate, ?_⟩
      · obtain ⟨rfl, rfl⟩ := resolve_of_active hresolve hq.2.1 hq.2.2.1
        exact hlive hq.2.2.2
      · refine places_initializeContinuousActivation ((if_neg ?_).symm.trans hinit)
        simp [submitted, RunState.fresh]
  · rw [hplain fun hboth => hcontinuous hboth.1] at hcreate hadmit
    obtain rfl : t₂ = t' := Except.ok.inj ((if_neg hcontinuous).symm.trans hadmit)
    exact .inr ⟨fun s hq => hcontinuous hq.1, t₁, t₂, _, _, hresolves,
      writes_createRun hnodup₁ hcreate, .refl _⟩

end Filament.Streams
