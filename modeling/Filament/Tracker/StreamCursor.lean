import Filament.Tracker.Restart

/-!
# The cursor of a change-stream run

The batches of a change-stream read carry stream cursors, each with its position and its sequence
number.  The tracker folds them in the order in which their facts arrive, starting from the cursor an
earlier run has stored, and the completed run stores the result for the pipeline.

* `cursors`, `current`: the cursors a run brings for a resource, and what the tracker has of it;
* `current_step`, `current_run`: the accumulated cursor is the fold of `mergeStream`;
* `foldl_mergeStream_final`, `foldl_mergeStream_kept`: what the fold gives, in any order;
* `promoted_final_mark_iff`: when the stored cursor is the run's final mark.
-/

namespace Filament.Tracker

open Checkpoint List Option Nat

variable {unmarshal : String → Option (List String)} {tenant : TenantID} {run : RunID}
  {request : RunRequest} {r : RunState} {w : World} {x : String} {f : Fact} {seq : ℕ}
  {key : ResourceCheckpointKey} {base : Option CheckpointData} {d cp : CheckpointData}
  {ds : List CheckpointData} {lsn : String} {top : ℕ} {p q : String × ℕ}

/-! ### Folding stream cursors -/

theorem mergeStream_kept (hd : parseStream (some d) = some p) (hbase : parseStream base = some q)
    (hlt : p.2 < q.2) : mergeStream base d = base := by
  unfold mergeStream
  rw [hd, hbase]
  exact if_pos hlt

/-- Cases of a merge: the base is past the delta, or it is not. -/
theorem mergeStream_cases (hd : parseStream (some d) = some p) (base : Option CheckpointData) :
    (∃ q, parseStream base = some q ∧ p.2 < q.2 ∧ mergeStream base d = base) ∨
      mergeStream base d = some (newStreamDelta d.resourceName p.1 p.2) := by
  by_cases hkept : ∃ q, parseStream base = some q ∧ p.2 < q.2
  · obtain ⟨q, hbase, hlt⟩ := hkept
    exact .inl ⟨q, hbase, hlt, mergeStream_kept hd hbase hlt⟩
  · exact .inr (mergeStream_moved hd fun q hq => not_lt.1 fun hlt => hkept ⟨q, hq, hlt⟩)

theorem parseStream_newStreamDelta (hlsn : lsn ≠ "") (resource : String) :
    parseStream (some (newStreamDelta resource lsn seq)) = some (lsn, seq) := by
  simp [parseStream, newStreamDelta, hlsn]

theorem parseStream_of_cursor (hlsn : lsn ≠ "") (h : cp.cursor = (newStreamDelta x lsn top).cursor) :
    parseStream (some cp) = some (lsn, top) := by
  simp [parseStream, h, newStreamDelta, hlsn]

theorem position_ne_empty (h : parseStream base = some p) : p.1 ≠ "" := by
  cases base with
  | none => cases h
  | some cp =>
    simp only [parseStream] at h
    split_ifs at h with hempty
    cases h
    exact fun hlsn => hempty (.inl hlsn)

/-- A base with a higher sequence number than every delta is kept. -/
theorem foldl_mergeStream_kept (hbase : parseStream base = some q)
    (h : ∀ d ∈ ds, ∃ p, parseStream (some d) = some p ∧ p.2 < q.2) :
    ds.foldl mergeStream base = base := by
  induction ds with
  | nil => rfl
  | cons d ds ih =>
    obtain ⟨p, hd, hlt⟩ := h d (.head _)
    rw [foldl_cons, mergeStream_kept hd hbase hlt]
    exact ih fun d hd => h d (.tail _ hd)

/-- The deltas are those of one resource, and `(lsn, top)` is past every other of their positions. -/
def Greatest (x lsn : String) (top : ℕ) (ds : List CheckpointData) : Prop :=
  ∀ d ∈ ds, d.resourceName = x ∧
    ∃ p, parseStream (some d) = some p ∧ (p = (lsn, top) ∨ p.2 < top)

theorem Greatest.tail (h : Greatest x lsn top (d :: ds)) : Greatest x lsn top ds :=
  fun d hd => h d (.tail _ hd)

theorem foldl_mergeStream_reached (hlsn : lsn ≠ "") (h : Greatest x lsn top ds) :
    ds.foldl mergeStream (some (newStreamDelta x lsn top)) = some (newStreamDelta x lsn top) := by
  induction ds with
  | nil => rfl
  | cons d ds ih =>
    obtain ⟨hname, p, hd, rfl | hlt⟩ := h d (.head _)
    · rw [foldl_cons, mergeStream_moved hd, hname]
      · exact ih h.tail
      · rintro q hq
        rw [parseStream_newStreamDelta hlsn] at hq
        cases hq
        exact le_refl _
    · rw [foldl_cons, mergeStream_kept hd (parseStream_newStreamDelta hlsn x) hlt]
      exact ih h.tail

/-- From a base that is not past it, the fold ends at the greatest position, wherever it stands. -/
theorem foldl_mergeStream_final (h : Greatest x lsn top ds)
    (hmem : ∃ d ∈ ds, parseStream (some d) = some (lsn, top))
    (hle : ∀ q ∈ parseStream base, q.2 ≤ top) :
    ds.foldl mergeStream base = some (newStreamDelta x lsn top) := by
  induction ds generalizing base with
  | nil => simp at hmem
  | cons d ds ih =>
    obtain ⟨hname, p, hd, hp⟩ := h d (.head _)
    rw [foldl_cons]
    rcases hp with rfl | hlt
    · rw [mergeStream_moved hd hle, hname]
      exact foldl_mergeStream_reached (position_ne_empty hd) h.tail
    have hrest : ∃ d ∈ ds, parseStream (some d) = some (lsn, top) := by
      obtain ⟨d', hd', hfinal⟩ := hmem
      rcases mem_cons.1 hd' with rfl | hd'
      · rw [hd] at hfinal
        cases hfinal
        exact absurd hlt (lt_irrefl _)
      · exact ⟨d', hd', hfinal⟩
    refine ih h.tail hrest fun q hq => ?_
    rcases mergeStream_cases hd base with ⟨-, -, -, hmerge⟩ | hmerge
    · rw [hmerge] at hq
      exact hle q hq
    · rw [hmerge, parseStream_newStreamDelta (position_ne_empty hd)] at hq
      cases hq
      exact hlt.le

/-! ### The accumulated cursor of a run -/

/-- The cursor a step brings for the resource. -/
def Step.streamCursor (x : String) : Step → Option CheckpointData
  | .deliver ⟨some f, _⟩ _ => if f.env.resource = x then f.data.batchCursor else none
  | _ => none

/-- The cursors the steps bring for the resource, in the order of their facts. -/
def cursors (x : String) (as : List Step) : List CheckpointData :=
  as.filterMap (Step.streamCursor x)

/-- A step of a run that reads the resource as a change stream: every batch cursor is a stream cursor,
and no cursor is saved on its own. -/
def Streams (x : String) : Step → Prop
  | .deliver ⟨some f, _⟩ _ =>
    f.data.terminal = false ∧ (f.env.resource = x →
      (∀ d ∈ f.data.batchCursor, ∃ lsn seq, decodeDelta d = .stream lsn seq) ∧
        ∀ c, f.data ≠ .checkpointSaved c)
  | _ => True

variable (tenant run x) in
/-- What the tracker has of the resource: the accumulated cursor, or the stored one before that. -/
def current (w : World) : Option CheckpointData :=
  (w.mem.cp.lookup ⟨run, x⟩).getD (loadCheckpoint noFailure w.store tenant run x)

theorem not_promoted_of_parseStream (h : (parseStream (some cp)).isSome) :
    promoteIncrementalBackfill unmarshal (some cp) = none := by
  rw [eq_none_iff_forall_ne_some]
  intro promoted hpromoted
  obtain ⟨c, hc, hmode, -⟩ := promoteIncrementalBackfill_spec hpromoted
  cases hc
  simp [parseStream, hmode] at h

/-- The cursor is a stream cursor, if there is one. -/
def IsStream (cp : Option CheckpointData) : Prop :=
  ∀ c, cp = some c → (parseStream (some c)).isSome

theorem IsStream.mergeStream (h : IsStream base) (hd : (parseStream (some d)).isSome) :
    IsStream (mergeStream base d) := by
  obtain ⟨p, hp⟩ := isSome_iff_exists.1 hd
  rcases mergeStream_cases hp base with ⟨-, -, -, hmerge⟩ | hmerge
  · rw [hmerge]
    exact h
  · rw [hmerge]
    intro c hc
    rw [← hc, parseStream_newStreamDelta (position_ne_empty hp)]
    rfl

variable (tenant run x) in
/-- The tracker has nothing of the resource or a stream cursor. -/
structure Streaming (w : World) : Prop where
  isStream : IsStream (current tenant run x w)
  held : w.mem.cp.lookup ⟨run, x⟩ ≠ some none

theorem Streaming.resourceCursor {env : Envelope} (h : Streaming env.tenant env.run env.resource w) :
    resourceCursor noFailure env w = current env.tenant env.run env.resource w := by
  change ((w.mem.cp.lookup ⟨env.run, env.resource⟩).getD none).or _ = _
  unfold current
  match hlook : w.mem.cp.lookup ⟨env.run, env.resource⟩ with
  | none =>
    rw [hlook]
    rfl
  | some none => exact absurd hlook h.held
  | some (some cp) =>
    rw [hlook]
    rfl

/-- A resource that completes hands its stream cursor on; the pipeline's progress is not written
before the run completes. -/
theorem completed_frame {env : Envelope} {records bytes : ℤ} {s : Store} {n : Module}
    (hrow : Row s env.tenant env.run r) (hnamed : Named r.request env.run n)
    (hcross : r.request.crossRun env.resource = true)
    (h : Streaming env.tenant env.run env.resource ⟨s, n⟩) :
    (handOn unmarshal ⟨env, .resourceCompleted records bytes⟩ s n).2.cp = n.cp ∧
      persistHanded (handOn unmarshal ⟨env, .resourceCompleted records bytes⟩ s n).2 s env
        (handOn unmarshal ⟨env, .resourceCompleted records bytes⟩ s n).1 = s := by
  have hcursor := h.resourceCursor
  cases hcur : current env.tenant env.run env.resource ⟨s, n⟩ with
  | none =>
    rw [hcur] at hcursor
    simp only [handOn, hcursor]
    exact ⟨rfl, rfl⟩
  | some cp =>
    rw [hcur] at hcursor
    have hstream := h.isStream cp hcur
    obtain ⟨p, hp⟩ := isSome_iff_exists.1 hstream
    simp only [handOn, hcursor, not_promoted_of_parseStream hstream]
    refine ⟨trivial, persistLogged_of_not_replay hrow ?_ (requiresReplay_of_parseStream hp)⟩
    rw [resourceCursor_name hnamed rfl hcursor]
    exact hcross

/-- A fact that brings no cursor of the resource leaves what the tracker has of it. -/
theorem current_quiet (harrives : Arrives tenant run request w f seq)
    (hstreams : Streams x (.deliver ⟨some f, seq⟩ noFailure))
    (hnone : f.env.resource = x → f.data.batchCursor = none)
    (hcurrent : Streaming tenant run x w) :
    current tenant run x (onFact unmarshal noFailure ⟨some f, seq⟩ w).1 = current tenant run x w ∧
      (onFact unmarshal noFailure ⟨some f, seq⟩ w).1.mem.cp.lookup ⟨run, x⟩ =
        w.mem.cp.lookup ⟨run, x⟩ := by
  by_cases hnotify : f.data = .notifierAttempted
  · simp only [onFact, hnotify, if_true]
    exact ⟨trivial, trivial⟩
  obtain ⟨s₂, n, r, r', hrow, hrow', hr, hr', hrunScope, hpipeline, hcp, heq⟩ :=
    harrives.folds unmarshal hstreams.1 hnotify
  have hload : loadCheckpoint noFailure s₂ tenant run x =
      loadCheckpoint noFailure w.store tenant run x :=
    loadCheckpoint_congr hrow hrow' (hr'.trans hr.symm) (congrFun hrunScope _) hpipeline
  have hnamed : Named request run n :=
    fun y c hlook => harrives.steady.named y c (by rw [← hcp]; exact hlook)
  have hf := harrives.ofRun
  -- the memory and the stored cursor of the resource are as before
  obtain ⟨hlook, hkept⟩ : (handOn unmarshal f s₂ n).2.cp.lookup ⟨run, x⟩ = n.cp.lookup ⟨run, x⟩ ∧
      (persistHanded (handOn unmarshal f s₂ n).2 s₂ f.env (handOn unmarshal f s₂ n).1).checkpoints
        (run, x) = s₂.checkpoints (run, x) := by
    by_cases htouch : Touches f x
    · obtain ⟨env, data⟩ := f
      obtain ⟨hmoves, rfl⟩ := htouch
      obtain rfl : env.run = run := hf.run
      obtain rfl : env.tenant = tenant := harrives.ofTenant
      cases data with
      | batchWritten records bytes c policy =>
        obtain rfl : c = none := hnone rfl
        cases hmoves
      | checkpointSaved c => exact absurd rfl ((hstreams.2 rfl).2 c)
      | resourceCompleted records bytes =>
        have hstreaming : Streaming env.tenant env.run env.resource ⟨s₂, n⟩ := by
          refine ⟨?_, by rw [hcp]; exact hcurrent.held⟩
          unfold current
          rw [hcp, hload]
          exact hcurrent.isStream
        subst hr'
        obtain ⟨hmem, hstore⟩ := @completed_frame unmarshal r' env records bytes s₂ n hrow' hnamed
          (hf.crossRun rfl) hstreaming
        rw [hmem, hstore]
        exact ⟨rfl, rfl⟩
      | _ => cases hmoves
    · exact untouched_frame hnamed hf htouch
  have hrow₃ := hrow'.of_runs (@persistHanded_frame s₂ f.env (handOn unmarshal f s₂ n).2
    (handOn unmarshal f s₂ n).1).1
  rw [heq]
  refine ⟨?_, hlook.trans (by rw [hcp])⟩
  unfold current
  rw [hlook, hcp, loadCheckpoint_congr hrow' hrow₃ rfl hkept persistHanded_frame.2, hload]

/-- A batch of the resource merges its cursor into what the tracker has of it. -/
theorem current_batch {pos : ℕ} {merged : CheckpointData}
    (h : Arrives tenant run request w f seq) (hd : f.data.batchCursor = some d)
    (hstream : decodeDelta d = .stream lsn pos)
    (hmerged : mergeStream (current tenant run f.env.resource w) d = some merged) :
    (onFact unmarshal noFailure ⟨some f, seq⟩ w).1.mem.cp.lookup ⟨run, f.env.resource⟩ =
      some (some merged) := by
  refine batch_lookup h hd ?_
  obtain rfl : f.env.tenant = tenant := h.ofTenant
  obtain rfl : f.env.run = run := h.ofRun.run
  unfold mergeDelta
  rw [accumulated_fst, hstream]
  exact hmerged

/-- **One fact of the run moves what the tracker has of the resource by the cursor it brings.** -/
theorem current_step {a : Step} (hsteady : Steady tenant run request w)
    (hbounded : request.options.execution.normalize ≠ .continuous)
    (ha : Follows tenant run request w a) (hstreams : Streams x a)
    (hcurrent : Streaming tenant run x w) :
    current tenant run x (step unmarshal w a) =
        (cursors x [a]).foldl mergeStream (current tenant run x w) ∧
      Streaming tenant run x (step unmarshal w a) ∧
      (w.mem.cp.lookup ⟨run, x⟩ ≠ none ∨ cursors x [a] ≠ [] →
        (step unmarshal w a).mem.cp.lookup ⟨run, x⟩ ≠ none) := by
  obtain ⟨f, seq, rfl, harrives⟩ := ha.cases hbounded hsteady
  cases hcursor : Step.streamCursor x (.deliver ⟨some f, seq⟩ noFailure) with
  | none =>
    have hnone : f.env.resource = x → f.data.batchCursor = none := by
      rintro rfl
      simpa [Step.streamCursor] using hcursor
    obtain ⟨hsame, hlook⟩ := @current_quiet unmarshal _ _ _ _ _ _ _ harrives hstreams hnone hcurrent
    have hempty : cursors x [.deliver ⟨some f, seq⟩ noFailure] = [] := by
      simp [cursors, hcursor]
    rw [hempty]
    refine ⟨hsame, ⟨?_, ?_⟩, ?_⟩
    · rw [show step unmarshal w (.deliver ⟨some f, seq⟩ noFailure) =
        (onFact unmarshal noFailure ⟨some f, seq⟩ w).1 from rfl, hsame]
      exact hcurrent.isStream
    · exact fun h => hcurrent.held (hlook.symm.trans h)
    · rintro (h | h)
      · exact fun heq => h (hlook.symm.trans heq)
      · exact absurd rfl h
  | some d =>
    have hone : cursors x [.deliver ⟨some f, seq⟩ noFailure] = [d] := by
      simp [cursors, hcursor]
    simp only [Step.streamCursor] at hcursor
    split_ifs at hcursor with hx
    subst hx
    obtain ⟨lsn, pos, hstream⟩ := (hstreams.2 rfl).1 d hcursor
    have hparse := parseStream_of_decodeDelta hstream
    obtain ⟨merged, hmerged⟩ : ∃ merged,
        mergeStream (current tenant run f.env.resource w) d = some merged := by
      rcases mergeStream_cases hparse (current tenant run f.env.resource w) with
        ⟨q, hbase, -, hmerge⟩ | hmerge
      · rw [hmerge]
        cases hcur : current tenant run f.env.resource w with
        | none =>
          rw [hcur] at hbase
          cases hbase
        | some cp => exact ⟨cp, rfl⟩
      · exact ⟨_, hmerge⟩
    have hlook := @current_batch unmarshal _ _ _ _ _ _ _ _ _ _ harrives hcursor hstream hmerged
    have hcur : current tenant run f.env.resource
        (step unmarshal w (.deliver ⟨some f, seq⟩ noFailure)) = some merged := by
      unfold current
      rw [show (step unmarshal w (.deliver ⟨some f, seq⟩ noFailure)).mem.cp.lookup _ = _ from hlook]
      rfl
    refine ⟨?_, ⟨?_, ?_⟩, fun _ => ?_⟩
    · rw [hone, hcur]
      exact hmerged.symm
    · rw [hcur, ← hmerged]
      exact hcurrent.isStream.mergeStream (by rw [hparse]; rfl)
    · exact fun h => nomatch hlook.symm.trans h
    · exact fun h => nomatch hlook.symm.trans h

/-- **What the tracker has of the resource after the facts of a run is the fold of their cursors.** -/
theorem current_run {as : List Step} (hbounded : request.options.execution.normalize ≠ .continuous)
    (hsteady : Steady tenant run request w)
    (h : Trace.Along (step unmarshal) (Follows tenant run request) w as)
    (hstreams : ∀ a ∈ as, Streams x a) (hcurrent : Streaming tenant run x w) :
    current tenant run x (Trace.run (step unmarshal) w as) =
        (cursors x as).foldl mergeStream (current tenant run x w) ∧
      (w.mem.cp.lookup ⟨run, x⟩ ≠ none ∨ cursors x as ≠ [] →
        (Trace.run (step unmarshal) w as).mem.cp.lookup ⟨run, x⟩ ≠ none) := by
  induction as generalizing w with
  | nil => exact ⟨rfl, fun h => h.resolve_right fun h => h rfl⟩
  | cons a as ih =>
    obtain ⟨hstep, hnext, hheld⟩ := @current_step unmarshal _ _ _ _ _ _ hsteady hbounded h.1
      (hstreams a (.head _)) hcurrent
    have hsteady' : Steady tenant run request (step unmarshal w a) := by
      obtain ⟨f, seq, rfl, harrives⟩ := h.1.cases hbounded hsteady
      exact harrives.deliver
    obtain ⟨hrun, hlook⟩ := ih hsteady' h.2 (fun b hb => hstreams b (.tail _ hb)) hnext
    have hsplit : cursors x (a :: as) = cursors x [a] ++ cursors x as := by
      rw [← singleton_append]
      exact filterMap_append
    rw [Trace.run_cons, hsplit, foldl_append, ← hstep]
    refine ⟨hrun, fun h => hlook ?_⟩
    by_cases hrest : cursors x as = []
    · rw [hrest, append_nil] at h
      exact .inl (hheld h)
    · exact .inr hrest

/-! ### The cursor of a completed run -/

theorem steady_of_unseen (hholds : Holds tenant run w r)
    (hunseen : ∀ y, w.mem.cp.lookup ⟨run, y⟩ = none) : Steady tenant run r.request w := by
  refine ⟨⟨AList.ext ?_, fun _ => rfl⟩, ⟨r, rfl, hholds, hholds⟩, fun y c hlook => ?_⟩
  · exact (filter_eq_self.2 fun _ _ => rfl).symm
  · rw [hunseen y] at hlook
    cases hlook

/-- A completed run stores the stream cursor the tracker has of the resource. -/
theorem completed_stores_current {ended : Fact} {records bytes : ℤ}
    (h : Arrives tenant run request w ended seq) (hended : ended.data = .runCompleted records bytes)
    (hkey : request.resourceCheckpointKey x = some key) (howns : Owns tenant key w.store)
    (hcurrent : current tenant run x w = some cp) (hstream : (parseStream (some cp)).isSome)
    (hlook : w.mem.cp.lookup ⟨run, x⟩ ≠ none) :
    (onFact unmarshal noFailure ⟨some ended, seq⟩ w).1.store.resourceCheckpoints key.row =
      some ⟨tenant, run, cp.cursor⟩ := by
  have hholds : HoldsCursor unmarshal run x cp w.mem := by
    refine ⟨cp, .inl rfl, ?_⟩
    obtain ⟨acc, hacc⟩ := ne_none_iff_exists'.1 hlook
    unfold current at hcurrent
    rw [hacc] at hcurrent
    rw [hacc]
    exact congrArg some hcurrent
  obtain ⟨final, hfinal, hstored⟩ := @completed_storesCursor unmarshal _ _ _ ended seq _ _ w x
    records bytes h hended hkey howns hholds
  rw [not_promoted_of_parseStream hstream] at hfinal
  obtain rfl := hfinal.resolve_right nofun
  exact hstored

/-- **A completed change-stream run stores its final mark, unless it started from a cursor with a higher
sequence number.**  The facts of the run come in any order, among those of other resources, and the
world before the run is any one in which the tracker has no cursor of the run yet. -/
theorem promoted_final_mark_iff {body : List Step} {ended : Fact} {records bytes : ℤ}
    (hholds : Holds tenant run w r) (hunseen : ∀ y, w.mem.cp.lookup ⟨run, y⟩ = none)
    (hbounded : r.request.options.execution.normalize ≠ .continuous)
    (hkey : r.request.resourceCheckpointKey x = some key) (howns : Owns tenant key w.store)
    (hstored : IsStream (loadCheckpoint noFailure w.store tenant run x))
    (hended : ended.data = .runCompleted records bytes)
    (hof : ∀ a ∈ body ++ [.deliver ⟨some ended, seq⟩ noFailure], OfRun tenant run r.request a)
    (hdelivers : ∀ a ∈ body, a.delivers = true)
    (hfresh : Trace.Along (step unmarshal) (Fresh tenant run) w
      (body ++ [.deliver ⟨some ended, seq⟩ noFailure]))
    (hstreams : ∀ a ∈ body, Streams x a)
    (hfinal : ∃ d ∈ cursors x body, parseStream (some d) = some (lsn, top))
    (hgreatest : Greatest x lsn top (cursors x body)) :
    (Trace.run (step unmarshal) w
        (body ++ [.deliver ⟨some ended, seq⟩ noFailure])).store.resourceCheckpoints key.row =
        some ⟨tenant, run, (newStreamDelta x lsn top).cursor⟩ ↔
      ∀ q ∈ parseStream (loadCheckpoint noFailure w.store tenant run x), q.2 ≤ top := by
  have hall : Trace.Along (step unmarshal) (Follows tenant run r.request) w
      (body ++ [.deliver ⟨some ended, seq⟩ noFailure]) := by
    refine follows_along hof (fun a ha => ?_) hfresh
    rcases mem_append.1 ha with ha | ha
    · exact hdelivers a ha
    · rw [mem_singleton.1 ha]
      rfl
  obtain ⟨hbody, hend, -⟩ := Trace.along_append.1 hall
  have hsteady := steady_of_unseen hholds hunseen
  have hbase : current tenant run x w = loadCheckpoint noFailure w.store tenant run x := by
    unfold current
    rw [hunseen x]
    rfl
  have hstreaming : Streaming tenant run x w :=
    ⟨by rw [hbase]; exact hstored, by rw [hunseen x]; nofun⟩
  obtain ⟨hcurrent, hheld⟩ := current_run hbounded hsteady hbody hstreams hstreaming
  rw [hbase] at hcurrent
  have hlook := hheld (.inr fun hnil => by
    obtain ⟨d, hd, -⟩ := hfinal
    rw [hnil] at hd
    cases hd)
  obtain ⟨hsteady', howns'⟩ := steady_run hbounded hsteady howns hbody
  obtain ⟨_, _, heq, harrives⟩ := hend.cases hbounded hsteady'
  cases heq
  have hlsn : lsn ≠ "" := by
    obtain ⟨d, -, hd⟩ := hfinal
    exact position_ne_empty hd
  have hstores : ∀ cp, (parseStream (some cp)).isSome →
      current tenant run x (Trace.run (step unmarshal) w body) = some cp →
      (Trace.run (step unmarshal) w
        (body ++ [.deliver ⟨some ended, seq⟩ noFailure])).store.resourceCheckpoints key.row =
        some ⟨tenant, run, cp.cursor⟩ := by
    intro cp hstream hcp
    rw [Trace.run_append]
    exact completed_stores_current harrives hended hkey howns' hcp hstream hlook
  constructor
  · intro hpromoted q hq
    -- a base past every delta is what the run stores, and it is not the final mark
    by_contra hpast
    obtain ⟨cp, hcp⟩ : ∃ cp, loadCheckpoint noFailure w.store tenant run x = some cp := by
      cases hload : loadCheckpoint noFailure w.store tenant run x with
      | none =>
        rw [hload] at hq
        cases hq
      | some cp => exact ⟨cp, rfl⟩
    rw [hcp] at hq hcurrent
    have hkept : (cursors x body).foldl mergeStream (some cp) = some cp := by
      refine foldl_mergeStream_kept hq fun d hd => ?_
      obtain ⟨-, p, hp, rfl | hlt⟩ := hgreatest d hd
      · exact ⟨_, hp, not_le.1 hpast⟩
      · exact ⟨p, hp, hlt.trans (not_le.1 hpast)⟩
    have hbase' := hstores cp (by rw [hq]; rfl) (hcurrent.trans hkept)
    rw [hpromoted] at hbase'
    have hcursor : cp.cursor = (newStreamDelta x lsn top).cursor := by
      injection hbase' with h
      injection h with _ _ h
      exact h.symm
    rw [parseStream_of_cursor hlsn hcursor] at hq
    cases hq
    exact hpast (le_refl _)
  · intro hle
    have hreached := foldl_mergeStream_final hgreatest hfinal hle
    exact hstores _ (by rw [parseStream_newStreamDelta hlsn]; rfl) (hcurrent.trans hreached)

/-! ### A second run of a change stream -/

/-- The store of the second run, with the cursor of an earlier one. -/
def storeAfter (position : ℕ) : Store :=
  { syncStore with
    resourceCheckpoints := Function.update (fun _ => none) ordersKey.row
      (some ⟨"acme", "earlier", (newStreamDelta "orders" "0/08" position).cursor⟩) }

/-- Two batches whose facts come in the other order. -/
def secondRun : List Step := [changesWritten 1 "0/20" 9, changesWritten 2 "0/10" 5]

theorem secondRun_streams : ∀ a ∈ secondRun, Streams "orders" a := by
  refine forall_mem_cons.2 ⟨?_, forall_mem_singleton.2 ?_⟩
  · refine ⟨rfl, fun _ => ⟨fun d hd => ?_, nofun⟩⟩
    cases hd
    exact ⟨"0/20", 9, rfl⟩
  · refine ⟨rfl, fun _ => ⟨fun d hd => ?_, nofun⟩⟩
    cases hd
    exact ⟨"0/10", 5, rfl⟩

theorem secondRun_greatest : Greatest "orders" "0/20" 9 (cursors "orders" secondRun) := by
  refine forall_mem_cons.2 ⟨⟨rfl, _, rfl, .inl rfl⟩, forall_mem_singleton.2 ?_⟩
  exact ⟨rfl, _, rfl, .inr (by decide)⟩

/-- After an earlier run with a lower number, the second run stores its final mark. -/
theorem second_run_stores_final_mark :
    (Trace.run (step fun _ => none) ⟨storeAfter 7, .new⟩
      (secondRun ++ [.deliver ⟨some (syncCompleted 3), 3⟩ noFailure])).store.resourceCheckpoints
        ordersKey.row =
      some ⟨"acme", "sync", (newStreamDelta "orders" "0/20" 9).cursor⟩ := by
  have hrow : Row (storeAfter 7) "acme" "sync" syncRun := ⟨rfl, rfl, rfl⟩
  refine (@promoted_final_mark_iff (fun _ => none) "acme" "sync" syncRun ⟨storeAfter 7, .new⟩
    "orders" 3 ordersKey "0/20" 9 secondRun (syncCompleted 3) 2 20 ⟨hrow, nofun⟩ (fun _ => rfl)
    nofun rfl ?_ ?_ rfl ?_ ?_ ?_ secondRun_streams ⟨_, mem_cons_self, rfl⟩
    secondRun_greatest).2 ?_
  · intro old hold
    cases hold
    rfl
  · intro c hc
    cases hc
    rfl
  · exact forall_mem_cons.2 ⟨changesWritten_ofRun 1 "0/20" 9, forall_mem_cons.2
      ⟨changesWritten_ofRun 2 "0/10" 5, forall_mem_singleton.2 (syncCompleted_ofRun 3)⟩⟩
  · exact forall_mem_cons.2 ⟨rfl, forall_mem_singleton.2 rfl⟩
  · refine ⟨nofun, fun last hlast => ?_, fun last hlast => ?_, trivial⟩
    · cases hlast
      decide
    · cases hlast
      decide
  · intro q hq
    cases hq
    decide

/-- After an earlier run with higher numbers, every mark of the second run is ignored: the completed run
stores the cursor it started from. -/
theorem second_run_keeps_earlier_mark :
    Greatest "orders" "0/20" 9 (cursors "orders" secondRun) ∧
    (Trace.run (step fun _ => none) ⟨storeAfter 1001, .new⟩
      (secondRun ++ [.deliver ⟨some (syncCompleted 3), 3⟩ noFailure])).store.resourceCheckpoints
        ordersKey.row =
      some ⟨"acme", "sync", (newStreamDelta "orders" "0/08" 1001).cursor⟩ :=
  ⟨secondRun_greatest, rfl⟩

end Filament.Tracker
