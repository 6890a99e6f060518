import Mathlib.Data.Fintype.EquivFin
import Filament.Lib.Trace
import Filament.Tracker.Cursors

/-!
# The commit gate

Cursors shared across runs may move only when the sink has committed: at a completed run, or at a
pause the worker committed. The same holds for the run's own cursor of a resource whose batches are
durable only after the commit, replayed attempt state excepted.

* `PipelineGated`, `RunGated` : what a step may do to the stored cursors;
* `Published` : a `checkpoint.saved` fact has no cursor;
* `Seeded` : a full read has no backfill plan stored;
* `commit_gated` : along every run of the facts that are published, restarts and store failures, every
  step is gated.
-/

namespace Filament.Tracker

open Checkpoint Function List

variable (unmarshal : String → Option (List String)) {fails : Call → Bool} (run : RunID)
  (resource : String) {s s' s'' : Store} {w : World}

/-- The facts that prove a commit of the sink. -/
def Data.promotes : Data → Bool
  | .runCompleted _ _ => true
  | .runPaused committed => committed
  | _ => false

/-- The step delivers the fact. -/
def Step.Delivers (a : Step) (f : Fact) : Prop := ∃ seq fails, a = .deliver ⟨some f, seq⟩ fails

/-- The run-scoped cursor of the resource is the same, or replayed attempt state. -/
def Kept (s s' : Store) : Prop :=
  s'.checkpoints (run, resource) = s.checkpoints (run, resource) ∨
    ∃ tenant cursor, s'.checkpoints (run, resource) = some (tenant, cursor) ∧
      requiresReplay (some ⟨resource, cursor⟩) = true

/-- Pipeline-scoped cursors change only when some run commits. -/
def PipelineGated (w : World) (a : Step) : Prop :=
  (∀ f, a.Delivers f → f.data.promotes = false) →
    (step unmarshal w a).store.resourceCheckpoints = w.store.resourceCheckpoints

/-- The run-scoped cursor of the resource changes only when its run commits, replayed attempt state
excepted. -/
def RunGated (w : World) (a : Step) : Prop :=
  (∀ f, a.Delivers f → f.env.run = run → f.data.promotes = false) →
    Kept run resource w.store (step unmarshal w a).store

/-- The resource's batches carry the after-commit policy. A batch is the resource's when it is
reported for it or its cursor names it; the two agree. -/
def AfterCommit (f : Fact) : Prop :=
  f.env.run = run → ∀ records bytes cp policy, f.data = .batchWritten records bytes cp policy →
    (f.env.resource = resource → policy = .checkpointAfterCommit) ∧
      ∀ d ∈ cp, d.resourceName = resource → f.env.resource = resource

/-- The tracker holds the resource's after-commit boundary. -/
def World.Bounded (w : World) (run : RunID) (resource : String) : Prop :=
  w.mem.boundary ⟨run, resource⟩ = .checkpointAfterCommit

/-- A `checkpoint.saved` fact is published for a certified epoch, and without a cursor. -/
def Published (f : Fact) : Prop := ∀ cp, f.data = .checkpointSaved cp → cp = none

/-- The stored cursor of the resource is no backfill plan, unless its progress is shared across runs:
only an incremental read is planned as a backfill, and its plan goes to the pipeline. -/
def Seeded (s : Store) : Prop :=
  CrossRun s run resource ∨
    ∀ tenant cursor, s.checkpoints (run, resource) = some (tenant, cursor) → ¬Backfill cursor

theorem Kept.refl (s : Store) : Kept run resource s s := .inl rfl

variable {run resource} in
theorem Kept.trans (h : Kept run resource s s') (h' : Kept run resource s' s'') :
    Kept run resource s s'' := by
  rcases h' with heq | hreplay
  · unfold Kept
    rw [heq]
    exact h
  · exact .inr hreplay

/-- What one delivery of a fact of run `owner` does to the store; `promote` says whether it proves a
commit. -/
structure Passed (owner : RunID) (promote : Bool) (s s' : Store) : Prop where
  pipeline : promote = false → s'.resourceCheckpoints = s.resourceCheckpoints
  kept : promote = false ∨ owner ≠ run → Kept run resource s s'
  crossRun : CrossRun s run resource → CrossRun s' run resource
  seeded : Seeded run resource s → Seeded run resource s'

variable {unmarshal run resource} {owner : RunID} {promote : Bool} {d : Data}

theorem Passed.refl (s : Store) : Passed run resource owner promote s s :=
  ⟨fun _ => rfl, fun _ => Kept.refl .., id, id⟩

theorem Passed.trans (h : Passed run resource owner promote s s')
    (h' : Passed run resource owner promote s' s'') : Passed run resource owner promote s s'' :=
  ⟨fun hp => (h'.pipeline hp).trans (h.pipeline hp), fun hp => (h.kept hp).trans (h'.kept hp),
    fun hc => h'.crossRun (h.crossRun hc), fun hs => h'.seeded (h.seeded hs)⟩

theorem seeded_of_same (hcps : s'.checkpoints (run, resource) = s.checkpoints (run, resource))
    (hcross : CrossRun s run resource → CrossRun s' run resource) (h : Seeded run resource s) :
    Seeded run resource s' := by
  refine h.imp hcross fun hplain tenant cursor hcursor => hplain tenant cursor ?_
  rw [← hcps]
  exact hcursor

theorem Passed.of_eq (hruns : s'.runs = s.runs) (hcps : s'.checkpoints = s.checkpoints)
    (hres : s'.resourceCheckpoints = s.resourceCheckpoints) :
    Passed run resource owner promote s s' := by
  have hcross : CrossRun s run resource → CrossRun s' run resource := by
    unfold CrossRun
    rw [hruns]
    exact id
  exact ⟨fun _ => hres, fun _ => .inl (by rw [hcps]), hcross, seeded_of_same (by rw [hcps]) hcross⟩

theorem passed_mutate {env : Envelope} (h : mutate fails env (update env d) s = .ok s') :
    Passed run resource owner promote s s' := by
  obtain ⟨row', rfl, hreq⟩ := mutate_kept h
  have hcross : CrossRun s run resource → CrossRun (s.setRun env.run row') run resource := by
    rintro ⟨row, hrow, hcross⟩
    by_cases hrun : run = env.run
    · subst hrun
      exact ⟨row', Store.setRun_runs_self .., by rw [hreq row hrow]; exact hcross⟩
    · exact ⟨row, (update_of_ne hrun ..).trans hrow, hcross⟩
  exact ⟨fun _ => rfl, fun _ => .inl rfl, hcross, seeded_of_same rfl hcross⟩

variable {tenant : TenantID} {cp : CheckpointData} {m : Module} {name : String}

theorem setCheckpoint_kept {cursor : Cursor}
    (h : owner = run → name = resource → requiresReplay (some ⟨resource, cursor⟩) = true) :
    Kept run resource s (s.setCheckpoint owner name tenant cursor) := by
  by_cases hkey : (run, resource) = (owner, name)
  · cases hkey
    exact .inr ⟨tenant, cursor, update_self .., h rfl rfl⟩
  · exact .inl (update_of_ne hkey ..)

theorem setCheckpoint_seeded {cursor : Cursor} (h : Seeded run resource s)
    (hplain : owner = run → name = resource → ¬Backfill cursor ∨ CrossRun s run resource) :
    Seeded run resource (s.setCheckpoint owner name tenant cursor) := by
  by_cases hkey : (run, resource) = (owner, name)
  · cases hkey
    rcases hplain rfl rfl with hplain | hcross
    · refine .inr fun tenant' cursor' hcursor => ?_
      obtain ⟨-, rfl⟩ : tenant = tenant' ∧ cursor = cursor' := by
        simpa [Store.setCheckpoint] using hcursor
      exact hplain
    · exact .inl hcross
  · exact seeded_of_same (update_of_ne hkey ..) id h

/-- A cursor that is persisted passes when, before a commit, a cursor of the resource finds its
boundary or is shared across runs; no backfill plan of a full read is persisted. -/
theorem passed_written (h : Written m tenant owner cp promote s s')
    (hgate : promote = false → owner = run → cp.resourceName = resource →
      requiresReplay (some cp) = false →
      m.boundary ⟨run, resource⟩ = .checkpointAfterCommit ∨ CrossRun s run resource)
    (hplain : owner = run → cp.resourceName = resource →
      ¬Backfill cp.cursor ∨ CrossRun s run resource) :
    Passed run resource owner promote s s' := by
  have hruns : CrossRun s run resource → CrossRun s' run resource := by
    unfold CrossRun
    rw [h.frame.1]
    exact id
  cases h with
  | kept => exact Passed.refl s
  | replay hpromote hreplay h =>
    rw [Store.saveCheckpoint_eq_ok h] at hruns ⊢
    refine ⟨fun _ => rfl, fun _ => setCheckpoint_kept ?_, hruns,
      fun hs => setCheckpoint_seeded hs hplain⟩
    rintro - rfl
    exact hreplay
  | runScope hreplay hboundary hrun hcross h =>
    rw [Store.saveCheckpoint_eq_ok h] at hruns ⊢
    refine ⟨fun _ => rfl, fun hp => setCheckpoint_kept ?_, hruns,
      fun hs => setCheckpoint_seeded hs hplain⟩
    -- the resource's own cursor before a commit: the gate is closed
    rintro rfl rfl
    exfalso
    have hp' : promote = false := hp.resolve_right fun h => h rfl
    have hnot := hreplay.resolve_left fun h => Bool.false_ne_true (hp'.symm.trans h)
    rcases hgate hp' rfl rfl hnot with hb | ⟨row, hrow, hc⟩
    · rcases hboundary with hp'' | hne
      · exact Bool.false_ne_true (hp'.symm.trans hp'')
      · exact hne hb
    obtain ⟨row', hrow', -, rfl⟩ := Store.loadRun_eq_ok.1 hrun
    rcases hcross with hp'' | hc'
    · exact Bool.false_ne_true (hp'.symm.trans hp'')
    · rw [hrow, Option.some.injEq] at hrow'
      rw [← hrow'] at hc'
      exact Bool.false_ne_true (hc'.symm.trans hc)
  | pipeline hpromote hrun hkey h =>
    rw [Store.saveResourceCheckpoint_eq_ok h] at hruns ⊢
    exact ⟨fun hp => absurd (hp.symm.trans hpromote) Bool.false_ne_true, fun _ => .inl rfl, hruns,
      seeded_of_same rfl hruns⟩

/-! ### The invariant -/

variable {env : Envelope} {c : Option CheckpointData} {w' : World}

section

variable (run resource)

/-- What the memory says about the resource: a cursor is accumulated for it only under its boundary and
is no backfill plan, unless its progress is shared across runs, and no other resource accumulates a
cursor of its name. -/
structure GateInv (w : World) : Prop where
  known : (w.mem.cp.lookup ⟨run, resource⟩).isSome = true →
    w.Bounded run resource ∨ CrossRun w.store run resource
  named : ∀ x cp, w.mem.cp.lookup ⟨run, x⟩ = some (some cp) → cp.resourceName = resource →
    x = resource
  plain : ∀ cp, w.mem.cp.lookup ⟨run, resource⟩ = some (some cp) →
    ¬Backfill cp.cursor ∨ CrossRun w.store run resource

/-- Part of a delivery of a fact of run `owner` keeps the invariant and passes the gate. -/
structure Gated (owner : RunID) (promote : Bool) (w w' : World) : Prop where
  inv : GateInv run resource w'
  passed : Passed run resource owner promote w.store w'.store

theorem gateInv_new (s : Store) : GateInv run resource ⟨s, .new⟩ := by
  constructor
  · intro h
    cases h
  · intro x cp h
    cases h
  · intro cp h
    cases h

end

theorem Gated.trans {w'' : World} (h : Gated run resource owner promote w w')
    (h' : Gated run resource owner promote w' w'') : Gated run resource owner promote w w'' :=
  ⟨h'.inv, h.passed.trans h'.passed⟩

/-- Writing back the cursor that is stored changes nothing. -/
theorem passed_rewrite (h : Written m tenant owner cp false s s')
    (hstored : s.checkpoints (owner, cp.resourceName) = some (tenant, cp.cursor)) :
    Passed run resource owner false s s' := by
  have hsame : ∀ {s'}, s.saveCheckpoint tenant owner cp = .ok s' → s' = s := by
    intro s' hs
    rw [Store.saveCheckpoint_eq_ok hs, Store.setCheckpoint, ← hstored, update_eq_self]
  cases h with
  | kept => exact Passed.refl s
  | replay _ _ h | runScope _ _ _ _ h => rw [hsame h]; exact Passed.refl s
  | pipeline hpromote _ _ _ => cases hpromote

section

variable (h : GateInv run resource w) {m' : Module}
include h

/-- The invariant only reads the cursors and the boundary of the run. -/
theorem GateInv.of_same (hcp : ∀ x, m'.cp.lookup ⟨run, x⟩ = w.mem.cp.lookup ⟨run, x⟩)
    (hboundary : m'.boundary ⟨run, resource⟩ = w.mem.boundary ⟨run, resource⟩)
    (hcross : CrossRun w.store run resource → CrossRun s' run resource) :
    GateInv run resource ⟨s', m'⟩ := by
  refine ⟨fun hsome => ?_, fun x cp hlook => h.named x cp (by rw [← hcp]; exact hlook),
    fun cp hlook => (h.plain cp (by rw [← hcp]; exact hlook)).imp_right hcross⟩
  rw [hcp] at hsome
  refine (h.known hsome).imp (fun hb => ?_) hcross
  exact hboundary.trans hb

/-- Memory with the same cursors and boundary, over a store that passed the gate. -/
theorem GateInv.pass (hpassed : Passed run resource owner promote w.store s')
    (hcp : m'.cp = w.mem.cp := by rfl) (hboundary : m'.boundary = w.mem.boundary := by rfl) :
    Gated run resource owner promote w ⟨s', m'⟩ :=
  ⟨h.of_same (fun _ => by rw [hcp]) (by rw [hboundary]) hpassed.crossRun, hpassed⟩

theorem GateInv.gated : Gated run resource owner promote w w :=
  ⟨h, Passed.refl _⟩

theorem GateInv.of_other (henv : env.run ≠ run) (hmem : OnlyAt env.key w.mem w'.mem)
    (hcross : CrossRun w.store run resource → CrossRun w'.store run resource) :
    GateInv run resource w' := by
  refine h.of_same (fun x => hmem.cp _ fun heq => henv ?_) (by rw [hmem.boundary]) hcross
  exact congrArg CkKey.run heq.symm

/-- Under the invariant, a cursor folded for a batch of the run has the resource's name only when
the batch is the resource's. -/
theorem GateInv.resource_of_names (henv : env.run = run)
    (hdelta : ∀ d ∈ c, d.resourceName = resource → env.resource = resource)
    (hn : Names env w c name) (hname : name = resource) : env.resource = resource := by
  rcases hn with rfl | ⟨b, hlook, hb⟩ | ⟨d, hd, hdn⟩
  · exact hname
  · subst henv
    exact h.named env.resource b hlook (hb.trans hname)
  · exact hdelta d hd (hdn.trans hname)

/-- No cursor of the resource that a batch hands on or leaves accumulated is a backfill plan. -/
theorem GateInv.foldCursor_plain (hseeded : env.run = run → Seeded run resource w.store)
    (hrun : env.run = run) (hres : env.resource = resource) :
    (∀ cp, (foldCursor fails env c w).1 = some cp →
        ¬Backfill cp.cursor ∨ CrossRun w.store run resource) ∧
      ∀ cp, (foldCursor fails env c w).2.cp.lookup env.key = some (some cp) →
        ¬Backfill cp.cursor ∨ CrossRun w.store run resource := by
  by_cases hcross : CrossRun w.store run resource
  · exact ⟨fun _ _ => .inr hcross, fun _ _ => .inr hcross⟩
  have hkey : env.key = ⟨run, resource⟩ := by rw [Envelope.key, hrun, hres]
  obtain ⟨hret, hlook⟩ := @foldCursor_ind fails w env c (fun cp => ¬Backfill cp.cursor)
    (fun b hb => (h.plain b (by rw [← hkey]; exact hb)).resolve_right hcross)
    (fun b hb => by
      rw [hrun, hres] at hb
      exact (hseeded hrun).resolve_left hcross _ _
        ((loadCheckpoint_spec hb).2.resolve_right hcross))
    (fun b part merged hb hdone hmerged => hb (completeShard_backfill hdone hmerged))
    (fun d _ base merged hbase hmerge hmerged => by
      obtain ⟨b, hb, hplan⟩ := mergeDelta_backfill hmerge hmerged
      exact hbase b hb hplan)
  exact ⟨fun cp hcp => .inl (hret cp hcp), fun cp hcp => .inl (hlook cp hcp)⟩

theorem foldBatch_gated
    (hbounded : env.run = run → env.resource = resource → w.Bounded run resource)
    (hdelta : env.run = run → ∀ d ∈ c, d.resourceName = resource → env.resource = resource)
    (hseeded : env.run = run → Seeded run resource w.store) :
    Gated run resource env.run false w (foldBatch fails env c w) := by
  obtain ⟨hret, hlook⟩ := @foldCursor_names fails w env c
  have hmem := @foldCursor_onlyAt fails env w c
  -- the cursor goes to the resource only from one of its own batches, under its boundary
  have hown : ∀ cp : CheckpointData, (foldCursor fails env c w).1 = some cp → env.run = run →
      cp.resourceName = resource → env.resource = resource := fun cp hcp henv hname =>
    h.resource_of_names henv (hdelta henv) (hret cp hcp) hname
  have hcp : ∀ key, (foldBatch fails env c w).mem.cp.lookup key =
      (foldCursor fails env c w).2.cp.lookup key := by
    intro key
    unfold foldBatch
    split <;> rename_i heq <;> rw [heq]
  have hpassed : Passed run resource env.run false w.store (foldBatch fails env c w).store := by
    unfold foldBatch
    split
    · rename_i cp m heq
      have hfold : (foldCursor fails env c w).1 = some cp := by rw [heq]
      refine passed_written persistLogged_written (fun _ henv hname _ => .inl ?_)
        fun henv hname => (h.foldCursor_plain hseeded henv (hown cp hfold henv hname)).1 cp hfold
      have hm := hmem.boundary
      rw [heq] at hm
      rw [hm]
      exact hbounded henv (hown cp hfold henv hname)
    · exact Passed.refl _
  refine ⟨?_, hpassed⟩
  by_cases henv : env.run = run
  · have hfolded := (@foldBatch_folded fails env w c).mem
    have hother : env.resource ≠ resource → (⟨run, resource⟩ : CkKey) ≠ env.key := fun hres heq =>
      hres (congrArg CkKey.resource heq).symm
    refine ⟨fun hsome => ?_, fun x cp hx hname => ?_, fun cp hlook' => ?_⟩
    · by_cases hres : env.resource = resource
      · refine .inl ?_
        unfold World.Bounded
        rw [hfolded.boundary]
        exact hbounded henv hres
      rw [hfolded.cp _ (hother hres)] at hsome
      refine (h.known hsome).imp (fun hb => ?_) hpassed.crossRun
      unfold World.Bounded
      rw [hfolded.boundary]
      exact hb
    · by_cases hkey : (⟨run, x⟩ : CkKey) = env.key
      · have hxe : x = env.resource := congrArg CkKey.resource hkey
        rw [hkey, hcp] at hx
        rw [hxe]
        exact h.resource_of_names henv (hdelta henv) (hlook cp hx) hname
      · rw [hfolded.cp _ hkey] at hx
        exact h.named x cp hx hname
    · refine Or.imp_right hpassed.crossRun ?_
      by_cases hres : env.resource = resource
      · have hkey : env.key = ⟨run, resource⟩ := by rw [Envelope.key, henv, hres]
        rw [hcp, ← hkey] at hlook'
        exact (h.foldCursor_plain hseeded henv hres).2 cp hlook'
      · rw [hfolded.cp _ (hother hres)] at hlook'
        exact h.plain cp hlook'
  · exact h.of_other henv foldBatch_folded.mem hpassed.crossRun

/-- Persisting the cursor of a resource that completes. -/
theorem flushCursor_gated (hgate : ∀ cp ∈ c, env.run = run → cp.resourceName = resource →
        (w.Bounded run resource ∨ CrossRun w.store run resource) ∧
          (¬Backfill cp.cursor ∨ CrossRun w.store run resource)) :
    Gated run resource env.run false w (flushCursor fails env c w) := by
  cases c with
  | none => exact h.pass (Passed.refl _)
  | some cp =>
    exact h.pass (passed_written persistLogged_written
      (fun _ henv hname _ => (hgate cp rfl henv hname).1) fun henv hname =>
        (hgate cp rfl henv hname).2)

theorem GateInv.insert (hknown : env.run = run → env.resource = resource →
      w.Bounded run resource ∨ CrossRun w.store run resource)
    (hname : env.run = run → cp.resourceName = resource → env.resource = resource)
    (hplain : ¬Backfill cp.cursor) :
    GateInv run resource ⟨w.store, { w.mem with cp := w.mem.cp.insert env.key (some cp) }⟩ := by
  refine ⟨fun hsome => ?_, fun x cp' hx hcp' => ?_, fun cp' hlook => ?_⟩
  · by_cases hkey : (⟨run, resource⟩ : CkKey) = env.key
    · exact hknown (congrArg CkKey.run hkey).symm (congrArg CkKey.resource hkey).symm
    · rw [AList.lookup_insert_ne hkey] at hsome
      exact h.known hsome
  · by_cases hkey : (⟨run, x⟩ : CkKey) = env.key
    · rw [hkey, AList.lookup_insert, Option.some.injEq, Option.some.injEq] at hx
      have hrun : env.run = run := (congrArg CkKey.run hkey).symm
      exact (congrArg CkKey.resource hkey).trans (hname hrun (by rw [hx]; exact hcp'))
    · rw [AList.lookup_insert_ne hkey] at hx
      exact h.named x cp' hx hcp'
  · by_cases hkey : (⟨run, resource⟩ : CkKey) = env.key
    · rw [hkey, AList.lookup_insert, Option.some.injEq, Option.some.injEq] at hlook
      exact .inl (hlook ▸ hplain)
    · rw [AList.lookup_insert_ne hkey] at hlook
      exact h.plain cp' hlook

theorem flushResource_gated (hseeded : env.run = run → Seeded run resource w.store) :
    Gated run resource env.run false w (flushResource unmarshal fails env w) := by
  have hnames : env.run = run → ∀ cp, resourceCursor fails env w = some cp →
      cp.resourceName = resource → env.resource = resource := by
    intro henv cp hcp hname
    rcases resourceCursor_eq_some hcp with hlook | hload
    · subst henv
      exact h.named env.resource cp hlook hname
    · exact (loadCheckpoint_spec hload).1.symm.trans hname
  have hplain : env.run = run → env.resource = resource → ∀ cp, resourceCursor fails env w = some cp →
      ¬Backfill cp.cursor ∨ CrossRun w.store run resource := by
    intro henv hres cp hcp
    rcases resourceCursor_eq_some hcp with hlook | hload
    · rw [Envelope.key, henv, hres] at hlook
      exact h.plain cp hlook
    · rw [henv, hres] at hload
      rcases (loadCheckpoint_spec hload).2 with hrow | hcross
      · exact ((hseeded henv).imp_right fun hs => hs _ _ hrow).symm
      · exact .inr hcross
  by_cases hopen : env.run = run → env.resource = resource →
      w.Bounded run resource ∨ CrossRun w.store run resource
  · -- the gate is known wherever the cursor could be the resource's
    unfold flushResource
    split
    · rename_i promoted hpromote
      obtain ⟨cp, hcp, -, hname, hmode⟩ := promoteIncrementalBackfill_spec hpromote
      have hres : env.run = run → promoted.resourceName = resource → env.resource = resource :=
        fun henv hn => hnames henv cp hcp (hname.symm.trans hn)
      have hnot : ¬Backfill promoted.cursor := by simp [Backfill, hmode]
      refine Gated.trans ⟨h.insert hopen hres hnot, Passed.refl _⟩
        (flushCursor_gated (h.insert hopen hres hnot) ?_)
      rintro cp' ⟨⟩ henv hn
      exact ⟨hopen henv (hres henv hn), .inl hnot⟩
    · exact flushCursor_gated h fun cp hcp henv hn =>
        ⟨hopen henv (hnames henv cp hcp hn), hplain henv (hnames henv cp hcp hn) cp hcp⟩
  · -- nothing is accumulated: the stored cursor is read and, being no backfill plan, written back
    obtain ⟨henv, hopen⟩ := Classical.not_imp.1 hopen
    obtain ⟨hres, hopen⟩ := Classical.not_imp.1 hopen
    obtain ⟨-, hcross⟩ := not_or.1 hopen
    have hkey : env.key = ⟨run, resource⟩ := by rw [Envelope.key, henv, hres]
    have hstored : ∀ cp, resourceCursor fails env w = some cp → cp.resourceName = resource ∧
        w.store.checkpoints (run, resource) = some (env.tenant, cp.cursor) := by
      intro cp hcp
      rcases resourceCursor_eq_some hcp with hlook | hload
      · rw [hkey] at hlook
        exact absurd (h.known (by rw [hlook]; rfl)) hopen
      · rw [henv, hres] at hload
        obtain ⟨hn, hrow⟩ := loadCheckpoint_spec hload
        exact ⟨hn, hrow.resolve_right hcross⟩
    unfold flushResource
    split
    · rename_i promoted hpromote
      obtain ⟨cp, hcp, hmode, -⟩ := promoteIncrementalBackfill_spec hpromote
      exact absurd hmode ((hplain henv hres cp hcp).resolve_right hcross)
    · cases hcp : resourceCursor fails env w with
      | none => exact h.pass (Passed.refl _)
      | some cp =>
        obtain ⟨hn, hrow⟩ := hstored cp hcp
        exact h.pass (passed_rewrite persistLogged_written (by rw [henv, hn]; exact hrow))

end

/-! ### One delivery -/

theorem persistAll_passed {pending : List (String × CheckpointData)}
    (hgate : ∀ x cp, (x, cp) ∈ pending → owner = run → cp.resourceName = resource →
      (m.boundary ⟨run, resource⟩ = .checkpointAfterCommit ∨ CrossRun s run resource) ∧
        (¬Backfill cp.cursor ∨ CrossRun s run resource)) :
    Passed run resource owner promote s (persistAll fails m tenant owner promote s pending).1 := by
  induction pending generalizing s with
  | nil => exact Passed.refl s
  | cons entry pending ih =>
    obtain ⟨x, cp⟩ := entry
    have hlater := fun x' cp' hmem => hgate x' cp' (mem_cons_of_mem (x, cp) hmem)
    unfold persistAll
    cases hp : persistCheckpoint fails m s tenant owner x cp promote with
    | error e => exact ih hlater
    | ok res =>
      have hfirst := passed_written (persistCheckpoint_written hp)
        (fun _ hown hname _ => (hgate x cp (.head _) hown hname).1)
        fun hown hname => (hgate x cp (.head _) hown hname).2
      refine hfirst.trans (ih fun x' cp' hmem hown hname => ?_)
      obtain ⟨hbound, hplain⟩ := hlater x' cp' hmem hown hname
      exact ⟨hbound.imp_right hfirst.crossRun, hplain.imp_right hfirst.crossRun⟩

section

variable (h : GateInv run resource w)
include h

/-- Evicting a run leaves nothing of it, and the rest as it was. -/
theorem GateInv.evict (hcross : CrossRun w.store run resource → CrossRun s' run resource) :
    GateInv run resource ⟨s', evictRun owner w.mem⟩ := by
  by_cases hown : run = owner
  · have hnone : ∀ x, (evictRun owner w.mem).cp.lookup ⟨run, x⟩ = none := fun x => by
      rw [evictRun_lookup, if_pos hown]
    constructor <;> simp [hnone]
  · refine h.of_same (fun x => ?_) ?_ hcross
    · rw [evictRun_lookup, if_neg hown]
    · exact if_neg hown

theorem terminal_gated :
    Gated run resource env.run promote w (terminal fails env promote (update env d) w).1 := by
  have hflush : Gated run resource env.run promote w (flushRunFor fails env promote w).1 := by
    refine h.pass (persistAll_passed fun x cp hmem henv hname => ?_)
    have hlook := mem_pending hmem
    rw [henv] at hlook
    obtain rfl := h.named x cp hlook hname
    exact ⟨h.known (by rw [hlook]; rfl), h.plain cp hlook⟩
  unfold terminal
  simp only
  split_ifs
  · exact hflush
  split
  · exact hflush
  · rename_i s'' hmutate
    have hpassed : Passed run resource env.run promote _ s'' := passed_mutate hmutate
    exact hflush.trans ⟨hflush.inv.evict hpassed.crossRun, hpassed⟩

theorem mutateThen_gated {next : World → World}
    (hnext : ∀ w', Gated run resource env.run promote w w' → w'.mem = w.mem →
      Gated run resource env.run promote w' (next w')) :
    Gated run resource env.run promote w (mutateThen fails env d next w).1 := by
  unfold mutateThen
  split
  · exact h.gated
  · rename_i s' hmutate
    have hgated : Gated run resource env.run promote w ⟨s', w.mem⟩ :=
      h.pass (passed_mutate hmutate)
    exact hgated.trans (hnext ⟨s', w.mem⟩ hgated rfl)

end

variable {f : Fact} {cp : Option CheckpointData} {seq : ℕ}

theorem batch_gated {policy : CheckpointPolicy} (h : GateInv run resource w)
    (hb : env.run = run → (env.resource = resource → policy = .checkpointAfterCommit) ∧
      ∀ d ∈ cp, d.resourceName = resource → env.resource = resource)
    (hseeded : env.run = run → Seeded run resource w.store) :
    Gated run resource env.run false w (mutateThen fails env d (foldBatch fails env cp)
      ⟨w.store, rememberBoundary env policy w.mem⟩).1 := by
  have hbounded : env.run = run → env.resource = resource →
      (rememberBoundary env policy w.mem).boundary ⟨run, resource⟩ = .checkpointAfterCommit := by
    intro henv hres
    rw [(hb henv).1 hres]
    subst henv hres
    exact update_self ..
  have hinv : GateInv run resource ⟨w.store, rememberBoundary env policy w.mem⟩ := by
    by_cases hkey : (⟨run, resource⟩ : CkKey) = env.key
    · refine ⟨fun _ => .inl ?_, fun x cp' hx => h.named x cp' ?_, fun cp' hx => h.plain cp' ?_⟩
      · exact hbounded (congrArg CkKey.run hkey).symm (congrArg CkKey.resource hkey).symm
      · rw [← hx, rememberBoundary_cp]
      · rw [← hx, rememberBoundary_cp]
    · refine h.of_same (fun x => by rw [rememberBoundary_cp]) ?_ id
      unfold rememberBoundary
      split_ifs
      · rfl
      · exact update_of_ne hkey ..
  refine Gated.trans ⟨hinv, Passed.refl _⟩ (mutateThen_gated hinv fun w' h' hmem => ?_)
  refine foldBatch_gated h'.inv (fun henv hres => ?_) (fun henv => (hb henv).2)
    fun henv => h'.passed.seeded (hseeded henv)
  unfold World.Bounded
  rw [hmem]
  exact hbounded henv hres

theorem dedupSeen_passed {seen : Bool} (h : s.dedupSeen tenant owner seq = .ok (seen, s')) :
    Passed run resource owner promote s s' := by
  rcases Store.dedupSeen_eq_ok h with ⟨-, rfl, -⟩ | ⟨-, -, rfl⟩
  · exact Passed.refl _
  · exact Passed.of_eq rfl rfl rfl

section

variable (h : GateInv run resource w) (hb : AfterCommit run resource f)
  (hp : f.env.run = run → Published f ∧ Seeded run resource w.store)
include h hb hp

theorem apply_gated :
    Gated run resource f.env.run f.data.promotes w (apply unmarshal fails f w).1 := by
  have hmutate : ∀ d, Gated run resource f.env.run false w (mutateThen fails f.env d id w).1 :=
    fun d => mutateThen_gated h fun _ h' _ => h'.inv.gated
  unfold apply
  cases hd : f.data with
  | runCompleted records bytes | runFailed error | runPartial error | runCanceled =>
    exact terminal_gated h
  | runPaused committed => exact terminal_gated h
  | runStarted | resourceStarted | resourceFailed error | heartbeat cpu bytes peak =>
    exact hmutate _
  | resourceCompleted records bytes =>
    exact mutateThen_gated h fun w' h' _ => flushResource_gated h'.inv fun henv =>
      h'.passed.seeded (hp henv).2
  | batchWritten records bytes cp policy =>
    exact batch_gated h (fun henv => hb henv records bytes cp policy hd) fun henv => (hp henv).2
  | checkpointSaved cp =>
    by_cases henv : f.env.run = run
    · rw [(hp henv).1 cp hd]
      exact h.gated
    · unfold applyCheckpoint
      cases cp with
      | none => exact h.gated
      | some c =>
        simp only
        split
        · rename_i wrote s' hpersist
          exact h.pass (passed_written (persistCheckpoint_written hpersist)
            (fun _ hrun => absurd hrun henv) fun hrun => absurd hrun henv)
        · exact h.gated
  | runRequested | runPauseRequested | runCancelRequested | notifierAttempted | other =>
    exact h.gated

theorem fold_gated :
    Gated run resource f.env.run f.data.promotes w (fold unmarshal fails f seq w).1 := by
  unfold fold
  split_ifs
  · have hgated := @apply_gated unmarshal fails run resource w f h hb hp
    generalize apply unmarshal fails f w = res at hgated
    obtain ⟨w₁, out⟩ := res
    cases out with
    | error e => exact hgated
    | ok u =>
      simp only
      split
      · exact hgated
      · rename_i seen s' hd
        exact hgated.trans (hgated.inv.pass (dedupSeen_passed (attempt_eq_ok.1 hd).2))
  · cases hd : Call.attempt fails .dedupSeen (w.store.dedupSeen f.env.tenant f.env.run seq) with
    | error e => exact h.gated
    | ok res =>
      obtain ⟨seen, s'⟩ := res
      have hdedup : Gated run resource f.env.run f.data.promotes w ⟨s', w.mem⟩ :=
        h.pass (dedupSeen_passed (attempt_eq_ok.1 hd).2)
      cases seen with
      | true => exact hdedup
      | false =>
        exact hdedup.trans (apply_gated hdedup.inv hb fun henv =>
          ⟨(hp henv).1, hdedup.passed.seeded (hp henv).2⟩)

theorem onFact_gated {seq : ℕ} :
    Gated run resource f.env.run f.data.promotes w
      (onFact unmarshal fails ⟨some f, seq⟩ w).1 := by
  unfold onFact
  simp only
  split_ifs
  · exact h.gated
  split
  · exact h.gated
  · rename_i mode m hmode
    obtain ⟨hcp, hboundary, -⟩ := executionMode_same hmode
    have hgated : Gated run resource f.env.run f.data.promotes w ⟨w.store, m⟩ :=
      h.pass (Passed.refl _) hcp hboundary
    split_ifs
    · exact hgated
    · exact hgated.trans (fold_gated hgated.inv hb hp)

end

theorem step_gated {a : Step} (h : GateInv run resource w)
    (ha : ∀ f, a.Delivers f → AfterCommit run resource f ∧
      (f.env.run = run → Published f ∧ Seeded run resource w.store)) :
    GateInv run resource (step unmarshal w a) ∧
      (Seeded run resource w.store → Seeded run resource (step unmarshal w a).store) ∧
      PipelineGated unmarshal w a ∧ RunGated unmarshal run resource w a := by
  cases a with
  | restart => exact ⟨gateInv_new .., id, fun _ => rfl, fun _ => Kept.refl ..⟩
  | deliver msg fails =>
    obtain ⟨fact, seq⟩ := msg
    cases fact with
    | none => exact ⟨h, id, fun _ => rfl, fun _ => Kept.refl ..⟩
    | some f =>
      have hdel : (Step.deliver ⟨some f, seq⟩ fails).Delivers f := ⟨seq, fails, rfl⟩
      obtain ⟨hb, hp⟩ := ha f hdel
      obtain ⟨hinv, hpassed⟩ := @onFact_gated unmarshal fails run resource w f h hb hp seq
      refine ⟨hinv, hpassed.seeded, fun hp => hpassed.pipeline (hp f hdel),
        fun hp => hpassed.kept ?_⟩
      by_cases hrun : f.env.run = run
      · exact .inl (hp f hdel hrun)
      · exact .inr hrun

/-- The run a step is about. -/
def Step.about : Step → List RunID
  | .deliver ⟨some f, _⟩ _ => [f.env.run]
  | _ => []

/-- Along every sequence of facts, restarts and store failures, pipeline-scoped cursors change only
while a completed run or a committed pause is folded. -/
theorem pipeline_gated (s : Store) (as : List Step) :
    Trace.Along (step unmarshal) (PipelineGated unmarshal) ⟨s, .new⟩ as := by
  -- of a run that no fact is about, nothing needs to be known
  obtain ⟨idle, hidle⟩ := Infinite.exists_notMem_finset (as.flatMap Step.about).toFinset
  have hne : ∀ a ∈ as, ∀ f, a.Delivers f → f.env.run ≠ idle := by
    rintro a ha f ⟨seq, fails, rfl⟩ heq
    refine hidle (mem_toFinset.2 (mem_flatMap.2 ⟨_, ha, ?_⟩))
    rw [← heq]
    exact mem_singleton_self _
  refine Trace.along_of_inv (fun w a hinv ha => ?_) (gateInv_new idle "" s)
    (Trace.along_of_forall hne _)
  obtain ⟨hinv', -, hgated, -⟩ := @step_gated unmarshal idle "" w a hinv fun f hf =>
    ⟨fun henv => absurd henv (ha f hf), fun henv => absurd henv (ha f hf)⟩
  exact ⟨hinv', hgated⟩

/-- **Cross-run progress is gated on the sink commit.** Along every sequence of facts, restarts and
store failures, pipeline-scoped cursors change only while a completed run or a committed pause is
folded; and so does the run's own cursor of a resource whose batches carry the after-commit policy,
replayed attempt state excepted, when the facts are ones that are published and the run is seeded as the
runner does it. -/
theorem commit_gated (s : Store) (as : List Step) :
    Trace.Along (step unmarshal) (PipelineGated unmarshal) ⟨s, .new⟩ as ∧
    ∀ run resource, (∀ a ∈ as, ∀ f, a.Delivers f → Published f ∧ AfterCommit run resource f) →
      Seeded run resource s →
      Trace.Along (step unmarshal) (RunGated unmarshal run resource) ⟨s, .new⟩ as := by
  refine ⟨pipeline_gated s as, fun run resource hfacts hseeded => ?_⟩
  have hinit : GateInv run resource ⟨s, .new⟩ ∧ Seeded run resource s :=
    ⟨gateInv_new run resource s, hseeded⟩
  have hstep : ∀ (w : World) (a : Step), GateInv run resource w ∧ Seeded run resource w.store →
      (∀ f, a.Delivers f → Published f ∧ AfterCommit run resource f) →
      (GateInv run resource (step unmarshal w a) ∧
        Seeded run resource (step unmarshal w a).store) ∧ RunGated unmarshal run resource w a := by
    intro w a hinv ha
    obtain ⟨hinv', hseeded', -, hgated⟩ := step_gated hinv.1 fun f hf =>
      ⟨(ha f hf).2, fun _ => ⟨(ha f hf).1, hinv.2⟩⟩
    exact ⟨⟨hinv', hseeded' hinv.2⟩, hgated⟩
  exact Trace.along_of_inv hstep hinit (Trace.along_of_forall hfacts _)

/-! ### A restart between two facts -/

/-- A running full read of `orders`. -/
private def upsertRun : RunState :=
  { RunState.fresh "export" "acme" with
    status := .runRunning
    request := { RunRequest.zero with ingestionTypes := [("orders", .fullUpsert)] } }

/-- A plan of `orders` with one shard. -/
private def ordersPlan : Cursor :=
  { mode := some .modeKeyset, cols := ["id"], shards := [⟨[], [], [], false⟩] }

/-- A store with that run and its plan. -/
private def upsertStore : Store where
  runs := fun id => if id = "export" then some upsertRun else none
  marks := fun _ => none
  checkpoints := fun key => if key = ("export", "orders") then some ("acme", ordersPlan) else none
  resourceCheckpoints := fun _ => none

private def ordersFact (seq : ℕ) (d : Data) : Step :=
  .deliver ⟨some ⟨⟨"acme", "export", "orders", seq⟩, d⟩, seq⟩ fun _ => false

/-- A batch that is durable only after the commit, a restart, and the end of the resource. -/
private def restartedRead : List Step :=
  [ordersFact 1 (.batchWritten 5 50 (some (newShardDelta "orders" 0 ["9"])) .checkpointAfterCommit),
    .restart, ordersFact 2 (.resourceCompleted 5 50)]

/-- The plan stays as it was seeded until the run commits. -/
theorem restarted_read_gated :
    Trace.Along (step fun _ => none) (RunGated (fun _ => none) "export" "orders")
      ⟨upsertStore, .new⟩ restartedRead := by
  refine (commit_gated upsertStore restartedRead).2 "export" "orders" ?_ (.inr ?_)
  · rintro a ha f ⟨seq, fails, rfl⟩
    simp only [restartedRead, ordersFact, mem_cons, Step.deliver.injEq, Message.mk.injEq,
      Option.some.injEq, reduceCtorEq, not_mem_nil, or_false, false_or] at ha
    rcases ha with ⟨⟨rfl, -⟩, -⟩ | ⟨⟨rfl, -⟩, -⟩
    · refine ⟨by simp [Published], fun _ records bytes cp policy hd => ?_⟩
      cases hd
      exact ⟨fun _ => rfl, by simp⟩
    · exact ⟨by simp [Published], by simp [AfterCommit]⟩
  · intro tenant cursor hcursor
    cases hcursor
    simp [Backfill, ordersPlan]

end Filament.Tracker
