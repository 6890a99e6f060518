import Filament.Tracker.Steps

/-!
# The accumulated cursors

What loading and folding do to the cursor of a resource: where a recovered cursor comes from, and
which names the cursors have that a fact leaves in the memory or hands on to be persisted.
-/

namespace Filament.Tracker

open Checkpoint Option

variable {fails : Call → Bool} {s : Store} {w : World} {run : RunID} {resource : String}
  {env : Envelope} {c : Option CheckpointData}

variable (s run resource) in
/-- The resource is read incrementally or from a change stream. -/
def CrossRun : Prop :=
  ∃ row, s.runs run = some row ∧ row.request.crossRun resource = true

/-! ### Recovering a cursor -/

variable {tenant : TenantID} {cp : CheckpointData} {m : Module}

theorem attempt_toOption_eq_some {α : Type} {call : Call} {x : Except StoreError α} {a : α}
    (h : (Call.attempt fails call x).toOption = some a) : x = .ok a := by
  cases ha : Call.attempt fails call x with
  | error e =>
    rw [ha] at h
    cases h
  | ok a' =>
    rw [ha] at h
    cases h
    exact (attempt_eq_ok.1 ha).2

/-- The cursor recovered from the store: the run's own, or, for progress shared across runs, the
pipeline's. -/
theorem storedCheckpoint_spec (h : storedCheckpoint fails s tenant run resource = some cp) :
    cp.resourceName = resource ∧
      (s.checkpoints (run, resource) = some (tenant, cp.cursor) ∨ CrossRun s run resource) := by
  have hown : runCheckpoint fails s tenant run resource = some cp → cp.resourceName = resource ∧
      (s.checkpoints (run, resource) = some (tenant, cp.cursor) ∨ CrossRun s run resource) := by
    intro h
    obtain ⟨hrow, hname⟩ := Store.loadCheckpoint_eq_ok.1 (attempt_toOption_eq_some h)
    exact ⟨hname, .inl hrow⟩
  unfold storedCheckpoint at h
  cases hload : Call.attempt fails .loadCheckpointLoadRun (s.loadRun tenant run) with
  | error e =>
    rw [hload] at h
    exact hown h
  | ok state =>
    simp only [hload] at h
    split_ifs at h with hcross
    · cases hkey : state.request.resourceCheckpointKey resource with
      | none =>
        rw [hkey] at h
        exact hown h
      | some key =>
        simp only [hkey] at h
        obtain ⟨-, -, hname⟩ := Store.loadResourceCheckpoint_eq_ok.1 (attempt_toOption_eq_some h)
        obtain ⟨row, hrow, -, rfl⟩ := Store.loadRun_eq_ok.1 (attempt_eq_ok.1 hload).2
        exact ⟨hname.trans (RunRequest.resourceCheckpointKey_resource hkey),
          .inr ⟨row, hrow, hcross⟩⟩
    · exact hown h

theorem loadCheckpoint_spec (h : loadCheckpoint fails s tenant run resource = some cp) :
    cp.resourceName = resource ∧
      (s.checkpoints (run, resource) = some (tenant, cp.cursor) ∨ CrossRun s run resource) := by
  unfold loadCheckpoint at h
  cases hload : Call.attempt fails .loadCheckpoint (s.loadCheckpoint tenant run resource) with
  | error e =>
    rw [hload] at h
    exact storedCheckpoint_spec h
  | ok cp' =>
    simp only [hload] at h
    split_ifs at h
    · cases h
      obtain ⟨hrow, hname⟩ := Store.loadCheckpoint_eq_ok.1 (attempt_eq_ok.1 hload).2
      exact ⟨hname, .inl hrow⟩
    · exact storedCheckpoint_spec h

theorem resourceCursor_eq_some (h : resourceCursor fails env w = some cp) :
    w.mem.cp.lookup env.key = some (some cp) ∨
      loadCheckpoint fails w.store env.tenant env.run env.resource = some cp := by
  unfold resourceCursor at h
  cases hlook : w.mem.cp.lookup env.key with
  | none =>
    rw [hlook] at h
    exact .inr h
  | some entry =>
    rw [hlook] at h
    cases entry with
    | none => exact .inr h
    | some cp' => exact .inl (congrArg some h)

theorem executionMode_same {mode : ExecutionMode}
    (h : executionMode fails tenant run w = .ok (mode, m)) :
    m.cp = w.mem.cp ∧ m.boundary = w.mem.boundary ∧ m.bm = w.mem.bm := by
  unfold executionMode at h
  split at h
  · cases h
    exact ⟨rfl, rfl, rfl⟩
  · split at h <;> cases h <;> exact ⟨rfl, rfl, rfl⟩

theorem rememberBoundary_cp (env : Envelope) (policy : CheckpointPolicy) (m : Module) :
    (rememberBoundary env policy m).cp = m.cp := by
  unfold rememberBoundary
  split_ifs <;> rfl

/-! ### The names of cursors -/

variable {merged b : CheckpointData}

/-- The names a cursor folded for a fact can have: the resource's, the accumulated cursor's or the
delta's. -/
def Names (env : Envelope) (w : World) (c : Option CheckpointData) (name : String) : Prop :=
  name = env.resource ∨ (∃ b, w.mem.cp.lookup env.key = some (some b) ∧ b.resourceName = name) ∨
    ∃ d ∈ c, d.resourceName = name

theorem accumulated_lookup :
    (accumulated fails env w).2.cp.lookup env.key = some (accumulated fails env w).1 := by
  unfold accumulated
  cases hlook : w.mem.cp.lookup env.key with
  | some base => exact hlook
  | none => exact AList.lookup_insert _

theorem cadence_cp : (cadence fails tenant run w).2.cp = w.mem.cp := by
  unfold cadence
  cases w.mem.every run <;> rfl

theorem countBatch_spec {always : Bool} :
    (∀ cp, (countBatch fails env merged always w).1 = some cp → cp = merged) ∧
      (countBatch fails env merged always w).2.cp.lookup env.key = some (some merged) := by
  unfold countBatch
  cases always with
  | true => exact ⟨fun cp h => (some.inj h).symm, AList.lookup_insert _⟩
  | false =>
    simp only [Bool.false_eq_true, if_false]
    split_ifs
    · refine ⟨fun cp h => (some.inj h).symm, ?_⟩
      rw [cadence_cp]
      exact AList.lookup_insert _
    · refine ⟨nofun, ?_⟩
      rw [cadence_cp]
      exact AList.lookup_insert _

theorem completeShard_name {base : Option CheckpointData} {part : ℤ}
    (h : completeShard base part = some merged) :
    ∃ b, base = some b ∧ merged.resourceName = b.resourceName := by
  unfold completeShard at h
  split at h
  · rename_i b ks _
    split_ifs at h
    split at h
    · cases h
    · split_ifs at h
      cases h
      exact ⟨b, rfl, rfl⟩
  · cases h

/-- What holds of the accumulated cursor and the stored one, and is kept by completing a shard and by
merging the delta, holds of the cursor that a batch hands on and of the one it leaves accumulated. -/
theorem foldCursor_ind {P : CheckpointData → Prop}
    (hkept : ∀ b, w.mem.cp.lookup env.key = some (some b) → P b)
    (hload : ∀ b, loadCheckpoint fails w.store env.tenant env.run env.resource = some b → P b)
    (hshard : ∀ b part merged, P b → completeShard (some b) part = some merged → P merged)
    (hdelta : ∀ d ∈ c, ∀ base merged, (∀ b ∈ base, P b) → mergeDelta base d = some merged →
      P merged) :
    (∀ cp, (foldCursor fails env c w).1 = some cp → P cp) ∧
      ∀ cp, (foldCursor fails env c w).2.cp.lookup env.key = some (some cp) → P cp := by
  have hbase : ∀ b ∈ (accumulated fails env w).1, P b := by
    intro b h
    unfold accumulated at h
    cases hlook : w.mem.cp.lookup env.key with
    | some base =>
      rw [hlook] at h
      exact hkept b (by rw [hlook]; exact congrArg some h)
    | none =>
      rw [hlook] at h
      exact hload b h
  have hlookup : ∀ cp, (accumulated fails env w).2.cp.lookup env.key = some (some cp) → P cp := by
    intro cp h
    rw [accumulated_lookup, some.injEq] at h
    exact hbase cp h
  cases c with
  | none => exact ⟨nofun, hkept⟩
  | some d =>
    rcases foldCursor_cases d with ⟨-, heq | ⟨part, ack, want, hasWant, heq⟩⟩ | heq <;>
      simp only [heq]
    · exact ⟨nofun, hkept⟩
    · simp only [foldBitmap]
      split_ifs
      · cases hdone : completeShard (accumulated fails env w).1 part with
        | none => exact ⟨nofun, hlookup⟩
        | some merged =>
          obtain ⟨b, hb, -⟩ := completeShard_name hdone
          have hmerged : P merged := hshard b part merged (hbase b hb) (hb ▸ hdone)
          refine ⟨fun cp h => some.inj h ▸ hmerged, fun cp h => ?_⟩
          rw [AList.lookup_insert, some.injEq, some.injEq] at h
          exact h ▸ hmerged
      · exact ⟨nofun, hlookup⟩
    · unfold foldDelta
      cases hmerge : mergeDelta (accumulated fails env w).1 d with
      | none => exact ⟨nofun, hlookup⟩
      | some merged =>
        have hmerged : P merged := hdelta d rfl _ merged hbase hmerge
        obtain ⟨hret, hlook⟩ := @countBatch_spec fails
          ⟨w.store, (accumulated fails env w).2⟩ env merged (requiresReplay (some merged))
        refine ⟨fun cp hcp => hret cp hcp ▸ hmerged, fun cp hcp => ?_⟩
        rw [hlook, some.injEq, some.injEq] at hcp
        exact hcp ▸ hmerged

theorem foldCursor_names :
    (∀ cp, (foldCursor fails env c w).1 = some cp → Names env w c cp.resourceName) ∧
      ∀ cp, (foldCursor fails env c w).2.cp.lookup env.key = some (some cp) →
        Names env w c cp.resourceName := by
  refine foldCursor_ind (P := fun cp => Names env w c cp.resourceName)
    (fun b h => .inr (.inl ⟨b, h, rfl⟩)) (fun b h => .inl (loadCheckpoint_spec h).1) ?_ ?_
  · intro b part merged hb hdone
    obtain ⟨_, ⟨⟩, hname⟩ := completeShard_name hdone
    exact hname ▸ hb
  · intro d hd base merged hbase hmerge
    rcases mergeDelta_name hmerge with ⟨b, hb, hname⟩ | hname
    · exact hname ▸ hbase b hb
    · exact .inr (.inr ⟨d, hd, hname.symm⟩)

/-! ### Backfill plans -/

/-- A cursor of a backfill plan. -/
def Backfill (cursor : Cursor) : Prop := cursor.mode = some .modeIncrementalBackfill

theorem completeShard_backfill {part : ℤ} (h : completeShard (some b) part = some merged)
    (hmerged : Backfill merged.cursor) : Backfill b.cursor := by
  unfold completeShard at h
  split at h
  · rename_i b' ks heq hks
    cases heq
    split_ifs at h
    split at h
    · cases h
    · split_ifs at h
      cases h
      exact (mode_of_parseKeyset hks).symm.trans hmerged
  · cases h

/-- Only the cursor that a delta is merged into can be a backfill plan. -/
theorem mergeDelta_backfill {base : Option CheckpointData} {d : CheckpointData}
    (h : mergeDelta base d = some merged) (hmerged : Backfill merged.cursor) :
    ∃ b ∈ base, Backfill b.cursor := by
  unfold mergeDelta at h
  split at h
  · unfold mergeShardDelta at h
    split_ifs at h
    · exact ⟨merged, h, hmerged⟩
    split at h
    · rename_i b ks hks
      split_ifs at h
      · exact ⟨merged, h, hmerged⟩
      · cases h
        exact ⟨b, rfl, (mode_of_parseKeyset hks).symm.trans hmerged⟩
    · exact ⟨merged, h, hmerged⟩
  · unfold mergeStream at h
    split at h
    · exact ⟨merged, h, hmerged⟩
    split at h
    · split_ifs at h
      · exact ⟨merged, h, hmerged⟩
      · cases h
        cases hmerged
    · cases h
      cases hmerged
  · cases h

end Filament.Tracker
