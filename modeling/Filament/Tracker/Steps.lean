import Filament.Tracker.Module

/-!
# What a delivery can do

The effects of the handler's parts, stated once.

* `Written` : where a persisted cursor may go; `persistCheckpoint_written`.
* `OnlyAt` : folding a batch changes the memory of one resource; `foldCursor_onlyAt`.
* `mutate_eq` : the run row after a fact.
-/

namespace Filament.Tracker

open Checkpoint Option Call Store

variable {unmarshal : String → Option (List String)} {fails : Call → Bool} {m : Module}
  {s s' : Store} {tenant : TenantID} {run : RunID} {site : String} {cp : CheckpointData}
  {promote wrote : Bool} {env : Envelope} {w : World} {c : Call} {α : Type}

theorem attempt_eq_ok {x : Except StoreError α} {a : α} :
    attempt fails c x = .ok a ↔ fails c = false ∧ x = .ok a := by
  unfold attempt
  cases fails c <;> simp

theorem attempt_of_not_fails (x : Except StoreError α) (h : fails c = false) :
    attempt fails c x = x := by
  simp [attempt, h]

/-! ### Persisting a cursor -/

/-- Where a cursor goes: nowhere; to the run as replayed attempt state; to the run; or, once the
sink has committed, to the pipeline. -/
inductive Written (m : Module) (tenant : TenantID) (run : RunID) (cp : CheckpointData)
    (promote : Bool) (s : Store) : Store → Prop
  | kept : Written m tenant run cp promote s s
  | replay {s' : Store} (hpromote : promote = false) (hreplay : requiresReplay (some cp) = true)
      (h : s.saveCheckpoint tenant run cp = .ok s') : Written m tenant run cp promote s s'
  | runScope {s' : Store} {state : RunState}
      (hreplay : promote = true ∨ requiresReplay (some cp) = false)
      (hboundary : promote = true ∨ m.boundary ⟨run, cp.resourceName⟩ ≠ .checkpointAfterCommit)
      (hrun : s.loadRun tenant run = .ok state)
      (hcross : promote = true ∨ state.request.crossRun cp.resourceName = false)
      (h : s.saveCheckpoint tenant run cp = .ok s') : Written m tenant run cp promote s s'
  | pipeline {s' : Store} {state : RunState} {key : ResourceCheckpointKey}
      (hpromote : promote = true) (hrun : s.loadRun tenant run = .ok state)
      (hkey : state.request.resourceCheckpointKey cp.resourceName = some key)
      (h : s.saveResourceCheckpoint tenant key run cp = .ok s') :
      Written m tenant run cp promote s s'

theorem attempt_map_eq_ok {x : Except StoreError Store}
    (h : (attempt fails c x).map (fun s => (true, s)) = .ok (wrote, s')) : x = .ok s' := by
  cases hx : attempt fails c x with
  | error e =>
    rw [hx] at h
    cases h
  | ok s'' =>
    rw [hx] at h
    cases h
    exact (attempt_eq_ok.1 hx).2

theorem persistCheckpoint_written
    (h : persistCheckpoint fails m s tenant run site cp promote = .ok (wrote, s')) :
    Written m tenant run cp promote s s' := by
  unfold persistCheckpoint at h
  by_cases hreplay : (!promote && requiresReplay (some cp)) = true
  · rw [if_pos hreplay] at h
    rw [Bool.and_eq_true, Bool.not_eq_true'] at hreplay
    exact .replay hreplay.1 hreplay.2 (attempt_map_eq_ok h)
  rw [if_neg hreplay] at h
  have hplain : promote = true ∨ requiresReplay (some cp) = false := by
    cases promote with
    | true => exact .inl rfl
    | false => exact .inr (by simpa using hreplay)
  by_cases hgate : (decide (m.boundary ⟨run, cp.resourceName⟩ = .checkpointAfterCommit) &&
      !promote) = true
  · rw [if_pos hgate] at h
    cases h
    exact .kept
  rw [if_neg hgate] at h
  have hboundary : promote = true ∨ m.boundary ⟨run, cp.resourceName⟩ ≠ .checkpointAfterCommit := by
    cases promote with
    | true => exact .inl rfl
    | false => exact .inr (by simpa using hgate)
  cases hload : attempt fails (.persistLoadRun site) (s.loadRun tenant run) with
  | error e =>
    simp only [hload] at h
    cases h
  | ok state =>
    have hrun := (attempt_eq_ok.1 hload).2
    simp only [hload] at h
    cases hcross : state.request.crossRun cp.resourceName with
    | false =>
      simp only [hcross, Bool.false_and, Bool.false_eq_true, if_false] at h
      exact .runScope hplain hboundary hrun (.inr hcross) (attempt_map_eq_ok h)
    | true =>
      cases promote with
      | false =>
        simp only [hcross, Bool.not_false, Bool.and_self, if_true] at h
        cases h
        exact .kept
      | true =>
        simp only [hcross, Bool.not_true, Bool.and_false, Bool.false_eq_true, if_false] at h
        cases hkey : state.request.resourceCheckpointKey cp.resourceName with
        | none =>
          simp only [hkey] at h
          exact .runScope hplain hboundary hrun (.inl rfl) (attempt_map_eq_ok h)
        | some key =>
          simp only [hkey] at h
          exact .pipeline rfl hrun hkey (attempt_map_eq_ok h)

theorem persistLogged_written :
    Written m tenant run cp false s (persistLogged fails m s tenant run site cp) := by
  unfold persistLogged
  cases h : persistCheckpoint fails m s tenant run site cp false with
  | error e => exact .kept
  | ok res => exact persistCheckpoint_written h

theorem Written.frame (h : Written m tenant run cp promote s s') :
    s'.runs = s.runs ∧ s'.marks = s.marks := by
  cases h with
  | kept => exact ⟨rfl, rfl⟩
  | replay _ _ h | runScope _ _ _ _ h => rw [saveCheckpoint_eq_ok h]; exact ⟨rfl, rfl⟩
  | pipeline _ _ _ h => rw [saveResourceCheckpoint_eq_ok h]; exact ⟨rfl, rfl⟩

/-- Before a commit only the run's own cursor is written. -/
theorem Written.uncommitted (h : Written m tenant run cp false s s') :
    s' = s ∨ s' = s.setCheckpoint run cp.resourceName tenant cp.cursor := by
  cases h with
  | kept => exact .inl rfl
  | replay _ _ h | runScope _ _ _ _ h => exact .inr (saveCheckpoint_eq_ok h)
  | pipeline hpromote => cases hpromote

/-! ### Deltas -/

/-- The cursor after a batch: its delta merged into the accumulated cursor. Coarse deltas count
toward an account instead. -/
def mergeDelta (base : Option CheckpointData) (d : CheckpointData) : Option CheckpointData :=
  match decodeDelta d with
  | .shard _ _ => mergeShardDelta base d
  | .stream _ _ => mergeStream base d
  | _ => none

variable (fails env) in
/-- Folds a delta that is merged into the accumulated cursor. -/
def foldDelta (d : CheckpointData) (w : World) : Option CheckpointData × Module :=
  match mergeDelta (accumulated fails env w).1 d with
  | none => (none, (accumulated fails env w).2)
  | some merged =>
    countBatch fails env merged (requiresReplay (some merged)) ⟨w.store, (accumulated fails env w).2⟩

theorem mergeDelta_name {base : Option CheckpointData} {d merged : CheckpointData}
    (h : mergeDelta base d = some merged) :
    (∃ b, base = some b ∧ merged.resourceName = b.resourceName) ∨
      merged.resourceName = d.resourceName := by
  unfold mergeDelta at h
  split at h
  · exact .inl (mergeShardDelta_name h)
  · exact (mergeStream_name h).imp_left fun hb => ⟨merged, hb, rfl⟩
  · cases h

/-- A delta is merged unless it is unknown or coarse; no position of a stream is replayed state. -/
theorem foldCursor_cases (d : CheckpointData) :
    (∀ base, mergeDelta base d = none) ∧
      ((∀ fails env w, foldCursor fails env (some d) w = (none, w.mem)) ∨
        ∃ part ack want hasWant, ∀ fails env w,
          foldCursor fails env (some d) w = foldBitmap fails env part ack want hasWant w) ∨
    ∀ fails env w, foldCursor fails env (some d) w = foldDelta fails env d w := by
  unfold foldCursor foldDelta mergeDelta
  cases hd : decodeDelta d <;> simp only [hd]
  case unknown => simp
  case coarse => exact .inl ⟨fun _ => trivial, .inr ⟨_, _, _, _, fun _ _ _ => rfl⟩⟩
  case shard => exact .inr fun _ _ _ => rfl
  case stream =>
    refine .inr fun fails env w => ?_
    simp only [foldStream]
    cases hmerge : mergeStream (accumulated fails env w).1 d with
    | none => rfl
    | some merged => simp only [mergeStream_not_replay hd hmerge]

/-! ### The memory of one resource -/

/-- Only what the memory holds of one resource differs. -/
structure OnlyAt (key : CkKey) (m m' : Module) : Prop where
  modes : m'.modes = m.modes
  boundary : m'.boundary = m.boundary
  cp : ∀ k, k ≠ key → m'.cp.lookup k = m.cp.lookup k
  bm : ∀ k, k ≠ key → m'.bm k = m.bm k

theorem OnlyAt.refl (key : CkKey) (m : Module) : OnlyAt key m m :=
  ⟨rfl, rfl, fun _ _ => rfl, fun _ _ => rfl⟩

theorem OnlyAt.trans {key : CkKey} {m m' m'' : Module} (h : OnlyAt key m m')
    (h' : OnlyAt key m' m'') : OnlyAt key m m'' :=
  ⟨h'.modes.trans h.modes, h'.boundary.trans h.boundary,
    fun k hk => (h'.cp k hk).trans (h.cp k hk), fun k hk => (h'.bm k hk).trans (h.bm k hk)⟩

theorem onlyAt_insert (key : CkKey) (m : Module) (c : Option CheckpointData) :
    OnlyAt key m { m with cp := m.cp.insert key c } :=
  ⟨rfl, rfl, fun _ hk => AList.lookup_insert_ne hk, fun _ _ => rfl⟩

theorem accumulated_onlyAt :
    OnlyAt env.key w.mem (accumulated fails env w).2 := by
  unfold accumulated
  cases w.mem.cp.lookup env.key with
  | some base => exact OnlyAt.refl ..
  | none => exact onlyAt_insert ..

theorem cadence_onlyAt (key : CkKey) : OnlyAt key w.mem (cadence fails tenant run w).2 := by
  unfold cadence
  cases w.mem.every run with
  | some n => exact OnlyAt.refl ..
  | none => exact ⟨rfl, rfl, fun _ _ => rfl, fun _ _ => rfl⟩

theorem countBatch_onlyAt {always : Bool} :
    OnlyAt env.key w.mem (countBatch fails env cp always w).2 := by
  unfold countBatch
  have hcount : OnlyAt env.key w.mem { w.mem with
      cp := w.mem.cp.insert env.key (some cp)
      since := Function.update w.mem.since env.key
        (w.mem.since env.key + 1) } :=
    ⟨rfl, rfl, fun _ hk => AList.lookup_insert_ne hk, fun _ _ => rfl⟩
  cases always with
  | true => exact hcount.trans ⟨rfl, rfl, fun _ _ => rfl, fun _ _ => rfl⟩
  | false =>
    have hcadence := hcount.trans (@cadence_onlyAt fails env.tenant env.run ⟨w.store, _⟩ env.key)
    simp only [Bool.false_eq_true, if_false]
    split_ifs
    · exact hcadence.trans ⟨rfl, rfl, fun _ _ => rfl, fun _ _ => rfl⟩
    · exact hcadence

theorem foldDelta_onlyAt : OnlyAt env.key w.mem (foldDelta fails env cp w).2 := by
  unfold foldDelta
  have hacc := @accumulated_onlyAt fails env w
  split
  · exact hacc
  · exact hacc.trans (@countBatch_onlyAt fails _ env ⟨w.store, (accumulated fails env w).2⟩ _)

theorem foldBitmap_onlyAt {part ack want : ℤ} {hasWant : Bool} :
    OnlyAt env.key w.mem (foldBitmap fails env part ack want hasWant w).2 := by
  unfold foldBitmap
  have hacc := @accumulated_onlyAt fails env w
  have hbm : ∀ acct, OnlyAt env.key (accumulated fails env w).2 { (accumulated fails env w).2 with
      bm := Function.update (accumulated fails env w).2.bm env.key acct } := fun acct =>
    ⟨rfl, rfl, fun _ _ => rfl, fun _ hk => Function.update_of_ne hk ..⟩
  simp only
  split_ifs
  · split
    · exact (hacc.trans (hbm _)).trans (onlyAt_insert ..)
    · exact hacc.trans (hbm _)
  · exact hacc.trans (hbm _)

variable {c : Option CheckpointData} {r r' : RunState}

theorem foldCursor_onlyAt :
    OnlyAt env.key w.mem (foldCursor fails env c w).2 := by
  cases c with
  | none => exact OnlyAt.refl ..
  | some d =>
    rcases foldCursor_cases d with ⟨-, heq | ⟨part, ack, want, hasWant, heq⟩⟩ | heq <;> rw [heq]
    · exact OnlyAt.refl ..
    · exact foldBitmap_onlyAt
    · exact foldDelta_onlyAt

/-- What folding a batch or completing a resource does besides the run state. -/
structure Folded (env : Envelope) (w w' : World) : Prop where
  mem : OnlyAt env.key w.mem w'.mem
  store : w'.store = w.store ∨
    ∃ cp, Written w'.mem env.tenant env.run cp false w.store w'.store

theorem Folded.frame {w' : World} (h : Folded env w w') :
    w'.store.runs = w.store.runs ∧ w'.store.marks = w.store.marks := by
  rcases h.store with heq | ⟨cp, hw⟩
  · rw [heq]
    exact ⟨rfl, rfl⟩
  · exact hw.frame

theorem foldBatch_folded : Folded env w (foldBatch fails env c w) := by
  have hmem := @foldCursor_onlyAt fails env w c
  unfold foldBatch
  split
  · rename_i cp m heq
    rw [heq] at hmem
    exact ⟨hmem, .inr ⟨cp, persistLogged_written⟩⟩
  · rename_i m heq
    rw [heq] at hmem
    exact ⟨hmem, .inl rfl⟩

theorem flushCursor_folded :
    Folded env w (flushCursor fails env c w) := by
  cases c with
  | none => exact ⟨⟨rfl, rfl, fun _ _ => rfl, fun _ _ => rfl⟩, .inl rfl⟩
  | some cp =>
    exact ⟨⟨rfl, rfl, fun _ _ => rfl, fun _ _ => rfl⟩, .inr ⟨cp, persistLogged_written⟩⟩

theorem flushResource_folded : Folded env w (flushResource unmarshal fails env w) := by
  unfold flushResource
  split
  · obtain ⟨hmem, hstore⟩ := @flushCursor_folded fails env ⟨w.store, _⟩ _
    exact ⟨(onlyAt_insert ..).trans hmem, hstore⟩
  · exact flushCursor_folded

/-! ### The run row -/

@[simp] theorem update_run (env : Envelope) (d : Data) (r : RunState) :
    (update env d r).run = r.run := by
  cases d <;> rfl

@[simp] theorem update_tenant (env : Envelope) (d : Data) (r : RunState) :
    (update env d r).tenant = r.tenant := by
  cases d <;> rfl

@[simp] theorem update_request (env : Envelope) (d : Data) (r : RunState) :
    (update env d r).request = r.request := by
  cases d <;> rfl

variable (s tenant run r) in
/-- The row of a run as the store holds it. -/
structure Row : Prop where
  row : s.runs run = some r
  run : r.run = run
  tenant : r.tenant = tenant

theorem Row.loadRun (h : Row s tenant run r) : s.loadRun tenant run = .ok r := by
  obtain ⟨hrow, rfl, htenant⟩ := h
  exact loadRun_eq_ok.2 ⟨r, hrow, htenant, rfl⟩

theorem Row.of_runs (h : Row s tenant run r) (hruns : s'.runs = s.runs) : Row s' tenant run r :=
  ⟨by rw [hruns, h.row], h.run, h.tenant⟩

theorem Row.saveRun (h : Row s tenant run r) (hrun : r'.run = run) (htenant : r'.tenant = tenant) :
    s.saveRun r' = .ok (s.setRun run (r'.upsert (some r))) := by
  have hold : ∀ old ∈ s.runs r'.run, old.tenant = r'.tenant := by
    intro old hmem
    rw [hrun, h.row, mem_some_iff] at hmem
    rw [← hmem, h.tenant, htenant]
  rw [Store.saveRun, if_pos hold, hrun, h.row]

/-- Whether one of the two calls that fold a fact into the run row fails. -/
def mutateFails (fails : Call → Bool) : Bool := fails .mutateLoadRun || fails .mutateSaveRun

/-- The read-modify-write of a run that is there. -/
theorem mutate_eq (h : Row s env.tenant env.run r) (d : Data) :
    mutate fails env (update env d) s =
      if mutateFails fails then .error .failed
      else .ok (s.setRun env.run ((update env d r).upsert (some r))) := by
  have hsave : s.saveRun (update env d r) = .ok (s.setRun env.run ((update env d r).upsert (some r))) :=
    h.saveRun (by rw [update_run, h.run]) (by rw [update_tenant, h.tenant])
  unfold mutate mutateFails
  cases hload : fails .mutateLoadRun with
  | true => simp [attempt, hload]
  | false =>
    rw [attempt_of_not_fails _ hload, h.loadRun]
    cases hs : fails .mutateSaveRun with
    | true => simp [attempt, hs]
    | false => simp [attempt, hs, hsave]

/-- What the read-modify-write of a fact does to the store: the row of the run is replaced, with the
request it had. -/
theorem mutate_kept {d : Data} (h : mutate fails env (update env d) s = .ok s') :
    ∃ row', s' = s.setRun env.run row' ∧
      ∀ row, s.runs env.run = some row → row'.request = row.request := by
  unfold mutate at h
  cases hload : attempt fails .mutateLoadRun (s.loadRun env.tenant env.run) with
  | ok r =>
    simp only [hload] at h
    obtain ⟨row, hrow, -, rfl⟩ := loadRun_eq_ok.1 (attempt_eq_ok.1 hload).2
    have hsave := saveRun_eq_ok (attempt_eq_ok.1 h).2
    rw [update_run] at hsave
    refine ⟨_, hsave, fun row' hrow' => ?_⟩
    rw [hrow, Option.some.injEq] at hrow'
    subst hrow'
    exact update_request env d _
  | error e =>
    simp only [hload] at h
    cases e with
    | errNotFound =>
      -- the run is new to the tenant; a row of another tenant is not touched
      have hok := (attempt_eq_ok.1 h).2
      have hsave := saveRun_eq_ok hok
      rw [update_run] at hsave
      refine ⟨_, hsave, fun row hrow => ?_⟩
      have htenant : row.tenant = env.tenant := by
        unfold saveRun at hok
        split_ifs at hok with hold
        rw [update_run, update_tenant] at hold
        exact hold row hrow
      rw [loadRun_eq_ok.2 ⟨row, hrow, htenant, rfl⟩, attempt] at hload
      split_ifs at hload
      cases hload
    | failed => cases h
    | errVersionConflict => cases h

/-! ### The accumulated cursors of a run -/

theorem mem_pending {x : String} (h : (x, cp) ∈ m.pending run) :
    m.cp.lookup ⟨run, x⟩ = some (some cp) := by
  obtain ⟨⟨k, c⟩, hmem, he⟩ := List.mem_filterMap.1 h
  split_ifs at he with hrun
  obtain ⟨cp', rfl, heq⟩ := map_eq_some_iff.1 he
  cases heq
  subst hrun
  exact AList.mem_lookup_iff.2 hmem

theorem evictRun_lookup (run : RunID) (m : Module) (k : CkKey) :
    (evictRun run m).cp.lookup k = if k.run = run then none else m.cp.lookup k := by
  ext c
  rw [← mem_def, AList.mem_lookup_iff]
  simp only [evictRun, List.mem_filter, ne_eq, decide_not, Bool.not_eq_eq_eq_not, Bool.not_true,
    decide_eq_false_iff_not]
  split_ifs with hk
  · simp [hk]
  · rw [← mem_def, AList.mem_lookup_iff]
    simp [hk]

/-! ### Runs of the tracker -/

/-- One step of the tracker: a delivery, with the store calls that fail in it, or a restart. -/
inductive Step where
  | deliver (msg : Message) (fails : Call → Bool)
  | restart

variable (unmarshal w) in
/-- A restart empties the memory. -/
def step : Step → World
  | .deliver msg fails => (onFact unmarshal fails msg w).1
  | .restart => ⟨w.store, .new⟩

end Filament.Tracker
