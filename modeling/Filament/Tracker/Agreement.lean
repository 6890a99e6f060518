import Filament.Lib.AList
import Filament.Tracker.Cursors
import Filament.Tracker.ExactlyOnce

/-!
# Two trackers over one store

Two trackers that fold the same facts of an incremental or change-stream run, with every store call
succeeding. Cadence, boundary and cached modes decide nothing for such a run: only the accumulated
cursors and the counted acks do.

* `Agree` : the memories differ only in entries that the first has lost;
* `handOn`, `apply_eq` : what a non-terminal fact does, as one change of the row, one of the memory
  and one persisted cursor;
* `handOn_agree`, `handOn_resume` : facts that find the entry in both memories, and the batch after a
  loss;
* `terminal_agree` : terminal facts.
-/

namespace Filament.Tracker

open Checkpoint Function AList List

variable {unmarshal : String → Option (List String)} {s s' : Store} {w w' : World}
  {tenant : TenantID} {run : RunID} {request : RunRequest} {env : Envelope}
  {c : Option CheckpointData} {cp : CheckpointData} {site : String} {r : RunState} {promote : Bool}

/-- Every store call succeeds. -/
def noFailure : Call → Bool := fun _ => false

/-- The cursor a fact carries. -/
def Data.cursor : Data → Option CheckpointData
  | .batchWritten _ _ cp _ => cp
  | .checkpointSaved cp => cp
  | _ => none

/-- The cursor of a written batch. -/
def Data.batchCursor : Data → Option CheckpointData
  | .batchWritten _ _ cp _ => cp
  | _ => none

/-- The fact reads or writes the cursor of its resource. -/
def Data.movesCursor : Data → Bool
  | .batchWritten _ _ cp _ => cp.isSome
  | .checkpointSaved cp => cp.isSome
  | .resourceCompleted _ _ => true
  | _ => false

/-! ### Cursors of cross-run progress -/

theorem attempt_noFailure {α : Type} (call : Call) (x : Except StoreError α) :
    Call.attempt noFailure call x = x := rfl

section

variable (hrow : Row s tenant run r) (hcross : r.request.crossRun cp.resourceName = true)
include hrow hcross

/-- Before a commit, cross-run progress goes to the store only as replayed attempt state, whatever
the boundary. -/
theorem persistCheckpoint_crossRun (m m' : Module) :
    persistCheckpoint noFailure m s tenant run site cp promote =
      persistCheckpoint noFailure m' s tenant run site cp promote := by
  unfold persistCheckpoint
  cases promote with
  | true => simp only [Bool.not_true, Bool.false_and, Bool.and_false, Bool.false_eq_true, if_false]
  | false =>
    simp only [attempt_noFailure, hrow.loadRun, hcross, Bool.not_false, Bool.and_true,
      Bool.true_and, if_true, ite_self]

theorem persistLogged_crossRun (m m' : Module) :
    persistLogged noFailure m s tenant run site cp =
      persistLogged noFailure m' s tenant run site cp := by
  unfold persistLogged
  rw [persistCheckpoint_crossRun hrow hcross m m']

theorem persistLogged_of_not_replay {m : Module} (hreplay : requiresReplay (some cp) = false) :
    persistLogged noFailure m s tenant run site cp = s := by
  unfold persistLogged persistCheckpoint
  simp only [attempt_noFailure, hrow.loadRun, hcross, hreplay, Bool.not_false, Bool.and_true,
    Bool.true_and, if_true, Bool.false_eq_true, if_false, ite_self]

end

/-! ### Two memories that differ by lost entries -/

/-- The first memory holds the accumulated cursors of the second at the held keys, and counts the same
acks for the run. -/
structure Agree (run : RunID) (held : CkKey → Bool) (m m' : Module) : Prop where
  cp : m.cp = m'.cp.keep held
  bm : ∀ x, m.bm ⟨run, x⟩ = m'.bm ⟨run, x⟩

variable {held : CkKey → Bool} {m m' n n' : Module} {k : CkKey} {merged d : CheckpointData}

theorem update_held (hk : held k = true) : Function.update held k true = held := by
  funext k'
  by_cases h : k' = k
  · rw [h, update_self, hk]
  · rw [update_of_ne h]

section

variable (h : Agree run held m m') {v : Option CheckpointData}
include h

theorem Agree.lookup (hk : held k = true) :
    m.cp.lookup k = m'.cp.lookup k := by
  rw [h.cp, lookup_keep_of_pos hk]

theorem Agree.lookup_lost (hk : held k = false) :
    m.cp.lookup k = none := by
  rw [h.cp, lookup_keep_of_neg hk]

theorem Agree.of_same (hcp : n.cp = m.cp) (hbm : n.bm = m.bm) (hcp' : n'.cp = m'.cp)
    (hbm' : n'.bm = m'.bm) : Agree run held n n' :=
  ⟨by rw [hcp, hcp', h.cp], by rw [hbm, hbm']; exact h.bm⟩

theorem Agree.insert (hcp : n.cp = m.cp.insert k v) (hbm : n.bm = m.bm)
    (hcp' : n'.cp = m'.cp.insert k v) (hbm' : n'.bm = m'.bm) :
    Agree run (Function.update held k true) n n' := by
  refine ⟨?_, by rw [hbm, hbm']; exact h.bm⟩
  rw [hcp, hcp', h.cp, keep_insert (update_self k true held)]
  exact insert_keep_congr (β := fun _ => Option CheckpointData)
    (fun k' hk' => (update_of_ne hk' true held).symm) v _

theorem Agree.insert_held (hk : held k = true) (hcp : n.cp = m.cp.insert k v) (hbm : n.bm = m.bm)
    (hcp' : n'.cp = m'.cp.insert k v) (hbm' : n'.bm = m'.bm) : Agree run held n n' := by
  have hag := h.insert hcp hbm hcp' hbm'
  rwa [update_held hk] at hag

theorem Agree.count (k : CkKey) (acct : BmAccount) :
    Agree run held { m with bm := Function.update m.bm k (some acct) }
      { m' with bm := Function.update m'.bm k (some acct) } := by
  refine ⟨h.cp, fun x => ?_⟩
  simp only [update_apply]
  split_ifs
  · rfl
  · exact h.bm x

theorem accumulated_agree (hk : held env.key = true) :
    (accumulated noFailure env ⟨s, m⟩).1 = (accumulated noFailure env ⟨s, m'⟩).1 ∧
      Agree run held (accumulated noFailure env ⟨s, m⟩).2 (accumulated noFailure env ⟨s, m'⟩).2 := by
  unfold accumulated
  simp only [h.lookup hk]
  cases m'.cp.lookup env.key with
  | some base => exact ⟨rfl, h⟩
  | none => exact ⟨rfl, h.insert_held hk rfl rfl rfl rfl⟩

end

theorem countBatch_mem {fails : Call → Bool} {always : Bool} :
    (countBatch fails env merged always w).2.cp = w.mem.cp.insert env.key (some merged) ∧
      (countBatch fails env merged always w).2.bm = w.mem.bm := by
  have hcadence : ∀ w : World, (cadence fails env.tenant env.run w).2.bm = w.mem.bm := by
    intro w
    unfold cadence
    cases w.mem.every env.run <;> rfl
  unfold countBatch
  cases always with
  | true => exact ⟨rfl, rfl⟩
  | false =>
    simp only [Bool.false_eq_true, if_false]
    split_ifs <;> exact ⟨cadence_cp, hcadence _⟩

/-- Cursors handed on to be persisted: the same one, or none that would be written before a
commit. -/
def Handed (o o' : Option CheckpointData) : Prop :=
  o = o' ∨ (∀ cp ∈ o, requiresReplay (some cp) = false) ∧ ∀ cp ∈ o', requiresReplay (some cp) = false

/-- The cadence only decides about cursors that are not replayed. -/
theorem countBatch_handed :
    Handed (countBatch noFailure env merged (requiresReplay (some merged)) w).1
      (countBatch noFailure env merged (requiresReplay (some merged)) w').1 := by
  cases hreplay : requiresReplay (some merged) with
  | true => exact .inl rfl
  | false =>
    refine .inr ⟨fun cp hcp => ?_, fun cp hcp => ?_⟩
    · rw [countBatch_spec.1 cp hcp, hreplay]
    · rw [countBatch_spec.1 cp hcp, hreplay]

/-- Both trackers fold the cursor of a batch into the same held entry. -/
theorem foldCursor_agree (h : Agree run held m m') (hrun : env.run = run)
    (hk : held env.key = true) :
    Agree run held (foldCursor noFailure env c ⟨s, m⟩).2 (foldCursor noFailure env c ⟨s, m'⟩).2 ∧
      Handed (foldCursor noFailure env c ⟨s, m⟩).1 (foldCursor noFailure env c ⟨s, m'⟩).1 := by
  obtain ⟨hbase, hacc⟩ := @accumulated_agree s run env held m m' h hk
  cases c with
  | none => exact ⟨h, .inl rfl⟩
  | some d =>
    rcases foldCursor_cases d with ⟨-, heq | ⟨part, ack, want, hasWant, heq⟩⟩ | heq <;>
      simp only [heq]
    · exact ⟨h, .inl rfl⟩
    · have hbm : (accumulated noFailure env ⟨s, m⟩).2.bm env.key =
          (accumulated noFailure env ⟨s, m'⟩).2.bm env.key := by
        subst hrun
        exact hacc.bm env.resource
      simp only [foldBitmap, hbase, hbm]
      have hcounted := hacc.count env.key ((((accumulated noFailure env ⟨s, m'⟩).2.bm
        env.key).getD newBmAccount).count part ack want hasWant)
      split_ifs
      · cases completeShard (accumulated noFailure env ⟨s, m'⟩).1 part with
        | none => exact ⟨hcounted, .inl rfl⟩
        | some merged => exact ⟨hcounted.insert_held hk rfl rfl rfl rfl, .inl rfl⟩
      · exact ⟨hcounted, .inl rfl⟩
    · simp only [foldDelta, hbase]
      cases mergeDelta (accumulated noFailure env ⟨s, m'⟩).1 d with
      | none => exact ⟨hacc, .inl rfl⟩
      | some merged =>
        exact ⟨hacc.insert_held hk countBatch_mem.1 countBatch_mem.2 countBatch_mem.1
          countBatch_mem.2, countBatch_handed⟩

/-- The batch after a restart: from the stored cursor and from the accumulated one it makes the same
cursor, which both trackers hold again. -/
theorem foldCursor_resume (h : Agree run held m m') (hk : held env.key = false)
    {stored acc : Option CheckpointData}
    (hload : loadCheckpoint noFailure s env.tenant env.run env.resource = stored)
    (hacc : m'.cp.lookup env.key = some acc) (hstored : mergeDelta stored d = some merged)
    (hmerged : mergeDelta acc d = some merged) :
    Agree run (Function.update held env.key true) (foldCursor noFailure env (some d) ⟨s, m⟩).2
        (foldCursor noFailure env (some d) ⟨s, m'⟩).2 ∧
      Handed (foldCursor noFailure env (some d) ⟨s, m⟩).1
        (foldCursor noFailure env (some d) ⟨s, m'⟩).1 := by
  have hlost : accumulated noFailure env ⟨s, m⟩ = (stored, { m with
      cp := m.cp.insert env.key stored }) := by
    simp only [accumulated, h.lookup_lost hk, hload]
  have hkept : accumulated noFailure env ⟨s, m'⟩ = (acc, m') := by
    simp only [accumulated, hacc]
  rcases foldCursor_cases d with ⟨hnone, -⟩ | heq
  · cases (hnone acc).symm.trans hmerged
  simp only [heq, foldDelta, hlost, hkept, hstored, hmerged]
  -- the entry made by loading is replaced by the merged cursor
  refine ⟨h.insert (v := some merged) ?_ countBatch_mem.2 countBatch_mem.1 countBatch_mem.2,
    countBatch_handed⟩
  rw [countBatch_mem.1, insert_insert]

/-! ### One fact -/

variable {f : Fact} {r r' : RunState} {o o' : Option CheckpointData} {resource : String}

/-- Persists a cursor that is handed on before a commit. -/
def persistHanded (m : Module) (s : Store) (env : Envelope) : Option CheckpointData → Store
  | none => s
  | some cp => persistLogged noFailure m s env.tenant env.run env.resource cp

variable (unmarshal f) in
/-- What a non-terminal fact does to the memory, and the cursor it hands on. -/
def handOn (s : Store) (m : Module) : Option CheckpointData × Module :=
  match f.data with
  | .batchWritten _ _ cp policy =>
    foldCursor noFailure f.env cp ⟨s, rememberBoundary f.env policy m⟩
  | .resourceCompleted _ _ =>
    match promoteIncrementalBackfill unmarshal (resourceCursor noFailure f.env ⟨s, m⟩) with
    | some promoted =>
      (some promoted, { m with
        cp := m.cp.insert f.env.key (some promoted)
        since := Function.update m.since f.env.key 0 })
    | none =>
      (resourceCursor noFailure f.env ⟨s, m⟩,
        { m with since := Function.update m.since f.env.key 0 })
  | .checkpointSaved cp => (cp, m)
  | _ => (none, m)

/-- The store with the run row of a fact. -/
def rowFolded (f : Fact) (s : Store) (r : RunState) : Store :=
  if f.data.mutates then s.setRun f.env.run ((update f.env f.data r).upsert (some r)) else s

theorem foldBatch_eq :
    foldBatch noFailure env c w =
      ⟨persistHanded (foldCursor noFailure env c w).2 w.store env (foldCursor noFailure env c w).1,
        (foldCursor noFailure env c w).2⟩ := by
  unfold foldBatch
  split <;> rename_i heq <;> rw [heq] <;> rfl

theorem flushCursor_eq :
    flushCursor noFailure env c w =
      ⟨persistHanded { w.mem with since := Function.update w.mem.since env.key 0 } w.store env c,
        { w.mem with since := Function.update w.mem.since env.key 0 }⟩ := by
  cases c <;> rfl

theorem applyCheckpoint_eq :
    (applyCheckpoint noFailure env c w).1 = ⟨persistHanded w.mem w.store env c, w.mem⟩ := by
  cases c with
  | none => rfl
  | some cp =>
    simp only [applyCheckpoint, persistHanded, persistLogged]
    split <;> rfl

/-- A non-terminal fact changes the row, the memory, and persists what it hands on. -/
theorem apply_eq (hrow : Row s f.env.tenant f.env.run r) (hterm : f.data.terminal = false) :
    (apply unmarshal noFailure f ⟨s, m⟩).1 =
      ⟨persistHanded (handOn unmarshal f (rowFolded f s r) m).2 (rowFolded f s r) f.env
        (handOn unmarshal f (rowFolded f s r) m).1, (handOn unmarshal f (rowFolded f s r) m).2⟩ := by
  obtain ⟨env, d⟩ := f
  have hmutate : ∀ next m, (mutateThen noFailure env d next ⟨s, m⟩).1 =
      next ⟨s.setRun env.run ((update env d r).upsert (some r)), m⟩ := by
    intro next m
    unfold mutateThen
    rw [mutate_eq hrow]
    rfl
  cases d with
  | runStarted | resourceStarted | resourceFailed error | heartbeat c b p => exact hmutate ..
  | resourceCompleted records bytes =>
    refine (hmutate ..).trans ?_
    simp only [flushResource, handOn, rowFolded, Data.mutates, if_true, flushCursor_eq]
    cases promoteIncrementalBackfill unmarshal (resourceCursor noFailure env ⟨_, m⟩) <;> rfl
  | batchWritten records bytes cp policy =>
    refine (hmutate ..).trans ?_
    rw [foldBatch_eq]
    rfl
  | checkpointSaved cp => exact applyCheckpoint_eq
  | runRequested => rfl
  | runPauseRequested => rfl
  | runCancelRequested => rfl
  | notifierAttempted => rfl
  | other => rfl
  | _ => simp [Data.terminal] at hterm

/-- The accumulated cursors of the run are named after their resources, whose progress is shared
across runs. -/
def Named (request : RunRequest) (run : RunID) (m : Module) : Prop :=
  ∀ x cp, m.cp.lookup ⟨run, x⟩ = some (some cp) →
    cp.resourceName = x ∧ request.crossRun x = true

theorem Agree.named (h : Agree run held m m') (hnamed : Named request run m') :
    Named request run m := by
  intro x cp hlook
  cases hk : held ⟨run, x⟩ with
  | true => exact hnamed x cp (by rw [← h.lookup hk, hlook])
  | false =>
    rw [h.lookup_lost hk] at hlook
    cases hlook

variable (run request f) in
/-- The cursors of the facts of an incremental or change-stream run. -/
structure FactOf : Prop where
  run : f.env.run = run
  names : ∀ d ∈ f.data.cursor, d.resourceName = f.env.resource
  crossRun : f.data.movesCursor = true → request.crossRun f.env.resource = true

theorem Agree.rememberBoundary (h : Agree run held m m') (env : Envelope)
    (policy : CheckpointPolicy) :
    Agree run held (rememberBoundary env policy m) (rememberBoundary env policy m') := by
  unfold Tracker.rememberBoundary
  split_ifs
  · exact h
  · exact h.of_same rfl rfl rfl rfl

/-- Two trackers whose memories agree where the fact reads them hand on the same cursor, or ones that
are not written before a commit. -/
theorem handOn_agree (h : Agree run held m m') (hrun : f.env.run = run)
    (hk : f.data.movesCursor = true → held f.env.key = true) :
    Agree run held (handOn unmarshal f s m).2 (handOn unmarshal f s m').2 ∧
      Handed (handOn unmarshal f s m).1 (handOn unmarshal f s m').1 := by
  obtain ⟨env, d⟩ := f
  cases d with
  | batchWritten records bytes cp policy =>
    cases cp with
    | none => exact ⟨h.rememberBoundary env policy, .inl rfl⟩
    | some d => exact foldCursor_agree (h.rememberBoundary env policy) hrun (hk rfl)
  | resourceCompleted records bytes =>
    have hcursor : resourceCursor noFailure env ⟨s, m⟩ = resourceCursor noFailure env ⟨s, m'⟩ := by
      unfold resourceCursor
      rw [h.lookup (hk rfl)]
    simp only [handOn, hcursor]
    split
    · exact ⟨h.insert_held (hk rfl) rfl rfl rfl rfl, .inl rfl⟩
    · exact ⟨h.of_same rfl rfl rfl rfl, .inl rfl⟩
  | _ => exact ⟨h, .inl rfl⟩

/-- A fact leaves the modes, and the cursors of other resources. -/
theorem handOn_frame :
    (handOn unmarshal f s m).2.modes = m.modes ∧
      ∀ k, k ≠ f.env.key → (handOn unmarshal f s m).2.cp.lookup k = m.cp.lookup k := by
  obtain ⟨env, d⟩ := f
  cases d with
  | batchWritten records bytes cp policy =>
    have h := @foldCursor_onlyAt noFailure env ⟨s, rememberBoundary env policy m⟩ cp
    refine ⟨h.modes.trans (rememberBoundary_modes ..), fun k hk => (h.cp k hk).trans ?_⟩
    rw [rememberBoundary_cp]
  | resourceCompleted records bytes =>
    simp only [handOn]
    split
    · exact ⟨rfl, fun k hk => lookup_insert_ne hk⟩
    · exact ⟨rfl, fun _ _ => rfl⟩
  | _ => exact ⟨rfl, fun _ _ => rfl⟩

theorem handOn_of_not_moves (h : f.data.movesCursor = false) :
    (handOn unmarshal f s m).1 = none ∧ (handOn unmarshal f s m).2.cp = m.cp := by
  obtain ⟨env, d⟩ := f
  cases d with
  | batchWritten records bytes cp policy =>
    cases cp with
    | none => exact ⟨rfl, rememberBoundary_cp ..⟩
    | some d => cases h
  | checkpointSaved cp =>
    cases cp with
    | none => exact ⟨rfl, rfl⟩
    | some d => cases h
  | resourceCompleted records bytes => cases h
  | _ => exact ⟨rfl, rfl⟩

section

variable (hnamed : Named request run m)
include hnamed

theorem resourceCursor_name (hrun : env.run = run) {cp : CheckpointData}
    (h : resourceCursor noFailure env ⟨s, m⟩ = some cp) :
    cp.resourceName = env.resource := by
  subst hrun
  rcases resourceCursor_eq_some h with hlook | hload
  · exact (hnamed _ _ hlook).1
  · exact (loadCheckpoint_spec hload).1

/-- What a fact hands on and leaves accumulated is named after its resource. -/
theorem handOn_names (hf : FactOf run request f) (hmoves : f.data.movesCursor = true) :
    (∀ cp, (handOn unmarshal f s m).1 = some cp → cp.resourceName = f.env.resource) ∧
      ∀ cp, (handOn unmarshal f s m).2.cp.lookup f.env.key = some (some cp) →
        cp.resourceName = f.env.resource := by
  obtain ⟨env, d⟩ := f
  obtain ⟨hrun, hnames, -⟩ := hf
  have hkept : ∀ cp, m.cp.lookup env.key = some (some cp) → cp.resourceName = env.resource := by
    intro cp hlook
    subst hrun
    exact (hnamed _ _ hlook).1
  cases d with
  | batchWritten records bytes cp policy =>
    obtain ⟨hret, hlook⟩ := @foldCursor_names noFailure ⟨s, rememberBoundary env policy m⟩ env cp
    have hname : ∀ name, Names env ⟨s, rememberBoundary env policy m⟩ cp name →
        name = env.resource := by
      rintro name (rfl | ⟨b, hb, rfl⟩ | ⟨d, hd, rfl⟩)
      · rfl
      · rw [rememberBoundary_cp] at hb
        exact hkept b hb
      · exact hnames d hd
    exact ⟨fun cp h => hname _ (hret cp h), fun cp h => hname _ (hlook cp h)⟩
  | resourceCompleted records bytes =>
    have hcursor := fun cp => @resourceCursor_name s run request env m hnamed hrun cp
    simp only [handOn]
    split
    · rename_i promoted hpromote
      obtain ⟨cp, hcp, -, hname, -⟩ := promoteIncrementalBackfill_spec hpromote
      have hpromoted : promoted.resourceName = env.resource := hname.trans (hcursor cp hcp)
      refine ⟨fun cp h => Option.some.inj h ▸ hpromoted, fun cp h => ?_⟩
      rw [lookup_insert, Option.some.injEq, Option.some.injEq] at h
      exact h ▸ hpromoted
    · exact ⟨hcursor, hkept⟩
  | checkpointSaved cp => exact ⟨hnames, hkept⟩
  | _ => cases hmoves

theorem handOn_named (hf : FactOf run request f) :
    (∀ cp ∈ (handOn unmarshal f s m).1, cp.resourceName = f.env.resource ∧
        request.crossRun f.env.resource = true) ∧
      Named request run (handOn unmarshal f s m).2 := by
  cases hmoves : f.data.movesCursor with
  | false =>
    obtain ⟨hnone, hcp⟩ := @handOn_of_not_moves unmarshal s m f hmoves
    refine ⟨fun cp h => ?_, fun x cp h => hnamed x cp (by rw [← hcp]; exact h)⟩
    rw [hnone] at h
    cases h
  | true =>
    obtain ⟨hret, hlook⟩ := @handOn_names unmarshal s run request m f hnamed hf hmoves
    refine ⟨fun cp h => ⟨hret cp h, hf.crossRun hmoves⟩, fun x cp h => ?_⟩
    by_cases hkey : (⟨run, x⟩ : CkKey) = f.env.key
    · have hx : x = f.env.resource := congrArg CkKey.resource hkey
      rw [hkey] at h
      rw [hx]
      exact ⟨hlook cp h, hf.crossRun hmoves⟩
    · rw [handOn_frame.2 _ hkey] at h
      exact hnamed x cp h

end

/-! ### The stored cursors -/

/-- Two trackers persist the same. -/
theorem persistHanded_eq (hrow : Row s env.tenant env.run r) (hand : Handed o o')
    (ho : ∀ cp ∈ o, r.request.crossRun cp.resourceName = true)
    (ho' : ∀ cp ∈ o', r.request.crossRun cp.resourceName = true) :
    persistHanded m s env o = persistHanded m' s env o' := by
  rcases hand with rfl | ⟨hreplay, hreplay'⟩
  · cases o with
    | none => rfl
    | some cp => exact persistLogged_crossRun hrow (ho cp rfl) m m'
  · have hsame : ∀ (m : Module) (o : Option CheckpointData),
        (∀ cp ∈ o, r.request.crossRun cp.resourceName = true) →
        (∀ cp ∈ o, requiresReplay (some cp) = false) → persistHanded m s env o = s := by
      intro m o ho hreplay
      cases o with
      | none => rfl
      | some cp => exact persistLogged_of_not_replay hrow (ho cp rfl) (hreplay cp rfl)
    rw [hsame m o ho hreplay, hsame m' o' ho' hreplay']

/-- Before a commit, persisting leaves the rows and the cursors of the pipeline. -/
theorem persistHanded_frame :
    (persistHanded m s env o).runs = s.runs ∧
      (persistHanded m s env o).resourceCheckpoints = s.resourceCheckpoints := by
  cases o with
  | none => exact ⟨rfl, rfl⟩
  | some cp =>
    have hw := @persistLogged_written noFailure m s env.tenant env.run env.resource cp
    refine ⟨hw.frame.1, ?_⟩
    rcases hw.uncommitted with heq | heq <;> rw [persistHanded, heq]
    rfl

theorem persistHanded_other (ho : ∀ cp ∈ o, cp.resourceName = env.resource)
    (hne : resource ≠ env.resource) :
    (persistHanded m s env o).checkpoints (env.run, resource) =
      s.checkpoints (env.run, resource) := by
  cases o with
  | none => rfl
  | some cp =>
    have hw := @persistLogged_written noFailure m s env.tenant env.run env.resource cp
    have hkey : (env.run, resource) ≠ (env.run, cp.resourceName) := by
      rw [ho cp rfl]
      exact fun heq => hne (congrArg Prod.snd heq)
    rcases hw.uncommitted with heq | heq <;> rw [persistHanded, heq]
    exact update_of_ne hkey ..

/-- The cursor recovered for a resource depends on its stored cursors and on the request. -/
theorem loadCheckpoint_congr (hrow : Row s tenant run r) (hrow' : Row s' tenant run r')
    (hrequest : r'.request = r.request)
    (hcp : s'.checkpoints (run, resource) = s.checkpoints (run, resource))
    (hres : s'.resourceCheckpoints = s.resourceCheckpoints) :
    loadCheckpoint noFailure s' tenant run resource =
      loadCheckpoint noFailure s tenant run resource := by
  simp only [loadCheckpoint, storedCheckpoint, runCheckpoint, attempt_noFailure, hrow.loadRun,
    hrow'.loadRun, hrequest, Store.loadCheckpoint, Store.loadResourceCheckpoint, hcp, hres]

/-! ### Terminal facts -/

/-- With every entry of the run held, both trackers have the same cursors to flush. -/
theorem pending_agree (h : Agree run held m m') (hheld : ∀ x, held ⟨run, x⟩ = true) :
    m.pending run = m'.pending run := by
  unfold Module.pending
  rw [h.cp, entries_keep, filterMap_filter]
  refine filterMap_congr fun e _ => ?_
  obtain ⟨⟨run', x⟩, v⟩ := e
  by_cases hrun : run' = run
  · subst hrun
    rw [hheld x, if_pos rfl]
  · simp [hrun]

theorem persistAll_agree {pending : List (String × CheckpointData)} (hrow : Row s tenant run r)
    (hcross : ∀ e ∈ pending, r.request.crossRun e.2.resourceName = true) (m m' : Module) :
    persistAll noFailure m tenant run promote s pending =
      persistAll noFailure m' tenant run promote s pending := by
  induction pending generalizing s with
  | nil => rfl
  | cons e pending ih =>
    obtain ⟨resource, cp⟩ := e
    have hrest : ∀ e ∈ pending, r.request.crossRun e.2.resourceName = true := fun e he =>
      hcross e (.tail _ he)
    simp only [persistAll]
    rw [persistCheckpoint_crossRun hrow (hcross _ (.head _)) m m']
    cases hp : persistCheckpoint noFailure m' s tenant run resource cp promote with
    | error e => simp only [ih hrow hrest]
    | ok res => exact ih (hrow.of_runs (persistCheckpoint_written hp).frame.1) hrest

theorem Agree.evict (h : Agree run held m m') (run' : RunID) :
    Agree run held (evictRun run' m) (evictRun run' m') := by
  constructor
  · apply ext
    simp only [evictRun, entries_keep, h.cp, filter_filter]
    exact filter_congr fun e _ => Bool.and_comm ..
  · intro x
    simp only [evictRun]
    split_ifs
    · rfl
    · exact h.bm x

theorem persistAll_frame {fails : Call → Bool} {promote : Bool}
    {pending : List (String × CheckpointData)} :
    (persistAll fails m tenant run promote s pending).1.runs = s.runs := by
  induction pending generalizing s with
  | nil => rfl
  | cons e pending ih =>
    obtain ⟨resource, cp⟩ := e
    simp only [persistAll]
    cases hp : persistCheckpoint fails m s tenant run resource cp promote with
    | error e => exact ih
    | ok res => exact ih.trans (persistCheckpoint_written hp).frame.1

/-- What the handler leaves of the memory: no new modes, and no new cursors. -/
structure Shrinks (m n : Module) : Prop where
  modes : ∀ k, ∀ mode ∈ n.modes.lookup k, mode ∈ m.modes.lookup k
  cp : ∀ k, ∀ c ∈ n.cp.lookup k, c ∈ m.cp.lookup k

theorem Shrinks.named (h : Shrinks m n) (hnamed : Named request run m) : Named request run n :=
  fun x cp hlook => hnamed x cp (h.cp _ _ hlook)

/-- The memory after a flush. -/
def settled (run : RunID) (m : Module) : Module :=
  { m with since := fun key =>
      if key.run = run ∧ (m.cp.lookup key).isSome then 0 else m.since key }

theorem evictRun_shrinks (run : RunID) (m : Module) :
    Shrinks m (evictRun run (settled run m)) := by
  constructor
  · intro k mode h
    rw [mem_lookup_iff] at h ⊢
    exact (mem_filter.1 h).1
  · intro k c h
    rw [mem_lookup_iff] at h ⊢
    exact (mem_filter.1 h).1

/-- A terminal fact flushes the cursors of the run, then folds the row. -/
theorem terminal_eq (hrow : Row s env.tenant env.run r) (promote : Bool) (d : Data)
    {flushed : Store × Bool}
    (hflush : persistAll noFailure (settled env.run m) env.tenant env.run promote s
      (m.pending env.run) = flushed) :
    terminal noFailure env promote (update env d) ⟨s, m⟩ =
      if flushed.2 then (⟨flushed.1, settled env.run m⟩, .error .failed)
      else (⟨flushed.1.setRun env.run ((update env d r).upsert (some r)),
        evictRun env.run (settled env.run m)⟩, .ok ()) := by
  have hrow' : Row flushed.1 env.tenant env.run r := by
    rw [← hflush]
    exact hrow.of_runs persistAll_frame
  unfold terminal flushRunFor
  simp only
  rw [show ({ m with since := fun key =>
    if key.run = env.run ∧ (m.cp.lookup key).isSome then 0 else m.since key} : Module) =
      settled env.run m from rfl, hflush, mutate_eq hrow']
  rfl

/-- Both trackers fold a terminal fact into the same store. -/
theorem terminal_agree (h : Agree env.run held m m') (hheld : ∀ x, held ⟨env.run, x⟩ = true)
    (hrow : Row s env.tenant env.run r) (hnamed : Named r.request env.run m') (promote : Bool)
    (d : Data) :
    ∃ s₁ n n' res r', terminal noFailure env promote (update env d) ⟨s, m⟩ = (⟨s₁, n⟩, res) ∧
      terminal noFailure env promote (update env d) ⟨s, m'⟩ = (⟨s₁, n'⟩, res) ∧
      Agree env.run held n n' ∧ Shrinks m n ∧ Shrinks m' n' ∧
      Row s₁ env.tenant env.run r' ∧ r'.request = r.request := by
  have hcross : ∀ e ∈ m'.pending env.run, r.request.crossRun e.2.resourceName = true := by
    rintro ⟨x, cp⟩ he
    obtain ⟨hname, hcross⟩ := hnamed x cp (mem_pending he)
    rw [hname]
    exact hcross
  have hflush : persistAll noFailure (settled env.run m) env.tenant env.run promote s
      (m'.pending env.run) = persistAll noFailure (settled env.run m') env.tenant env.run promote s
      (m'.pending env.run) := persistAll_agree hrow hcross ..
  rw [terminal_eq hrow promote d rfl, terminal_eq hrow promote d rfl, pending_agree h hheld, hflush]
  have hrow' := hrow.of_runs (@persistAll_frame s env.tenant env.run (settled env.run m') noFailure
    promote (m'.pending env.run))
  generalize persistAll noFailure (settled env.run m') env.tenant env.run promote s
    (m'.pending env.run) = flushed at hrow' ⊢
  obtain ⟨s₁, failed⟩ := flushed
  have hsettled : Agree env.run held (settled env.run m) (settled env.run m') :=
    h.of_same rfl rfl rfl rfl
  cases failed with
  | true =>
    exact ⟨s₁, _, _, _, r, rfl, rfl, hsettled, ⟨fun _ _ => id, fun _ _ => id⟩,
      ⟨fun _ _ => id, fun _ _ => id⟩, hrow', rfl⟩
  | false =>
    refine ⟨_, _, _, _, (update env d r).upsert (some r), rfl, rfl, hsettled.evict env.run,
      evictRun_shrinks env.run m, evictRun_shrinks env.run m',
      ⟨Store.setRun_runs_self .., ?_, ?_⟩, update_request env d r⟩
    · exact (update_run env d r).trans hrow'.run
    · exact (update_tenant env d r).trans hrow'.tenant

/-! ### The handler -/

variable {seq : ℕ} {as : List Step}

variable (s tenant run seq) in
/-- The store with another mark. -/
def marked : Store :=
  { s with marks := Function.update s.marks (tenant, run) (some seq) }

theorem dedupSeen_fresh (hrow : Row s tenant run r)
    (hfresh : ∀ last ∈ s.marks (tenant, run), last < seq) :
    s.dedupSeen tenant run seq = .ok (false, marked s tenant run seq) := by
  have hseen : ¬ ∃ last ∈ s.marks (tenant, run), seq ≤ last := by
    rintro ⟨last, hlast, hle⟩
    exact absurd (hfresh last hlast) (Nat.not_lt_of_le hle)
  rw [Store.dedupSeen, if_neg (by rw [hrow.row]; nofun), if_neg hseen]
  rfl

theorem executionMode_noFailure (h : Holds tenant run ⟨s, m⟩ r) :
    ∃ n, executionMode noFailure tenant run ⟨s, m⟩ =
        .ok (r.request.options.execution.normalize, n) ∧
      Holds tenant run ⟨s, n⟩ r ∧ n.cp = m.cp ∧ n.bm = m.bm := by
  rcases @executionMode_spec noFailure tenant run r ⟨s, m⟩ h with herror | ⟨n, hok, hn⟩
  · exfalso
    unfold executionMode at herror
    split at herror
    · cases herror
    · rw [attempt_noFailure, h.row.loadRun] at herror
      cases herror
  · obtain ⟨hcp, -, hbm⟩ := executionMode_same hok
    exact ⟨n, hok, hn, hcp, hbm⟩

variable (unmarshal seq) in
theorem onFact_fold (htenant : f.env.tenant = tenant) (hrun : f.env.run = run)
    (hbounded : r.request.options.execution.normalize ≠ .continuous)
    (h : Holds tenant run ⟨s, m⟩ r) (hnotify : f.data ≠ .notifierAttempted) :
    ∃ n, Holds tenant run ⟨s, n⟩ r ∧ n.cp = m.cp ∧ n.bm = m.bm ∧
      onFact unmarshal noFailure ⟨some f, seq⟩ ⟨s, m⟩ = fold unmarshal noFailure f seq ⟨s, n⟩ := by
  obtain ⟨n, hmode, hn, hcp, hbm⟩ := executionMode_noFailure h
  refine ⟨n, hn, hcp, hbm, ?_⟩
  unfold onFact
  simp only [if_neg hnotify, htenant, hrun, hmode, if_neg hbounded]

theorem fold_fresh (htenant : f.env.tenant = tenant) (hrun : f.env.run = run)
    (hrow : Row s tenant run r) (hterm : f.data.terminal = false)
    (hfresh : ∀ last ∈ s.marks (tenant, run), last < seq) :
    fold unmarshal noFailure f seq ⟨s, m⟩ =
      apply unmarshal noFailure f ⟨marked s tenant run seq, m⟩ := by
  unfold fold
  rw [hterm, if_neg Bool.false_ne_true, attempt_noFailure, htenant, hrun,
    dedupSeen_fresh hrow hfresh]

variable (unmarshal) in
/-- What a fact makes of the cursor of its resource: the batch's delta is merged into it, or the
completed backfill becomes its watermark. -/
def Data.makes (base : Option CheckpointData) : Data → Option CheckpointData
  | .batchWritten _ _ (some d) _ => mergeDelta base d
  | .resourceCompleted _ _ => promoteIncrementalBackfill unmarshal base
  | _ => none

/-- Where a fact makes the same of a lost entry and of the stored cursor, it makes up for the loss. -/
theorem handOn_resume (h : Agree run held m m') (hk : held f.env.key = false)
    {acc : Option CheckpointData} (hacc : m'.cp.lookup f.env.key = some acc) {merged : CheckpointData}
    (hstored : f.data.makes unmarshal (loadCheckpoint noFailure s f.env.tenant f.env.run
      f.env.resource) = some merged) (hmerged : f.data.makes unmarshal acc = some merged) :
    Agree run (Function.update held f.env.key true) (handOn unmarshal f s m).2
        (handOn unmarshal f s m').2 ∧
      Handed (handOn unmarshal f s m).1 (handOn unmarshal f s m').1 := by
  obtain ⟨env, data⟩ := f
  cases data with
  | batchWritten records bytes cp policy =>
    cases cp with
    | none => cases hmerged
    | some d =>
      exact foldCursor_resume (h.rememberBoundary env policy) hk rfl
        (by rw [rememberBoundary_cp]; exact hacc) hstored hmerged
  | resourceCompleted records bytes =>
    cases acc with
    | none => cases hmerged
    | some acc =>
      simp only [Data.makes] at hstored hmerged
      simp only [handOn, resourceCursor, h.lookup_lost hk, hacc, Option.getD_none, Option.none_or,
        Option.getD_some, Option.some_or, hstored, hmerged]
      exact ⟨h.insert rfl rfl rfl rfl, .inl rfl⟩
  | _ => cases hmerged

end Filament.Tracker
