import Filament.Postgres.Snapshot

/-!
# Resumable reads by block ranges

The ctid mode of the Postgres source, attempt by attempt, while others write to the table.  The
first attempt plans ranges of heap blocks and stamps the plan with the heap's file node, its size and
the oldest transaction that was running; an attempt that resumes a plan reads the ranges that are not
done, re-reads the ones that are for versions that were written since, and reads the blocks the heap
has gained.  The jobs run one after another, each in the snapshot it starts with.

* `planCtid` : `State.query` in the phases `sizing`, `counting` and `stamping`;
* `ctidJobs` : in the phases `windowing`, `guarding` and `tailing`;
* `runConcurrent`, with one worker : `State.runJob`, and `State.crash` for an attempt that ends early;
* `State.settle` : a range that was read and drained is recorded as done.
-/

namespace Filament.Postgres.CtidResume

open Mvcc Snapshot

variable {ρ : Type}

/-! ### Plans -/

/-- A range of heap blocks, and whether it was fully read and written. -/
structure BlockRange where
  lo : ℕ
  hi : ℕ
  done : Bool
  deriving DecidableEq, Repr

/-- The checkpoint of a ctid read: its ranges and the stamps of the start of the run. -/
structure Plan where
  shards : List BlockRange
  filenode : ℕ
  horizon : ℕ
  relpages : ℕ
  deriving DecidableEq, Repr

/-- `keyShardCount`, from the size it read, if it could. -/
def keyShardCount (shardPages : ℕ) : Option ℕ → ℕ
  | none => 1
  | some pages =>
    if shardPages ≤ 0 then 1
    else min (max ((pages + shardPages - 1) / shardPages) 1) maxShardsPerTable

/-- The range `i` of `k` of `pages` blocks; the last one ends at `pages`. -/
def blockRange (pages k i : ℕ) : BlockRange :=
  ⟨i * pages / k, if i = k - 1 then pages else (i + 1) * pages / k, false⟩

/-- `blockRangeShards`. -/
def blockRangeShards (pages k : ℕ) : List BlockRange :=
  let k := if k < 1 then 1 else k
  (List.range k).map (blockRange pages k)

/-! ### Jobs -/

/-- What a job reads: a range of blocks in windows, for a reconciliation only the versions that the
horizon asks for; `part` is the range of the plan that it completes. -/
structure Job where
  part : Option ℕ
  lo : ℕ
  hi : ℕ
  window : ℕ
  horizon : Option ℕ
  deriving DecidableEq, Repr

/-- `age(t.xmin) <= age(horizon)`, when there is a filter. -/
def Job.accepts (j : Job) (v : Version ρ) : Bool := j.horizon.all fun h => decide (h ≤ v.xmin)

/-- The query of one window, in the snapshot of the commits so far. -/
def Job.query (j : Job) (h : Heap ρ) (commits lo hi : ℕ) : List ρ :=
  (h.versions.filter fun v => v.visible commits && v.inWindow lo hi && j.accepts v).map Version.row

/-- `readBlocks` : the windows of a range, from block `b`; a positive limit stops it. -/
def readBlocks (query : ℕ → ℕ → List ρ) (hi window limit : ℕ) : ℕ → ℕ → ℕ → List ρ
  | 0, _, _ => []
  | fuel + 1, b, emitted =>
    if b < hi then
      let rows := page (remaining limit emitted) (query b (min (b + window) hi))
      let emitted := emitted + rows.length
      if 0 < limit ∧ limit ≤ emitted then rows
      else rows ++ readBlocks query hi window limit fuel (b + window) emitted
    else []

/-- What a job emits.  A reconciliation has no limit. -/
def Job.rows (j : Job) (h : Heap ρ) (commits limit : ℕ) : List ρ :=
  let limit := if j.part.isSome then limit else 0
  readBlocks (j.query h commits) j.hi j.window limit (j.hi - j.lo) j.lo 0

/-- The job of a range: one that is done is reconciled. -/
def shardJob (window horizon : ℕ) (unfiltered : Bool) (i : ℕ) (sh : BlockRange) : Job :=
  if sh.done then ⟨none, sh.lo, sh.hi, window, if unfiltered then none else some horizon⟩
  else ⟨some i, sh.lo, sh.hi, window, none⟩

/-- `ctidJobs`, from the window, the freeze guard and the size it read, if it could. -/
def ctidJobs (p : Plan) (window : ℕ) (unfiltered : Bool) (size : Option ℕ) : List Job :=
  let jobs := p.shards.mapIdx (shardJob window p.horizon unfiltered)
  match size with
  | none => jobs
  | some cur =>
    if p.shards ≠ [] ∧ p.relpages < cur then jobs ++ [⟨none, p.relpages, cur, window, none⟩] else jobs

/-! ### Attempts -/

/-- Where an attempt stands: planning (`sizing`, `counting`, `stamping`), building its jobs
(`windowing`, `guarding`, `tailing`), or running them. -/
inductive Phase where
  | idle
  | sizing
  | counting (pages : ℕ)
  | stamping (pages k : ℕ)
  | windowing
  | guarding (window : ℕ)
  | tailing (window : ℕ) (unfiltered : Bool)
  | running (jobs : List Job)
  deriving DecidableEq, Repr

structure Config where
  relation : String
  shardPages : ℕ
  pageSize : ℕ

/-- The table and the read: `plan` is the durable checkpoint and `drained` the ranges that the last
attempt read to their end. -/
structure State (ρ : Type) where
  db : Database ρ
  plan : Option Plan
  phase : Phase
  limit : ℕ
  drained : List ℕ
  emitted : List ρ

/-- A table that no read has started on. -/
def fresh (db : Database ρ) : State ρ := ⟨db, none, .idle, 0, [], []⟩

namespace State

variable (cfg : Config) (s : State ρ)

/-- The heap of the table. -/
def heap : Heap ρ := s.db.heap cfg.relation

/-- `PlanResume` : a checkpoint with ranges is reused when the file node is the stamped one. -/
def start (limit : ℕ) : State ρ :=
  match s.phase with
  | .idle =>
    let reuse := s.plan.any fun p => decide (p.shards ≠ [] ∧ (s.heap cfg).filenode = p.filenode)
    { s with phase := if reuse then .windowing else .sizing, limit, drained := [] }
  | _ => s

/-- The next query of the attempt, which may fail: planning gives up, the number of shards falls
back to 1, the window to 1 and the guard to no filter, and the tail is left out. -/
def query (ok : Bool) : State ρ :=
  let pages := if ok then some (s.heap cfg).pages else none
  match s.phase with
  | .sizing => { s with phase := pages.elim .idle .counting }
  | .counting n => { s with phase := .stamping n (keyShardCount cfg.shardPages pages) }
  | .stamping n k =>
    if ok then
      { s with
        plan := some ⟨blockRangeShards n k, (s.heap cfg).filenode, s.db.snapshotXmin, n⟩
        phase := .windowing }
    else { s with phase := .idle }
  | .windowing =>
    { s with
      phase := .guarding (if ok then windowBlocks cfg.pageSize s.db cfg.relation else 1) }
  | .guarding window =>
    let advanced := s.plan.any fun p => decide (p.horizon < (s.heap cfg).relfrozenxid)
    { s with phase := .tailing window (!ok || advanced) }
  | .tailing window unfiltered =>
    { s with phase := s.plan.elim .idle fun p => .running (ctidJobs p window unfiltered pages) }
  | _ => s

/-- The next job runs to its end; a range that its limit did not cut short is drained. -/
def runJob : State ρ :=
  match s.phase with
  | .running (j :: jobs) =>
    let rows := j.rows (s.heap cfg) s.db.commits s.limit
    let whole := decide ¬(0 < s.limit ∧ s.limit ≤ rows.length)
    { s with
      phase := .running jobs
      drained := if whole then s.drained ++ j.part.toList else s.drained
      emitted := s.emitted ++ rows }
  | _ => s

/-- The attempt ends early, the job it was in after `n` rows. -/
def crash (n : ℕ) : State ρ :=
  match s.phase with
  | .running (j :: _) =>
    { s with
      phase := .idle
      emitted := s.emitted ++ (j.rows (s.heap cfg) s.db.commits s.limit).take n }
  | _ => { s with phase := .idle }

/-- The range `i`, drained and written, is recorded as done. -/
def settle (i : ℕ) : State ρ :=
  if i ∈ s.drained then
    { s with plan := s.plan.map fun p =>
      { p with shards := p.shards.modify i fun sh => { sh with done := true } } }
  else s

/-- The read is complete: every job ran and every range is done. -/
def complete : Bool :=
  decide (s.phase = .running []) && s.plan.any fun p => p.shards.all BlockRange.done

end State

/-- The heap is written anew, with every version where `place` puts it. -/
def rewrite (h : Heap ρ) (place : ℕ → ℕ × ℕ) : Heap ρ where
  versions := h.versions.mapIdx fun i v => { v with block := (place i).1, offset := (place i).2 }
  pages := ((List.range h.versions.length).map fun i => (place i).1 + 1).foldr max 0
  relfrozenxid := h.relfrozenxid
  filenode := h.filenode + 1
  inside := by
    intro v hv
    obtain ⟨i, hi, rfl⟩ := List.mem_mapIdx.1 hv
    have hmem : (place i).1 + 1 ∈ (List.range h.versions.length).map fun i => (place i).1 + 1 :=
      List.mem_map_of_mem (List.mem_range.2 hi)
    generalize (List.range h.versions.length).map (fun i => (place i).1 + 1) = l at hmem
    induction l with
    | nil => cases hmem
    | cons a l ih =>
      rw [List.foldr_cons]
      rcases List.mem_cons.1 hmem with heq | hmem
      · exact lt_of_lt_of_le (Nat.lt_of_succ_le heq.le) (le_max_left _ _)
      · exact lt_of_lt_of_le (ih hmem) (le_max_right _ _)

/-- What happens to a table and its read. -/
inductive Event (ρ : Type) where
  | change (c : Change ρ)
  | rewrite (place : ℕ → ℕ × ℕ)
  | start (limit : ℕ)
  | query (ok : Bool)
  | job
  | crash (n : ℕ)
  | settle (i : ℕ)

/-- One event. -/
def step (cfg : Config) (s : State ρ) : Event ρ → State ρ
  | .change c => { s with db := s.db.apply c }
  | .rewrite place =>
    { s with db := s.db.setHeap cfg.relation (CtidResume.rewrite (s.heap cfg) place) }
  | .start limit => s.start cfg limit
  | .query ok => s.query cfg ok
  | .job => s.runJob cfg
  | .crash n => s.crash cfg n
  | .settle i => s.settle i

end Filament.Postgres.CtidResume
