import Filament.Lib.Trace
import Filament.Postgres.Mvcc

/-!
# Full reads

`Extract` of the Postgres source, step by step, while others write to the database.  It first plans
the shards, table by table and relation by relation, each from the number of blocks the relation has
at that moment; then it opens one snapshot; then it reads every shard in windows of blocks, one
query a window, in turn or up to `parallelism` shards at a time.

* `shardCount`, `relationShards`, `windowBlocks` : the plan of one relation;
* `Run.plan`, `Run.openSnapshot`, `Run.read` : the steps; `extractStep` interleaves them with what
  others do;
* the initial snapshot of `ExtractChanges` plans and reads the same way, and may start with the
  snapshot that the replication slot was created with.
-/

namespace Filament.Postgres.Snapshot

open Mvcc List

variable {ρ : Type}

def maxShardsPerTable : ℕ := 64
def defaultRowsPerBlock : ℕ := 60
def maxWindowBlocks : ℕ := 256

/-- The settings of a read; `relations` lists what a snapshot of a table reads, and `qualified` is
the quoted name of a table.  A setting that is not positive is 0. -/
structure Config where
  resources : List String
  qualified : String → String
  relations : String → List String
  parallelism : ℕ
  shardPages : ℕ
  pageSize : ℕ
  limit : ℕ

/-- The half-open range of heap blocks that a shard reads, in windows. -/
structure Shard where
  table : String
  part : ℕ
  qualified : String
  loBlock : ℕ
  hiBlock : ℕ
  windowBlocks : ℕ
  deriving DecidableEq, Repr

/-- `shardCount`. -/
def shardCount (pages parallelism shardPages : ℕ) : ℕ :=
  if shardPages ≤ 0 ∨ parallelism ≤ 1 ∨ pages ≤ shardPages then 1
  else min ((pages + shardPages - 1) / shardPages) maxShardsPerTable

/-- `windowBlocks` : about a page of rows, from the rows that block 0 has now. -/
def windowBlocks (pageSize : ℕ) (db : Database ρ) (qualified : String) : ℕ :=
  let counted := ((db.heap qualified).rowsIn db.commits 0 1).length
  let rowsPerBlock := if counted < 1 then defaultRowsPerBlock else counted
  min (max (pageSize / rowsPerBlock) 1) maxWindowBlocks

theorem windowBlocks_pos (pageSize : ℕ) (db : Database ρ) (qualified : String) :
    0 < windowBlocks pageSize db qualified :=
  lt_min (lt_of_lt_of_le Nat.one_pos (le_max_right ..)) (by decide)

/-- The shard `i` of `k` of a relation of `pages` blocks; the last one ends at `pages`. -/
def relationShard (table qualified : String) (part pages window k i : ℕ) : Shard :=
  let hi := if i = k - 1 then pages else (i + 1) * pages / k
  ⟨table, part + i, qualified, i * pages / k, hi, window⟩

/-- The shards of a relation of `pages` blocks. -/
def relationShards (table qualified : String) (part pages window k : ℕ) : List Shard :=
  (List.range k).map (relationShard table qualified part pages window k)

/-- The reader of a shard: the next block, and the rows it emitted. -/
structure Reader where
  shard : Shard
  next : ℕ
  emitted : ℕ
  started : Bool
  done : Bool
  deriving DecidableEq, Repr

/-- A read under way.

* `tables`, `table`, `relations`, `part`, `sized` are where the plan stands: the tables to come, the
  one being planned, its relations to come and the next part, and the relation whose size was read
  last with its size;
* `sizes` is the history of the plan: every relation read, for which table, and the size it had;
* `snap` is the exported snapshot. -/
structure Run (ρ : Type) where
  db : Database ρ
  tables : List String
  table : String
  relations : List String
  part : ℕ
  sized : Option (String × ℕ)
  shards : List Shard
  sizes : List (String × String × ℕ)
  snap : Option ℕ
  reading : Bool
  readers : List Reader
  emitted : List (String × ρ)

variable (cfg : Config) (db : Database ρ) {rows : List ρ}

/-- A read starts with its plan; a snapshot may be there already. -/
def start (snap : Option ℕ) : Run ρ :=
  ⟨db, cfg.resources, "", [], 0, none, [], [], snap, false, [], []⟩

namespace Run

/-- One query of `planShards`: the size of the next relation, or the window of the one whose size
was read, which completes its shards.  A table all of whose partitions are deselected is one empty
shard. -/
def plan (cfg : Config) (r : Run ρ) : Run ρ :=
  match r.sized with
  | some (qualified, pages) =>
    let k := shardCount pages cfg.parallelism cfg.shardPages
    let window := windowBlocks cfg.pageSize r.db qualified
    { r with
      sized := none
      part := r.part + k
      shards := r.shards ++ relationShards r.table qualified r.part pages window k
      sizes := r.sizes ++ [(r.table, qualified, pages)] }
  | none =>
    match r.relations with
    | qualified :: relations =>
      { r with relations, sized := some (qualified, (r.db.heap qualified).pages) }
    | [] =>
      match r.tables with
      | [] => r
      | table :: tables =>
        if cfg.relations table = [] then
          { r with tables, shards := r.shards ++ [⟨table, 0, cfg.qualified table, 0, 0, 1⟩] }
        else { r with tables, table, relations := cfg.relations table, part := 0 }

/-- The plan is complete. -/
def planned (r : Run ρ) : Bool := r.sized.isNone && r.relations.isEmpty && r.tables.isEmpty

/-- `openSnapshot`, or `importSnapshot` when there is one, and the readers begin. -/
def openSnapshot (r : Run ρ) : Run ρ :=
  { r with
    snap := some (r.snap.getD r.db.commits)
    reading := true
    readers := r.shards.map fun sh => ⟨sh, sh.loBlock, 0, false, false⟩ }

/-- Whether the reader `i` may go on: in turn, or with fewer than `parallelism` others under way. -/
def admits (r : Run ρ) (i : ℕ) : Bool :=
  if cfg.parallelism ≤ 1 ∨ r.shards.length ≤ 1 then (r.readers.take i).all Reader.done
  else (r.readers[i]?.any Reader.started) ||
    decide ((r.readers.countP fun rd => rd.started && !rd.done) < cfg.parallelism)

end Run

/-- `remaining` : how many more rows; 0 is no limit. -/
def remaining (limit emitted : ℕ) : ℕ := if limit ≤ 0 then 0 else max (limit - emitted) 0

/-- What a query appends: at most `limit` rows, when that is positive. -/
def page (limit : ℕ) (rows : List ρ) : List ρ := if 0 < limit then rows.take limit else rows

theorem page_isPrefix (limit : ℕ) (rows : List ρ) : page limit rows <+: rows := by
  unfold page
  split_ifs
  · exact take_prefix limit rows
  · exact prefix_rfl

theorem page_eq_of_lt {n : ℕ} (h : 0 < n → (page n rows).length < n) : page n rows = rows := by
  unfold page at h ⊢
  split_ifs with hn
  · have hlt := h hn
    rw [if_pos hn, length_take] at hlt
    exact take_of_length_le (by omega)
  · rfl

theorem page_remaining_eq {limit emitted : ℕ}
    (hstop : ¬(0 < limit ∧ limit ≤ emitted + (page (remaining limit emitted) rows).length)) :
    page (remaining limit emitted) rows = rows := by
  refine page_eq_of_lt fun hpos => ?_
  have hlimit : 0 < limit := by
    by_contra hzero
    simp [remaining, Nat.le_zero.1 (Nat.le_of_not_lt hzero)] at hpos
  have hrest : remaining limit emitted = limit - emitted := by
    rw [remaining, if_neg (Nat.not_le.2 hlimit), Nat.max_zero]
  omega

/-- One turn of the loop of `readBlocks`: the reader after it, and the rows it appended. -/
def Reader.turn (snap : ℕ) (rd : Reader) : Reader × List ρ :=
  if rd.next < rd.shard.hiBlock then
    let hi := min (rd.next + rd.shard.windowBlocks) rd.shard.hiBlock
    let rows := page (remaining cfg.limit rd.emitted)
      ((db.heap rd.shard.qualified).rowsIn snap rd.next hi)
    let emitted := rd.emitted + rows.length
    (⟨rd.shard, rd.next + rd.shard.windowBlocks, emitted, true,
      decide (0 < cfg.limit ∧ cfg.limit ≤ emitted)⟩, rows)
  else ({ rd with started := true, done := true }, [])

namespace Run

/-- The reader `i` takes a turn. -/
def read (r : Run ρ) (i : ℕ) : Run ρ :=
  match r.snap, r.readers[i]? with
  | some snap, some rd =>
    if rd.done || !r.admits cfg i then r
    else
      let (rd', rows) := rd.turn cfg r.db snap
      { r with
        readers := r.readers.set i rd'
        emitted := r.emitted ++ rows.map fun row => (rd.shard.table, row) }
  | _, _ => r

/-- Every reader is done. -/
def finished (r : Run ρ) : Bool := r.reading && r.readers.all Reader.done

end Run

/-- The steps of a read, and what others do meanwhile. -/
inductive Event (ρ : Type) where
  | change (c : Change ρ)
  | plan
  | openSnapshot
  | read (i : ℕ)

/-- One event; a step of the read whose turn it is not does nothing. -/
def extractStep (r : Run ρ) : Event ρ → Run ρ
  | .change c => { r with db := r.db.apply c }
  | .plan => if r.reading then r else r.plan cfg
  | .openSnapshot => if r.reading || !r.planned then r else r.openSnapshot
  | .read i => if r.reading then r.read cfg i else r

/-- `Extract` : opens its own snapshot. -/
def extract (es : List (Event ρ)) : Run ρ :=
  Trace.run (extractStep cfg) (start cfg db none) es

/-- One reader, without a limit. -/
def Config.serial : Config := { cfg with parallelism := 1, limit := 0 }

/-- The initial snapshot of `ExtractChanges`, by one reader, in the snapshot of the slot when there
is one. -/
def bootstrap (slot : Option ℕ) (es : List (Event ρ)) : Run ρ :=
  Trace.run (extractStep cfg.serial) (start cfg.serial db slot) es

/-- What a snapshot of the tables holds, each row under its table. -/
def tableRows (snap : ℕ) : List (String × ρ) :=
  cfg.resources.flatMap fun table =>
    (cfg.relations table).flatMap fun q => ((db.heap q).rows snap).map fun row => (table, row)

end Filament.Postgres.Snapshot
