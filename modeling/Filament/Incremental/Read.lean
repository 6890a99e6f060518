import Filament.Keyset.Plan

/-!
# Incremental reads

A resource is read in full once, by its primary key, and after that by a cursor column: each run reads
the rows from the stored watermark on, minus a lookback, in one snapshot.

* `incrementalHigh`, `incrementalBounds`, `extractIncrementalTable` : a run by the cursor, as the
  Postgres source and as the MySQL source have it;
* `planIncremental`, `promoteIncrementalBackfill` : the checkpoint of a run and of a run that
  completed;
* `State` : the table, the stored checkpoint and a run; `step` interleaves runs with what others write.
-/

namespace Filament.Incremental

open Filament.Keyset
open Filament.Postgres.Snapshot (remaining page)

variable {α : Type} [LinearOrder α]

/-! ### Rows -/

/-- A version of a row: its cursor, which is not null, its primary key and its contents. -/
structure Row (α : Type) where
  cursor : α
  key : Key α
  version : ℕ
  deriving DecidableEq

/-- The position of a row: its cursor, then its key. -/
def Row.pos (r : Row α) : List α := r.cursor :: r.key

/-- The rows of a table, with distinct keys of `n` columns. -/
structure Table (α : Type) (n : ℕ) where
  rows : List (Row α)
  distinct : (rows.map Row.key).Nodup
  length : ∀ r ∈ rows, r.key.length = n

/-- The columns of a position, the cursor before those of the key, and how the database subtracts
seconds from a cursor. -/
structure CursorType (α : Type) [LinearOrder α] where
  text : ℕ → α → String
  cast : ℕ → String → α
  cast_text : ∀ i a, cast i (text i a) = a
  int : Option (IntColumn (cast 1))
  rewind : ℕ → α → α
  rewind_mono : ∀ seconds, Monotone (rewind seconds)
  rewind_le : ∀ seconds a, rewind seconds a ≤ a

/-- The columns of the key. -/
def CursorType.toKeyType (T : CursorType α) : KeyType α :=
  ⟨fun i => T.text (i + 1), fun i => T.cast (i + 1), fun i => T.cast_text (i + 1), T.int⟩

/-- `defaultIncrementalLookbackSeconds`, of either source. -/
def defaultIncrementalLookbackSeconds : Dialect → ℕ
  | .postgres => 300
  | .mysql => 0

/-- The lookback that `PlanIncremental` settles on, of what the pipeline configures: the Postgres source
takes the default for a zero. -/
def cursorLookback : Dialect → Option ℕ → ℕ
  | .postgres, some seconds =>
    if 0 < seconds then seconds else defaultIncrementalLookbackSeconds .postgres
  | .mysql, some seconds => seconds
  | dialect, none => defaultIncrementalLookbackSeconds dialect

/-- The settings of a resource: `n` is the number of columns of the primary key. -/
structure Config (α : Type) [LinearOrder α] where
  type : CursorType α
  dialect : Dialect
  n : ℕ
  pageSize : ℕ
  lookbackSeconds : Option ℕ

def Config.lookback (cfg : Config α) : ℕ := cursorLookback cfg.dialect cfg.lookbackSeconds

/-- The settings of the backfill in a run with a limit. -/
def Config.keyset (cfg : Config α) (limit : ℕ) : Keyset.Config α :=
  ⟨cfg.type.toKeyType, cfg.dialect, cfg.n, cfg.pageSize, limit⟩

/-- The checkpoint key of a row. -/
def Row.text (cfg : Config α) (r : Row α) : List String := r.pos.mapIdx cfg.type.text

/-! ### A run by the cursor -/

variable (cfg : Config α) (rows : List (Row α))

/-- Rows in the order of the cursor and the key. -/
def ordered : List (Row α) := rows.insertionSort fun r r' => r.pos ≤ r'.pos

/-- `incrementalHigh` : the greatest position. -/
def incrementalHigh : Option (List String) :=
  (rows.insertionSort fun r r' => r'.pos ≤ r.pos).head?.map (Row.text cfg)

/-- The lower bound of `incrementalBounds`: above a full key, or from a cursor on. -/
def lowerBound (low : List String) : List Pred :=
  if low.length = cfg.n + 1 then [tupleCmp cfg.dialect .gt low]
  else
    match low with
    | [v] => [.cmp 0 .ge v]
    | _ => []

/-- `incrementalBounds`. -/
def incrementalBounds (low high : List String) : List Pred :=
  lowerBound cfg low ++ [tupleCmp cfg.dialect .le high]

/-- The rows that a query has between two bounds. -/
def between (low high : List String) : List (Row α) :=
  ordered (rows.filter fun r =>
    (incrementalBounds cfg low high).all (Pred.eval cfg.type.cast r.pos))

/-- The loop of `extractIncrementalTable`. -/
def pages (cfg : Config α) (rows : List (Row α)) (high : List String) (limit : ℕ) :
    ℕ → List String → ℕ → List (Row α)
  | 0, _, _ => []
  | fuel + 1, low, emitted =>
    let sent := page (remaining limit emitted) (page cfg.pageSize (between cfg rows low high))
    let emitted := emitted + sent.length
    if sent.length = 0 ∨ sent.length < cfg.pageSize ∨ (0 < limit ∧ limit ≤ emitted) then sent
    else
      let low := (sent.getLast?.map (Row.text cfg)).getD low
      sent ++ pages cfg rows high limit fuel low emitted

/-- The bound that a run starts from: the stored key, minus the lookback. -/
def startLow (key : List String) : List String :=
  match key with
  | [] => []
  | cursor :: _ =>
    if key.length = cfg.n + 1 ∧ 0 < cfg.lookback then
      [cfg.type.text 0 (cfg.type.rewind cfg.lookback (cfg.type.cast 0 cursor))]
    else key

/-- `extractIncrementalTable` : the rows that a run sends, of those in its snapshot.  Every page but the
last moves past a row, so there are at most as many turns as rows. -/
def extractIncrementalTable (key : List String) (limit : ℕ) : List (Row α) :=
  match incrementalHigh cfg rows with
  | none => []
  | some high => pages cfg rows high limit (rows.length + 1) (startLow cfg key) 0

/-! ### Checkpoints -/

/-- The checkpoint of a resource, by its mode: the shards of the backfill and the watermark from before
it; or the watermark.  A watermark without a key is from the start. -/
inductive Checkpoint where
  | backfill (start : List String) (shards : List Shard)
  | incremental (key : List String)
  deriving DecidableEq, Repr

/-- `AsIncrementalBackfill`. -/
def asIncrementalBackfill (shards : List Shard) (start : List String) : Checkpoint :=
  .backfill start shards

/-- `PromoteIncrementalBackfill`. -/
def promoteIncrementalBackfill : Checkpoint → Checkpoint
  | .backfill start _ => .incremental start
  | .incremental key => .incremental key

/-- Whether `PlanIncremental` takes the stored checkpoint. -/
def reusable : Option Checkpoint → Bool
  | some (.incremental _) => true
  | some (.backfill _ shards) => !shards.isEmpty
  | none => false

/-- `PlanIncremental`. -/
def planIncremental (sample : Sampled α) (rows : List (Row α))
    (prev : Option Checkpoint) : Checkpoint :=
  match prev with
  | some cp => if reusable prev then cp else fresh
  | none => fresh
where
  fresh := asIncrementalBackfill (planKeyset cfg.type.toKeyType sample)
    ((incrementalHigh cfg rows).getD [])

/-! ### Runs -/

/-- A run under way.  `read` has the rows that every statement of the run saw, once there was one, and
`sent` those that it sent. -/
inductive Phase (α : Type) (n : ℕ) where
  | planned (limit : ℕ)
  | incremental (limit : ℕ) (read sent : List (Row α))
  | backfill (limit : ℕ) (snapshot : Option (Table α n)) (readers : List (Reader α))
      (read : Option (List (Row α))) (sent : List (Row α))

/-- The table, the stored checkpoint, the run, the rows that committed runs delivered, and the largest
cursor that the last run to read saw. -/
structure State (α : Type) (n : ℕ) where
  table : Table α n
  stored : Option Checkpoint
  phase : Option (Phase α n)
  delivered : List (Row α)
  seen : Option α

def largest : Option α := (rows.map Row.cursor).max?

/-- The keys of part `i` that the sink has when a run is paused: the first ones that were sent. -/
def written (readers : List (Reader α)) (counts : List ℕ) (i : ℕ) : List (Key α) :=
  (readers[i]?.elim [] Reader.sent).take (counts.getD i 0)

/-- The rows of a table with some keys. -/
def rowsOf (keys : List (Key α)) : List (Row α) :=
  keys.filterMap fun key => rows.find? fun r => decide (r.key = key)

namespace State

variable {n : ℕ}

variable (cfg : Config α) (s : State α n)

/-- A run is planned. -/
def plan (limit : ℕ) (sample : Sampled α) : State α n :=
  { s with
    stored := some (planIncremental cfg sample s.table.rows s.stored)
    phase := some (.planned limit)
    seen := if reusable s.stored then s.seen else largest s.table.rows }

/-- A planned run starts: by the cursor it reads its snapshot; a backfill opens its snapshot when it is
parallel, and otherwise reads page by page. -/
def start (parallel : Bool) : State α n :=
  match s.phase, s.stored with
  | some (.planned limit), some (.incremental key) =>
    { s with
      phase := some (.incremental limit s.table.rows
        (extractIncrementalTable cfg s.table.rows key limit))
      seen := largest s.table.rows }
  | some (.planned limit), some (.backfill _ shards) =>
    let readers := shards.map fun sh => ⟨sh.key, [], 0, false, false⟩
    if parallel then
      { s with
        phase := some (.backfill limit (some s.table) readers (some s.table.rows) [])
        seen := largest s.table.rows }
    else { s with phase := some (.backfill limit none readers none []) }
  | _, _ => s

/-- Shard `i` of a backfill reads a page. -/
def page (i : ℕ) : State α n :=
  match s.phase, s.stored with
  | some (.backfill limit snapshot readers read sent), some (.backfill _ shards) =>
    match readers[i]?, shards[i]? with
    | some rd, some sh =>
      if rd.exhausted || rd.limited then s
      else
        let visible := (snapshot.getD s.table).rows
        let next := rd.turn (cfg.keyset limit) (visible.map Row.key) sh
        let rows := rowsOf visible (next.sent.drop rd.sent.length)
        let before := read.elim [] fun _ => s.seen.toList
        { s with
          phase := some (.backfill limit snapshot (readers.set i next)
            (some (read.elim visible fun read => read.filter fun r => decide (r ∈ visible)))
            (sent ++ rows))
          seen := (before ++ visible.map Row.cursor).max? }
    | _, _ => s
  | _, _ => s

/-- The run commits: by the cursor it stores the position of its last row; a backfill whose shards have
all returned is promoted. -/
def commit : State α n :=
  match s.phase, s.stored with
  | some (.incremental _ _ sent), some (.incremental key) =>
    { s with
      stored := some (.incremental ((sent.getLast?.map (Row.text cfg)).getD key))
      phase := none
      delivered := s.delivered ++ sent }
  | some (.backfill _ _ readers _ sent), some (.backfill start shards) =>
    if readers.all fun rd => rd.exhausted || rd.limited then
      { s with
        stored := some (promoteIncrementalBackfill (.backfill start shards))
        phase := none
        delivered := s.delivered ++ sent }
    else s
  | _, _ => s

/-- The run is paused and what the sink has of it is committed (`finishControlled`): the first rows of
each part, as many as `counts` says.  The checkpoint has the key of the last of them. -/
def pause (counts : List ℕ) : State α n :=
  match s.phase, s.stored with
  | some (.incremental _ _ sent), some (.incremental key) =>
    let sent := sent.take (counts.getD 0 0)
    { s with
      stored := some (.incremental ((sent.getLast?.map (Row.text cfg)).getD key))
      phase := none
      delivered := s.delivered ++ sent }
  | some (.backfill _ _ readers _ sent), some (.backfill start shards) =>
    let shards' := shards.mapIdx fun i sh =>
      { sh with key := ((written readers counts i).getLast?.map
          fun key => key.mapIdx cfg.type.toKeyType.text).getD sh.key }
    { s with
      stored := some (.backfill start shards')
      phase := none
      delivered := s.delivered ++ sent.filter fun r =>
        (List.range readers.length).any fun i => decide (r.key ∈ written readers counts i) }
  | _, _ => { s with phase := none }

end State

/-- What happens to a resource. -/
inductive Event (α : Type) [LinearOrder α] (n : ℕ) where
  | write (table : Table α n)
  | plan (limit : ℕ) (sample : Sampled α)
  | start (parallel : Bool)
  | page (i : ℕ)
  | commit
  | pause (counts : List ℕ)
  | fail

/-- One event; others leave any table behind, and a run that fails or crashes leaves the stored
checkpoint as it is. -/
def step {n : ℕ} (cfg : Config α) (s : State α n) : Event α n → State α n
  | .write table => { s with table }
  | .plan limit sample => if s.phase.isNone then s.plan cfg limit sample else s
  | .start parallel => s.start cfg parallel
  | .page i => s.page cfg i
  | .commit => s.commit cfg
  | .pause counts => s.pause cfg counts
  | .fail => { s with phase := none }

/-- A table that was never read. -/
def unread {n : ℕ} (table : Table α n) : State α n := ⟨table, none, none, [], none⟩

end Filament.Incremental
