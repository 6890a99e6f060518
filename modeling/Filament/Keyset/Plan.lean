import Mathlib.Data.List.Lex
import Mathlib.Data.List.Sort
import Filament.Postgres.Snapshot

/-!
# Keyset reads

A table is read by its primary key: the plan splits the key space into ranges by values of the
leading column, and each range is read page by page, every page the next rows in key order above the
last one.  The cursor of a range is the key of its last row that was durably written, as text; an
attempt that resumes starts from the cursors.

* `splitFromBoundaries`, `planKeyset` : the ranges;
* `tupleCmp`, `keysetWhere` : the predicate of a page, as the Postgres source and as the MySQL source
  write it;
* `State` : the table, the plan and an attempt; `step` interleaves pages, durable writes and crashes
  with what others do to the table.
-/

namespace Filament.Keyset

open Filament.Postgres.Snapshot (remaining page)

variable {α : Type} [LinearOrder α]

/-! ### Keys and their texts -/

/-- How an integer column casts a decimal text. -/
structure IntColumn (cast : String → α) where
  ofInt : ℤ → α
  mono : ∀ {y z : ℤ}, y ≤ z → ofInt y ≤ ofInt z
  cast_eq : ∀ z : ℤ, cast (toString z) = ofInt z

/-- The columns of a key: for each, the text of a value and the cast of a text to the type of the
column, which gives the value back; and, when the leading column is an integer one that the splitter
can range over, its integers. -/
structure KeyType (α : Type) [LinearOrder α] where
  text : ℕ → α → String
  cast : ℕ → String → α
  cast_text : ∀ i a, cast i (text i a) = a
  int : Option (IntColumn (cast 0))

/-- A key: a value for each column, leading column first. -/
abbrev Key (α : Type) := List α

/-! ### The plan -/

/-- `KeysetShard` : a half-open range of the key space, by a prefix of the key, open where there is no
bound, and its cursor. -/
structure Shard where
  lo : List String
  hi : List String
  key : List String
  deriving DecidableEq, Repr

/-- `intBoundaries`. -/
def intBoundaries (lo hi : ℤ) (k : ℕ) : List String :=
  if k ≤ 1 ∨ hi ≤ lo then []
  else
    let span := hi - lo + 1
    (List.range' 1 (k - 1)).map fun i : ℕ => toString ((span * (i : ℤ)).tdiv k + lo)

/-- The loop of `splitFromBoundaries`, from the bound `prev`. -/
def splitFrom (prev : List String) : List String → List Shard
  | [] => [⟨prev, [], []⟩]
  | b :: bounds => ⟨prev, [b], []⟩ :: splitFrom [b] bounds

/-- `splitFromBoundaries`. -/
def splitFromBoundaries (bounds : List String) : List Shard :=
  if bounds = [] then [⟨[], [], []⟩] else splitFrom [] bounds

/-- `splitIntRange`. -/
def splitIntRange (lo hi : ℤ) (k : ℕ) : List Shard := splitFromBoundaries (intBoundaries lo hi k)

/-- `dedupeOrdered` : drops empty texts and repetitions of the last text kept. -/
def dedupeOrdered (vals : List String) : List String :=
  vals.foldl (fun out v =>
    if v = "" then out else if out.getLast? = some v then out else out ++ [v]) []

/-- What the planner reads from the table: the number of shards its size asks for, the least and the
greatest value of an integer leading column, and values of the leading column at increasing
quantiles, if it could. -/
structure Sampled (α : Type) [LinearOrder α] where
  k : ℕ
  minMax : Option (ℤ × ℤ)
  quantiles : Option (List α)
  sorted : ∀ qs, quantiles = some qs → qs.Pairwise (· ≤ ·)

/-- `planKeyset`. -/
def planKeyset (T : KeyType α) (table : Sampled α) : List Shard :=
  match T.int with
  | some _ =>
    match table.minMax with
    | some (lo, hi) => splitIntRange lo hi table.k
    | none => [⟨[], [], []⟩]
  | none =>
    if 1 < table.k then
      match table.quantiles with
      | some qs =>
        let bounds := dedupeOrdered (qs.map (T.text 0))
        if bounds = [] then [⟨[], [], []⟩] else splitFromBoundaries bounds
      | none => [⟨[], [], []⟩]
    else [⟨[], [], []⟩]

/-! ### The predicate of a page -/

/-- The comparisons that the predicates use. -/
inductive Op where
  | gt
  | ge
  | lt
  | le
  deriving DecidableEq, Repr

def Op.eval {β : Type} [LinearOrder β] : Op → β → β → Bool
  | .gt, a, b => decide (b < a)
  | .ge, a, b => decide (b ≤ a)
  | .lt, a, b => decide (a < b)
  | .le, a, b => decide (a ≤ b)

/-- `strings.TrimSuffix(op, "=")`. -/
def Op.strict : Op → Op
  | .gt => .gt
  | .ge => .gt
  | .lt => .lt
  | .le => .lt

/-- A predicate on a row, with its arguments as text: a comparison of a column, a comparison of a
row of leading columns, and their combinations. -/
inductive Pred where
  | cmp (column : ℕ) (op : Op) (val : String)
  | eq (column : ℕ) (val : String)
  | row (op : Op) (vals : List String)
  | and (p q : Pred)
  | or (p q : Pred)
  deriving DecidableEq, Repr

/-- Whether a predicate holds of a key.  A comparison of rows is lexicographic. -/
def Pred.eval (cast : ℕ → String → α) (key : Key α) : Pred → Bool
  | .cmp column op val => key[column]?.any fun a => op.eval a (cast column val)
  | .eq column val => key[column]?.any fun a => decide (a = cast column val)
  | .row op vals => op.eval (key.take vals.length) (vals.mapIdx cast)
  | .and p q => p.eval cast key && q.eval cast key
  | .or p q => p.eval cast key || q.eval cast key

/-- The two sources. -/
inductive Dialect where
  | postgres
  | mysql
  deriving DecidableEq, Repr

/-- The expansion of `tupleCmp` of the MySQL source, from a column on. -/
def expand (op : Op) : ℕ → List String → Pred
  | _, [] => .row op []
  | i, [v] => .cmp i op v
  | i, v :: vals => .or (.cmp i op.strict v) (.and (.eq i v) (expand op (i + 1) vals))

/-- `tupleCmp`. -/
def tupleCmp : Dialect → Op → List String → Pred
  | .postgres, op, [v] => .cmp 0 op v
  | .postgres, op, vals => .row op vals
  | .mysql, op, vals => expand op 0 vals

/-- `keysetWhere` : above the cursor, or from the lower bound on, and below the upper bound.  `n` is
the number of columns of the key. -/
def keysetWhere (d : Dialect) (n : ℕ) (lo hi cur : List String) : List Pred :=
  let lower :=
    if cur.length = n then [tupleCmp d .gt cur]
    else if 0 < lo.length then [tupleCmp d .ge lo]
    else []
  let upper := if 0 < hi.length then [tupleCmp d .lt hi] else []
  lower ++ upper

/-! ### Attempts -/

/-- The keys of a table, distinct and of `n` columns. -/
structure Table (α : Type) (n : ℕ) where
  keys : List (Key α)
  distinct : keys.Nodup
  length : ∀ key ∈ keys, key.length = n

/-- The settings of a read. -/
structure Config (α : Type) [LinearOrder α] where
  type : KeyType α
  dialect : Dialect
  n : ℕ
  pageSize : ℕ
  limit : ℕ

/-- The reader of a shard: its cursor, the keys it sent, how many of them were durably written, and
whether it found the shard exhausted or stopped at the limit. -/
structure Reader (α : Type) where
  cur : List String
  sent : List (Key α)
  flushed : ℕ
  exhausted : Bool
  limited : Bool

/-- The table and the read: `shards` is the durable checkpoint, `readers` the attempt under way, in
one snapshot when it is parallel, and `written` what was durably written. -/
structure State (α : Type) (n : ℕ) where
  table : Table α n
  shards : List Shard
  snapshot : Option (Table α n)
  readers : Option (List (Reader α))
  written : List (Key α)

/-- The rows of a page: those that meet the predicate, in key order, up to the page size. -/
def pageRows (T : KeyType α) (preds : List Pred) (pageSize : ℕ) (keys : List (Key α)) :
    List (Key α) :=
  ((keys.filter fun key => preds.all (Pred.eval T.cast key)).insertionSort (· ≤ ·)).take pageSize

/-- One turn of the loop of `extractKeysetShard`. -/
def Reader.turn (cfg : Config α) (keys : List (Key α)) (sh : Shard) (rd : Reader α) : Reader α :=
  let rows := page (remaining cfg.limit rd.sent.length)
    (pageRows cfg.type (keysetWhere cfg.dialect cfg.n sh.lo sh.hi rd.cur) cfg.pageSize keys)
  let sent := rd.sent ++ rows
  let limited := decide (0 < cfg.limit ∧ cfg.limit ≤ sent.length)
  { rd with
    sent
    limited
    exhausted := !limited && decide (rows.length < cfg.pageSize)
    cur := if limited = true ∨ rows.length < cfg.pageSize then rd.cur
      else (rows.getLast?.map fun key => key.mapIdx cfg.type.text).getD rd.cur }

namespace State

variable {n : ℕ}

variable (cfg : Config α) (s : State α n)

/-- An attempt starts from the cursors; a parallel one opens a snapshot. -/
def start (parallel : Bool) : State α n :=
  { s with
    snapshot := if parallel then some s.table else none
    readers := some (s.shards.map fun sh => ⟨sh.key, [], 0, false, false⟩) }

/-- The reader of shard `i` takes a turn. -/
def page (i : ℕ) : State α n :=
  match s.readers with
  | none => s
  | some readers =>
    match readers[i]?, s.shards[i]? with
    | some rd, some sh =>
      if rd.exhausted || rd.limited then s
      else
        let keys := (s.snapshot.getD s.table).keys
        { s with readers := some (readers.set i (rd.turn cfg keys sh)) }
    | _, _ => s

/-- The next `m` keys that shard `i` sent are durably written, and its cursor moves to the last one
(`MergeShardDelta`). -/
def flush (i m : ℕ) : State α n :=
  match s.readers with
  | none => s
  | some readers =>
    match readers[i]?, s.shards[i]? with
    | some rd, some sh =>
      let batch := (rd.sent.drop rd.flushed).take m
      let key := (batch.getLast?.map fun key => key.mapIdx cfg.type.text).getD sh.key
      { s with
        shards := s.shards.set i { sh with key }
        readers := some (readers.set i { rd with flushed := rd.flushed + batch.length })
        written := s.written ++ batch }
    | _, _ => s

/-- Every shard is exhausted and everything that was sent is written. -/
def complete : Bool :=
  s.readers.any fun readers =>
    readers.all fun rd => rd.exhausted && decide (rd.flushed = rd.sent.length)

end State

/-- What happens to a table and its read. -/
inductive Event (α : Type) (n : ℕ) where
  | others (table : Table α n)
  | start (parallel : Bool)
  | page (i : ℕ)
  | flush (i m : ℕ)
  | crash

/-- One event; others leave any table behind. -/
def step {n : ℕ} (cfg : Config α) (s : State α n) : Event α n → State α n
  | .others table => { s with table }
  | .start parallel => if s.readers.isNone then s.start parallel else s
  | .page i => s.page cfg i
  | .flush i m => s.flush cfg i m
  | .crash => { s with readers := none, snapshot := none }

/-- A table with a plan and no attempt yet. -/
def planned {n : ℕ} (T : KeyType α) (sample : Sampled α) (table : Table α n) : State α n :=
  ⟨table, planKeyset T sample, none, none, []⟩

end Filament.Keyset
