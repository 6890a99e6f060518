import Mathlib.Data.Finset.Basic

/-!
# The change stream of the MySQL source

One cycle of `ExtractChanges` reads the binlog from the oldest floor of its resources to a watermark
taken before.  A resource's floor is the cursor it starts from: its checkpoint, or the position of its
bootstrap.

* `pushRowsEvent`, `pushStreamMarks` : what both modes push;
* `posCmp`, `oldestPosition`, `Position.extractChanges` : cursors are positions of the log;
* `oldestGTID`, `unionGTID`, `Gtid.extractChanges` : cursors are sets of transactions.
-/

namespace Filament.Mysql

/-! ### What is pushed -/

/-- A rows event: the table it is of, the offset at which it ends, and its rows. -/
structure RowsEvent (ρ : Type) where
  schema : String
  table : String
  logPos : ℕ
  rows : List ρ
  deriving DecidableEq

/-- What a cycle is set up with; `count` is the number of rows that an event appends. -/
structure Setup (ρ : Type) where
  database : String
  resources : List String
  limit : ℕ
  count : RowsEvent ρ → ℕ

/-- What a cycle pushed, with cursors of a type. -/
structure Run (ρ κ : Type) where
  pushed : List (RowsEvent ρ × κ)
  marks : List (String × κ)
  emitted : ℕ

/-- How a cycle stands: events are still to come, one could not be read, or it returned. -/
inductive Result (ρ κ : Type) where
  | waiting (r : Run ρ κ)
  | failed (r : Run ρ κ)
  | returned (r : Run ρ κ)

def Result.run {ρ κ : Type} : Result ρ κ → Run ρ κ
  | .waiting r => r
  | .failed r => r
  | .returned r => r

variable {ρ κ : Type}

/-- Whether an event is of a selected table. -/
def Setup.tracks (st : Setup ρ) (e : RowsEvent ρ) : Bool :=
  decide (e.schema = st.database) && decide (e.table ∈ st.resources)

/-- `pushRowsEvent` : the run after an event, and whether it reached the limit. -/
def pushRowsEvent (st : Setup ρ) (skip : String → Bool) (e : RowsEvent ρ) (cursor : κ)
    (r : Run ρ κ) : Run ρ κ × Bool :=
  if !st.tracks e || skip e.table then (r, false)
  else
    let emitted := r.emitted + st.count e
    ({ r with pushed := r.pushed ++ [(e, cursor)], emitted },
      decide (0 < st.limit ∧ st.limit ≤ emitted))

/-- `pushStreamMarks`. -/
def pushStreamMarks (st : Setup ρ) (cursor : String → κ) (r : Run ρ κ) : Result ρ κ :=
  .returned { r with marks := r.marks ++ st.resources.map fun resource => (resource, cursor resource) }

def Run.empty : Run ρ κ := ⟨[], [], 0⟩

/-! ### Positions -/

/-- A position of the log: a file and an offset. -/
structure Position where
  name : String
  pos : ℕ
  deriving DecidableEq, Repr

/-- `posCmp` : by file name as text, then by offset. -/
def posCmp (a b : Position) : Ordering :=
  if a.name ≠ b.name then compareOfLessAndEq a.name b.name
  else if a.pos < b.pos then .lt
  else if b.pos < a.pos then .gt
  else .eq

variable (st : Setup ρ) (floors : List (String × Position))

/-- `oldestPosition` : the lowest floor. -/
def oldestPosition : Option Position :=
  floors.foldl (fun out floor =>
    match out with
    | none => some floor.2
    | some out => if posCmp floor.2 out = .lt then some floor.2 else some out) none

/-- `laterPosition`. -/
def laterPosition (a b : Position) : Position := if posCmp b a = .gt then b else a

namespace Position

/-- What the stream delivers; the offset at which an event ends is zero when it has none. -/
inductive Event (ρ : Type) where
  | rotate (name : String) (pos : ℕ)
  | rows (e : RowsEvent ρ)
  | other (logPos : ℕ)
  | failed

/-- The floor of a resource. -/
def floor (resource : String) : Position :=
  (floors.lookup resource).getD ⟨"", 0⟩

/-- The position after an event of a file. -/
def advance (p : Position) (logPos : ℕ) : Position :=
  if 0 < logPos then { p with pos := logPos } else p

/-- The mark of a resource when the stream is at a position. -/
def mark (at' : Position) (resource : String) : Position :=
  laterPosition at' (floor floors resource)

variable (watermark : Position)

/-- The loop of `ExtractChanges`. -/
def follow : Position → Run ρ Position → List (Event ρ) → Result ρ Position
  | _, r, [] => .waiting r
  | _, r, .failed :: _ => .failed r
  | _, r, .rotate name pos :: es => follow ⟨name, pos⟩ r es
  | p, r, .other logPos :: es =>
    let p := p.advance logPos
    if posCmp p watermark ≠ .lt then pushStreamMarks st (mark floors p) r
    else follow p r es
  | p, r, .rows e :: es =>
    let p := p.advance e.logPos
    let (r, limited) := pushRowsEvent st
      (fun resource => decide (posCmp p (floor floors resource) ≠ .gt)) e p r
    if limited = true ∨ posCmp p watermark ≠ .lt then pushStreamMarks st (mark floors p) r
    else follow p r es

/-- `ExtractChanges` with floors, once the bootstrap is read. -/
def extractChanges (events : List (Event ρ)) : Result ρ Position :=
  match oldestPosition floors with
  | none => .failed .empty
  | some start =>
    if posCmp start watermark ≠ .lt then pushStreamMarks st (mark floors watermark) .empty
    else follow st floors watermark start .empty events

end Position

/-! ### Sets of transactions -/

/-- A transaction: the server it was first committed on, and its number there. -/
structure GTID where
  sid : String
  gno : ℕ
  deriving DecidableEq, Repr

abbrev GTIDSet := Finset GTID

/-- `oldestGTID` : the floor that all others contain. -/
def oldestGTID : List (String × GTIDSet) → Except String (Option GTIDSet) :=
  List.foldlM (fun minSet floor =>
    match minSet with
    | none => .ok (some floor.2)
    | some minSet =>
      if floor.2 ⊆ minSet then .ok (some floor.2)
      else if minSet ⊆ floor.2 then .ok (some minSet)
      else .error "mysql cdc: incomparable gtid cursors (mixed streams?)") none

/-- `unionGTID`. -/
def unionGTID (a : GTIDSet) : Option GTIDSet → GTIDSet
  | none => a
  | some b => if b ⊆ a then a else if a ⊆ b then b else a ∪ b

namespace Gtid

/-- What the stream delivers. -/
inductive Event (ρ : Type) where
  | gtid (g : GTID)
  | xid
  | query (text : String)
  | rows (e : RowsEvent ρ)
  | failed

/-- Upper case, without white space at the ends. -/
def normalized (text : String) : List Char :=
  let front := text.toList.dropWhile Char.isWhitespace
  (front.reverse.dropWhile Char.isWhitespace).reverse.map Char.toUpper

/-- Whether a query event is one that begins or ends a transaction, or handles a savepoint. -/
def isControl (text : String) : Bool :=
  let q := normalized text
  q == "BEGIN".toList || q == "COMMIT".toList || q == "ROLLBACK".toList ||
    "SAVEPOINT ".toList.isPrefixOf q || "ROLLBACK TO ".toList.isPrefixOf q

/-- Where the stream is: the transactions that were delivered, and the one under way. -/
structure Cursor where
  committed : GTIDSet
  inflight : Option GTID

/-- `fold` : the transaction under way is delivered. -/
def Cursor.fold (c : Cursor) : Cursor :=
  ⟨c.inflight.elim c.committed fun g => insert g c.committed, none⟩

/-- Whether a resource's floor has the transaction under way. -/
def Cursor.skips (c : Cursor) (floors : List (String × GTIDSet)) (resource : String) : Bool :=
  match c.inflight, floors.lookup resource with
  | some g, some floor => decide (g ∈ floor)
  | _, _ => false

variable (floors : List (String × GTIDSet)) (watermark : GTIDSet)

/-- The mark of a resource when the stream has delivered some transactions. -/
def mark (delivered : GTIDSet) (resource : String) : GTIDSet :=
  unionGTID delivered (floors.lookup resource)

/-- The loop of `extractChangesGTID`. -/
def follow : Cursor → Run ρ GTIDSet → List (Event ρ) → Result ρ GTIDSet
  | _, r, [] => .waiting r
  | _, r, .failed :: _ => .failed r
  | c, r, .gtid g :: es =>
    let c : Cursor := ⟨c.fold.committed, some g⟩
    if watermark ⊆ c.committed then pushStreamMarks st (mark floors c.committed) r
    else follow c r es
  | c, r, .xid :: es =>
    let c := c.fold
    if watermark ⊆ c.committed then pushStreamMarks st (mark floors c.committed) r
    else follow c r es
  | c, r, .query text :: es =>
    let c := if isControl text then c else c.fold
    if watermark ⊆ c.committed then pushStreamMarks st (mark floors c.committed) r
    else follow c r es
  | c, r, .rows e :: es =>
    let (r, limited) := pushRowsEvent st (c.skips floors) e c.committed r
    if limited = true ∨ watermark ⊆ c.committed then
      pushStreamMarks st (mark floors c.committed) r
    else follow c r es

/-- `extractChangesGTID` with floors, once the bootstrap is read. -/
def extractChanges (events : List (Event ρ)) : Result ρ GTIDSet :=
  match oldestGTID floors with
  | .ok (some start) =>
    if watermark ⊆ start then pushStreamMarks st (mark floors start) .empty
    else follow st floors watermark ⟨start, none⟩ .empty events
  | _ => .failed .empty

end Gtid

end Filament.Mysql
