import Filament.Lib.Trace
import Filament.Postgres.WalHistory

/-!
# Bounded change extraction

One call of `ExtractChanges` is a cycle: it resumes the slot at the least stored cursor, reads a
snapshot of the resources that have none, and replays the session until it reaches the watermark,
where every resource is marked.  A resource's floor is its cursor, or for a resource without one the
position from which its bootstrap starts.

* `extractChanges` is the cycle, `follow` its receive loop.
* `Cycle` pairs a cycle with what the server does in it, `Cycle.Faithful` is the server's contract.
* `cycles_lossless_iff` : over any sequence of cycles, every required change that is delivered is
  pushed exactly when none of them lies below its resource's floor.
-/

namespace Filament.Postgres

open List Except Function PgCDCRun

/-- A stored checkpoint as the source reads it: a stream cursor, or one it rejects. -/
inductive StoredCursor where
  | stream (lsn : LSN) (seq : ℕ)
  | notStream
  | badLSN (raw err : String)
  deriving DecidableEq, Repr

/-- The stored checkpoints of the resources that have one. -/
abbrev Checkpoints := List (String × StoredCursor)

/-- The position and sequence of a cursor. -/
def StoredCursor.read (resource : String) : StoredCursor → Except String (LSN × ℕ)
  | .stream lsn seq => .ok (lsn, seq)
  | .notStream => .error s!"postgres cdc: checkpoint for {quoted resource} is not a stream cursor"
  | .badLSN raw err =>
    .error <| s!"postgres cdc: checkpoint for {quoted resource} has invalid LSN " ++
      s!"{quoted raw}: {err}"

/-- The least cursor, if any, and the greatest sequence. -/
def startPostgresLSN : Checkpoints → Except String (Option LSN × ℕ)
  | [] => .ok (none, 0)
  | (resource, cp) :: cps => do
    let (lsn, seq) ← cp.read resource
    let (start, maxSeq) ← startPostgresLSN cps
    return (some (match start with | none => lsn | some s => min lsn s), max seq maxSeq)

/-- The floor of each resource that has a cursor. -/
def postgresResourceFloors : Checkpoints → Except String (String → Option LSN)
  | [] => .ok fun _ => none
  | (resource, cp) :: cps => do
    let (lsn, _) ← cp.read resource
    let floors ← postgresResourceFloors cps
    return Function.update floors resource (some lsn)

def resourcesWithoutCheckpoints (resources : List String) (cps : Checkpoints) : List String :=
  resources.filter fun resource => (cps.lookup resource).isNone

/-- The tables of the selected resources; each needs a primary key. -/
def trackTables (schemas : String → Except String Schema) :
    List String → Except String (String → Option CdcTable)
  | [] => .ok fun _ => none
  | resource :: resources =>
    match schemas resource with
    | .error e => .error s!"postgres cdc: schema {quoted resource}: {e}"
    | .ok schema =>
      if schema.primaryKey = [] then
        .error s!"postgres cdc: resource {quoted resource} has no primary key"
      else do
        let tracked ← trackTables schemas resources
        return Function.update tracked resource (some ⟨schema.primaryKey, schema⟩)

/-- What the receive loop sees: a timeout or a message without content, a keepalive, a replication
message, or a failure of the connection. -/
inductive Event where
  | idle
  | keepalive (serverWALEnd : LSN)
  | xlogData (data : Except String Message) (walStart : LSN)
  | failed (err : String)

/-- The replication messages among some events. -/
def xlogs : List Event → List (Except String Message × LSN)
  | [] => []
  | .xlogData data walStart :: es => (data, walStart) :: xlogs es
  | _ :: es => xlogs es

/-- What one cycle is given: the options, what the catalog and the slot answer, the readings of the
current position before the snapshot (`currentLSN`) and after it (`watermark`), the snapshot's rows
and the events of the session. `serverError` is an error of a call made to set the cycle up. -/
structure CycleInput (V : Type) where
  resources : List String
  schemaName : String
  schemas : String → Except String Schema
  limit : ℕ
  snapshotNone : Bool
  slotName : String
  slotStart : LSN
  slotSnapshot : Bool
  currentLSN : LSN
  serverError : Option String
  snapshotRows : List (String × List (Option V))
  watermark : LSN
  sink : String → ℕ → Option String
  events : List Event

/-- How a cycle ends: nothing selected, an error, events still to come, or marked at a position
with some events left. -/
inductive CycleResult (V : Type) where
  | skipped
  | failed (err : String)
  | waiting (r : PgCDCRun V)
  | marked (r : PgCDCRun V) (mark : LSN) (rest : List Event)

variable {V : Type} {cps : Checkpoints} {resources : List String}

namespace PgCDCRun

/-- Drains the writers of `resources` at a position. -/
def drainAll (lsn : LSN) : List String → PgCDCRun V → Except String (PgCDCRun V)
  | [], r => .ok r
  | resource :: resources, r =>
    match r.sink resource r.seq with
    | some e => .error e
    | none => drainAll lsn resources { r with out := r.out ++ [.drain resource lsn r.seq] }

/-- Drains every resource at the cycle's final position, numbered above every row. -/
def pushStreamMarks (r : PgCDCRun V) (lsn : LSN) : Except String (PgCDCRun V) :=
  drainAll lsn r.resources { r with seq := r.seq + 1 }

/-- The end of a cycle at a position. -/
def markAt (r : PgCDCRun V) (mark : LSN) (rest : List Event) : CycleResult V :=
  match r.pushStreamMarks mark with
  | .error e => .failed e
  | .ok r => .marked r mark rest

variable (fromText : ℕ → Field → String → Except String (Option V))

/-- The receive loop. -/
def follow (watermark : LSN) : LSN → PgCDCRun V → List Event → CycleResult V
  | _, r, [] => .waiting r
  | lastLSN, r, .idle :: es => follow watermark lastLSN r es
  | _, _, .failed e :: _ => .failed e
  | lastLSN, r, .keepalive serverWALEnd :: es =>
    if !r.inTxn && decide (watermark ≤ serverWALEnd) then r.markAt (max watermark lastLSN) es
    else follow watermark lastLSN r es
  | _, r, .xlogData data walStart :: es =>
    match r.process fromText data walStart with
    | .error e => .failed e
    | .ok (committed, r) =>
      if r.limited && decide (committed ≠ 0) then r.markAt committed es
      else if watermark ≤ committed then r.markAt committed es
      else follow watermark (if committed ≠ 0 then committed else walStart) r es

end PgCDCRun

namespace CycleInput

variable (inp : CycleInput V)

/-- Where the bootstrap of a resource without a cursor starts: the consistent point of a new slot,
else the position read before the fresh snapshot was opened. -/
def bootstrapFloor : LSN := if inp.slotSnapshot then inp.slotStart else inp.currentLSN

/-- The run before the first event: the snapshot's rows are written, and every resource without a
cursor is floored where its bootstrap starts. -/
def initialRun (cps : Checkpoints) (tracked : String → Option CdcTable)
    (floors : String → Option LSN) (seq : ℕ) : PgCDCRun V :=
  let missing := resourcesWithoutCheckpoints inp.resources cps
  { sink := inp.sink
    schema := inp.schemaName
    resources := inp.resources
    tracked := tracked
    relations := fun _ => none
    seq := seq
    emitted := 0
    limit := inp.limit
    limited := false
    inTxn := false
    floors := fun resource =>
      if resource ∈ missing then some inp.bootstrapFloor else floors resource
    out := if missing = [] ∨ inp.snapshotNone then []
      else inp.snapshotRows.map fun row => .row row.1 row.2 .opInsert none 0 }

/-- The start position and the run before the first event. -/
def prepare (cps : Checkpoints) : Except String (LSN × PgCDCRun V) := do
  let tracked ← trackTables inp.schemas inp.resources
  match inp.serverError with
  | some e => .error e
  | none =>
    let (found, seq) ← startPostgresLSN cps
    let floors ← postgresResourceFloors cps
    let start := found.getD inp.slotStart
    if start < inp.slotStart then
      .error <| s!"postgres cdc: checkpoint {lsnText start} is older than slot " ++
        s!"{quoted inp.slotName} confirmed position {lsnText inp.slotStart}; " ++
        "WAL was consumed by another client"
    else if inp.watermark < start then
      .error <| s!"postgres cdc: checkpoint {lsnText start} is ahead of server watermark " ++
        s!"{lsnText inp.watermark} (timeline changed?)"
    else return (start, inp.initialRun cps tracked floors seq)

end CycleInput

/-- One cycle. -/
def extractChanges (fromText : ℕ → Field → String → Except String (Option V))
    (inp : CycleInput V) (cps : Checkpoints) : CycleResult V :=
  if inp.resources = [] then .skipped
  else
    match inp.prepare cps with
    | .error e => .failed e
    | .ok (start, run) =>
      if inp.watermark ≤ start then run.markAt start inp.events
      else run.follow fromText inp.watermark 0 inp.events

/-! ### The receive loop -/

theorem xlogs_append (es es' : List Event) : xlogs (es ++ es') = xlogs es ++ xlogs es' := by
  induction es with
  | nil => rfl
  | cons e es ih => cases e <;> simp [xlogs, ih]

section Loop

variable {fromText : ℕ → Field → String → Except String (Option V)} {r r' q : PgCDCRun V}
  {mark lsn : LSN} {rest es : List Event}

theorem markAt_eq_marked :
    r.markAt lsn es = .marked r' mark rest ↔
      r.pushStreamMarks lsn = .ok r' ∧ lsn = mark ∧ es = rest := by
  unfold markAt
  cases r.pushStreamMarks lsn <;> simp

/-- A loop that reaches its mark has folded the messages of the events it took. -/
theorem follow_marked {watermark lastLSN : LSN}
    (h : r.follow fromText watermark lastLSN es = .marked r' mark rest) :
    ∃ taken ms q, es = taken ++ rest ∧ xlogs taken = ms.map (fun m => (.ok m.1, m.2)) ∧
      r.processAll fromText ms = .ok q ∧ q.pushStreamMarks mark = .ok r' := by
  induction es generalizing r lastLSN with
  | nil => cases h
  | cons e es ih =>
    cases e with
    | failed err => cases h
    | idle =>
      obtain ⟨taken, ms, q, rfl, hx, hp, hm⟩ := ih h
      exact ⟨.idle :: taken, ms, q, rfl, hx, hp, hm⟩
    | keepalive serverWALEnd =>
      unfold follow at h
      split_ifs at h
      · obtain ⟨hm, rfl, rfl⟩ := markAt_eq_marked.1 h
        exact ⟨[.keepalive serverWALEnd], [], r, rfl, rfl, rfl, hm⟩
      · obtain ⟨taken, ms, q, rfl, hx, hp, hm⟩ := ih h
        exact ⟨.keepalive serverWALEnd :: taken, ms, q, rfl, hx, hp, hm⟩
    | xlogData data walStart =>
      unfold follow at h
      cases data with
      | error e => cases h
      | ok m =>
        cases hr : r.process fromText (.ok m) walStart with
        | error e =>
          rw [hr] at h
          cases h
        | ok res =>
          obtain ⟨committed, r₁⟩ := res
          simp only [hr] at h
          -- the loop ends here, at the commit, or goes on with the next event
          have hend : r₁.markAt committed es = .marked r' mark rest →
              ∃ taken ms q, .xlogData (.ok m) walStart :: es = taken ++ rest ∧
                xlogs taken = ms.map (fun m => (.ok m.1, m.2)) ∧
                r.processAll fromText ms = .ok q ∧ q.pushStreamMarks mark = .ok r' := by
            intro hmark
            obtain ⟨hm, rfl, rfl⟩ := markAt_eq_marked.1 hmark
            refine ⟨[.xlogData (.ok m) walStart], [(m, walStart)], r₁, rfl, rfl, ?_, hm⟩
            exact processAll_cons.2 ⟨committed, r₁, hr, rfl⟩
          split_ifs at h
          · exact hend h
          · exact hend h
          all_goals
            obtain ⟨taken, ms, q, rfl, hx, hp, hm⟩ := ih h
            refine ⟨.xlogData (.ok m) walStart :: taken, (m, walStart) :: ms, q, rfl, ?_, ?_, hm⟩
            · simp [xlogs, hx]
            · exact processAll_cons.2 ⟨committed, r₁, hr, hp⟩

/-- The marks are all that is added. -/
theorem drainAll_out (h : drainAll lsn resources q = .ok r') :
    r'.tracked = q.tracked ∧ q.out <+: r'.out ∧ ∀ resource cells op l seq,
      .row resource cells op l seq ∈ r'.out → .row resource cells op l seq ∈ q.out := by
  induction resources generalizing q with
  | nil =>
    obtain rfl : q = r' := by simpa [drainAll] using h
    exact ⟨rfl, prefix_rfl, fun _ _ _ _ _ => id⟩
  | cons res resources ih =>
    unfold drainAll at h
    split at h
    · cases h
    · obtain ⟨htracked, hout, hrow⟩ := ih h
      refine ⟨htracked, (prefix_append ..).trans hout, fun resource cells op l seq hmem => ?_⟩
      simpa using hrow _ _ _ _ _ hmem

theorem pushStreamMarks_out (h : q.pushStreamMarks mark = .ok r') :
    r'.tracked = q.tracked ∧ q.out <+: r'.out ∧ ∀ resource cells op l seq,
      .row resource cells op l seq ∈ r'.out → .row resource cells op l seq ∈ q.out :=
  drainAll_out (q := { q with seq := q.seq + 1 }) h

end Loop

/-! ### What a cycle starts from -/

/-- The floor of a resource: its cursor, else where its bootstrap starts. -/
def CycleInput.floorOf (inp : CycleInput V) (cps : Checkpoints) (resource : String) : LSN :=
  match cps.lookup resource with
  | some (.stream lsn _) => lsn
  | _ => inp.bootstrapFloor

theorem floors_of_lookup {floors : String → Option LSN} {cp : StoredCursor}
    (h : postgresResourceFloors cps = .ok floors) (hcp : cps.lookup resource = some cp) :
    ∃ lsn seq, cp = .stream lsn seq ∧ floors resource = some lsn := by
  induction cps generalizing floors with
  | nil => cases hcp
  | cons entry cps ih =>
    obtain ⟨res, cp'⟩ := entry
    simp only [postgresResourceFloors, bind_eq_ok, pure_eq_ok_iff] at h
    obtain ⟨⟨lsn, seq⟩, hread, floors', hfloors, rfl⟩ := h
    rw [lookup_cons] at hcp
    by_cases hres : resource = res
    · subst hres
      obtain rfl : cp' = cp := by simpa using hcp
      cases cp' with
      | stream l s =>
        cases hread
        exact ⟨_, _, rfl, by simp⟩
      | notStream => cases hread
      | badLSN raw err => cases hread
    · rw [show (resource == res) = false by simpa using hres] at hcp
      obtain ⟨l, s, hl, hf⟩ := ih hfloors hcp
      exact ⟨l, s, hl, by rw [update_of_ne hres, hf]⟩

theorem tracked_of_mem {schemas : String → Except String Schema}
    {tracked : String → Option CdcTable} (h : trackTables schemas resources = .ok tracked)
    (hres : resource ∈ resources) : ∃ t, tracked resource = some t := by
  induction resources generalizing tracked with
  | nil => cases hres
  | cons res resources ih =>
    unfold trackTables at h
    cases hs : schemas res with
    | error e =>
      rw [hs] at h
      cases h
    | ok schema =>
      simp only [hs] at h
      split_ifs at h
      simp only [bind_eq_ok, pure_eq_ok_iff] at h
      obtain ⟨tracked', htracked, rfl⟩ := h
      by_cases heq : resource = res
      · subst heq
        exact ⟨_, update_self ..⟩
      · rw [update_of_ne heq]
        exact ih htracked ((mem_cons.1 hres).resolve_left heq)

/-- The run a cycle starts from. -/
structure CycleInput.Prepared (inp : CycleInput V) (cps : Checkpoints) (run : PgCDCRun V) :
    Prop where
  schema : run.schema = inp.schemaName
  knows : run.Knows fun _ => none
  rows : run.RowsPastFloor
  tracked : ∀ resource ∈ inp.resources, ∃ t, run.tracked resource = some t
  floors : ∀ resource ∈ inp.resources, run.floors resource = some (inp.floorOf cps resource)

theorem prepare_spec {inp : CycleInput V} {start : LSN} {run : PgCDCRun V}
    (h : inp.prepare cps = .ok (start, run)) : inp.Prepared cps run := by
  simp only [CycleInput.prepare, bind_eq_ok] at h
  obtain ⟨tracked, htracked, h⟩ := h
  cases hse : inp.serverError with
  | some e =>
    rw [hse] at h
    cases h
  | none =>
    simp only [hse, bind_eq_ok] at h
    obtain ⟨⟨found, seq⟩, -, floors, hfloors, h⟩ := h
    split_ifs at h
    obtain ⟨-, rfl⟩ := Prod.mk.inj (pure_eq_ok_iff.1 h)
    refine ⟨rfl, rfl, ?_, fun resource hres => tracked_of_mem htracked hres, ?_⟩
    · -- the rows of the snapshot have no position
      intro resource cells op lsn seq hmem
      simp only [CycleInput.initialRun] at hmem
      split_ifs at hmem
      · cases hmem
      · obtain ⟨row, -, hrow⟩ := mem_map.1 hmem
        cases hrow
    · intro resource hres
      simp only [CycleInput.initialRun, resourcesWithoutCheckpoints, mem_filter, hres,
        true_and, CycleInput.floorOf]
      cases hcp : cps.lookup resource with
      | none => simp
      | some cp =>
        obtain ⟨lsn, s, rfl, hf⟩ := floors_of_lookup hfloors hcp
        simpa using hf

/-! ### Sequences of cycles -/

/-- A cycle together with the server's part in it: the transactions its session would send, and
those its bootstrap snapshot sees. -/
structure Cycle (V : Type) where
  input : CycleInput V
  sent : List SentTxn
  visible : Txn → Prop

namespace Cycle

variable (cy : Cycle V) (cps : Checkpoints)

/-- The messages of the session. -/
def items : List WalItem := cy.sent.flatMap SentTxn.items

/-- The server's contract: started at a position it sends, in commit order, every transaction that
commits at or after it; tables are announced; what is received is an initial part of that. -/
structure Faithful (h : History) : Prop where
  sends : ∀ start run, cy.input.prepare cps = .ok (start, run) →
    cy.sent.map SentTxn.txn = h.txns.filter fun t => start ≤ t.commitLSN
  announces : ∀ start run, cy.input.prepare cps = .ok (start, run) →
    Announces run.tracked cy.items
  receives : xlogs cy.input.events <+: cy.items.map fun it => (.ok it.received.1, it.received.2)

/-- The transaction was received in full before the events `rest`. -/
def Delivered (rest : List Event) (s : SentTxn) : Prop :=
  ∃ pre post, cy.sent = pre ++ s :: post ∧
    ((pre ++ [s]).flatMap SentTxn.items).length + (xlogs rest).length ≤
      (xlogs cy.input.events).length

/-- The transactions a cycle owes to a resource: those that commit at or after its cursor; without
a cursor those its bootstrap snapshot does not see, or, when no snapshot is taken, those that commit
at or after the position its stream starts from. -/
def Required (resource : String) (t : Txn) : Prop :=
  match cps.lookup resource with
  | some (.stream lsn _) => lsn ≤ t.commitLSN
  | _ => if cy.input.snapshotNone then cy.input.bootstrapFloor ≤ t.commitLSN else ¬ cy.visible t

variable (fromText : ℕ → Field → String → Except String (Option V))

/-- A change the cycle owes and has received when it ends with `rest` left. -/
def Owes (rest : List Event) (s : SentTxn) (c : Change) : Prop :=
  cy.Delivered rest s ∧ c ∈ s.txn.changes ∧ c.relNamespace = cy.input.schemaName ∧
    c.relationName ∈ cy.input.resources ∧ cy.Required cps c.relationName s.txn

/-- When the cycle is marked, the rows of every change it owes have been pushed to its resource's
writer. -/
def Lossless : Prop :=
  ∀ r mark rest, extractChanges fromText cy.input cps = .marked r mark rest →
    ∀ s c, cy.Owes cps rest s c → Pushed fromText cy.items r c

/-- No change the cycle owes lies below the floor of its resource. -/
def NoStraddle : Prop :=
  ∀ r mark rest, extractChanges fromText cy.input cps = .marked r mark rest →
    ∀ s c, cy.Owes cps rest s c → cy.input.floorOf cps c.relationName ≤ c.lsn

/-- The checkpoints after a cycle: every resource of a marked cycle resumes from the mark. -/
def next (cps : Checkpoints) (cy : Cycle V) : Checkpoints :=
  match extractChanges fromText cy.input cps with
  | .marked r mark _ => cy.input.resources.map (fun res => (res, .stream mark r.seq)) ++ cps
  | _ => cps

variable {cy cps fromText} {rest events : List Event} {r : PgCDCRun V} {h : History} {s : SentTxn}
  {c : Change} {mark : LSN}

/-- The changes of a delivered transaction are among the messages received. -/
theorem Delivered.mem_take (hd : cy.Delivered rest s) {n : ℕ}
    (hn : n + (xlogs rest).length = (xlogs cy.input.events).length) (hc : c ∈ s.txn.changes) :
    WalItem.change c ∈ cy.items.take n := by
  obtain ⟨pre, post, hsent, hlen⟩ := hd
  have hitems : cy.items = (pre ++ [s]).flatMap SentTxn.items ++ post.flatMap SentTxn.items := by
    simp [items, hsent]
  have hle : ((pre ++ [s]).flatMap SentTxn.items).length ≤ n := by omega
  rw [hitems, take_append, take_of_length_le hle]
  refine mem_append_left _ ?_
  rw [mem_flatMap]
  exact ⟨s, by simp, SentTxn.mem_items.2 hc⟩

section

variable (hf : cy.Faithful cps h) (hm : extractChanges fromText cy.input cps = .marked r mark rest)
include hf hm

/-- A cycle that ends with `rest` left has folded the messages received before. -/
theorem marked_spec :
    ∃ start run, cy.input.prepare cps = .ok (start, run) ∧ ∃ n q,
      n + (xlogs rest).length = (xlogs cy.input.events).length ∧
      run.processAll fromText ((cy.items.take n).map WalItem.received) = .ok q ∧
      q.pushStreamMarks mark = .ok r := by
  unfold extractChanges at hm
  split_ifs at hm
  cases hp : cy.input.prepare cps with
  | error e =>
    rw [hp] at hm
    cases hm
  | ok res =>
    obtain ⟨start, run⟩ := res
    refine ⟨start, run, rfl, ?_⟩
    simp only [hp] at hm
    split_ifs at hm
    · obtain ⟨hq, rfl, rfl⟩ := markAt_eq_marked.1 hm
      exact ⟨0, run, by simp, rfl, hq⟩
    obtain ⟨taken, ms, q, hes, hx, hq, hm⟩ := follow_marked hm
    have hlen : (xlogs taken).length = ms.length := by simp [hx]
    refine ⟨ms.length, q, ?_, ?_, hm⟩
    · rw [hes, xlogs_append, length_append, hlen]
    · -- the messages folded are the first ones of the session
      have hpre : xlogs taken <+: cy.items.map fun it => (.ok it.received.1, it.received.2) :=
        (prefix_append _ (xlogs rest)).trans (by rw [← xlogs_append, ← hes]; exact hf.receives)
      rw [prefix_iff_eq_take, hlen, ← map_take, hx] at hpre
      have hms : ms = (cy.items.take ms.length).map WalItem.received := by
        have := congrArg (map fun p : Except String Message × LSN =>
          (p.1.toOption.getD .other, p.2)) hpre
        simpa [comp_def, Except.toOption] using this
      rw [← hms]
      exact hq

/-- **One owed change** is pushed exactly when its own position is not below the floor. -/
theorem owed_pushed_iff (ho : cy.Owes cps rest s c) :
    Pushed fromText cy.items r c ↔ cy.input.floorOf cps c.relationName ≤ c.lsn := by
  obtain ⟨hd, hc, hns, hres, -⟩ := ho
  obtain ⟨start, run, hp, n, q, hn, hq, hmark⟩ := marked_spec hf hm
  have hprep := prepare_spec hp
  have hpast : run.pastFloor c.relationName c.lsn = true ↔
      cy.input.floorOf cps c.relationName ≤ c.lsn := by
    rw [pastFloor, hprep.floors c.relationName hres, decide_eq_true_iff]
  rw [← hpast]
  constructor
  · intro hpushed
    obtain ⟨cells, op, seq, hmem⟩ := hpushed.exists_row
    rw [← (processAll_frame hq).pastFloor_eq]
    exact processAll_rowsPastFloor hprep.rows hq _ _ _ _ _
      ((pushStreamMarks_out hmark).2.2 _ _ _ _ _ hmem)
  · intro hpast
    obtain ⟨t, ht⟩ := hprep.tracked c.relationName hres
    obtain ⟨pre, post, t, msg, rows, m, hitems, ht, hmsg, hrows, hout⟩ :=
      pushed_of_past hprep.knows ((hf.announces start run hp).take n) hq (hd.mem_take hn hc) ht
        (hns.trans hprep.schema.symm) hpast
    obtain ⟨htracked, hprefix, -⟩ := pushStreamMarks_out hmark
    refine ⟨pre, post ++ cy.items.drop n, t, msg, rows, m, ?_, htracked ▸ ht, hmsg, hrows,
      hout.trans hprefix.isInfix⟩
    rw [← cons_append, ← append_assoc, ← hitems, take_append_drop]

end

/-- **Bounded extraction is lossless exactly without straddling transactions.** Over every history
and every sequence of cycles, each resuming from the cursors marked so far, the rows of every
change that a cycle owes and receives before its mark are pushed to its resource in that cycle iff in no cycle an
owed change lies below its resource's floor, as it does when a transaction that commits above the
floor wrote the change before it. -/
theorem cycles_lossless_iff (h : History) (cps : Checkpoints) (cycles : List (Cycle V))
    (hf : Trace.Along (next fromText) (fun cps cy => cy.Faithful cps h) cps cycles) :
    Trace.Along (next fromText) (fun cps cy => cy.Lossless cps fromText) cps cycles ↔
      Trace.Along (next fromText) (fun cps cy => cy.NoStraddle cps fromText) cps cycles := by
  refine Trace.along_congr (fun cps cy hf => ?_) hf
  constructor
  · intro hl r mark rest hm s c ho
    exact (owed_pushed_iff hf hm ho).1 (hl r mark rest hm s c ho)
  · intro hns r mark rest hm s c ho
    exact (owed_pushed_iff hf hm ho).2 (hns r mark rest hm s c ho)

/-! ### Cycles over a straddling transaction -/

/-- A cycle over `notes` with a slot that started at `slotStart`. -/
def noteCycle (slotStart watermark : LSN) (slotSnapshot : Bool) (events : List Event) :
    Cycle String where
  input :=
    { resources := ["notes"]
      schemaName := "public"
      schemas := fun _ => .ok ⟨"notes", [⟨"id", false, "", "", 0, 0⟩, ⟨"body", true, "", "", 0, 0⟩],
        ["id"]⟩
      limit := 0
      snapshotNone := false
      slotName := "filament"
      slotStart := slotStart
      slotSnapshot := slotSnapshot
      currentLSN := watermark
      serverError := none
      snapshotRows := []
      watermark := watermark
      sink := fun _ _ => none
      events := events }
  sent := [straddlerSent]
  visible := fun _ => False

/-- The messages of the transaction. -/
def straddlerEvents : List Event :=
  [.xlogData (.ok (.beginTxn 110 5)) 90, .xlogData (.ok (.relation noteRelation)) 90,
   .xlogData (.ok noteInsert.message) 90, .xlogData (.ok (.commit 110 120)) 110]

/-- The bootstrap cycle is marked at 100 while the transaction is open; the next one receives it. -/
def straddledCycles : List (Cycle String) :=
  [noteCycle 50 100 true [.keepalive 100], noteCycle 50 120 false straddlerEvents]

theorem noteCycle_announces (slotStart watermark : LSN) (slotSnapshot : Bool)
    (events : List Event) (tracked : String → Option CdcTable)
    (htracked : ∀ t, tracked "notes" = some t → t.pks = ["id"]) :
    Announces tracked (noteCycle slotStart watermark slotSnapshot events).items := by
  intro pre c post heq
  have hitems : straddlerSent.items = pre ++ .change c :: post := heq
  obtain ⟨rfl, rfl⟩ := straddlerSent_change hitems
  refine ⟨noteRelation, rfl, rfl, rfl, fun t ht pk hpk => ?_⟩
  rw [htracked t ht] at hpk
  exact ⟨⟨"id", 25⟩, by simp [noteRelation], (mem_singleton.1 hpk).symm⟩

theorem noteCycle_faithful {slotStart watermark : LSN} {slotSnapshot : Bool} (hstart : ∀ start run,
      (noteCycle slotStart watermark slotSnapshot events).input.prepare cps = .ok (start, run) →
        start ≤ 110 ∧ run.tracked "notes" = some ⟨["id"], ⟨"notes", [⟨"id", false, "", "", 0, 0⟩,
          ⟨"body", true, "", "", 0, 0⟩], ["id"]⟩⟩) (hev : xlogs events <+: xlogs straddlerEvents) :
    (noteCycle slotStart watermark slotSnapshot events).Faithful cps ⟨[straddler], by simp⟩ := by
  refine ⟨fun start run h => ?_, fun start run h => ?_, hev⟩
  · have hle := (hstart start run h).1
    simp [noteCycle, straddlerSent, straddler, hle]
  · refine noteCycle_announces _ _ _ _ _ fun t ht => ?_
    rw [(hstart start run h).2, Option.some.injEq] at ht
    rw [← ht]

theorem straddled_faithful :
    Trace.Along (next textCell) (fun cps cy => cy.Faithful cps ⟨[straddler], by simp⟩) []
      straddledCycles := by
  refine ⟨noteCycle_faithful (fun start run h => ?_) nil_prefix,
    noteCycle_faithful (fun start run h => ?_) prefix_rfl, trivial⟩
  all_goals
    cases h
    exact ⟨by decide, rfl⟩

/-- A bootstrap from the consistent point 50 pushes the same transaction. -/
theorem bootstrap_cycle_lossless :
    Trace.Along (next textCell) (fun cps cy => cy.Lossless cps textCell) []
      [noteCycle 50 120 true straddlerEvents] := by
  have hf : Trace.Along (next textCell) (fun cps cy => cy.Faithful cps ⟨[straddler], by simp⟩) []
      [noteCycle 50 120 true straddlerEvents] := by
    refine ⟨noteCycle_faithful (fun start run h => ?_) prefix_rfl, trivial⟩
    cases h
    exact ⟨by decide, rfl⟩
  refine (cycles_lossless_iff _ _ _ hf).2 ⟨?_, trivial⟩
  rintro r mark rest - s c ⟨⟨pre, post, hsent, -⟩, hc, -⟩
  have hs : s ∈ [straddlerSent] := by
    show s ∈ (noteCycle 50 120 true straddlerEvents).sent
    rw [hsent]
    simp
  rw [mem_singleton.1 hs] at hc
  rw [mem_singleton.1 hc]
  decide

/-- The second cycle receives the whole transaction, which commits at 110 above the cursor 100, and
marks `notes` at 120 without pushing its insert: the record's own position 90 is below the floor. -/
theorem straddler_dropped :
    Trace.Along (next textCell) (fun cps cy => cy.Faithful cps ⟨[straddler], by simp⟩) []
      straddledCycles ∧
    (∀ cy ∈ straddledCycles.head?, next textCell [] cy = [("notes", .stream 100 1)]) ∧
    (∀ cy ∈ straddledCycles.getLast?, ∃ r,
      extractChanges textCell cy.input [("notes", .stream 100 1)] = .marked r 120 [] ∧
      r.out = [.drain "notes" 120 2]) ∧
    ¬ Trace.Along (next textCell) (fun cps cy => cy.Lossless cps textCell) [] straddledCycles := by
  refine ⟨straddled_faithful, ?_, ?_, ?_⟩
  · rintro cy ⟨⟩
    rfl
  · rintro cy ⟨⟩
    exact ⟨_, rfl, rfl⟩
  · rintro ⟨-, hl, -⟩
    obtain ⟨cells, op, seq, hmem⟩ := (hl _ 120 [] rfl straddlerSent noteInsert
      ⟨⟨[], [], rfl, by decide⟩, by simp [straddlerSent, straddler], rfl, by
        simp [noteInsert, noteCycle], show 100 ≤ 110 by decide⟩).exists_row
    change _ ∈ [Output.drain "notes" 120 2] at hmem
    simp at hmem

end Cycle

end Filament.Postgres
