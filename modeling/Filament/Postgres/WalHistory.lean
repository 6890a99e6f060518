import Filament.Postgres.Decoder

/-!
# Write-ahead log histories and replication sessions

The server side of logical replication.  A history lists the committed transactions in commit
order; every change record has its own position, which precedes the commit of its transaction.
A session started at a position sends every transaction that commits at or after it, in commit
order, and announces a table by a relation message before the first change to it.

* `processAll_append` cuts a fold of messages in two.
* `processAll_knows` : the relations a run knows are those announced so far.
* `pushed_iff_past` : in a session that keeps its contract, a change to a tracked table reaches the
  output exactly when its own position is not below the floor.
-/

namespace Filament.Postgres

open List Option Except

/-- A change record: the table it changes, its own position and the message it decodes to. -/
structure Change where
  relNamespace : String
  relationName : String
  lsn : LSN
  relationID : ℕ
  message : Message
  isChange : message.changes = some relationID

/-- A committed transaction. -/
structure Txn where
  xid : ℕ
  changes : List Change
  commitLSN : LSN
  endLSN : LSN
  lsn_lt : ∀ c ∈ changes, c.lsn < commitLSN
  commit_lt : commitLSN < endLSN

/-- The committed transactions, in commit order. -/
structure History where
  txns : List Txn
  sorted : txns.Pairwise fun t t' => t.endLSN ≤ t'.commitLSN

/-- One message of a session: a change, or a message that is none. -/
inductive WalItem where
  | change (c : Change)
  | aux (m : Message) (lsn : LSN) (h : m.changes = none)

namespace WalItem

/-- The message and the position it is received at. -/
def received : WalItem → Message × LSN
  | change c => (c.message, c.lsn)
  | aux m lsn _ => (m, lsn)

/-- The change an item carries. -/
def change? : WalItem → Option Change
  | change c => some c
  | aux _ _ _ => none

end WalItem

/-- A transaction as a session sends it: its changes between a begin and a commit message, with
relation and other messages among them. -/
structure SentTxn where
  txn : Txn
  beginAt : LSN
  body : List WalItem
  commitAt : LSN
  body_changes : body.filterMap WalItem.change? = txn.changes
  body_plain : ∀ m lsn h, WalItem.aux m lsn h ∈ body →
    (∀ f x, m ≠ .beginTxn f x) ∧ ∀ c e, m ≠ .commit c e

/-- The messages of a transaction. -/
def SentTxn.items (s : SentTxn) : List WalItem :=
  .aux (.beginTxn s.txn.commitLSN s.txn.xid) s.beginAt rfl :: s.body ++
    [.aux (.commit s.txn.commitLSN s.txn.endLSN) s.commitAt rfl]

variable {c : Change} {items : List WalItem}

theorem SentTxn.mem_items {s : SentTxn} : WalItem.change c ∈ s.items ↔ c ∈ s.txn.changes := by
  rw [← s.body_changes, mem_filterMap]
  constructor
  · intro h
    simp only [items, cons_append, mem_cons, reduceCtorEq, mem_append,
      not_mem_nil, or_false, false_or] at h
    exact ⟨_, h, rfl⟩
  · rintro ⟨it, hit, hc⟩
    cases it with
    | aux => cases hc
    | change c' =>
      obtain rfl : c' = c := Option.some.inj hc
      simp [items, hit]

/-- What has been announced about each relation. -/
def announce (known : ℕ → Option RelationMessage) (it : Message × LSN) :
    ℕ → Option RelationMessage :=
  match it.1 with
  | .relation msg => Function.update known msg.relationID (some msg)
  | _ => known

/-- The relation messages in force after some messages of a session. -/
def announced (msgs : List (Message × LSN)) : ℕ → Option RelationMessage :=
  msgs.foldl announce fun _ => none

/-- The server's contract for the tables a run tracks: a change is preceded by the relation message
of its table, which has the primary-key columns. -/
def Announces (tracked : String → Option CdcTable) (items : List WalItem) : Prop :=
  ∀ pre c post, items = pre ++ .change c :: post →
    ∃ msg, announced (pre.map WalItem.received) c.relationID = some msg ∧
      msg.relNamespace = c.relNamespace ∧ msg.relationName = c.relationName ∧
      ∀ t, tracked c.relationName = some t → ∀ pk ∈ t.pks, ∃ col ∈ msg.columns, col.name = pk

theorem Announces.take {tracked : String → Option CdcTable} (h : Announces tracked items) (n : ℕ) :
    Announces tracked (items.take n) := by
  intro pre c post heq
  refine h pre c (post ++ items.drop n) ?_
  rw [← cons_append, ← append_assoc, ← heq, take_append_drop]

namespace PgCDCRun

variable {V : Type} {fromText : ℕ → Field → String → Except String (Option V)}
  {r r' q : PgCDCRun V}

variable {ms ms' : List (Message × LSN)}

theorem processAll_append :
    r.processAll fromText (ms ++ ms') = .ok r' ↔
      ∃ q, r.processAll fromText ms = .ok q ∧ q.processAll fromText ms' = .ok r' := by
  induction ms generalizing r with
  | nil => simp [processAll]
  | cons it ms ih =>
    obtain ⟨m, lsn⟩ := it
    simp only [cons_append, processAll_cons, ih]
    constructor
    · rintro ⟨c, q₁, h₁, q₂, h₂, h₃⟩
      exact ⟨q₂, ⟨c, q₁, h₁, h₂⟩, h₃⟩
    · rintro ⟨q₂, ⟨c, q₁, h₁, h₂⟩, h₃⟩
      exact ⟨c, q₁, h₁, q₂, h₂, h₃⟩

theorem processAll_frame (h : r.processAll fromText ms = .ok r') : SameSession r r' :=
  processAll_rel (.refl _) (fun hq => (process_frame hq).trans) h

/-! ### Relations -/

variable {lsn : LSN} {known : ℕ → Option RelationMessage} {m : Message}
  {rows : List (List (Option V) × Operation)} {t : CdcTable}

theorem SameSession.bindRelation_eq (h : SameSession r r') : r'.bindRelation = r.bindRelation := by
  funext msg
  simp [bindRelation, h.tracked, h.schema]

variable (r known) in
/-- The relations a run knows are the announced ones, bound to the tracked tables. -/
def Knows : Prop :=
  r.relations = fun id => (known id).map r.bindRelation

theorem process_knows {c : LSN} (hr : r.Knows known)
    (h : r.process fromText (.ok m) lsn = .ok (c, r')) : r'.Knows (announce known (m, lsn)) := by
  have hbind := (process_frame h).bindRelation_eq
  unfold Knows at hr ⊢
  rw [hbind]
  cases hid : m.changes.bind r.relation with
  | some rel =>
    obtain ⟨id, hm, hrel⟩ := bind_eq_some_iff.1 hid
    have hknown : announce known (m, lsn) = known := by
      cases m <;> first | rfl | simp [Message.changes] at hm
    rw [hknown, ← hr]
    rcases (process_change hm hrel h).2 with ⟨-, rfl⟩ | ⟨-, rows, -, rfl⟩
    · rfl
    · rw [relations_emitAll]
  | none =>
    cases m with
    | relation msg =>
      obtain ⟨-, rfl⟩ := h
      show Function.update r.relations msg.relationID (some (r.bindRelation msg)) =
        fun id => (Function.update known msg.relationID (some msg) id).map r.bindRelation
      funext id
      by_cases hid : id = msg.relationID
      · subst hid
        simp
      · simp [hid, hr]
    | _ =>
      rw [(process_no_change hid h).2.2 (by simp)]
      exact hr

theorem processAll_knows (hr : r.Knows known) (h : r.processAll fromText ms = .ok r') :
    r'.Knows (ms.foldl announce known) := by
  induction ms generalizing r known with
  | nil =>
    obtain rfl : r = r' := by simpa [processAll] using h
    exact hr
  | cons it ms ih =>
    obtain ⟨c, q, hq, h⟩ := processAll_cons.1 h
    exact ih (process_knows hr hq) h

/-- An announced change of a tracked table finds its relation. -/
theorem relation_of_announced {msg : RelationMessage} (hr : r.Knows known)
    (hmsg : known c.relationID = some msg) (hname : msg.relationName = c.relationName)
    (hns : msg.relNamespace = r.schema) (ht : r.tracked c.relationName = some t)
    (hpk : ∀ pk ∈ t.pks, ∃ col ∈ msg.columns, col.name = pk) :
    r.relation c.relationID = some (t.bindRelation msg) := by
  rw [relation_eq_some]
  refine ⟨?_, t.bindRelation_tracked hpk⟩
  have hbind : r.bindRelation msg = t.bindRelation msg := by
    simp [bindRelation, hname, ht, hns]
  rw [show r.relations = _ from hr, ← hbind]
  show (known c.relationID).map r.bindRelation = _
  rw [hmsg, map_some]

/-! ### Rows -/

theorem process_out_prefixed {c : LSN} (h : r.process fromText (.ok m) lsn = .ok (c, r')) :
    r.out <+: r'.out := by
  obtain ⟨-, resource, rows, hout, -⟩ := process_out h
  exact ⟨_, hout.symm⟩

theorem processAll_out (h : r.processAll fromText ms = .ok r') : r.out <+: r'.out :=
  processAll_rel (R := fun r r' => r.out <+: r'.out) prefix_rfl (fun hq => (process_out_prefixed hq).trans) h

/-- Every row with a position lies past the floor of its resource. -/
def RowsPastFloor (r : PgCDCRun V) : Prop :=
  ∀ resource cells op lsn seq, Output.row resource cells op (some lsn) seq ∈ r.out →
    r.pastFloor resource lsn = true

theorem mem_numbered {resource : String} {n : ℕ} {o : Output V}
    (h : o ∈ numbered resource lsn n rows) :
    ∃ cells op seq, o = .row resource cells op (some lsn) seq := by
  induction rows generalizing n with
  | nil => simp [numbered] at h
  | cons row rows ih =>
    rcases mem_cons.1 h with rfl | h
    · exact ⟨_, _, _, rfl⟩
    · exact ih h

theorem process_rowsPastFloor {c : LSN} (hr : r.RowsPastFloor)
    (h : r.process fromText (.ok m) lsn = .ok (c, r')) : r'.RowsPastFloor := by
  intro resource cells op l seq hmem
  obtain ⟨hsame, res, rows, hout, hrows⟩ := process_out h
  rw [hsame.pastFloor_eq]
  rcases mem_append.1 (hout ▸ hmem) with hmem | hmem
  · exact hr _ _ _ _ _ hmem
  obtain ⟨_, _, _, heq⟩ := mem_numbered hmem
  cases heq
  refine hrows.resolve_left ?_
  rintro rfl
  cases hmem

theorem processAll_rowsPastFloor (hr : r.RowsPastFloor) (h : r.processAll fromText ms = .ok r') :
    r'.RowsPastFloor :=
  processAll_rel (R := fun r r' => r.RowsPastFloor → r'.RowsPastFloor) id
    (fun hq hrest hr => hrest (process_rowsPastFloor hr hq)) h hr

theorem changeRows_ne_nil {rel : CdcRelation} {id : ℕ} (hid : m.changes = some id)
    (h : changeRows fromText rel m = .ok rows) : rows ≠ [] := by
  rintro rfl
  cases m with
  | insert _ tuple | delete _ tuple => simp [changeRows, map_eq_ok] at h
  | update _ old new =>
    cases old with
    | none => simp [changeRows, map_eq_ok] at h
    | some old =>
      simp only [changeRows, bind_eq_ok] at h
      obtain ⟨_, -, _, -, h⟩ := h
      split_ifs at h <;> simp [bind_eq_ok, map_eq_ok] at h
  | _ => cases hid

variable (fromText) in
/-- The rows of a change, decoded by the tracked table and the relation message in force where the
session sends it, follow each other in the output. -/
def Pushed (items : List WalItem) (r : PgCDCRun V) (c : Change) : Prop :=
  ∃ pre post t msg rows n, items = pre ++ .change c :: post ∧
    r.tracked c.relationName = some t ∧
    announced (pre.map WalItem.received) c.relationID = some msg ∧
    changeRows fromText (t.bindRelation msg) c.message = .ok rows ∧
    numbered c.relationName c.lsn n rows <:+: r.out

theorem Pushed.exists_row (h : Pushed fromText items r c) :
    ∃ cells op seq, Output.row c.relationName cells op (some c.lsn) seq ∈ r.out := by
  obtain ⟨-, -, t, msg, rows, n, -, -, -, hrows, hinfix⟩ := h
  obtain ⟨row, rows, rfl⟩ := exists_cons_of_ne_nil (changeRows_ne_nil c.isChange hrows)
  exact ⟨_, _, _, hinfix.subset (.head _)⟩

/-- **A change past the floor reaches the output.** In a session that announces its tables, the rows
of a change to a tracked table are pushed to its resource when the record's own position is not
below the resource's floor; where the transaction commits plays no part. -/
theorem pushed_of_past (hnew : r.Knows fun _ => none) (hann : Announces r.tracked items)
    (h : r.processAll fromText (items.map WalItem.received) = .ok r')
    (hc : WalItem.change c ∈ items) (ht : r.tracked c.relationName = some t)
    (hns : c.relNamespace = r.schema) (hpast : r.pastFloor c.relationName c.lsn = true) :
    Pushed fromText items r' c := by
  obtain ⟨pre, post, rfl⟩ := append_of_mem hc
  obtain ⟨msg, hmsg, hmns, hname, hpk⟩ := hann pre c post rfl
  have htracked := (processAll_frame h).tracked
  rw [map_append, processAll_append] at h
  obtain ⟨q, hq, h⟩ := h
  have hsame := processAll_frame hq
  have hrel := relation_of_announced (processAll_knows hnew hq) hmsg hname
    (by rw [hmns, hns, hsame.schema]) (by rw [hsame.tracked, ht]) (hpk t ht)
  rw [map_cons, WalItem.received, processAll_cons] at h
  obtain ⟨e, q', hq', h⟩ := h
  have hrelName : (t.bindRelation msg).message.relationName = c.relationName := hname
  rcases (process_change c.isChange hrel hq').2 with ⟨hp, -⟩ | ⟨-, rows, hrows', rfl⟩
  · rw [hrelName, hsame.pastFloor_eq, hpast] at hp
    cases hp
  · refine ⟨pre, post, t, msg, rows, q.seq, rfl, htracked ▸ ht, hmsg, hrows', ?_⟩
    refine .trans ?_ (processAll_out h).isInfix
    rw [out_emitAll, hrelName]
    exact (suffix_append ..).isInfix

end PgCDCRun

/-! ### A straddling transaction -/

/-- An insert into `notes` recorded at position 90. -/
def noteInsert : Change where
  relNamespace := "public"
  relationName := "notes"
  lsn := 90
  relationID := 7
  message := .insert 7 (some [.text "1", .text "body"])
  isChange := rfl

/-- A transaction that writes at 90 and commits at 110. -/
def straddler : Txn where
  xid := 5
  changes := [noteInsert]
  commitLSN := 110
  endLSN := 120
  lsn_lt := by simp [noteInsert]
  commit_lt := by decide

def noteRelation : RelationMessage := ⟨7, "public", "notes", [⟨"id", 25⟩, ⟨"body", 25⟩]⟩

def straddlerSent : SentTxn where
  txn := straddler
  beginAt := 90
  body := [.aux (.relation noteRelation) 90 rfl, .change noteInsert]
  commitAt := 110
  body_changes := rfl
  body_plain := by
    intro m lsn h hmem
    obtain rfl : m = .relation noteRelation := by
      simp only [List.mem_cons, reduceCtorEq, List.not_mem_nil, or_false] at hmem
      exact (WalItem.aux.inj hmem).1
    exact ⟨fun _ _ => by simp, fun _ _ => by simp⟩

theorem straddlerSent_change {pre post : List WalItem}
    (h : straddlerSent.items = pre ++ .change c :: post) :
    pre = [.aux (.beginTxn 110 5) 90 rfl, .aux (.relation noteRelation) 90 rfl] ∧
      c = noteInsert := by
  have hitems : straddlerSent.items =
      [.aux (.beginTxn 110 5) 90 rfl, .aux (.relation noteRelation) 90 rfl, .change noteInsert,
        .aux (.commit 110 120) 110 rfl] := rfl
  rw [hitems] at h
  match pre, h with
  | [_, _], h =>
    obtain ⟨rfl, rfl, rfl, -⟩ := h
    exact ⟨rfl, rfl⟩
  | [], h => simp at h
  | [_], h => simp at h
  | [_, _, _], h => simp at h
  | _ :: _ :: _ :: _ :: _, h => simp at h

end Filament.Postgres
