import Filament.Mysql.GtidSafety
import Filament.Mysql.Positions
import Filament.Postgres.ExtractChanges

/-!
# Cursors of a cycle

A cycle reads the stream from the least cursor of its resources.  What it pushes for a resource carries
a cursor, and the cycle ends by marking every resource.

* `Postgres.marked_past_floor` : a cycle without a limit marks every resource at or after the cursor it
  started from;
* `Mysql.Position.Kept`, `Mysql.Gtid.Kept` : what is pushed and marked with positions and with sets of
  transactions;
* **`cursors_advance`** : no cursor of a cycle is before the start of its resource;
* `limited_cycle_moves_back` : a Postgres cycle that ends at its limit marks a resource below its own
  cursor.
-/

namespace Filament

open List Except

/-! ### Positions of the write-ahead log -/

variable {resource : String}

namespace Postgres

variable {V : Type} {fromText : ℕ → Field → String → Except String (Option V)}

variable {mark : LSN} {rest : List Event}

namespace PgCDCRun

variable {r r' : PgCDCRun V}

variable {lsn l c : LSN} {seq : ℕ} {m : Message}

theorem drain_of_process (h : r.process fromText (.ok m) lsn = .ok (c, r'))
    (hmem : Output.drain resource l seq ∈ r'.out) : Output.drain resource l seq ∈ r.out := by
  obtain ⟨-, _, rows, hout, -⟩ := process_out h
  rcases mem_append.1 (hout ▸ hmem) with hmem | hmem
  · exact hmem
  · obtain ⟨_, _, _, heq⟩ := mem_numbered hmem
    cases heq

theorem drain_of_processAll {ms : List (Message × LSN)} (h : r.processAll fromText ms = .ok r')
    (hmem : Output.drain resource l seq ∈ r'.out) : Output.drain resource l seq ∈ r.out :=
  processAll_rel (R := fun r _ => Output.drain resource l seq ∈ r.out) hmem drain_of_process h

theorem drain_of_drainAll {resources : List String} (h : drainAll lsn resources r = .ok r')
    (hmem : Output.drain resource l seq ∈ r'.out) :
    l = lsn ∨ Output.drain resource l seq ∈ r.out := by
  induction resources generalizing r with
  | nil =>
    obtain rfl : r = r' := by simpa [drainAll] using h
    exact .inr hmem
  | cons res resources ih =>
    unfold drainAll at h
    split at h
    · cases h
    rcases ih h with hl | hmem
    · exact .inl hl
    rcases mem_append.1 hmem with hmem | hmem
    · exact .inr hmem
    · obtain ⟨-, rfl, -⟩ : resource = res ∧ l = lsn ∧ seq = r.seq := by simpa using hmem
      exact .inl rfl

/-- A run has reached a limit only if it has one. -/
def LimitedOnly (r : PgCDCRun V) : Prop := r.limited = true → 0 < r.limit

theorem limitedOnly_emitAll (hr : r.LimitedOnly) (resource : String)
    (rows : List (List (Option V) × Operation)) (lsn : LSN) :
    (r.emitAll resource rows lsn).LimitedOnly := by
  induction rows generalizing r with
  | nil => exact hr
  | cons row rows ih =>
    refine ih (r := r.emit resource row.1 row.2 lsn) fun hlimited => ?_
    simp only [emit, Bool.or_eq_true, Bool.and_eq_true, decide_eq_true_eq] at hlimited
    exact hlimited.elim hr And.left

/-- A message that ends a transaction is a commit, and any other leaves the limit as it is or emits a
row. -/
theorem process_limitedOnly (hr : r.LimitedOnly) (h : r.process fromText (.ok m) lsn = .ok (c, r')) :
    r'.LimitedOnly ∧ (c = 0 ∨ ∃ l, m = .commit l c) := by
  cases hid : m.changes.bind r.relation with
  | some rel =>
    obtain ⟨id, hm, hrel⟩ := Option.bind_eq_some_iff.1 hid
    obtain ⟨hc, hrun⟩ := process_change hm hrel h
    refine ⟨?_, .inl hc⟩
    rcases hrun with ⟨-, rfl⟩ | ⟨-, rows, -, rfl⟩
    · exact hr
    · exact limitedOnly_emitAll hr _ _ _
  | none =>
    cases m with
    | truncate ids =>
      simp only [process, bind_eq_ok, pure_eq_ok_iff, Prod.mk.injEq] at h
      obtain ⟨_, -, hc, rfl⟩ := h
      exact ⟨hr, .inl hc.symm⟩
    | insert | update | delete =>
      rw [process_untracked rfl hid, ok.injEq, Prod.mk.injEq] at h
      obtain ⟨hc, rfl⟩ := h
      exact ⟨hr, .inl hc.symm⟩
    | commit l end_ =>
      obtain ⟨rfl, rfl⟩ := h
      exact ⟨hr, .inr ⟨l, rfl⟩⟩
    | _ =>
      simp only [process, ok.injEq, Prod.mk.injEq] at h
      obtain ⟨hc, rfl⟩ := h
      exact ⟨hr, .inl hc.symm⟩

/-- A loop ends at its watermark or later, or with a limit at the end of a transaction. -/
theorem follow_mark {watermark lastLSN : LSN} {es : List Event} (hr : r.LimitedOnly)
    (h : r.follow fromText watermark lastLSN es = .marked r' mark rest) :
    watermark ≤ mark ∨
      0 < r.limit ∧ ∃ l walStart, Event.xlogData (.ok (.commit l mark)) walStart ∈ es := by
  induction es generalizing r lastLSN with
  | nil => cases h
  | cons e es ih =>
    have hlater : ∀ {q : PgCDCRun V} {last : LSN}, q.LimitedOnly → q.limit = r.limit →
        q.follow fromText watermark last es = .marked r' mark rest → watermark ≤ mark ∨
          0 < r.limit ∧ ∃ l walStart, Event.xlogData (.ok (.commit l mark)) walStart ∈ e :: es := by
      intro q last hq hlimit hfollow
      refine (ih hq hfollow).imp_right fun ⟨hpos, l, walStart, hmem⟩ => ?_
      exact ⟨hlimit ▸ hpos, l, walStart, .tail _ hmem⟩
    cases e with
    | failed err => cases h
    | idle => exact hlater hr rfl h
    | keepalive serverWALEnd =>
      unfold follow at h
      split_ifs at h
      · obtain ⟨-, rfl, -⟩ := markAt_eq_marked.1 h
        exact .inl (le_max_left ..)
      · exact hlater hr rfl h
    | xlogData data walStart =>
      unfold follow at h
      cases data with
      | error e => cases h
      | ok m =>
        cases hprocess : r.process fromText (.ok m) walStart with
        | error e =>
          rw [hprocess] at h
          cases h
        | ok res =>
          obtain ⟨committed, q⟩ := res
          simp only [hprocess] at h
          obtain ⟨hq, hcommit⟩ := process_limitedOnly hr hprocess
          have hlimit : q.limit = r.limit := (process_frame hprocess).limit
          split_ifs at h with hlimited hreached
          · obtain ⟨-, rfl, -⟩ := markAt_eq_marked.1 h
            simp only [Bool.and_eq_true, decide_eq_true_eq] at hlimited
            obtain ⟨l, rfl⟩ := hcommit.resolve_left hlimited.2
            exact .inr ⟨hlimit ▸ hq hlimited.1, l, walStart, .head _⟩
          · obtain ⟨-, rfl, -⟩ := markAt_eq_marked.1 h
            exact .inl hreached
          all_goals exact hlater hq hlimit h

end PgCDCRun

variable {cps : Checkpoints} {inp : CycleInput V} {r run : PgCDCRun V}

/-- The run a cycle starts from has no mark and has not reached a limit, and its start is not past the
watermark. -/
theorem prepare_fresh {start : LSN} (h : inp.prepare cps = .ok (start, run)) :
    run.limit = inp.limit ∧ run.LimitedOnly ∧
      ∀ resource lsn seq, Output.drain resource lsn seq ∉ run.out := by
  simp only [CycleInput.prepare, bind_eq_ok] at h
  obtain ⟨tracked, -, h⟩ := h
  cases hse : inp.serverError with
  | some e =>
    rw [hse] at h
    cases h
  | none =>
    simp only [hse, bind_eq_ok] at h
    obtain ⟨⟨found, seq⟩, -, floors, -, h⟩ := h
    split_ifs at h
    obtain ⟨-, rfl⟩ := Prod.mk.inj (pure_eq_ok_iff.1 h)
    refine ⟨rfl, by simp [PgCDCRun.LimitedOnly, CycleInput.initialRun], fun resource lsn seq hmem => ?_⟩
    simp only [CycleInput.initialRun] at hmem
    split_ifs at hmem
    · cases hmem
    · obtain ⟨row, -, hrow⟩ := mem_map.1 hmem
      cases hrow

/-- What is pushed for a resource with a cursor, and the marks of the resource. -/
def CursorsFrom (floor : LSN) (resource : String) (out : List (Output V)) : Prop :=
  (∀ lsn seq, Output.drain resource lsn seq ∈ out → floor ≤ lsn) ∧
    ∀ cells op lsn seq, Output.row resource cells op (some lsn) seq ∈ out → floor ≤ lsn

section

variable (h : extractChanges fromText inp cps = .marked r mark rest)
include h

theorem extractChanges_marked :
    ∃ start run ms q, inp.prepare cps = .ok (start, run) ∧
      run.processAll fromText ms = .ok q ∧ q.pushStreamMarks mark = .ok r ∧
      (inp.watermark ≤ mark ∨ 0 < inp.limit ∧
        ∃ l walStart, Event.xlogData (.ok (.commit l mark)) walStart ∈ inp.events) := by
  unfold extractChanges at h
  split_ifs at h
  split at h
  · cases h
  · next start run hprepare =>
    obtain ⟨hlimit, hlimited, -⟩ := prepare_fresh hprepare
    split_ifs at h with hreached
    · obtain ⟨hmark, rfl, -⟩ := markAt_eq_marked.1 h
      exact ⟨start, run, [], run, hprepare, rfl, hmark, .inl hreached⟩
    · obtain ⟨taken, ms, q, -, -, hq, hmark⟩ := follow_marked h
      exact ⟨start, run, ms, q, hprepare, hq, hmark, hlimit ▸ PgCDCRun.follow_mark hlimited h⟩

/-- A cycle marks a resource at or after its floor when the floor is not past the watermark and, if the
cycle has a limit, not past the end of a transaction of the stream; its rows are past the floor
anyway. -/
theorem marked_past_floor (hresource : resource ∈ inp.resources)
    (hwatermark : inp.floorOf cps resource ≤ inp.watermark)
    (hlimit : inp.limit = 0 ∨ ∀ l end_ walStart,
      Event.xlogData (.ok (.commit l end_)) walStart ∈ inp.events →
        inp.floorOf cps resource ≤ end_) :
    CursorsFrom (inp.floorOf cps resource) resource r.out := by
  obtain ⟨start, run, ms, q, hprepare, hq, hmarks, hmark⟩ := extractChanges_marked h
  have hprepared := prepare_spec hprepare
  constructor
  · intro lsn seq hmem
    rcases PgCDCRun.drain_of_drainAll hmarks hmem with rfl | hmem
    · rcases hmark with hmark | ⟨hpos, l, walStart, hcommit⟩
      · exact hwatermark.trans hmark
      · rcases hlimit with hzero | hcommits
        · omega
        · exact hcommits l _ walStart hcommit
    · exact absurd (PgCDCRun.drain_of_processAll hq hmem) ((prepare_fresh hprepare).2.2 _ _ _)
  · intro cells op lsn seq hmem
    have hpast := PgCDCRun.processAll_rowsPastFloor hprepared.rows hq _ _ _ _ _
      ((pushStreamMarks_out hmarks).2.2 _ _ _ _ _ hmem)
    rw [(PgCDCRun.processAll_frame hq).pastFloor_eq, PgCDCRun.pastFloor,
      hprepared.floors resource hresource] at hpast
    simpa using hpast

end

end Postgres

/-! ### What the MySQL source pushes -/

namespace Mysql

variable {ρ κ : Type} {e : RowsEvent ρ}

/-- Every cursor of a run, of a row or of a mark, suits its resource. -/
def Kept (suits : String → κ → Prop) (r : Run ρ κ) : Prop :=
  (∀ p ∈ r.pushed, suits p.1.table p.2) ∧ ∀ m ∈ r.marks, suits m.1 m.2

theorem kept_empty {suits : String → κ → Prop} : Kept suits (Run.empty : Run ρ κ) := ⟨nofun, nofun⟩

section Kept

variable {st : Setup ρ} {suits : String → κ → Prop} {r : Run ρ κ}

theorem Kept.pushRowsEvent (h : Kept suits r) {skip : String → Bool} {cursor : κ}
    (hsuits : st.tracks e = true → skip e.table = false → suits e.table cursor) :
    Kept suits (pushRowsEvent st skip e cursor r).1 := by
  unfold Mysql.pushRowsEvent
  split_ifs with hskip
  · exact h
  simp only [Bool.or_eq_true, Bool.not_eq_true', not_or, Bool.not_eq_false,
    Bool.not_eq_true] at hskip
  refine ⟨fun p hp => ?_, h.2⟩
  rcases mem_append.1 hp with hp | hp
  · exact h.1 p hp
  · obtain rfl : p = (e, cursor) := by simpa using hp
    exact hsuits hskip.1 hskip.2

theorem Kept.pushStreamMarks (h : Kept suits r) {cursor : String → κ}
    (hsuits : ∀ resource ∈ st.resources, suits resource (cursor resource)) :
    Kept suits (pushStreamMarks st cursor r).run := by
  refine ⟨h.1, fun m hm => ?_⟩
  rcases mem_append.1 hm with hm | hm
  · exact h.2 m hm
  · obtain ⟨resource, hresource, rfl⟩ := mem_map.1 hm
    exact hsuits resource hresource

end Kept

namespace Position

variable {st : Setup ρ} {base : String} {floors : List (String × (ℕ × ℕ))} {watermark p : ℕ × ℕ}

/-- A cursor that is a place of the log at or after the floor of its resource. -/
def FromFloor (base : String) (floors : List (String × (ℕ × ℕ))) (resource : String)
    (cursor : Position) : Prop :=
  ∀ f, floors.lookup resource = some f → ∃ q, cursor = position base q ∧ toLex f ≤ toLex q

/-- The file of a place is aligned with those of all floors. -/
def Beside (floors : List (String × (ℕ × ℕ))) (p : ℕ × ℕ) : Prop :=
  ∀ resource f, floors.lookup resource = some f → Aligned f.1 p.1

theorem fromFloor_mark (hp : Beside floors p) :
    FromFloor base floors resource (mark (named base floors) (position base p) resource) := by
  intro f hf
  rw [mark, floor, lookup_named, hf, Option.map_some, Option.getD_some, laterPosition]
  split_ifs with hlater
  · exact ⟨f, rfl, le_rfl⟩
  · have hle : (position base f).key ≤ (position base p).key := not_lt.1 (mt posCmp_eq_gt.2 hlater)
    exact ⟨p, rfl, (key_le_position_iff (hp resource f hf)).1 hle⟩

theorem fromFloor_of_posCmp (hp : Beside floors p)
    (h : posCmp (position base p) (floor (named base floors) resource) = .gt) :
    FromFloor base floors resource (position base p) := by
  intro f hf
  rw [floor, lookup_named, hf, Option.map_some, Option.getD_some] at h
  exact ⟨p, rfl, (key_le_position_iff (hp resource f hf)).1 (posCmp_eq_gt.1 h).le⟩

variable {log : List (Logged ρ)} {broken : List (Event ρ)}

theorem follow_kept (hbroken : broken = [] ∨ broken = [.failed])
    (hplaces : ∀ pre, pre <+: log → Beside floors (place p pre)) {r : Run ρ Position}
    (h : Kept (FromFloor base floors) r) :
    Kept (FromFloor base floors) (follow st (named base floors) (position base watermark)
      (position base p) r (log.map (Logged.event base) ++ broken)).run := by
  induction log generalizing p r with
  | nil => rcases hbroken with rfl | rfl <;> exact h
  | cons event log ih =>
    have hnext : Beside floors (event.next p) := hplaces [event] ⟨log, rfl⟩
    have hlater : ∀ pre, pre <+: log → Beside floors (place (event.next p) pre) := fun pre hpre =>
      hplaces (event :: pre) ((prefix_cons_inj event).2 hpre)
    rw [map_cons, cons_append]
    cases event with
    | rotate q => exact ih hlater h
    | other logPos =>
      rw [Logged.event, follow, advance_position]
      split_ifs
      · exact h.pushStreamMarks fun resource _ => fromFloor_mark hnext
      · exact ih hlater h
    | rows e =>
      rw [Logged.event, follow, advance_position]
      have hrows : Kept (FromFloor base floors) (pushRowsEvent st (fun resource =>
          decide (posCmp (position base (advanced p e.logPos)) (floor (named base floors) resource) ≠
            .gt)) e (position base (advanced p e.logPos)) r).1 :=
        h.pushRowsEvent fun _ hskip => fromFloor_of_posCmp hnext (by simpa using hskip)
      dsimp only
      split_ifs
      · exact hrows.pushStreamMarks fun resource _ => fromFloor_mark hnext
      · exact ih hlater hrows

/-- No cursor of a cycle with positions is before the floor of its resource, when the numbers of the
files are aligned. -/
theorem extractChanges_kept (hfiles : AllAligned (numbers floors watermark log))
    (hbroken : broken = [] ∨ broken = [.failed]) :
    Kept (FromFloor base floors) (extractChanges st (named base floors) (position base watermark)
      (log.map (Logged.event base) ++ broken)).run := by
  have hbeside : ∀ {q : ℕ × ℕ}, q.1 ∈ numbers floors watermark log → Beside floors q := by
    intro q hq resource f hf
    exact hfiles _ (mem_numbers_floor (mem_of_lookup hf)) _ hq
  by_cases hsome : floors = []
  · subst hsome
    exact kept_empty
  obtain ⟨g, hg, holdest, -⟩ := @exists_start base _ hsome
  rw [extractChanges, holdest]
  dsimp only
  split_ifs
  · exact kept_empty.pushStreamMarks fun resource _ =>
      fromFloor_mark (hbeside mem_numbers_watermark)
  · exact follow_kept hbroken (fun pre hpre => hbeside (mem_numbers_place hg hpre)) kept_empty

end Position

namespace Gtid

variable {st : Setup ρ} {floor : String → GTIDSet} {watermark : GTIDSet}

/-- A cursor that has every transaction of the floor of its resource. -/
def FromFloor (floor : String → GTIDSet) (resource : String) (cursor : GTIDSet) : Prop :=
  floor resource ⊆ cursor

variable {delivered : GTIDSet} {floors : List (String × GTIDSet)} {r : Run ρ GTIDSet}
  {rest before broken later : List (Event ρ)} {txns : List (Txn ρ)} {c : Cursor}

theorem fromFloor_mark (h : resource ∈ st.resources) :
    FromFloor floor resource (mark (floorsOf st floor) delivered resource) := by
  rw [FromFloor, mark, lookup_floorsOf h, unionGTID]
  split_ifs with hb ha
  · exact hb
  · exact subset_rfl
  · exact Finset.subset_union_right

variable (st floor delivered) in
/-- The rows events of a transaction come when a resource has caught up with its floor, or they are of
the floor and skipped: the transaction is of the floor, and no query event before them is taken for its
end. -/
def Txn.Caught (t : Txn ρ) : Prop :=
  ∀ before e after, t.body = before ++ .rows e :: after → st.tracks e = true →
    floor e.table ⊆ delivered ∨
      t.gtid ∈ floor e.table ∧ ∀ text, Part.query text ∈ before → isControl text = true

/-- Every transaction of the log comes when that holds of what was delivered before. -/
def InTurn (st : Setup ρ) (floor : String → GTIDSet) : GTIDSet → List (Txn ρ) → Prop
  | _, [] => True
  | delivered, t :: txns => t.Caught st floor delivered ∧ InTurn st floor (insert t.gtid delivered) txns

theorem tracks_mem (h : st.tracks e = true) : e.table ∈ st.resources := by
  simp only [Setup.tracks, Bool.and_eq_true, decide_eq_true_eq] at h
  exact h.2

variable (st floor watermark delivered) in
/-- What is left to read keeps the cursors of a run, from any state that has delivered a set. -/
def Keeps (events : List (Event ρ)) : Prop :=
  ∀ c r, delivered ⊆ c.fold.committed → Kept (FromFloor floor) r →
    Kept (FromFloor floor) (follow st (floorsOf st floor) watermark c r events).run

theorem committed_subset_fold (c : Cursor) : c.committed ⊆ c.fold.committed := by
  cases hinflight : c.inflight with
  | none | some g => simp [Cursor.fold, hinflight]

/-- Where a cursor stands in a transaction of which `before` is read: the transaction is under way, or
a query event was taken for its end. -/
def Cursor.Within (c : Cursor) (t : Txn ρ) (before : List (Part ρ)) : Prop :=
  c.inflight = some t.gtid ∧ (∀ text, Part.query text ∈ before → isControl text = true) ∨
    c.inflight = none ∧ t.gtid ∈ c.committed ∧
      ∃ text, Part.query text ∈ before ∧ isControl text = false

section Within

variable {c : Cursor} {t : Txn ρ} {before : List (Part ρ)}

theorem Cursor.Within.mem_fold (h : c.Within t before) : t.gtid ∈ c.fold.committed := by
  rcases h with ⟨hinflight, -⟩ | ⟨-, hmem, -⟩
  · simp [Cursor.fold, hinflight]
  · exact committed_subset_fold c hmem

theorem Cursor.Within.rows (h : c.Within t before) (e : RowsEvent ρ) :
    c.Within t (before ++ [.rows e]) := by
  simpa [Cursor.Within] using h

theorem Cursor.Within.query (h : c.Within t before) (text : String) :
    (if isControl text = true then c else c.fold).Within t (before ++ [.query text]) := by
  split_ifs with hcontrol
  · rcases h with ⟨hinflight, hbefore⟩ | ⟨hinflight, hmem, text', htext', hno⟩
    · refine .inl ⟨hinflight, fun text' hmem => ?_⟩
      rcases mem_append.1 hmem with hmem | hmem
      · exact hbefore text' hmem
      · obtain rfl : text' = text := by simpa using hmem
        exact hcontrol
    · exact .inr ⟨hinflight, hmem, text', mem_append_left _ htext', hno⟩
  · exact .inr ⟨rfl, h.mem_fold, text, by simp, Bool.eq_false_iff.2 hcontrol⟩

end Within

/-- The body of a transaction, of which `before` is read; `rest` follows it. -/
theorem keeps_body {t : Txn ρ} {before body : List (Part ρ)} (hbody : t.body = before ++ body)
    (hcaught : t.Caught st floor delivered)
    (hrest : Keeps st floor watermark (insert t.gtid delivered) rest)
    (hdelivered : delivered ⊆ c.committed) (hwithin : c.Within t before)
    (h : Kept (FromFloor floor) r) :
    Kept (FromFloor floor)
      (follow st (floorsOf st floor) watermark c r (body.map Part.event ++ rest)).run := by
  induction body generalizing before c r with
  | nil =>
    exact hrest c r (Finset.insert_subset hwithin.mem_fold
      (hdelivered.trans (committed_subset_fold c))) h
  | cons p body ih =>
    have hbody' : t.body = (before ++ [p]) ++ body := by simpa using hbody
    rw [map_cons, cons_append]
    cases p with
    | query text =>
      have hwithin' := hwithin.query text
      have hdelivered' : delivered ⊆ (if isControl text = true then c else c.fold).committed := by
        split_ifs
        · exact hdelivered
        · exact hdelivered.trans (committed_subset_fold c)
      rw [Part.event, follow]
      generalize (if isControl text = true then c else c.fold) = c' at hwithin' hdelivered' ⊢
      split_ifs
      · exact h.pushStreamMarks fun resource hresource => fromFloor_mark hresource
      · exact ih hbody' hdelivered' hwithin' h
    | rows e =>
      rw [Part.event, follow]
      have hrows : Kept (FromFloor floor)
          (pushRowsEvent st (c.skips (floorsOf st floor)) e c.committed r).1 := by
        refine h.pushRowsEvent fun htracks hskip => ?_
        rcases hcaught before e body hbody htracks with hfloor | ⟨hmem, hbefore⟩
        · exact hfloor.trans hdelivered
        -- an event of the floor is skipped while its transaction is under way
        rcases hwithin with ⟨hinflight, -⟩ | ⟨-, -, text, htext, hno⟩
        · simp only [Cursor.skips, hinflight, lookup_floorsOf (tracks_mem htracks),
            decide_eq_false_iff_not] at hskip
          exact absurd hmem hskip
        · rw [hbefore text htext] at hno
          cases hno
      dsimp only
      split_ifs
      · exact hrows.pushStreamMarks fun resource hresource => fromFloor_mark hresource
      · exact ih hbody' hdelivered (hwithin.rows e) hrows

theorem keeps_xid (hrest : Keeps st floor watermark delivered rest) :
    Keeps st floor watermark delivered (.xid :: rest) := by
  intro c r hdelivered h
  rw [follow]
  split_ifs
  · exact h.pushStreamMarks fun resource hresource => fromFloor_mark hresource
  · exact hrest c.fold r (hdelivered.trans (committed_subset_fold c.fold)) h

theorem keeps_txns (hturn : InTurn st floor delivered txns) :
    Keeps st floor watermark delivered (txns.flatMap Txn.events) := by
  induction txns generalizing delivered with
  | nil => exact fun c r _ h => h
  | cons t txns ih =>
    obtain ⟨hcaught, hturn⟩ := hturn
    have hrest : Keeps st floor watermark (insert t.gtid delivered)
        ((if t.xid then [.xid] else []) ++ txns.flatMap Txn.events) := by
      cases t.xid with
      | false => exact ih hturn
      | true => exact keeps_xid (ih hturn)
    intro c r hdelivered h
    rw [flatMap_cons, Txn.events, cons_append, append_assoc, follow]
    generalize (if t.xid then [.xid] else []) ++ txns.flatMap Txn.events = rest at hrest ⊢
    split_ifs
    · exact h.pushStreamMarks fun resource hresource => fromFloor_mark hresource
    · have hwithin : (Cursor.mk c.fold.committed (some t.gtid)).Within t [] := .inl ⟨rfl, by simp⟩
      have hcommitted : delivered ⊆ (Cursor.mk c.fold.committed (some t.gtid)).committed := hdelivered
      exact keeps_body (nil_append _).symm hcaught hrest hcommitted hwithin h

/-! ### A stream that breaks off -/

theorem subset_follow :
    r.pushed ⊆ (follow st floors watermark c r events).run.pushed ∧
      r.marks ⊆ (follow st floors watermark c r events).run.marks := by
  induction events generalizing c r with
  | nil => exact ⟨Subset.refl _, Subset.refl _⟩
  | cons event events ih =>
    have hreturn : ∀ {r : Run ρ GTIDSet} {cursor : String → GTIDSet},
        r.pushed ⊆ (pushStreamMarks st cursor r).run.pushed ∧
          r.marks ⊆ (pushStreamMarks st cursor r).run.marks :=
      ⟨Subset.refl _, subset_append_left ..⟩
    cases event with
    | failed => exact ⟨Subset.refl _, Subset.refl _⟩
    | gtid | xid =>
      rw [follow]
      split_ifs
      · exact hreturn
      · exact ih
    | query text =>
      rw [follow]
      generalize (if isControl text = true then c else c.fold) = c'
      split_ifs
      · exact hreturn
      · exact ih
    | rows e =>
      have hpush : r.pushed ⊆ (pushRowsEvent st (c.skips floors) e c.committed r).1.pushed ∧
          r.marks ⊆ (pushRowsEvent st (c.skips floors) e c.committed r).1.marks := by
        unfold pushRowsEvent
        split_ifs
        · exact ⟨Subset.refl _, Subset.refl _⟩
        · exact ⟨subset_append_left .., Subset.refl _⟩
      rw [follow]
      dsimp only
      split_ifs
      · exact ⟨Subset.trans hpush.1 hreturn.1, Subset.trans hpush.2 hreturn.2⟩
      · exact ⟨Subset.trans hpush.1 ih.1, Subset.trans hpush.2 ih.2⟩

/-- What a stream that breaks off pushes, the whole stream pushes too. -/
theorem kept_of_broken {suits : String → GTIDSet → Prop}
    (hbroken : broken = [] ∨ broken = [.failed])
    (h : Kept suits (follow st floors watermark c r (before ++ later)).run) :
    Kept suits (follow st floors watermark c r (before ++ broken)).run := by
  induction before generalizing c r with
  | nil =>
    have hrun : (follow st floors watermark c r ([] ++ broken)).run = r := by
      rcases hbroken with rfl | rfl <;> rfl
    rw [hrun]
    exact ⟨fun p hp => h.1 p (subset_follow.1 hp), fun m hm => h.2 m (subset_follow.2 hm)⟩
  | cons event before ih =>
    cases event with
    | failed => exact h
    | gtid | xid =>
      rw [cons_append, follow] at h ⊢
      split_ifs at h ⊢
      · exact h
      · exact ih h
    | query text =>
      rw [cons_append, follow] at h ⊢
      generalize (if isControl text = true then c else c.fold) = c' at h ⊢
      split_ifs at h ⊢
      · exact h
      · exact ih h
    | rows e =>
      rw [cons_append, follow] at h ⊢
      dsimp only at h ⊢
      split_ifs at h ⊢
      · exact h
      · exact ih h

/-- No cursor of a cycle with sets of transactions misses a transaction of the floor of its resource,
when the log comes in turn. -/
theorem extractChanges_kept (hlog : txns.flatMap Txn.events = before ++ later)
    (hbroken : broken = [] ∨ broken = [.failed])
    (hturn : ∀ start, oldestGTID (floorsOf st floor) = .ok (some start) →
      InTurn st floor start txns) :
    Kept (FromFloor floor)
      (extractChanges st (floorsOf st floor) watermark (before ++ broken)).run := by
  unfold extractChanges
  split
  · next start hstart =>
    split_ifs
    · exact kept_empty.pushStreamMarks fun resource hresource => fromFloor_mark hresource
    have hall : Kept (FromFloor floor) (follow st (floorsOf st floor) watermark ⟨start, none⟩ .empty
        (txns.flatMap Txn.events)).run :=
      keeps_txns (hturn start hstart) ⟨start, none⟩ .empty subset_rfl kept_empty
    rw [hlog] at hall
    exact kept_of_broken hbroken hall
  · exact kept_empty

end Gtid

end Mysql

/-! ### The cursors of all three streams -/

/-- **No cursor of a cycle is before the start of its resource.**  For Postgres: when the start is not
past the watermark and, in a cycle with a limit, no transaction of the stream ends before it.  For MySQL
with positions: when the numbers of the files are aligned, of the floors, the watermark and the log.  For
MySQL with sets of transactions: when every rows event comes after the transactions of its resource's
floor, or is of one of them and follows no query event that is taken for the end of the transaction. -/
theorem cursors_advance {V ρ : Type} (fromText : ℕ → Field → String → Except String (Option V)) :
    (∀ inp cps r mark rest,
      Postgres.extractChanges fromText inp cps = .marked r mark rest →
      ∀ resource ∈ inp.resources, inp.floorOf cps resource ≤ inp.watermark →
        (inp.limit = 0 ∨ ∀ l end_ walStart,
          Postgres.Event.xlogData (.ok (.commit l end_)) walStart ∈ inp.events →
            inp.floorOf cps resource ≤ end_) →
        Postgres.CursorsFrom (inp.floorOf cps resource) resource r.out) ∧
    (∀ (st : Mysql.Setup ρ) base floors watermark log broken,
      Mysql.AllAligned (Mysql.numbers floors watermark log) → broken = [] ∨ broken = [.failed] →
      Mysql.Kept (Mysql.Position.FromFloor base floors)
        (Mysql.Position.extractChanges st (Mysql.named base floors) (Mysql.position base watermark)
          (log.map (Mysql.Logged.event base) ++ broken)).run) ∧
    ∀ (st : Mysql.Setup ρ) floor watermark txns before later broken,
      txns.flatMap Mysql.Gtid.Txn.events = before ++ later → broken = [] ∨ broken = [.failed] →
      (∀ start, Mysql.oldestGTID (Mysql.Gtid.floorsOf st floor) = .ok (some start) →
        Mysql.Gtid.InTurn st floor start txns) →
      Mysql.Kept (Mysql.Gtid.FromFloor floor)
        (Mysql.Gtid.extractChanges st (Mysql.Gtid.floorsOf st floor) watermark
          (before ++ broken)).run :=
  ⟨fun _ _ _ _ _ h _ hresource hwatermark hlimit =>
      Postgres.marked_past_floor h hresource hwatermark hlimit,
    fun _ _ _ _ _ _ hfiles hbroken => Mysql.Position.extractChanges_kept hfiles hbroken,
    fun _ _ _ _ _ _ _ hlog hbroken hturn => Mysql.Gtid.extractChanges_kept hlog hbroken hturn⟩

section Witness

open Postgres

private def notesSchema (resource : String) : Except String Schema :=
  .ok ⟨resource, [⟨"id", false, "", "", 0, 0⟩], ["id"]⟩

/-- A transaction that inserts a note, committed at 110 and ending at 120. -/
private def insertNote : List Postgres.Event :=
  [.xlogData (.ok (.beginTxn 110 5)) 90,
   .xlogData (.ok (.relation ⟨7, "public", "notes", [⟨"id", 25⟩]⟩)) 90,
   .xlogData (.ok (.insert 7 (some [.text "a"]))) 90, .xlogData (.ok (.commit 110 120)) 110]

/-- Notes and tags, with a limit. -/
private def notesAndTags (limit : ℕ) (watermark : LSN) : CycleInput String where
  resources := ["notes", "tags"]
  schemaName := "public"
  schemas := notesSchema
  limit := limit
  snapshotNone := false
  slotName := "filament"
  slotStart := 50
  slotSnapshot := false
  currentLSN := 1000
  serverError := none
  snapshotRows := []
  watermark := watermark
  sink := fun _ _ => none
  events := insertNote

private def apart : Checkpoints := [("notes", .stream 60 1), ("tags", .stream 500 2)]

private def close : Checkpoints := [("notes", .stream 60 1), ("tags", .stream 70 2)]

/-- A cycle whose watermark is the end of the transaction. -/
theorem unlimited_cycle_advances : ∃ r,
    Postgres.extractChanges textCell (notesAndTags 0 120) close = .marked r 120 [] ∧
      CursorsFrom 70 "tags" r.out :=
  ⟨_, rfl, (@cursors_advance String Unit textCell).1 (notesAndTags 0 120) close _ 120 [] rfl "tags"
    (by decide) (by decide) (.inl rfl)⟩

private def users : Mysql.Setup Unit := ⟨"shop", ["orders", "users"], 0, fun _ => 1⟩

private def upTo (ns : List ℕ) : Mysql.GTIDSet := (ns.map (Mysql.GTID.mk "3e11")).toFinset

private def usersFloor (resource : String) : Mysql.GTIDSet :=
  if resource = "users" then upTo [1, 3] else upTo [1]

private def newUser : Mysql.RowsEvent Unit := ⟨"shop", "users", 200, [()]⟩

/-- Two floors far apart; as text the name of the file 100001 comes after that of the millionth. -/
private def farApart : List (String × Mysql.Position) :=
  Mysql.named "binlog" [("orders", (100000, 5)), ("users", (1000000, 300))]

/-- A cycle with a limit ends with the transaction at 120 and marks the tags there, below their own
cursor; a MySQL cycle takes the file 100001 for the end of its log and marks the users there, with
their cursor in file 1000000; and a MySQL row carries a set without the transaction 3 of its resource's
floor, since the log has transaction 2 first. -/
theorem limited_cycle_moves_back :
    (∃ r, Postgres.extractChanges textCell (notesAndTags 1 1000) apart = .marked r 120 [] ∧
      Output.drain "tags" 120 4 ∈ r.out ∧ (notesAndTags 1 1000).floorOf apart "tags" = 500) ∧
    ("users", Mysql.position "binlog" (100001, 7)) ∈ (Mysql.Position.extractChanges users farApart
      (Mysql.position "binlog" (1000000, 400))
      [.rotate (Mysql.fileName "binlog" 100001) 4, .other 7]).run.marks ∧
    (newUser, upTo [1]) ∈ (Mysql.Gtid.extractChanges users (Mysql.Gtid.floorsOf users usersFloor)
      (upTo [1, 2, 3]) [.gtid ⟨"3e11", 2⟩, .rows newUser, .xid]).run.pushed ∧
    ¬usersFloor "users" ⊆ upTo [1] := by
  exact ⟨⟨_, rfl, by decide, rfl⟩, by decide +kernel, by decide, by decide⟩

end Witness

end Filament
