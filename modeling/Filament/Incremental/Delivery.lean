import Filament.Incremental.Window

/-!
# Incremental reads miss nothing inside the lookback

Others stamp what they write no more than the lookback below the largest cursor that the last run saw.

* `Pending` : what the next run by the cursor reads;
* `Reads`, `Fills` : what holds of a run by the cursor and of a backfill while they are under way;
* **`incremental_delivers`** : when no limited run reads a backfill, none is paused in one, and every run
  finds a row at or above the stored watermark, an unlimited run that commits leaves every row of its
  read delivered;
* `limited_backfill_misses`, `paused_backfill_misses`, `emptied_watermark_misses` : no condition can be
  dropped.
-/

namespace Filament.Incremental

open Filament.Incremental.Checkpoint

open Filament.Keyset List Option
open Filament.Postgres.Snapshot (page page_isPrefix)

variable {α : Type} [LinearOrder α] (cfg : Config α) (s : State α cfg.n)

/-! ### Conditions -/

/-- The watermark of a checkpoint. -/
def Checkpoint.watermark : Checkpoint → List String
  | .backfill start _ => start
  | .incremental key => key

/-- What is new in a table is stamped at most the lookback below the largest cursor seen. -/
def Stamped : Event α cfg.n → Prop
  | .write table => ∀ r ∈ table.rows, r ∉ s.table.rows →
      ∀ c ∈ s.seen, cfg.type.rewind cfg.lookback c ≤ r.cursor
  | _ => True

/-- Some row is at or above the cursor of the stored watermark. -/
def Reaches : Prop :=
  ∀ c ∈ s.stored.bind fun cp => cp.watermark.head?, ∃ r ∈ s.table.rows, cfg.type.cast 0 c ≤ r.cursor

variable {cfg s}

/-- Whether a checkpoint has a run read by the cursor. -/
def byCursor : Option Checkpoint → Bool
  | some (.incremental _) => true
  | _ => false

/-- Whether an event is the first time that a run looks at the table. -/
def begins {n : ℕ} (s : State α n) : Event α n → Bool
  | .start parallel => parallel || byCursor s.stored
  | .page _ =>
    match s.phase with
    | some (.backfill _ _ _ none _) => true
    | _ => false
  | _ => false

/-- A run with a limit is not a backfill, nor is one that is paused. -/
def Unlimited {n : ℕ} (s : State α n) : Event α n → Prop
  | .plan limit _ => 0 < limit → byCursor s.stored = true
  | .pause _ => byCursor s.stored = true
  | _ => True

instance (cfg : Config α) (s : State α cfg.n) : ∀ e, Decidable (Stamped cfg s e)
  | .write table => inferInstanceAs (Decidable (∀ r ∈ table.rows, _))
  | .plan _ _ | .start _ | .page _ | .commit | .pause _ | .fail => .isTrue trivial

instance (cfg : Config α) (s : State α cfg.n) : Decidable (Reaches cfg s) :=
  inferInstanceAs (Decidable (∀ c ∈ s.stored.bind _, _))

instance {n : ℕ} (s : State α n) : ∀ e, Decidable (Unlimited s e)
  | .plan limit _ => inferInstanceAs (Decidable (0 < limit → _))
  | .pause _ => inferInstanceAs (Decidable (byCursor s.stored = true))
  | .write _ | .start _ | .page _ | .commit | .fail => .isTrue trivial

theorem Reaches.watermark (h : Reaches cfg s) {cp : Checkpoint} (hcp : s.stored = some cp) :
    ∀ c ∈ cp.watermark.head?, ∃ r ∈ s.table.rows, cfg.type.cast 0 c ≤ r.cursor := by
  intro c hc
  exact h c (mem_bind_iff.2 ⟨cp, hcp, hc⟩)

theorem exists_of_byCursor {stored : Option Checkpoint} (h : byCursor stored = true) :
    ∃ key, stored = some (.incremental key) := by
  match stored, h with
  | some (.incremental key), _ => exact ⟨key, rfl⟩

/-! ### Cursors -/

variable {v : Row α} {rows : List (Row α)} {sample : Sampled α} {i : ℕ}

/-- A row that a run from a watermark reads. -/
def Pending (cfg : Config α) (key : List String) (v : Row α) : Prop :=
  ∀ c ∈ key.head?, cfg.type.rewind cfg.lookback (cfg.type.cast 0 c) ≤ v.cursor

/-- The cursor of a watermark is not above what was seen. -/
def SeenFrom (cfg : Config α) (seen : Option α) (key : List String) : Prop :=
  ∀ c ∈ key.head?, ∃ m ∈ seen, cfg.type.cast 0 c ≤ m

section Cursors

variable {cfg : Config α} {key : List String} {seen : Option α}

/-- What is stamped at most the lookback below what was seen is pending. -/
theorem SeenFrom.pending (h : SeenFrom cfg seen key)
    (hv : ∀ m ∈ seen, cfg.type.rewind cfg.lookback m ≤ v.cursor) : Pending cfg key v := by
  intro c hc
  obtain ⟨m, hm, hle⟩ := h c hc
  exact (cfg.type.rewind_mono cfg.lookback hle).trans (hv m hm)

variable {r : Row α}

theorem le_max? {a : α} {l : List α} (ha : a ∈ l) : ∃ m ∈ l.max?, a ≤ m := by
  cases hmax : l.max? with
  | none =>
    rw [max?_eq_none_iff.1 hmax] at ha
    cases ha
  | some m => exact ⟨m, rfl, (max?_eq_some_iff.1 hmax).2 a ha⟩

theorem le_largest (hr : r ∈ rows) : ∃ m ∈ largest rows, r.cursor ≤ m :=
  le_max? (mem_map_of_mem hr)

theorem SeenFrom.of_row (h : ∀ c ∈ key.head?, ∃ r ∈ rows, cfg.type.cast 0 c ≤ r.cursor) :
    SeenFrom cfg (largest rows) key := by
  intro c hc
  obtain ⟨r, hr, hle⟩ := h c hc
  obtain ⟨m, hm, hrm⟩ := le_largest hr
  exact ⟨m, hm, hle.trans hrm⟩

theorem pending_text (h : cfg.type.rewind cfg.lookback r.cursor ≤ v.cursor) :
    Pending cfg (r.text cfg) v := by
  intro c hc
  obtain rfl := some.inj ((text_head r).symm.trans hc)
  rwa [cfg.type.cast_text]

theorem seenFrom_text (h : ∃ m ∈ seen, r.cursor ≤ m) : SeenFrom cfg seen (r.text cfg) := by
  intro c hc
  obtain rfl := some.inj ((text_head r).symm.trans hc)
  rwa [cfg.type.cast_text]

/-- With a lookback, the window of a run has what is pending. -/
theorem above_startLow (hn : 0 < cfg.n) (hlookback : 0 < cfg.lookback)
    (hkey : key = [] ∨ key.length = cfg.n + 1) (hv : Pending cfg key v) :
    above cfg (startLow cfg key) v = true := by
  rcases hkey with rfl | hkey
  · exact above_open (by simp [startLow]) (by simp [startLow]) v
  obtain ⟨c, rest, rfl⟩ := exists_cons_of_length_pos (by omega : 0 < key.length)
  have hlow : startLow cfg (c :: rest) =
      [cfg.type.text 0 (cfg.type.rewind cfg.lookback (cfg.type.cast 0 c))] := if_pos ⟨hkey, hlookback⟩
  rw [hlow, above_cursor hn, cfg.type.cast_text]
  exact hv c rfl

end Cursors

/-! ### A run by the cursor -/

variable (cfg s) in
/-- A run by the cursor from a watermark: what of its read is not delivered is pending, and what came
after its read is stamped at most the lookback below it. -/
structure Reads (key : List String) (limit : ℕ) (read sent : List (Row α)) : Prop where
  sent_eq : sent = extractIncrementalTable cfg read key limit
  distinct : (read.map Row.key).Nodup
  length : ∀ r ∈ read, r.key.length = cfg.n
  settled : ∀ v ∈ read, v ∈ s.delivered ∨ Pending cfg key v
  bounded : ∀ v ∈ read, ∃ m ∈ s.seen, v.cursor ≤ m
  since : ∀ v ∈ s.table.rows, v ∈ read ∨ ∀ m ∈ s.seen, cfg.type.rewind cfg.lookback m ≤ v.cursor

section Reads

variable {cfg : Config α} {s : State α cfg.n} {key : List String} {limit : ℕ}
  {read sent : List (Row α)} (h : Reads cfg s key limit read sent) (hn : 0 < cfg.n)
include h hn

theorem Reads.window_eq :
    ∃ rest, window cfg read (startLow cfg key) = sent ++ rest ∧ (limit = 0 → rest = []) := by
  have hsent := h.sent_eq.trans (extractIncrementalTable_eq hn h.distinct h.length key limit)
  obtain ⟨rest, hrest⟩ := page_isPrefix limit (window cfg read (startLow cfg key))
  refine ⟨rest, hsent ▸ hrest.symm, ?_⟩
  rintro rfl
  simpa [page] using hrest

theorem Reads.mem_read (hv : v ∈ sent) : v ∈ read := by
  obtain ⟨rest, hwindow, -⟩ := h.window_eq hn
  have hmem : v ∈ window cfg read (startLow cfg key) := hwindow ▸ mem_append_left _ hv
  exact mem_of_mem_filter (mem_ordered.1 hmem)

variable (hlookback : 0 < cfg.lookback) (hkey : key = [] ∨ key.length = cfg.n + 1)
include hlookback hkey

/-- What of the read is neither delivered nor sent is above everything sent. -/
theorem Reads.sent_or_above (hv : v ∈ read) :
    v ∈ s.delivered ++ sent ∨ (limit ≠ 0 ∧ Pending cfg key v ∧ ∀ r ∈ sent, r.pos < v.pos) := by
  rcases h.settled v hv with hdelivered | hpending
  · exact .inl (mem_append_left _ hdelivered)
  obtain ⟨rest, hwindow, hrest⟩ := h.window_eq hn
  have hmem : v ∈ window cfg read (startLow cfg key) := mem_ordered.2
    (mem_filter.2 ⟨hv, above_startLow hn hlookback hkey hpending⟩)
  have hsorted : (window cfg read (startLow cfg key)).Pairwise fun a b => a.pos < b.pos :=
    ordered_sorted (h.distinct.sublist (filter_sublist.map Row.key))
  rw [hwindow] at hmem hsorted
  rcases mem_append.1 hmem with hsent | hlater
  · exact .inl (mem_append_right _ hsent)
  refine .inr ⟨fun hzero => ?_, hpending,
    fun r hr => (pairwise_append.1 hsorted).2.2 r hr v hlater⟩
  rw [hrest hzero] at hlater
  cases hlater

/-- **After a run by the cursor, what is not delivered is pending for the next.** -/
theorem Reads.commit (hseen : SeenFrom cfg s.seen key) :
    let next := (sent.getLast?.map (Row.text cfg)).getD key
    (next = [] ∨ next.length = cfg.n + 1) ∧ SeenFrom cfg s.seen next ∧
      ∀ v ∈ s.table.rows, v ∈ s.delivered ++ sent ∨ Pending cfg next v := by
  cases hlast : sent.getLast? with
  | none =>
    refine ⟨hkey, hseen, fun v hv => ?_⟩
    rcases h.since v hv with hread | hstamped
    · exact (h.sent_or_above hn hlookback hkey hread).imp_right fun hrest => hrest.2.1
    · exact .inr (hseen.pending hstamped)
  | some last =>
    have hmem := mem_of_getLast? hlast
    have hread := h.mem_read hn hmem
    have hnext : SeenFrom cfg s.seen (last.text cfg) := seenFrom_text (h.bounded last hread)
    refine ⟨.inr (text_length (h.length last hread)), hnext, fun v hv => ?_⟩
    rcases h.since v hv with hread | hstamped
    · refine (h.sent_or_above hn hlookback hkey hread).imp_right fun hrest => pending_text ?_
      exact (cfg.type.rewind_le ..).trans (head_le_of_lt (hrest.2.2 last hmem))
    · exact .inr (hnext.pending hstamped)

/-- What is not delivered when a run by the cursor is paused is pending for the next. -/
theorem Reads.pause (hseen : SeenFrom cfg s.seen key) (count : ℕ) :
    let next := ((sent.take count).getLast?.map (Row.text cfg)).getD key
    (next = [] ∨ next.length = cfg.n + 1) ∧ SeenFrom cfg s.seen next ∧
      ∀ v ∈ s.table.rows, v ∈ s.delivered ++ sent.take count ∨ Pending cfg next v := by
  rcases Nat.eq_zero_or_pos count with rfl | hcount
  · -- the sink has no row of the run, and the watermark stays
    refine ⟨hkey, hseen, fun v hv => ?_⟩
    rw [take_zero, append_nil]
    rcases h.since v hv with hread | hstamped
    · exact h.settled v hread
    · exact .inr (hseen.pending hstamped)
  · have hsent : sent.take count = extractIncrementalTable cfg read key (cutLimit limit count) := by
      rw [h.sent_eq, take_extractIncrementalTable hn h.distinct h.length key limit hcount]
    have hcut : Reads cfg s key (cutLimit limit count) read (sent.take count) :=
      ⟨hsent, h.distinct, h.length, h.settled, h.bounded, h.since⟩
    exact hcut.commit hn hlookback hkey hseen

end Reads

/-! ### A backfill -/

variable (cfg s) in
/-- A backfill without a limit: what its statements all saw is sent once a reader passed it, and the
rest is stamped at most the lookback below the watermark it started from. -/
structure Fills (start : List String) (shards : List Shard) (snapshot : Option (Table α cfg.n))
    (readers : List (Reader α)) (read : Option (List (Row α))) (sent : List (Row α)) : Prop where
  ordered : List.Forall₂ (Reader.Ordered (cfg.keyset 0)) shards readers
  idle : read = none → snapshot = none ∧ ∀ rd ∈ readers, (rd.exhausted || rd.limited) = false
  unlimited : ∀ rd ∈ readers, rd.limited = false
  within : ∀ t l, snapshot = some t → read = some l → ∀ v ∈ l, v ∈ t.rows
  length : ∀ l, read = some l → ∀ v ∈ l, v.key.length = cfg.n
  seen : ∀ l, read = some l → SeenFrom cfg s.seen start
  since : ∀ l, read = some l → ∀ v ∈ s.table.rows, v ∈ l ∨ Pending cfg start v
  found : ∀ v : Row α, v.key.length = cfg.n → (∀ l, read = some l → v ∈ l) →
    List.Forall₂ (fun sh rd => rd.Delivers (cfg.keyset 0) v.key [] sh ∧ (v.key ∈ rd.sent → v ∈ sent))
      shards readers

section Fills

variable {cfg : Config α} {s : State α cfg.n} {start : List String} {shards : List Shard}
  {snapshot : Option (Table α cfg.n)} {readers : List (Reader α)} {read : Option (List (Row α))}
  {sent : List (Row α)}

theorem mem_rowsOf (hdistinct : (rows.map Row.key).Nodup) {keys : List (Key α)} (hv : v ∈ rows)
    (hkey : v.key ∈ keys) : v ∈ rowsOf rows keys := by
  refine mem_filterMap.2 ⟨v.key, hkey, ?_⟩
  have hsome : (rows.find? fun r => decide (r.key = v.key)).isSome :=
    find?_isSome.2 ⟨v, hv, by simp⟩
  obtain ⟨r, hr⟩ := isSome_iff_exists.1 hsome
  have hrow := row_eq_of_key_eq hdistinct (mem_of_find?_eq_some hr) hv
    (by simpa using find?_some hr)
  rw [hr, hrow]

theorem fills_start (hshards : shards = planKeyset cfg.type.toKeyType sample)
    (hread : read = none → snapshot = none)
    (hwithin : ∀ t l, snapshot = some t → read = some l → ∀ v ∈ l, v ∈ t.rows)
    (hlength : ∀ l, read = some l → ∀ v ∈ l, v.key.length = cfg.n)
    (hseen : ∀ l, read = some l → SeenFrom cfg s.seen start)
    (hsince : ∀ l, read = some l → ∀ v ∈ s.table.rows, v ∈ l ∨ Pending cfg start v) :
    Fills cfg s start shards snapshot (shards.map fun sh => ⟨sh.key, [], 0, false, false⟩) read
      [] := by
  have hkey : ∀ sh ∈ shards, cursorKey (cfg.keyset 0).type sh.key = none := fun sh hsh => by
    rw [(planKeyset_leading (hshards ▸ hsh)).2]
    rfl
  refine ⟨?_, fun hnone => ⟨hread hnone, by simp⟩, by simp, hwithin, hlength, hseen, hsince,
    fun v _ _ => ?_⟩
  · refine forall₂_map fun sh hsh => ?_
    refine ⟨fun k hk => ?_, by simp, .nil, by simp⟩
    rw [hkey sh hsh] at hk
    cases hk
  · refine forall₂_map fun sh hsh => ?_
    refine ⟨⟨fun _ hpassed => ?_, by simp, by simp⟩, by simp⟩
    obtain hexhausted | ⟨r, hr | hr, -⟩ := hpassed
    · cases hexhausted
    · rw [hkey sh hsh] at hr
      cases hr
    · cases hr

section

variable (h : Fills cfg s start shards snapshot readers read sent) (hn : 0 < cfg.n)
include h hn

/-- When every shard has returned, there was a statement, and everything that all of them saw is
sent. -/
theorem Fills.complete (hplan : ∃ sample, shards = planKeyset cfg.type.toKeyType sample)
    (hall : ∀ rd ∈ readers, (rd.exhausted || rd.limited) = true) :
    ∃ l, read = some l ∧ ∀ v : Row α, v.key.length = cfg.n → v ∈ l → v ∈ sent := by
  obtain ⟨sample, hshards⟩ := hplan
  cases hread : read with
  | none =>
    obtain ⟨sh, rest, hcons⟩ := exists_cons_of_ne_nil
      (hshards ▸ planKeyset_ne_nil cfg.type.toKeyType sample : shards ≠ [])
    obtain ⟨rd, hrd, -⟩ := h.ordered.exists_of_mem_left (hcons ▸ mem_cons_self : sh ∈ shards)
    exact absurd (hall rd hrd) (by simp [(h.idle hread).2 rd hrd])
  | some l =>
    refine ⟨l, rfl, fun v hv hmem => ?_⟩
    have hunique : ∃! i : ℕ, ∃ sh : Shard, (planKeyset (cfg.keyset 0).type sample)[i]? = some sh ∧
        sh.covers (cfg.keyset 0) v.key = true := planKeyset_unique hn sample v.key hv
    obtain ⟨i, ⟨sh, hsh, hcovers⟩, -⟩ := hunique
    rw [show planKeyset (cfg.keyset 0).type sample = shards from hshards.symm] at hsh
    have hall' : ∀ l', read = some l' → v ∈ l' := fun l' hl' =>
      mem_unique hread hl' ▸ hmem
    obtain ⟨rd, hrd, hdelivers, hsent⟩ := (h.found v hv hall').getElem?_left hsh
    have hrdMem := mem_of_getElem? hrd
    have hexhausted : rd.exhausted = true := by
      simpa [h.unlimited rd hrdMem] using hall rd hrdMem
    exact hsent ((hdelivers.passed hcovers (.inl hexhausted)).resolve_left nofun)

theorem Fills.page (hpageSize : 0 < cfg.pageSize) (hlead : ∀ sh ∈ shards, sh.Leading)
    {rd : Reader α} {sh : Shard} (hrd : readers[i]? = some rd) (hsh : shards[i]? = some sh)
    (hrunning : (rd.exhausted || rd.limited) = false)
    (hreach : read = none → SeenFrom cfg (largest s.table.rows) start) (s' : State α cfg.n)
    (htable : s'.table = s.table) (hseen : s'.seen = ((read.elim [] fun _ => s.seen.toList) ++
      (snapshot.getD s.table).rows.map Row.cursor).max?) :
    let visible := (snapshot.getD s.table).rows
    let next := rd.turn (cfg.keyset 0) (visible.map Row.key) sh
    Fills cfg s' start shards snapshot (readers.set i next)
      (some (read.elim visible fun read => read.filter fun r => decide (r ∈ visible)))
      (sent ++ rowsOf visible (next.sent.drop rd.sent.length)) := by
  intro visible next
  have hordered := h.ordered.of_getElem? hsh hrd
  have hsh' := hlead sh (mem_of_getElem? hsh)
  have hnodup : (visible.map Row.key).Nodup := (snapshot.getD s.table).distinct
  have hs : Reader.Source (cfg.keyset 0) sh (visible.map Row.key) :=
    ⟨hn, hpageSize, hsh', forall_mem_map.2 (snapshot.getD s.table).length, hnodup⟩
  constructor
  · exact h.ordered.set_right hsh (hordered.turn hs hrunning)
  · nofun
  · refine forall_mem_set h.unlimited ?_
    rw [Reader.turn_limited]
    simp [Config.keyset]
  · rintro t l ht hl v hv
    cases hl
    have hvisible : visible = t.rows := by simp only [visible, ht, getD_some]
    cases read with
    | none => exact hvisible ▸ hv
    | some l => exact h.within t l ht rfl v (mem_of_mem_filter hv)
  · rintro l hl v hv
    cases hl
    cases read with
    | none => exact (snapshot.getD s.table).length v hv
    | some l => exact h.length l rfl v (mem_of_mem_filter hv)
  · -- What was seen only grows, and the first statement reaches the watermark.
    intro _ _
    rw [hseen]
    cases hread : read with
    | none =>
      obtain ⟨rfl, -⟩ := h.idle hread
      exact hreach hread
    | some l =>
      intro c hc
      obtain ⟨m, hm, hle⟩ := h.seen l hread c hc
      have hmem : m ∈ s.seen.toList ++ visible.map Row.cursor :=
        mem_append_left _ (by simpa using hm)
      obtain ⟨m', hm', hmm'⟩ := le_max? hmem
      exact ⟨m', hm', hle.trans hmm'⟩
  · intro l' hl' v hv
    cases hl'
    rw [htable] at hv
    cases hread : read with
    | none =>
      obtain ⟨rfl, -⟩ := h.idle hread
      exact .inl hv
    | some l =>
      refine (h.since l hread v hv).imp_left fun hl => ?_
      refine mem_filter.2 ⟨hl, decide_eq_true ?_⟩
      cases snapshot with
      | none => exact hv
      | some t => exact h.within t l rfl hread v hl
  · intro v hlength hv
    have hmem := hv _ rfl
    have hbefore : ∀ l, read = some l → v ∈ l := by
      rintro l rfl
      exact mem_of_mem_filter hmem
    have hvisible : v ∈ visible := by
      cases read with
      | none => exact hmem
      | some l => exact of_decide_eq_true (mem_filter.1 hmem).2
    have hfound := h.found v hlength hbefore
    obtain ⟨hdelivers, hsent⟩ := hfound.of_getElem? hsh hrd
    have hturn := hdelivers.turn hordered hs (mem_map_of_mem hvisible)
    have hnew : v.key ∈ next.sent → v ∈ sent ++ rowsOf visible (next.sent.drop rd.sent.length) := by
      intro hkey
      rcases Reader.mem_turn_sent.1 hkey with hkey | hkey
      · exact mem_append_left _ (hsent hkey)
      · refine mem_append_right _ (mem_rowsOf hnodup hvisible ?_)
        rwa [Reader.turn_sent, drop_left]
    have hgrown : Forall₂ (fun sh rd' => rd'.Delivers (cfg.keyset 0) v.key [] sh ∧
        (v.key ∈ rd'.sent → v ∈ sent ++ rowsOf visible (next.sent.drop rd.sent.length)))
        shards readers :=
      hfound.imp fun _ _ hrd' => ⟨hrd'.1, fun hkey => mem_append_left _ (hrd'.2 hkey)⟩
    exact hgrown.set_right hsh ⟨hturn, hnew⟩

end

end Fills

/-! ### Runs -/

section Cases

variable {n : ℕ} (cfg : Config α) (s : State α n)

theorem State.start_cases (parallel : Bool) :
    s.start cfg parallel = s ∨
      (∃ limit key, s.phase = some (.planned limit) ∧ s.stored = some (.incremental key) ∧
        s.start cfg parallel = { s with
          phase := some (.incremental limit s.table.rows
            (extractIncrementalTable cfg s.table.rows key limit))
          seen := largest s.table.rows }) ∨
      ∃ limit start shards, s.phase = some (.planned limit) ∧
        s.stored = some (.backfill start shards) ∧
        s.start cfg parallel = { s with
          phase := some (.backfill limit (if parallel then some s.table else none)
            (shards.map fun sh => ⟨sh.key, [], 0, false, false⟩)
            (if parallel then some s.table.rows else none) [])
          seen := if parallel then largest s.table.rows else s.seen } := by
  unfold State.start
  split
  · rename_i limit key hphase hstored
    exact .inr (.inl ⟨limit, key, hphase, hstored, rfl⟩)
  · rename_i limit start shards hphase hstored
    refine .inr (.inr ⟨limit, start, shards, hphase, hstored, ?_⟩)
    cases parallel <;> rfl
  · exact .inl rfl

theorem State.page_cases (i : ℕ) :
    s.page cfg i = s ∨ ∃ limit snapshot readers read sent start shards rd sh,
      s.phase = some (.backfill limit snapshot readers read sent) ∧
      s.stored = some (.backfill start shards) ∧ readers[i]? = some rd ∧ shards[i]? = some sh ∧
      (rd.exhausted || rd.limited) = false ∧
      let visible := (snapshot.getD s.table).rows
      let next := rd.turn (cfg.keyset limit) (visible.map Row.key) sh
      s.page cfg i = { s with
        phase := some (.backfill limit snapshot (readers.set i next)
          (some (read.elim visible fun read => read.filter fun r => decide (r ∈ visible)))
          (sent ++ rowsOf visible (next.sent.drop rd.sent.length)))
        seen := ((read.elim [] fun _ => s.seen.toList) ++ visible.map Row.cursor).max? } := by
  unfold State.page
  split
  · rename_i limit snapshot readers read sent start shards hphase hstored
    split
    · rename_i rd sh hrd hsh
      split_ifs with hstopped
      · exact .inl rfl
      · exact .inr ⟨limit, snapshot, readers, read, sent, start, shards, rd, sh, hphase, hstored,
          hrd, hsh, Bool.eq_false_iff.2 hstopped, rfl⟩
    · exact .inl rfl
  · exact .inl rfl

theorem State.commit_cases :
    s.commit cfg = s ∨
      (∃ limit read sent key, s.phase = some (.incremental limit read sent) ∧
        s.stored = some (.incremental key) ∧
        s.commit cfg = { s with
          stored := some (.incremental ((sent.getLast?.map (Row.text cfg)).getD key))
          phase := none
          delivered := s.delivered ++ sent }) ∨
      ∃ limit snapshot readers read sent start shards,
        s.phase = some (.backfill limit snapshot readers read sent) ∧
        s.stored = some (.backfill start shards) ∧
        (∀ rd ∈ readers, (rd.exhausted || rd.limited) = true) ∧
        s.commit cfg = { s with
          stored := some (.incremental start)
          phase := none
          delivered := s.delivered ++ sent } := by
  unfold State.commit
  split
  · rename_i limit read sent key hphase hstored
    exact .inr (.inl ⟨limit, read, sent, key, hphase, hstored, rfl⟩)
  · rename_i limit snapshot readers read sent start shards hphase hstored
    split_ifs with hall
    · exact .inr (.inr ⟨limit, snapshot, readers, read, sent, start, shards, hphase, hstored,
        all_eq_true.1 hall, rfl⟩)
    · exact .inl rfl
  · exact .inl rfl

theorem State.pause_cases (counts : List ℕ) :
    s.pause cfg counts = { s with phase := none } ∨
      (∃ limit read sent key, s.phase = some (.incremental limit read sent) ∧
        s.stored = some (.incremental key) ∧
        s.pause cfg counts = { s with
          stored := some (.incremental (((sent.take (counts.getD 0 0)).getLast?.map
            (Row.text cfg)).getD key))
          phase := none
          delivered := s.delivered ++ sent.take (counts.getD 0 0) }) ∨
      ∃ start shards shards' delivered, s.stored = some (.backfill start shards) ∧
        s.pause cfg counts = { s with
          stored := some (.backfill start shards'), phase := none, delivered } := by
  unfold State.pause
  split
  · rename_i limit read sent key hphase hstored
    exact .inr (.inl ⟨limit, read, sent, key, hphase, hstored, rfl⟩)
  · rename_i start shards hphase hstored
    exact .inr (.inr ⟨start, shards, _, _, hstored, rfl⟩)
  · exact .inl rfl

end Cases

variable (cfg s) in
/-- What holds in every run: the shape of the stored checkpoint, that what the stored watermark is past
is delivered, and what holds of the run under way. -/
structure Inv : Prop where
  shape : ∀ cp, s.stored = some cp → cp.watermark = [] ∨ cp.watermark.length = cfg.n + 1
  planned : ∀ start shards, s.stored = some (.backfill start shards) →
    ∃ sample, shards = planKeyset cfg.type.toKeyType sample
  settled : ∀ key, s.stored = some (.incremental key) →
    ∀ v ∈ s.table.rows, v ∈ s.delivered ∨ Pending cfg key v
  reached : ∀ key, s.stored = some (.incremental key) → SeenFrom cfg s.seen key
  unlimited : ∀ limit start shards, s.phase = some (.planned limit) →
    s.stored = some (.backfill start shards) → limit = 0
  reading : ∀ limit read sent key, s.phase = some (.incremental limit read sent) →
    s.stored = some (.incremental key) → Reads cfg s key limit read sent
  filling : ∀ limit snapshot readers read sent start shards,
    s.phase = some (.backfill limit snapshot readers read sent) →
    s.stored = some (.backfill start shards) →
    limit = 0 ∧ Fills cfg s start shards snapshot readers read sent

section Steps

variable {cfg : Config α} {s : State α cfg.n}

theorem incrementalHigh_shape (hrows : ∀ r ∈ rows, r.key.length = cfg.n) :
    (incrementalHigh cfg rows).getD [] = [] ∨
      ((incrementalHigh cfg rows).getD []).length = cfg.n + 1 := by
  rcases incrementalHigh_spec cfg rows with ⟨-, hhigh⟩ | ⟨top, htop, hhigh, -⟩
  · exact .inl (by rw [hhigh]; rfl)
  · exact .inr (by rw [hhigh]; exact text_length (hrows top htop))

section

variable (h : Inv cfg s)
include h

theorem Inv.write {table : Table α cfg.n} (hstamped : Stamped cfg s (.write table)) :
    Inv cfg { s with table } := by
  refine ⟨h.shape, h.planned, fun key hkey v hv => ?_, h.reached, h.unlimited,
    fun limit read sent key hphase hkey => ?_,
    fun limit snapshot readers read sent start shards hphase hstored => ?_⟩
  · by_cases hold : v ∈ s.table.rows
    · exact h.settled key hkey v hold
    · exact .inr ((h.reached key hkey).pending (hstamped v hv hold))
  · have hreads := h.reading limit read sent key hphase hkey
    refine { hreads with since := fun v hv => ?_ }
    by_cases hold : v ∈ s.table.rows
    · exact hreads.since v hold
    · exact .inr (hstamped v hv hold)
  · obtain ⟨hlimit, hfills⟩ := h.filling limit snapshot readers read sent start shards hphase hstored
    refine ⟨hlimit, hfills.ordered, hfills.idle, hfills.unlimited, hfills.within, hfills.length,
      hfills.seen, fun l hl v hv => ?_, hfills.found⟩
    by_cases hold : v ∈ s.table.rows
    · exact hfills.since l hl v hold
    · exact .inr ((hfills.seen l hl).pending (hstamped v hv hold))

theorem Inv.fail : Inv cfg { s with phase := none } :=
  ⟨h.shape, h.planned, h.settled, h.reached, nofun, nofun, nofun⟩

theorem Inv.plan {limit : ℕ} (hlimit : 0 < limit → byCursor s.stored = true) :
    Inv cfg (s.plan cfg limit sample) := by
  -- A stored checkpoint is taken as it is; without one the run is a backfill without a limit.
  cases hstored : s.stored with
  | none =>
    have hzero : limit = 0 := by
      by_contra hpos
      obtain ⟨key, hkey⟩ := exists_of_byCursor (hlimit (by omega))
      exact absurd (hstored.symm.trans hkey) nofun
    have hplan : (s.plan cfg limit sample).stored = some (.backfill
        ((incrementalHigh cfg s.table.rows).getD []) (planKeyset cfg.type.toKeyType sample)) := by
      simp [State.plan, hstored, planIncremental, planIncremental.fresh, asIncrementalBackfill]
    refine ⟨fun cp hcp => ?_, fun start shards hcp => ?_, fun key hkey => ?_, fun key hkey => ?_,
      fun limit' start shards hphase _ => ?_, nofun, nofun⟩
    · obtain rfl := mem_unique hplan hcp
      exact incrementalHigh_shape s.table.length
    · obtain ⟨-, rfl⟩ := backfill.inj (mem_unique hplan hcp)
      exact ⟨sample, rfl⟩
    · exact absurd (hplan.symm.trans hkey) nofun
    · exact absurd (hplan.symm.trans hkey) nofun
    · exact (Phase.planned.inj (some.inj hphase)) ▸ hzero
  | some cp =>
    have hreuse : reusable (some cp) = true := by
      cases cp with
      | incremental key => rfl
      | backfill start shards =>
        obtain ⟨sample', rfl⟩ := h.planned start shards hstored
        simpa [reusable] using planKeyset_ne_nil cfg.type.toKeyType sample'
    have hplan : s.plan cfg limit sample = { s with phase := some (.planned limit) } := by
      simp [State.plan, hstored, planIncremental, hreuse]
    rw [hplan]
    refine ⟨h.shape, h.planned, h.settled, h.reached, fun limit' start shards hphase hcp => ?_,
      nofun, nofun⟩
    cases hphase
    by_contra hpos
    obtain ⟨key, hkey⟩ := exists_of_byCursor (hlimit (by omega))
    exact absurd (hkey.symm.trans hcp) nofun

theorem Inv.of_fills {start shards snapshot readers read sent}
    (hstored : s.stored = some (.backfill start shards)) {s' : State α cfg.n}
    (hstored' : s'.stored = s.stored)
    (hphase : s'.phase = some (.backfill 0 snapshot readers read sent))
    (hfills : Fills cfg s' start shards snapshot readers read sent) : Inv cfg s' := by
  refine ⟨hstored' ▸ h.shape, hstored' ▸ h.planned, ?_, ?_, ?_, ?_, ?_⟩ <;>
    simp only [hstored', hstored, hphase]
  case refine_5 =>
    intro limit snapshot' readers' read' sent' start' shards' hphase' hstored''
    cases hphase'
    cases hstored''
    exact ⟨rfl, hfills⟩
  all_goals nofun

theorem Inv.start {parallel : Bool} (hreach : begins s (.start parallel) = true → Reaches cfg s) :
    Inv cfg (s.start cfg parallel) := by
  rcases s.start_cases cfg parallel with heq | ⟨limit, key, hphase, hstored, heq⟩ |
    ⟨limit, start, shards, hphase, hstored, heq⟩
  · rwa [heq]
  · have hseen : SeenFrom cfg (largest s.table.rows) key :=
      .of_row ((hreach (by simp [begins, byCursor, hstored])).watermark hstored)
    rw [heq]
    refine ⟨h.shape, h.planned, h.settled, fun key' hkey' => ?_, nofun,
      fun limit' read sent key' hphase' hkey' => ?_, nofun⟩
    · obtain rfl := incremental.inj (mem_unique hstored hkey')
      exact hseen
    · cases hphase'
      obtain rfl := incremental.inj (mem_unique hstored hkey')
      exact ⟨rfl, s.table.distinct, s.table.length, h.settled key hstored,
        fun v hv => le_largest hv, fun v hv => .inl hv⟩
  · obtain rfl := h.unlimited limit start shards hphase hstored
    obtain ⟨sample, hshards⟩ := h.planned start shards hstored
    rw [heq]
    refine h.of_fills hstored rfl rfl ?_
    cases parallel with
    | false => exact fills_start hshards (by simp) (by simp) (by simp) (by simp) (by simp)
    | true =>
      refine fills_start hshards nofun ?_ ?_ (fun _ _ => .of_row ((hreach rfl).watermark hstored)) ?_
      · rintro t l ht hl v hv
        cases ht
        exact some.inj hl ▸ hv
      · rintro l hl v hv
        cases hl
        exact s.table.length v hv
      · rintro l hl v hv
        exact .inl (some.inj hl ▸ hv)

theorem Inv.page (hn : 0 < cfg.n) (hpageSize : 0 < cfg.pageSize)
    (hreach : begins s (.page i) = true → Reaches cfg s) : Inv cfg (s.page cfg i) := by
  rcases s.page_cases cfg i with heq | ⟨limit, snapshot, readers, read, sent, start, shards, rd, sh,
    hphase, hstored, hrd, hsh, hrunning, heq⟩
  · rwa [heq]
  · obtain ⟨rfl, hfills⟩ := h.filling limit snapshot readers read sent start shards hphase hstored
    obtain ⟨sample, hshards⟩ := h.planned start shards hstored
    have hlead : ∀ sh ∈ shards, sh.Leading := fun sh hsh => (planKeyset_leading (hshards ▸ hsh)).1
    have hfirst : read = none → SeenFrom cfg (largest s.table.rows) start := by
      rintro rfl
      exact .of_row ((hreach (by simp [begins, hphase])).watermark hstored)
    have hnext := hfills.page hn hpageSize hlead hrd hsh hrunning hfirst
      (s.page cfg i) (by rw [heq]) (by rw [heq])
    rw [heq] at hnext ⊢
    exact h.of_fills hstored rfl rfl hnext

theorem Inv.commit (hn : 0 < cfg.n) (hlookback : 0 < cfg.lookback) :
    Inv cfg (s.commit cfg) := by
  rcases s.commit_cases cfg with heq | ⟨limit, read, sent, key, hphase, hstored, heq⟩ |
    ⟨limit, snapshot, readers, read, sent, start, shards, hphase, hstored, hall, heq⟩
  · rwa [heq]
  · have hreads := h.reading limit read sent key hphase hstored
    obtain ⟨hshape, hseen, hsettled⟩ :=
      hreads.commit hn hlookback (h.shape _ hstored) (h.reached key hstored)
    rw [heq]
    refine ⟨fun cp hcp => ?_, nofun, fun key' hkey' => ?_, fun key' hkey' => ?_, nofun, nofun, nofun⟩
    · exact some.inj hcp ▸ hshape
    · exact incremental.inj (some.inj hkey') ▸ hsettled
    · exact incremental.inj (some.inj hkey') ▸ hseen
  · obtain ⟨rfl, hfills⟩ := h.filling limit snapshot readers read sent start shards hphase hstored
    obtain ⟨l, hl, hsent⟩ := hfills.complete hn (h.planned start shards hstored) hall
    rw [heq]
    refine ⟨fun cp hcp => ?_, nofun, fun key' hkey' v hv => ?_, fun key' hkey' => ?_, nofun, nofun,
      nofun⟩
    · have hshape := h.shape _ hstored
      cases hcp
      exact hshape
    · cases hkey'
      refine (hfills.since l hl v hv).imp_left fun hmem => mem_append_right _ ?_
      exact hsent v (s.table.length v hv) hmem
    · exact incremental.inj (some.inj hkey') ▸ hfills.seen l hl

theorem Inv.pause (hn : 0 < cfg.n) (hlookback : 0 < cfg.lookback) {counts : List ℕ}
    (hcursor : byCursor s.stored = true) : Inv cfg (s.pause cfg counts) := by
  rcases s.pause_cases cfg counts with heq | ⟨limit, read, sent, key, hphase, hstored, heq⟩ |
    ⟨start, shards, -, -, hstored, -⟩
  · rw [heq]
    exact h.fail
  · obtain ⟨hshape, hseen, hsettled⟩ := (h.reading limit read sent key hphase hstored).pause hn
      hlookback (h.shape _ hstored) (h.reached key hstored) (counts.getD 0 0)
    rw [heq]
    refine ⟨fun cp hcp => ?_, nofun, fun key' hkey' => ?_, fun key' hkey' => ?_, nofun, nofun, nofun⟩
    · exact some.inj hcp ▸ hshape
    · exact incremental.inj (some.inj hkey') ▸ hsettled
    · exact incremental.inj (some.inj hkey') ▸ hseen
  · obtain ⟨key, hkey⟩ := exists_of_byCursor hcursor
    exact absurd (hkey.symm.trans hstored) nofun

theorem Inv.step (hn : 0 < cfg.n) (hpageSize : 0 < cfg.pageSize) (hlookback : 0 < cfg.lookback)
    {e : Event α cfg.n} (hstamped : Stamped cfg s e) (hreach : begins s e = true → Reaches cfg s)
    (hlimit : Unlimited s e) :
    Inv cfg (step cfg s e) := by
  cases e with
  | write table => exact h.write hstamped
  | plan limit sample => exact Trace.guarded h fun _ => h.plan hlimit
  | start parallel => exact h.start hreach
  | page i => exact h.page hn hpageSize hreach
  | commit => exact h.commit hn hlookback
  | pause counts => exact h.pause hn hlookback hlimit
  | fail => exact h.fail

end

end Steps

/-! ### Delivery -/

theorem cursorLookback_pos : ∀ configured, 0 < cursorLookback .postgres configured
  | none => by decide
  | some seconds => by
    rw [cursorLookback]
    split_ifs with h
    · exact h
    · decide

/-- The limit of a run. -/
def Phase.limit {n : ℕ} : Phase α n → ℕ
  | .planned limit => limit
  | .incremental limit _ _ => limit
  | .backfill limit _ _ _ _ => limit

/-- The rows that are current in what a run read. -/
def Phase.read {n : ℕ} : Phase α n → List (Row α)
  | .planned _ => []
  | .incremental _ read _ => read
  | .backfill _ _ _ read _ => read.getD []

theorem Inv.delivers (h : Inv cfg s) (hn : 0 < cfg.n) (hlookback : 0 < cfg.lookback)
    {run : Phase α cfg.n} (hphase : s.phase = some run) (hlimit : run.limit = 0)
    (hcommit : (s.commit cfg).phase = none) (hv : v ∈ run.read) : v ∈ (s.commit cfg).delivered := by
  rcases s.commit_cases cfg with heq | ⟨limit, read, sent, key, hphase', hstored, heq⟩ |
    ⟨limit, snapshot, readers, read, sent, start, shards, hphase', hstored, hall, heq⟩
  · rw [heq, hphase] at hcommit
    cases hcommit
  · obtain rfl := mem_unique hphase hphase'
    have hreads := h.reading limit read sent key hphase' hstored
    rw [heq]
    exact (hreads.sent_or_above hn hlookback (h.shape _ hstored) hv).resolve_right
      fun hrest => hrest.1 hlimit
  · obtain rfl := mem_unique hphase hphase'
    obtain ⟨-, hfills⟩ := h.filling limit snapshot readers read sent start shards hphase' hstored
    obtain ⟨l, rfl, hsent⟩ := hfills.complete hn (h.planned start shards hstored) hall
    rw [heq]
    exact mem_append_right _ (hsent v (hfills.length l rfl v hv) hv)

/-- **Incremental reads of the Postgres source miss nothing inside the lookback.**  In every history in
which others stamp what they write at most the lookback below the largest cursor that the last run saw,
no limited run reads a backfill and none is paused in one, and every run that begins to read finds a row
at or above the stored watermark, a run without a limit that commits leaves every row that is current in
its read delivered. -/
theorem incremental_delivers (cfg : Config α) (hdialect : cfg.dialect = .postgres) (hn : 0 < cfg.n)
    (hpageSize : 0 < cfg.pageSize) (table : Table α cfg.n) (events : List (Event α cfg.n))
    (hstamped : Trace.Along (step cfg) (Stamped cfg) (unread table) events)
    (hreach : Trace.Along (step cfg) (fun s e => begins s e = true → Reaches cfg s)
      (unread table) events)
    (hlimit : Trace.Along (step cfg) Unlimited (unread table) events) :
    let s := Trace.run (step cfg) (unread table) events
    ∀ run, s.phase = some run → run.limit = 0 → (step cfg s .commit).phase = none →
      ∀ v ∈ run.read, v ∈ (step cfg s .commit).delivered := by
  have hlookback : 0 < cfg.lookback := by
    rw [Config.lookback, hdialect]
    exact cursorLookback_pos cfg.lookbackSeconds
  have hinit : Inv cfg (unread table) := ⟨nofun, nofun, nofun, nofun, nofun, nofun, nofun⟩
  have hinv : Inv cfg (Trace.run (step cfg) (unread table) events) := Trace.inv_run_of_along
    (fun (s : State α cfg.n) e (h : Inv cfg s) hclear =>
      h.step hn hpageSize hlookback hclear.1.1 hclear.1.2 hclear.2)
    hinit ((hstamped.and hreach).and hlimit)
  intro s run hphase hunlimited hcommit v hv
  exact hinv.delivers hn hlookback hphase hunlimited hcommit hv

/-! Rows with cursors of one digit, read with a lookback of one second. -/

/-- Columns of one digit. -/
def digits : CursorType (Fin 10) where
  text _ a := toString a.val
  cast _ text := ((List.finRange 10).find? fun a => toString a.val == text).getD 0
  cast_text _ := by decide +kernel
  int := none
  rewind seconds a := ⟨a.val - seconds, by omega⟩
  rewind_mono seconds a b hab := by
    simp only [Fin.le_def] at hab ⊢
    omega
  rewind_le seconds a := by
    simp only [Fin.le_def]
    omega

private abbrev secondConfig : Config (Fin 10) := ⟨digits, .postgres, 1, 5, some 1⟩

def oneShard : Sampled (Fin 10) := ⟨1, none, none, nofun⟩

def apartRows : Table (Fin 10) 1 := ⟨[⟨7, [1], 0⟩, ⟨8, [3], 0⟩], by decide, by decide⟩

private def threeRows : Table (Fin 10) 1 :=
  ⟨[⟨0, [1], 0⟩, ⟨1, [2], 0⟩, ⟨8, [3], 0⟩], by decide, by decide⟩

/-- The second row is updated, a second late. -/
private def lateUpdate : Table (Fin 10) 1 :=
  ⟨[⟨0, [1], 0⟩, ⟨7, [2], 1⟩, ⟨8, [3], 0⟩], by decide, by decide⟩

private def updatedAfterwards : List (Event (Fin 10) 1) :=
  [.plan 0 oneShard, .start false, .page 0, .write lateUpdate, .commit, .plan 0 oneShard,
    .start false]

/-- The second run delivers the late update. -/
theorem late_update_delivered :
    let s := Trace.run (step secondConfig) (unread threeRows) updatedAfterwards
    ⟨7, [2], 1⟩ ∈ (step secondConfig s .commit).delivered := by
  have h := incremental_delivers secondConfig rfl (by decide) (by decide) threeRows updatedAfterwards
    (by decide +kernel) (by decide +kernel) (by decide +kernel)
  exact h _ rfl (by decide +kernel) (by decide +kernel) ⟨7, [2], 1⟩ (by decide +kernel)

/-! The first run has a limit of one row; its backfill is promoted to the watermark of the third, and
nothing is ever written. -/

private def limitedFirst : List (Event (Fin 10) 1) :=
  [.plan 1 oneShard, .start false, .page 0, .commit, .plan 0 oneShard, .start false]

/-- The second run has no limit, and its read has a row that no run delivers. -/
theorem limited_backfill_misses :
    (∀ table, Event.write table ∉ limitedFirst) ∧
    let s := Trace.run (step secondConfig) (unread threeRows) limitedFirst
    ∃ run, s.phase = some run ∧ run.limit = 0 ∧ (step secondConfig s .commit).phase = none ∧
      ∃ v ∈ run.read, v ∉ (step secondConfig s .commit).delivered := by
  refine ⟨by simp [limitedFirst], _, rfl, by decide +kernel, by decide +kernel, ⟨1, [2], 0⟩, ?_⟩
  decide +kernel

/-- The writes of a history are stamped as they should be, and the run without a limit that ends it has
a row in its read that no run delivers. -/
private def Misses (events : List (Event (Fin 10) 1)) (v : Row (Fin 10)) : Prop :=
  let s := Trace.run (step secondConfig) (unread threeRows) events
  Trace.Along (step secondConfig) (Stamped secondConfig) (unread threeRows) events ∧
    ∃ run, s.phase = some run ∧ run.limit = 0 ∧ (step secondConfig s .commit).phase = none ∧
      v ∈ run.read ∧ v ∉ (step secondConfig s .commit).delivered

/-- The first run is paused in its backfill after two rows, one of them is updated, and the next goes on
after them. -/
theorem paused_backfill_misses : Misses [.plan 0 oneShard, .start false, .page 0, .pause [2],
    .write lateUpdate, .plan 0 oneShard, .start false, .page 0] ⟨7, [2], 1⟩ := by
  refine ⟨by decide +kernel, _, rfl, by decide +kernel, by decide +kernel, ?_⟩
  decide +kernel

private def twoLeft : Table (Fin 10) 1 := ⟨[⟨0, [1], 0⟩, ⟨1, [2], 0⟩], by decide, by decide⟩

private def lowAdded : Table (Fin 10) 1 :=
  ⟨[⟨0, [1], 0⟩, ⟨1, [2], 0⟩, ⟨2, [4], 0⟩], by decide, by decide⟩

/-- The row of the watermark is deleted before the second run, which then sees no cursor above one; a row
that is stamped after it is below what the third run reads. -/
theorem emptied_watermark_misses : Misses [.plan 0 oneShard, .start false, .page 0, .commit,
    .write twoLeft, .plan 0 oneShard, .start false, .commit, .write lowAdded, .plan 0 oneShard,
    .start false] ⟨2, [4], 0⟩ := by
  refine ⟨by decide +kernel, _, rfl, by decide +kernel, by decide +kernel, ?_⟩
  decide +kernel

end Filament.Incremental
