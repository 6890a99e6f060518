import Filament.Incremental.Delivery

/-!
# Incremental watermarks

A run by the cursor reads again what the lookback covers, from its start, and stores the position of
the last row that it sent, or that the sink had when it was paused.

* `reread` : the rows of a run that lie before the stored watermark;
* **`watermark_advances_iff`** : over a table that only grows, the watermark does not move backwards
  exactly when the run ends after all of those rows;
* `watermark_moves_back` : a run whose limit or whose pause falls inside the lookback.
-/

namespace Filament.Incremental

open Filament.Keyset List Option
open Filament.Postgres.Snapshot (page)

variable {α : Type} [LinearOrder α]

/-- No row is deleted and no cursor decreases. -/
def Grows {n : ℕ} (s : State α n) : Event α n → Prop
  | .write table => ∀ r ∈ s.table.rows, ∃ r' ∈ table.rows, r'.key = r.key ∧ r.cursor ≤ r'.cursor
  | _ => True

/-- The rows of a run from a watermark that lie before it. -/
def reread (cfg : Config α) (read : List (Row α)) (key : List String) : List (Row α) :=
  (read.filter (above cfg (startLow cfg key))).filter fun r =>
    decide (r.pos < key.mapIdx cfg.type.cast)

/-! ### The rows before a position -/

theorem sorted_eq_append {rows : List (Row α)} (h : rows.Pairwise fun r r' => r.pos < r'.pos)
    (w : List α) : rows = (rows.filter fun r => decide (r.pos < w)) ++
      rows.filter fun r => !decide (r.pos < w) := by
  induction rows with
  | nil => rfl
  | cons r rows ih =>
    rw [pairwise_cons] at h
    by_cases hlt : r.pos < w
    · rw [filter_cons_of_pos (by simpa using hlt), filter_cons_of_neg (by simpa using hlt),
        cons_append, ← ih h.2]
    · -- Once a row is not before the position, no later one is.
      have hnone : (rows.filter fun r => decide (r.pos < w)) = [] := by
        rw [filter_eq_nil_iff]
        intro r' hr' hlt'
        exact hlt ((h.1 r' hr').trans (of_decide_eq_true hlt'))
      have hall := ih h.2
      rw [hnone, nil_append] at hall
      rw [filter_cons_of_neg (by simpa using hlt), hnone, nil_append,
        filter_cons_of_pos (by simpa using hlt), ← hall]

section Run

variable {cfg : Config α} {read : List (Row α)} {key : List String}

theorem reread_length :
    ((window cfg read (startLow cfg key)).filter fun r =>
      decide (r.pos < key.mapIdx cfg.type.cast)).length = (reread cfg read key).length :=
  ((perm_insertionSort ..).filter _).length_eq

theorem reread_eq_nil (hread : ∀ r ∈ read, r.key.length = cfg.n) (hkey : key.length = cfg.n + 1)
    (hlookback : cfg.lookback = 0) : reread cfg read key = [] := by
  obtain ⟨c, rest, rfl⟩ := exists_cons_of_length_pos (by omega : 0 < key.length)
  have hlow : startLow cfg (c :: rest) = c :: rest := if_neg (by omega)
  rw [reread, hlow, filter_eq_nil_iff]
  intro r hr hlt
  obtain ⟨hmem, habove⟩ := mem_filter.1 hr
  exact lt_asymm ((above_full hkey (hread r hmem)).1 habove) (of_decide_eq_true hlt)

/-- With a lookback, a run reads a row at or after the watermark, if there is one. -/
theorem exists_not_before (hn : 0 < cfg.n) (hlookback : 0 < cfg.lookback)
    (hkey : key.length = cfg.n + 1) (htop : ∃ r ∈ read, key.mapIdx cfg.type.cast ≤ r.pos) :
    ∃ r ∈ window cfg read (startLow cfg key), ¬r.pos < key.mapIdx cfg.type.cast := by
  obtain ⟨r, hr, hle⟩ := htop
  refine ⟨r, mem_ordered.2 (mem_filter.2 ⟨hr, ?_⟩), not_lt_of_ge hle⟩
  refine above_startLow hn hlookback (.inr hkey) fun c hc => ?_
  obtain ⟨c', rest, rfl⟩ := exists_cons_of_length_pos (by omega : 0 < key.length)
  obtain rfl := some.inj hc
  have hhead : cfg.type.cast 0 c' ≤ r.cursor := by
    rw [mapIdx_cons] at hle
    rcases hle.lt_or_eq with hlt | heq
    · exact head_le_of_lt hlt
    · exact (cons.inj heq).1.le
  exact (cfg.type.rewind_le ..).trans hhead

/-- The position that a run stores is not before the watermark exactly when its limit is above the
number of rows that it reads again. -/
theorem next_advances_iff (hn : 0 < cfg.n) (hdistinct : (read.map Row.key).Nodup)
    (hread : ∀ r ∈ read, r.key.length = cfg.n) (hkey : key = [] ∨ key.length = cfg.n + 1)
    (htop : key ≠ [] → ∃ r ∈ read, key.mapIdx cfg.type.cast ≤ r.pos) (limit : ℕ) :
    key.mapIdx cfg.type.cast ≤ (((extractIncrementalTable cfg read key limit).getLast?.map
        (Row.text cfg)).getD key).mapIdx cfg.type.cast ↔
      limit = 0 ∨ (reread cfg read key).length < limit := by
  rcases hkey with rfl | hkey
  · have hnone : reread cfg read [] = [] := by
      rw [reread, filter_eq_nil_iff]
      intro r _ hlt
      exact not_lt_nil _ (of_decide_eq_true hlt)
    rw [hnone, length_nil]
    exact ⟨fun _ => by omega, fun _ => not_lt.1 (not_lt_nil _)⟩
  · rw [extractIncrementalTable_eq hn hdistinct hread]
    have hsorted := ordered_sorted (hdistinct.sublist (filter_sublist.map Row.key) :
      ((read.filter (above cfg (startLow cfg key))).map Row.key).Nodup)
    obtain ⟨before, after, hbefore, hafter, hlength, happend, hempty⟩ :
        ∃ before after : List (Row α), (∀ r ∈ before, r.pos < key.mapIdx cfg.type.cast) ∧
          (∀ r ∈ after, key.mapIdx cfg.type.cast ≤ r.pos) ∧
          before.length = (reread cfg read key).length ∧
          window cfg read (startLow cfg key) = before ++ after ∧ (after = [] → before = []) := by
      refine ⟨_, _, ?_, ?_, reread_length, sorted_eq_append hsorted (key.mapIdx cfg.type.cast), ?_⟩
      · intro r hr
        exact of_decide_eq_true (mem_filter.1 hr).2
      · intro r hr
        simpa using (mem_filter.1 hr).2
      · -- Without a lookback nothing is read again; with one, the row of the watermark is read.
        intro hnone
        rcases Nat.eq_zero_or_pos cfg.lookback with hzero | hpos
        · rw [← length_eq_zero_iff, reread_length, reread_eq_nil hread hkey hzero]
          rfl
        · obtain ⟨r, hr, hnot⟩ := exists_not_before hn hpos hkey
            (htop (ne_nil_of_length_pos (by omega)))
          exact absurd (by simpa using hnot) (filter_eq_nil_iff.1 hnone r hr)
    rw [happend, ← hlength]
    have hnext : ∀ r : Row α, ((some r).map (Row.text cfg)).getD key = r.text cfg := fun _ => rfl
    by_cases hlimit : limit = 0 ∨ before.length < limit
    · -- The rows sent end after the watermark, or there are none.
      refine iff_of_true ?_ hlimit
      cases hlast : (page limit (before ++ after)).getLast? with
      | none => exact le_rfl
      | some r =>
        rw [hnext, cast_text]
        have hne : after ≠ [] := fun hnil => by
          rw [hnil, hempty hnil] at hlast
          simp [page] at hlast
        obtain ⟨front, hfront⟩ : ∃ front, front ≠ [] ∧ (∀ r ∈ front, r ∈ after) ∧
            page limit (before ++ after) = before ++ front := by
          rcases hlimit with rfl | hlimit
          · exact ⟨after, hne, fun r hr => hr, by simp [page]⟩
          refine ⟨after.take (limit - before.length), ?_, fun r hr => mem_of_mem_take hr, ?_⟩
          · rw [Ne, take_eq_nil_iff, not_or]
            exact ⟨by omega, hne⟩
          · rw [page, if_pos (by omega), take_append,
              take_of_length_le (by omega : before.length ≤ limit)]
        obtain ⟨hfront, hsub, hpage⟩ := hfront
        rw [hpage, getLast?_append_of_ne_nil _ hfront] at hlast
        exact hafter r (hsub r (mem_of_getLast? hlast))
    · -- The limit falls among the rows that are read again.
      rw [not_or, Nat.not_lt] at hlimit
      refine iff_of_false ?_ (by omega)
      have hpage : page limit (before ++ after) = before.take limit := by
        rw [page, if_pos (by omega), take_append_of_le_length hlimit.2]
      have hne : before.take limit ≠ [] := by
        rw [Ne, take_eq_nil_iff, not_or]
        exact ⟨hlimit.1, ne_nil_of_length_pos (by omega)⟩
      rw [hpage, getLast?_eq_some_getLast hne, hnext, cast_text]
      exact not_le_of_gt (hbefore _ (mem_of_mem_take (getLast_mem hne)))

end Run

/-! ### Runs -/

/-- Some row of a table is at or after the position of a watermark. -/
def Covers (cfg : Config α) (rows : List (Row α)) (key : List String) : Prop :=
  key ≠ [] → ∃ r ∈ rows, key.mapIdx cfg.type.cast ≤ r.pos

/-- What holds over a table that only grows. -/
structure Held (cfg : Config α) (s : State α cfg.n) : Prop where
  shape : ∀ cp, s.stored = some cp → cp.watermark = [] ∨ cp.watermark.length = cfg.n + 1
  covers : ∀ cp, s.stored = some cp → Covers cfg s.table.rows cp.watermark
  sent : ∀ limit read sent key, s.phase = some (.incremental limit read sent) →
    s.stored = some (.incremental key) → sent = extractIncrementalTable cfg read key limit ∧
      Covers cfg read key
  read : ∀ limit read sent, s.phase = some (.incremental limit read sent) →
    (read.map Row.key).Nodup ∧ (∀ r ∈ read, r.key.length = cfg.n) ∧
      ∀ r ∈ read, ∃ r' ∈ s.table.rows, r.pos ≤ r'.pos

section Steps

variable {cfg : Config α} {s : State α cfg.n}

theorem pos_le {r r' : Row α} (hkey : r'.key = r.key) (hcursor : r.cursor ≤ r'.cursor) :
    r.pos ≤ r'.pos := by
  rcases hcursor.lt_or_eq with hlt | heq
  · exact (cons_lt_cons_iff.2 (.inl hlt)).le
  · rw [Row.pos, Row.pos, hkey, heq]

section

variable (h : Held cfg s)
include h

theorem Held.write {table : Table α cfg.n} (hgrows : Grows s (.write table)) :
    Held cfg { s with table } := by
  have hrow : ∀ r ∈ s.table.rows, ∃ r' ∈ table.rows, r.pos ≤ r'.pos := fun r hr => by
    obtain ⟨r', hr', hkey, hcursor⟩ := hgrows r hr
    exact ⟨r', hr', pos_le hkey hcursor⟩
  refine ⟨h.shape, fun cp hcp hne => ?_, h.sent, fun limit read sent hphase => ?_⟩
  · obtain ⟨r, hr, hle⟩ := h.covers cp hcp hne
    obtain ⟨r', hr', hle'⟩ := hrow r hr
    exact ⟨r', hr', hle.trans hle'⟩
  · obtain ⟨hdistinct, hlength, hread⟩ := h.read limit read sent hphase
    refine ⟨hdistinct, hlength, fun r hr => ?_⟩
    obtain ⟨r', hr', hle⟩ := hread r hr
    obtain ⟨r'', hr'', hle'⟩ := hrow r' hr'
    exact ⟨r'', hr'', hle.trans hle'⟩

theorem Held.plan (limit : ℕ) (sample : Sampled α) :
    Held cfg (s.plan cfg limit sample) := by
  have hstored : ∀ cp, (s.plan cfg limit sample).stored = some cp → s.stored = some cp ∨
      cp.watermark = (incrementalHigh cfg s.table.rows).getD [] := by
    intro cp hcp
    cases hcp
    unfold planIncremental
    split
    · rename_i cp hprev
      split_ifs
      · exact .inl hprev
      · exact .inr rfl
    · exact .inr rfl
  refine ⟨fun cp hcp => ?_, fun cp hcp => ?_, nofun, nofun⟩
  · rcases hstored cp hcp with hprev | hfresh
    · exact h.shape cp hprev
    · rw [hfresh]
      exact incrementalHigh_shape s.table.length
  · rcases hstored cp hcp with hprev | hfresh
    · exact h.covers cp hprev
    rw [hfresh]
    intro hne
    rcases incrementalHigh_spec cfg s.table.rows with ⟨-, hhigh⟩ | ⟨top, htop, hhigh, -⟩
    · simp [hhigh] at hne
    · refine ⟨top, htop, ?_⟩
      rw [hhigh, getD_some, cast_text]

theorem Held.start (parallel : Bool) : Held cfg (s.start cfg parallel) := by
  rcases s.start_cases cfg parallel with heq | ⟨limit, key, hphase, hstored, heq⟩ |
    ⟨limit, start, shards, hphase, hstored, heq⟩
  · rwa [heq]
  · rw [heq]
    refine ⟨h.shape, h.covers, fun limit' read sent key' hphase' hkey' => ?_,
      fun limit' read sent hphase' => ?_⟩
    · cases hphase'
      obtain rfl := Checkpoint.incremental.inj (mem_unique hstored hkey')
      exact ⟨rfl, h.covers _ hstored⟩
    · cases hphase'
      exact ⟨s.table.distinct, s.table.length, fun r hr => ⟨r, hr, le_rfl⟩⟩
  · rw [heq]
    exact ⟨h.shape, h.covers, nofun, nofun⟩

theorem Held.page (i : ℕ) : Held cfg (s.page cfg i) := by
  rcases s.page_cases cfg i with heq | ⟨limit, snapshot, readers, read, sent, start, shards, rd, sh,
    hphase, hstored, hrd, hsh, hrunning, heq⟩
  · rwa [heq]
  · rw [heq]
    exact ⟨h.shape, h.covers, nofun, nofun⟩

/-- The run ends, and the position of the last of some rows that it sent is stored. -/
theorem Held.of_sent (hn : 0 < cfg.n) {limit : ℕ} {read sent rows delivered : List (Row α)}
    {key : List String} (hphase : s.phase = some (.incremental limit read sent))
    (hstored : s.stored = some (.incremental key)) (hrows : ∀ r ∈ rows, r ∈ sent) :
    Held cfg { s with
      stored := some (.incremental ((rows.getLast?.map (Row.text cfg)).getD key))
      phase := none
      delivered } := by
  obtain ⟨hdistinct, hlength, hread⟩ := h.read limit read sent hphase
  have hsent := (h.sent limit read sent key hphase hstored).1
  rw [extractIncrementalTable_eq hn hdistinct hlength] at hsent
  have hmem : ∀ r ∈ rows, r ∈ read := fun r hr => mem_of_mem_filter
    (mem_ordered.1 ((Postgres.Snapshot.page_isPrefix ..).subset (hsent ▸ hrows r hr)))
  refine ⟨fun cp hcp => ?_, fun cp hcp => ?_, nofun, nofun⟩
  · cases hcp
    cases hlast : rows.getLast? with
    | none => exact h.shape _ hstored
    | some last =>
      exact .inr (text_length (hlength last (hmem last (mem_of_getLast? hlast))))
  · cases hcp
    cases hlast : rows.getLast? with
    | none => exact h.covers _ hstored
    | some last =>
      intro _
      obtain ⟨r, hr, hle⟩ := hread last (hmem last (mem_of_getLast? hlast))
      exact ⟨r, hr, (cast_text last).le.trans hle⟩

/-- The run ends, and the watermark stays. -/
theorem Held.of_watermark {cp cp' : Checkpoint} {delivered : List (Row α)}
    (hstored : s.stored = some cp) (hsame : cp'.watermark = cp.watermark) :
    Held cfg { s with stored := some cp', phase := none, delivered } := by
  refine ⟨fun cp'' hcp => ?_, fun cp'' hcp => ?_, nofun, nofun⟩
  · obtain rfl := some.inj hcp
    rw [hsame]
    exact h.shape cp hstored
  · obtain rfl := some.inj hcp
    rw [hsame]
    exact h.covers cp hstored

theorem Held.commit (hn : 0 < cfg.n) : Held cfg (s.commit cfg) := by
  rcases s.commit_cases cfg with heq | ⟨limit, read, sent, key, hphase, hstored, heq⟩ |
    ⟨limit, snapshot, readers, read, sent, start, shards, hphase, hstored, -, heq⟩
  · rwa [heq]
  · rw [heq]
    exact h.of_sent hn hphase hstored fun r hr => hr
  · rw [heq]
    exact h.of_watermark hstored rfl

theorem Held.pause (hn : 0 < cfg.n) (counts : List ℕ) : Held cfg (s.pause cfg counts) := by
  rcases s.pause_cases cfg counts with heq | ⟨limit, read, sent, key, hphase, hstored, heq⟩ |
    ⟨start, shards, shards', delivered, hstored, heq⟩
  · rw [heq]
    exact ⟨h.shape, h.covers, nofun, nofun⟩
  · rw [heq]
    exact h.of_sent hn hphase hstored fun r hr => mem_of_mem_take hr
  · rw [heq]
    exact h.of_watermark hstored rfl

theorem Held.step (hn : 0 < cfg.n) {e : Event α cfg.n} (hgrows : Grows s e) :
    Held cfg (step cfg s e) := by
  cases e with
  | write table => exact h.write hgrows
  | plan limit sample => exact Trace.guarded h fun _ => h.plan limit sample
  | start parallel => exact h.start parallel
  | page i => exact h.page i
  | commit => exact h.commit hn
  | pause counts => exact h.pause hn counts
  | fail => exact ⟨h.shape, h.covers, nofun, nofun⟩

end

end Steps

/-- **When an incremental watermark moves backwards.**  In every history over a table from which no row
is deleted and whose cursors never decrease, the position that a run by the cursor stores is at or
after the one before exactly when the run has no limit, or one above the number of rows that it reads
again before the watermark; and when it is paused, exactly when the sink has none of its rows, or more
than it reads again, and the limit is no lower. -/
theorem watermark_advances_iff (cfg : Config α) (hn : 0 < cfg.n) (table : Table α cfg.n)
    (events : List (Event α cfg.n))
    (hgrows : Trace.Along (step cfg) Grows (unread table) events) :
    let s := Trace.run (step cfg) (unread table) events
    ∀ limit read sent key, s.phase = some (.incremental limit read sent) →
      s.stored = some (.incremental key) →
      (∃ next, (step cfg s .commit).stored = some (.incremental next) ∧
        (key.mapIdx cfg.type.cast ≤ next.mapIdx cfg.type.cast ↔
          limit = 0 ∨ (reread cfg read key).length < limit)) ∧
      ∀ count, ∃ next, (step cfg s (.pause [count])).stored = some (.incremental next) ∧
        (key.mapIdx cfg.type.cast ≤ next.mapIdx cfg.type.cast ↔
          count = 0 ∨ (reread cfg read key).length < count ∧
            (limit = 0 ∨ (reread cfg read key).length < limit)) := by
  have hinit : Held cfg (unread table) := ⟨nofun, nofun, nofun, nofun⟩
  have hheld : Held cfg (Trace.run (step cfg) (unread table) events) := Trace.inv_run_of_along
    (fun (s : State α cfg.n) e (h : Held cfg s) hgrows => h.step hn hgrows) hinit hgrows
  intro s limit read sent key hphase hstored
  obtain ⟨hdistinct, hlength, -⟩ := hheld.read limit read sent hphase
  obtain ⟨rfl, hcovers⟩ := hheld.sent limit read sent key hphase hstored
  have hshape : key = [] ∨ key.length = cfg.n + 1 := hheld.shape _ hstored
  have hiff := next_advances_iff hn hdistinct hlength hshape hcovers
  refine ⟨⟨_, ?_, hiff limit⟩, fun count => ?_⟩
  · simp only [step, State.commit, hphase, hstored]
  refine ⟨(((extractIncrementalTable cfg read key limit).take count).getLast?.map
    (Row.text cfg)).getD key, ?_, ?_⟩
  · simp only [step, State.pause, hphase, hstored]
    rfl
  rcases Nat.eq_zero_or_pos count with rfl | hcount
  · simp
  rw [take_extractIncrementalTable hn hdistinct hlength key limit hcount, hiff, cutLimit]
  split_ifs <;> omega

/-! Two rows a second apart, read with a lookback of one second: a run with a limit of one row reads
the first again and stores its position. -/

private abbrev apartConfig : Config (Fin 10) := ⟨digits, .postgres, 1, 5, some 1⟩

private def limitedTo (limit : ℕ) : List (Event (Fin 10) 1) :=
  [.plan 0 oneShard, .start false, .page 0, .commit, .plan limit oneShard, .start false]

instance {n : ℕ} (s : State α n) : ∀ e, Decidable (Grows s e)
  | .write table => inferInstanceAs (Decidable (∀ r ∈ s.table.rows, ∃ r' ∈ table.rows, _))
  | .plan _ _ | .start _ | .page _ | .commit | .pause _ | .fail => .isTrue trivial

/-- A limit of two rows is enough. -/
theorem two_rows_advance :
    let s := Trace.run (step apartConfig) (unread apartRows) (limitedTo 2)
    ∃ next, (step apartConfig s .commit).stored = some (.incremental next) ∧
      ["8", "3"].mapIdx digits.cast ≤ next.mapIdx digits.cast := by
  have h := watermark_advances_iff apartConfig (by decide) apartRows (limitedTo 2)
    (by decide +kernel)
  obtain ⟨⟨next, hnext, hiff⟩, -⟩ := h 2 _ _ ["8", "3"] rfl (by decide +kernel)
  exact ⟨next, hnext, hiff.2 (by decide +kernel)⟩

/-- The table only grows, and the watermark moves from the second row back to the first: in a run with a
limit of one row, and in one without a limit that is paused after one row. -/
theorem watermark_moves_back :
    ["7", "1"].mapIdx digits.cast < ["8", "3"].mapIdx digits.cast ∧
    ∀ end_ ∈ [(1, .commit), (0, Event.pause [1])],
      let s := Trace.run (step apartConfig) (unread apartRows) (limitedTo end_.1)
      Trace.Along (step apartConfig) Grows (unread apartRows) (limitedTo end_.1) ∧
        s.stored = some (.incremental ["8", "3"]) ∧
        (step apartConfig s end_.2).stored = some (.incremental ["7", "1"]) := by
  refine ⟨by decide +kernel, forall_mem_cons.2 ⟨⟨?_, ?_, ?_⟩, forall_mem_singleton.2 ⟨?_, ?_, ?_⟩⟩⟩
  all_goals decide +kernel

end Filament.Incremental
