import Mathlib.Algebra.Order.BigOperators.Group.List
import Mathlib.Algebra.Order.Group.Multiset
import Filament.Postgres.Snapshot

/-!
# What a full read emits

The windows of a shard, the shards of a relation and the relations of the tables cover, each once,
the blocks below the size each relation had when it was planned.  The rows are those the snapshot
sees there, since what a snapshot sees does not change.

* `Planning`, `Reading` : the invariants of the plan and of the readers;
* `extract_emits` : **a read that finished emitted the rows its snapshot sees below the planned
  sizes**, each once;
* `extract_exact_iff` : it emitted its snapshot exactly when no row of the snapshot is at or past
  the planned size of its relation;
* `bootstrap_exact` : with a snapshot from before the plan that is always so.
-/

namespace Filament.Postgres.Snapshot

open Mvcc List Run Reader

variable {ρ : Type}

/-! ### Ranges of blocks -/

/-- The rows that a snapshot sees in a range of blocks, under a table. -/
def rangeRows (db : Database ρ) (snap : ℕ) (table qualified : String) (lo hi : ℕ) :
    Multiset (String × ρ) :=
  ((db.heap qualified).rowsIn snap lo hi).map fun row => (table, row)

section

variable {db : Database ρ} {snap : ℕ} {table qualified : String}

theorem rangeRows_eq (lo hi : ℕ) : rangeRows db snap table qualified lo hi =
    (((db.heap qualified).seen snap : Multiset (ρ × ℕ)).filter fun p => lo ≤ p.2 ∧ p.2 < hi).map
      fun p => (table, p.1) := by
  rw [rangeRows, Heap.rowsIn_eq, Multiset.filter_coe, Multiset.map_coe, map_map]
  rfl

theorem rangeRows_add {lo mid hi : ℕ} (hlo : lo ≤ mid) (hhi : mid ≤ hi) :
    rangeRows db snap table qualified lo mid + rangeRows db snap table qualified mid hi =
      rangeRows db snap table qualified lo hi := by
  rw [rangeRows_eq, rangeRows_eq, rangeRows_eq, ← Multiset.map_add, Multiset.filter_add_filter]
  have hempty : (((db.heap qualified).seen snap : Multiset (ρ × ℕ)).filter fun p =>
      (lo ≤ p.2 ∧ p.2 < mid) ∧ mid ≤ p.2 ∧ p.2 < hi) = 0 := by
    refine Multiset.filter_eq_nil.2 fun p _ hp => ?_
    omega
  rw [hempty, add_zero]
  congr 1
  refine Multiset.filter_congr fun p _ => ?_
  omega

theorem rangeRows_self (lo : ℕ) : rangeRows db snap table qualified lo lo = 0 := by
  rw [rangeRows_eq]
  have hempty : (((db.heap qualified).seen snap : Multiset (ρ × ℕ)).filter fun p =>
      lo ≤ p.2 ∧ p.2 < lo) = 0 := by
    refine Multiset.filter_eq_nil.2 fun p _ hp => ?_
    omega
  rw [hempty, Multiset.map_zero]

end

/-! ### The shards of a relation -/

variable {k pages i : ℕ}

theorem shardCount_pos (pages parallelism shardPages : ℕ) :
    0 < shardCount pages parallelism shardPages := by
  unfold shardCount
  split_ifs with h
  · exact Nat.one_pos
  push Not at h
  have hdiv : 0 < (pages + shardPages - 1) / shardPages :=
    Nat.div_pos (by omega) h.1
  exact lt_min hdiv (by decide)

/-- Every shard ends where the next one begins, the last one at the size of the relation. -/
theorem relationShard_hi (hi : i < k) (table qualified : String) (part pages window : ℕ) :
    (relationShard table qualified part pages window k i).hiBlock = (i + 1) * pages / k := by
  unfold relationShard
  split_ifs with hlast
  · have hk : i + 1 = k := by omega
    rw [hk, Nat.mul_div_cancel_left _ (by omega)]
  · rfl

/-- The rows of a shard. -/
def Shard.rows (db : Database ρ) (snap : ℕ) (sh : Shard) : Multiset (String × ρ) :=
  rangeRows db snap sh.table sh.qualified sh.loBlock sh.hiBlock

theorem relationShards_rows (db : Database ρ) (snap : ℕ) (table qualified : String)
    (part pages window : ℕ) (hk : 0 < k) :
    ((relationShards table qualified part pages window k).map (Shard.rows db snap)).sum =
      rangeRows db snap table qualified 0 pages := by
  have hsteps : ∀ j ≤ k, ((range j).map fun i =>
      Shard.rows db snap (relationShard table qualified part pages window k i)).sum =
        rangeRows db snap table qualified 0 (j * pages / k) := by
    intro j hj
    induction j with
    | zero => simp [rangeRows_self]
    | succ j ih =>
      rw [range_succ, map_append, sum_append, ih (by omega), map_singleton,
        sum_singleton, Shard.rows, relationShard_hi (by omega)]
      refine rangeRows_add (Nat.zero_le _) (Nat.div_le_div_right ?_)
      exact Nat.mul_le_mul_right _ (Nat.le_succ j)
  rw [relationShards, map_map]
  have hall := hsteps k le_rfl
  rwa [Nat.mul_div_cancel_left _ hk] at hall

theorem relationShards_bounds {table qualified : String} {part window : ℕ} (hwindow : 0 < window)
    {sh : Shard} (h : sh ∈ relationShards table qualified part pages window k) :
    sh.loBlock ≤ sh.hiBlock ∧ 0 < sh.windowBlocks := by
  obtain ⟨i, hi, rfl⟩ := mem_map.1 h
  rw [relationShard_hi (mem_range.1 hi)]
  exact ⟨Nat.div_le_div_right (Nat.mul_le_mul_right _ (Nat.le_succ i)), hwindow⟩

/-! ### The plan -/

variable {cfg : Config} {r r' : Run ρ}

/-- The relations of the tables, each with its table. -/
def Config.pairs (cfg : Config) : List (String × String) :=
  cfg.resources.flatMap fun table => (cfg.relations table).map fun q => (table, q)

/-- The relations still to be planned. -/
def Run.todo (cfg : Config) (r : Run ρ) : List (String × String) :=
  (r.sized.toList.map fun p => (r.table, p.1)) ++ (r.relations.map fun q => (r.table, q)) ++
    r.tables.flatMap fun table => (cfg.relations table).map fun q => (table, q)

/-- The rows that a snapshot sees below the planned sizes. -/
def Run.plannedRows (r : Run ρ) (db : Database ρ) (snap : ℕ) : Multiset (String × ρ) :=
  (r.sizes.map fun x => rangeRows db snap x.1 x.2.1 0 x.2.2).sum

/-- What is planned so far: every relation in turn, and shards that cover the sizes. -/
structure Planning (cfg : Config) (r : Run ρ) : Prop where
  covered : (r.sizes.map fun x => (x.1, x.2.1)) ++ r.todo cfg = cfg.pairs
  rows : ∀ db snap, (r.shards.map (Shard.rows db snap)).sum = r.plannedRows db snap
  bounds : ∀ sh ∈ r.shards, sh.loBlock ≤ sh.hiBlock ∧ 0 < sh.windowBlocks

theorem Planning.start (cfg : Config) (db : Database ρ) (snap : Option ℕ) :
    Planning cfg (start cfg db snap) :=
  ⟨rfl, fun _ _ => rfl, nofun⟩

/-- The plan does not depend on the readers, on the snapshot, or on what others do. -/
theorem Planning.congr (h : Planning cfg r) (htables : r'.tables = r.tables)
    (htable : r'.table = r.table) (hrelations : r'.relations = r.relations)
    (hsized : r'.sized = r.sized) (hshards : r'.shards = r.shards) (hsizes : r'.sizes = r.sizes) :
    Planning cfg r' := by
  refine ⟨?_, fun db snap => ?_, ?_⟩
  · rw [hsizes, todo, htables, htable, hrelations, hsized]
    exact h.covered
  · rw [hshards, plannedRows, hsizes]
    exact h.rows db snap
  · rw [hshards]
    exact h.bounds

theorem Planning.plan (h : Planning cfg r) : Planning cfg (r.plan cfg) := by
  unfold Run.plan
  split
  · next qualified pages hsized =>
    refine ⟨?_, fun db snap => ?_, fun sh hsh => ?_⟩
    · rw [← h.covered, Run.todo, Run.todo, hsized]
      simp
    · have hk := shardCount_pos pages cfg.parallelism cfg.shardPages
      rw [map_append, sum_append, h.rows, relationShards_rows _ _ _ _ _ _ _ hk]
      simp [Run.plannedRows]
    · rcases mem_append.1 hsh with hsh | hsh
      · exact h.bounds sh hsh
      · exact relationShards_bounds (windowBlocks_pos ..) hsh
  · next hsized =>
    split
    · next qualified relations hrelations =>
      refine ⟨?_, h.rows, h.bounds⟩
      rw [← h.covered, Run.todo, Run.todo, hsized, hrelations]
      simp
    · next hrelations =>
      split
      · exact h
      · next table tables htables =>
        split_ifs with hnone
        · refine ⟨?_, fun db snap => ?_, fun sh hsh => ?_⟩
          · rw [← h.covered, Run.todo, Run.todo, hsized, hrelations, htables]
            simp [hnone]
          · rw [map_append, sum_append, h.rows, map_singleton, sum_singleton,
              Shard.rows, rangeRows_self, add_zero]
            rfl
          · rcases mem_concat.1 hsh with hsh | rfl
            · exact h.bounds sh hsh
            · exact ⟨le_rfl, Nat.one_pos⟩
        · refine ⟨?_, h.rows, h.bounds⟩
          rw [← h.covered, Run.todo, Run.todo, hsized, hrelations, htables]
          simp

theorem Planning.complete (h : Planning cfg r) (hdone : r.planned) :
    (r.sizes.map fun x => (x.1, x.2.1)) = cfg.pairs := by
  simp only [planned, Bool.and_eq_true, Option.isNone_iff_eq_none, List.isEmpty_iff] at hdone
  obtain ⟨⟨hsized, hrelations⟩, htables⟩ := hdone
  have hcovered := h.covered
  rw [todo, hsized, hrelations, htables] at hcovered
  simpa using hcovered

/-! ### The readers -/

/-- The rows that a reader has read. -/
def Reader.got (db : Database ρ) (snap : ℕ) (rd : Reader) : Multiset (String × ρ) :=
  rangeRows db snap rd.shard.table rd.shard.qualified rd.shard.loBlock
    (min rd.next rd.shard.hiBlock)

/-- What is emitted so far: the rows of the snapshot in the blocks before each reader. -/
structure Reading (r : Run ρ) (snap : ℕ) : Prop where
  taken : r.snap = some snap
  commits : snap ≤ r.db.commits
  shards : r.readers.map Reader.shard = r.shards
  next : ∀ rd ∈ r.readers, rd.shard.loBlock ≤ rd.next ∧ (rd.done = true → rd.shard.hiBlock ≤ rd.next)
  emitted : (r.emitted : Multiset (String × ρ)) = (r.readers.map (Reader.got r.db snap)).sum

variable {snap slot : ℕ} {db : Database ρ}

theorem got_apply (hsnap : snap ≤ db.commits) (c : Change ρ) :
    got (db.apply c) snap = got db snap := by
  funext rd
  unfold got rangeRows
  rw [Database.apply_rowsIn hsnap]

theorem Reading.change (h : Reading r snap) (c : Change ρ) :
    Reading { r with db := r.db.apply c } snap := by
  refine ⟨h.taken, h.commits.trans (Database.apply_commits_le _ c), h.shards, h.next, ?_⟩
  rw [got_apply h.commits]
  exact h.emitted

/-- A turn of an unlimited reader reads one window more, or finds the shard read. -/
theorem turn_ok (hlimit : cfg.limit = 0) (db : Database ρ) (snap : ℕ) {rd : Reader}
    (hnext : rd.shard.loBlock ≤ rd.next) :
    (rd.turn cfg db snap).1.shard = rd.shard ∧
      rd.shard.loBlock ≤ (rd.turn cfg db snap).1.next ∧
      ((rd.turn cfg db snap).1.done = true → rd.shard.hiBlock ≤ (rd.turn cfg db snap).1.next) ∧
      (rd.turn cfg db snap).1.got db snap = rd.got db snap +
        ((rd.turn cfg db snap).2.map fun row => (rd.shard.table, row) :) := by
  unfold turn
  split_ifs with hlt
  · refine ⟨rfl, hnext.trans (Nat.le_add_right ..), fun hdone => ?_, ?_⟩
    · simp [hlimit] at hdone
    · simp only [got, hlimit, remaining, page, le_refl, if_true, lt_irrefl, if_false]
      rw [Nat.min_eq_left hlt.le]
      exact (rangeRows_add hnext (le_min (Nat.le_add_right ..) hlt.le)).symm
  · refine ⟨rfl, hnext, fun _ => Nat.le_of_not_lt hlt, ?_⟩
    simp [got]

theorem Reading.read (hlimit : cfg.limit = 0) (h : Reading r snap) (i : ℕ) :
    Reading (r.read cfg i) snap := by
  unfold Run.read
  rw [h.taken]
  cases hrd : r.readers[i]? with
  | none => exact h
  | some rd =>
    dsimp only
    split_ifs
    · exact h
    have hmem := mem_of_getElem? hrd
    obtain ⟨hshard, hlo, hdone, hgot⟩ := turn_ok hlimit r.db snap (h.next rd hmem).1
    refine ⟨rfl, h.commits, ?_, forall_mem_set h.next ?_, ?_⟩
    · rw [← h.shards]
      exact map_set_of_eq hrd hshard
    · rw [hshard]
      exact ⟨hlo, hdone⟩
    · have hsum := sum_map_set (f := got r.db snap) (b := (rd.turn cfg r.db snap).1) hrd
      rw [hgot, ← h.emitted, add_comm (got r.db snap rd), ← add_assoc] at hsum
      rw [add_right_cancel hsum]
      exact (Multiset.coe_add ..).symm

/-! ### Whole reads -/

/-- The invariant of a read. -/
structure Inv (cfg : Config) (r : Run ρ) : Prop where
  planning : Planning cfg r
  before : r.reading = false → r.emitted = [] ∧ ∀ snap, r.snap = some snap → snap ≤ r.db.commits
  reading : r.reading = true → r.planned = true ∧ ∃ snap, Reading r snap

theorem Run.plan_db (cfg : Config) (r : Run ρ) :
    (r.plan cfg).db = r.db ∧ (r.plan cfg).snap = r.snap ∧ (r.plan cfg).reading = r.reading ∧
      (r.plan cfg).emitted = r.emitted := by
  unfold plan
  split
  · exact ⟨rfl, rfl, rfl, rfl⟩
  split
  · exact ⟨rfl, rfl, rfl, rfl⟩
  · split
    · exact ⟨rfl, rfl, rfl, rfl⟩
    · split_ifs <;> exact ⟨rfl, rfl, rfl, rfl⟩

theorem Run.read_plan (cfg : Config) (r : Run ρ) (i : ℕ) :
    ∃ readers emitted, r.read cfg i = { r with readers, emitted } := by
  unfold read
  split
  · split_ifs
    · exact ⟨r.readers, r.emitted, rfl⟩
    · exact ⟨_, _, rfl⟩
  · exact ⟨r.readers, r.emitted, rfl⟩

theorem Inv.start (cfg : Config) {snap : Option ℕ}
    (hsnap : ∀ t, snap = some t → t ≤ db.commits) : Inv cfg (start cfg db snap) :=
  ⟨.start cfg db snap, fun _ => ⟨rfl, hsnap⟩, nofun⟩

theorem Reading.openSnapshot (h : Inv cfg r) (hnot : r.reading = false) :
    Reading r.openSnapshot (r.snap.getD r.db.commits) := by
  obtain ⟨hemitted, hsnap⟩ := h.before hnot
  refine ⟨rfl, ?_, ?_, fun rd hrd => ?_, ?_⟩
  · cases hs : r.snap with
    | none => exact le_rfl
    | some t => exact hsnap t hs
  · simp [Run.openSnapshot, Function.comp_def]
  · obtain ⟨sh, hsh, rfl⟩ := mem_map.1 hrd
    exact ⟨le_rfl, nofun⟩
  · rw [Run.openSnapshot, hemitted, map_map]
    symm
    refine sum_eq_zero fun x hx => ?_
    obtain ⟨sh, hsh, rfl⟩ := mem_map.1 hx
    change rangeRows r.db _ sh.table sh.qualified sh.loBlock (min sh.loBlock sh.hiBlock) = 0
    rw [Nat.min_eq_left (h.planning.bounds sh hsh).1, rangeRows_self]

/-- **Every step keeps the invariant.** -/
theorem inv_step (hlimit : cfg.limit = 0) (h : Inv cfg r) (e : Event ρ) :
    Inv cfg (extractStep cfg r e) := by
  cases e with
  | change c =>
    refine ⟨h.planning.congr rfl rfl rfl rfl rfl rfl, fun hnot => ?_, fun hreading => ?_⟩
    · obtain ⟨hemitted, hsnap⟩ := h.before hnot
      exact ⟨hemitted, fun t ht => (hsnap t ht).trans (Database.apply_commits_le _ c)⟩
    · obtain ⟨hplanned, snap, hr⟩ := h.reading hreading
      exact ⟨hplanned, snap, hr.change c⟩
  | plan =>
    rw [extractStep]
    split_ifs with hreading
    · exact h
    have hnot : r.reading = false := Bool.eq_false_of_not_eq_true hreading
    obtain ⟨hdb, hsnap, hsame, hemitted⟩ := r.plan_db cfg
    refine ⟨h.planning.plan, fun _ => ?_, fun htrue => ?_⟩
    · rw [hdb, hsnap, hemitted]
      exact h.before hnot
    · rw [hsame, hnot] at htrue
      cases htrue
  | openSnapshot =>
    rw [extractStep]
    split_ifs with hskip
    · exact h
    simp only [Bool.or_eq_true, not_or, Bool.not_eq_true, Bool.not_eq_false'] at hskip
    refine ⟨h.planning.congr rfl rfl rfl rfl rfl rfl, fun hfalse => ?_, fun _ => ?_⟩
    · cases hfalse
    · exact ⟨hskip.2, _, .openSnapshot h hskip.1⟩
  | read i =>
    rw [extractStep]
    split_ifs with hreading
    · obtain ⟨hplanned, snap, hr⟩ := h.reading hreading
      have hread := hr.read hlimit i
      obtain ⟨readers, emitted, heq⟩ := r.read_plan cfg i
      rw [heq] at hread ⊢
      refine ⟨h.planning.congr rfl rfl rfl rfl rfl rfl, fun hfalse => ?_, fun _ => ?_⟩
      · rw [hreading] at hfalse
        cases hfalse
      · exact ⟨hplanned, snap, hread⟩
    · exact h

/-- **A read that finished emitted the rows its snapshot sees below the planned sizes**, each
once. -/
theorem extract_emits (cfg : Config) (hlimit : cfg.limit = 0) {snap : Option ℕ}
    (hsnap : ∀ t, snap = some t → t ≤ db.commits) {es : List (Event ρ)}
    (hr : r = Trace.run (extractStep cfg) (start cfg db snap) es) (hdone : r.finished = true) :
    ∃ t, r.snap = some t ∧ (r.sizes.map fun x => (x.1, x.2.1)) = cfg.pairs ∧
      (r.emitted : Multiset (String × ρ)) = r.plannedRows r.db t := by
  have h : Inv cfg r := by
    rw [hr]
    exact Trace.inv_run (fun (s : Run ρ) e (h : Inv cfg s) => inv_step hlimit h e)
      (.start cfg hsnap) es
  rw [finished, Bool.and_eq_true, all_eq_true] at hdone
  obtain ⟨hplanned, t, hreading⟩ := h.reading hdone.1
  refine ⟨t, hreading.taken, h.planning.complete hplanned, ?_⟩
  rw [hreading.emitted, ← h.planning.rows, ← hreading.shards, map_map]
  congr 1
  refine map_congr_left fun rd hrd => ?_
  have hend := (hreading.next rd hrd).2 (hdone.2 rd hrd)
  rw [got, Nat.min_eq_right hend]
  rfl

/-! ### Exactness -/

/-- The rows of a relation that a snapshot sees, under a table. -/
def relationRows (db : Database ρ) (snap : ℕ) (table qualified : String) :
    Multiset (String × ρ) :=
  ((db.heap qualified).seen snap : Multiset (ρ × ℕ)).map fun p => (table, p.1)

theorem tableRows_eq (cfg : Config) (db : Database ρ) (snap : ℕ) :
    (tableRows cfg db snap : Multiset (String × ρ)) =
      (cfg.pairs.map fun p => relationRows db snap p.1 p.2).sum := by
  have hflat : ∀ (table : String) (qs : List String),
      ((qs.flatMap fun q => ((db.heap q).rows snap).map fun row => (table, row) :
        List (String × ρ)) : Multiset (String × ρ)) =
        ((qs.map fun q => (table, q)).map fun p => relationRows db snap p.1 p.2).sum := by
    intro table qs
    induction qs with
    | nil => rfl
    | cons q qs ih =>
      rw [flatMap_cons, ← Multiset.coe_add, ih, map_cons, map_cons, sum_cons, Heap.rows_eq, map_map]
      rfl
  unfold tableRows Config.pairs
  induction cfg.resources with
  | nil => rfl
  | cons table tables ih =>
    rw [flatMap_cons, ← Multiset.coe_add, ih, hflat, flatMap_cons, map_append, sum_append]

/-- The rows below a size are among the rows, and are all of them when none is past it. -/
theorem rangeRows_le (db : Database ρ) (snap : ℕ) (table qualified : String) (pages : ℕ) :
    rangeRows db snap table qualified 0 pages ≤ relationRows db snap table qualified := by
  rw [rangeRows_eq]
  exact Multiset.map_le_map (Multiset.filter_le ..)

theorem rangeRows_eq_iff {table qualified : String} :
    rangeRows db snap table qualified 0 pages = relationRows db snap table qualified ↔
      ∀ v ∈ (db.heap qualified).versions, v.visible snap = true → v.block < pages := by
  have hcard : rangeRows db snap table qualified 0 pages = relationRows db snap table qualified ↔
      ∀ p ∈ (db.heap qualified).seen snap, p.2 < pages := by
    constructor
    · intro h p hp
      rw [rangeRows_eq, relationRows] at h
      have hsame := congrArg Multiset.card h
      rw [Multiset.card_map, Multiset.card_map] at hsame
      have hall := Multiset.eq_of_le_of_card_le (Multiset.filter_le ..) hsame.ge
      exact (Multiset.filter_eq_self.1 hall p (Multiset.mem_coe.2 hp)).2
    · intro h
      rw [rangeRows_eq, relationRows, Multiset.filter_eq_self.2]
      exact fun p hp => ⟨Nat.zero_le _, h p (Multiset.mem_coe.1 hp)⟩
  rw [hcard]
  constructor
  · intro h v hv hvisible
    exact h v.image (mem_map_of_mem (mem_filter.2 ⟨hv, hvisible⟩))
  · intro h p hp
    obtain ⟨v, hv, rfl⟩ := mem_map.1 hp
    obtain ⟨hmem, hvisible⟩ := mem_filter.1 hv
    exact h v hmem hvisible

theorem sum_eq_sum_iff_of_le {α β : Type} {f g : α → Multiset β} (hle : ∀ a, f a ≤ g a)
    (l : List α) :
    (l.map f).sum = (l.map g).sum ↔ ∀ a ∈ l, f a = g a := by
  induction l with
  | nil => simp
  | cons a l ih =>
    have hsum : (l.map f).sum ≤ (l.map g).sum := sum_le_sum fun b _ => hle b
    rw [map_cons, map_cons, sum_cons, sum_cons,
      add_eq_add_iff_eq_and_eq (hle a) hsum, ih, forall_mem_cons]

/-- No row that the snapshot sees is at or past the planned size of its relation. -/
def Run.Below (r : Run ρ) (snap : ℕ) : Prop :=
  ∀ x ∈ r.sizes, ∀ v ∈ (r.db.heap x.2.1).versions, v.visible snap = true → v.block < x.2.2

theorem plannedRows_eq_iff (cfg : Config) (snap : ℕ)
    (hsizes : (r.sizes.map fun x => (x.1, x.2.1)) = cfg.pairs) :
    r.plannedRows r.db snap = tableRows cfg r.db snap ↔ r.Below snap := by
  rw [tableRows_eq, ← hsizes, map_map]
  refine (sum_eq_sum_iff_of_le (fun x => rangeRows_le ..) _).trans ?_
  exact forall₂_congr fun x _ => rangeRows_eq_iff

/-- **A full read emits its snapshot exactly when no row of the snapshot is at or past the size its
relation had when it was planned.** -/
theorem extract_exact_iff (cfg : Config) (hlimit : cfg.limit = 0) (db : Database ρ)
    (es : List (Event ρ)) (hdone : (extract cfg db es).finished = true) :
    ∃ snap, (extract cfg db es).snap = some snap ∧
      ((extract cfg db es).sizes.map fun x => (x.1, x.2.1)) = cfg.pairs ∧
      (((extract cfg db es).emitted : Multiset (String × ρ)) =
          tableRows cfg (extract cfg db es).db snap ↔ (extract cfg db es).Below snap) := by
  obtain ⟨t, ht, hsizes, hemitted⟩ := extract_emits cfg hlimit (fun t h => by cases h) rfl hdone
  exact ⟨t, ht, hsizes, (Eq.congr_left hemitted).trans (plannedRows_eq_iff cfg t hsizes)⟩

section

/-- One table of one row, in one block. -/
private def quietHeap : Heap ℕ where
  versions := [⟨1, 0, 1, 3, 1, none⟩]
  pages := 1
  relfrozenxid := 3
  filenode := 1
  inside := by simp

private def quietDatabase : Database ℕ := ⟨fun _ => quietHeap, 1, [], 4⟩

private def quietConfig : Config :=
  ⟨["notes"], fun t => t, fun _ => ["public.notes"], 1, 0, 100, 0⟩

private def quietRead : List (Event ℕ) :=
  [.plan, .plan, .plan, .openSnapshot, .read 0, .read 0]

/-- The row is updated, into a new block, between the plan and the snapshot. -/
private def movedRead : List (Event ℕ) :=
  [.plan, .plan, .plan, .change .begin, .change (.commit 4 [.update "public.notes" 0 2 1 1]),
    .openSnapshot, .read 0, .read 0]

theorem quiet_read_exact :
    (extract quietConfig quietDatabase quietRead).finished = true ∧
      ∃ snap, (extract quietConfig quietDatabase quietRead).snap = some snap ∧
        ((extract quietConfig quietDatabase quietRead).emitted : Multiset (String × ℕ)) =
          tableRows quietConfig (extract quietConfig quietDatabase quietRead).db snap := by
  have hdone : (extract quietConfig quietDatabase quietRead).finished = true := by decide +kernel
  obtain ⟨snap, hsnap, -, hiff⟩ := extract_exact_iff quietConfig rfl quietDatabase quietRead hdone
  refine ⟨hdone, snap, hsnap, hiff.2 ?_⟩
  have hone : (extract quietConfig quietDatabase quietRead).Below 1 := by
    unfold Run.Below
    decide +kernel
  have htaken : (extract quietConfig quietDatabase quietRead).snap = some 1 := by decide +kernel
  rwa [← Option.mem_unique htaken hsnap]

/-- The read finishes without the row, which its snapshot sees. -/
theorem moved_row_missed :
    (extract quietConfig quietDatabase movedRead).finished = true ∧
      (extract quietConfig quietDatabase movedRead).snap = some 2 ∧
      (extract quietConfig quietDatabase movedRead).emitted = [] ∧
      tableRows quietConfig (extract quietConfig quietDatabase movedRead).db 2 = [("notes", 2)] := by
  decide +kernel

end

/-! ### Snapshots from before the plan -/

/-- Every size that is planned holds what an earlier snapshot sees. -/
structure Covers (snap : ℕ) (r : Run ρ) : Prop where
  taken : r.snap = some snap
  commits : snap ≤ r.db.commits
  sized : ∀ x ∈ r.sized, ∀ p ∈ (r.db.heap x.1).seen snap, p.2 < x.2
  sizes : ∀ x ∈ r.sizes, ∀ p ∈ (r.db.heap x.2.1).seen snap, p.2 < x.2.2

theorem lt_pages_of_seen {h : Heap ρ} {p : ρ × ℕ} (hp : p ∈ h.seen snap) :
    p.2 < h.pages := by
  obtain ⟨v, hv, rfl⟩ := mem_map.1 hp
  exact h.inside v (mem_filter.1 hv).1

theorem Covers.plan (h : Covers snap r) : Covers snap (r.plan cfg) := by
  unfold Run.plan
  split
  · next qualified pages hsized =>
    refine ⟨h.taken, h.commits, nofun, fun x hx => ?_⟩
    rcases mem_concat.1 hx with hx | rfl
    · exact h.sizes x hx
    · exact h.sized (qualified, pages) hsized
  · split
    · refine { h with sized := fun x hx => ?_ }
      cases hx
      exact fun p hp => lt_pages_of_seen hp
    · split
      · exact h
      · split_ifs <;> exact { h with }

theorem covers_step (h : Covers snap r) (e : Event ρ) :
    Covers snap (extractStep cfg r e) := by
  cases e with
  | change c =>
    refine ⟨h.taken, h.commits.trans (Database.apply_commits_le _ c), fun x hx p hp => ?_,
      fun x hx p hp => ?_⟩
    · exact h.sized x hx p (Database.apply_seen h.commits c x.1 ▸ hp)
    · exact h.sizes x hx p (Database.apply_seen h.commits c x.2.1 ▸ hp)
  | plan =>
    exact Trace.guarded h.plan fun _ => h
  | openSnapshot =>
    rw [extractStep]
    split_ifs
    · exact h
    · exact { h with taken := by rw [openSnapshot, h.taken]; rfl }
  | read i =>
    rw [extractStep]
    split_ifs
    · obtain ⟨readers, emitted, heq⟩ := r.read_plan cfg i
      rw [heq]
      exact { h with }
    · exact h

/-- **The initial snapshot of a change stream, read in the snapshot its slot was created with, is
exact**: whatever the sizes are when it is planned, they hold what that snapshot sees. -/
theorem bootstrap_exact (cfg : Config) (db : Database ρ) (hslot : slot ≤ db.commits)
    (es : List (Event ρ)) (hdone : (bootstrap cfg db (some slot) es).finished = true) :
    ((bootstrap cfg db (some slot) es).emitted : Multiset (String × ρ)) =
      tableRows cfg (bootstrap cfg db (some slot) es).db slot := by
  obtain ⟨t, ht, hsizes, hemitted⟩ :=
    extract_emits cfg.serial rfl (fun t ht => Option.some.inj ht ▸ hslot) rfl hdone
  have hcovers : Covers slot (bootstrap cfg db (some slot) es) :=
    Trace.inv_run (fun (r : Run ρ) e (h : Covers slot r) => covers_step h e)
      ⟨rfl, hslot, by simp [start], by simp [start]⟩ es
  obtain rfl : slot = t := Option.mem_unique hcovers.taken ht
  refine hemitted.trans ((plannedRows_eq_iff cfg.serial slot hsizes).2 fun x hx v hv hvisible => ?_)
  exact hcovers.sizes x hx v.image (mem_map_of_mem (mem_filter.2 ⟨hv, hvisible⟩))

/-- The snapshot of the slot has the row that is missed above. -/
theorem moved_row_bootstrapped :
    let r := bootstrap quietConfig quietDatabase (some 1) movedRead
    (r.emitted : Multiset (String × ℕ)) = tableRows quietConfig r.db 1 :=
  bootstrap_exact quietConfig quietDatabase (by decide) movedRead (by decide +kernel)

end Filament.Postgres.Snapshot
