import Mathlib.Algebra.Order.Ring.Nat
import Filament.Postgres.CtidResume

/-!
# What a resumable read by block ranges delivers

A row that is still to be delivered has its current version in a range that is still to be read, by a
job to come or by a later attempt, or in a range that a job to come reads again for what was written
since the run started.  That is so because a version whose transaction had ended when the run was
stamped, and which is current now, was current all along.

* `Clear` : others write, while jobs run, only to blocks that are still to be read;
* `Waiting` : where the current versions of a row that is still to be delivered are;
* `stable_delivered` : **in a run whose steps are clear, a read that completes has delivered every
  row that is there**;
* `moved_row_lost` : a row that moves, while the jobs run, from a range that is still to be read to
  one that was read is delivered by none.
-/

namespace Filament.Postgres.CtidResume

open Mvcc Snapshot List Option

variable {ρ κ : Type}

/-! ### Reading a range -/

variable {b limit window block commits hi : ℕ} {v : Version ρ} {j : Job}

/-- A range holds a block. -/
def BlockRange.Holds (sh : BlockRange) (b : ℕ) : Prop := sh.lo ≤ b ∧ b < sh.hi

/-- A job reads a version, when the version is current. -/
def Job.Covers (j : Job) (v : Version ρ) : Prop :=
  j.lo ≤ v.block ∧ v.block < j.hi ∧ j.accepts v = true

/-- A read of a range that no limit cut short has the rows of every window. -/
theorem mem_readBlocks {query : ℕ → ℕ → List ρ} (hwindow : 0 < window) {row : ρ}
    (hblock : block < hi) (hrow : ∀ lo' hi', lo' ≤ block → block < hi' → row ∈ query lo' hi')
    {fuel emitted : ℕ} (hb : b ≤ block) (hfuel : hi - b ≤ fuel) (hwhole : ¬(0 < limit ∧
      limit ≤ emitted + (readBlocks query hi window limit fuel b emitted).length)) :
    row ∈ readBlocks query hi window limit fuel b emitted := by
  induction fuel generalizing b emitted with
  | zero => omega
  | succ fuel ih =>
    have hlt : b < hi := lt_of_le_of_lt hb hblock
    rw [readBlocks, if_pos hlt] at hwhole ⊢
    by_cases hstop : 0 < limit ∧ limit ≤ emitted +
        (page (remaining limit emitted) (query b (min (b + window) hi))).length
    · rw [if_pos hstop] at hwhole
      exact absurd hstop hwhole
    rw [if_neg hstop] at hwhole ⊢
    have hpage : page (remaining limit emitted) (query b (min (b + window) hi)) =
        query b (min (b + window) hi) :=
      page_remaining_eq hstop
    by_cases hin : block < b + window
    · refine mem_append_left _ ?_
      rw [hpage]
      exact hrow _ _ hb (lt_min hin hblock)
    · refine mem_append_right _ (ih (Nat.le_of_not_lt hin) (by omega) fun hlim => hwhole ?_)
      rw [length_append]
      omega

/-- **A job that runs to its end emits the versions it covers.** -/
theorem Job.mem_rows (hwindow : 0 < j.window) {h : Heap ρ} (hv : v ∈ h.versions)
    (hvisible : v.visible commits = true) (hcovers : j.Covers v)
    (hwhole : j.part = none ∨ ¬(0 < limit ∧ limit ≤ (j.rows h commits limit).length)) :
    v.row ∈ j.rows h commits limit := by
  obtain ⟨hlo, hhi, haccepts⟩ := hcovers
  unfold rows at hwhole ⊢
  refine mem_readBlocks hwindow hhi (fun lo' hi' hlo' hhi' => ?_) hlo le_rfl ?_
  · refine mem_map_of_mem (mem_filter.2 ⟨hv, ?_⟩)
    rw [hvisible, Version.inWindow_eq, decide_eq_true ⟨hlo', hhi'⟩, haccepts]
    rfl
  · rcases hwhole with hnone | hwhole
    · rw [hnone]
      exact fun hlim => absurd hlim.1 (lt_irrefl 0)
    rw [Nat.zero_add]
    intro hlim
    cases hpart : j.part with
    | none =>
      rw [hpart] at hlim
      exact absurd hlim.1 (lt_irrefl 0)
    | some i =>
      rw [hpart] at hlim hwhole
      exact hwhole hlim

/-! ### The ranges of a plan -/

variable {pages k : ℕ} {sh : BlockRange}

theorem blockRangeShards_holds (hb : b < pages) : ∃ sh ∈ blockRangeShards pages k, sh.Holds b := by
  obtain ⟨n, hn, hshards⟩ : ∃ n, 0 < n ∧
      blockRangeShards pages k = (range n).map (blockRange pages n) := by
    unfold blockRangeShards
    split_ifs with hk
    · exact ⟨1, Nat.one_pos, rfl⟩
    · exact ⟨k, by omega, rfl⟩
  rw [hshards]
  -- the last range that starts at or before the block
  have hstep : ∀ m ≤ n, (∃ i < m, i * pages / n ≤ b ∧ b < (i + 1) * pages / n) ∨
      m * pages / n ≤ b := by
    intro m hm
    induction m with
    | zero => exact .inr (by simp)
    | succ m ih =>
      rcases ih (by omega) with ⟨i, hi, hrange⟩ | hle
      · exact .inl ⟨i, by omega, hrange⟩
      · by_cases hlt : b < (m + 1) * pages / n
        · exact .inl ⟨m, Nat.lt_succ_self m, hle, hlt⟩
        · exact .inr (Nat.le_of_not_lt hlt)
  rcases hstep n le_rfl with ⟨i, hi, hlo, hhi⟩ | hle
  · refine ⟨blockRange pages n i, mem_map_of_mem (mem_range.2 hi), hlo, ?_⟩
    unfold blockRange
    split_ifs
    · exact hb
    · exact hhi
  · rw [Nat.mul_div_cancel_left _ hn] at hle
    omega

theorem blockRangeShards_fresh (h : sh ∈ blockRangeShards pages k) : sh.done = false := by
  obtain ⟨i, -, rfl⟩ := mem_map.1 h
  rfl

theorem blockRangeShards_ne_nil (pages k : ℕ) : blockRangeShards pages k ≠ [] := by
  unfold blockRangeShards
  split_ifs with hk
  · simp
  · simp
    omega

/-! ### The invariant -/

/-- A version that is current in the table. -/
def State.Current (cfg : Config) (s : State ρ) (v : Version ρ) : Prop :=
  v ∈ (s.heap cfg).versions ∧ v.visible s.db.commits = true

/-- Some version of a row was emitted. -/
def State.Delivered (key : ρ → κ) (k : κ) (s : State ρ) : Prop := ∃ row ∈ s.emitted, key row = k

/-- A range that a later attempt has to read: it is not done and this attempt has not drained it. -/
def Left (p : Plan) (drained : List ℕ) (b : ℕ) : Prop :=
  ∃ i sh, p.shards[i]? = some sh ∧ sh.Holds b ∧ sh.done = false ∧ i ∉ drained

/-- The jobs of an attempt belong to its plan: the filter is the plan's horizon, and a job that
completes a range reads all of it. -/
structure JobsOf (p : Plan) (drained : List ℕ) (jobs : List Job) : Prop where
  window : ∀ j ∈ jobs, 0 < j.window
  horizon : ∀ j ∈ jobs, ∀ h, j.horizon = some h → h = p.horizon
  part : ∀ j ∈ jobs, ∀ i, j.part = some i → j.horizon = none ∧ i ∉ drained ∧
    p.shards[i]? = some ⟨j.lo, j.hi, false⟩
  distinct : jobs.Pairwise fun j j' => ∀ i, j.part = some i → j'.part ≠ some i

/-- What a phase relies on. -/
def Phase.Sound (plan : Option Plan) (filenode : ℕ) (drained : List ℕ) : Phase → Prop
  | .idle => True
  | .sizing => drained = []
  | .counting _ => drained = []
  | .stamping _ _ => drained = []
  | .windowing => drained = [] ∧ ∃ p, plan = some p ∧ p.filenode = filenode
  | .guarding window => drained = [] ∧ 0 < window ∧ ∃ p, plan = some p ∧ p.filenode = filenode
  | .tailing window _ => drained = [] ∧ 0 < window ∧ ∃ p, plan = some p ∧ p.filenode = filenode
  | .running jobs => ∃ p, plan = some p ∧ p.filenode = filenode ∧ JobsOf p drained jobs

/-- What a plan relies on. -/
structure PlanOf (cfg : Config) (s : State ρ) (p : Plan) : Prop where
  ended : s.db.Ended p.horizon
  stamped : p.filenode ≤ (s.heap cfg).filenode
  holds : ∀ b < p.relpages, ∃ sh ∈ p.shards, sh.Holds b
  nonempty : p.shards ≠ []

/-- The shape of a state, whatever was delivered. -/
structure Base (cfg : Config) (s : State ρ) : Prop where
  past : s.db.Past cfg.relation
  plan : ∀ p, s.plan = some p → PlanOf cfg s p
  phase : s.phase.Sound s.plan (s.heap cfg).filenode s.drained

/-- Where the current versions of a row are that is still to be delivered: in no range that is done
or drained, unless they were written since the run was stamped; and, while jobs run, under a job to
come or in a range for a later attempt. -/
structure Waiting (cfg : Config) (key : ρ → κ) (k : κ) (s : State ρ) : Prop where
  owed : ∀ p, s.plan = some p → p.filenode = (s.heap cfg).filenode → ∀ v, s.Current cfg v →
    key v.row = k → v.xmin < p.horizon → ∀ i sh, p.shards[i]? = some sh → sh.Holds v.block →
    sh.done = false ∧ i ∉ s.drained
  awaits : ∀ jobs p, s.phase = .running jobs → s.plan = some p → ∀ v, s.Current cfg v →
    key v.row = k → (∃ j ∈ jobs, j.Covers v) ∨ Left p s.drained v.block

/-- The invariant of a row. -/
structure Inv (cfg : Config) (key : ρ → κ) (k : κ) (s : State ρ) : Prop where
  base : Base cfg s
  row : s.Delivered key k ∨ Waiting cfg key k s

/-- Where a commit may write while jobs run: to a range that a job to come reads, or that is left for
a later attempt. -/
def Open (s : State ρ) (jobs : List Job) (b : ℕ) : Prop :=
  (∃ j ∈ jobs, j.lo ≤ b ∧ b < j.hi) ∨ ∃ p, s.plan = some p ∧ Left p s.drained b

/-- A step is clear when it writes to no block that the running attempt is past, rewrites the heap
only between attempts, and does not fail to read the size that the tail is read up to. -/
def Clear (cfg : Config) (s : State ρ) : Event ρ → Prop
  | .change (.commit _ writes) =>
    match s.phase with
    | .running jobs => ∀ b ∈ writes.flatMap (Write.blocks cfg.relation), Open s jobs b
    | _ => True
  | .rewrite _ =>
    match s.phase with
    | .idle | .sizing | .counting _ | .stamping _ _ => True
    | _ => False
  | .query ok =>
    match s.phase with
    | .tailing _ _ => ok = true
    | _ => True
  | _ => True

theorem Inv.fresh {cfg : Config} {key : ρ → κ} {k : κ} {db : Database ρ}
    (hpast : db.Past cfg.relation) : Inv cfg key k (fresh db) := by
  exact ⟨⟨hpast, nofun, trivial⟩, .inr ⟨nofun, nofun⟩⟩

section

variable {cfg : Config} {key : ρ → κ} {k : κ} {s : State ρ}

/-! ### What others do -/

theorem Base.change (h : Base cfg s) (c : Change ρ) :
    Base cfg { s with db := s.db.apply c } := by
  have hfilenode := s.db.apply_filenode c cfg.relation
  refine ⟨Database.past_apply h.past c, fun p hp => ?_, ?_⟩
  · obtain ⟨hended, hstamped, hholds, hne⟩ := h.plan p hp
    exact ⟨hended.apply c, hstamped.trans hfilenode.ge, hholds, hne⟩
  · rw [State.heap, hfilenode]
    exact h.phase

theorem Inv.change (h : Inv cfg key k s) {c : Change ρ} (hclear : Clear cfg s (.change c)) :
    Inv cfg key k { s with db := s.db.apply c } := by
  refine ⟨h.base.change c, h.row.imp id fun hw => ⟨?_, ?_⟩⟩
  · intro p hp hfilenode v hv hk hxmin
    rw [State.heap, s.db.apply_filenode] at hfilenode
    rcases Database.current_of_apply h.base.past hv.1 hv.2 with
      ⟨u, hu, hvisible, hrow, hblock, hx⟩ | ⟨xid, -, -, hrunning, hx, -⟩
    · rw [hblock]
      rw [hrow] at hk
      exact hw.owed p hp hfilenode u ⟨hu, hvisible⟩ hk (hx ▸ hxmin)
    · have hle := (h.base.plan p hp).ended.running xid hrunning
      rw [hx] at hxmin
      exact absurd hxmin (Nat.not_lt.2 hle)
  · intro jobs p hphase hp v hv hk
    rcases Database.current_of_apply h.base.past hv.1 hv.2 with
      ⟨u, hu, hvisible, hrow, hblock, hx⟩ | ⟨xid, writes, rfl, hrunning, hx, hblock⟩
    · rw [hrow] at hk
      rcases hw.awaits jobs p hphase hp u ⟨hu, hvisible⟩ hk with ⟨j, hj, hcovers⟩ | hleft
      · refine .inl ⟨j, hj, ?_⟩
        unfold Job.Covers Job.accepts at hcovers ⊢
        rwa [hblock, hx]
      · rw [hblock]
        exact .inr hleft
    · -- a new version: the step says that its block is still to be read
      have hphase' : s.phase = .running jobs := hphase
      simp only [Clear, hphase'] at hclear
      rcases hclear _ hblock with ⟨j, hj, hlo, hhi⟩ | ⟨p', hp', hleft⟩
      · refine .inl ⟨j, hj, hlo, hhi, ?_⟩
        have hsound := h.base.phase
        rw [hphase'] at hsound
        obtain ⟨p', hp', -, hjobs⟩ := hsound
        unfold Job.accepts
        cases hhorizon : j.horizon with
        | none => rfl
        | some n =>
          rw [hjobs.horizon j hj n hhorizon, all_some, hx]
          exact decide_eq_true ((h.base.plan p' hp').ended.running xid hrunning)
      · obtain rfl := mem_unique hp hp'
        exact .inr hleft

theorem Inv.rewrite (h : Inv cfg key k s) {place : ℕ → ℕ × ℕ}
    (hclear : Clear cfg s (.rewrite place)) : Inv cfg key k (step cfg s (.rewrite place)) := by
  have hheap : (step cfg s (.rewrite place)).heap cfg = CtidResume.rewrite (s.heap cfg) place := by
    rw [State.heap, step, Database.heap_setHeap, if_pos rfl]
  refine ⟨⟨?_, fun p hp => ?_, ?_⟩, h.row.imp id fun hw => ⟨?_, ?_⟩⟩
  · intro v hv
    change v ∈ ((step cfg s (.rewrite place)).heap cfg).versions at hv
    rw [hheap] at hv
    obtain ⟨i, hi, rfl⟩ := mem_mapIdx.1 hv
    exact h.base.past ((s.heap cfg).versions[i]) (getElem_mem hi)
  · obtain ⟨hended, hstamped, hholds, hne⟩ := h.base.plan p hp
    refine ⟨⟨hended.running, hended.next⟩, ?_, hholds, hne⟩
    rw [hheap]
    exact hstamped.trans (Nat.le_succ _)
  · have hsound := h.base.phase
    unfold Clear at hclear
    rw [step]
    cases hphase : s.phase <;> simp only [hphase] at hclear hsound ⊢ <;> exact hsound
  · intro p hp hfilenode
    have hle := (h.base.plan p hp).stamped
    rw [hheap] at hfilenode
    exact absurd hfilenode (Nat.ne_of_lt (Nat.lt_succ_of_le hle))
  · intro jobs p hphase
    unfold Clear at hclear
    have hphase' : s.phase = .running jobs := hphase
    rw [hphase'] at hclear
    cases hclear

/-! ### Planning and building the jobs -/

variable {unfiltered ok : Bool} {i horizon cur i' n : ℕ} {p : Plan} {phase : Phase}

theorem shardJob_covers (hholds : sh.Holds v.block) (hnew : sh.done = true → horizon ≤ v.xmin) :
    (shardJob window horizon unfiltered i sh).Covers v := by
  unfold shardJob
  split_ifs with hdone hfilter
  · exact ⟨hholds.1, hholds.2, rfl⟩
  · exact ⟨hholds.1, hholds.2, decide_eq_true (hnew hdone)⟩
  · exact ⟨hholds.1, hholds.2, rfl⟩

theorem mem_ctidJobs {size : Option ℕ} (h : j ∈ ctidJobs p window unfiltered size) :
    (∃ i sh, p.shards[i]? = some sh ∧ j = shardJob window p.horizon unfiltered i sh) ∨
      j.part = none ∧ j.window = window ∧ j.horizon = none := by
  have hshard : ∀ {j}, j ∈ p.shards.mapIdx (shardJob window p.horizon unfiltered) →
      ∃ i sh, p.shards[i]? = some sh ∧ j = shardJob window p.horizon unfiltered i sh := by
    intro j hj
    obtain ⟨i, hi, rfl⟩ := mem_mapIdx.1 hj
    exact ⟨i, _, getElem?_eq_getElem hi, rfl⟩
  unfold ctidJobs at h
  split at h
  · exact .inl (hshard h)
  split_ifs at h
  · rcases mem_concat.1 h with h | rfl
    · exact .inl (hshard h)
    · exact .inr ⟨rfl, rfl, rfl⟩
  · exact .inl (hshard h)

theorem shardJob_part (h : (shardJob window horizon unfiltered i sh).part = some i') :
    i = i' ∧ sh.done = false ∧ (shardJob window horizon unfiltered i sh).horizon = none := by
  unfold shardJob at h ⊢
  split_ifs at h ⊢ with hdone
  · exact ⟨some.inj h, Bool.eq_false_of_not_eq_true hdone, rfl⟩

theorem jobsOf_ctidJobs (p : Plan) (hwindow : 0 < window) (unfiltered : Bool) (size : Option ℕ) :
    JobsOf p [] (ctidJobs p window unfiltered size) := by
  refine ⟨fun j hj => ?_, fun j hj h hh => ?_, fun j hj i hi => ?_, ?_⟩
  · rcases mem_ctidJobs hj with ⟨i, sh, -, rfl⟩ | ⟨-, hw, -⟩
    · unfold shardJob
      split_ifs <;> exact hwindow
    · rw [hw]
      exact hwindow
  · rcases mem_ctidJobs hj with ⟨i, sh, -, rfl⟩ | ⟨-, -, hnone⟩
    · unfold shardJob at hh
      split_ifs at hh
      · exact (some.inj hh).symm
    · rw [hnone] at hh
      cases hh
  · rcases mem_ctidJobs hj with ⟨i', sh, hsh, rfl⟩ | ⟨hnone, -, -⟩
    · obtain ⟨rfl, hdone, hhorizon⟩ := shardJob_part hi
      refine ⟨hhorizon, not_mem_nil, ?_⟩
      rw [hsh]
      unfold shardJob
      rw [if_neg (by simp [hdone]), ← hdone]
    · rw [hnone] at hi
      cases hi
  · have hshards : (p.shards.mapIdx (shardJob window p.horizon unfiltered)).Pairwise
        fun j j' => ∀ i, j.part = some i → j'.part ≠ some i := by
      refine pairwise_iff_getElem.2 fun a b ha hb hab i hi hi' => ?_
      rw [getElem_mapIdx] at hi hi'
      exact absurd ((shardJob_part hi).1.trans (shardJob_part hi').1.symm) (Nat.ne_of_lt hab)
    unfold ctidJobs
    split
    · exact hshards
    split_ifs
    · refine pairwise_append.2 ⟨hshards, pairwise_singleton .., ?_⟩
      intro j _ j' hj' i _
      rw [mem_singleton.1 hj']
      nofun
    · exact hshards

/-- **When the jobs are built, each of the current versions that are owed is under one of them.** -/
theorem ctidJobs_covers (hholds : ∀ b < p.relpages, ∃ sh ∈ p.shards, sh.Holds b)
    (hne : p.shards ≠ []) (hcur : v.block < cur)
    (howed : v.xmin < p.horizon → ∀ (i : ℕ) (sh : BlockRange), p.shards[i]? = some sh →
      sh.Holds v.block → sh.done = false) :
    ∃ j ∈ ctidJobs p window unfiltered (some cur), j.Covers v := by
  have hsub : ∀ {j}, j ∈ p.shards.mapIdx (shardJob window p.horizon unfiltered) →
      j ∈ ctidJobs p window unfiltered (some cur) := by
    intro j hj
    unfold ctidJobs
    dsimp only
    split_ifs
    · exact mem_append_left _ hj
    · exact hj
  by_cases hin : v.block < p.relpages
  · obtain ⟨sh, hsh, hblock⟩ := hholds v.block hin
    obtain ⟨i, hi⟩ := mem_iff_getElem?.mp hsh
    refine ⟨shardJob window p.horizon unfiltered i sh, hsub ?_, shardJob_covers hblock ?_⟩
    · obtain ⟨hlt, rfl⟩ := List.getElem?_eq_some_iff.1 hi
      exact mem_mapIdx.2 ⟨i, hlt, rfl⟩
    · intro hdone
      by_contra hlt
      have := howed (Nat.lt_of_not_le hlt) i sh hi hblock
      rw [hdone] at this
      cases this
  · refine ⟨⟨none, p.relpages, cur, window, none⟩, ?_, Nat.le_of_not_lt hin, hcur, rfl⟩
    unfold ctidJobs
    dsimp only
    rw [if_pos ⟨hne, lt_of_le_of_lt (Nat.le_of_not_lt hin) hcur⟩]
    exact mem_concat_self

section

variable (h : Inv cfg key k s)
include h

theorem Inv.moves (hphase : phase.Sound s.plan (s.heap cfg).filenode s.drained)
    (hjobs : ∀ jobs, phase ≠ .running jobs) : Inv cfg key k { s with phase, limit } := by
  refine ⟨⟨h.base.past, fun p hp => { h.base.plan p hp with }, hphase⟩,
    h.row.imp id fun hw => ⟨hw.owed, ?_⟩⟩
  exact fun jobs p hrunning => absurd hrunning (hjobs jobs)

theorem Inv.start (limit : ℕ) : Inv cfg key k (s.start cfg limit) := by
  unfold State.start
  split
  · dsimp only
    have hcleared : Inv cfg key k { s with phase := .idle, drained := [] } := by
      refine ⟨⟨h.base.past, fun p hp => { h.base.plan p hp with }, trivial⟩,
        h.row.imp id fun hw => ⟨?_, nofun⟩⟩
      intro p hp hfilenode v hv hk hxmin i sh hsh hholds
      exact ⟨(hw.owed p hp hfilenode v hv hk hxmin i sh hsh hholds).1, not_mem_nil⟩
    split_ifs with hreuse
    · refine hcleared.moves ⟨rfl, ?_⟩ fun jobs => nofun
      obtain ⟨p, hp, hsame⟩ := (any_eq_true _ _).1 hreuse
      exact ⟨p, hp, (of_decide_eq_true hsame).2.symm⟩
    · exact hcleared.moves rfl fun jobs => nofun
  · exact h

/-- A fresh plan owes every version. -/
theorem Inv.stamps (hdrained : s.drained = []) :
    Inv cfg key k { s with
      plan := some ⟨blockRangeShards pages n, (s.heap cfg).filenode, s.db.snapshotXmin, pages⟩
      phase := .windowing } := by
  refine ⟨⟨h.base.past, fun p hp => ?_, hdrained, _, rfl, rfl⟩, h.row.imp id fun _ => ⟨?_, nofun⟩⟩
  · cases hp
    exact ⟨s.db.ended_snapshotXmin, le_rfl, fun b hb => blockRangeShards_holds hb,
      blockRangeShards_ne_nil pages n⟩
  · intro p hp _ v _ _ _ i sh hsh _
    cases hp
    refine ⟨blockRangeShards_fresh (mem_of_getElem? hsh), ?_⟩
    rw [hdrained]
    exact not_mem_nil

theorem Inv.query (hclear : Clear cfg s (.query ok)) :
    Inv cfg key k (s.query cfg ok) := by
  have hsound := h.base.phase
  unfold Clear at hclear
  unfold State.query
  cases hphase : s.phase with
  | idle => exact h
  | sizing =>
    rw [hphase] at hsound
    cases ok with
    | false => exact h.moves trivial fun jobs => nofun
    | true => exact h.moves hsound fun jobs => nofun
  | counting n =>
    rw [hphase] at hsound
    exact h.moves hsound fun jobs => nofun
  | stamping n c =>
    rw [hphase] at hsound
    split_ifs
    · exact h.stamps hsound
    · exact h.moves trivial fun jobs => nofun
  | windowing =>
    rw [hphase] at hsound
    refine h.moves ⟨hsound.1, ?_, hsound.2⟩ fun jobs => nofun
    split_ifs
    · exact windowBlocks_pos ..
    · exact Nat.one_pos
  | guarding window =>
    rw [hphase] at hsound
    exact h.moves hsound fun jobs => nofun
  | tailing window unfiltered =>
    rw [hphase] at hsound hclear
    obtain ⟨hdrained, hwindow, p, hp, hfilenode⟩ := hsound
    dsimp only at hclear ⊢
    rw [hclear, if_pos rfl, hp, elim_some]
    have hplan := h.base.plan p hp
    refine ⟨⟨h.base.past, fun q hq => ?_, p, rfl, hfilenode, ?_⟩, h.row.imp id fun hw => ⟨?_, ?_⟩⟩
    · cases hq
      exact { hplan with }
    · dsimp only
      rw [hdrained]
      exact jobsOf_ctidJobs p hwindow unfiltered _
    · exact fun q hq => hw.owed q (hp.trans hq)
    · intro jobs q hrunning hq v hv hk
      cases hrunning
      refine .inl (ctidJobs_covers hplan.holds hplan.nonempty ((s.heap cfg).inside v hv.1) ?_)
      exact fun hx i sh hsh hblock => (hw.owed p hp hfilenode v hv hk hx i sh hsh hblock).1
  | running jobs => exact h

end

/-! ### Running the jobs -/

variable {drained drained' : List ℕ} {jobs : List Job} {rows : List ρ} {filenode : ℕ}

theorem JobsOf.tail (h : JobsOf p drained (j :: jobs))
    (hdrained : ∀ i ∈ drained', i ∈ drained ∨ j.part = some i) : JobsOf p drained' jobs := by
  obtain ⟨hj, hrest⟩ := pairwise_cons.1 h.distinct
  refine ⟨fun j' hj' => h.window j' (.tail _ hj'),
    fun j' hj' => h.horizon j' (.tail _ hj'), fun j' hj' i hi => ?_, hrest⟩
  obtain ⟨hhorizon, hnot, hsh⟩ := h.part j' (.tail _ hj') i hi
  refine ⟨hhorizon, fun hmem => ?_, hsh⟩
  rcases hdrained i hmem with hmem | hpart
  · exact hnot hmem
  · exact hj j' hj' i hpart hi

/-- The ranges that are drained after a job: those before it, and the range of a job that no limit
cut short. -/
def drainedAfter (s : State ρ) (j : Job) (rows : List ρ) : List ℕ :=
  if decide ¬(0 < s.limit ∧ s.limit ≤ rows.length) then s.drained ++ j.part.toList else s.drained

theorem mem_drainedAfter (h : i ∈ drainedAfter s j rows) :
    i ∈ s.drained ∨ j.part = some i ∧ ¬(0 < s.limit ∧ s.limit ≤ rows.length) := by
  unfold drainedAfter at h
  split_ifs at h with hwhole
  · rcases mem_append.1 h with h | h
    · exact .inl h
    · exact .inr ⟨mem_toList.1 h, of_decide_eq_true hwhole⟩
  · exact .inl h

/-- A job that emits nothing of a row leaves the row waiting. -/
theorem Waiting.runJob (hw : Waiting cfg key k s) (hp : s.plan = some p)
    (hphase : s.phase = .running (j :: jobs)) (hjobs : JobsOf p s.drained (j :: jobs))
    (hrows : j.rows (s.heap cfg) s.db.commits s.limit = rows) (hnone : ∀ row ∈ rows, key row ≠ k) :
    Waiting cfg key k { s with
      phase := .running jobs
      drained := drainedAfter s j rows
      emitted := s.emitted ++ rows } := by
  have hmissed : ∀ v, s.Current cfg v → key v.row = k →
      (j.part = none ∨ ¬(0 < s.limit ∧ s.limit ≤ rows.length)) → ¬j.Covers v := by
    intro v hv hk hwhole hcovers
    refine hnone v.row ?_ hk
    rw [← hrows] at hwhole ⊢
    exact Job.mem_rows (hjobs.window j (.head _)) hv.1 hv.2 hcovers hwhole
  -- so no version of the row is in a range that is drained now
  have hrange : ∀ i v, s.Current cfg v → key v.row = k → i ∈ drainedAfter s j rows →
      i ∉ s.drained → ∀ sh, p.shards[i]? = some sh → ¬sh.Holds v.block := by
    intro i v hv hk hmem hnot sh hsh hholds
    obtain ⟨hpart, hwhole⟩ := (mem_drainedAfter hmem).resolve_left hnot
    obtain ⟨hhorizon, -, hsh'⟩ := hjobs.part j (.head _) i hpart
    obtain rfl := mem_unique hsh' hsh
    refine hmissed v hv hk (.inr hwhole) ⟨hholds.1, hholds.2, ?_⟩
    rw [Job.accepts, hhorizon]
    rfl
  refine ⟨fun q hq hfile v hv hk hx i sh hsh hholds => ?_, ?_⟩
  · obtain ⟨hdone, hnot⟩ := hw.owed q hq hfile v hv hk hx i sh hsh hholds
    obtain rfl := mem_unique hp hq
    exact ⟨hdone, fun hmem => hrange i v hv hk hmem hnot sh hsh hholds⟩
  · intro jobs' q hrunning hq v hv hk
    cases hrunning
    obtain rfl := mem_unique hp hq
    rcases hw.awaits _ p hphase hp v hv hk with ⟨j', hj', hcovers⟩ |
      ⟨i, sh, hsh, hholds, hdone, hnot⟩
    · rcases mem_cons.1 hj' with rfl | hj'
      · -- the job was cut short, so its range is left
        cases hpart : j'.part with
        | none => exact absurd hcovers (hmissed v hv hk (.inl hpart))
        | some i =>
          obtain ⟨-, hnot, hsh⟩ := hjobs.part j' (.head _) i hpart
          have hholds : (⟨j'.lo, j'.hi, false⟩ : BlockRange).Holds v.block :=
            ⟨hcovers.1, hcovers.2.1⟩
          exact .inr ⟨i, _, hsh, hholds, rfl, fun hmem =>
            hrange i v hv hk hmem hnot _ hsh hholds⟩
      · exact .inl ⟨j', hj', hcovers⟩
    · exact .inr ⟨i, sh, hsh, hholds, hdone, fun hmem =>
        hrange i v hv hk hmem hnot sh hsh hholds⟩

theorem Inv.runJob (h : Inv cfg key k s) : Inv cfg key k (s.runJob cfg) := by
  unfold State.runJob
  split
  · next j jobs hphase =>
    have hsound := h.base.phase
    rw [hphase] at hsound
    obtain ⟨p, hp, hfilenode, hjobs⟩ := hsound
    refine ⟨⟨h.base.past, fun q hq => { h.base.plan q hq with }, p, hp, hfilenode, ?_⟩, ?_⟩
    · exact hjobs.tail fun i hi => (mem_drainedAfter hi).imp id And.left
    · rcases h.row with ⟨row, hrow, hk⟩ | hw
      · exact .inl ⟨row, mem_append_left _ hrow, hk⟩
      by_cases hnone : ∀ row ∈ j.rows (s.heap cfg) s.db.commits s.limit, key row ≠ k
      · exact .inr (hw.runJob hp hphase hjobs rfl hnone)
      · push Not at hnone
        obtain ⟨row, hrow, hk⟩ := hnone
        exact .inl ⟨row, mem_append_right _ hrow, hk⟩
  · exact h

theorem Inv.crash (h : Inv cfg key k s) (n : ℕ) : Inv cfg key k (s.crash cfg n) := by
  have hstops : ∀ rows, Inv cfg key k { s with phase := .idle, emitted := s.emitted ++ rows } := by
    intro rows
    refine ⟨⟨h.base.past, fun p hp => { h.base.plan p hp with }, trivial⟩, ?_⟩
    rcases h.row with ⟨row, hrow, hk⟩ | hw
    · exact .inl ⟨row, mem_append_left _ hrow, hk⟩
    · exact .inr ⟨hw.owed, nofun⟩
  unfold State.crash
  split
  · exact hstops _
  · exact h.moves trivial fun jobs => nofun

/-! ### Ranges that are done -/

/-- A plan one range of which is done. -/
def Plan.settled (p : Plan) (i : ℕ) : Plan :=
  { p with shards := p.shards.modify i fun sh => { sh with done := true } }

theorem settled_ne {j : ℕ} (hij : i ≠ j) : (p.settled i).shards[j]? = p.shards[j]? :=
  getElem?_modify_ne _ _ hij

theorem settled_other {j : ℕ} (hi : i ∈ drained) (hj : j ∉ drained) :
    (p.settled i).shards[j]? = p.shards[j]? := by
  refine settled_ne ?_
  rintro rfl
  exact hj hi

theorem settled_range {j : ℕ} (h : (p.settled i).shards[j]? = some sh) :
    ∃ sh', p.shards[j]? = some sh' ∧ sh.lo = sh'.lo ∧ sh.hi = sh'.hi := by
  by_cases hij : i = j
  · subst hij
    rw [Plan.settled, getElem?_modify_eq] at h
    obtain ⟨sh', hsh', rfl⟩ := map_eq_some_iff.1 h
    exact ⟨sh', hsh', rfl, rfl⟩
  · rw [settled_ne hij] at h
    exact ⟨sh, h, rfl, rfl⟩

theorem settled_holds (i : ℕ) (h : ∃ sh ∈ p.shards, sh.Holds b) :
    ∃ sh ∈ (p.settled i).shards, sh.Holds b := by
  obtain ⟨sh, hsh, hholds⟩ := h
  obtain ⟨j, hj⟩ := mem_iff_getElem?.mp hsh
  by_cases hij : i = j
  · subst hij
    refine ⟨{ sh with done := true }, mem_iff_getElem?.mpr ⟨i, ?_⟩, hholds⟩
    rw [Plan.settled, getElem?_modify_eq, hj]
    rfl
  · exact ⟨sh, mem_iff_getElem?.mpr ⟨j, (settled_ne hij).trans hj⟩, hholds⟩

theorem JobsOf.settled (h : JobsOf p drained jobs) (hi : i ∈ drained) :
    JobsOf (p.settled i) drained jobs := by
  refine { h with part := fun j hj i' hpart => ?_ }
  obtain ⟨hhorizon, hnot, hsh⟩ := h.part j hj i' hpart
  refine ⟨hhorizon, hnot, ?_⟩
  rw [settled_other hi hnot, hsh]

theorem Phase.Sound.settled (h : phase.Sound (some p) filenode drained) (hi : i ∈ drained) :
    phase.Sound (some (p.settled i)) filenode drained := by
  cases phase with
  | idle | sizing | counting n | stamping n c => exact h
  | windowing =>
    obtain ⟨hdrained, q, hq, hfile⟩ := h
    exact ⟨hdrained, _, rfl, some.inj hq ▸ hfile⟩
  | guarding window | tailing window unfiltered =>
    obtain ⟨hdrained, hwindow, q, hq, hfile⟩ := h
    exact ⟨hdrained, hwindow, _, rfl, some.inj hq ▸ hfile⟩
  | running jobs =>
    obtain ⟨q, hq, hfile, hjobs⟩ := h
    cases hq
    exact ⟨_, rfl, hfile, hjobs.settled hi⟩

theorem Waiting.settle (hw : Waiting cfg key k s) (hp : s.plan = some p) (hi : i ∈ s.drained) :
    Waiting cfg key k { s with plan := some (p.settled i) } := by
  refine ⟨fun q hq hfile v hv hk hx j sh hsh hholds => ?_, fun jobs q hphase hq v hv hk => ?_⟩
  · cases hq
    obtain ⟨sh', hsh', hlo, hhi⟩ := settled_range hsh
    have hholds' : sh'.Holds v.block := ⟨hlo ▸ hholds.1, hhi ▸ hholds.2⟩
    obtain ⟨hdone, hnot⟩ := hw.owed p hp hfile v hv hk hx j sh' hsh' hholds'
    rw [settled_other hi hnot, hsh'] at hsh
    cases hsh
    exact ⟨hdone, hnot⟩
  · cases hq
    rcases hw.awaits jobs p hphase hp v hv hk with hcovers | ⟨j, sh, hsh, hholds, hdone, hnot⟩
    · exact .inl hcovers
    · refine .inr ⟨j, sh, ?_, hholds, hdone, hnot⟩
      rw [settled_other hi hnot, hsh]

theorem Inv.settle (h : Inv cfg key k s) (i : ℕ) : Inv cfg key k (s.settle i) := by
  unfold State.settle
  split_ifs with hmem
  · have hsound := h.base.phase
    cases hplan : s.plan with
    | none =>
      rw [hplan] at hsound
      exact ⟨⟨h.base.past, nofun, hsound⟩, h.row.imp id fun _ => ⟨nofun, fun _ _ _ hp => nomatch hp⟩⟩
    | some p =>
      rw [hplan] at hsound
      obtain ⟨hended, hstamped, hholds, hne⟩ := h.base.plan p hplan
      refine ⟨⟨h.base.past, fun q hq => ?_, hsound.settled hmem⟩,
        h.row.imp id fun hw => hw.settle hplan hmem⟩
      cases hq
      refine ⟨hended, hstamped, fun b hb => settled_holds i (hholds b hb), fun hnil => hne ?_⟩
      exact modify_eq_nil_iff.1 hnil
  · exact h

/-! ### Whole runs -/

/-- **Every clear step keeps the invariant.** -/
theorem inv_step (h : Inv cfg key k s) {e : Event ρ} (hclear : Clear cfg s e) :
    Inv cfg key k (step cfg s e) := by
  cases e with
  | change c => exact h.change hclear
  | rewrite place => exact h.rewrite hclear
  | start limit => exact h.start limit
  | query ok => exact h.query hclear
  | job => exact h.runJob
  | crash n => exact h.crash n
  | settle i => exact h.settle i

theorem Inv.delivered (h : Inv cfg key k s) (hcomplete : s.complete = true)
    (hlive : ∃ v, s.Current cfg v ∧ key v.row = k) : s.Delivered key k := by
  rcases h.row with hd | hw
  · exact hd
  obtain ⟨v, hv, hk⟩ := hlive
  rw [State.complete, Bool.and_eq_true] at hcomplete
  obtain ⟨p, hp, hdone⟩ := (any_eq_true _ _).1 hcomplete.2
  rcases hw.awaits [] p (of_decide_eq_true hcomplete.1) hp v hv hk with
    ⟨j, hj, -⟩ | ⟨i, sh, hsh, -, hnot, -⟩
  · cases hj
  · rw [all_eq_true.1 hdone sh (mem_of_getElem? hsh)] at hnot
    cases hnot

end

/-- **In a run whose steps are clear, a read by block ranges that completes has delivered every row
that is there**, whatever attempts it took. -/
theorem stable_delivered (cfg : Config) (key : ρ → κ) (db : Database ρ)
    (hpast : db.Past cfg.relation) (es : List (Event ρ))
    (hclear : Trace.Along (step cfg) (Clear cfg) (fresh db) es)
    (hcomplete : (Trace.run (step cfg) (fresh db) es).complete = true) :
    ∀ v, (Trace.run (step cfg) (fresh db) es).Current cfg v →
      (Trace.run (step cfg) (fresh db) es).Delivered key (key v.row) := by
  intro v hv
  have h : Inv cfg key (key v.row) (Trace.run (step cfg) (fresh db) es) :=
    Trace.inv_run_of_along (fun s e (h : Inv cfg key (key v.row) s) hc => inv_step h hc)
      (.fresh hpast) hclear
  exact h.delivered hcomplete ⟨v, hv, rfl⟩

section

/-- Two blocks with a row each. -/
private def pairHeap : Heap (ℕ × ℕ) where
  versions := [⟨(1, 0), 0, 1, 3, 1, none⟩, ⟨(2, 0), 1, 1, 3, 1, none⟩]
  pages := 2
  relfrozenxid := 3
  filenode := 1
  inside := by decide

private def pairDatabase : Database (ℕ × ℕ) := ⟨fun _ => pairHeap, 1, [], 4⟩

private def pairConfig : Config := ⟨"public.notes", 1, 100⟩

private def planAndBuild : List (Event (ℕ × ℕ)) :=
  [.start 0, .query true, .query true, .query true, .query true, .query true, .query true]

/-- The attempt crashes after the first range; the row of the second one moves into the first, and
the next attempt delivers it. -/
private def movedBetween : List (Event (ℕ × ℕ)) :=
  planAndBuild ++ [.job, .settle 0, .crash 0, .change .begin,
    .change (.commit 4 [.update "public.notes" 1 (2, 1) 0 2]),
    .start 0, .query true, .query true, .query true, .job, .job, .settle 1]

/-- The row of the second range moves into the first one after that was read. -/
private def movedWhileRunning : List (Event (ℕ × ℕ)) :=
  planAndBuild ++ [.job, .change .begin,
    .change (.commit 4 [.update "public.notes" 1 (2, 1) 0 2]), .job, .settle 0, .settle 1]

private instance (sh : BlockRange) (b : ℕ) : Decidable (sh.Holds b) :=
  inferInstanceAs (Decidable (_ ∧ _))

private instance (p : Plan) (drained : List ℕ) (b : ℕ) : Decidable (Left p drained b) :=
  decidable_of_iff (((List.range p.shards.length).any fun i => p.shards[i]?.any fun sh =>
    decide (sh.Holds b ∧ sh.done = false ∧ i ∉ drained)) = true) (by
    simp only [List.any_eq_true, List.mem_range, Option.any_eq_true, decide_eq_true_eq]
    constructor
    · rintro ⟨i, -, sh, hsh, hrest⟩
      exact ⟨i, sh, hsh, hrest⟩
    · rintro ⟨i, sh, hsh, hrest⟩
      exact ⟨i, (List.getElem?_eq_some_iff.1 hsh).1, sh, hsh, hrest⟩)

private instance (s : State ρ) (jobs : List Job) (b : ℕ) : Decidable (Open s jobs b) :=
  match hp : s.plan with
  | none => decidable_of_iff (∃ j ∈ jobs, j.lo ≤ b ∧ b < j.hi) (by simp [Open, hp])
  | some p => decidable_of_iff ((∃ j ∈ jobs, j.lo ≤ b ∧ b < j.hi) ∨ Left p s.drained b)
      (by simp [Open, hp])

private instance (s : State (ℕ × ℕ)) (e : Event (ℕ × ℕ)) : Decidable (Clear pairConfig s e) := by
  unfold Clear
  split <;> (try split) <;> infer_instance

theorem moved_between_delivered :
    Trace.Along (step pairConfig) (Clear pairConfig) (fresh pairDatabase) movedBetween ∧
      (Trace.run (step pairConfig) (fresh pairDatabase) movedBetween).Delivered Prod.fst 2 := by
  have hclear : Trace.Along (step pairConfig) (Clear pairConfig) (fresh pairDatabase)
      movedBetween := by decide +kernel
  have hpast : pairDatabase.Past pairConfig.relation := by
    unfold Database.Past
    decide +kernel
  refine ⟨hclear, stable_delivered pairConfig Prod.fst pairDatabase hpast movedBetween hclear
    (by decide +kernel) ⟨(2, 1), 0, 2, 4, 2, none⟩ ?_⟩
  unfold State.Current
  decide +kernel

/-- The read completes without the row, which is there all the time. -/
theorem moved_row_lost :
    (Trace.run (step pairConfig) (fresh pairDatabase) movedWhileRunning).complete = true ∧
      (∀ n ∈ List.range (movedWhileRunning.length + 1),
        let s := Trace.run (step pairConfig) (fresh pairDatabase) (movedWhileRunning.take n)
        ∃ v ∈ (s.heap pairConfig).versions, v.visible s.db.commits = true ∧ v.row.1 = 2) ∧
      ∀ row ∈ (Trace.run (step pairConfig) (fresh pairDatabase) movedWhileRunning).emitted,
        row.1 ≠ 2 := by
  decide +kernel

end

end Filament.Postgres.CtidResume
