import Filament.Runner.Acknowledge

/-!
# A run beside the others

* `position_least` : the acknowledged position is the least of the given cursors;
* `load_reconcile`, `load_delete`, `load_save` : what the statements of the store leave stored;
* `World.holds`, `World.pends` : the positions that are stored and about to be acknowledged;
* `Good` : what holds of a run beside the others, at work or on its way out, kept by its own steps
  (`Working.setup`, `Good.next`, `Good.acknowledged`) and by those of the others (`Good.beside`).
-/

namespace Filament.Acknowledge

open List Function Except Option Members Phase

open Postgres (LSN StoredCursor Checkpoints startPostgresLSN postgresResourceFloors)

/-! ### The least cursor -/

variable {x : String} {checkpoints : Checkpoints} {n lsn start p : LSN} {s seq : ℕ}
  {cursor : StoredCursor}

theorem stream_of_read (h : cursor.read x = .ok (lsn, seq)) : cursor = .stream lsn seq := by
  cases cursor with
  | stream n s =>
    cases h
    rfl
  | notStream | badLSN raw err => simp [StoredCursor.read] at h

theorem startPostgresLSN_least (h : startPostgresLSN checkpoints = .ok (some start, seq)) :
    (∃ x s, (x, StoredCursor.stream start s) ∈ checkpoints) ∧
      ∀ x n s, (x, StoredCursor.stream n s) ∈ checkpoints → start ≤ n := by
  induction checkpoints generalizing start seq with
  | nil => simp [startPostgresLSN] at h
  | cons cp cps ih =>
    obtain ⟨y, cursor⟩ := cp
    simp only [startPostgresLSN, bind_eq_ok, pure_eq_ok_iff] at h
    obtain ⟨⟨lsn, lsnSeq⟩, hread, ⟨rest, restSeq⟩, hrest, heq⟩ := h
    obtain rfl := stream_of_read hread
    obtain rfl := Option.some.inj (Prod.mk.inj heq).1
    cases rest with
    | none =>
      -- without a start there is no further cursor
      cases cps with
      | nil => exact ⟨⟨y, lsnSeq, mem_cons_self⟩, by simp +contextual⟩
      | cons cp cps =>
        simp only [startPostgresLSN, bind_eq_ok, pure_eq_ok_iff] at hrest
        obtain ⟨_, _, _, _, hnone⟩ := hrest
        cases hnone
    | some t =>
      obtain ⟨⟨x, s, hmem⟩, hleast⟩ := ih hrest
      refine ⟨?_, fun x' n' s' hmem' => ?_⟩
      · rcases Nat.le_total lsn t with hle | hle
        · exact ⟨y, lsnSeq, by simp [hle]⟩
        · exact ⟨x, s, by simp [hle, hmem]⟩
      · rcases mem_cons.1 hmem' with hhead | htail
        · cases hhead
          exact Nat.min_le_left ..
        · exact Nat.le_trans (Nat.min_le_right ..) (hleast x' n' s' htail)

theorem postgresResourceFloors_eq {floors : String → Option LSN}
    (h : postgresResourceFloors checkpoints = .ok floors) (x : String) :
    floors x = match checkpoints.lookup x with
      | some (.stream n _) => some n
      | _ => none := by
  induction checkpoints generalizing floors with
  | nil =>
    cases h
    rfl
  | cons cp cps ih =>
    obtain ⟨y, cursor⟩ := cp
    simp only [postgresResourceFloors, bind_eq_ok, pure_eq_ok_iff] at h
    obtain ⟨⟨lsn, lsnSeq⟩, hread, rest, hrest, rfl⟩ := h
    by_cases hxy : x = y
    · subst hxy
      rw [update_self, lookup_cons_self, stream_of_read hread]
    · rw [update_of_ne hxy, ih hrest, lookup_cons, beq_eq_false_iff_ne.2 hxy]

theorem position_least (h : position checkpoints = some p) :
    (∃ x s, (x, StoredCursor.stream p s) ∈ checkpoints) ∧
      ∀ x n s, (x, StoredCursor.stream n s) ∈ checkpoints → p ≤ n := by
  unfold position at h
  split at h
  · next start seq hstart =>
    subst h
    exact startPostgresLSN_least hstart
  · cases h

/-! ### The statements of the store -/

variable {m m' : Members} {resource : String} {resync resources : List String}

theorem load_reconcile (m : Members) (resources : List String) (x : String) :
    (m.reconcileStreamMembership resources).load x = if x ∈ resources then m.load x else none := by
  simp only [load, reconcileStreamMembership]
  split_ifs with hx
  · cases hrow : m.row x with
    | none => rfl
    | some member =>
      obtain ⟨status, cursor⟩ := member
      cases status <;> rfl
  · cases hrow : m.row x with
    | none => rfl
    | some member => rfl

theorem load_delete (m : Members) (resource x : String) :
    (m.deleteStreamResourceCheckpoint resource).load x =
      if x = resource then none else m.load x := by
  simp only [load, deleteStreamResourceCheckpoint]
  split_ifs with hx
  · subst hx
    rw [update_self]
    cases hrow : m.row x with
    | none => rfl
    | some member =>
      obtain ⟨status, cursor⟩ := member
      cases status <;> rfl
  · rw [update_of_ne hx]

theorem load_resync {c : StoredCursor}
    (h : (resync.foldl deleteStreamResourceCheckpoint m).load x = some c) :
    m.load x = some c := by
  induction resync generalizing m with
  | nil => exact h
  | cons resource resync ih =>
    have hload := ih h
    rw [load_delete] at hload
    split_ifs at hload
    exact hload

theorem names_resync (resync : List String) (m : Members) :
    (resync.foldl deleteStreamResourceCheckpoint m).names = m.names := by
  induction resync generalizing m with
  | nil => rfl
  | cons resource resync ih => exact ih _

section

variable (h : m.saveStreamResourceCheckpoint resource cursor = some m')
include h

theorem row_save :
    m'.row = Function.update m.row resource (some ⟨.active, some cursor⟩) := by
  unfold saveStreamResourceCheckpoint at h
  split at h
  · cases h
  · cases h
  · cases h
    rfl

theorem load_save (x : String) :
    m'.load x = if x = resource then some cursor else m.load x := by
  simp only [load, row_save h]
  split_ifs with hx
  · subst hx
    rw [update_self]
  · rw [update_of_ne hx]

theorem names_save :
    m'.names = m.names := by
  unfold saveStreamResourceCheckpoint at h
  split at h
  · cases h
  · cases h
  · cases h
    rfl

theorem row_of_save :
    m.row resource ≠ none := by
  intro hnone
  simp [saveStreamResourceCheckpoint, hnone] at h

end

theorem lookup_loadChangeCheckpoints (m : Members) (hx : x ∈ resources) :
    (loadChangeCheckpoints m resources).lookup x = m.load x := by
  induction resources with
  | nil => exact absurd hx not_mem_nil
  | cons y resources ih =>
    simp only [loadChangeCheckpoints, filterMap_cons] at ih ⊢
    by_cases hxy : x = y
    · subst hxy
      cases hload : m.load x with
      | some c => simp
      | none =>
        simp only [map_none]
        by_cases hmem : x ∈ resources
        · rw [ih hmem, hload]
        rw [lookup_eq_none_iff]
        rintro ⟨z, c⟩ hz
        obtain ⟨y, hy, hmap⟩ := mem_filterMap.1 hz
        obtain ⟨c', -, heq⟩ := map_eq_some_iff.1 hmap
        obtain ⟨rfl, -⟩ := Prod.mk.inj heq
        simpa using fun heq : x = y => hmem (heq ▸ hy)
    · have hmem : x ∈ resources := (mem_cons.1 hx).resolve_left hxy
      cases m.load y with
      | none => exact ih hmem
      | some c =>
        simp only [map_some, lookup_cons, beq_eq_false_iff_ne.2 hxy]
        exact ih hmem

theorem row_reconcile (hnamed : ∀ x, m.row x ≠ none → x ∈ m.names) (resources : List String)
    (x : String) (hx : (m.reconcileStreamMembership resources).row x ≠ none) :
    x ∈ (m.reconcileStreamMembership resources).names := by
  simp only [reconcileStreamMembership, mem_union_iff] at hx ⊢
  split_ifs at hx with hmem
  · exact .inr hmem
  · exact .inl (hnamed x fun hnone => hx (by rw [hnone]; rfl))

theorem row_resync (h : (resync.foldl deleteStreamResourceCheckpoint m).row x ≠ none) :
    m.row x ≠ none := by
  induction resync generalizing m with
  | nil => exact h
  | cons resource resync ih =>
    have hrow := ih h
    simp only [deleteStreamResourceCheckpoint] at hrow
    by_cases hx : x = resource
    · subst hx
      rw [update_self] at hrow
      exact fun hnone => hrow (by rw [hnone]; rfl)
    · rwa [update_of_ne hx] at hrow

/-! ### Cursors that are stored and positions about to be acknowledged -/

/-- The active resource `x` has the stored position `n`. -/
def World.holds (w : World) (x : String) (n : LSN) : Prop :=
  ∃ seq, w.members.load x = some (.stream n seq)

/-- The run is about to acknowledge the position `p`. -/
def Run.pending (r : Run) (p : LSN) : Prop :=
  ∃ floor, r.phase = .calling floor ∧ position floor = some p

/-- Some run is about to acknowledge the position `p`. -/
def World.pends (w : World) (p : LSN) : Prop := ∃ r ∈ w.runs, r.pending p

/-- A listing has the stored cursors of all active resources, and no others. -/
theorem mem_routeStreamCheckpoints (hnamed : ∀ x, m.row x ≠ none → x ∈ m.names) :
    (x, StoredCursor.stream n s) ∈ routeStreamCheckpoints m ↔ m.load x = some (.stream n s) := by
  simp only [routeStreamCheckpoints, listStreamResourceCheckpoints, mem_filter,
    mem_filterMap, map_eq_some_iff, Prod.mk.injEq]
  constructor
  · rintro ⟨⟨y, -, c, hload, rfl, rfl⟩, -⟩
    exact hload
  · intro hload
    have hrow : m.row x ≠ none := by
      intro hnone
      simp [load, hnone] at hload
    exact ⟨⟨x, hnamed x hrow, _, hload, rfl, rfl⟩, rfl⟩

/-! ### One run beside the others -/

/-- The phases of an acknowledgement. -/
def Phase.late : Phase → Bool
  | .waiting _ => true
  | .listing => true
  | .calling _ => true
  | _ => false

/-- The phases in which the cursors to resume from are loaded. -/
def Phase.loaded : Phase → Bool
  | .reconciling => false
  | .resyncing => false
  | .loading => false
  | _ => true

/-- The phases after the snapshot was opened. -/
def Phase.opened : Phase → Bool
  | .positioning => true
  | .reading => true
  | .marked => true
  | _ => false

/-- A cursor that a reading run has reported: not below the stored one, and for a resource without
one not below the snapshot. -/
def Reported (w : World) (r : Run) (cp : String × StoredCursor) : Prop :=
  ∃ n s, cp.2 = .stream n s ∧ n ≤ w.wal ∧ (∀ m, w.holds cp.1 m → m ≤ n) ∧
    ((∀ m, ¬ w.holds cp.1 m) → r.bootstrap ≤ n)

/-- A cursor that may be saved now: no position above it is about to be acknowledged. -/
def Due (w : World) (cp : String × StoredCursor) : Prop :=
  ∃ n s, cp.2 = .stream n s ∧ n ≤ w.wal ∧ ∀ p, w.pends p → p ≤ n

/-- All the cursors are at one position, and none is stored above it. -/
def Level (w : World) (cps : Checkpoints) : Prop :=
  ∃ n s, (∀ cp ∈ cps, cp.2 = .stream n s) ∧ ∀ x m, w.holds x m → m ≤ n

/-- What holds of a run at work. -/
structure Working (w : World) (r : Run) : Prop where
  row : r.row = .active
  flushing : r.flushing = []
  finishing : r.finishing = false
  loaded : r.phase.loaded = true → ∀ x ∈ r.resources, r.checkpoints.lookup x = w.members.load x
  opened : r.phase.opened = true →
    r.bootstrap ≤ w.wal ∧ (∀ x n, w.holds x n → n ≤ r.bootstrap) ∧
      ∀ p, w.pends p → p ≤ r.bootstrap
  watermark : r.phase = .reading → r.bootstrap ≤ r.watermark
  unopened : r.phase.opened = false → r.latest = []
  latest : ∀ cp ∈ r.latest, Reported w r cp
  marked : r.phase = .marked → Level w r.latest

/-- What holds of a run whose terminal fact is on its way. -/
structure Ending (w : World) (r : Run) : Prop where
  late : r.phase = .over ∨ (r.phase.late = true ∧ r.finishing = true)
  idle : r.row ≠ .active → r.flushing = []
  failed : r.published = some .failed → r.flushing = []
  resumable : r.published = some .paused → r.row ≠ .ended
  flushing : ∀ cp ∈ r.flushing, Due w cp
  completed : r.published = some .completed → r.flushing ≠ [] → Level w r.flushing

/-- What holds of a run of the history. -/
structure Good (w : World) (r : Run) : Prop where
  working : r.published = none → Working w r
  ending : r.published ≠ none → Ending w r

variable {w w' : World} {r : Run}

theorem Working.good (h : Working w r) (hpublished : r.published = none) : Good w r :=
  ⟨fun _ => h, fun hne => absurd hpublished hne⟩

theorem Ending.good (h : Ending w r) (hpublished : r.published ≠ none) : Good w r :=
  ⟨fun hnone => absurd hnone hpublished, fun _ => h⟩

theorem Good.create (w : World) (resources resync : List String) :
    Good w (Run.create resources resync) := by
  refine Working.good ⟨rfl, rfl, rfl, nofun, nofun, nofun, fun _ => rfl, ?_, nofun⟩ rfl
  exact fun cp h => absurd h not_mem_nil

theorem Good.done_of_ended (h : Good w r) (hended : r.row = .ended) :
    r.published ≠ none ∧ r.flushing = [] := by
  have hne : r.published ≠ none := fun hnone =>
    Row.noConfusion (hended.symm.trans (h.working hnone).row)
  exact ⟨hne, (h.ending hne).idle (by rw [hended]; exact Row.noConfusion)⟩

/-- A run that has nothing left for the tracker does not see the others. -/
theorem Good.of_done (h : Good w r) (hpublished : r.published ≠ none) (hflushing : r.flushing = []) :
    Good w' r :=
  Ending.good { h.ending hpublished with
    flushing := by simp [hflushing]
    completed := fun _ hne => absurd hflushing hne } hpublished

/-- What a run sees of the others: the source advances, the store stays, and a position that is about
to be acknowledged was so before, or is stored. -/
structure Beside (w w' : World) : Prop where
  wal : w.wal ≤ w'.wal
  load : ∀ x, w'.members.load x = w.members.load x
  pends : ∀ p, w'.pends p → w.pends p ∨ ∃ x, w.holds x p

theorem Beside.holds (h : Beside w w') : w'.holds x n ↔ w.holds x n := by
  simp [World.holds, h.load]

theorem Level.beside {cps : Checkpoints} (hl : Level w cps) (h : Beside w w') : Level w' cps := by
  obtain ⟨n, s, hall, hover⟩ := hl
  exact ⟨n, s, hall, fun x m hm => hover x m (h.holds.1 hm)⟩

theorem Working.beside (hr : Working w r) (h : Beside w w') : Working w' r := by
  refine { hr with
    loaded := fun hl x hx => (hr.loaded hl x hx).trans (h.load x).symm
    opened := fun ho => ?_
    latest := fun cp hcp => ?_
    marked := fun hm => (hr.marked hm).beside h }
  · obtain ⟨hle, hall, hpend⟩ := hr.opened ho
    refine ⟨Nat.le_trans hle h.wal, fun x n hn => hall x n (h.holds.1 hn), fun p hp => ?_⟩
    rcases h.pends p hp with hold | ⟨x, hx⟩
    · exact hpend p hold
    · exact hall x p hx
  · obtain ⟨n, s, hc, hle, hover, hfresh⟩ := hr.latest cp hcp
    exact ⟨n, s, hc, Nat.le_trans hle h.wal, fun m hm => hover m (h.holds.1 hm),
      fun hnone => hfresh fun m hm => hnone m (h.holds.2 hm)⟩

/-- A new position about to be acknowledged is harmless, unless the tracker is saving the cursors of a
paused run. -/
theorem Ending.beside (hr : Ending w r) (hpublished : r.published ≠ none) (h : Beside w w')
    (hpends : (∀ p, w'.pends p → w.pends p) ∨ (r.published = some .paused → r.flushing = [])) :
    Ending w' r := by
  refine { hr with
    flushing := fun cp hcp => ?_
    completed := fun hc hne => (hr.completed hc hne).beside h }
  have hne : r.flushing ≠ [] := ne_nil_of_mem hcp
  obtain ⟨n, s, hc, hle, hpend⟩ := hr.flushing cp hcp
  refine ⟨n, s, hc, Nat.le_trans hle h.wal, fun p hp => ?_⟩
  rcases hpends with hold | hpaused
  · exact hpend p (hold p hp)
  rcases h.pends p hp with hold | ⟨x, hx⟩
  · exact hpend p hold
  -- Only the cursors of a completed run are left, all at one position above every stored one.
  have hcompleted : r.published = some .completed := by
    cases hpub : r.published with
    | none => exact absurd hpub hpublished
    | some outcome =>
      cases outcome with
      | completed => rfl
      | paused => exact absurd (hpaused hpub) hne
      | failed => exact absurd (hr.failed hpub) hne
  obtain ⟨n', s', hall, hover⟩ := hr.completed hcompleted hne
  rw [hall cp hcp] at hc
  cases hc
  exact hover x p hx

theorem Good.beside (hr : Good w r) (h : Beside w w')
    (hpends : (∀ p, w'.pends p → w.pends p) ∨ (r.published = some .paused → r.flushing = [])) :
    Good w' r :=
  ⟨fun hnone => (hr.working hnone).beside h, fun hne => (hr.ending hne).beside hne h hpends⟩

/-! ### The steps of a run -/

theorem not_pending (h : ∀ floor, r.phase ≠ .calling floor) (p : LSN) : ¬ r.pending p := by
  rintro ⟨floor, hphase, -⟩
  exact h floor hphase

theorem Good.at_work (h : Good w r) (hover : r.phase ≠ .over) (hlate : r.phase.late = false) :
    r.published = none ∧ Working w r := by
  have hnone : r.published = none := by
    by_contra hne
    rcases (h.ending hne).late with heq | ⟨heq, -⟩
    · exact hover heq
    · exact Bool.noConfusion (hlate.symm.trans heq)
  exact ⟨hnone, h.working hnone⟩

/-- A run at work goes to another phase before its snapshot. -/
theorem Working.setup (h : Working w r) (hlatest : r.latest = []) (phase : Phase)
    (checkpoints : Checkpoints) (hopened : phase.opened = false)
    (hloaded : phase.loaded = true → ∀ x ∈ r.resources, checkpoints.lookup x = w'.members.load x) :
    Working w' { r with checkpoints := checkpoints, phase := phase } where
  row := h.row
  flushing := h.flushing
  finishing := h.finishing
  loaded := hloaded
  opened ho := Bool.noConfusion (hopened.symm.trans ho)
  watermark hreading := by
    obtain rfl : phase = .reading := hreading
    exact Bool.noConfusion hopened
  unopened _ := hlatest
  latest := by simp [hlatest]
  marked hmarked := by
    obtain rfl : phase = .marked := hmarked
    exact Bool.noConfusion hopened

theorem Phase.of_late {phase : Phase} (h : phase.late = true) :
    phase.opened = false ∧ phase.loaded = true := by
  cases phase <;> simp_all [late, opened, loaded]

theorem Working.leaves (h : Working w r) (hlate : r.phase.late = true) (phase : Phase)
    (hopened : phase.opened = false) : Working w { r with phase := phase } :=
  h.setup (h.unopened (of_late hlate).1) phase r.checkpoints hopened
    fun _ => h.loaded (of_late hlate).2

theorem Ending.finishing (h : Ending w r) (hlate : r.phase.late = true) : r.finishing = true := by
  rcases h.late with hover | ⟨-, hfinishing⟩
  · rw [hover] at hlate
    exact Bool.noConfusion hlate
  · exact hfinishing

/-- A run moves on within an acknowledgement. -/
theorem Good.next (h : Good w r) (hlate : r.phase.late = true) (phase : Phase)
    (hphase : phase.late = true) : Good w { r with phase := phase } where
  working hnone := (h.working hnone).leaves hlate phase (of_late hphase).1
  ending hne :=
    { h.ending hne with late := .inr ⟨hphase, (h.ending hne).finishing hlate⟩ }

/-- An acknowledgement is over. -/
theorem Good.acknowledged (h : Good w r) (hlate : r.phase.late = true) : Good w r.acknowledged where
  working hnone := by
    have heq : r.acknowledged = { r with phase := .snapshotting } := by
      simp [Run.acknowledged, (h.working hnone).finishing]
    rw [heq]
    exact (h.working hnone).leaves hlate .snapshotting rfl
  ending hne := by
    have heq : r.acknowledged = { r with phase := .over } := by
      simp [Run.acknowledged, (h.ending hne).finishing hlate]
    rw [heq]
    exact { h.ending hne with late := .inl rfl }

theorem acknowledged_not_pending (r : Run) (p : LSN) : ¬ r.acknowledged.pending p := by
  refine not_pending (fun floor => ?_) p
  simp only [Run.acknowledged]
  split_ifs <;> exact Phase.noConfusion

end Filament.Acknowledge
