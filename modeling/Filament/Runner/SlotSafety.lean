import Filament.Runner.StreamFloor

/-!
# The slot is never advanced past a resource

* `Inv` : the one active run of the route (`fence`) and the positions that are about to be
  acknowledged, none of them above a stored one (`safe`);
* `Inv.step` : every event keeps it, unless the cursors are listed while the tracker is saving those
  of a paused run;
* `acknowledge_safe` : so every call is at or below every stored cursor;
* `listed_during_flush` : otherwise a resource that the paused run has bootstrapped may come after
  the listing and before the call.
-/

namespace Filament.Acknowledge

open List Option Trace

open Postgres (LSN StoredCursor Checkpoints startPostgresLSN postgresResourceFloors)

/-! ### The invariant -/

variable {w : World} {i seq : ℕ} {r r' : Run} {members : Members} {event : Event} {x : String}
  {lsn floor p : LSN}

/-- What holds along every such history. -/
structure Inv (w : World) : Prop where
  named : ∀ x, w.members.row x ≠ none → x ∈ w.members.names
  fence : ∀ (i j : ℕ) (r r' : Run), w.runs[i]? = some r → w.runs[j]? = some r' →
    r.row ≠ .ended → r'.row ≠ .ended → i = j
  safe : ∀ p, w.pends p → ∀ x n, w.holds x n → p ≤ n
  below : ∀ x n, w.holds x n → n ≤ w.wal
  ahead : ∀ p, w.pends p → p ≤ w.wal
  good : ∀ r ∈ w.runs, Good w r

theorem Inv.fresh (wal slot : LSN) : Inv (World.fresh wal slot) where
  named := by simp [World.fresh]
  fence := by simp [World.fresh]
  safe := by simp [World.fresh, World.pends]
  below := by simp [World.fresh, World.holds, Members.load]
  ahead := by simp [World.fresh, World.pends]
  good := by simp [World.fresh]

theorem pends_put (h : (w.put i r).pends p) : w.pends p ∨ r.pending p := by
  obtain ⟨r', hmem, hp⟩ := h
  rcases mem_or_eq_of_mem_set hmem with hold | rfl
  · exact .inl ⟨r', hold, hp⟩
  · exact .inr hp

section

variable (h : Inv w) (hr : w.runs[i]? = some r)
include h hr

/-- The fence after one run was replaced. -/
theorem Inv.fence_set (hrow : r'.row ≠ .ended → r.row ≠ .ended) :
    ∀ (j k : ℕ) (a b : Run), (w.runs.set i r')[j]? = some a → (w.runs.set i r')[k]? = some b →
      a.row ≠ .ended → b.row ≠ .ended → j = k := by
  have hback : ∀ (j : ℕ) (a : Run), (w.runs.set i r')[j]? = some a → a.row ≠ .ended →
      ∃ b : Run, w.runs[j]? = some b ∧ b.row ≠ .ended := by
    intro j a ha hne
    rw [getElem?_set] at ha
    split_ifs at ha with hij
    · subst hij
      cases ha
      exact ⟨r, hr, hrow hne⟩
    · exact ⟨a, ha, hne⟩
  intro j k a b ha hb hja hkb
  obtain ⟨a', ha', hja'⟩ := hback j a ha hja
  obtain ⟨b', hb', hkb'⟩ := hback k b hb hkb
  exact h.fence j k a' b' ha' hb' hja' hkb'

/-- A run moves by itself: the store stays and no new position is about to be acknowledged. -/
theorem Inv.put (hrow : r'.row ≠ .ended → r.row ≠ .ended) (hpending : ∀ p, r'.pending p → w.pends p)
    (hgood : Good w r') : Inv (w.put i r') := by
  have hpends : ∀ p, (w.put i r').pends p → w.pends p := fun p hp =>
    (pends_put hp).elim id (hpending p)
  refine ⟨h.named, h.fence_set hr hrow, fun p hp => h.safe p (hpends p hp), h.below,
    fun p hp => h.ahead p (hpends p hp), fun a ha => ?_⟩
  have hkeep : Good w a := forall_mem_set h.good hgood a ha
  exact hkeep.beside ⟨Nat.le_refl _, fun _ => rfl, fun p hp => .inl (hpends p hp)⟩ (.inl hpends)

/-- While the run `i` is not ended, all other runs are, and do not see what it does. -/
theorem Inv.others {w' : World} (hrow : r.row ≠ .ended) (hruns : w'.runs = w.runs.set i r')
    (hgood : Good w' r') :
    ∀ a ∈ w'.runs, Good w' a := by
  intro a ha
  rw [hruns] at ha
  obtain ⟨j, hj⟩ := mem_iff_getElem?.mp ha
  rw [getElem?_set] at hj
  split_ifs at hj with hij
  · cases hj
    exact hgood
  have hmem := mem_of_getElem? hj
  have hended : a.row = .ended := by
    by_contra hne
    exact hij (h.fence i j r a hr hj hrow hne)
  obtain ⟨hpublished, hflushing⟩ := (h.good a hmem).done_of_ended hended
  exact (h.good a hmem).of_done hpublished hflushing

/-- The run `i` changes the store: nothing is acknowledged meanwhile, and every stored position
stays or is at or above what is about to be acknowledged. -/
theorem Inv.store (hrow : r.row ≠ .ended) (hpending : ∀ p, r'.pending p → r.pending p)
    (hnamed : ∀ x, members.row x ≠ none → x ∈ members.names)
    (hholds : ∀ x n, ({ w with members := members } : World).holds x n → w.holds x n ∨
      (n ≤ w.wal ∧ ∀ p, w.pends p → p ≤ n))
    (hgood : Good ({ w with members := members }.put i r') r') :
    Inv ({ w with members := members }.put i r') := by
  have hpends : ∀ p, ({ w with members := members }.put i r').pends p → w.pends p := fun p hp =>
    (pends_put hp).elim id fun hp' => ⟨r, mem_of_getElem? hr, hpending p hp'⟩
  refine ⟨hnamed, h.fence_set hr (fun _ => hrow), fun p hp x n hn => ?_, fun x n hn => ?_,
    fun p hp => h.ahead p (hpends p hp), h.others hr hrow rfl hgood⟩
  · rcases hholds x n hn with hold | ⟨-, hle⟩
    · exact h.safe p (hpends p hp) x n hold
    · exact hle p (hpends p hp)
  · rcases hholds x n hn with hold | ⟨hle, -⟩
    · exact h.below x n hold
    · exact hle

end

/-! ### The steps of the history -/

/-- The tracker's condition: nobody lists the cursors while those of a paused run are being saved. -/
def Undisturbed (w : World) : Event → Prop
  | .lists _ => ∀ r ∈ w.runs, r.published = some .paused → r.flushing = []
  | _ => True

theorem Inv.slot (h : Inv w) (slot : LSN) : Inv { w with slot := slot } :=
  { h with
      good := fun r hr => (h.good r hr).beside ⟨Nat.le_refl _, fun _ => rfl, fun _ => .inl⟩ (.inl fun _ hp => hp) }

theorem Inv.advances (h : Inv w) (n : ℕ) : Inv { w with wal := w.wal + n } :=
  ⟨h.named, h.fence, h.safe, fun x m hm => Nat.le_trans (h.below x m hm) (Nat.le_add_right ..),
    fun p hp => Nat.le_trans (h.ahead p hp) (Nat.le_add_right ..), fun r hr =>
    (h.good r hr).beside ⟨Nat.le_add_right .., fun _ => rfl, fun _ => .inl⟩ (.inl fun _ hp => hp)⟩

theorem Inv.creates (h : Inv w) (hended : ∀ r ∈ w.runs, r.row = .ended)
    (resources resync : List String) :
    Inv { w with runs := w.runs ++ [Run.create resources resync] } := by
  have hpends : ∀ p, ({ w with runs := w.runs ++ [Run.create resources resync] } : World).pends p →
      w.pends p := by
    rintro p ⟨r, hr, hp⟩
    rcases mem_concat.1 hr with hold | rfl
    · exact ⟨r, hold, hp⟩
    · exact absurd hp (not_pending (fun _ => Phase.noConfusion) p)
  have hlast : ∀ (j : ℕ) (r : Run), (w.runs ++ [Run.create resources resync])[j]? = some r →
      r.row ≠ .ended → j = w.runs.length := by
    intro j r hj hne
    rcases Nat.lt_trichotomy j w.runs.length with hlt | heq | hgt
    · rw [getElem?_append_left hlt] at hj
      exact absurd (hended r (mem_of_getElem? hj)) hne
    · exact heq
    · rw [getElem?_eq_none (by simp; omega)] at hj
      cases hj
  refine ⟨h.named, fun i j r r' hi hj hr hr' => (hlast i r hi hr).trans (hlast j r' hj hr').symm,
    fun p hp => h.safe p (hpends p hp), h.below, fun p hp => h.ahead p (hpends p hp), fun r hr => ?_⟩
  rcases mem_concat.1 hr with hold | rfl
  · exact (h.good r hold).beside ⟨Nat.le_refl _, fun _ => rfl, fun p hp => .inl (hpends p hp)⟩
      (.inl hpends)
  · exact Good.create _ resources resync

/-- A reported position is past the floor of its resource. -/
theorem Working.reported (h : Working w r) (hphase : r.phase = .reading) (hx : x ∈ r.resources)
    (hfloor : r.floor x = some floor) (hle : floor ≤ lsn) (hwal : lsn ≤ w.wal) :
    Reported w r (x, .stream lsn seq) := by
  have hlookup := h.loaded (by rw [hphase]; rfl) x hx
  unfold Run.floor at hfloor
  split at hfloor
  · next floors hfloors =>
    have heq := postgresResourceFloors_eq hfloors x
    cases hfloor
    rw [hlookup] at heq
    refine ⟨lsn, seq, rfl, hwal, fun m hm => ?_, fun hnone => ?_⟩
    · obtain ⟨s, hload⟩ := hm
      rw [hload] at heq
      rw [heq] at hle
      exact hle
    · have hfresh : floors x = none := by
        rw [heq]
        split
        · next n s hload => exact absurd ⟨s, hload⟩ (hnone n)
        · rfl
      rw [hfresh] at hle
      exact hle
  · cases hfloor

/-- The cursors of a run that ends may be saved: what is about to be acknowledged is at or below the
stored cursor of the resource, or was so before the snapshot. -/
theorem Inv.due (h : Inv w) (hwork : Working w r) {cp : String × StoredCursor}
    (hcp : cp ∈ r.latest) : Due w cp := by
  obtain ⟨n, s, hc, hwal, hover, hfresh⟩ := hwork.latest cp hcp
  refine ⟨n, s, hc, hwal, fun p hp => ?_⟩
  by_cases hholds : ∃ m, w.holds cp.1 m
  · obtain ⟨m, hm⟩ := hholds
    exact Nat.le_trans (h.safe p hp cp.1 m hm) (hover m hm)
  · have hopened : r.phase.opened = true := by
      by_contra hno
      rw [hwork.unopened (Bool.eq_false_iff.2 hno)] at hcp
      exact not_mem_nil hcp
    exact Nat.le_trans ((hwork.opened hopened).2.2 p hp) (hfresh fun m hm => hholds ⟨m, hm⟩)

section

variable (h : Inv w) (hr : w.runs[i]? = some r)
include h hr

theorem Inv.next (hlate : r.phase.late = true) (phase : Phase) (hphase : phase.late = true)
    (hcalling : ∀ floor, phase ≠ .calling floor) : Inv (w.put i { r with phase := phase }) :=
  h.put hr id (fun p hp => absurd hp (not_pending hcalling p))
    ((h.good r (mem_of_getElem? hr)).next hlate phase hphase)

theorem Inv.acknowledged (hlate : r.phase.late = true) : Inv (w.put i r.acknowledged) :=
  h.put hr id (fun p hp => absurd hp (acknowledged_not_pending r p))
    ((h.good r (mem_of_getElem? hr)).acknowledged hlate)

/-- **A listing is at or below every stored cursor**, and stays so for the other runs. -/
theorem Inv.lists (hphase : r.phase = .listing)
    (hpaused : ∀ r ∈ w.runs, r.published = some .paused → r.flushing = []) :
    Inv (w.put i { r with phase := .calling (routeStreamCheckpoints w.members) }) := by
  have hmem := mem_of_getElem? hr
  have hgood : Good w { r with phase := .calling (routeStreamCheckpoints w.members) } :=
    (h.good r hmem).next (by rw [hphase]; rfl) _ rfl
  cases hpos : position (routeStreamCheckpoints w.members) with
  | none =>
    refine h.put hr id (fun p hp => ?_) hgood
    obtain ⟨floor, hfloor, hp⟩ := hp
    cases hfloor
    rw [hpos] at hp
    cases hp
  | some q =>
    obtain ⟨⟨x, s, hx⟩, hleast⟩ := position_least hpos
    have hq : w.holds x q := ⟨s, (mem_routeStreamCheckpoints h.named).1 hx⟩
    have hpends : ∀ p, (w.put i { r with
        phase := .calling (routeStreamCheckpoints w.members) }).pends p → w.pends p ∨ p = q := by
      intro p hp
      refine (pends_put hp).imp id ?_
      rintro ⟨floor, hfloor, hp⟩
      cases hfloor
      exact mem_unique hp hpos
    refine ⟨h.named, h.fence_set hr id, fun p hp y n hn => ?_, h.below, fun p hp => ?_,
      fun a ha => ?_⟩
    · rcases hpends p hp with hold | rfl
      · exact h.safe p hold y n hn
      · obtain ⟨s', hload⟩ := hn
        exact hleast y n s' ((mem_routeStreamCheckpoints h.named).2 hload)
    · rcases hpends p hp with hold | rfl
      · exact h.ahead p hold
      · exact h.below x p hq
    · have hbeside : Beside w (w.put i { r with
          phase := .calling (routeStreamCheckpoints w.members) }) := by
        refine ⟨Nat.le_refl _, fun _ => rfl, fun p hp => ?_⟩
        rcases hpends p hp with hold | rfl
        · exact .inl hold
        · exact .inr ⟨x, hq⟩
      rcases mem_or_eq_of_mem_set ha with hold | rfl
      · exact (h.good a hold).beside hbeside (.inr (hpaused a hold))
      · exact hgood.beside hbeside (.inr (hpaused r hmem))

/-- A run in the phase of a step is at work, and its row is active. -/
theorem Inv.at_work {phase : Phase} (hphase : r.phase = phase) (hover : phase ≠ .over)
    (hlate : phase.late = false) :
    r.published = none ∧ Working w r ∧ r.row ≠ .ended := by
  subst hphase
  obtain ⟨hnone, hwork⟩ := (h.good r (mem_of_getElem? hr)).at_work hover hlate
  exact ⟨hnone, hwork, by rw [hwork.row]; exact Row.noConfusion⟩

theorem Inv.works (hrow : r'.row ≠ .ended → r.row ≠ .ended)
    (hcalling : ∀ floor, r'.phase ≠ .calling floor) (hgood : Good w r') : Inv (w.put i r') :=
  h.put hr hrow (fun p hp => absurd hp (not_pending hcalling p)) hgood

theorem Inv.reconciles (hphase : r.phase = .reconciling) :
    Inv ({ w with members := w.members.reconcileStreamMembership r.resources }.put i
      { r with phase := .resyncing }) := by
  obtain ⟨hnone, hwork, hrow⟩ := h.at_work hr hphase nofun rfl
  have hlatest := hwork.unopened (by rw [hphase]; rfl)
  refine h.store hr hrow (fun p hp => absurd hp (not_pending (fun _ => Phase.noConfusion) p))
    (row_reconcile h.named r.resources) ?_
    ((hwork.setup hlatest .resyncing r.checkpoints rfl nofun).good hnone)
  rintro x n ⟨s, hload⟩
  simp only [load_reconcile] at hload
  split_ifs at hload
  exact .inl ⟨s, hload⟩

theorem Inv.resyncs (hphase : r.phase = .resyncing) :
    Inv ({ w with members := r.resync.foldl Members.deleteStreamResourceCheckpoint w.members }.put i
      { r with phase := .loading }) := by
  obtain ⟨hnone, hwork, hrow⟩ := h.at_work hr hphase nofun rfl
  have hlatest := hwork.unopened (by rw [hphase]; rfl)
  refine h.store hr hrow (fun p hp => absurd hp (not_pending (fun _ => Phase.noConfusion) p))
    (fun x hx => ?_) ?_
    ((hwork.setup hlatest .loading r.checkpoints rfl nofun).good hnone)
  · rw [names_resync]
    exact h.named x (row_resync hx)
  · rintro x n ⟨s, hload⟩
    exact .inl ⟨s, load_resync hload⟩

theorem Inv.loads (hphase : r.phase = .loading) :
    Inv (w.put i { r with
      checkpoints := loadChangeCheckpoints w.members r.resources, phase := .waiting [] }) := by
  obtain ⟨hnone, hwork, -⟩ := h.at_work hr hphase nofun rfl
  have hlatest := hwork.unopened (by rw [hphase]; rfl)
  exact h.works hr id nofun ((hwork.setup hlatest _ _ rfl fun _ x hx =>
    lookup_loadChangeCheckpoints w.members hx).good hnone)

/-- The snapshot is opened after everything that is stored. -/
theorem Inv.snapshots (hphase : r.phase = .snapshotting) :
    Inv (w.put i { r with bootstrap := w.wal, phase := .positioning }) := by
  obtain ⟨hnone, hwork, -⟩ := h.at_work hr hphase nofun rfl
  have hlatest := hwork.unopened (by rw [hphase]; rfl)
  refine h.works hr id nofun (Working.good { hwork with
    loaded := fun _ => hwork.loaded (by rw [hphase]; rfl)
    opened := fun _ => ⟨Nat.le_refl _, h.below, h.ahead⟩
    watermark := nofun
    unopened := nofun
    latest := by simp [hlatest]
    marked := nofun } hnone)

theorem Inv.watermarks (hphase : r.phase = .positioning) :
    Inv (w.put i { r with watermark := w.wal, phase := .reading }) := by
  obtain ⟨hnone, hwork, -⟩ := h.at_work hr hphase nofun rfl
  have hopened := hwork.opened (by rw [hphase]; rfl)
  refine h.works hr id nofun (Working.good { hwork with
    loaded := fun _ => hwork.loaded (by rw [hphase]; rfl)
    opened := fun _ => hopened
    watermark := fun _ => hopened.1
    unopened := nofun
    marked := nofun } hnone)

theorem Inv.streams (hphase : r.phase = .reading) (hx : x ∈ r.resources)
    (hfloor : r.floor x = some floor) (hle : floor ≤ lsn) (hwal : lsn ≤ w.wal) :
    Inv (w.put i (r.report x lsn seq)) := by
  obtain ⟨hnone, hwork, -⟩ := h.at_work hr hphase nofun rfl
  have hreading : (r.report x lsn seq).phase = .reading := hphase
  refine h.works hr id (fun floor => by rw [hreading]; nofun) (Working.good { hwork with
    unopened := by rw [hreading]; nofun
    latest := fun cp hcp => ?_
    marked := by rw [hreading]; nofun } hnone)
  rcases mem_cons.1 hcp with rfl | hold
  · exact hwork.reported hphase hx hfloor hle hwal
  · exact hwork.latest cp (mem_of_mem_filter hold)

/-- The final position is past everything that is stored. -/
theorem Inv.marks (hphase : r.phase = .reading) (hle : r.watermark ≤ lsn) (hwal : lsn ≤ w.wal) :
    Inv (w.put i { r with
      latest := r.resources.map fun resource => (resource, .stream lsn seq), phase := .marked }) := by
  obtain ⟨hnone, hwork, -⟩ := h.at_work hr hphase nofun rfl
  have hopened := hwork.opened (by rw [hphase]; rfl)
  have hboot : r.bootstrap ≤ lsn := Nat.le_trans (hwork.watermark hphase) hle
  have hover : ∀ x n, w.holds x n → n ≤ lsn := fun x n hn =>
    Nat.le_trans (hopened.2.1 x n hn) hboot
  refine h.works hr id nofun (Working.good { hwork with
    loaded := fun _ => hwork.loaded (by rw [hphase]; rfl)
    opened := fun _ => hopened
    watermark := nofun
    unopened := nofun
    latest := fun cp hcp => ?_
    marked := fun _ => ⟨lsn, seq, fun cp hcp => ?_, hover⟩ } hnone)
  · obtain ⟨x, -, rfl⟩ := mem_map.1 hcp
    exact ⟨lsn, seq, rfl, hwal, hover x, fun _ => hboot⟩
  · obtain ⟨x, -, rfl⟩ := mem_map.1 hcp
    rfl

theorem Inv.ends (hpublished : r.published = none) (outcome : Outcome) :
    Inv (r.step w i (.ends i outcome)) := by
  have hwork := (h.good r (mem_of_getElem? hr)).working hpublished
  have hrow : r.row ≠ .ended := by
    rw [hwork.row]
    exact Row.noConfusion
  have hidle : r.row ≠ .active → r.latest = [] := fun hne => absurd hwork.row hne
  simp only [Run.step, hpublished, if_true]
  cases outcome with
  | completed =>
    split_ifs with hmarked
    · exact h.works hr (fun _ => hrow) nofun (Ending.good ⟨.inr ⟨rfl, rfl⟩, hidle, nofun, nofun,
        fun cp hcp => h.due hwork hcp, fun _ _ => hwork.marked hmarked⟩ (some_ne_none _))
    · exact h
  | paused =>
    exact h.works hr (fun _ => hrow) nofun (Ending.good ⟨.inl rfl, hidle, nofun, fun _ => hrow,
      fun cp hcp => h.due hwork hcp, nofun⟩ (some_ne_none _))
  | failed =>
    refine h.works hr (fun _ => hrow) nofun (Ending.good ⟨.inl rfl, fun _ => hwork.flushing,
      fun _ => hwork.flushing, nofun, fun cp hcp => ?_, nofun⟩ (some_ne_none _))
    rw [hwork.flushing] at hcp
    exact absurd hcp not_mem_nil

/-- **The tracker saves a cursor**, at or above everything that is about to be acknowledged. -/
theorem Inv.promotes {resource : String} {cursor : StoredCursor}
    (hlookup : r.flushing.lookup resource = some cursor)
    (hsave : w.members.saveStreamResourceCheckpoint resource cursor = some members) :
    Inv ({ w with members := members }.put i
      { r with flushing := r.flushing.filter fun cp => cp.1 != resource }) := by
  have hmem := mem_of_getElem? hr
  have hgood := h.good r hmem
  have hcp : (resource, cursor) ∈ r.flushing := by
    obtain ⟨before, after, hsplit, -⟩ := lookup_eq_some_iff.1 hlookup
    rw [hsplit]
    exact mem_append_right _ (.head _)
  have hne : r.flushing ≠ [] := ne_nil_of_mem hcp
  have hpublished : r.published ≠ none := fun hnone => hne (hgood.working hnone).flushing
  have hend := hgood.ending hpublished
  have hactive : r.row = .active := by
    by_contra hrow
    exact hne (hend.idle hrow)
  obtain ⟨n, s, hcursor, hwal, hpend⟩ := hend.flushing _ hcp
  dsimp only at hcursor
  have hholds : ∀ x m, ({ w with members := members } : World).holds x m →
      w.holds x m ∨ (x = resource ∧ m = n) := by
    rintro x m ⟨s', hload⟩
    simp only [load_save hsave] at hload
    split_ifs at hload with hx
    · rw [hcursor] at hload
      cases hload
      exact .inr ⟨hx, rfl⟩
    · exact .inl ⟨s', hload⟩
  refine h.store hr (by rw [hactive]; exact Row.noConfusion) (fun p hp => hp) (fun x hx => ?_)
    (fun x m hm => ?_) ?_
  · rw [names_save hsave]
    by_cases hxr : x = resource
    · exact h.named x (hxr ▸ row_of_save hsave)
    · refine h.named x fun hnone => hx ?_
      have hrow := row_save hsave
      rw [hrow, Function.update_of_ne hxr, hnone]
  · rcases hholds x m hm with hold | ⟨-, rfl⟩
    · exact .inl hold
    · exact .inr ⟨hwal, hpend⟩
  · have hpends : ∀ p, (({ w with members := members } : World).put i { r with
        flushing := r.flushing.filter fun cp => cp.1 != resource }).pends p → w.pends p := by
      intro p hp
      exact (pends_put hp).elim id fun hp' => ⟨r, hmem, hp'⟩
    refine Ending.good { hend with
      idle := fun hrow => absurd hactive hrow
      failed := fun hf => absurd (hend.failed hf) hne
      flushing := fun cp hcp' => ?_
      completed := fun hcompleted _ => ?_ } hpublished
    · obtain ⟨n', s', hc, hle, hp⟩ := hend.flushing cp (mem_of_mem_filter hcp')
      exact ⟨n', s', hc, hle, fun p hpp => hp p (hpends p hpp)⟩
    · obtain ⟨n', s', hall, hover⟩ := hend.completed hcompleted hne
      refine ⟨n', s', fun cp hcp' => hall cp (mem_of_mem_filter hcp'), fun x m hm => ?_⟩
      rcases hholds x m hm with hold | ⟨-, rfl⟩
      · exact hover x m hold
      have hlevel : cursor = .stream n' s' := hall _ hcp
      rw [hlevel] at hcursor
      cases hcursor
      exact Nat.le_refl _

theorem Inv.settles (hflushing : r.flushing = []) {outcome : Outcome}
    (hpublished : r.published = some outcome) (row : Row) (hrow : row ≠ .ended → outcome = .paused)
    (hend : outcome = .paused → row ≠ .ended) :
    Inv (w.put i { r with row := row }) := by
  have hne : r.published ≠ none := by simp [hpublished]
  have hending := (h.good r (mem_of_getElem? hr)).ending hne
  refine h.put hr (fun hr' => ?_) (fun p hp => ⟨r, mem_of_getElem? hr, hp⟩)
    (Ending.good { hending with
      idle := fun _ => hflushing
      resumable := fun hp => hend (mem_unique hpublished hp) } hne)
  exact hending.resumable (by rw [hpublished, hrow hr'])

/-- **Every undisturbed event keeps the invariant.** -/
theorem Inv.runStep (hundisturbed : Undisturbed w event) : Inv (r.step w i event) := by
  cases event with
  | advances n => exact h
  | creates resources resync => exact h
  | resumes j =>
    exact guarded h fun hrow =>
      h.works hr (fun _ => by rw [hrow]; nofun) nofun (Good.create w ..)
  | reconciles j => exact guarded h (h.reconciles hr)
  | resyncs j => exact guarded h (h.resyncs hr)
  | loads j => exact guarded h (h.loads hr)
  | waits j =>
    simp only [Run.step]
    split
    · next targets hphase =>
      split_ifs
      · exact h.next hr (by rw [hphase]; rfl) .listing rfl fun _ => Phase.noConfusion
      · exact h
    · exact h
  | lists j =>
    simp only [Run.step]
    split_ifs with hphase
    · have hlists := h.lists hr hphase hundisturbed
      split
      · exact h.acknowledged hr (by rw [hphase]; rfl)
      · next cp cps hroute =>
        rw [hroute] at hlists
        exact hlists
    · exact h
  | calls j =>
    simp only [Run.step]
    split
    · next floor hphase => exact (h.slot _).acknowledged hr (by rw [hphase]; rfl)
    · exact h
  | skips j =>
    simp only [Run.step]
    split
    · next targets hphase => exact h.acknowledged hr (by rw [hphase]; rfl)
    · next hphase => exact h.acknowledged hr (by rw [hphase]; rfl)
    · exact h
  | snapshots j =>
    simp only [Run.step]
    split
    · exact h
    · exact guarded h fun hopen => h.snapshots hr hopen.1
  | watermarks j => exact guarded h (h.watermarks hr)
  | streams j resource lsn seq =>
    simp only [Run.step]
    split
    · exact h
    · next floor hfloor =>
      exact guarded h fun hguard =>
        h.streams hr hguard.1 hguard.2.1 hfloor hguard.2.2.1 hguard.2.2.2
  | marks j lsn seq => exact guarded h fun hguard => h.marks hr hguard.1 hguard.2.1 hguard.2.2
  | ends j outcome =>
    by_cases hpublished : r.published = none
    · exact h.ends hr hpublished outcome
    · simp only [Run.step, if_neg hpublished]
      exact h
  | promotes j resource =>
    simp only [Run.step]
    split
    · exact h
    · next cursor hlookup =>
      split
      · exact h
      · next members hsave => exact h.promotes hr hlookup hsave
  | settles j =>
    simp only [Run.step]
    split_ifs with hflushing
    · split
      · exact h
      · next hpublished =>
        exact h.settles hr hflushing hpublished .paused (fun _ => rfl) nofun
      · next outcome hpaused hpublished =>
        refine h.settles hr hflushing hpublished .ended (fun hne => absurd rfl hne) ?_
        rintro rfl
        exact absurd rfl hpaused
    · exact h

end

theorem Inv.step (h : Inv w) (hundisturbed : Undisturbed w event) : Inv (step w event) := by
  unfold Acknowledge.step
  split
  · exact h.advances _
  · split_ifs with hended
    · refine h.creates (fun r hr => ?_) ..
      simpa using all_eq_true.1 hended r hr
    · exact h
  · split
    · exact h
    · next hr => exact h.runStep hr hundisturbed
  · exact h

theorem inv_run {wal slot : LSN} {events : List Event}
    (h : Trace.Along step Undisturbed (World.fresh wal slot) events) :
    Inv (run step (World.fresh wal slot) events) :=
  inv_run_of_along (fun _ _ hinv hu => hinv.step hu) (Inv.fresh wal slot) h

/-! ### Every call -/

/-- The position that the run `i` is about to acknowledge is at or below the stored cursor of every
active resource of the stream. -/
def CallSafe (w : World) (i : ℕ) : Prop :=
  ∀ r, w.runs[i]? = some r → ∀ floor, r.phase = .calling floor → ∀ p, position floor = some p →
    ∀ x n seq, w.members.load x = some (.stream n seq) → p ≤ n

/-- **The slot is never advanced past a resource.**  In every history of runs over any resources in
which no acknowledgement lists the stored cursors while the tracker is saving those of a paused run,
every call of `AcknowledgeChanges` is at or below the stored cursor of every active resource. -/
theorem acknowledge_safe (wal slot : LSN) (events : List Event)
    (h : Trace.Along step Undisturbed (World.fresh wal slot) events) :
    ∀ before i after, events = before ++ .calls i :: after →
      CallSafe (Trace.run step (World.fresh wal slot) before) i := by
  rintro before i after rfl r hr floor hphase p hp x n seq hload
  have hinv := inv_run (Trace.along_append.1 h).1
  exact hinv.safe p ⟨r, mem_of_getElem? hr, floor, hphase, hp⟩ x n ⟨seq, hload⟩

/-! ### A listing in the middle of a flush -/

instance (w : World) : ∀ event, Decidable (Undisturbed w event)
  | .lists _ => inferInstanceAs (Decidable (∀ r ∈ w.runs, _))
  | .advances _ | .creates _ _ | .resumes _ | .reconciles _ | .resyncs _ | .loads _ | .waits _
  | .calls _ | .skips _ | .snapshots _ | .watermarks _ | .streams _ _ _ _ | .marks _ _ _
  | .ends _ _ | .promotes _ _ | .settles _ => .isTrue trivial

namespace Demo

/-- A first run completes `users` at 50.  While its last acknowledgement is slow, a second run
bootstraps `orders` at 60, is paused with `orders` at 65 and `users` at 80, and the tracker has saved
the cursor of `users`. -/
def flushing : List Event :=
  [.creates ["users"] [], .reconciles 0, .resyncs 0, .loads 0, .waits 0, .lists 0, .snapshots 0,
    .watermarks 0, .marks 0 50 1, .ends 0 .completed, .promotes 0 "users", .settles 0, .waits 0,
    .advances 10, .creates ["users", "orders"] [], .reconciles 1, .resyncs 1, .loads 1, .waits 1,
    .lists 1, .calls 1, .snapshots 1, .advances 30, .watermarks 1, .streams 1 "orders" 65 2,
    .streams 1 "users" 80 3, .ends 1 .paused, .promotes 1 "users"]

end Demo

/-- The first run lists the cursors once those of the second are all saved: it acknowledges 65. -/
theorem listed_after_flush :
    CallSafe (Trace.run step (World.fresh 50 0)
      (Demo.flushing ++ [.promotes 1 "orders", .lists 0])) 0 ∧
    ((Trace.run step (World.fresh 50 0)
      (Demo.flushing ++ [.promotes 1 "orders", .lists 0])).runs[0]?.map Run.phase) =
        some (.calling [("users", .stream 80 3), ("orders", .stream 65 2)]) :=
  ⟨acknowledge_safe 50 0 (Demo.flushing ++ [.promotes 1 "orders", .lists 0] ++ [.calls 0])
    (by decide +kernel) _ 0 [] rfl, by decide +kernel⟩

/-- The first run lists the cursors between the two saves of the second: it calls
`AcknowledgeChanges` with 80 while the stored cursor of `orders` is 65. -/
theorem listed_during_flush :
    let w := Trace.run step (World.fresh 50 0)
      (Demo.flushing ++ [.lists 0, .promotes 1 "orders"])
    (w.runs[0]?.map Run.phase) = some (.calling [("users", .stream 80 3)]) ∧
      position [("users", .stream 80 3)] = some 80 ∧
      w.members.load "orders" = some (.stream 65 2) ∧
      acknowledgeChanges w.slot [("users", .stream 80 3)] = 80 := by
  decide +kernel

end Filament.Acknowledge
