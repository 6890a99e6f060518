import Filament.Intake.Scheduler

/-!
# A schedule advances past an occurrence

The scheduler moves a schedule past an occurrence when every compiled route has been submitted, or
when a run of an earlier occurrence is active under the skip policy.  A failed submission leaves the
runs of the routes before it; the tick that serves the occurrence again finds them active and takes
the second way out.

* `submit_run` : `submit` is a run of the calls of `Submit`;
* `Unbroken` : the condition on serving a schedule whose occurrence has runs already;
* `Inv` : every run of the table past scheduled stems from a submission, and no submission is for a
  later occurrence than the schedule's next one;
* `occurrence_whole` : **in every run of ticks that meets the condition, the scheduler advances only
  past whole occurrences**, and a route at an occurrence has one run.
-/

namespace Filament.Scheduler

open List Function World

open Intake (Row Reply createRun inspect)

/-! ### The rows -/

variable {occurrence : ℕ} {st : ScheduleState} {schedules : List ScheduleState}

/-- Every row of the table meets `P`. -/
def All (P : RunID → Filed → Prop) (rows : Rows) : Prop :=
  ∀ id f, rows.lookup id = some f → P id f

namespace All

variable {P Q : RunID → Filed → Prop} {rows : Rows} {id : RunID}

section

variable (h : All P rows)
include h

theorem mono (hPQ : ∀ id f, P id f → Q id f) : All Q rows :=
  fun id f hf => hPQ id f (h id f hf)

theorem insert {f : Filed} (hf : P id f) : All P (rows.insert id f) := by
  intro id' f' hlookup
  by_cases hid : id' = id
  · subst hid
    rw [AList.lookup_insert] at hlookup
    exact Option.some.inj hlookup ▸ hf
  · rw [AList.lookup_insert_ne hid] at hlookup
    exact h id' f' hlookup

theorem erase (id : RunID) : All P (rows.erase id) := by
  intro id' f' hlookup
  by_cases hid : id' = id
  · subst hid
    rw [AList.lookup_erase] at hlookup
    cases hlookup
  · rw [AList.lookup_erase_ne hid] at hlookup
    exact h id' f' hlookup

theorem eraseAll (ids : List RunID) :
    All P (ids.foldl (fun rows id => rows.erase id) rows) := by
  induction ids generalizing rows with
  | nil => exact h
  | cons id ids ih => exact ih (h.erase id)

end

variable {sha1 : String → String}

theorem schedule (h : All P rows) (hnew : ∀ route row, row.status = .runScheduled →
      P (runID sha1 st.spec ⟨st.id, occurrence, route⟩) ⟨⟨st.id, occurrence, route⟩, row⟩)
    (routes : List (String × Reply)) : All P (schedule sha1 st occurrence rows routes) := by
  induction routes generalizing rows with
  | nil => exact h
  | cons r routes ih =>
    obtain ⟨route, _ | _⟩ := r
    · simp only [Scheduler.schedule]
      split
      · next row hrow =>
        refine ih (h.insert (hnew route row ?_))
        unfold createRun at hrow
        split at hrow
        · cases hrow
          rfl
        · split_ifs at hrow
          · cases hrow
            rfl
          · cases hrow
      · exact ih h
    · exact h

theorem reconcileScheduled (h : All P rows)
    (hnew : ∀ occurrence route row, row.status = .runScheduled →
      P (runID sha1 st.spec ⟨st.id, occurrence, route⟩) ⟨⟨st.id, occurrence, route⟩, row⟩)
    (r : Reconcile) : All P (reconcileScheduled sha1 rows st r) := by
  unfold Scheduler.reconcileScheduled
  split
  · exact h
  dsimp only
  split_ifs
  · exact h.eraseAll _
  · split
    · exact (h.eraseAll _).schedule (hnew _) _
    · exact h.eraseAll _

/-- A submission files at most the row of its own route. -/
theorem submit (h : All P rows) {key : Key} {r : Replies}
    (hnew : (submit rows id key r).1 ≠ .failed → ∀ row, P id ⟨key, row⟩) :
    All P (submit rows id key r).2 := by
  unfold Scheduler.submit at hnew ⊢
  split
  · next row hcreate hcreated =>
    rw [hcreate, hcreated] at hnew
    split
    · next hdispatch =>
      rw [hdispatch] at hnew
      exact h.insert (hnew (nofun) row)
    · exact h.erase id
    · next hdispatch hdelete =>
      rw [hdispatch, hdelete] at hnew
      exact h.insert (hnew (nofun) row)
  · split <;> exact h
  · exact h

end All

/-! ### A submission is a run of `Submit` -/

/-- The rows as intake reads them. -/
def view (rows : Rows) (id : RunID) : Option Row := (rows.lookup id).map Filed.row

theorem view_insert (rows : Rows) (id : RunID) (f : Filed) :
    view (rows.insert id f) = Function.update (view rows) id (some f.row) := by
  funext id'
  by_cases hid : id' = id
  · subst hid
    simp [view]
  · simp [view, AList.lookup_insert_ne hid, update_of_ne hid]

theorem view_erase (rows : Rows) (id : RunID) :
    view (rows.erase id) = Function.update (view rows) id none := by
  funext id'
  by_cases hid : id' = id
  · subst hid
    simp [view]
  · simp [view, AList.lookup_erase_ne hid, update_of_ne hid]

/-- The replies in the order in which `Submit` meets them. -/
def Replies.sequence (r : Replies) (existing : Option Row) : List Reply :=
  match (createRun existing ⟨.runRequested, false, false⟩).1 with
  | .created => [r.create, r.dispatch, r.delete]
  | .conflict => [r.create, r.load, r.dispatch]

theorem inspect_cases (row : Row) : inspect row = .accepted ∨ inspect row = .dispatching false := by
  unfold inspect
  split_ifs <;> simp

/-- **`submit` is what a single call of `Submit` does to the table**, and it is accepted when the
call is. -/
theorem submit_run (sha1 : String → String) (spec : ScheduleSpec) (key : Key) (rows : Rows)
    (r : Replies) :
    let id := runID sha1 spec key
    let w := Trace.run (Intake.step sha1) (Intake.World.start (view rows))
      (.begins (request spec key) "" ::
        (r.sequence (view rows id)).map fun reply => .steps 0 false reply)
    w.rows = view (submit rows id key r).2 ∧
      ((submit rows id key r).1 = .accepted ↔ w.calls.map Intake.Call.phase = [.accepted]) := by
  intro id w
  have hcontinuous : (request spec key).continuous = false := rfl
  have hid : Intake.idFor sha1 "" (request spec key) = id := rfl
  have hrow : (rows.lookup id).map Filed.row = view rows id := rfl
  obtain ⟨create, load, dispatch, delete⟩ := r
  cases hcase : view rows id with
  | none =>
    simp only [w, submit, hrow, hcase, createRun, Replies.sequence]
    cases create <;> cases dispatch <;> cases delete <;>
      simp [Intake.step, Intake.World.start, hid, hcontinuous, Intake.Call.step, hcase, createRun,
        Intake.filed, Intake.World.move, Intake.World.write, Intake.dispatched, view_insert, view_erase]
  | some row =>
    by_cases hscheduled : row.status = .runScheduled
    · simp only [w, submit, hrow, hcase, createRun, if_pos hscheduled, Replies.sequence]
      cases create <;> cases dispatch <;> cases delete <;>
        simp [Intake.step, Intake.World.start, hid, hcontinuous, Intake.Call.step, hcase, createRun,
          Intake.filed, Intake.World.move, Intake.World.write, Intake.dispatched, view_insert,
          view_erase, hscheduled]
    · simp only [w, submit, hrow, hcase, createRun, if_neg hscheduled, Replies.sequence]
      rcases inspect_cases row with hinspect | hinspect <;>
        cases create <;> cases load <;> cases dispatch <;>
        simp [Intake.step, Intake.World.start, hid, hcontinuous, Intake.Call.step, hcase, createRun,
          Intake.World.move, Intake.dispatched, redispatched, hscheduled, hinspect]

/-! ### What holds along a run of ticks -/

/-- The ids and definitions of the schedules. -/
def World.specs (w : World) : List (String × ScheduleSpec) :=
  w.schedules.map fun s => (s.id, s.spec)

/-- The next fire of a schedule. -/
def World.nextFireOf (w : World) (id : String) : Option ℕ :=
  (w.schedules.find? fun s => s.id = id).bind ScheduleState.nextFire

/-- The id is the one the route's run is filed under. -/
def Named (sha1 : String → String) (specs : List (String × ScheduleSpec)) (key : Key)
    (id : RunID) : Prop :=
  ∃ spec, (key.schedule, spec) ∈ specs ∧ id = runID sha1 spec key

/-- A row past scheduled was filed by a submission for its route. -/
def Stems (submits : List Submitted) (f : Filed) : Prop :=
  f.row.status = .runScheduled ∨ ∃ s ∈ submits, s.key = f.key ∧ s.outcome ≠ .failed

/-- What a row of the table meets. -/
def RowOK (sha1 : String → String) (w : World) (id : RunID) (f : Filed) : Prop :=
  Named sha1 w.specs f.key id ∧ Stems w.submits f

/-- A claimed schedule is the one in the table, at an occurrence that has come. -/
structure Claimed (w : World) (st : ScheduleState) : Prop where
  spec : (st.id, st.spec) ∈ w.specs
  current : w.nextFireOf st.id = st.nextFire
  due : ∃ o, st.nextFire = some o ∧ o ≤ w.clock

/-- What holds along every run of ticks. -/
structure Inv (sha1 : String → String) (w : World) : Prop where
  distinct : (w.specs.map Prod.fst).Nodup
  batch : (w.batch.map ScheduleState.id).Nodup
  claimed : ∀ st ∈ w.batch, Claimed w st
  rows : All (RowOK sha1 w) w.rows
  named : ∀ s ∈ w.submits, Named sha1 w.specs s.key s.id
  reached : ∀ s ∈ w.submits, ∀ o, w.nextFireOf s.key.schedule = some o → s.key.occurrence ≤ o

/-- The first state: some schedules, before any run. -/
def World.start (schedules : List ScheduleState) (clock : ℕ) : World := ⟨schedules, ∅, [], clock, []⟩

theorem Inv.start (clock : ℕ) (h : (schedules.map ScheduleState.id).Nodup) :
    Inv sha1 (World.start schedules clock) where
  distinct := by
    simp only [World.specs, World.start, map_map]
    exact h
  batch := nodup_nil
  claimed := by simp [World.start]
  rows := by simp [World.start, All]
  named := by simp [World.start]
  reached := by simp [World.start]

variable {sha1 : String → String} {w : World} {rows : Rows}

theorem Inv.rowsChange (h : Inv sha1 w) (hrows : All (RowOK sha1 w) rows) :
    Inv sha1 { w with rows := rows } :=
  { h with
      claimed := fun st hst => { h.claimed st hst with }
      rows := hrows }

theorem Inv.reconcileScheduled (h : Inv sha1 w) (hst : (st.id, st.spec) ∈ w.specs) (r : Reconcile) :
    Inv sha1 { w with rows := reconcileScheduled sha1 w.rows st r } :=
  h.rowsChange (h.rows.reconcileScheduled
    (fun _ _ _ hrow => ⟨⟨st.spec, hst, rfl⟩, .inl hrow⟩) r)

/-! ### Changes of the schedules -/

variable {f : ScheduleState → ScheduleState}

theorem specs_map (hf : ∀ s ∈ w.schedules, (f s).id = s.id ∧ (f s).spec = s.spec) :
    specs { w with schedules := w.schedules.map f } = w.specs := by
  simp only [specs, map_map]
  refine map_congr_left fun s hs => ?_
  simp [hf s hs]

theorem nextFireOf_map (hf : ∀ s, (f s).id = s.id) (id : String) :
    nextFireOf { w with schedules := w.schedules.map f } id =
      (w.schedules.find? fun s => s.id = id).bind fun s => (f s).nextFire := by
  simp only [nextFireOf, find?_map, comp_def, hf, Option.bind_map]

theorem nextFireOf_leases
    (hf : ∀ s, (f s).id = s.id ∧ (f s).spec = s.spec ∧ (f s).nextFire = s.nextFire) (id : String) :
    nextFireOf { w with schedules := w.schedules.map f } id = w.nextFireOf id := by
  rw [nextFireOf_map fun s => (hf s).1]
  simp only [(hf _).2.2]
  rfl

theorem nextFireOf_saveSchedule_self (hst : (st.id, st.spec) ∈ w.specs) :
    (w.saveSchedule st .ok).nextFireOf st.id = st.nextFire := by
  unfold saveSchedule
  rw [nextFireOf_map (by intro s; split_ifs with hid <;> simp [hid])]
  obtain ⟨s, hs, heq⟩ := mem_map.1 hst
  cases hfind : w.schedules.find? fun s => s.id = st.id with
  | none =>
    have := find?_eq_none.1 hfind s hs
    exact absurd (Prod.mk.inj heq).1 (by simpa using this)
  | some s' =>
    have hid : s'.id = st.id := by simpa using find?_some hfind
    rw [Option.bind_some, if_pos hid]

theorem nextFireOf_saveSchedule_ne {id : String} (hid : id ≠ st.id) :
    (w.saveSchedule st .ok).nextFireOf id = w.nextFireOf id := by
  unfold saveSchedule
  rw [nextFireOf_map (by intro s; split_ifs with hid <;> simp [hid])]
  unfold nextFireOf
  cases hfind : w.schedules.find? fun s => s.id = id with
  | none => rfl
  | some s' =>
    have hid' : s'.id = id := by simpa using find?_some hfind
    rw [Option.bind_some, Option.bind_some, if_neg (hid' ▸ hid)]

section

variable (h : Inv sha1 w)
include h

theorem Inv.leases (hf : ∀ s, (f s).id = s.id ∧ (f s).spec = s.spec ∧ (f s).nextFire = s.nextFire) :
    Inv sha1 { w with schedules := w.schedules.map f } := by
  have hspecs : specs { w with schedules := w.schedules.map f } = w.specs :=
    specs_map fun s _ => ⟨(hf s).1, (hf s).2.1⟩
  have hnext := nextFireOf_leases (w := w) hf
  refine ⟨hspecs ▸ h.distinct, h.batch, fun st hst => ?_, h.rows.mono fun id f' hf' => ?_,
    fun s hs => ?_, fun s hs o ho => h.reached s hs o (hnext _ ▸ ho)⟩
  · have hc := h.claimed st hst
    exact ⟨hspecs ▸ hc.spec, (hnext _).trans hc.current, hc.due⟩
  · exact ⟨hspecs ▸ hf'.1, hf'.2⟩
  · exact hspecs ▸ h.named s hs

theorem Inv.spec_unique {id : String} {spec spec' : ScheduleSpec} (hs : (id, spec) ∈ w.specs)
    (hs' : (id, spec') ∈ w.specs) : spec = spec' := by
  have := inj_on_of_nodup_map h.distinct hs hs' rfl
  exact (Prod.mk.inj this).2

theorem specs_saveSchedule (hst : (st.id, st.spec) ∈ w.specs) :
    (w.saveSchedule st .ok).specs = w.specs := by
  refine specs_map fun s hs => ?_
  split_ifs with hid
  · refine ⟨hid.symm, h.spec_unique hst ?_⟩
    rw [← hid]
    exact mem_map_of_mem hs
  · exact ⟨rfl, rfl⟩

/-- A schedule is saved at its current occurrence or at one that is still to come. -/
theorem Inv.saveSchedule {st' : ScheduleState} (hst : Claimed w st)
    (hbatch : st.id ∉ w.batch.map ScheduleState.id) (hid : st'.id = st.id)
    (hspec : st'.spec = st.spec)
    (hnext : st'.nextFire = st.nextFire ∨ ∃ t, st'.nextFire = some t ∧ w.clock < t) (reply : Reply) :
    Inv sha1 (w.saveSchedule st' reply) := by
  cases reply with
  | error => exact h
  | ok =>
  have hmem : (st'.id, st'.spec) ∈ w.specs := by
    rw [hid, hspec]
    exact hst.spec
  have hspecs := specs_saveSchedule h hmem
  refine ⟨hspecs ▸ h.distinct, h.batch, fun b hb => ?_, h.rows.mono fun id f hf => ?_,
    fun s hs => ?_, fun s hs o ho => ?_⟩
  · have hc := h.claimed b hb
    have hne : b.id ≠ st'.id := by
      rintro heq
      exact hbatch (hid ▸ heq ▸ mem_map_of_mem hb)
    exact ⟨hspecs ▸ hc.spec, (nextFireOf_saveSchedule_ne hne).trans hc.current, hc.due⟩
  · exact ⟨hspecs ▸ hf.1, hf.2⟩
  · exact hspecs ▸ h.named s hs
  · by_cases hkey : s.key.schedule = st'.id
    · rw [hkey, nextFireOf_saveSchedule_self hmem] at ho
      obtain ⟨o', ho', hdue⟩ := hst.due
      have hle : s.key.occurrence ≤ o' := by
        apply h.reached s hs o'
        rw [hkey, hid, hst.current, ho']
      rcases hnext with hsame | ⟨t, ht, hlt⟩
      · rw [hsame, ho'] at ho
        exact Option.some.inj ho ▸ hle
      · rw [ht] at ho
        have := Option.some.inj ho
        omega
    · rw [nextFireOf_saveSchedule_ne hkey] at ho
      exact h.reached s hs o ho

end

/-! ### Firing an occurrence -/

variable {w' w'' : World} {o now : ℕ}

/-- What `fire` leaves alone, and what it adds: submissions for routes of the occurrence. -/
structure Fires (w w' : World) (st : ScheduleState) (occurrence : ℕ) : Prop where
  schedules : w'.schedules = w.schedules
  batch : w'.batch = w.batch
  clock : w'.clock = w.clock
  submits : ∃ new, w'.submits = w.submits ++ new ∧
    ∀ s ∈ new, s.key.schedule = st.id ∧ s.key.occurrence = occurrence

theorem Fires.refl (w : World) (st : ScheduleState) (occurrence : ℕ) : Fires w w st occurrence :=
  ⟨rfl, rfl, rfl, [], (append_nil _).symm, by simp⟩

theorem Fires.mem (h : Fires w w' st occurrence) {s : Submitted} (hs : s ∈ w.submits) :
    s ∈ w'.submits := by
  obtain ⟨new, hnew, -⟩ := h.submits
  rw [hnew]
  exact mem_append_left new hs

theorem Fires.trans (h : Fires w w' st occurrence) (h' : Fires w' w'' st occurrence) :
    Fires w w'' st occurrence := by
  obtain ⟨new, hnew, hkeys⟩ := h.submits
  obtain ⟨new', hnew', hkeys'⟩ := h'.submits
  refine ⟨h'.schedules.trans h.schedules, h'.batch.trans h.batch, h'.clock.trans h.clock,
    new ++ new', ?_, fun s hs => ?_⟩
  · rw [hnew', hnew, append_assoc]
  · exact (mem_append.1 hs).elim (hkeys s) (hkeys' s)

variable (sha1 w) in
/-- One submission of `fire`. -/
def World.submitRoute (key : Key) (spec : ScheduleSpec) (r : Replies) : World :=
  { w with
    rows := (submit w.rows (runID sha1 spec key) key r).2
    submits := w.submits ++ [⟨key, runID sha1 spec key,
      (submit w.rows (runID sha1 spec key) key r).1⟩] }

section

variable (h : Inv sha1 w) (hst : Claimed w st) (ho : st.nextFire = some o)
include h hst ho

theorem Inv.submitRoute (route : String) (r : Replies) :
    Inv sha1 (w.submitRoute sha1 ⟨st.id, o, route⟩ st.spec r) := by
  have hmem : ∀ s, s ∈ (w.submitRoute sha1 ⟨st.id, o, route⟩ st.spec r).submits →
      s ∈ w.submits ∨ s = ⟨⟨st.id, o, route⟩, runID sha1 st.spec ⟨st.id, o, route⟩,
        (submit w.rows (runID sha1 st.spec ⟨st.id, o, route⟩) ⟨st.id, o, route⟩ r).1⟩ := by
    intro s hs
    exact (mem_append.1 hs).imp_right mem_singleton.1
  refine ⟨h.distinct, h.batch, fun b hb => { h.claimed b hb with }, ?_, fun s hs => ?_,
    fun s hs o' ho' => ?_⟩
  · have hold : All (RowOK sha1 (w.submitRoute sha1 ⟨st.id, o, route⟩ st.spec r))
        w.rows := h.rows.mono fun id f hf => ⟨hf.1, hf.2.imp_right fun ⟨s, hs, hkey⟩ =>
          ⟨s, mem_append_left _ hs, hkey⟩⟩
    refine hold.submit fun hfiled row => ⟨⟨st.spec, hst.spec, rfl⟩, .inr ?_⟩
    exact ⟨_, mem_concat_self, rfl, hfiled⟩
  · rcases hmem s hs with hold | rfl
    · exact h.named s hold
    · exact ⟨st.spec, hst.spec, rfl⟩
  · rcases hmem s hs with hold | rfl
    · exact h.reached s hold o' ho'
    · have hnext : some o = some o' := ho.symm.trans (hst.current.symm.trans ho')
      exact Nat.le_of_eq (Option.some.inj hnext)

/-- **`fire` keeps what holds along a run**, and reports success when every route has been accepted. -/
theorem Inv.fire (routes : List (String × Replies)) :
    Inv sha1 (fire sha1 w st o routes).2 ∧ Fires w (fire sha1 w st o routes).2 st o ∧
      ((fire sha1 w st o routes).1 = true → ∀ r ∈ routes,
        ∃ s ∈ (fire sha1 w st o routes).2.submits, s.key = ⟨st.id, o, r.1⟩ ∧
          s.outcome = .accepted) := by
  induction routes generalizing w with
  | nil => exact ⟨h, Fires.refl w st o, by simp⟩
  | cons r routes ih =>
    obtain ⟨route, replies⟩ := r
    have hone : Fires w (w.submitRoute sha1 ⟨st.id, o, route⟩ st.spec replies) st o :=
      ⟨rfl, rfl, rfl, _, rfl, by simp⟩
    have hinv := h.submitRoute hst ho route replies
    have hclaimed : Claimed (w.submitRoute sha1 ⟨st.id, o, route⟩ st.spec replies) st :=
      { hst with }
    simp only [Scheduler.fire]
    split_ifs with haccepted
    · obtain ⟨hinv', hfires, hall⟩ := ih hinv hclaimed
      refine ⟨hinv', hone.trans hfires, fun hok r hr => ?_⟩
      rcases mem_cons.1 hr with rfl | hr
      · refine ⟨⟨_, runID sha1 st.spec ⟨st.id, o, route⟩, _⟩, hfires.mem ?_, rfl, haccepted⟩
        exact mem_append_right w.submits (mem_singleton_self _)
      · exact hall hok r hr
    · exact ⟨hinv, hone, fun hfalse => hfalse.elim⟩

end

/-! ### Serving a schedule -/

/-- The two ways past an occurrence: every compiled route has been accepted, or none has and a run of
an earlier occurrence is active. -/
def Whole (w w' : World) (id : String) (o : ℕ) (routes : Option (List (String × Replies))) : Prop :=
  (∃ rs, routes = some rs ∧ ∀ r ∈ rs, ∃ s ∈ w'.submits, s.key = ⟨id, o, r.1⟩ ∧
    s.outcome = .accepted) ∨
  (∀ s ∈ w'.submits, s.key.schedule = id → s.key.occurrence = o → s.outcome ≠ .accepted) ∧
    ∃ run f, w.rows.lookup run = some f ∧ f.key.schedule = id ∧ f.key.occurrence < o ∧
      active f.row.status = true

/-- The condition on serving a schedule that skips: when a submission for its occurrence has left a
run, none of the schedule's runs is active. -/
def Unbroken (w : World) : Event → Prop
  | .serves _ => ∀ st ∈ w.batch.head?, st.spec.overlap = .overlapSkip →
      (∃ s ∈ w.submits, s.key.schedule = st.id ∧ some s.key.occurrence = st.nextFire ∧
        s.outcome ≠ .failed) → hasActiveRuns w.rows st.id = false
  | _ => True

theorem exists_of_hasActiveRuns {schedule : String} (h : hasActiveRuns rows schedule = true) :
    ∃ run f, rows.lookup run = some f ∧ f.key.schedule = schedule ∧
      active f.row.status = true := by
  obtain ⟨⟨run, f⟩, hmem, hf⟩ := any_eq_true.1 h
  simp only [Bool.and_eq_true, decide_eq_true_eq] at hf
  exact ⟨run, f, AList.mem_lookup_iff.2 hmem, hf⟩

theorem not_scheduled_of_active {status : RunStatus} (h : active status = true) :
    status ≠ .runScheduled := by
  rintro rfl
  cases h

/-- An active run found while the occurrence has left none is of an earlier occurrence. -/
theorem Inv.earlier (h : Inv sha1 w) (hst : Claimed w st) (ho : st.nextFire = some o)
    (hactive : hasActiveRuns w.rows st.id = true)
    (hnone : ∀ s ∈ w.submits, s.key.schedule = st.id → s.key.occurrence = o →
      s.outcome = .failed) :
    ∃ run f, w.rows.lookup run = some f ∧ f.key.schedule = st.id ∧ f.key.occurrence < o ∧
      active f.row.status = true := by
  obtain ⟨run, f, hlookup, hschedule, hf⟩ := exists_of_hasActiveRuns hactive
  refine ⟨run, f, hlookup, hschedule, ?_, hf⟩
  obtain ⟨s, hs, hkey, hfiled⟩ :=
    (h.rows run f hlookup).2.resolve_left (not_scheduled_of_active hf)
  have hle : s.key.occurrence ≤ o := by
    apply h.reached s hs o
    rw [hkey, hschedule, hst.current, ho]
  have hne : s.key.occurrence ≠ o := fun heq =>
    hfiled (hnone s hs (by rw [hkey, hschedule]) heq)
  rw [hkey] at hle hne
  omega

theorem claim_fields (p : ScheduleState → Prop) [DecidablePred p] (at' : Option ℕ)
    (s : ScheduleState) :
    let s' := if p s then { s with claimedAt := at' } else s
    s'.id = s.id ∧ s'.spec = s.spec ∧ s'.nextFire = s.nextFire := by
  intro s'
  by_cases hp : p s <;> simp [s', hp]

theorem releaseScheduleClaim_inv (h : Inv sha1 w) (id : String) (reply : Reply) :
    Inv sha1 (w.releaseScheduleClaim id reply) := by
  cases reply with
  | ok => exact h.leases (claim_fields _ _)
  | error => exact h

theorem nextFireOf_releaseScheduleClaim (id id' : String) (reply : Reply) :
    (w.releaseScheduleClaim id reply).nextFireOf id' = w.nextFireOf id' := by
  cases reply with
  | ok => exact nextFireOf_leases (claim_fields _ _) id'
  | error => rfl

variable (sha1 w w') in
/-- A step is sound: it keeps what holds along a run, and moves a schedule only past a whole
occurrence. -/
structure Sound (routes : Option (List (String × Replies))) : Prop where
  inv : Inv sha1 w'
  whole : ∀ id o, w.nextFireOf id = some o → w'.nextFireOf id ≠ some o → Whole w w' id o routes

theorem Sound.still {routes : Option (List (String × Replies))} (h : Inv sha1 w')
    (hnext : ∀ id, w'.nextFireOf id = w.nextFireOf id) : Sound sha1 w w' routes :=
  ⟨h, fun id _ ho hne => absurd ((hnext id).trans ho) hne⟩

theorem Fires.nextFireOf (h : Fires w w' st o) (id : String) :
    w'.nextFireOf id = w.nextFireOf id := by
  unfold World.nextFireOf
  rw [h.schedules]

theorem Fires.claimed (h : Fires w w' st o) (hst : Claimed w st) : Claimed w' st := by
  refine ⟨?_, (h.nextFireOf st.id).trans hst.current, ?_⟩
  · unfold specs
    rw [h.schedules]
    exact hst.spec
  · rw [h.clock]
    exact hst.due

variable (sha1 w) in
/-- Save a schedule and reconcile its pending rows. -/
def World.settle (st : ScheduleState) (reply : Reply) (r : Reconcile) : World :=
  { w.saveSchedule st reply with rows := reconcileScheduled sha1 w.rows st r }

theorem Inv.settle (h : Inv sha1 w) (hst : Claimed w st) (st' : ScheduleState)
    (hbatch : st.id ∉ w.batch.map ScheduleState.id) (hid : st'.id = st.id)
    (hspec : st'.spec = st.spec)
    (hnext : st'.nextFire = st.nextFire ∨ ∃ t, st'.nextFire = some t ∧ w.clock < t)
    (reply : Reply) (r : Reconcile) : Inv sha1 (w.settle sha1 st' reply r) := by
  have hsave := h.saveSchedule hst hbatch hid hspec hnext reply
  have hmem : (st'.id, st'.spec) ∈ w.specs := by
    rw [hid, hspec]
    exact hst.spec
  cases reply with
  | ok => exact hsave.reconcileScheduled (by rwa [specs_saveSchedule h hmem]) r
  | error => exact h.reconcileScheduled hmem r

/-- Only the schedule that is settled moves, and from its own occurrence. -/
theorem moved_eq (hst : Claimed w st) (st' : ScheduleState) (hid : st'.id = st.id) {reply : Reply}
    {r : Reconcile} {id : String} (ho : w.nextFireOf id = some o)
    (hne : (w.settle sha1 st' reply r).nextFireOf id ≠ some o) :
    id = st.id ∧ st.nextFire = some o := by
  by_cases heq : id = st.id
  · subst heq
    exact ⟨rfl, hst.current.symm.trans ho⟩
  · cases reply with
    | ok => exact absurd ((nextFireOf_saveSchedule_ne (hid ▸ heq)).trans ho) hne
    | error => exact absurd ho hne

theorem fired_next (st : ScheduleState) (now : ℕ) :
    (fired now st).nextFire = st.nextFire ∨ ∃ t, (fired now st).nextFire = some t ∧ now < t := by
  unfold fired
  cases hnext : nextFire st.spec now with
  | none => exact .inl rfl
  | some t => exact .inr ⟨t, rfl, lt_of_nextFire hnext⟩

section

variable (h : Inv sha1 w) (hst : Claimed w st) (hbatch : st.id ∉ w.batch.map ScheduleState.id)
include h hst hbatch

theorem Inv.serveFire (c : Choices) :
    Sound sha1 w (serveFire sha1 w st c) c.compile := by
  obtain ⟨o, ho, hdue⟩ := hst.due
  unfold Scheduler.serveFire
  split
  · exact .still (releaseScheduleClaim_inv h ..) fun id => nextFireOf_releaseScheduleClaim _ id _
  · next routes hroutes =>
    rw [ho, Option.getD_some]
    obtain ⟨hinv, hfires, hall⟩ := h.fire hst ho routes
    generalize Scheduler.fire sha1 w st o routes = result at hinv hfires hall
    obtain ⟨_ | _, w'⟩ := result <;> dsimp only at hinv hfires hall
    · refine .still (releaseScheduleClaim_inv hinv ..) fun id => ?_
      exact (nextFireOf_releaseScheduleClaim _ id _).trans (hfires.nextFireOf id)
    · have hclaimed := hfires.claimed hst
      have hbatch' : st.id ∉ w'.batch.map ScheduleState.id := hfires.batch ▸ hbatch
      have hnext := fired_next st w.clock
      rw [← hfires.clock] at hnext
      dsimp only
      split
      · exact .still hinv hfires.nextFireOf
      refine ⟨?_, fun id o' ho' hne => ?_⟩
      · rw [← hfires.clock]
        exact hinv.settle hclaimed (fired w'.clock st) hbatch' rfl rfl hnext .ok c.reconcile
      · obtain ⟨rfl, heq⟩ := moved_eq hclaimed (fired w.clock st) rfl
          ((hfires.nextFireOf id).trans ho') hne
        obtain rfl : o = o' := Option.mem_unique ho heq
        exact .inl ⟨routes, hroutes, hall rfl⟩

theorem Inv.skips (hactive : hasActiveRuns w.rows st.id = true)
    (hnone : ∀ s ∈ w.submits, s.key.schedule = st.id → some s.key.occurrence = st.nextFire →
      s.outcome = .failed) (c : Choices) :
    Sound sha1 w { (advance w st c.save).2 with
      rows := Scheduler.reconcileScheduled sha1 w.rows (advance w st c.save).1 c.reconcile }
      c.compile := by
  obtain ⟨o, ho, hdue⟩ := hst.due
  unfold advance
  split
  · next t ht =>
    have hinv := h.settle hst { st with nextFire := some t } hbatch rfl rfl
      (.inr ⟨t, rfl, lt_of_nextFire ht⟩) c.save c.reconcile
    refine ⟨hinv, fun id o' ho' hne => ?_⟩
    obtain ⟨rfl, heq⟩ := moved_eq hst { st with nextFire := some t } rfl ho' hne
    obtain rfl : o = o' := Option.mem_unique ho heq
    have hfailed : ∀ s ∈ w.submits, s.key.schedule = st.id → s.key.occurrence = o →
        s.outcome = .failed := by
      intro s hs hschedule hoccurrence
      exact hnone s hs hschedule (by rw [hoccurrence, ho])
    refine .inr ⟨fun s hs hschedule hoccurrence => ?_, h.earlier hst ho hactive hfailed⟩
    have hs' : s ∈ w.submits := by
      cases hsave : c.save <;> rw [hsave] at hs <;> exact hs
    rw [hfailed s hs' hschedule hoccurrence]
    exact nofun
  · exact .still (h.reconcileScheduled hst.spec _) fun _ => rfl

/-- **Serving a schedule is sound.** -/
theorem Inv.serve (hunbroken : st.spec.overlap = .overlapSkip →
      (∃ s ∈ w.submits, s.key.schedule = st.id ∧ some s.key.occurrence = st.nextFire ∧
        s.outcome ≠ .failed) → hasActiveRuns w.rows st.id = false) (c : Choices) :
    Sound sha1 w (serve sha1 w st c) c.compile := by
  unfold Scheduler.serve
  split
  · exact .still (releaseScheduleClaim_inv h ..) fun id => nextFireOf_releaseScheduleClaim _ id _
  · next hoverlap _ hactive =>
    refine h.skips hst hbatch hactive (fun s hs hschedule hoccurrence => ?_) c
    by_contra hfiled
    have := hunbroken hoverlap ⟨s, hs, hschedule, hoccurrence, hfiled⟩
    rw [this] at hactive
    cases hactive
  · exact h.serveFire hst hbatch c

end

/-! ### Runs of ticks -/

theorem Inv.ids_nodup (h : Inv sha1 w) : (w.schedules.map ScheduleState.id).Nodup := by
  have hd := h.distinct
  simp only [specs, map_map] at hd
  exact hd

theorem Inv.nextFireOf_mem (h : Inv sha1 w) (hst : st ∈ w.schedules) :
    w.nextFireOf st.id = st.nextFire := by
  unfold nextFireOf
  cases hfind : w.schedules.find? fun s => s.id = st.id with
  | none =>
    have := find?_eq_none.1 hfind st hst
    simp at this
  | some s =>
    have hid : s.id = st.id := by simpa using find?_some hfind
    rw [inj_on_of_nodup_map h.ids_nodup (mem_of_find?_eq_some hfind) hst hid]
    rfl

theorem mem_claimDue (h : st ∈ claimDue now schedules) :
    st ∈ schedules ∧ ∃ o, st.nextFire = some o ∧ o ≤ now := by
  rw [claimDue, mem_insertionSort, mem_filter] at h
  refine ⟨h.1, ?_⟩
  have hdue := h.2
  simp only [due, Bool.and_eq_true] at hdue
  cases hnext : st.nextFire with
  | none =>
    rw [hnext] at hdue
    cases hdue.1.2
  | some o =>
    rw [hnext] at hdue
    exact ⟨o, rfl, by simpa using hdue.1.2⟩

/-- A claim takes each due schedule once, as it is in the table. -/
theorem Inv.claims (h : Inv sha1 w) :
    Inv sha1 { w with
      schedules := leaseSchedules now w.schedules
      batch := claimDue now w.schedules
      clock := now } := by
  have hfields := claim_fields (fun s => due now s) (some now)
  have hleased := h.leases hfields
  have hspecs : specs { w with schedules := leaseSchedules now w.schedules } = w.specs :=
    specs_map fun s _ => ⟨(hfields s).1, (hfields s).2.1⟩
  have hnext := nextFireOf_leases (w := w) hfields
  refine { hleased with batch := ?_, claimed := fun st hst => ?_ }
  · have hperm := perm_insertionSort
      (fun a b : ScheduleState => a.nextFire.getD 0 ≤ b.nextFire.getD 0) (w.schedules.filter (due now))
    refine (hperm.map ScheduleState.id).nodup_iff.2 ?_
    exact h.ids_nodup.sublist (filter_sublist.map _)
  · obtain ⟨hmem, hdue⟩ := mem_claimDue hst
    have hspec : (st.id, st.spec) ∈ w.specs := mem_map_of_mem hmem
    rw [← hspecs] at hspec
    exact ⟨hspec, (hnext st.id).trans (h.nextFireOf_mem hmem), hdue⟩

/-- The routes an event compiles. -/
def Event.routes : Event → Option (List (String × Replies))
  | .serves c => c.compile
  | _ => none

/-- **Every event that meets the condition is sound.** -/
theorem Inv.step (h : Inv sha1 w) {event : Event} (hunbroken : Unbroken w event) :
    Sound sha1 w (step sha1 w event) event.routes := by
  cases event with
  | ticks elapsed reply =>
    simp only [Scheduler.step]
    split
    · exact .still h.claims (nextFireOf_leases (claim_fields _ _))
    · next hbatch =>
      have hinv : Inv sha1 { w with clock := w.clock + elapsed } := by
        refine { h with claimed := fun st hst => ?_ }
        rw [show w.batch = [] from hbatch] at hst
        cases hst
      exact .still hinv fun _ => rfl
    · exact .still h fun _ => rfl
  | serves c =>
    simp only [Scheduler.step]
    split
    · exact .still h fun _ => rfl
    · next st rest hbatch =>
      have hclaimed := h.claimed st (hbatch ▸ mem_cons_self)
      have hnodup := h.batch
      rw [hbatch, map_cons, nodup_cons] at hnodup
      have hrest : Inv sha1 { w with batch := rest } := by
        refine { h with batch := hnodup.2, claimed := fun b hb => ?_ }
        have hb' := h.claimed b (hbatch ▸ mem_cons_of_mem _ hb)
        exact { hb' with }
      have hst : st ∈ w.batch.head? := by
        rw [hbatch]
        exact rfl
      have hclaimed' : Claimed { w with batch := rest } st :=
        { hclaimed with }
      have hsound := hrest.serve hclaimed' hnodup.1 (hunbroken st hst) c
      exact ⟨hsound.inv, hsound.whole⟩
  | restarts =>
    exact .still { h with batch := nodup_nil, claimed := by simp [Scheduler.step] } fun _ => rfl
  | reconciles id r =>
    simp only [Scheduler.step]
    split
    · exact .still h fun _ => rfl
    · next st hfind =>
      have hmem : (st.id, st.spec) ∈ w.specs := mem_map_of_mem (mem_of_find?_eq_some hfind)
      exact .still (h.reconcileScheduled hmem r) fun _ => rfl
  | writes id status started =>
    simp only [Scheduler.step]
    split
    · exact .still h fun _ => rfl
    · next f hf =>
      split_ifs with hscheduled
      · exact .still h fun _ => rfl
      obtain ⟨hnamed, hstems⟩ := h.rows id f hf
      have hrow : RowOK sha1 w id ⟨f.key, ⟨status, started, f.row.continuous⟩⟩ :=
        ⟨hnamed, .inr (hstems.resolve_left fun hs => hscheduled (.inl hs))⟩
      exact .still (h.rowsChange (h.rows.insert hrow)) fun _ => rfl
  | drops id => exact .still (h.rowsChange (h.rows.erase id)) fun _ => rfl

/-- **No occurrence is half fired and then skipped.**  Along ticks that meet the condition, with any
failures of the submissions and of the store, a schedule moves past an occurrence only when every
route compiled for it has been submitted, or when none has and a run of an earlier occurrence is
active; and a route at an occurrence has one run. -/
theorem occurrence_whole (sha1 : String → String) (schedules : List ScheduleState) (clock : ℕ)
    (hdistinct : (schedules.map ScheduleState.id).Nodup) (events : List Event) (event : Event)
    (h : Trace.Along (step sha1) Unbroken (start schedules clock) (events ++ [event])) :
    let w := Trace.run (step sha1) (start schedules clock) events
    let w' := step sha1 w event
    (∀ id o, w.nextFireOf id = some o → w'.nextFireOf id ≠ some o →
      Whole w w' id o event.routes) ∧
    (∀ s ∈ w'.submits, ∀ s' ∈ w'.submits, s.key = s'.key → s.id = s'.id) ∧
    ∀ id id' f f', w'.rows.lookup id = some f → w'.rows.lookup id' = some f' → f.key = f'.key →
      id = id' := by
  intro w w'
  obtain ⟨hevents, hevent, -⟩ := Trace.along_append.1 h
  have hinv : Inv sha1 w := Trace.inv_run_of_along (fun _ _ hw hu => (hw.step hu).inv)
    (Inv.start clock hdistinct) hevents
  have hsound := hinv.step hevent
  have hone : ∀ {key : Key} {id id' : RunID}, Named sha1 w'.specs key id →
      Named sha1 w'.specs key id' → id = id' := by
    rintro key id id' ⟨spec, hspec, rfl⟩ ⟨spec', hspec', rfl⟩
    rw [hsound.inv.spec_unique hspec hspec']
  refine ⟨hsound.whole, fun s hs s' hs' hkey => ?_, fun id id' f f' hf hf' hkey => ?_⟩
  · exact hone (hsound.inv.named s hs) (hkey ▸ hsound.inv.named s' hs')
  · exact hone (hsound.inv.rows id f hf).1 (hkey ▸ (hsound.inv.rows id' f' hf').1)

/-! ### An occurrence of two routes -/

instance (w : World) : ∀ event, Decidable (Unbroken w event)
  | .serves _ => inferInstanceAs (Decidable (∀ st ∈ w.batch.head?, st.spec.overlap = .overlapSkip →
      (∃ s ∈ w.submits, s.key.schedule = st.id ∧ some s.key.occurrence = st.nextFire ∧
        s.outcome ≠ .failed) → hasActiveRuns w.rows st.id = false))
  | .ticks _ _ | .restarts | .reconciles _ _ | .writes _ _ _ | .drops _ => .isTrue trivial

namespace Demo

/-- A schedule that fires every minute. -/
def minutely : ScheduleState :=
  ⟨"s", ⟨"acme", "p", some fun _ => true, .overlapSkip⟩, true, none, some 60, none⟩

def accepts : Replies := ⟨.ok, .ok, .ok, .ok⟩

def refuses : Replies := ⟨.ok, .ok, .error, .ok⟩

/-- Serve a schedule of the routes `a` and `b`. -/
def serves (b : Replies) : Event :=
  .serves ⟨.ok, some [("a", accepts), ("b", b)], .ok, .ok, ⟨.ok, 0, none⟩⟩

/-- The first tick submits `a` and fails to submit `b`; the next claims the schedule again. -/
def half : List Event := [.ticks 60 .ok, serves refuses, .ticks 60 .ok]

end Demo

/-- When `a` has ended by then, the second tick submits `b` and advances the schedule. -/
theorem half_fired_completed :
    let events := Demo.half ++ [.writes "acme|p:s:60:a" .runCompleted true]
    let w := Trace.run (step id) (start [Demo.minutely] 0) events
    let w' := step id w (Demo.serves Demo.accepts)
    w.nextFireOf "s" = some 60 ∧ w'.nextFireOf "s" = some 180 ∧
      Whole w w' "s" 60 (Demo.serves Demo.accepts).routes := by
  intro events w w'
  have hbefore : w.nextFireOf "s" = some 60 := by decide +kernel
  have hafter : w'.nextFireOf "s" = some 180 := by decide +kernel
  refine ⟨hbefore, hafter, ?_⟩
  refine (occurrence_whole id [Demo.minutely] 0 (by decide) events (Demo.serves Demo.accepts)
    (by decide +kernel)).1 "s" 60 hbefore ?_
  decide

/-- While `a` is still active, the second tick skips the occurrence: `b` is never submitted. -/
theorem half_fired_skipped :
    let w := Trace.run (step id) (start [Demo.minutely] 0) Demo.half
    let w' := step id w (Demo.serves Demo.accepts)
    w.nextFireOf "s" = some 60 ∧ w'.nextFireOf "s" = some 180 ∧
      w'.submits = [⟨⟨"s", 60, "a"⟩, "acme|p:s:60:a", .accepted⟩,
        ⟨⟨"s", 60, "b"⟩, "acme|p:s:60:b", .failed⟩] ∧
      ¬ Whole w w' "s" 60 (Demo.serves Demo.accepts).routes := by
  intro w w'
  have hsubmits : w'.submits = [⟨⟨"s", 60, "a"⟩, "acme|p:s:60:a", .accepted⟩,
      ⟨⟨"s", 60, "b"⟩, "acme|p:s:60:b", .failed⟩] := by decide +kernel
  refine ⟨by decide +kernel, by decide +kernel, hsubmits, ?_⟩
  unfold Whole
  rw [hsubmits]
  rintro (⟨routes, hroutes, hall⟩ | ⟨hnone, -⟩)
  · cases hroutes
    have := hall ("b", Demo.accepts) (by simp)
    simp at this
  · simp at hnone

end Filament.Scheduler
