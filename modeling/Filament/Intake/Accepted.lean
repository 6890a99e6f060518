import Filament.Intake.Submit
import Filament.Lib.Lists

/-!
# An accepted run exists

* `Call.undoes` : a call that has filed a row and may still delete it;
* `Apart` : a row is filed or found only while no other call may undo its own;
* `Inv.step` : every such event keeps the rows of the calls that rely on them;
* `accepted_stands` : so the row of an accepted run stays until a caller deletes it;
* `accepted_run_deleted` : without the condition the call that filed the row takes it away from a
  call that has reported it.
-/

namespace Filament.Intake

open List Function Bool

/-- The call has filed a row that it deletes when its dispatch fails. -/
def Call.undoes (c : Call) : Prop :=
  c.continuous = false ∧ (c.phase = .dispatching true ∨ c.phase = .deleting)

instance (c : Call) : Decidable c.undoes := inferInstanceAs (Decidable (_ ∧ _))

/-- The call relies on the row it has filed or found. -/
def Call.relies (c : Call) : Bool :=
  match c.phase with
  | .loading => true
  | .dispatching _ => true
  | .accepted => true
  | _ => false

/-- A row that a call may rely on: no bounded call promotes it. -/
def Row.firm (row : Row) : Prop := row.status ≠ .runScheduled ∨ row.continuous = true

/-- The condition on a step: when a call reaches `CreateRun`, no other call of the id may still undo
its own row, and a row already filed under the id has the execution mode of the new request. -/
def Apart (w : World) : Event → Prop
  | .steps i _ _ => ∀ c ∈ w.calls[i]?, c.phase = .creating →
      (∀ c' ∈ w.calls, c'.id = c.id → ¬ c'.undoes) ∧
      ∀ row ∈ w.rows c.id, row.continuous = c.continuous
  | .schedules id continuous => ∀ row ∈ w.rows id, row.continuous = continuous
  | _ => True

/-- The runs that are accepted and not deleted by a caller have their rows. -/
def Stands (w : World) : Prop :=
  ∀ c ∈ w.calls, c.phase = .accepted → c.dropped = false → w.rows c.id ≠ none

/-- What holds along every such interleaving. -/
structure Inv (w : World) : Prop where
  held : ∀ c ∈ w.calls, c.relies = true → c.dropped = false →
    ∃ row, w.rows c.id = some row ∧ row.firm
  alone : ∀ (i j : ℕ) (c c' : Call), w.calls[i]? = some c → w.calls[j]? = some c' → i ≠ j →
    c.undoes → c'.id = c.id → c'.dropped = true ∨ c'.relies = false ∧ c'.phase ≠ .deleting
  bounded : ∀ c ∈ w.calls, c.phase = .deleting → c.continuous = false

variable {w : World}

theorem Inv.stands (h : Inv w) : Stands w := by
  intro c hc haccepted hdropped hnone
  obtain ⟨row, hrow, -⟩ := h.held c hc (by rw [Call.relies, haccepted]) hdropped
  rw [hnone] at hrow
  cases hrow

theorem Inv.start (rows : String → Option Row) : Inv (World.start rows) where
  held := by simp [World.start]
  alone := by simp [World.start]
  bounded := by simp [World.start]

/-! ### Moves of one call -/

variable {c : Call} {i : ℕ} {phase : Phase} {new : Row}

/-- The call `i` moves to another phase and the row of its id may change. -/
theorem Inv.move {w' : World} (h : Inv w) (hc : w.calls[i]? = some c)
    (hcalls : w'.calls = w.calls.set i { c with phase := phase })
    (hkeep : ∀ c' ∈ w.calls, c'.relies = true → c'.dropped = false →
      (∃ row, w.rows c'.id = some row ∧ row.firm) → ∃ row, w'.rows c'.id = some row ∧ row.firm)
    (hnew : ({ c with phase := phase } : Call).relies = true → c.dropped = false →
      ∃ row, w'.rows c.id = some row ∧ row.firm)
    (hundoes : ({ c with phase := phase } : Call).undoes → c.undoes ∨
      ∀ (j : ℕ) (c' : Call), w.calls[j]? = some c' → i ≠ j → c'.id = c.id →
        c'.dropped = true ∨ c'.relies = false ∧ c'.phase ≠ .deleting)
    (halone : (∀ c' ∈ w.calls, c'.id = c.id → ¬ c'.undoes) ∨ c.dropped = true ∨
      (c.relies = true ∨ c.phase = .deleting) ∨
      ({ c with phase := phase } : Call).relies = false ∧ phase ≠ .deleting)
    (hbounded : phase = .deleting → c.continuous = false) : Inv w' := by
  refine ⟨?_, ?_, ?_⟩
  · intro c' hc' hrelies hdropped
    rw [hcalls] at hc'
    rcases mem_or_eq_of_mem_set hc' with hold | rfl
    · exact hkeep c' hold hrelies hdropped (h.held c' hold hrelies hdropped)
    · exact hnew hrelies hdropped
  · intro j k a b ha hb hjk hundo hid
    rw [hcalls] at ha hb
    rw [getElem?_set] at ha hb
    split_ifs at ha with hij
    · -- The call that moved may undo its row.
      cases ha
      subst hij
      rw [if_neg hjk] at hb
      rcases hundoes hundo with hold | hall
      · exact h.alone i k c b hc hb hjk hold hid
      · exact hall k b hb hjk hid
    · split_ifs at hb with hik
      · -- Another call may undo its row while this one moves.
        cases hb
        subst hik
        rcases halone with hnone | hdropped | hrelied | hidle
        · exact absurd hundo (hnone a (mem_of_getElem? ha) hid.symm)
        · exact .inl hdropped
        · rcases h.alone j i a c ha hc hjk hundo hid with hdropped | ⟨hno, hne⟩
          · exact .inl hdropped
          rcases hrelied with hrelies | hdeleting
          · rw [hno] at hrelies
            cases hrelies
          · exact absurd hdeleting hne
        · exact .inr hidle
      · exact h.alone j k a b ha hb hjk hundo hid
  · rw [hcalls]
    exact forall_mem_set h.bounded hbounded

/-- A call that moves without touching a row, to a phase that relies on no more than before. -/
theorem Inv.advance (h : Inv w) (hc : w.calls[i]? = some c)
    (hrelies : ({ c with phase := phase } : Call).relies = true → c.relies = true)
    (hundoes : ({ c with phase := phase } : Call).undoes → c.undoes)
    (hactive : c.relies = true ∨ c.phase = .deleting ∨
      ({ c with phase := phase } : Call).relies = false ∧ phase ≠ .deleting)
    (hbounded : phase = .deleting → c.continuous = false) : Inv (w.move i c phase) := by
  refine h.move hc rfl (fun _ _ _ _ hrow => hrow) ?_ (fun hu => .inl (hundoes hu)) ?_ hbounded
  · intro hr hdropped
    exact h.held c (mem_of_getElem? hc) (hrelies hr) hdropped
  · rcases hactive with hr | hd | hidle
    · exact .inr (.inr (.inl (.inl hr)))
    · exact .inr (.inr (.inl (.inr hd)))
    · exact .inr (.inr (.inr hidle))

/-! ### `CreateRun` -/

theorem createRun_created {existing row : Option Row} (h : createRun existing new = (.created, row)) :
    (existing = none ∨ ∃ old, existing = some old ∧ old.status = .runScheduled) ∧
      ∃ r, row = some r ∧ r.status = new.status ∧ r.continuous = new.continuous := by
  unfold createRun at h
  cases existing with
  | none =>
    cases h
    exact ⟨.inl rfl, new, rfl, rfl, rfl⟩
  | some old =>
    dsimp only at h
    split_ifs at h with hscheduled
    · cases h
      exact ⟨.inr ⟨old, rfl, hscheduled⟩, _, rfl, rfl, rfl⟩
    · cases (Prod.mk.inj h).1

theorem createRun_conflict {existing row : Option Row}
    (h : createRun existing new = (.conflict, row)) :
    ∃ old, existing = some old ∧ old.status ≠ .runScheduled := by
  unfold createRun at h
  cases existing with
  | none => cases (Prod.mk.inj h).1
  | some old =>
    dsimp only at h
    split_ifs at h with hscheduled
    · cases (Prod.mk.inj h).1
    · exact ⟨old, rfl, hscheduled⟩

theorem filed_firm (c : Call) (live : Bool) : (filed c live).firm := by
  unfold Row.firm filed
  cases c.continuous <;> cases live <;> simp

theorem Inv.creates (h : Inv w) (hc : w.calls[i]? = some c) (hphase : c.phase = .creating)
    (hundoing : ∀ c' ∈ w.calls, c'.id = c.id → ¬ c'.undoes)
    (hmode : ∀ row ∈ w.rows c.id, row.continuous = c.continuous) (live : Bool) (reply : Reply) :
    Inv (c.step w i live reply) := by
  simp only [Call.step, hphase]
  cases reply with
  | error =>
    refine h.advance hc nofun nofun ?_ Phase.noConfusion
    exact .inr (.inr ⟨rfl, Phase.noConfusion⟩)
  | ok =>
    dsimp only
    split
    · next row hcreate =>
      obtain ⟨hold, r, rfl, hstatus, hcontinuous⟩ := createRun_created hcreate
      have hfirm : r.firm := by
        have := filed_firm c live
        rwa [Row.firm, ← hstatus, ← hcontinuous] at this
      have hown : (update w.rows c.id (some r)) c.id = some r := update_self ..
      refine h.move hc rfl ?_ (fun _ _ => ⟨r, hown, hfirm⟩) (fun hundoes => .inr ?_)
        (.inl hundoing) Phase.noConfusion
      · intro c' _ _ _ hrow
        by_cases hid : c'.id = c.id
        · exact ⟨r, hid ▸ hown, hfirm⟩
        · obtain ⟨row', hrow', hfirm'⟩ := hrow
          exact ⟨row', (update_of_ne hid ..).trans hrow', hfirm'⟩
      · -- A bounded call files its row where there was none, or a scheduled one nobody relies on.
        intro j c' hc' _ hid
        have hmem := mem_of_getElem? hc'
        by_cases hdropped : c'.dropped = true
        · exact .inl hdropped
        refine .inr ⟨?_, fun hdeleting => ?_⟩
        · by_contra hrelies
          obtain ⟨row', hrow', hfirm'⟩ := h.held c' hmem (eq_true_of_not_eq_false hrelies)
            (eq_false_of_not_eq_true hdropped)
          rw [hid] at hrow'
          rcases hold with hnone | ⟨old, hsome, hscheduled⟩
          · rw [hnone] at hrow'
            cases hrow'
          rw [hsome] at hrow'
          obtain rfl := Option.some.inj hrow'
          rcases hfirm' with hne | hcont
          · exact hne hscheduled
          · have := hmode old hsome
            rw [hcont, hundoes.1] at this
            cases this
        · exact hundoing c' hmem hid ⟨h.bounded c' hmem hdeleting, .inr hdeleting⟩
    · next row hconflict =>
      obtain ⟨old, hsome, hscheduled⟩ := createRun_conflict hconflict
      refine h.move hc rfl (fun _ _ _ _ hrow => hrow) (fun _ _ => ⟨old, hsome, .inl hscheduled⟩) ?_
        (.inl hundoing) Phase.noConfusion
      rintro ⟨-, hd | hd⟩
      · exact absurd hd Phase.noConfusion
      · exact absurd hd Phase.noConfusion

theorem Inv.callStep (h : Inv w) (hc : w.calls[i]? = some c) (hphase : c.phase ≠ .creating)
    (live : Bool) (reply : Reply) : Inv (c.step w i live reply) := by
  have hmem := mem_of_getElem? hc
  unfold Call.step
  split
  · next heq => exact absurd heq hphase
  · next heq =>
    have hrelies : c.relies = true := by rw [Call.relies, heq]
    have hidle : ∀ phase, phase = .failed ∨ phase = .accepted ∨ phase = .dispatching false →
        Inv (w.move i c phase) := by
      rintro phase (rfl | rfl | rfl) <;>
        exact h.advance hc (fun _ => hrelies) nofun (.inl hrelies) Phase.noConfusion
    split
    · next row _ =>
      refine hidle _ ?_
      unfold inspect
      split_ifs <;> simp
    · exact hidle _ (.inl rfl)
  · next owned heq =>
    have hrelies : c.relies = true := by rw [Call.relies, heq]
    refine h.advance hc (fun _ => hrelies) ?_ (.inl hrelies) ?_ <;>
      cases reply <;> cases owned <;> cases hcontinuous : c.continuous <;>
      simp [Call.undoes, dispatched, hcontinuous, heq]
  · next heq =>
    have hundoes : c.undoes := ⟨h.bounded c hmem heq, .inr heq⟩
    cases reply with
    | error =>
      exact h.advance hc nofun nofun (.inr (.inl heq)) Phase.noConfusion
    | ok =>
      refine h.move hc rfl ?_ nofun nofun (.inr (.inr (.inl (.inr heq)))) Phase.noConfusion
      intro c' hc' hrelies hdropped hrow
      obtain ⟨j, hj⟩ := mem_iff_getElem?.mp hc'
      have hid : c'.id ≠ c.id := by
        intro hid
        have hij : i ≠ j := by
          rintro rfl
          obtain rfl := Option.mem_unique hc hj
          simp [Call.relies, heq] at hrelies
        rcases h.alone i j c c' hc hj hij hundoes hid with hd | ⟨hno, -⟩
        · simp [hdropped] at hd
        · simp [hrelies] at hno
      obtain ⟨row, hrow, hfirm⟩ := hrow
      exact ⟨row, (update_of_ne hid ..).trans hrow, hfirm⟩
  · exact h
  · exact h

/-! ### The other events -/

theorem Inv.write (h : Inv w) (id : String) (row : Option Row)
    (hfirm : ∀ old, w.rows id = some old → old.firm → ∃ new, row = some new ∧ new.firm) :
    Inv (w.write id row) := by
  refine ⟨fun c hc hrelies hdropped => ?_, h.alone, h.bounded⟩
  obtain ⟨old, hold, hf⟩ := h.held c hc hrelies hdropped
  by_cases hid : c.id = id
  · obtain ⟨new, rfl, hnew⟩ := hfirm old (hid ▸ hold) hf
    exact ⟨new, by rw [hid]; exact update_self .., hnew⟩
  · exact ⟨old, (update_of_ne hid ..).trans hold, hf⟩

theorem Inv.schedules (h : Inv w) (id : String) (continuous : Bool)
    (hmode : ∀ row ∈ w.rows id, row.continuous = continuous) :
    Inv (w.write id (createRun (w.rows id) ⟨.runScheduled, false, continuous⟩).2) := by
  refine h.write id _ fun old hold hfirm => ?_
  rw [hold]
  by_cases hscheduled : old.status = .runScheduled
  · have hcontinuous : old.continuous = true := hfirm.resolve_left fun hne => hne hscheduled
    refine ⟨⟨.runScheduled, old.started, continuous⟩, ?_, .inr ?_⟩
    · simp only [createRun, if_pos hscheduled]
    · exact (hmode old hold).symm.trans hcontinuous
  · exact ⟨old, by simp only [createRun, if_neg hscheduled], hfirm⟩

theorem Inv.begins (h : Inv w) (id : String) (continuous : Bool) :
    Inv { w with calls := w.calls ++ [⟨id, continuous, .creating, false⟩] } := by
  have hmem : ∀ c ∈ w.calls ++ [⟨id, continuous, .creating, false⟩],
      c ∈ w.calls ∨ c = ⟨id, continuous, .creating, false⟩ := fun c hc =>
    (mem_append.1 hc).imp_right mem_singleton.1
  have hget : ∀ (i : ℕ) (c : Call), (w.calls ++ [⟨id, continuous, .creating, false⟩])[i]? = some c →
      w.calls[i]? = some c ∨ c = ⟨id, continuous, .creating, false⟩ := by
    intro i c hc
    rw [getElem?_append] at hc
    split_ifs at hc
    · exact .inl hc
    · exact .inr (mem_singleton.1 (mem_of_getElem? hc))
  refine ⟨fun c hc hrelies hdropped => ?_, fun i j c c' hi hj hij hundoes hid => ?_,
    fun c hc hdeleting => ?_⟩
  · rcases hmem c hc with hold | rfl
    · exact h.held c hold hrelies hdropped
    · cases hrelies
  · rcases hget i c hi with hi' | rfl
    · rcases hget j c' hj with hj' | rfl
      · exact h.alone i j c c' hi' hj' hij hundoes hid
      · exact .inr ⟨rfl, Phase.noConfusion⟩
    · rcases hundoes.2 with hd | hd <;> exact absurd hd Phase.noConfusion
  · rcases hmem c hc with hold | rfl
    · exact h.bounded c hold hdeleting
    · exact absurd hdeleting Phase.noConfusion

/-- Mark the calls of an id. -/
def drop (id : String) (c : Call) : Call := if c.id = id then { c with dropped := true } else c

theorem drop_fields (id : String) (c : Call) :
    (drop id c).id = c.id ∧ (drop id c).phase = c.phase ∧
      (drop id c).continuous = c.continuous := by
  unfold drop
  split_ifs <;> exact ⟨rfl, rfl, rfl⟩

theorem drop_relies (id : String) (c : Call) : (drop id c).relies = c.relies := by
  unfold Call.relies
  rw [(drop_fields id c).2.1]

theorem drop_undoes (id : String) (c : Call) : (drop id c).undoes ↔ c.undoes := by
  unfold Call.undoes
  rw [(drop_fields id c).2.1, (drop_fields id c).2.2]

theorem dropped_drop {id : String} (h : c.id = id ∨ c.dropped = true) :
    (drop id c).dropped = true := by
  unfold drop
  split_ifs with hid
  · rfl
  · exact h.resolve_left hid

theorem Inv.drops (h : Inv w) (id : String) :
    Inv { w with rows := Function.update w.rows id none, calls := w.calls.map (drop id) } := by
  refine ⟨fun c hc hrelies hdropped => ?_, fun i j c c' hi hj hij hundoes hid => ?_,
    fun c hc hdeleting => ?_⟩
  · obtain ⟨a, ha, rfl⟩ := mem_map.1 hc
    rw [drop_relies] at hrelies
    have hne : ¬ (a.id = id ∨ a.dropped = true) := fun hd => by
      rw [dropped_drop hd] at hdropped
      cases hdropped
    obtain ⟨row, hrow, hfirm⟩ := h.held a ha hrelies
      (eq_false_of_not_eq_true fun hd => hne (.inr hd))
    refine ⟨row, ?_, hfirm⟩
    rw [(drop_fields id a).1]
    exact (update_of_ne (fun hid => hne (.inl hid)) ..).trans hrow
  · simp only [getElem?_map, Option.map_eq_some_iff] at hi hj
    obtain ⟨a, ha, rfl⟩ := hi
    obtain ⟨b, hb, rfl⟩ := hj
    rw [(drop_fields id a).1, (drop_fields id b).1] at hid
    rcases h.alone i j a b ha hb hij ((drop_undoes id a).1 hundoes) hid with hd | ⟨hno, hne⟩
    · exact .inl (dropped_drop (.inr hd))
    · refine .inr ⟨(drop_relies id b).trans hno, ?_⟩
      rw [(drop_fields id b).2.1]
      exact hne
  · obtain ⟨a, ha, rfl⟩ := mem_map.1 hc
    rw [(drop_fields id a).2.2]
    rw [(drop_fields id a).2.1] at hdeleting
    exact h.bounded a ha hdeleting

/-- **Every event that keeps the calls apart keeps the rows that are relied on.** -/
theorem Inv.step {sha1 : String → String} (h : Inv w) {event : Event} (hapart : Apart w event) :
    Inv (step sha1 w event) := by
  cases event with
  | begins req random => exact h.begins ..
  | steps i live reply =>
    simp only [Intake.step]
    split
    · exact h
    · next c hc =>
      by_cases hphase : c.phase = .creating
      · obtain ⟨hundoing, hmode⟩ := hapart c hc hphase
        exact h.creates hc hphase hundoing hmode live reply
      · exact h.callStep hc hphase live reply
  | schedules id continuous => exact h.schedules id continuous hapart
  | writes id status started =>
    simp only [Intake.step]
    split
    · exact h
    · next row hrow =>
      split_ifs with hscheduled
      · exact h
      · exact h.write id _ fun _ _ _ => ⟨_, rfl, .inl hscheduled⟩
  | drops id => exact h.drops id

/-- **An accepted run exists.**  In every interleaving of calls of `Submit` in which `CreateRun` is
reached only while no other call of the id may still undo its own row, the row of every run that a
call has reported exists until a caller deletes it. -/
theorem accepted_stands (sha1 : String → String) (rows : String → Option Row) (events : List Event)
    (h : Trace.Along (step sha1) Apart (World.start rows) events) :
    Stands (Trace.run (step sha1) (World.start rows) events) :=
  (Trace.inv_run_of_along (fun _ _ hinv ha => hinv.step ha) (Inv.start rows) h).stands

/-! ### Two calls for one request -/

instance (w : World) : ∀ event, Decidable (Apart w event)
  | .steps i _ _ => inferInstanceAs (Decidable (∀ c ∈ w.calls[i]?, c.phase = .creating →
      (∀ c' ∈ w.calls, c'.id = c.id → ¬ c'.undoes) ∧
      ∀ row ∈ w.rows c.id, row.continuous = c.continuous))
  | .schedules id continuous =>
    inferInstanceAs (Decidable (∀ row ∈ w.rows id, row.continuous = continuous))
  | .begins _ _ | .writes _ _ _ | .drops _ => .isTrue trivial

namespace Demo

def request : Request := ⟨"acme", "export-1", false⟩

/-- Nothing is filed yet. -/
def idle : World := World.start fun _ => none

/-- Both calls have begun and the first has filed the row. -/
def filing : List Event := [.begins request "r", .begins request "s", .steps 0 false .ok]

end Demo

/-- The second call comes after the first has dispatched: both report the run, and it exists. -/
theorem accepted_after_dispatch :
    Stands (Trace.run (step id) Demo.idle (Demo.filing ++
      [.steps 0 false .ok, .steps 1 false .ok, .steps 1 false .ok, .steps 1 false .ok])) ∧
    (Trace.run (step id) Demo.idle (Demo.filing ++
      [.steps 0 false .ok, .steps 1 false .ok, .steps 1 false .ok, .steps 1 false .ok])).calls.map
        Call.phase = [.accepted, .accepted] :=
  ⟨accepted_stands id _ _ (by decide +kernel), by decide +kernel⟩

/-- The second call finds the row of the first, dispatches its trigger and reports the run; then the
dispatch of the first call fails, and it deletes the row. -/
theorem accepted_run_deleted :
    let w := Trace.run (step id) Demo.idle (Demo.filing ++
      [.steps 1 false .ok, .steps 1 false .ok, .steps 1 false .ok, .steps 0 false .error,
        .steps 0 false .ok])
    w.calls.map (fun c => (c.phase, c.dropped)) = [(.failed, false), (.accepted, false)] ∧
      w.calls.map Call.id = ["acme|export-1", "acme|export-1"] ∧ w.rows "acme|export-1" = none ∧
      ¬ Stands w := by
  refine ⟨by decide +kernel, by decide +kernel, by decide +kernel, fun h => ?_⟩
  exact h ⟨"acme|export-1", false, .accepted, false⟩ (by decide +kernel) rfl rfl (by decide +kernel)

end Filament.Intake
