import Filament.Lifecycle.Interleaving

/-!
# Final statuses

A run that is canceled or completed should stay so. Commands respect this by themselves: their updates
start from open statuses only. The tracker overwrites the status it finds, so it keeps a final one only
when no other lifecycle fact is folded after it, and when no cancel comes between its load and its
save.

* `final` : canceled and completed;
* `Undisturbed` : the condition on a step;
* `final_absorbing` : along every interleaving whose steps meet it, final statuses stay;
* `save_or_absorbs` : only saves can change them.
-/

namespace Filament.Lifecycle

open Tracker Function

variable {sys sys' : System} {fold : Fold} {e : Event}

/-- The statuses a run should not leave. -/
def final (status : RunStatus) : Bool := status = .runCanceled || status = .runCompleted

/-- The step leaves the status of every canceled or completed run. -/
def Absorbs (sys : System) (e : Event) : Prop :=
  ∀ run r, sys.store.runs run = some r → final r.status = true →
    ∃ r', (step sys e).store.runs run = some r' ∧ r'.status = r.status

/-- The tracker folds no fact that names another status for a run that is canceled or completed; and
no command moves a run to canceled between the load and the save of a fold of it, unless the fold is
of `run.canceled` itself. -/
def Undisturbed (sys : System) : Event → Prop
  | .load i => ∀ f r, sys.log[i]? = some f → (take sys.store f (i + 1)).2 ≠ none →
      sys.store.runs f.env.run = some r → final r.status = true →
      names f.data = none ∨ names f.data = some r.status
  | .signal i sig _ => ∀ state command, sys.reads[i]? = some state →
      Runs.planSignal state.status sig = .ok command → command.transition = true →
      command.target = .runCanceled → ∀ fold ∈ sys.fold, fold.fact.env.run = state.run →
        names fold.fact.data = some .runCanceled
  | _ => True

/-- The fold in progress keeps a final status of its run. -/
structure FoldInv (sys : System) : Prop where
  own : ∀ fold ∈ sys.fold, fold.Own
  keeps : ∀ fold ∈ sys.fold, ∀ r, sys.store.runs fold.fact.env.run = some r →
    r.tenant = fold.fact.env.tenant → final r.status = true → fold.Keeps r.status

theorem FoldInv.of_same (h : FoldInv sys) (hruns : sys'.store.runs = sys.store.runs)
    (hfold : sys'.fold = sys.fold) : FoldInv sys' := by
  refine ⟨fun fold hf => h.own fold (hfold ▸ hf), fun fold hf r hr => ?_⟩
  rw [hruns] at hr
  exact h.keeps fold (hfold ▸ hf) r hr

theorem FoldInv.idle (hfold : sys'.fold = none) : FoldInv sys' := by
  constructor <;> simp [hfold]

/-- A command moves no run out of a final status, and cancels at most. -/
theorem command_final {status st : RunStatus} {sig : Signal} {command : Runs.SignalCommand}
    (h : Runs.planSignal status sig = .ok command) (htransition : command.transition = true) :
    (st ∈ command.source → final st = false) ∧
      (final command.target = true → command.target = .runCanceled) := by
  constructor
  · intro hst
    rcases Runs.source_of_planSignal h hst with rfl | rfl | rfl <;> rfl
  · unfold Runs.planSignal at h
    split at h
    · rename_i command' hcommand
      cases h
      unfold Runs.signalCommands at hcommand
      split at hcommand <;> cases hcommand <;> simp_all [final]
    · cases h

/-- Moving the row of an open run leaves the canceled and completed ones. -/
theorem open_keeps {moved : RunID} {r : RunState} {row : Option RunState}
    (hrow : sys.store.runs moved = some r) (hopen : final r.status = false)
    (hruns : sys'.store.runs = update sys.store.runs moved row) (run : RunID) (q : RunState)
    (hq : sys.store.runs run = some q) (hqf : final q.status = true) :
    ∃ r', sys'.store.runs run = some r' ∧ r'.status = q.status := by
  have hne : run ≠ moved := by
    rintro rfl
    obtain rfl := Option.mem_unique hrow hq
    simp [hopen] at hqf
  exact ⟨q, by rw [hruns, update_of_ne hne, hq], rfl⟩

theorem step_absorbs (h : FoldInv sys) (hu : Undisturbed sys e) :
    FoldInv (step sys e) ∧ Absorbs sys e := by
  have hmoved := step_moved sys e
  unfold Absorbs
  generalize step sys e = sys' at hmoved ⊢
  cases hmoved with
  | same hruns hfold _ =>
    exact ⟨h.of_same hruns hfold, fun run r hr _ => ⟨r, by rw [hruns, hr], rfl⟩⟩
  | dropped hruns hfold _ =>
    exact ⟨FoldInv.idle hfold, fun run r hr _ => ⟨r, by rw [hruns, hr], rfl⟩⟩
  | @commanded i now sig state r r' command _ hread hplan htransition hrow hsource hruns hstatus
      htenant hfold _ =>
    obtain ⟨hopen, htarget⟩ := @command_final state.status r.status sig command hplan htransition
    constructor
    · refine ⟨fun fold hf => h.own fold (hfold ▸ hf), fun fold hf q hq hqt hqf => ?_⟩
      rw [hfold] at hf
      rw [hruns] at hq
      by_cases hrun : fold.fact.env.run = state.run
      · rw [hrun, update_self, Option.some.injEq] at hq
        rw [← hq, hstatus] at hqf ⊢
        rw [htarget hqf]
        exact .inl (hu state command hread hplan htransition (htarget hqf) fold hf hrun)
      · rw [update_of_ne hrun] at hq
        exact h.keeps fold hf q hq hqt hqf
    · exact open_keeps hrow (hopen hsource) hruns
  | @taken i f _ hidle hlog htake htaken _ =>
    obtain ⟨hruns, hfold⟩ := htaken
    refine ⟨⟨fun fold hf => (hfold fold hf).2.2.1, fun fold hf r hr ht hfinal => ?_⟩,
      fun run r hr _ => ⟨r, by rw [hruns, hr], rfl⟩⟩
    obtain ⟨hfact, -, -, hcopy⟩ := hfold fold hf
    rw [hruns, hfact] at hr
    rw [hfact] at ht
    unfold Fold.Keeps
    rw [hfact]
    rcases hu f r hlog (by simp [htake, Option.mem_def.1 hf]) hr hfinal with hnone | hsome
    · exact .inr ⟨hnone, hcopy r hr ht⟩
    · exact .inl hsome
  | @saved fold _ hfold hstore hidle _ =>
    refine ⟨FoldInv.idle hidle, fun run r hr hfinal => ?_⟩
    rw [hstore]
    rcases @put_rows sys.store fold (h.own fold hfold) with hruns | ⟨r', hruns, hstatus, -, hold⟩
    · exact ⟨r, by rw [hruns, hr], rfl⟩
    rw [hruns]
    by_cases hrun : run = fold.fact.env.run
    · subst hrun
      refine ⟨r', update_self .., ?_⟩
      rw [hstatus]
      exact (h.keeps fold hfold r hr (hold r hr) hfinal).status
    · exact ⟨r, by rw [update_of_ne hrun, hr], rfl⟩

/-- **Final statuses are absorbing.** Along every interleaving of commands, worker facts, reaper
facts, deliveries, loads and saves in which the tracker folds no lifecycle fact of another status for a
canceled or completed run and no cancel falls between a load and its save, the status of a canceled
or completed run never changes. -/
theorem final_absorbing (sys : System) (es : List Event) (hidle : sys.fold = none)
    (h : Trace.Along step Undisturbed sys es) : Trace.Along step Absorbs sys es :=
  Trace.along_of_inv (fun _ _ hinv hu => step_absorbs hinv hu) (FoldInv.idle hidle) h

/-- **Only a save can change a final status.** Commands from however old a read, worker and reaper
facts, deliveries, loads and abandoned folds leave every canceled or completed run as it is. -/
theorem save_or_absorbs (sys : System) (e : Event) : e = .save ∨ Absorbs sys e := by
  have hmoved := step_moved sys e
  unfold Absorbs
  generalize step sys e = sys' at hmoved ⊢
  cases hmoved with
  | same hruns | dropped hruns | taken _ _ _ hruns =>
    exact .inr fun run r hr _ => ⟨r, by grind [Taken], rfl⟩
  | commanded _ hplan htransition hrow hsource hruns =>
    exact .inr (open_keeps hrow ((command_final hplan htransition).1 hsource) hruns)
  | saved => exact .inl rfl

/-! ### A cancel during a fold -/

/-- A requested run. -/
def queuedRun : RunState := RunState.fresh "export" "acme"

/-- The run is requested and its worker has started. -/
def startedSystem : System where
  store :=
    { runs := fun id => if id = "export" then some queuedRun else none
      marks := fun _ => none
      checkpoints := fun _ => none
      resourceCheckpoints := fun _ => none }
  reads := [queuedRun]
  outbox := []
  log := [⟨⟨"acme", "export", "", 1⟩, .runStarted⟩]
  fold := none
  resumed := fun _ => 0

/-- `run.started`, taken and saved at once. -/
theorem started_row : let f : Fact := ⟨⟨"acme", "export", "", 1⟩, .runStarted⟩
    (step (step startedSystem (.load 0)) .save).store.runs "export" =
      (onFact (fun _ => none) noFailure ⟨f, 1⟩ ⟨startedSystem.store, .new⟩).1.store.runs "export" := by
  intro f
  exact load_save_row (i := 0) (f := f) rfl rfl ⟨⟨rfl, rfl, rfl⟩, by simp [Module.new]⟩ rfl

/-- The run is canceled between two folds: it stays canceled while the fact of the command is folded. -/
theorem cancel_between_folds :
    Trace.Along step Absorbs startedSystem
      [.signal 0 .signalCancel 2, .publish 0, .load 1, .save, .load 1, .save] := by
  refine final_absorbing startedSystem _ rfl ⟨?_, trivial, ?_, trivial, ?_, trivial, trivial⟩
  · intro state command _ _ _ _ fold hfold
    cases hfold
  all_goals
    intro f r hlog _ hrow _
    cases hlog
    cases hrow
    exact .inr rfl

/-- The cancel comes between the load and the save of `run.started`: the save makes the canceled run
running again. -/
theorem cancel_lost_by_fold :
    ((Trace.run step startedSystem [.load 0, .signal 0 .signalCancel 2]).store.runs "export").map
        RunState.status = some .runCanceled ∧
    ((Trace.run step startedSystem [.load 0, .signal 0 .signalCancel 2, .save]).store.runs
        "export").map RunState.status = some .runRunning ∧
    ¬ Trace.Along step Absorbs startedSystem [.load 0, .signal 0 .signalCancel 2, .save] := by
  refine ⟨rfl, rfl, ?_⟩
  rintro ⟨-, -, hsave, -⟩
  obtain ⟨r', hr', hstatus⟩ := hsave "export" _ rfl rfl
  cases hr'
  cases hstatus

end Filament.Lifecycle
