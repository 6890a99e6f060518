import Filament.Lifecycle.Interleaving

/-!
# Resumed runs

A resume moves a paused or partial run back to requested in one conditional update. Facts that were
published before it, the `run.paused` of the pause itself among them, may still be folded afterwards,
for the first time or again.

* `Orderly` : the condition on a step;
* `StaysResumed` : saving a fact older than the last resume leaves the status;
* `older_facts_keep_status` : along every interleaving whose steps meet the condition, it does.
-/

namespace Filament.Lifecycle

open Tracker Function

variable {sys : System} {e : Event}

/-- The fold is of a fact published before the last resume of its run. -/
def Older (sys : System) (fold : Fold) : Prop := fold.seq ≤ sys.resumed fold.fact.env.run

/-- Saving a fact that is older than the last resume of its run leaves the status of the row. -/
def StaysResumed (sys : System) (e : Event) : Prop :=
  e = .save → ∀ fold ∈ sys.fold, Older sys fold →
    ∀ r, sys.store.runs fold.fact.env.run = some r →
      ∃ r', (step sys e).store.runs fold.fact.env.run = some r' ∧ r'.status = r.status

/-- A fact older than the last resume of its run is folded only if it names no status or the one the
row has; and a command moves a run with a fold in progress only if it is no resume and the fold is of a
newer fact. -/
def Orderly (sys : System) : Event → Prop
  | .load i => ∀ f r, sys.log[i]? = some f → (take sys.store f (i + 1)).2 ≠ none →
      sys.store.runs f.env.run = some r → i < sys.resumed f.env.run →
      names f.data = none ∨ names f.data = some r.status
  | .signal i sig _ => ∀ state command, sys.reads[i]? = some state →
      Runs.planSignal state.status sig = .ok command → command.transition = true →
      ∀ fold ∈ sys.fold, fold.fact.env.run = state.run →
        command.target ≠ .runRequested ∧ ¬ Older sys fold
  | _ => True

/-- A fold of an older fact keeps the status of its run. -/
structure OlderInv (sys : System) : Prop where
  own : ∀ fold ∈ sys.fold, fold.Own
  keeps : ∀ fold ∈ sys.fold, Older sys fold → ∀ r, sys.store.runs fold.fact.env.run = some r →
    r.tenant = fold.fact.env.tenant → fold.Keeps r.status

theorem OlderInv.idle {sys' : System} (hfold : sys'.fold = none) : OlderInv sys' := by
  constructor <;> simp [hfold]

theorem step_older (h : OlderInv sys) (ho : Orderly sys e) : OlderInv (step sys e) := by
  have hmoved := step_moved sys e
  generalize step sys e = sys' at hmoved ⊢
  cases hmoved with
  | same hruns hfold hresumed =>
    refine ⟨fun fold hf => h.own fold (hfold ▸ hf), fun fold hf hold r hr => ?_⟩
    rw [hruns] at hr
    rw [Older, hresumed] at hold
    exact h.keeps fold (hfold ▸ hf) hold r hr
  | dropped _ hfold _ => exact OlderInv.idle hfold
  | @commanded i now sig state r r' command _ hread hplan htransition hrow hsource hruns hstatus
      htenant hfold hresumed =>
    refine ⟨fun fold hf => h.own fold (hfold ▸ hf), fun fold hf hold q hq => ?_⟩
    rw [hfold] at hf
    by_cases hrun : fold.fact.env.run = state.run
    · -- the moved run has a fold in progress: of a newer fact, and not at a resume
      obtain ⟨htarget, hnewer⟩ := ho state command hread hplan htransition fold hf hrun
      rcases hresumed with hsame | ⟨hresume, -⟩
      · rw [Older, hsame] at hold
        exact absurd hold hnewer
      · exact absurd hresume htarget
    · have hsame : sys'.resumed fold.fact.env.run = sys.resumed fold.fact.env.run := by
        rcases hresumed with hsame | ⟨-, hupdate⟩
        · rw [hsame]
        · rw [hupdate, update_of_ne hrun]
      rw [Older, hsame] at hold
      rw [hruns, update_of_ne hrun] at hq
      exact h.keeps fold hf hold q hq
  | @taken i f _ hidle hlog htake htaken hresumed =>
    obtain ⟨hruns, hfold⟩ := htaken
    refine ⟨fun fold hf => (hfold fold hf).2.2.1, fun fold hf hold r hr ht => ?_⟩
    obtain ⟨hfact, hseq, -, hcopy⟩ := hfold fold hf
    rw [hruns, hfact] at hr
    rw [hfact] at ht
    rw [Older, hresumed, hfact, hseq] at hold
    unfold Fold.Keeps
    rw [hfact]
    rcases ho f r hlog (by simp [htake, Option.mem_def.1 hf]) hr hold with hnone | hsome
    · exact .inr ⟨hnone, hcopy r hr ht⟩
    · exact .inl hsome
  | saved _ _ hidle _ => exact OlderInv.idle hidle

theorem step_staysResumed (h : OlderInv sys) : StaysResumed sys e := by
  rintro rfl fold hfold hold r hr
  have hstore : (step sys .save).store = put sys.store fold := by
    simp only [step]
    rw [Option.mem_def.1 hfold]
  rw [hstore]
  rcases put_rows (h.own fold hfold) with hruns | ⟨r', hruns, hstatus, -, htenant⟩
  · exact ⟨r, by rw [hruns, hr], rfl⟩
  · refine ⟨r', by rw [hruns, update_self], ?_⟩
    rw [hstatus]
    exact (h.keeps fold hfold hold r hr (htenant r hr)).status

/-- **A resumed run is not put back to sleep by an older fact.** Along every interleaving in which
older facts are folded only when they name no other status, and no command moves a run during a fold of
an older fact, folding a fact that was published before the last resume of its run leaves the status
of the run. -/
theorem older_facts_keep_status (sys : System) (es : List Event) (hidle : sys.fold = none)
    (h : Trace.Along step Orderly sys es) : Trace.Along step StaysResumed sys es :=
  Trace.along_of_inv (fun _ _ hinv ho => ⟨step_older hinv ho, step_staysResumed hinv⟩)
    (OlderInv.idle hidle) h

/-! ### A pause that is folded late -/

/-- A requested run, read by the caller of a command. -/
def waitingSystem : System where
  store :=
    { runs := fun id => if id = "export" then some (RunState.fresh "export" "acme") else none
      marks := fun _ => none
      checkpoints := fun _ => none
      resourceCheckpoints := fun _ => none }
  reads := [RunState.fresh "export" "acme"]
  outbox := []
  log := []
  fold := none
  resumed := fun _ => 0

/-- The pause is folded before the resume; a heartbeat from before the resume, folded after it, leaves
the run requested. -/
theorem heartbeat_after_resume :
    Trace.Along step StaysResumed waitingSystem
      [.signal 0 .signalPause 1, .publish 0, .emit ⟨⟨"acme", "export", "", 1⟩, .heartbeat 1 1 1⟩,
        .load 0, .save, .read "export", .signal 1 .signalResume 2, .load 1, .save] := by
  refine older_facts_keep_status waitingSystem _ rfl
    ⟨?_, trivial, trivial, ?_, trivial, trivial, ?_, ?_, trivial, trivial⟩
  · intro state command _ _ _ fold hfold
    cases hfold
  · intro f r _ _ _ hold
    cases hold
  · intro state command _ _ _ fold hfold
    cases hfold
  · intro f r hlog _ _ _
    cases hlog
    exact .inl rfl

/-- The run is paused and resumed before the pause's own fact is folded: folding it pauses the run
again. -/
theorem resume_lost_by_pause :
    ((Trace.run step waitingSystem [.signal 0 .signalPause 1, .publish 0, .read "export",
        .signal 1 .signalResume 2]).store.runs "export").map RunState.status =
      some .runRequested ∧
    ((Trace.run step waitingSystem [.signal 0 .signalPause 1, .publish 0, .read "export",
        .signal 1 .signalResume 2, .load 0, .save]).store.runs "export").map RunState.status =
      some .runPaused ∧
    ¬ Trace.Along step StaysResumed waitingSystem [.signal 0 .signalPause 1, .publish 0,
      .read "export", .signal 1 .signalResume 2, .load 0, .save] := by
  refine ⟨rfl, rfl, ?_⟩
  rintro ⟨-, -, -, -, -, hsave, -⟩
  obtain ⟨r', hr', hstatus⟩ := hsave rfl _ rfl (Nat.le_refl 1) _ rfl
  cases hr'
  cases hstatus

end Filament.Lifecycle
