import Filament.Lib.Trace
import Filament.Lifecycle.Commands
import Filament.Tracker.Agreement

/-!
# The writers of a run, interleaved

Two parties write a run row: lifecycle commands, in one conditional update each, and the tracker, which
loads the row, folds a fact into its copy and saves the copy. Commands, folds, worker facts and the
reaper interleave; the tracker handles one message at a time.

* `System`, `Event`, `step` : the store, what callers have read, the bus, and the fold in progress;
* `Data.names`, `update_status` : the status a fact names;
* `Fold.Keeps` : saving the fold leaves a status;
* `load_save_row` : a load followed by its save is the tracker's handler.
-/

namespace Filament.Lifecycle

open Tracker Option

/-- A fold between its load and its save: the message and the copy of the run. -/
structure Fold where
  fact : Fact
  seq : ℕ
  copy : RunState

/-- The state of the system. The log holds the published facts; the sequence of a message is its
place, and a redelivery has the same one. `resumed` records how many facts were published when a run
was last moved from paused or partial to requested. -/
structure System where
  store : Store
  reads : List RunState
  outbox : List Fact
  log : List Fact
  fold : Option Fold
  resumed : RunID → ℕ

/-- What can happen next. -/
inductive Event where
  /-- A caller of `Signal` or the reaper reads a run. -/
  | read (run : RunID)
  /-- A command on a run state that was read before. -/
  | signal (i : ℕ) (signal : Signal) (now : ℕ)
  /-- The fact of a command reaches the bus. -/
  | publish (i : ℕ)
  /-- A worker publishes a fact. -/
  | emit (fact : Fact)
  /-- The reaper judges a run state that was read before. -/
  | reap (i : ℕ) (probe : Option (Option Reaper.Workload)) (updatedAt : String) (now : ℕ)
  /-- The tracker takes a message, for the first time or again, and loads the run. -/
  | load (i : ℕ)
  /-- The tracker saves its copy. -/
  | save
  /-- A store call of the fold fails; the message will be redelivered. -/
  | abandon

variable (s : Store) (env : Envelope)

/-- The copy a fold works on; the run is created on first sight. -/
def copyOf : RunState :=
  match s.loadRun env.tenant env.run with
  | .ok r => r
  | .error _ => RunState.fresh env.run env.tenant

/-- The tracker ignores facts of continuous runs. -/
def continuous : Bool :=
  match s.loadRun env.tenant env.run with
  | .ok r => r.request.options.execution.normalize = .continuous
  | .error _ => false

/-- Taking a message: terminal facts are folded whether or not they were seen, the others once. -/
def take (f : Fact) (seq : ℕ) : Store × Option Fold :=
  if continuous s f.env then (s, none)
  else if f.data.terminal then (s, some ⟨f, seq, copyOf s f.env⟩)
  else if f.data = .notifierAttempted then (s, none)
  else
    match s.dedupSeen f.env.tenant f.env.run seq with
    | .error _ => (s, none)
    | .ok (true, s') => (s', none)
    | .ok (false, s') =>
      if f.data.mutates then (s', some ⟨f, seq, copyOf s' f.env⟩) else (s', none)

/-- Saving the copy; the mark of a terminal fact advances afterwards. -/
def put (fold : Fold) : Store :=
  match s.saveRun (update fold.fact.env fold.fact.data fold.copy) with
  | .error _ => s
  | .ok s' =>
    if fold.fact.data.terminal then
      match s'.dedupSeen fold.fact.env.tenant fold.fact.env.run fold.seq with
      | .error _ => s'
      | .ok (_, s'') => s''
    else s'

/-- The history of resumes after a command. -/
def noteResume (sys : System) (state : RunState) (s' : Store) : RunID → ℕ :=
  match sys.store.runs state.run, s'.runs state.run with
  | some r, some r' =>
    if (r.status = .runPaused ∨ r.status = .runPartial) ∧ r'.status = .runRequested then
      Function.update sys.resumed state.run sys.log.length
    else sys.resumed
  | _, _ => sys.resumed

/-- One step; an event that is not enabled changes nothing. -/
def step (sys : System) : Event → System
  | .read run =>
    match sys.store.runs run with
    | some r => { sys with reads := sys.reads ++ [{ r with run := run }] }
    | none => sys
  | .signal i signal now =>
    match sys.reads[i]? with
    | none => sys
    | some state =>
      match Runs.signal sys.store state signal now with
      | .error _ => sys
      | .ok (s', fact, _) =>
        { sys with
          store := s'
          outbox := sys.outbox ++ fact.toList
          resumed := noteResume sys state s' }
  | .publish i =>
    match sys.outbox[i]? with
    | none => sys
    | some f => { sys with outbox := sys.outbox.eraseIdx i, log := sys.log ++ [f] }
  | .emit f => { sys with log := sys.log ++ [f] }
  | .reap i probe updatedAt now =>
    match sys.reads[i]? with
    | none => sys
    | some state =>
      { sys with log := sys.log ++ (Reaper.judge probe state updatedAt now).toList }
  | .load i =>
    match sys.fold, sys.log[i]? with
    | none, some f =>
      { sys with store := (take sys.store f (i + 1)).1, fold := (take sys.store f (i + 1)).2 }
    | _, _ => sys
  | .save =>
    match sys.fold with
    | none => sys
    | some fold => { sys with store := put sys.store fold, fold := none }
  | .abandon => { sys with fold := none }

/-! ### The status of a row -/

/-- The status a fact names. -/
def names : Data → Option RunStatus
  | .runStarted => some .runRunning
  | .runCompleted _ _ => some .runCompleted
  | .runFailed _ => some .runFailed
  | .runPartial _ => some .runPartial
  | .runCanceled => some .runCanceled
  | .runPaused _ => some .runPaused
  | _ => none

theorem update_status (d : Data) (r : RunState) :
    (update env d r).status = (names d).getD r.status := by
  cases d <;> rfl

/-- Saving the fold leaves a row of this status with it. -/
def Fold.Keeps (fold : Fold) (status : RunStatus) : Prop :=
  names fold.fact.data = some status ∨ (names fold.fact.data = none ∧ fold.copy.status = status)

variable {s s' : Store} {sys : System} {fold : Fold} {f : Fact} {run : RunID} {r state : RunState}
  {seq i : ℕ} {m : Module}

theorem Fold.Keeps.status {status : RunStatus} (h : fold.Keeps status) :
    (update fold.fact.env fold.fact.data fold.copy).status = status := by
  rw [update_status]
  rcases h with hnames | ⟨hnames, hcopy⟩
  · rw [hnames, getD_some]
  · rw [hnames, getD_none, hcopy]

/-- The copy is of the fact's run and tenant. -/
structure Fold.Own (fold : Fold) : Prop where
  run : fold.copy.run = fold.fact.env.run
  tenant : fold.copy.tenant = fold.fact.env.tenant

theorem copyOf_own (s : Store) (f : Fact) (seq : ℕ) : Fold.Own ⟨f, seq, copyOf s f.env⟩ := by
  unfold copyOf
  split
  · rename_i r hr
    obtain ⟨row, -, htenant, rfl⟩ := Store.loadRun_eq_ok.1 hr
    exact ⟨rfl, htenant⟩
  · exact ⟨rfl, rfl⟩

theorem copyOf_status {env : Envelope} (hrow : s.runs env.run = some r)
    (htenant : r.tenant = env.tenant) : (copyOf s env).status = r.status := by
  have hload : s.loadRun env.tenant env.run = .ok { r with run := env.run } :=
    Store.loadRun_eq_ok.2 ⟨r, hrow, htenant, rfl⟩
  rw [copyOf, hload]

variable (s f seq) in
/-- What taking a message leaves. -/
structure Taken (s' : Store) (taken : Option Fold) : Prop where
  runs : s'.runs = s.runs
  fold : ∀ fold ∈ taken, fold.fact = f ∧ fold.seq = seq ∧ fold.Own ∧
    ∀ r, s.runs f.env.run = some r → r.tenant = f.env.tenant → fold.copy.status = r.status

theorem taken_some (hruns : s'.runs = s.runs) : Taken s f seq s' (some ⟨f, seq, copyOf s' f.env⟩) := by
  refine ⟨hruns, fun fold hfold => ?_⟩
  obtain rfl := mem_some_iff.1 hfold
  refine ⟨rfl, rfl, copyOf_own s' f seq, fun r hrow htenant => ?_⟩
  rw [← hruns] at hrow
  exact copyOf_status hrow htenant

theorem take_taken (s : Store) (f : Fact) (seq : ℕ) :
    Taken s f seq (take s f seq).1 (take s f seq).2 := by
  have hnone : ∀ {s' : Store}, s'.runs = s.runs → Taken s f seq s' none := fun h =>
    ⟨h, fun fold hfold => absurd hfold (not_mem_none fold)⟩
  unfold take
  by_cases hcontinuous : continuous s f.env = true
  · rw [if_pos hcontinuous]
    exact hnone rfl
  by_cases hterm : f.data.terminal = true
  · rw [if_neg hcontinuous, if_pos hterm]
    exact taken_some rfl
  by_cases hnotify : f.data = .notifierAttempted
  · rw [if_neg hcontinuous, if_neg hterm, if_pos hnotify]
    exact hnone rfl
  rw [if_neg hcontinuous, if_neg hterm, if_neg hnotify]
  cases hd : s.dedupSeen f.env.tenant f.env.run seq with
  | error e => exact hnone rfl
  | ok res =>
    obtain ⟨seen, s'⟩ := res
    have hruns : s'.runs = s.runs := Store.dedupSeen_runs hd
    cases seen with
    | true => exact hnone hruns
    | false =>
      split_ifs
      · exact taken_some hruns
      · exact hnone hruns

/-- What saving a fold does to the rows. -/
theorem put_rows (hown : fold.Own) :
    (put s fold).runs = s.runs ∨
      ∃ r', (put s fold).runs = Function.update s.runs fold.fact.env.run (some r') ∧
        r'.status = (update fold.fact.env fold.fact.data fold.copy).status ∧
        r'.tenant = fold.fact.env.tenant ∧
        ∀ r, s.runs fold.fact.env.run = some r → r.tenant = fold.fact.env.tenant := by
  unfold put
  cases hsave : s.saveRun (update fold.fact.env fold.fact.data fold.copy) with
  | error e => exact .inl rfl
  | ok s' =>
    have hrun : (update fold.fact.env fold.fact.data fold.copy).run = fold.fact.env.run :=
      (update_run ..).trans hown.run
    have htenant : (update fold.fact.env fold.fact.data fold.copy).tenant = fold.fact.env.tenant :=
      (update_tenant ..).trans hown.tenant
    have hruns := congrArg Store.runs (Store.saveRun_eq_ok hsave)
    have hold : ∀ r, s.runs fold.fact.env.run = some r → r.tenant = fold.fact.env.tenant := by
      unfold Store.saveRun at hsave
      split_ifs at hsave with hold
      intro r hr
      rw [← hrun] at hr
      exact (hold r hr).trans htenant
    refine .inr ⟨(update fold.fact.env fold.fact.data fold.copy).upsert
      (s.runs (update fold.fact.env fold.fact.data fold.copy).run), ?_, rfl, htenant, hold⟩
    rw [← hrun]
    simp only
    split_ifs
    · split
      · exact hruns
      · rename_i hd
        exact (Store.dedupSeen_runs hd).trans hruns
    · exact hruns

/-- A command leaves the rows or moves one of them. -/
theorem signal_rows {sig : Signal} {now : ℕ} {res : Option Fact × Runs.SignalResult}
    (h : Runs.signal s state sig now = .ok (s', res)) :
    s'.runs = s.runs ∨ ∃ command r r', Runs.planSignal state.status sig = .ok command ∧
      command.transition = true ∧ s.runs state.run = some r ∧ r.status ∈ command.source ∧
      s'.runs = Function.update s.runs state.run (some r') ∧ r'.status = command.target ∧
      r'.tenant = r.tenant := by
  rcases Runs.signal_moves h with rfl | ⟨command, opts, r, hplan, htransition, hrow, hsource, rfl⟩
  · exact .inl rfl
  refine .inr ⟨command, r, _, hplan, htransition, hrow, hsource, rfl,
    RunState.status_transition .., ?_⟩
  unfold RunState.transition
  split_ifs <;> rfl

/-! ### What a step can do -/

/-- What a step does to the rows, the fold in progress and the history of resumes. -/
inductive Moved (sys : System) : Event → System → Prop
  | same {e : Event} {sys' : System} (hruns : sys'.store.runs = sys.store.runs)
      (hfold : sys'.fold = sys.fold) (hresumed : sys'.resumed = sys.resumed) : Moved sys e sys'
  | dropped {e : Event} {sys' : System} (hruns : sys'.store.runs = sys.store.runs)
      (hfold : sys'.fold = none) (hresumed : sys'.resumed = sys.resumed) : Moved sys e sys'
  | commanded {i now : ℕ} {sig : Signal} {state r r' : RunState} {command : Runs.SignalCommand}
      {sys' : System} (hread : sys.reads[i]? = some state)
      (hplan : Runs.planSignal state.status sig = .ok command)
      (htransition : command.transition = true) (hrow : sys.store.runs state.run = some r)
      (hsource : r.status ∈ command.source)
      (hruns : sys'.store.runs = Function.update sys.store.runs state.run (some r'))
      (hstatus : r'.status = command.target) (htenant : r'.tenant = r.tenant)
      (hfold : sys'.fold = sys.fold)
      (hresumed : sys'.resumed = sys.resumed ∨ command.target = .runRequested ∧
        sys'.resumed = Function.update sys.resumed state.run sys.log.length) :
      Moved sys (.signal i sig now) sys'
  | taken {i : ℕ} {f : Fact} {sys' : System} (hidle : sys.fold = none)
      (hlog : sys.log[i]? = some f) (htake : (take sys.store f (i + 1)).2 = sys'.fold)
      (htaken : Taken sys.store f (i + 1) sys'.store sys'.fold)
      (hresumed : sys'.resumed = sys.resumed) : Moved sys (.load i) sys'
  | saved {fold : Fold} {sys' : System} (hfold : sys.fold = some fold)
      (hstore : sys'.store = put sys.store fold) (hidle : sys'.fold = none)
      (hresumed : sys'.resumed = sys.resumed) : Moved sys .save sys'

theorem noteResume_same (hruns : s'.runs = sys.store.runs) :
    noteResume sys state s' = sys.resumed := by
  unfold noteResume
  rw [hruns]
  cases sys.store.runs state.run with
  | none => rfl
  | some r =>
    refine if_neg ?_
    rintro ⟨h | h, h'⟩
    · rw [h] at h'
      cases h'
    · rw [h] at h'
      cases h'

theorem signal_moved (i now : ℕ) (sig : Signal) :
    Moved sys (.signal i sig now) (step sys (.signal i sig now)) := by
  simp only [step]
  split
  · exact .same rfl rfl rfl
  · rename_i state hread
    split
    · exact .same rfl rfl rfl
    · rename_i s' fact result hsig
      rcases signal_rows hsig with hruns | ⟨command, r, r', hplan, htransition, hrow, hsource, hruns,
        hstatus, htenant⟩
      · exact .same hruns rfl (noteResume_same hruns)
      refine .commanded hread hplan htransition hrow hsource hruns hstatus htenant rfl ?_
      simp only [noteResume, hrow, hruns, Function.update_self, hstatus]
      split_ifs with hresume
      · exact .inr ⟨hresume.2, rfl⟩
      · exact .inl rfl

theorem step_moved (sys : System) (e : Event) : Moved sys e (step sys e) := by
  cases e with
  | read run =>
    simp only [step]
    split <;> exact .same rfl rfl rfl
  | signal i sig now => exact signal_moved i now sig
  | publish i =>
    simp only [step]
    split <;> exact .same rfl rfl rfl
  | emit f => exact .same rfl rfl rfl
  | reap i probe updatedAt now =>
    simp only [step]
    split <;> exact .same rfl rfl rfl
  | load i =>
    simp only [step]
    split
    · rename_i f hidle hlog
      exact .taken hidle hlog rfl (take_taken ..) rfl
    · exact .same rfl rfl rfl
  | save =>
    simp only [step]
    split
    · exact .same rfl rfl rfl
    · rename_i fold hfold
      exact .saved hfold rfl rfl rfl
  | abandon => exact .dropped rfl rfl rfl

/-! ### Loads and saves without a step between -/

theorem step_load_save (hidle : sys.fold = none) (hlog : sys.log[i]? = some f) :
    (step (step sys (.load i)) .save).store =
      match (take sys.store f (i + 1)).2 with
      | none => (take sys.store f (i + 1)).1
      | some fold => put (take sys.store f (i + 1)).1 fold := by
  simp only [step, hidle, hlog]
  cases (take sys.store f (i + 1)).2 <;> rfl

theorem continuous_eq (h : Holds f.env.tenant f.env.run ⟨s, m⟩ r) :
    continuous s f.env = decide (r.request.options.execution.normalize = .continuous) := by
  rw [continuous, h.row.loadRun]

/-- Saving a copy of the row as it is folds the fact into the row. -/
theorem put_copyOf (hrow : Row s f.env.tenant f.env.run r) (hterm : f.data.terminal = false) :
    put s ⟨f, seq, copyOf s f.env⟩ =
      s.setRun f.env.run ((update f.env f.data r).upsert (some r)) := by
  have hcopy : copyOf s f.env = r := by rw [copyOf, hrow.loadRun]
  have hsave : s.saveRun (update f.env f.data r) =
      .ok (s.setRun f.env.run ((update f.env f.data r).upsert (some r))) :=
    hrow.saveRun ((update_run _ _ r).trans hrow.run) ((update_tenant _ _ r).trans hrow.tenant)
  simp only [put, hcopy, hsave, hterm, Bool.false_eq_true, if_false]

/-- A message that is taken and saved at once is handled as by the tracker: the row of its run is
the one the tracker's handler leaves. -/
theorem load_save_row {unmarshal : String → Option (List String)} (hidle : sys.fold = none)
    (hlog : sys.log[i]? = some f) (hholds : Holds f.env.tenant f.env.run ⟨sys.store, m⟩ r)
    (hterm : f.data.terminal = false) :
    (step (step sys (.load i)) .save).store.runs f.env.run =
      (onFact unmarshal noFailure ⟨some f, i + 1⟩ ⟨sys.store, m⟩).1.store.runs f.env.run := by
  rw [step_load_save hidle hlog, take, continuous_eq hholds, hterm, if_neg Bool.false_ne_true]
  by_cases hnotify : f.data = .notifierAttempted
  · simp only [onFact, hnotify, if_true, ite_self]
  by_cases hbounded : r.request.options.execution.normalize = .continuous
  · obtain ⟨n, hmode, -⟩ := executionMode_noFailure hholds
    simp only [onFact, hnotify, if_false, hmode, hbounded, decide_true, if_true]
  obtain ⟨n, hn, -, -, heq⟩ := onFact_fold unmarshal (i + 1) rfl rfl hbounded hholds hnotify
  rw [heq, fold, hterm, if_neg Bool.false_ne_true, if_neg (by simpa using hbounded), if_neg hnotify,
    attempt_noFailure]
  cases hd : sys.store.dedupSeen f.env.tenant f.env.run (i + 1) with
  | error e => rfl
  | ok res =>
    obtain ⟨seen, s'⟩ := res
    have hrow : Row s' f.env.tenant f.env.run r := hholds.row.of_runs (Store.dedupSeen_runs hd)
    cases seen with
    | true => rfl
    | false =>
      rw [apply_eq hrow hterm]
      simp only [persistHanded_frame.1, rowFolded]
      split_ifs
      · exact congrArg (fun s : Store => s.runs f.env.run) (put_copyOf hrow hterm)
      · rfl

end Filament.Lifecycle
