import Filament.Tracker.Steps

/-!
# Folding each fact once

A message whose handler fails is redelivered until it is acknowledged. The mark of a run advances
before a non-terminal fact is folded, so that a redelivery is recognised.

* `deliverAll` : some messages, each delivered until it is acknowledged, with the store calls that
  fail in each attempt;
* `foldRow` : a fact folded once into the run row;
* `onFact_effect` : what one attempt does to the row and the mark;
* `facts_folded_once` : without a failure between the mark and the saved row, every fact is folded
  exactly once.
-/

namespace Filament.Tracker

open List

variable {unmarshal : String → Option (List String)} {fails : Call → Bool} {tenant : TenantID}
  {run : RunID} {r : RunState} {w w' : World} {f : Fact} {seq : ℕ}

/-- The facts that are folded into the run row. -/
def Data.mutates : Data → Bool
  | .runRequested | .runPauseRequested | .runCancelRequested | .checkpointSaved _
  | .notifierAttempted | .other => false
  | _ => true

/-- The run row after a fact is folded once; continuous runs are not tracked here. -/
def foldRow (r : RunState) (f : Fact) : RunState :=
  if r.request.options.execution.normalize = .continuous then r
  else if f.data.mutates then (update f.env f.data r).upsert (some r)
  else r

variable (tenant run w) in
/-- The tracker knows the run: its row is there and a cached mode is the row's. -/
structure Holds (r : RunState) : Prop where
  row : Row w.store tenant run r
  mode : ∀ mode ∈ w.mem.modes.lookup ⟨tenant, run⟩, mode = r.request.options.execution.normalize

section

variable (h : Holds tenant run w r)
include h

theorem Holds.of_frame (hruns : w'.store.runs = w.store.runs) (hmodes : w'.mem.modes = w.mem.modes) :
    Holds tenant run w' r :=
  ⟨h.row.of_runs hruns, by rw [hmodes]; exact h.mode⟩

theorem executionMode_spec :
    executionMode fails tenant run w = .error .failed ∨
      ∃ m, executionMode fails tenant run w = .ok (r.request.options.execution.normalize, m) ∧
        Holds tenant run ⟨w.store, m⟩ r := by
  unfold executionMode
  cases hlook : w.mem.modes.lookup ⟨tenant, run⟩ with
  | some mode =>
    refine .inr ⟨w.mem, ?_, h.of_frame rfl rfl⟩
    rw [h.mode mode hlook]
  | none =>
    cases hfail : fails .executionModeLoadRun with
    | true => exact .inl (by simp [Call.attempt, hfail])
    | false =>
      refine .inr ⟨cacheMode ⟨tenant, run⟩ r.request.options.execution.normalize w.mem,
        ?_, h.row, fun mode hmode => ?_⟩
      · rw [attempt_of_not_fails _ hfail, h.row.loadRun]
      · rw [cacheMode, AList.lookup_insert, Option.mem_some_iff] at hmode
        exact hmode.symm

theorem Holds.mutated (d : Data) (env : Envelope) {m : Module} (hmodes : m.modes = w.mem.modes) :
    Holds tenant run ⟨w.store.setRun run ((update env d r).upsert (some r)), m⟩
      ((update env d r).upsert (some r)) := by
  refine ⟨⟨Store.setRun_runs_self .., ?_, ?_⟩, ?_⟩
  · exact (update_run env d r).trans h.row.run
  · exact (update_tenant env d r).trans h.row.tenant
  · intro mode hmode
    rw [hmodes] at hmode
    rw [h.mode mode hmode]
    exact congrArg (fun q : RunRequest => q.options.execution.normalize)
      (update_request env d r).symm

end

theorem rememberBoundary_modes (env : Envelope) (policy : CheckpointPolicy) (m : Module) :
    (rememberBoundary env policy m).modes = m.modes := by
  unfold rememberBoundary
  split_ifs <;> rfl

theorem applyCheckpoint_frame {env : Envelope} {cp : Option Checkpoint.CheckpointData} :
    (applyCheckpoint fails env cp w).1.store.runs = w.store.runs ∧
      (applyCheckpoint fails env cp w).1.store.marks = w.store.marks ∧
      (applyCheckpoint fails env cp w).1.mem.modes = w.mem.modes := by
  unfold applyCheckpoint
  cases cp with
  | none => exact ⟨rfl, rfl, rfl⟩
  | some cp =>
    simp only
    cases h : persistCheckpoint fails w.mem w.store env.tenant env.run env.resource cp false with
    | error e => exact ⟨rfl, rfl, rfl⟩
    | ok res =>
      obtain ⟨hruns, hmarks⟩ := (persistCheckpoint_written h).frame
      exact ⟨hruns, hmarks, rfl⟩

section Apply

variable (hrun : f.env.run = run) (htenant : f.env.tenant = tenant) (h : Holds tenant run w r)
include hrun htenant h

theorem mutateThen_row {next : World → World}
    (hnext : ∀ w, (next w).store.runs = w.store.runs ∧ (next w).store.marks = w.store.marks ∧
      (next w).mem.modes = w.mem.modes) :
    (mutateThen fails f.env f.data next w).1.store.marks = w.store.marks ∧
      Holds tenant run (mutateThen fails f.env f.data next w).1
        (if mutateFails fails then r else (update f.env f.data r).upsert (some r)) := by
  subst hrun htenant
  unfold mutateThen
  rw [mutate_eq h.row]
  cases mutateFails fails with
  | true => exact ⟨rfl, h⟩
  | false =>
    obtain ⟨hruns, hmarks, hmodes⟩ :=
      hnext ⟨w.store.setRun f.env.run ((update f.env f.data r).upsert (some r)), w.mem⟩
    exact ⟨hmarks, (h.mutated f.data f.env rfl).of_frame hruns hmodes⟩

/-- Applying a non-terminal fact of a bounded run folds it into the row, unless one of the two calls
of its read-modify-write fails. -/
theorem apply_row (hterm : f.data.terminal = false)
    (hmode : r.request.options.execution.normalize ≠ .continuous) :
    (apply unmarshal fails f w).1.store.marks = w.store.marks ∧
      Holds tenant run (apply unmarshal fails f w).1
        (if mutateFails fails then r else foldRow r f) := by
  have hthen := fun next hnext => @mutateThen_row fails tenant run r w f hrun htenant h next hnext
  have hid : ∀ w : World, (id w).store.runs = w.store.runs ∧ (id w).store.marks = w.store.marks ∧
      (id w).mem.modes = w.mem.modes := fun w => ⟨rfl, rfl, rfl⟩
  unfold foldRow apply
  rw [if_neg hmode]
  cases hd : f.data with
  | runStarted | resourceStarted | resourceFailed error =>
    rw [← hd]; simpa [hd, Data.mutates] using hthen id hid
  | heartbeat c b p => rw [← hd]; simpa [hd, Data.mutates] using hthen id hid
  | resourceCompleted records bytes =>
    have := hthen (flushResource unmarshal fails f.env) fun w =>
      ⟨flushResource_folded.frame.1, flushResource_folded.frame.2, flushResource_folded.mem.modes⟩
    simpa [hd, Data.mutates] using this
  | batchWritten records bytes cp policy =>
    have hboundary : Holds tenant run ⟨w.store, rememberBoundary f.env policy w.mem⟩ r :=
      h.of_frame rfl (rememberBoundary_modes ..)
    have := @mutateThen_row fails tenant run r _ f hrun htenant hboundary (foldBatch fails f.env cp)
      fun w => ⟨foldBatch_folded.frame.1, foldBatch_folded.frame.2, foldBatch_folded.mem.modes⟩
    rw [← hd]
    simpa [hd, Data.mutates] using this
  | checkpointSaved cp =>
    obtain ⟨hruns, hmarks, hmodes⟩ := @applyCheckpoint_frame fails w f.env cp
    simpa [Data.mutates] using And.intro hmarks (h.of_frame hruns hmodes)
  | runRequested | runPauseRequested | runCancelRequested | notifierAttempted =>
    simpa [Data.mutates] using h
  | other => simpa [Data.mutates] using h
  | _ => simp [hd, Data.terminal] at hterm

end Apply

/-! ### One attempt -/

variable (fails f seq) in
/-- The attempt loses the fact: it advances the mark, and a call that folds the fact into the run row
fails. -/
def Loses (w : World) : Prop :=
  ∃ mode m s, executionMode fails f.env.tenant f.env.run w = .ok (mode, m) ∧ mode ≠ .continuous ∧
    Call.attempt fails .dedupSeen (w.store.dedupSeen f.env.tenant f.env.run seq) = .ok (false, s) ∧
    f.data.mutates = true ∧ mutateFails fails = true

/-- What one attempt at a non-terminal fact does. -/
inductive Effect (lost : Prop) (tenant : TenantID) (run : RunID) (r : RunState) (f : Fact)
    (seq : ℕ) (s : Store) : World × Except StoreError Unit → Prop
  | retried {w' : World} {e : StoreError} (hmarks : w'.store.marks = s.marks)
      (h : Holds tenant run w' r) : Effect lost tenant run r f seq s (w', .error e)
  | ignored {w' : World} (hfold : foldRow r f = r) (hmarks : w'.store.marks = s.marks)
      (h : Holds tenant run w' r) : Effect lost tenant run r f seq s (w', .ok ())
  | seen {w' : World} (hseen : ∃ last ∈ s.marks (tenant, run), seq ≤ last)
      (hmarks : w'.store.marks = s.marks) (h : Holds tenant run w' r) :
      Effect lost tenant run r f seq s (w', .ok ())
  | folded {res : World × Except StoreError Unit}
      (hnew : ∀ last ∈ s.marks (tenant, run), last < seq)
      (hmarks : res.1.store.marks (tenant, run) = some seq)
      (h : lost ∨ Holds tenant run res.1 (foldRow r f)) : Effect lost tenant run r f seq s res

section

variable (hrun : f.env.run = run) (htenant : f.env.tenant = tenant) (h : Holds tenant run w r)
  (hterm : f.data.terminal = false)
include hrun htenant h hterm

theorem fold_effect (hmode : r.request.options.execution.normalize ≠ .continuous) {lost : Prop}
    (hlost : ∀ s, Call.attempt fails .dedupSeen (w.store.dedupSeen tenant run seq) =
      .ok (false, s) → f.data.mutates = true → mutateFails fails = true → lost) :
    Effect lost tenant run r f seq w.store (fold unmarshal fails f seq w) := by
  unfold fold
  rw [hterm, if_neg Bool.false_ne_true, hrun, htenant]
  cases hd : Call.attempt fails .dedupSeen (w.store.dedupSeen tenant run seq) with
  | error e => exact .retried rfl h
  | ok res =>
    obtain ⟨seen, s⟩ := res
    rcases Store.dedupSeen_eq_ok (attempt_eq_ok.1 hd).2 with
      ⟨rfl, rfl, hseen⟩ | ⟨rfl, hnew, rfl⟩
    · exact .seen hseen rfl h
    -- the mark has advanced: whatever happens from here on, the fact is not folded again
    have hs : Holds tenant run ⟨{ w.store with
        marks := Function.update w.store.marks (tenant, run) (some seq) }, w.mem⟩ r :=
      h.of_frame rfl rfl
    obtain ⟨hmarks, hrow⟩ := apply_row hrun htenant hs hterm hmode
    refine .folded hnew (by rw [hmarks]; exact Function.update_self ..) ?_
    cases hfails : mutateFails fails with
    | false => exact .inr (by simpa [hfails] using hrow)
    | true =>
      cases hmutates : f.data.mutates with
      | true => exact .inl (hlost _ hd hmutates hfails)
      | false => exact .inr (by simpa [hfails, foldRow, hmutates] using hrow)

theorem onFact_effect :
    Effect (Loses fails f seq w) tenant run r f seq w.store
      (onFact unmarshal fails ⟨some f, seq⟩ w) := by
  unfold onFact
  simp only [hrun, htenant]
  split_ifs with hnotify
  · exact .ignored (by simp [foldRow, hnotify, Data.mutates]) rfl h
  rcases @executionMode_spec fails tenant run r w h with hmode | ⟨m, hmode, hm⟩
  · rw [hmode]
    exact .retried rfl h
  · rw [hmode]
    simp only
    split_ifs with hcont
    · exact .ignored (by rw [foldRow, if_pos hcont]) rfl hm
    · refine fold_effect hrun htenant hm hterm hcont fun s hs hmutates hfails => ?_
      subst hrun htenant
      exact ⟨_, m, s, hmode, hcont, hs, hmutates, hfails⟩

end

/-! ### Deliveries -/

/-- A fact with its stream sequence and the calls that fail in each attempt at it. -/
structure Delivery where
  fact : Fact
  seq : ℕ
  attempts : List (Call → Bool)

variable (unmarshal)

/-- Delivers a message until it is acknowledged; `none` when the attempts run out before. -/
def deliver (msg : Message) : List (Call → Bool) → World → Option World
  | [], _ => none
  | fails :: attempts, w =>
    match onFact unmarshal fails msg w with
    | (w', .ok ()) => some w'
    | (w', .error _) => deliver msg attempts w'

/-- Delivers some facts in order. -/
def deliverAll : List Delivery → World → Option World
  | [], w => some w
  | d :: ds, w =>
    match deliver unmarshal ⟨some d.fact, d.seq⟩ d.attempts w with
    | some w' => deliverAll ds w'
    | none => none

/-- None of the attempts that are made at a fact loses it. -/
def NotLost (f : Fact) (seq : ℕ) : List (Call → Bool) → World → Prop
  | [], _ => True
  | fails :: attempts, w => ¬Loses fails f seq w ∧
    ∀ w' e, onFact unmarshal fails ⟨some f, seq⟩ w = (w', .error e) → NotLost f seq attempts w'

/-- None of some facts that are delivered in order is lost. -/
def NoneLost : List Delivery → World → Prop
  | [], _ => True
  | d :: ds, w => NotLost unmarshal d.fact d.seq d.attempts w ∧
    ∀ w' ∈ deliver unmarshal ⟨some d.fact, d.seq⟩ d.attempts w, NoneLost ds w'

variable {unmarshal} {attempts : List (Call → Bool)}

section Deliver

variable (hrun : f.env.run = run) (htenant : f.env.tenant = tenant)
  (hterm : f.data.terminal = false)
include hrun htenant hterm

theorem deliver_marked (hmark : w.store.marks (tenant, run) = some seq) (h : Holds tenant run w r)
    (hd : deliver unmarshal ⟨some f, seq⟩ attempts w = some w') :
    w'.store.marks (tenant, run) = some seq ∧ Holds tenant run w' r := by
  induction attempts generalizing w with
  | nil => cases hd
  | cons fails attempts ih =>
    have heff := @onFact_effect unmarshal fails tenant run r w f seq hrun htenant h hterm
    unfold deliver at hd
    generalize onFact unmarshal fails ⟨some f, seq⟩ w = res at heff hd
    cases heff with
    | retried hmarks h' => exact ih (by rw [hmarks, hmark]) h' hd
    | ignored hfold hmarks h' | seen hseen hmarks h' =>
      cases hd
      exact ⟨by rw [hmarks, hmark], h'⟩
    | folded hnew hmarks h' => exact absurd (hnew seq hmark) (Nat.lt_irrefl seq)

/-- A fact the mark has not reached is folded once, when no attempt loses it. -/
theorem deliver_folded (hnew : ∀ last ∈ w.store.marks (tenant, run), last < seq)
    (h : Holds tenant run w r) (hkept : NotLost unmarshal f seq attempts w)
    (hd : deliver unmarshal ⟨some f, seq⟩ attempts w = some w') :
    (∀ last ∈ w'.store.marks (tenant, run), last ≤ seq) ∧ Holds tenant run w' (foldRow r f) := by
  induction attempts generalizing w with
  | nil => cases hd
  | cons fails attempts ih =>
    have heff := @onFact_effect unmarshal fails tenant run r w f seq hrun htenant h hterm
    have hle : ∀ last ∈ w.store.marks (tenant, run), last ≤ seq :=
      fun last hlast => Nat.le_of_lt (hnew last hlast)
    obtain ⟨hsaved, hlater⟩ := hkept
    unfold deliver at hd
    generalize onFact unmarshal fails ⟨some f, seq⟩ w = res at heff hd hlater
    cases heff with
    | retried hmarks h' => exact ih (by rw [hmarks]; exact hnew) h' (hlater _ _ rfl) hd
    | ignored hfold hmarks h' =>
      cases hd
      rw [hfold, hmarks]
      exact ⟨hle, h'⟩
    | seen hseen hmarks h' =>
      obtain ⟨last, hlast, hge⟩ := hseen
      exact absurd (hnew last hlast) (Nat.not_lt_of_le hge)
    | folded hnew' hmarks h' =>
      replace h' := h'.resolve_left hsaved
      have hseq : ∀ {w' : World}, w'.store.marks (tenant, run) = some seq →
          ∀ last ∈ w'.store.marks (tenant, run), last ≤ seq := by
        intro w' heq last hlast
        rw [heq, Option.mem_some_iff] at hlast
        exact Nat.le_of_eq hlast.symm
      obtain ⟨w₁, out⟩ := res
      cases out with
      | ok u =>
        cases hd
        exact ⟨hseq hmarks, h'⟩
      | error e =>
        -- folded, but not acknowledged: the redeliveries find the mark
        obtain ⟨hmarks', h''⟩ := deliver_marked hrun htenant hterm hmarks h' hd
        exact ⟨hseq hmarks', h''⟩

end Deliver

/-- **Each fact is folded exactly once.** Facts of one run arrive in sequence order and each is
redelivered until it is acknowledged. When no attempt fails between the advance of the mark and the
saved row, the persisted state is the fold of the facts. -/
theorem facts_folded_once (ds : List Delivery)
    (hfacts : ∀ d ∈ ds, d.fact.env.run = run ∧ d.fact.env.tenant = tenant ∧
      d.fact.data.terminal = false)
    (horder : ds.Pairwise fun d d' => d.seq < d'.seq)
    (hnew : ∀ d ∈ ds, ∀ last ∈ w.store.marks (tenant, run), last < d.seq)
    (h : Holds tenant run w r) (hkept : NoneLost unmarshal ds w)
    (hd : deliverAll unmarshal ds w = some w') :
    w'.store.runs run = some ((ds.map Delivery.fact).foldl foldRow r) := by
  induction ds generalizing w r with
  | nil =>
    cases hd
    exact h.row.row
  | cons d ds ih =>
    obtain ⟨hrun, htenant, hterm⟩ := hfacts d (.head _)
    obtain ⟨hlater, horder⟩ := pairwise_cons.1 horder
    unfold deliverAll at hd
    cases hdel : deliver unmarshal ⟨some d.fact, d.seq⟩ d.attempts w with
    | none =>
      rw [hdel] at hd
      cases hd
    | some w₁ =>
      rw [hdel] at hd
      obtain ⟨hmark, h'⟩ := deliver_folded hrun htenant hterm (hnew d (.head _)) h
        hkept.1 hdel
      refine ih (fun d' hd' => hfacts d' (.tail _ hd')) horder ?_ h' (hkept.2 w₁ hdel) hd
      intro d' hd' last hlast
      exact Nat.lt_of_le_of_lt (hmark last hlast) (hlater d' hd')

/-! ### A batch and a failing call -/

/-- A running run of tenant `acme`. -/
def exportRun : RunState := { RunState.fresh "export" "acme" with status := .runRunning }

/-- A store with that run only. -/
def exportStore : Store where
  runs := fun id => if id = "export" then some exportRun else none
  marks := fun _ => none
  checkpoints := fun _ => none
  resourceCheckpoints := fun _ => none

/-- Five written rows of `orders`. -/
def ordersBatch : Fact :=
  ⟨⟨"acme", "export", "orders", 7⟩, .batchWritten 5 50 none .checkpointAfterBatch⟩

/-- Delivers the batch twice; `c` fails the first time. -/
def ordersDelivery (c : Call) : Delivery :=
  ⟨ordersBatch, 1, [fun c' => decide (c' = c), fun _ => false]⟩

theorem exportStore_holds : Holds "acme" "export" ⟨exportStore, .new⟩ exportRun := by
  refine ⟨⟨rfl, rfl, rfl⟩, fun mode hmode => ?_⟩
  cases hmode

/-- When the mark cannot be advanced the first time, the batch is folded by the second attempt. -/
theorem batch_folded_after_failed_mark :
    ∃ w', deliverAll (fun _ => none) [ordersDelivery .dedupSeen] ⟨exportStore, .new⟩ = some w' ∧
      w'.store.runs "export" = some (foldRow exportRun ordersBatch) := by
  obtain ⟨w', hd⟩ : ∃ w', deliverAll (fun _ => none) [ordersDelivery .dedupSeen]
      ⟨exportStore, .new⟩ = some w' := ⟨_, rfl⟩
  refine ⟨w', hd, ?_⟩
  refine facts_folded_once [ordersDelivery .dedupSeen] ?_ (by simp) ?_ exportStore_holds ?_ hd
  · simp [ordersDelivery, ordersBatch, Data.terminal]
  · simp [exportStore]
  · simp [NoneLost, NotLost, ordersDelivery, Loses, mutateFails]

/-- When the run cannot be saved the first time, the mark has already advanced: the second attempt
takes the batch for a duplicate, and its rows are never counted. -/
theorem batch_lost_by_failed_save :
    Holds "acme" "export" ⟨exportStore, .new⟩ exportRun ∧ ordersBatch.data.terminal = false ∧
    ∃ w', deliverAll (fun _ => none) [ordersDelivery .mutateSaveRun] ⟨exportStore, .new⟩ = some w' ∧
      (w'.store.runs "export").map RunState.records = some 0 ∧
      (foldRow exportRun ordersBatch).records = 5 ∧
      w'.store.runs "export" ≠ some (foldRow exportRun ordersBatch) := by
  refine ⟨exportStore_holds, rfl, _, rfl, rfl, rfl, fun heq => ?_⟩
  have hrecords := congrArg (Option.map RunState.records) heq
  exact absurd hrecords (by decide)

end Filament.Tracker
