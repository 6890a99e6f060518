import Mathlib.Algebra.BigOperators.Group.List.Basic
import Mathlib.Algebra.Order.Ring.Nat
import Filament.Lib.Table
import Filament.Pipeline.Stream

/-!
# How rows move through the pipeline

A flush moves rows from a builder to a channel and changes nothing else, or the pipeline has failed.

* `State.held` : how often a row is in the builders and the channels;
* `Shifts` : chunks move from builders to channels;
* `Fails` : the pipeline is done, and its epoch and log are as before;
* `flushWriter_spec`, `flush_spec` : a flush does one or the other.
-/

namespace Filament.Pipeline

open List Option State StreamWriter

variable {cfg : Config} {s s' s'' : State} {i : ℕ} {w w' w'' : StreamWriter} {take : Bool}

/-! ### Counting rows -/

/-- How often a batch has the row `x.2` of the resource `x.1`. -/
def Batch.tally (x : String × Row) (b : Batch) : ℕ := (b.rows.map fun row => (b.resource, row)).count x

def Item.tally (x : String × Row) : Item → ℕ
  | .batch b _ => b.tally x
  | .control _ _ => 0

def StreamWriter.tally (x : String × Row) (w : StreamWriter) : ℕ :=
  (w.builder.rows.map fun row => (w.resource, row)).count x

/-- The items before the sink, the next one first. -/
def State.line (s : State) : List Item := s.batchCh ++ s.transformCh

/-- How often a row is in the channels and the builders. -/
def State.held (s : State) (x : String × Row) : ℕ :=
  (s.line.map (Item.tally x)).sum + (s.writers.map (StreamWriter.tally x)).sum

/-- No row is open, and none is buffered. -/
structure StreamWriter.Still (w : StreamWriter) : Prop where
  rows : w.builder.rows = []
  cells : w.builder.cells = []
  inRow : w.inRow = false

theorem StreamWriter.Still.tally (h : w.Still) (x : String × Row) : w.tally x = 0 := by
  simp [StreamWriter.tally, h.rows]

theorem sum_tally_eq_zero {ws : List StreamWriter} (h : ∀ w ∈ ws, w.Still) (x : String × Row) :
    (ws.map (tally x)).sum = 0 := by
  refine sum_eq_zero fun n hn => ?_
  obtain ⟨w, hw, rfl⟩ := mem_map.1 hn
  exact (h w hw).tally x

/-! ### Shifts -/

/-- The writer `w` may have handed over its chunk. -/
structure StreamWriter.Drains (w w' : StreamWriter) : Prop where
  resource : w'.resource = w.resource
  inRow : w'.inRow = w.inRow
  closed : w'.closed = w.closed
  listed : w'.listed = w.listed
  cells : w'.builder.cells = w.builder.cells
  rows : w'.builder.rows = w.builder.rows ∨ w'.builder.rows = []

theorem StreamWriter.Drains.refl (w : StreamWriter) : w.Drains w := ⟨rfl, rfl, rfl, rfl, rfl, .inl rfl⟩

theorem StreamWriter.Drains.trans (h : w.Drains w') (h' : w'.Drains w'') :
    w.Drains w'' where
  resource := h'.resource.trans h.resource
  inRow := h'.inRow.trans h.inRow
  closed := h'.closed.trans h.closed
  listed := h'.listed.trans h.listed
  cells := h'.cells.trans h.cells
  rows := by
    rcases h'.rows with heq | hnil
    · rw [heq]
      exact h.rows
    · exact .inr hnil

theorem StreamWriter.Drains.still (h : w.Drains w') (hw : w.Still) :
    w'.Still where
  rows := by
    rcases h.rows with heq | hnil
    · exact heq.trans hw.rows
    · exact hnil
  cells := h.cells.trans hw.cells
  inRow := h.inRow.trans hw.inRow

/-- Chunks move from the builders to the channels. -/
structure Shifts (cfg : Config) (s s' : State) : Prop where
  same : { s' with writers := s.writers, transformCh := s.transformCh, batchCh := s.batchCh } = s
  held : ∀ x, s'.held x = s.held x
  sent : ∃ direct routed, s'.batchCh = s.batchCh ++ direct ∧ s'.transformCh = s.transformCh ++ routed ∧
    (cfg.transform = none → routed = []) ∧
    ∀ item ∈ direct ++ routed, ∃ b, item = .batch b s.epoch ∧ b.rows ≠ []
  writers : List.Forall₂ StreamWriter.Drains s.writers s'.writers

/-- The pipeline is done; its epoch and its log are as before. -/
structure Fails (s s' : State) : Prop where
  done : s'.done = true
  log : s'.log = s.log
  epoch : s'.epoch = s.epoch
  sealed : s'.sealed = s.sealed

theorem Shifts.refl (cfg : Config) (s : State) : Shifts cfg s s where
  same := rfl
  held _ := rfl
  sent := ⟨[], [], by simp, by simp, fun _ => rfl, by simp⟩
  writers := forall₂_same.2 fun w _ => StreamWriter.Drains.refl w

theorem Shifts.epoch (h : Shifts cfg s s') : s'.epoch = s.epoch :=
  (congrArg State.epoch h.same : _)

theorem Shifts.trans (h : Shifts cfg s s') (h' : Shifts cfg s' s'') : Shifts cfg s s'' where
  same := by
    have := h'.same
    have := h.same
    cases s
    cases s'
    cases s''
    simp_all
  held x := (h'.held x).trans (h.held x)
  sent := by
    obtain ⟨d, r, hd, hr, hnone, hitems⟩ := h.sent
    obtain ⟨d', r', hd', hr', hnone', hitems'⟩ := h'.sent
    refine ⟨d ++ d', r ++ r', by rw [hd', hd, append_assoc], by rw [hr', hr, append_assoc],
      fun hcfg => by rw [hnone hcfg, hnone' hcfg]; rfl, fun item hitem => ?_⟩
    rw [h.epoch] at hitems'
    simp only [mem_append] at hitem hitems hitems'
    rcases hitem with (hmem | hmem) | (hmem | hmem)
    · exact hitems item (.inl hmem)
    · exact hitems' item (.inl hmem)
    · exact hitems item (.inr hmem)
    · exact hitems' item (.inr hmem)
  writers := h.writers.trans (fun _ _ _ hab hbc => hab.trans hbc) h'.writers

/-- The error of a flush leaves the epoch and the log. -/
structure Spares (s s' : State) : Prop where
  log : s'.log = s.log
  epoch : s'.epoch = s.epoch
  sealed : s'.sealed = s.sealed

theorem Spares.fail (h : Spares s s') (e : Error) : Fails s (s'.fail e).1 := { h with done := rfl }

theorem Shifts.spares (h : Shifts cfg s s') : Spares s s' where
  log := (congrArg log h.same : _)
  epoch := h.epoch
  sealed := (congrArg sealed h.same : _)

theorem shifts_setWriter (hw : s.writers[i]? = some w) (hd : w.Drains w')
    (hrows : w'.builder.rows = w.builder.rows) : Shifts cfg s (s.setWriter i w') where
  same := rfl
  held x := by
    have hsum := sum_map_set (f := tally x) (b := w') hw
    have htally : w'.tally x = w.tally x := by
      simp only [tally, hrows, hd.resource]
    simp only [held, setWriter, line]
    omega
  sent := ⟨[], [], by simp [setWriter], by simp [setWriter], fun _ => rfl, by simp⟩
  writers := forall₂_set StreamWriter.Drains.refl hw hd

theorem send_cases (s : State) (transforms take : Bool) (item : Item) :
    (s.done = true ∧ ∃ e, s.send transforms take item = (s, some e)) ∨
    (transforms = true ∧ s.send transforms take item =
      ({ s with transformCh := s.transformCh ++ [item] }, none)) ∨
    (transforms = false ∧ s.send transforms take item =
      ({ s with batchCh := s.batchCh ++ [item] }, none)) := by
  unfold send
  split_ifs with hdone htransforms
  · exact .inl ⟨hdone.1, _, rfl⟩
  · exact .inr (.inl ⟨htransforms, rfl⟩)
  · exact .inr (.inr ⟨by simpa using htransforms, rfl⟩)

theorem shifts_sent {b : Batch} (hw : s.writers[i]? = some w) (hd : w.Drains w')
    (hnil : w'.builder.rows = []) (hrows : w.builder.rows ≠ []) (hb : b.rows = w.builder.rows)
    (hresource : b.resource = w.resource) {direct routed : List Item}
    (hone : direct ++ routed = [.batch b s.epoch]) (hnone : cfg.transform = none → routed = []) :
    Shifts cfg s (({ s with
      transformCh := s.transformCh ++ routed, batchCh := s.batchCh ++ direct } : State).setWriter i w') where
  same := rfl
  held x := by
    have hsum := sum_map_set (f := tally x) (b := w') hw
    have hitem := congrArg (fun l => (l.map (Item.tally x)).sum) hone
    have hb' : b.tally x = w.tally x := by simp only [Batch.tally, tally, hb, hresource]
    have hzero : w'.tally x = 0 := by simp [tally, hnil]
    simp only [held, setWriter, line, map_append, sum_append,
      map_cons, map_nil, sum_cons, sum_nil, Item.tally] at hitem ⊢
    omega
  sent := by
    refine ⟨direct, routed, rfl, rfl, hnone, fun item hitem => ?_⟩
    rw [hone, mem_singleton] at hitem
    exact ⟨b, hitem, hb ▸ hrows⟩
  writers := forall₂_set StreamWriter.Drains.refl hw hd

/-- `handOver` shifts the chunk of its writer, or it reports an error. -/
theorem handOver_spec (cfg : Config) (take : Bool) (hw : s.writers[i]? = some w) :
    (∃ s', s.handOver cfg i w take = (s', none) ∧ Shifts cfg s s' ∧ w.builder.cells = [] ∧
      ∃ w', s'.writers[i]? = some w' ∧ w.Drains w' ∧ w'.builder.rows = []) ∨
    ∃ s' e, s.handOver cfg i w take = (s', some e) ∧ Spares s s' := by
  obtain ⟨hi, -⟩ := List.getElem?_eq_some_iff.1 hw
  unfold handOver
  split_ifs with hcells hrows
  · exact .inr ⟨_, _, rfl, rfl, rfl, rfl⟩
  · rw [not_not] at hcells
    refine .inl ⟨_, rfl, shifts_setWriter hw ⟨rfl, rfl, rfl, rfl, rfl, .inl rfl⟩ rfl, hcells, _,
      getElem?_set_self hi, ⟨rfl, rfl, rfl, rfl, rfl, .inl rfl⟩, hrows⟩
  · rw [not_not] at hcells
    simp only
    split
    · next s' e hsend =>
      refine .inr ⟨_, _, rfl, ?_⟩
      rcases send_cases s _ take _ with ⟨-, e', heq⟩ | ⟨-, heq⟩ | ⟨-, heq⟩
      · obtain ⟨rfl, -⟩ := Prod.mk.inj (heq.symm.trans hsend)
        exact ⟨rfl, rfl, rfl⟩
      all_goals exact absurd (congrArg Prod.snd (heq.symm.trans hsend)) (some_ne_none e).symm
    · next s' hsend =>
      have hd : w.Drains { w with
          builder := { w.builder.taken with flushReq := false }, seq := w.seq + 1 } :=
        ⟨rfl, rfl, rfl, rfl, rfl, .inr rfl⟩
      have hshifts : Shifts cfg s (s'.setWriter i { w with
          builder := { w.builder.taken with flushReq := false }, seq := w.seq + 1 }) := by
        have hsent := fun direct routed => @shifts_sent cfg s i w _
          ⟨w.resource, w.seq, w.builder.rows, w.builder.columns⟩ hw hd rfl hrows rfl rfl direct routed
        rcases send_cases s _ take _ with ⟨-, e, heq⟩ | ⟨hplan, heq⟩ | ⟨-, heq⟩
        · exact absurd (congrArg Prod.snd (heq.symm.trans hsend)) (some_ne_none e)
        · obtain ⟨rfl, -⟩ := Prod.mk.inj (heq.symm.trans hsend)
          have hrouted := hsent [] _ rfl fun hnone => by simp [Config.plan, hnone] at hplan
          rwa [append_nil] at hrouted
        · obtain ⟨rfl, -⟩ := Prod.mk.inj (heq.symm.trans hsend)
          have hdirect := hsent [_] [] rfl fun _ => rfl
          rwa [append_nil] at hdirect
      refine .inl ⟨_, rfl, hshifts, hcells, ?_⟩
      obtain ⟨w', hw', hd'⟩ := hshifts.writers.getElem?_left hw
      refine ⟨w', hw', hd', ?_⟩
      have hlen : i < s'.writers.length := by
        have hlength := hshifts.writers.length_eq
        simp only [setWriter, length_set] at hlength
        omega
      obtain rfl := some.inj ((getElem?_set_self hlen).symm.trans hw')
      rfl

/-- `streamWriter.Flush` shifts the chunk of a writer between rows, or the pipeline has failed. -/
theorem flushWriter_spec (cfg : Config) (take : Bool) (hstopped : s.err ≠ none → s.done = true)
    (hw : s.writers[i]? = some w) :
    (∃ s', s.flushWriter cfg i w take = (s', none) ∧ Shifts cfg s s' ∧ w.closed = false ∧
      ∃ w', s'.writers[i]? = some w' ∧ w.Drains w' ∧ w'.Still) ∨
    ∃ s' e, s.flushWriter cfg i w take = (s', some e) ∧ Fails s s' := by
  have hspares : Spares s s := ⟨rfl, rfl, rfl⟩
  have hfails : ∀ (s' : State) (e : Error), Spares s s' →
      ∃ s'' e', s'.fail e = (s'', some e') ∧ Fails s s'' := fun s' e h => ⟨_, _, rfl, h.fail e⟩
  unfold flushWriter
  cases herr : s.err with
  | some e => exact .inr ⟨s, e, rfl, hstopped (by simp [herr]), rfl, rfl, rfl⟩
  | none =>
    split_ifs with hclosed hinRow hbuilder
    · exact .inr (hfails s _ hspares)
    · exact .inr (hfails s _ hspares)
    · exact .inr (hfails s _ hspares)
    · cases hberr : w.builder.err with
      | some e => exact .inr (hfails s e hspares)
      | none =>
        rcases handOver_spec cfg take hw with ⟨s', heq, hshifts, hcells, w', hw', hd, hrows⟩ |
          ⟨s', e, heq, hs'⟩
        · simp only [heq]
          exact .inl ⟨s', rfl, hshifts, by simpa using hclosed, w', hw', hd, hrows,
            hd.cells.trans hcells, hd.inRow.trans (by simpa using hinRow)⟩
        · simp only [heq]
          exact .inr (hfails s' e hs')

/-- The writers `is` that the inlet has and that are not closed are between rows, and hold none. -/
def StillAt (s : State) (is : List ℕ) : Prop :=
  ∀ i ∈ is, ∀ w, s.writers[i]? = some w → w.listed = true → w.closed = false → w.Still

/-- `streamInlet.flush` drains its writers, or the pipeline has failed. -/
theorem flush_spec (cfg : Config) (take : Bool) (is : List ℕ)
    (hstopped : s.err ≠ none → s.done = true) :
    (∃ s', s.flush cfg take is = (s', none) ∧ Shifts cfg s s' ∧ StillAt s' is) ∨
    ∃ s' e, s.flush cfg take is = (s', some e) ∧ Fails s s' := by
  induction is generalizing s with
  | nil => exact .inl ⟨s, rfl, .refl cfg s, by simp [StillAt]⟩
  | cons i is ih =>
    have hskip : (∀ w, s.writers[i]? = some w → ¬ (w.listed = true ∧ ¬ w.closed = true)) →
        (∃ s', s.flush cfg take is = (s', none) ∧ Shifts cfg s s' ∧ StillAt s' (i :: is)) ∨
        ∃ s' e, s.flush cfg take is = (s', some e) ∧ Fails s s' := by
      intro hnot
      rcases ih hstopped with ⟨s', heq, hshifts, hstill⟩ | hfails
      · refine .inl ⟨s', heq, hshifts, fun j hj w' hw' hlisted hclosed => ?_⟩
        rcases mem_cons.1 hj with rfl | hj
        · obtain ⟨w, hw, hd⟩ := hshifts.writers.getElem?_right hw'
          refine absurd ⟨hd.listed ▸ hlisted, ?_⟩ (hnot w hw)
          rw [← hd.closed, hclosed]
          exact Bool.false_ne_true
        · exact hstill j hj w' hw' hlisted hclosed
      · exact .inr hfails
    cases hw : s.writers[i]? with
    | none =>
      simp only [flush, hw]
      exact hskip (by simp [hw])
    | some w =>
      simp only [flush, hw]
      split_ifs with hflushes
      · rcases flushWriter_spec cfg take hstopped hw with ⟨s₁, heq, hshifts₁, -, w₁, hw₁, hd₁, hstill₁⟩ |
          ⟨s₁, e, heq, hfails⟩
        · have herr : s₁.err = s.err := (congrArg err hshifts₁.same : _)
          have hdone : s₁.done = s.done := (congrArg done hshifts₁.same : _)
          rcases ih (s := s₁) (by rw [herr, hdone]; exact hstopped) with ⟨s', heq', hshifts, hstill⟩ |
            ⟨s', e, heq', hfails⟩
          · refine .inl ⟨s', by simp only [heq, heq'], hshifts₁.trans hshifts, fun j hj w' hw' => ?_⟩
            rcases mem_cons.1 hj with rfl | hj
            · obtain ⟨w₂, hw₂, hd₂⟩ := hshifts.writers.getElem?_left hw₁
              obtain rfl := mem_unique hw₂ hw'
              exact fun _ _ => hd₂.still hstill₁
            · exact hstill j hj w' hw'
          · have hspares := hshifts₁.spares
            exact .inr ⟨s', e, by simp only [heq, heq'], hfails.done, hfails.log.trans hspares.log,
              hfails.epoch.trans hspares.epoch, hfails.sealed.trans hspares.sealed⟩
        · exact .inr ⟨s₁, e, by simp only [heq], hfails⟩
      · exact hskip fun w' hw' => by rwa [← mem_unique hw hw']

theorem ready_eq_none (h : s.ready = none) : s.err = none ∧ s.closed = false ∧ s.done = false := by
  unfold ready at h
  cases herr : s.err with
  | some e => simp [herr] at h
  | none =>
    simp only [herr] at h
    split_ifs at h with hor
    rw [not_or] at hor
    exact ⟨rfl, by simpa using hor.1, by simpa using hor.2⟩

/-- `beforeWrite` refuses, or it lets an open writer enter a row after the switch to it. -/
theorem beforeWrite_spec (cfg : Config) (i : ℕ) (take : Bool) (hstopped : s.err ≠ none → s.done = true) :
    (∃ s', s.beforeWrite cfg i take = (s', false) ∧ Fails s s') ∨
    (s.sealed = false ∧ s.beforeWrite cfg i take = (s.written, false)) ∨
    (s.sealed = false ∧ s.ready = none ∧ ∃ s₁, s.beforeWrite cfg i take = (s₁.enter i, true) ∧
      Shifts cfg s.written s₁ ∧ ∃ w, s₁.writers[i]? = some w ∧ w.closed = false) := by
  unfold beforeWrite
  split_ifs with hsealed
  · exact .inl ⟨_, rfl, rfl, rfl, rfl, rfl⟩
  split
  · next w hnone hw =>
    have hw' : s.written.writers[i]? = some w := hw
    split_ifs with hclosed
    · exact .inl ⟨_, rfl, rfl, rfl, rfl, rfl⟩
    have hsealed' : s.sealed = false := by simpa using hsealed
    have hclosed' : w.closed = false := by simpa using hclosed
    split
    · exact .inr (.inr ⟨hsealed', hnone, s.written, rfl, .refl cfg _, w, hw, hclosed'⟩)
    · next j v hj =>
      obtain ⟨k, -, hv⟩ := bind_eq_some_iff.1 hj
      obtain ⟨v', hv', heq⟩ := map_eq_some_iff.1 hv
      cases heq
      rcases flushWriter_spec (s := s.written) cfg take hstopped hv' with
        ⟨s₁, heq, hshifts, -⟩ | ⟨s₁, e, heq, hfails⟩
      · refine .inr (.inr ⟨hsealed', hnone, s₁, ?_, hshifts, ?_⟩)
        · rw [heq]
        · obtain ⟨w₁, hw₁, hd⟩ := hshifts.writers.getElem?_left hw'
          exact ⟨w₁, hw₁, hd.closed.trans hclosed'⟩
      · refine .inl ⟨s₁, ?_, hfails.done, hfails.log, hfails.epoch, hfails.sealed⟩
        rw [heq]
  · exact .inr (.inl ⟨by simpa using hsealed, rfl⟩)

end Filament.Pipeline
