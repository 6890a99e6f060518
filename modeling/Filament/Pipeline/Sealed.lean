import Filament.Lib.Trace
import Filament.Pipeline.Accounts

/-!
# A sealed epoch accounts for its rows

When `SealEpoch` returns a proof, every row that was ended in the epoch has been applied by the sink.

* `Inv.step` : binding and sealing, the transformer and the writer keep the invariant;
* `sealed_accounts` : the proofs, the rows and the bindings of every run;
* `uncovered_domain` : a domain whose rows are in the epoch need not be covered.
-/

namespace Filament.Pipeline

open Streams History List Nat State

variable {cfg : Config} {s s' : State}

/-! ### Epochs -/

variable {proof : EpochCompletion}

theorem State.Quiet.held (h : s.Quiet) (x : String × Row) : s.held x = 0 := by
  rw [State.held, h.1, sum_tally_eq_zero h.2]
  rfl

theorem count_flatMap_rows (l : List (Batch × WriteReceipt)) (x : String × Row) :
    (l.flatMap fun a => a.1.rows.map fun row => (a.1.resource, row)).count x =
      (l.map fun a => a.1.tally x).sum := by
  induction l with
  | nil => rfl
  | cons a l ih =>
    rw [flatMap_cons, count_append, ih]
    rfl

theorem sealEpoch_ok (h : s.sealEpoch = .ok (proof, s')) :
    ∃ ref, s.ready = none ∧ s.epoch = some ref ∧ s.sealed = false ∧ s.transactions = ∅ ∧
      s.completed.keys ≠ [] ∧ proof = s.completion ref ∧
      s' = { s with sealed := true }.record (.sealed (s.completion ref)) := by
  unfold sealEpoch at h
  split at h
  · cases h
  · cases h
  · next ref hready hepoch =>
    split_ifs at h with hnot
    rw [not_or, not_or, not_not] at hnot
    obtain ⟨hproof, hstate⟩ := Prod.mk.inj (Except.ok.inj h)
    exact ⟨ref, hready, hepoch, by simpa using hnot.1, AList.keys_eq_nil.1 hnot.2.1, hnot.2.2,
      hproof.symm, hstate.symm⟩

section

variable (h : Inv cfg s) (hwaiting : s.waiting = none)
include h hwaiting

theorem Inv.bindEpoch (ref : EpochRef) :
    Inv cfg (s.bindEpoch ref).1 := by
  unfold State.bindEpoch
  split
  · exact h
  · exact h
  · exact h
  · next hready =>
    split_ifs with hbind
    · obtain ⟨-, -, hlive⟩ := ready_eq_none hready
      have hs := h.shape hlive
      have hidle : s.Idle := by
        cases hepoch : s.epoch with
        | none => exact .inr (.inr (hbind.1 hepoch))
        | some last => exact .inr (.inl (hbind.2 last hepoch).1)
      have hquiet := hs.quiet hwaiting hidle
      have htransactions : s.transactions = ∅ := by
        cases hepoch : s.epoch with
        | none => exact (hs.untouched (hbind.1 hepoch)).2
        | some last => exact hs.sealed (hbind.2 last hepoch).1
      have hsince : since (s.log ++ [.bound ref]) = [] := since_append_bound s.log ref
      refine ⟨⟨h.basis.stopped, (lastBound_append_bound s.log ref).symm, ?_, ?_⟩, fun _ => ?_, fun _ x => ?_⟩
      · change false = true ↔ ∃ proof, .sealed proof ∈ since (s.log ++ [.bound ref])
        rw [hsince]
        simp
      · refine justified_append h.basis.justified ⟨fun hnone => ?_, fun last hlast => ?_⟩
        · exact (hs.untouched (hbind.1 (h.basis.epoch.trans hnone))).1
        · obtain ⟨hsealed, hnext⟩ := hbind.2 last (h.basis.epoch.trans hlast)
          exact ⟨h.basis.sealed.1 hsealed, hnext⟩
      · have hbatches : appliedBatches (since (s.log ++ [.bound ref])) = [] := by
          rw [hsince]
          rfl
        refine ⟨hs.tidy, hs.routed, fun b epoch hb => ?_, hs.numbered, ?_, fun _ _ => hquiet, fun _ a ha => ?_,
          fun _ => ?_, ?_, fun d p hd => ?_, nofun, fun htouched => ?_⟩
        · have hb' : .batch b epoch ∈ s.line := hb
          rw [hquiet.1] at hb'
          simp at hb'
        · exact hs.queued.of_line hwaiting hwaiting
        · have ha' : a ∈ appliedBatches (since (s.log ++ [.bound ref])) := ha
          rw [hbatches] at ha'
          simp at ha'
        · change State.Totals _ (appliedBatches (since (s.log ++ [.bound ref])))
          rw [hbatches]
          exact ⟨rfl, rfl, fun _ => rfl⟩
        · exact htransactions.trans (congrArg openTransactions hsince).symm
        · exact absurd hd nofun
        · obtain ⟨hrows, -⟩ := hs.untouched htouched
          exact ⟨(endedRows_append rfl).trans hrows, htransactions⟩
      · change (endedRows (since (s.log ++ [.bound ref]))).count x =
          appliedTally (s.log ++ [.bound ref]) x + s.held x
        rw [appliedTally, hsince, hquiet.held]
        rfl
    · exact h

/-- **One seal.** A proof accounts for the epoch, in a quiet pipeline. -/
theorem Inv.complete (hseal : s.sealEpoch = .ok (proof, s')) :
    s.Quiet ∧ Complete cfg (since s.log) proof := by
  obtain ⟨ref, hready, hepoch, -, htransactions, hcompleted, rfl, -⟩ := sealEpoch_ok hseal
  obtain ⟨-, -, hlive⟩ := ready_eq_none hready
  have hs := h.shape hlive
  have hquiet := hs.quiet hwaiting (.inl hcompleted)
  have hbound : s.epoch ≠ none := by simp [hepoch]
  obtain ⟨hrows, hbytes, hresources⟩ := hs.totals hbound
  refine ⟨hquiet, ?_, hs.receipts hbound, hs.transactions ▸ htransactions, ?_, ?_, hrows, hbytes, ?_⟩
  · rw [perm_iff_count]
    intro x
    rw [count_flatMap_rows, h.account hlive x, hquiet.held, add_zero]
    rfl
  · exact fun hnil => hcompleted (AList.pairs_eq_nil.1 hnil)
  · rintro ⟨d, p⟩ hmem
    exact hs.covered d p (AList.mem_pairs.1 hmem)
  · intro resource total
    change (resource, total) ∈ s.epochResources.pairs ↔ _
    rw [AList.mem_pairs, hresources resource]
    split_ifs with hnil
    · simp [hnil]
    · simp [hnil, eq_comm]

theorem Inv.sealEpoch (hseal : s.sealEpoch = .ok (proof, s')) : Inv cfg s' := by
  obtain ⟨hquiet, hcomplete⟩ := h.complete hwaiting hseal
  obtain ⟨ref, hready, hepoch, hsealed, htransactions, -, rfl, rfl⟩ := sealEpoch_ok hseal
  obtain ⟨-, -, hlive⟩ := ready_eq_none hready
  have hs := h.shape hlive
  have hsince : since (s.log ++ [.sealed (s.completion ref)]) = since s.log ++ [.sealed (s.completion ref)] :=
    since_append rfl
  refine ⟨⟨h.basis.stopped, h.basis.epoch.trans (lastBound_append rfl).symm, ?_, ?_⟩, fun _ => ?_,
    fun _ => Account.record (s := { s with sealed := true }) (h.account hlive) rfl rfl rfl⟩
  · change true = true ↔ ∃ proof, .sealed proof ∈ since (s.log ++ [.sealed (s.completion ref)])
    rw [hsince]
    exact ⟨fun _ => ⟨_, mem_concat_self⟩, fun _ => rfl⟩
  · refine justified_append h.basis.justified ⟨h.basis.epoch.symm.trans hepoch, fun earlier hmem => ?_, hcomplete⟩
    exact Bool.noConfusion (hsealed.symm.trans (h.basis.sealed.2 ⟨earlier, hmem⟩))
  · refine Shape.record (s := { s with sealed := true }) ?_ _ rfl rfl rfl (.inl rfl)
    exact { hs with
        queued := hs.queued.of_line hwaiting hwaiting, quiet := fun _ _ => hquiet
        sealed := fun _ => htransactions }

end

/-! ### The goroutines -/

variable {rest : List Item} {b : Batch} {epoch : Option EpochRef}

/-- The same batch with other columns, or the same item. -/
inductive Item.Recasts : Item → Item → Prop where
  | same (item : Item) : Recasts item item
  | columns (b : Batch) (epoch : Option EpochRef) (columns : List (List Value)) :
    Recasts (.batch b epoch) (.batch (b.withRows columns) epoch)

theorem State.Totals.add {l : List (Batch × WriteReceipt)} (h : s.Totals l) (b : Batch)
    (receipt : WriteReceipt) : (s.addTotals b receipt).Totals (l ++ [(b, receipt)]) := by
  obtain ⟨hrows, hbytes, hresources⟩ := h
  refine ⟨?_, ?_, fun resource => ?_⟩
  · simp [addTotals, totalRows, hrows]
  · simp [addTotals, totalBytes, hbytes]
  · by_cases heq : resource = b.resource
    · subst heq
      have hof : ofResource b.resource (l ++ [(b, receipt)]) =
          ofResource b.resource l ++ [(b, receipt)] := by
        simp [ofResource]
      rw [hof, if_neg (by simp)]
      simp only [addTotals, AList.lookup_insert, hresources b.resource]
      split_ifs with hnil
      · simp [hnil, totalRows, totalBytes]
      · simp [totalRows, totalBytes]
    · have hof : ofResource resource (l ++ [(b, receipt)]) = ofResource resource l := by
        simp [ofResource, Ne.symm heq]
      rw [hof]
      simp only [addTotals, AList.lookup_insert_ne heq]
      exact hresources resource

section

variable (h : Shape cfg s) (hbatch : s.batchCh = .batch b epoch :: rest)
include h hbatch

theorem Shape.pop :
    Shape cfg { s with batchCh := rest } := by
  have hline : s.line = .batch b epoch :: (rest ++ s.transformCh) := by
    rw [line, hbatch, cons_append]
  refine { h with
      stamped := fun b' epoch' hb' => ?_, queued := ?_, quiet := fun hwaiting hidle => ?_ }
  · exact h.stamped b' epoch' (hline ▸ mem_cons_of_mem _ hb')
  · have hq := h.queued
    unfold State.Queued at hq ⊢
    cases hwaiting : s.waiting with
    | none =>
      rw [hwaiting] at hq
      exact fun item hitem => hq item (hline ▸ mem_cons_of_mem _ hitem)
    | some pending =>
      rw [hwaiting, hline] at hq
      obtain ⟨hstill, hopen, ⟨-, hnil⟩ | ⟨hseq, before, hbefore, hall⟩⟩ := hq
      · exact absurd hnil (cons_ne_nil _ _)
      refine ⟨hstill, hopen, .inr ⟨hseq, ?_⟩⟩
      cases before with
      | nil => exact Item.noConfusion (head_eq_of_cons_eq hbefore)
      | cons item before =>
        exact ⟨before, tail_eq_of_cons_eq hbefore, fun x hx => hall x (.tail _ hx)⟩
  · have hquiet := (h.quiet hwaiting hidle).1
    rw [hline] at hquiet
    exact absurd hquiet (cons_ne_nil _ _)

/-- The next batch was sent in the epoch. -/
theorem Shape.epoch_of_next :
    epoch = s.epoch := by
  refine h.stamped b epoch ?_
  rw [line, hbatch]
  exact (.head _) ..

end

section

variable (h : Inv cfg s)
include h

/-- The transformer hands an item on; the line keeps its order. -/
theorem Inv.forward {item item' : Item} (htransform : s.transformCh = item :: rest)
    (hitem : item.Recasts item') :
    Inv cfg { s with transformCh := rest, batchCh := s.batchCh ++ [item'] } := by
  have hline : s.line = s.batchCh ++ item :: rest := by rw [line, htransform]
  have hline' : line { s with transformCh := rest, batchCh := s.batchCh ++ [item'] } =
      s.batchCh ++ item' :: rest := by
    simp [line]
  have hbatch : ∀ l, (∀ x ∈ s.batchCh ++ item :: l, x.IsBatch) →
      ∀ x ∈ s.batchCh ++ item' :: l, x.IsBatch := by
    intro l hl x hx
    simp only [mem_append, mem_cons] at hl hx
    rcases hx with hx | rfl | hx
    · exact hl x (.inl hx)
    · cases hitem with
      | same => exact hl _ (.inr (.inl rfl))
      | columns => trivial
    · exact hl x (.inr (.inr hx))
  refine ⟨{ h.basis with }, fun hdone => ?_, fun hdone x => ?_⟩
  · have hs := h.shape hdone
    refine { hs with
        routed := fun hnone => ?_, stamped := fun b epoch hb => ?_, queued := ?_
        quiet := fun hwaiting hidle => ?_ }
    · exact absurd (htransform.symm.trans (hs.routed hnone)) (cons_ne_nil _ _)
    · rw [hline'] at hb
      simp only [mem_append, mem_cons] at hb
      have hstamped := hs.stamped
      rw [hline] at hstamped
      simp only [mem_append, mem_cons] at hstamped
      rcases hb with hb | hb | hb
      · exact hstamped b epoch (.inl hb)
      · cases hitem with
        | same => exact hstamped b epoch (.inr (.inl hb))
        | columns b₀ epoch₀ columns =>
          cases hb
          exact hstamped b₀ epoch (.inr (.inl rfl))
      · exact hstamped b epoch (.inr (.inr hb))
    · have hq := hs.queued
      unfold State.Queued at hq ⊢
      rw [hline']
      rw [hline] at hq
      cases hwaiting : s.waiting with
      | none =>
        rw [hwaiting] at hq
        exact hbatch rest hq
      | some pending =>
        rw [hwaiting] at hq
        obtain ⟨hstill, hopen, ⟨-, hnil⟩ | ⟨hseq, before, hbefore, hall⟩⟩ := hq
        · exact absurd hnil (by simp)
        refine ⟨hstill, hopen, .inr ⟨hseq, ?_⟩⟩
        rcases eq_nil_or_concat rest with rfl | ⟨init, last, rfl⟩
        · -- the control itself is handed on
          obtain ⟨rfl, hcontrol⟩ := append_inj' hbefore rfl
          obtain rfl := head_eq_of_cons_eq hcontrol
          cases hitem with
          | same => exact ⟨s.batchCh, rfl, hall⟩
        · rw [concat_eq_append, ← cons_append, ← append_assoc] at hbefore
          obtain ⟨rfl, hcontrol⟩ := append_inj' hbefore rfl
          refine ⟨s.batchCh ++ item' :: init, ?_, hbatch init hall⟩
          rw [concat_eq_append, hcontrol, append_assoc, cons_append]
    · have hquiet := (hs.quiet hwaiting hidle).1
      rw [hline] at hquiet
      simp at hquiet
  · have haccount := h.account hdone x
    have htally : item'.tally x = item.tally x := by
      cases hitem with
      | same => rfl
      | columns => rfl
    simp only [held, hline, hline', map_append, sum_append_nat, map_cons, sum_cons] at haccount ⊢
    omega

theorem Inv.transformer (take : Bool) (panic : Option String) :
    Inv cfg (s.transformer cfg take panic) := by
  -- an item that is handed on joins the other channel, or the pipeline is done
  have hsend : ∀ item item' rest, s.transformCh = item :: rest → item.Recasts item' →
      Inv cfg ({ s with transformCh := rest }.send false take item').1 := by
    intro item item' rest htransform hitem
    rcases send_cases { s with transformCh := rest } false take item' with ⟨hdone, e, heq⟩ |
      ⟨hfalse, -⟩ | ⟨-, heq⟩
    · rw [heq]
      exact h.fails ⟨hdone, rfl, rfl, rfl⟩
    · exact Bool.noConfusion hfalse
    · rw [heq]
      exact h.forward htransform hitem
  unfold State.transformer
  split
  · exact h
  · next item rest htransform =>
    simp only
    split_ifs with herr
    · exact h.fails ⟨h.basis.stopped (by simpa [Option.isSome_iff_ne_none] using herr), rfl, rfl, rfl⟩
    split
    · exact hsend _ _ rest htransform (.same _)
    split
    · exact hsend _ _ rest htransform (.same _)
    split
    · exact h.fails ⟨rfl, rfl, rfl, rfl⟩
    · exact h.fails ⟨rfl, rfl, rfl, rfl⟩
    · exact hsend _ _ rest htransform (.columns ..)

/-- A batch is applied with a receipt for its rows and its checksum. -/
theorem Inv.applied (hbatch : s.batchCh = .batch b epoch :: rest) (receipt : WriteReceipt)
    (hreceipt : epoch ≠ none → receipt.rows = b.numRows)
    (hcrc : receipt.writeCRC = cfg.integrityCRC b) :
    Inv cfg (let s := { s with batchCh := rest }.record (.applied b receipt)
      if epoch.isSome then s.addTotals b receipt else s) := by
  set t := { s with batchCh := rest }.record (.applied b receipt) with ht
  have hbasis : Basis cfg t := by
    have := h.basis.record (.applied b receipt) rfl (fun _ => Fact.noConfusion) trivial
    exact { this with }
  have hsince : since t.log = since s.log ++ [.applied b receipt] := since_append rfl
  have hbatches : appliedBatches (since t.log) = appliedBatches (since s.log) ++ [(b, receipt)] := by
    rw [hsince]
    simp [appliedBatches, filterMap_append, Fact.appliedBatch]
  have hcontrols : openTransactions (since t.log) = openTransactions (since s.log) :=
    openTransactions_since rfl rfl
  have haccount : t.done = false → Account t := by
    intro hdone x
    have haccount := h.account hdone x
    have hended : endedRows (since t.log) = endedRows (since s.log) := endedRows_since rfl rfl
    have hheld : s.held x = b.tally x + t.held x := by
      simp only [held, line, hbatch, cons_append, map_cons, sum_cons]
      exact add_assoc ..
    simp only [appliedTally, hended, hbatches, map_append, sum_append_nat, map_cons,
      map_nil, sum_cons, sum_nil] at haccount ⊢
    omega
  have hshape : ∀ rows bytes resources, s.done = false → (s.epoch ≠ none → State.Totals { t with
      epochRows := rows, epochBytes := bytes, epochResources := resources } (appliedBatches (since t.log))) →
      Shape cfg { t with epochRows := rows, epochBytes := bytes, epochResources := resources } := by
    intro rows bytes resources hdone htotals
    have hs := h.shape hdone
    have hpop := hs.pop hbatch
    have hepoch := hs.epoch_of_next hbatch
    refine { hpop with
        receipts := fun hbound a ha => ?_, totals := htotals
        transactions := hpop.transactions.trans hcontrols.symm, covered := fun d p hd => ?_
        untouched := fun htouched => ?_ }
    · have ha' : a ∈ appliedBatches (since t.log) := ha
      rw [hbatches] at ha'
      rcases mem_concat.1 ha' with hold | rfl
      · exact hs.receipts hbound a hold
      · exact ⟨hreceipt (hepoch ▸ hbound), hcrc⟩
    · change Covered (since t.log) d p
      rw [hsince]
      exact (hs.covered d p hd).append rfl
    · obtain ⟨hrows, htransactions⟩ := hs.untouched htouched
      exact ⟨(endedRows_append rfl).trans hrows, htransactions⟩
  split_ifs with hsome
  · refine ⟨{ hbasis with }, fun hdone => ?_, haccount⟩
    refine hshape _ _ _ hdone fun hbound => ?_
    rw [hbatches]
    exact State.Totals.add (s := t) ((h.shape hdone).totals hbound) b receipt
  · refine ⟨hbasis, fun hdone => hshape _ _ _ hdone fun hbound => ?_, haccount⟩
    have hepoch := (h.shape hdone).epoch_of_next hbatch
    exact absurd (hepoch ▸ hbound) (by simpa using hsome)

/-- The control of a barrier is the last item of the line. -/
theorem Inv.confirm {c : Control} {seq : ℕ} (hbatch : s.batchCh = .control c seq :: rest) :
    Inv cfg { s with batchCh := rest, receipts := s.receipts ++ [seq] } := by
  have hline : s.line = .control c seq :: (rest ++ s.transformCh) := by
    rw [line, hbatch, cons_append]
  refine ⟨{ h.basis with }, fun hdone => ?_, fun hdone x => ?_⟩
  · have hs := h.shape hdone
    have hq := hs.queued
    rw [State.Queued, hline] at hq
    cases hwaiting : s.waiting with
    | none =>
      rw [hwaiting] at hq
      exact (hq _ (mem_cons_self ..)).elim
    | some pending =>
      rw [hwaiting] at hq
      obtain ⟨hstill, hopen, ⟨-, hnil⟩ | ⟨-, before, hbefore, hall⟩⟩ := hq
      · exact absurd hnil (cons_ne_nil _ _)
      cases before with
      | cons item before =>
        obtain rfl := head_eq_of_cons_eq hbefore
        exact (hall _ (mem_cons_self ..)).elim
      | nil =>
        obtain ⟨-, rfl⟩ := Item.control.inj (head_eq_of_cons_eq hbefore)
        have hrest : rest ++ s.transformCh = [] := tail_eq_of_cons_eq hbefore
        refine { hs with
            stamped := fun b epoch hb => ?_, numbered := fun n hn => ?_, queued := ?_
            quiet := fun hnone => absurd hnone (Option.some_ne_none _) }
        · exact hs.stamped b epoch (hline ▸ mem_cons_of_mem _ hb)
        · rcases mem_append.1 hn with hold | hlast
          · exact hs.numbered n hold
          · exact (mem_singleton.1 hlast).le.trans hopen.2.2.le
        · exact ⟨hstill, hopen, .inl ⟨mem_concat_self, hrest⟩⟩
  · have haccount := h.account hdone x
    simp only [held, hline, map_cons, sum_cons, Item.tally, zero_add] at haccount
    exact haccount

/-- The sink applies a batch as it should, or the pipeline fails. -/
theorem Inv.processBatch (hbatch : s.batchCh = .batch b epoch :: rest) (outcome : Applied) :
    Inv cfg ({ s with batchCh := rest }.processBatch cfg b epoch outcome) := by
  have hfails : ∀ e, Inv cfg ({ s with batchCh := rest }.setErr e) := fun e => h.fails ⟨rfl, rfl, rfl, rfl⟩
  unfold State.processBatch
  split
  · exact hfails _
  · exact hfails _
  · exact hfails _
  · exact hfails _
  · next receipt _ =>
    have hbasis := h.basis.record (.applied b receipt) rfl (fun _ => Fact.noConfusion) trivial
    have hrefused : ∀ e, Inv cfg (({ s with batchCh := rest }.record (.applied b receipt)).setErr e) := by
      refine fun e => ⟨{ hbasis with stopped := fun _ => rfl }, ?_, ?_⟩
      · exact nofun
      · exact nofun
    have happlied := h.applied hbatch receipt
    by_cases hrows : epoch.isSome ∧ receipt.rows ≠ b.numRows
    · rw [if_pos hrows]
      exact hrefused _
    rw [if_neg hrows]
    by_cases hencoded : cfg.encodedIntegrity ∧ receipt.encodedCRC = none
    · rw [if_pos hencoded]
      exact hrefused _
    rw [if_neg hencoded]
    by_cases hcrc : receipt.writeCRC = cfg.integrityCRC b
    · rw [if_pos hcrc]
      refine happlied (fun hne => ?_) hcrc
      by_contra hnot
      exact hrows ⟨Option.isSome_iff_ne_none.2 hne, hnot⟩
    · rw [if_neg hcrc]
      exact hrefused _

theorem Inv.writer (outcome : Applied) : Inv cfg (s.writer cfg outcome) := by
  unfold State.writer
  split
  · exact h
  · next item rest hbatch =>
    simp only
    by_cases hcancelled : s.cancelled = true
    · rw [if_pos hcancelled]
      exact h.fails ⟨rfl, rfl, rfl, rfl⟩
    rw [if_neg hcancelled]
    split_ifs with herr
    · exact h.fails ⟨h.basis.stopped (by simpa [Option.isSome_iff_ne_none] using herr), rfl, rfl, rfl⟩
    · cases item with
      | batch b epoch => exact h.processBatch hbatch outcome
      | control c seq => exact h.confirm hbatch

end

/-! ### The end of the input, and the timer -/

theorem Inv.mapWriters (h : Inv cfg s) (f : StreamWriter → StreamWriter)
    (hf : s.done = false → ∀ w ∈ s.writers, (f w).resource = w.resource ∧
      (f w).builder.rows = w.builder.rows ∧ (w.Tidy → (f w).Tidy) ∧ (w.Still → (f w).Still)) :
    Inv cfg { s with writers := s.writers.map f } := by
  refine h.rewrite (fun hdone => (h.shape hdone).rewrite (fun w' hw' => ?_) (.inr fun hs w' hw' => ?_))
    fun hdone x => ?_
  · obtain ⟨w, hw, rfl⟩ := mem_map.1 hw'
    exact (hf hdone w hw).2.2.1 ((h.shape hdone).tidy w hw)
  · obtain ⟨w, hw, rfl⟩ := mem_map.1 hw'
    exact (hf hdone w hw).2.2.2 (hs w hw)
  · rw [map_map]
    refine congrArg sum (map_congr_left fun w hw => ?_)
    obtain ⟨hresource, hrows, -⟩ := hf hdone w hw
    simp only [Function.comp_apply, StreamWriter.tally, hresource, hrows]

theorem Inv.tick (h : Inv cfg s) : Inv cfg s.tick := by
  refine h.mapWriters _ fun _ w _ => ⟨rfl, rfl, fun hw => ?_, fun hw => ⟨hw.1, hw.2, hw.3⟩⟩
  exact ⟨hw.between, fun hc => ⟨(hw.closed hc).1, (hw.closed hc).2, (hw.closed hc).3⟩, hw.unlisted⟩

/-- The input ends: the builders are flushed and closed, or the pipeline fails. -/
theorem Inv.closeIngest (h : Inv cfg s) (hwaiting : s.waiting = none) (extractErr : Option Error)
    (take : Bool) : Inv cfg (s.closeIngest cfg extractErr take) := by
  have hclosed := h.aside true s.cancelled s.epochWritten s.active s.messageSchemas
  unfold State.closeIngest
  simp only
  split
  · exact h.fails ⟨rfl, rfl, rfl, rfl⟩
  rcases flush_spec cfg take (range s.writers.length) hclosed.basis.stopped with
    ⟨s', heq, hshifts, hstill⟩ | ⟨s', e, heq, hfails⟩
  · rw [heq]
    have h' : Inv cfg s' := hclosed.shifts hshifts hwaiting
    refine h'.mapWriters _ fun hdone w hw => ?_
    have hall := still_of_stillAt (h'.shape hdone).tidy (by rwa [← hshifts.writers.length_eq])
    have hw' := hall w hw
    have hclose : StreamWriter.Still { w with builder := w.builder.close } :=
      { hw'.close with }
    exact ⟨rfl, hclose.rows.trans hw'.rows.symm,
      fun ht => ⟨fun _ => hclose.cells, fun _ => hclose, ht.unlisted⟩, fun _ => hclose⟩
  · rw [heq]
    exact h.fails { hfails with done := rfl }

/-! ### Runs -/

theorem Inv.exec (h : Inv cfg s) (hwaiting : s.waiting = none) (take : Bool) (op : Op) :
    Inv cfg (s.exec cfg take op) := by
  cases op with
  | bindEpoch ref => exact h.bindEpoch hwaiting ref
  | openBuilder resource model => exact h.openBuilder resource model
  | messageBuilder resource model layout => exact h.messageBuilder hwaiting resource model layout take
  | append i v => exact h.append hwaiting i v take
  | endRow i info => exact h.endRow hwaiting i info take
  | flush i =>
    simp only [State.exec]
    split
    · exact h
    · next w hw => exact h.flushWriter hwaiting hw take
  | close i =>
    cases hw : s.writers[i]? with
    | none =>
      simp only [State.exec, State.closeWriter, hw]
      exact h
    | some w => exact (h.closeWriter hwaiting hw take).1
  | control c context => exact h.barrier hwaiting c context take
  | sealEpoch =>
    simp only [State.exec]
    split
    · exact h
    · next hseal => exact h.sealEpoch hwaiting hseal
  | closeIngest extractErr => exact h.closeIngest hwaiting extractErr take

/-- **One step.** -/
theorem Inv.step (h : Inv cfg s) (e : Event) : Inv cfg (step cfg s e) := by
  cases e with
  | produces op take => exact Trace.guarded h fun hwaiting => h.exec hwaiting take op
  | receives context seesDone => exact h.receive context seesDone
  | transforms take panic => exact h.transformer take panic
  | writes outcome => exact h.writer outcome
  | ticks => exact h.tick
  | cancels => exact h.aside s.closed true s.epochWritten s.active s.messageSchemas
  | shuts => exact Trace.guarded h fun _ => h.fails ⟨rfl, rfl, rfl, rfl⟩
  | fails message => exact h.fails ⟨rfl, rfl, rfl, rfl⟩

/-- **Every run.** -/
theorem inv_run (cfg : Config) (events : List Event) :
    Inv cfg (Trace.run (step cfg) (.fresh cfg) events) :=
  Trace.inv_run (fun _ e h => h.step e) (inv_fresh cfg) events

/-- **A sealed epoch accounts for its rows.**  In every run of the producer, the transformer and the
writer, with any outcome of the sink: when `SealEpoch` returns a proof, no row is open, buffered or
queued and no transaction is open, and the proof accounts for the epoch that it is bound to; and by the
log, the same holds of every proof that was returned, no row was ended between the seal of an epoch and
the next binding, and a binding after the first is of the same attempt, with the next number, after a
seal. -/
theorem sealed_accounts (cfg : Config) (events : List Event) :
    let s := Trace.run (step cfg) (.fresh cfg) events
    (∀ proof s', s.waiting = none → s.sealEpoch = .ok (proof, s') →
      s.Quiet ∧ s.transactions = ∅ ∧ s.epoch = some proof.binding ∧ Complete cfg (since s.log) proof) ∧
    Justified (Warranted cfg) s.log := by
  intro s
  have h : Inv cfg s := inv_run cfg events
  refine ⟨fun proof s' hwaiting hseal => ?_, h.basis.justified⟩
  obtain ⟨hquiet, hcomplete⟩ := h.complete hwaiting hseal
  obtain ⟨ref, -, hepoch, -, htransactions, -, rfl, -⟩ := sealEpoch_ok hseal
  exact ⟨hquiet, htransactions, hepoch, hcomplete⟩

/-! ### A domain that is not covered -/

namespace Demo

/-- A pipeline with one `int32` column for every field, whose checksum is the number of rows. -/
def config : Config where
  strict := false
  options := ⟨2, 0⟩
  audit := none
  admits _ _ := none
  admitsMessage _ _ _ _ := none
  arrow model := model.fields.map fun _ => .int32
  transform := none
  validateBatch _ := none
  integrityCRC b := b.numRows.toUInt32
  encodedIntegrity := false
  messageSchemas := none

def ref : EpochRef := ⟨⟨"run", "execution", "stream", 1, 1⟩, 1, 1⟩

def partition (name : String) : DomainKey := ⟨"topic", name⟩

def position : Position := ⟨"opaque", 0, none⟩

/-- A row of one partition, then a boundary of another. -/
def events : List Event :=
  [.produces (.bindEpoch ref) true,
   .produces (.openBuilder "users" ⟨"users", [{ name := "id" }], ["id"]⟩) true,
   .produces (.append 0 (.int32 7)) true,
   .produces (.endRow 0 { stream := some ⟨partition "0", position, 0⟩ }) true,
   .produces (.control { kind := .progressBoundary, domain := partition "1", position := position } none)
     true,
   .writes (.returns ⟨1, 4, 1, none⟩),
   .writes (.fails ""),
   .receives none false]

end Demo

/-- `SealEpoch` returns a proof although a domain of the epoch's rows has no control at all: only the
domains of the controls are covered. -/
theorem uncovered_domain :
    let s := Trace.run (step Demo.config) (.fresh Demo.config) Demo.events
    s.waiting = none ∧ s.sealEpoch.isOk = true ∧
      ∃ x ∈ endedRows (since s.log), ∃ event ∈ x.2.info.stream,
        ∀ fact ∈ since s.log, ∀ c ∈ fact.control, c.domain ≠ event.domain := by
  decide +kernel

end Filament.Pipeline
