import Mathlib.Algebra.BigOperators.Group.List.Basic
import Mathlib.Algebra.GroupWithZero.Nat
import Mathlib.Data.List.Induction
import Filament.Lib.Trace
import Filament.Tracker.Cursors

/-!
# Coarse progress

A bitmap or ctid read has no cursor inside a part: its batches acknowledge written rows, and a marker
says how many rows the part delivers in all.  The part is done when the acknowledged rows reach that
total.

* `Due` : a part of the layout that the facts complete;
* `Counts` : what the cursor and the account of the resource say of a part, after some facts;
* **`coarse_progress`** : when the first fact finds the layout, the parts marked done are those that are
  due, whatever the order of the facts.
-/

namespace Filament.Tracker

open Checkpoint Function List

/-! ### Facts and parts -/

/-- Rows of a part were written, or the part delivers no more than its total. -/
inductive CoarseFact where
  | ack (part : ℤ) (n : ℕ)
  | done (part : ℤ)
  deriving DecidableEq, Repr

/-- The delta of a fact; `total` has the rows that each part delivers. -/
def CoarseFact.delta (total : ℤ → ℕ) (resource : String) : CoarseFact → CheckpointData
  | .ack p n => newCoarseAck resource p n
  | .done p => newCoarseDone resource p (total p)

/-- The rows of a part that some facts acknowledge. -/
def acked (facts : List CoarseFact) (part : ℤ) : ℕ :=
  (facts.map fun | .ack p n => if p = part then n else 0 | .done _ => 0).sum

/-- The layout has the part. -/
def Has (layout : KeysetCheckpoint) (part : ℤ) : Prop := 0 ≤ part ∧ part.toNat < layout.shards.length

/-- The part is marked as done. -/
def DoneAt (layout : KeysetCheckpoint) (part : ℤ) : Prop :=
  0 ≤ part ∧ ∃ shard ∈ layout.shards[part.toNat]?, shard.done = true

/-- The part is done: it was before, or its marker is there and its acknowledged rows reach the total. -/
def Due (layout : KeysetCheckpoint) (total : ℤ → ℕ) (facts : List CoarseFact) (part : ℤ) : Prop :=
  DoneAt layout part ∨ Has layout part ∧ .done part ∈ facts ∧ total part ≤ acked facts part

/-- The part of a fact. -/
def CoarseFact.part : CoarseFact → ℤ
  | .ack p _ | .done p => p

variable {layout ks : KeysetCheckpoint} {total : ℤ → ℕ} {facts facts' : List CoarseFact} {part : ℤ}

theorem acked_append (facts more : List CoarseFact) :
    acked (facts ++ more) part = acked facts part + acked more part := by
  simp [acked]

theorem Due.perm (h : facts.Perm facts') :
    Due layout total facts part ↔ Due layout total facts' part := by
  have hacked : acked facts part = acked facts' part := (h.map _).sum_eq
  simp only [Due, hacked, h.mem_iff]

theorem Due.append (more : List CoarseFact) (h : Due layout total facts part) :
    Due layout total (facts ++ more) part := by
  refine h.imp id fun ⟨hhas, hdone, hle⟩ => ⟨hhas, by simp [hdone], ?_⟩
  rw [acked_append]
  omega

theorem due_concat (f : CoarseFact) :
    Due layout total (facts ++ [f]) part ↔ Due layout total facts part ∨ part = f.part ∧
      Has layout part ∧ .done part ∈ facts ++ [f] ∧ total part ≤ acked (facts ++ [f]) part := by
  refine ⟨fun h => ?_, fun h => h.elim (Due.append [f]) fun h => .inr h.2⟩
  by_cases hpart : part = f.part
  · exact h.elim (fun h => .inl (.inl h)) fun h => .inr ⟨hpart, h⟩
  have hacked : acked [f] part = 0 := by cases f <;> simp_all [acked, CoarseFact.part, eq_comm]
  have hdone : CoarseFact.done part ≠ f := by
    rintro rfl
    exact hpart rfl
  simpa [Due, acked_append, hacked, hdone] using Or.inl h

/-! ### One fact -/

/-- The account after a fact. -/
def BmAccount.fold (total : ℤ → ℕ) (acct : BmAccount) : CoarseFact → BmAccount
  | .ack p n => acct.count p n 0 false
  | .done p => acct.count p 0 (total p) true

/-- Completing a part marks that part, if the layout has it, and nothing else. -/
theorem completeShard_doneAt {base : Option CheckpointData} (hks : parseKeyset base = some ks) (p : ℤ) :
    ∃ ks', parseKeyset ((completeShard base p).or base) = some ks' ∧
      ks'.shards.length = ks.shards.length ∧
      ∀ part, DoneAt ks' part ↔ DoneAt ks part ∨ part = p ∧ Has ks part := by
  cases base with
  | none => cases hks
  | some b =>
    simp only [completeShard, hks]
    by_cases hneg : p < 0
    · rw [if_pos hneg]
      refine ⟨ks, hks, rfl, fun part => ⟨.inl, fun h => h.elim id fun h => ?_⟩⟩
      have := h.2.1
      omega
    rw [if_neg hneg]
    cases hshard : ks.shards[p.toNat]? with
    | none =>
      refine ⟨ks, hks, rfl, fun part => ⟨.inl, fun h => h.elim id fun ⟨heq, _, hlt⟩ => ?_⟩⟩
      rw [getElem?_eq_none_iff] at hshard
      omega
    | some shard =>
      by_cases hdone : shard.done = true
      · simp only [if_pos hdone]
        refine ⟨ks, hks, rfl, fun part => ⟨.inl, fun h => h.elim id fun ⟨heq, hpos, _⟩ => ?_⟩⟩
        exact ⟨hpos, shard, heq ▸ hshard, hdone⟩
      simp only [if_neg hdone]
      have hmode : ks.mode.isKeyset = true := isKeyset_of_parseKeyset hks
      refine ⟨markDone ks p, parseKeyset_toCheckpoint (by exact hmode) _, by simp [markDone], fun part => ?_⟩
      simp only [DoneAt, Has, markDone, getElem?_modify]
      by_cases hpart : part = p
      · subst hpart
        by_cases hlt : part.toNat < ks.shards.length <;> by_cases hpos : 0 ≤ part <;> simp [hlt, hpos]
      · by_cases hpos : 0 ≤ part
        · have hne : p.toNat ≠ part.toNat := by omega
          simp [hne, hpart]
        · simp [hpos]

variable (layout total part) in
/-- What the cursor and the account of the resource say of a part after some facts. -/
structure Counts (facts : List CoarseFact) (base : Option CheckpointData) (acct : BmAccount) :
    Prop where
  plan : ∃ ks, parseKeyset base = some ks ∧ ks.shards.length = layout.shards.length ∧
    (DoneAt ks part ↔ Due layout total facts part)
  acked : acct.acked part = acked facts part
  want : acct.want part = if .done part ∈ facts then some ↑(total part) else none

variable {base : Option CheckpointData} {acct : BmAccount}

variable (base acct) in
/-- The cursor of the resource after a fact, from its cursor and its account. -/
def cursorAfter (p : ℤ) : Option CheckpointData :=
  (if acct.complete p then completeShard base p else none).or base

/-- **One fact.** -/
theorem Counts.fold (h : Counts layout total part facts base acct) (f : CoarseFact) :
    Counts layout total part (facts ++ [f]) (cursorAfter base (acct.fold total f) f.part)
      (acct.fold total f) := by
  have hacked : (acct.fold total f).acked part = Tracker.acked (facts ++ [f]) part := by
    rw [acked_append, Nat.cast_add, ← h.acked]
    cases f with
    | ack p n =>
      by_cases hp : p = part
      · simp [BmAccount.fold, BmAccount.count, Tracker.acked, hp]
      · simp [BmAccount.fold, BmAccount.count, Tracker.acked, hp, update_of_ne (Ne.symm hp)]
    | done p => simp [BmAccount.fold, BmAccount.count, Tracker.acked]
  have hwant : (acct.fold total f).want part =
      if .done part ∈ facts ++ [f] then some ↑(total part) else none := by
    cases f with
    | ack p n => simp [BmAccount.fold, BmAccount.count, h.want]
    | done p => by_cases hp : part = p <;> simp [BmAccount.fold, BmAccount.count, h.want, hp]
  refine ⟨?_, hacked, hwant⟩
  obtain ⟨ks, hks, hlength, hdone⟩ := h.plan
  have hhas : Has ks part ↔ Has layout part := by rw [Has, hlength, Has]
  have hcomplete : (acct.fold total f).complete part = true ↔
      .done part ∈ facts ++ [f] ∧ total part ≤ Tracker.acked (facts ++ [f]) part := by
    rw [BmAccount.complete, hwant, hacked]
    split_ifs with hmem <;> simp [hmem]
  rw [due_concat, ← hdone, ← hcomplete, ← hhas, cursorAfter]
  split_ifs with hfull
  · obtain ⟨ks', hks', hlength', hdone'⟩ := completeShard_doneAt hks f.part
    refine ⟨ks', hks', hlength'.trans hlength, ?_⟩
    rw [hdone']
    exact or_congr_right <| and_congr_right fun heq => by simp [heq, hfull]
  · refine ⟨ks, hks, hlength, ?_⟩
    simp only [iff_self_or, and_imp]
    rintro rfl - hc
    exact absurd hc hfull

/-! ### Every order of the facts -/

variable {env : Envelope} {w : World} {fails : Call → Bool}

theorem foldBatch_coarse (f : CoarseFact) :
    let m := (foldBatch fails env (some (f.delta total env.resource)) w).mem
    let acct := ((w.mem.bm env.key).getD newBmAccount).fold total f
    let after := cursorAfter (accumulated fails env w).1 acct f.part
    m.bm env.key = some acct ∧ m.cp.lookup env.key = some after ∧
      ∀ cp ∈ (foldCursor fails env (some (f.delta total env.resource)) w).1, after = some cp := by
  have hmem : (foldBatch fails env (some (f.delta total env.resource)) w).mem =
      (foldCursor fails env (some (f.delta total env.resource)) w).2 := by
    unfold foldBatch
    split <;> rename_i heq <;> rw [heq]
  have hbm : (accumulated fails env w).2.bm = w.mem.bm := by
    unfold accumulated
    cases w.mem.cp.lookup env.key <;> rfl
  have hbitmap : ∃ ack want hasWant, foldCursor fails env (some (f.delta total env.resource)) w =
      foldBitmap fails env f.part ack want hasWant w ∧ ∀ acct : BmAccount,
        acct.fold total f = acct.count f.part ack want hasWant := by
    cases f <;> exact ⟨_, _, _, rfl, fun _ => rfl⟩
  obtain ⟨ack, want, hasWant, heq, hfold⟩ := hbitmap
  simp only [hmem, heq, hfold, foldBitmap, hbm, cursorAfter]
  split_ifs
  · cases completeShard (accumulated fails env w).1 f.part with
    | none => exact ⟨update_self .., accumulated_lookup, by simp⟩
    | some merged => exact ⟨update_self .., AList.lookup_insert _, by simp⟩
  · exact ⟨update_self .., accumulated_lookup, by simp⟩

/-- A fact, with the store it finds and the calls that fail while it is folded. -/
structure Folding where
  store : Store
  fails : Call → Bool
  fact : CoarseFact

/-- Folds the batch that carries a coarse fact of the resource. -/
def foldFact (env : Envelope) (total : ℤ → ℕ) (w : World) (f : Folding) : World :=
  foldBatch f.fails env (some (f.fact.delta total env.resource)) ⟨f.store, w.mem⟩

/-- The cursor that folding the fact hands on to be saved, if any. -/
def handed (env : Envelope) (total : ℤ → ℕ) (w : World) (f : Folding) : Option CheckpointData :=
  (foldCursor f.fails env (some (f.fact.delta total env.resource)) ⟨f.store, w.mem⟩).1

/-- The resource's accumulated cursor has the part marked as done. -/
def World.MarksDone (w : World) (env : Envelope) (part : ℤ) : Prop :=
  ∃ c ks, w.mem.cp.lookup env.key = some c ∧ parseKeyset c = some ks ∧ DoneAt ks part

/-- The cursor of the resource when a fact is folded is the layout. -/
def Folding.Seeded (f : Folding) (env : Envelope) (layout : KeysetCheckpoint) (w : World) : Prop :=
  parseKeyset (accumulated f.fails env ⟨f.store, w.mem⟩).1 = some layout

theorem run_counts (hbm : w.mem.bm env.key = none) (events : List Folding) (hne : events ≠ [])
    (hfirst : ∀ f ∈ events.head?, f.Seeded env layout w) (part : ℤ) :
    ∃ c acct, (Trace.run (foldFact env total) w events).mem.cp.lookup env.key = some c ∧
      (Trace.run (foldFact env total) w events).mem.bm env.key = some acct ∧
      Counts layout total part (events.map Folding.fact) c acct := by
  induction events using List.reverseRecOn with
  | nil => exact absurd rfl hne
  | append_singleton events f ih =>
    rw [Trace.run_append, map_append]
    obtain ⟨hbm', hcp', -⟩ := @foldBatch_coarse total env
      ⟨f.store, (Trace.run (foldFact env total) w events).mem⟩ f.fails f.fact
    refine ⟨_, _, hcp', hbm', Counts.fold ?_ _⟩
    cases events with
    | nil =>
      simp only [Trace.run_nil, hbm]
      exact ⟨⟨layout, hfirst f rfl, rfl, by simp [Due]⟩, rfl, rfl⟩
    | cons e events =>
      obtain ⟨c, acct, hc, hacct, hcounts⟩ := ih (cons_ne_nil _ _) hfirst
      simpa only [accumulated, hc, hacct, Option.getD_some] using hcounts

/-- **Folding coarse progress is order independent** when the first fact finds the layout.  Then the
parts marked done, after every fact and in every cursor handed on to be saved, are those that are due;
these do not depend on the order of the facts, and a part that is due stays so. -/
theorem coarse_progress (hbm : w.mem.bm env.key = none) (events : List Folding)
    (hfirst : ∀ f ∈ events.head?, f.Seeded env layout w) (part : ℤ) :
    (∀ before, before <+: events → before ≠ [] →
      ((Trace.run (foldFact env total) w before).MarksDone env part ↔
        Due layout total (before.map Folding.fact) part)) ∧
    (∀ before f, before ++ [f] <+: events →
      ∀ cp ∈ handed env total (Trace.run (foldFact env total) w before) f,
        ∃ ks, parseKeyset (some cp) = some ks ∧
          (DoneAt ks part ↔ Due layout total ((before ++ [f]).map Folding.fact) part)) ∧
    (∀ facts, facts.Perm (events.map Folding.fact) →
      (Due layout total facts part ↔ Due layout total (events.map Folding.fact) part)) ∧
    ∀ before, before <+: events → Due layout total (before.map Folding.fact) part →
      Due layout total (events.map Folding.fact) part := by
  refine ⟨?_, ?_, fun facts hperm => Due.perm hperm, ?_⟩
  · rintro before ⟨rest, rfl⟩ hne
    rw [List.head?_append_of_ne_nil _ hne] at hfirst
    obtain ⟨c, acct, hc, -, hcounts⟩ := @run_counts layout total env w hbm before hne hfirst part
    obtain ⟨ks, hks, -, hdone⟩ := hcounts.plan
    simp [World.MarksDone, hc, hks, hdone]
  · rintro before f ⟨rest, rfl⟩ cp hcp
    rw [List.head?_append_of_ne_nil _ (by simp)] at hfirst
    obtain ⟨c, acct, hc, -, hcounts⟩ :=
      @run_counts layout total env w hbm (before ++ [f]) (by simp) hfirst part
    obtain ⟨-, hcp', hhanded⟩ := @foldBatch_coarse total env
      ⟨f.store, (Trace.run (foldFact env total) w before).mem⟩ f.fails f.fact
    obtain ⟨ks, hks, -, hdone⟩ := hcounts.plan
    rw [Trace.run_append] at hc
    obtain rfl : some cp = c := (hhanded cp hcp).symm.trans (Option.some.inj (hcp'.symm.trans hc))
    exact ⟨ks, hks, hdone⟩
  · rintro before ⟨rest, rfl⟩ h
    rw [map_append]
    exact h.append _

/-- A table that is read in two parts of ten rows each. -/
def twoParts : KeysetCheckpoint := ⟨.modeCtid, [], [], [⟨[], [], [], false⟩, ⟨[], [], [], false⟩], []⟩

/-- The store, with a layout if the source has saved one. -/
def partStore (layout : Option KeysetCheckpoint) : Store :=
  ⟨fun _ => none, fun _ => none, fun _ => layout.map fun ks => ("acme", (ks.toCheckpoint "orders").cursor),
    fun _ => none⟩

/-- The rows of the first part, then its marker; the first fact is folded before the layout is stored when
`first` has none. -/
def firstPart (first : Option KeysetCheckpoint) : List Folding :=
  [⟨partStore first, fun _ => false, .ack 0 10⟩, ⟨partStore twoParts, fun _ => false, .done 0⟩]

/-- With the layout stored, the first part is done and the second is not. -/
theorem first_part_done :
    let w := Trace.run (foldFact ⟨"acme", "sync", "orders", 0⟩ fun _ => 10) ⟨partStore none, .new⟩
      (firstPart twoParts)
    w.MarksDone ⟨"acme", "sync", "orders", 0⟩ 0 ∧ ¬ w.MarksDone ⟨"acme", "sync", "orders", 0⟩ 1 := by
  have h := @coarse_progress twoParts (fun _ => 10) ⟨"acme", "sync", "orders", 0⟩ ⟨partStore none, .new⟩
    rfl (firstPart twoParts) (by rintro f ⟨⟩; rfl)
  refine ⟨((h 0).1 _ prefix_rfl nofun).2 (.inr ?_), mt ((h 1).1 _ prefix_rfl nofun).1 ?_⟩
  · exact ⟨⟨le_rfl, by decide⟩, by decide, by decide⟩
  · rintro (⟨-, shard, hshard, hdone⟩ | ⟨-, hmem, -⟩)
    · cases hshard
      cases hdone
    · exact absurd hmem (by decide)

/-- When the first fact comes before the layout, the first part is never marked, although its rows reach
the total of its marker. -/
theorem first_part_forgotten :
    Due twoParts (fun _ => 10) ((firstPart none).map Folding.fact) 0 ∧
    ¬ (Trace.run (foldFact ⟨"acme", "sync", "orders", 0⟩ fun _ => 10) ⟨partStore none, .new⟩
      (firstPart none)).MarksDone ⟨"acme", "sync", "orders", 0⟩ 0 := by
  refine ⟨.inr ⟨⟨le_rfl, by decide⟩, by decide, by decide⟩, ?_⟩
  rintro ⟨c, ks, hc, hks, -⟩
  cases hc
  cases hks

end Filament.Tracker
