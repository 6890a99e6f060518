import Mathlib.Algebra.Order.BigOperators.Group.List
import Mathlib.Data.List.Dedup
import Mathlib.Data.Prod.Lex
import Mathlib.Data.String.Basic
import Filament.Stream.Epoch

/-!
# What a completion certifies

`EpochCommit.validateCompletion` decides whether a certificate says what the pipeline completed.

* `CodecResolver.Lawful` : normal forms of positions are normal, and identical exactly when the
  positions compare equal;
* `sort_canonical_eq_iff` : the normal forms of two maps of positions are identical exactly when the
  maps have the same domains, at positions that compare equal;
* `sumReceipts_eq_ok_iff` : the guarded sums are the sums over the integers;
* **`validateCompletion_iff`** : what is accepted, without normal forms and running sums.
-/

namespace Filament.Streams

open Except List DomainKey Prod

/-! ### Positions -/

/-- Codecs whose normal forms identify positions. -/
structure CodecResolver.Lawful (r : CodecResolver) : Prop where
  idempotent {p q : Position} : canonicalPosition r p = .ok q → canonicalPosition r q = .ok q
  equal_iff {d : DomainKey} {p q p' q' : Position} : d.Valid → canonicalPosition r p = .ok p' →
    canonicalPosition r q = .ok q' → (comparePositions r d p d q = .ok .positionEqual ↔ p' = q')

/-- Two maps of positions have the same domains, at positions that compare equal. -/
structure SamePositions (r : CodecResolver) (covered completed : DomainPositions) : Prop where
  domains (d : DomainKey) : d ∈ covered.map Prod.fst ↔ d ∈ completed.map Prod.fst
  equal {d : DomainKey} {p q : Position} : (d, p) ∈ covered → (d, q) ∈ completed →
    comparePositions r d p d q = .ok .positionEqual

/-- An entry and its normal form. -/
def Normal (r : CodecResolver) (e e' : DomainKey × Position) : Prop :=
  e'.1 = e.1 ∧ canonicalPosition r e.2 = .ok e'.2

theorem DomainKey.le_iff {a b : DomainKey × Position} : le a b ↔
    toLex (a.1.incarnation, a.1.domain) ≤ toLex (b.1.incarnation, b.1.domain) := by
  rw [Prod.Lex.toLex_le_toLex]
  rfl

instance : Std.Total DomainKey.le where
  total a b := by
    simp only [DomainKey.le_iff]
    exact le_total _ _

instance : IsTrans (DomainKey × Position) DomainKey.le where
  trans a b c := by
    simp only [DomainKey.le_iff]
    exact le_trans

theorem DomainKey.eq_of_le {a b : DomainKey × Position} (h : le a b)
    (h' : le b a) : a.1 = b.1 := by
  obtain ⟨⟨i, d⟩, p⟩ := a
  obtain ⟨⟨i', d'⟩, p'⟩ := b
  simpa using le_antisymm (le_iff.1 h) (le_iff.1 h')

variable {r : CodecResolver} {covered completed entries entries' : DomainPositions}

theorem sort_eq_iff_perm (h : (entries.map fst).Nodup) :
    entries.insertionSort le = entries'.insertionSort le ↔
      entries.Perm entries' := by
  have hperm := perm_insertionSort le entries
  have hperm' := perm_insertionSort le entries'
  constructor
  · intro heq
    exact hperm.symm.trans (heq ▸ hperm')
  · intro hsame
    refine (hperm.trans (hsame.trans hperm'.symm)).eq_of_pairwise ?_
      (pairwise_insertionSort ..) (pairwise_insertionSort ..)
    intro a b ha hb hle hle'
    have hb' := hsame.mem_iff.2 (hperm'.mem_iff.1 hb)
    exact inj_on_of_nodup_map h (hperm.mem_iff.1 ha) hb' (eq_of_le hle hle')

/-- Normal forms are identical exactly when the maps have the same domains, at positions that compare
equal. -/
theorem sort_canonical_eq_iff (hr : r.Lawful) (hvalid : ∀ e ∈ covered, e.1.Valid)
    (hn : (covered.map fst).Nodup) (hn' : (completed.map fst).Nodup)
    (h : Forall₂ (Normal r) covered entries) (h' : Forall₂ (Normal r) completed entries') :
    entries.insertionSort le = entries'.insertionSort le ↔
      SamePositions r covered completed := by
  have hkeys := h.map_eq fun _ _ he => he.1
  have hkeys' := h'.map_eq fun _ _ he => he.1
  rw [sort_eq_iff_perm (hkeys ▸ hn)]
  constructor
  · intro hperm
    refine ⟨fun d => ?_, fun {d p q} hp hq => ?_⟩
    · rw [← hkeys, ← hkeys', (hperm.map fst).mem_iff]
    · obtain ⟨⟨_, p'⟩, hp', rfl, hcanon⟩ := h.exists_of_mem_left hp
      obtain ⟨⟨_, q'⟩, hq', hd, hcanon'⟩ := h'.exists_of_mem_left hq
      have heq := inj_on_of_nodup_map (hkeys' ▸ hn') (hperm.mem_iff.1 hp') hq' hd.symm
      exact (hr.equal_iff (hvalid _ hp) hcanon hcanon').2 (congrArg snd heq)
  · intro hsame
    -- The normal forms of the one map are among those of the other, and the maps are of one size.
    have hsub : entries ⊆ entries' := by
      rintro ⟨d, p'⟩ hp'
      obtain ⟨⟨_, p⟩, hp, rfl, hcanon⟩ := h.exists_of_mem_right hp'
      obtain ⟨⟨_, q⟩, hq, rfl⟩ := mem_map.1 ((hsame.domains _).1 (mem_map_of_mem hp))
      obtain ⟨⟨_, q'⟩, hq', rfl, hcanon'⟩ := h'.exists_of_mem_left hq
      have heq : p' = q' := (hr.equal_iff (hvalid _ hp) hcanon hcanon').1 (hsame.equal hp hq)
      exact heq ▸ hq'
    have hlen := ((perm_ext_iff_of_nodup hn hn').2 hsame.domains).length_eq
    rw [← hkeys, ← hkeys', length_map, length_map] at hlen
    exact (subperm_of_subset (.of_map _ (hkeys ▸ hn)) hsub).perm_of_length_le hlen.ge

/-- Entries of maps with the same positions have a valid domain and a normal form. -/
theorem SamePositions.exists_normal (h : SamePositions r covered completed) :
    (∀ e ∈ covered, e.1.Valid ∧ ∃ e', Normal r e e') ∧
      ∀ e ∈ completed, e.1.Valid ∧ ∃ e', Normal r e e' := by
  have hentry {d : DomainKey} {p q : Position} (hp : (d, p) ∈ covered) (hq : (d, q) ∈ completed) :
      d.Valid ∧ (∃ p', canonicalPosition r p = .ok p') ∧ ∃ q', canonicalPosition r q = .ok q' := by
    have hequal := h.equal hp hq
    simp only [comparePositions, bind_eq_ok, require_eq_ok, exists_const] at hequal
    obtain ⟨⟨hvalid, -⟩, p', hp', q', hq', -⟩ := hequal
    exact ⟨hvalid, ⟨p', hp'⟩, q', hq'⟩
  constructor
  · rintro ⟨d, p⟩ hp
    obtain ⟨⟨_, q⟩, hq, rfl⟩ := mem_map.1 ((h.domains d).1 (mem_map_of_mem hp))
    obtain ⟨hvalid, ⟨p', hp'⟩, -⟩ := hentry hp hq
    exact ⟨hvalid, (_, p'), rfl, hp'⟩
  · rintro ⟨d, q⟩ hq
    obtain ⟨⟨_, p⟩, hp, rfl⟩ := mem_map.1 ((h.domains d).2 (mem_map_of_mem hq))
    obtain ⟨hvalid, -, q', hq'⟩ := hentry hp hq
    exact ⟨hvalid, (_, q'), rfl, hq'⟩

theorem exists_entries (h : ∀ e ∈ covered, e.1.Valid ∧ ∃ e', Normal r e e') :
    ∃ entries, Forall₂ (Normal r) covered entries := by
  choose! normal hnormal using fun e he => (h e he).2
  exact ⟨covered.map normal, forall₂_map hnormal⟩

/-- A coverage without claims has a normal form when it covers a domain and its entries have one. -/
theorem canonicalize_eq_ok {activated : List String} {out : Coverage} :
    Coverage.canonicalize r ⟨covered, [], activated⟩ = .ok out ↔
      covered ≠ [] ∧ (∀ e ∈ covered, e.1.Valid) ∧ ∃ entries, Forall₂ (Normal r) covered entries ∧
        out = ⟨entries.insertionSort le, [], (activated.insertionSort (· ≤ ·)).dedup⟩ := by
  have hvalid {entries : DomainPositions} (h : Forall₂ (Normal r) covered entries) :
      ∀ e ∈ covered, e.2.Valid := by
    intro e he
    obtain ⟨e', -, -, hcanon⟩ := h.exists_of_mem_left he
    exact (require_bind_eq_ok.1 hcanon).1
  have hmap (entries : DomainPositions) : (covered.mapM fun e => do
      let p ← canonicalPosition r e.2
      return (e.1, p)) = .ok entries ↔ Forall₂ (Normal r) covered entries := by
    rw [mapM_eq_ok, show Normal r = _ from funext₂ fun e e' => propext ?_]
    simp only [bind_eq_ok, pure_eq_ok_iff, Normal, Prod.ext_iff]
    constructor
    · rintro ⟨hkey, hcanon⟩
      exact ⟨_, hcanon, hkey.symm, rfl⟩
    · rintro ⟨p, hcanon, hkey, rfl⟩
      exact ⟨hkey.symm, hcanon⟩
  simp only [Coverage.canonicalize, Coverage.validateRepresentation, bind_eq_ok, require_eq_ok,
    exists_const, hmap, pure_eq_ok_iff]
  constructor
  · rintro ⟨⟨hcovers, hkeys, -⟩, entries, h, rfl⟩
    exact ⟨by simpa using hcovers, hkeys, entries, h, rfl⟩
  · rintro ⟨hcovers, hkeys, entries, h, rfl⟩
    exact ⟨⟨by simpa using hcovers, hkeys, hvalid h, by simp⟩, entries, h, rfl⟩

/-! ### Totals -/

/-- What a sealed pipeline hands out: maps of positions and totals, at least one covered domain, and
counters in range. -/
structure EpochCompletion.Sealed (completion : EpochCompletion) : Prop where
  positions : (completion.positions.map Prod.fst).Nodup
  resources : (completion.resources.map Prod.fst).Nodup
  covers : completion.positions ≠ []
  counters : completion.rows ≤ maxInt64 ∧ completion.bytes ≤ maxInt64

variable {receipts : List EpochReceipt} {total result : ℤ × ℤ}

/-- No counter of a receipt is negative. -/
def Nonnegative (receipts : List EpochReceipt) : Prop :=
  ∀ receipt ∈ receipts, 0 ≤ receipt.rows ∧ 0 ≤ receipt.bytes

theorem add_receiptTotals_nil (total : ℤ × ℤ) : total + receiptTotals [] = total :=
  Prod.ext (add_zero _) (add_zero _)

theorem receiptTotals_nonneg (h : Nonnegative receipts) :
    0 ≤ (receiptTotals receipts).1 ∧ 0 ≤ (receiptTotals receipts).2 := by
  constructor
  · exact sum_nonneg (forall_mem_map.2 fun receipt hr => (h receipt hr).1)
  · exact sum_nonneg (forall_mem_map.2 fun receipt hr => (h receipt hr).2)

/-- The guarded sums are the sums over the integers: they exist as long as no counter is negative and
the sums are in range. -/
theorem sumReceipts_eq_ok_iff (htotal : total.1 ≤ maxInt64 ∧ total.2 ≤ maxInt64) :
    sumReceipts receipts total = .ok result ↔
      Nonnegative receipts ∧ result = total + receiptTotals receipts ∧
        result.1 ≤ maxInt64 ∧ result.2 ≤ maxInt64 := by
  induction receipts generalizing total with
  | nil =>
    rw [sumReceipts, Except.ok.injEq, eq_comm]
    constructor
    · rintro rfl
      exact ⟨by simp [Nonnegative], (add_receiptTotals_nil _).symm, htotal⟩
    · rintro ⟨-, rfl, -⟩
      exact add_receiptTotals_nil _
  | cons receipt receipts ih =>
    rw [sumReceipts, require_bind_eq_ok]
    constructor
    · rintro ⟨hguard, h⟩
      obtain ⟨hnonneg, rfl, hbound⟩ := (ih ⟨by omega, by omega⟩).1 h
      refine ⟨forall_mem_cons.2 ⟨⟨hguard.1, hguard.2.1⟩, hnonneg⟩, ?_, hbound⟩
      simp [receiptTotals, Prod.ext_iff, add_assoc]
    · rintro ⟨hnonneg, rfl, hbound⟩
      obtain ⟨hreceipt, hnonneg⟩ := forall_mem_cons.1 hnonneg
      have hrest := receiptTotals_nonneg hnonneg
      simp only [receiptTotals, map_cons, sum_cons, Prod.fst_add, Prod.snd_add] at hbound hrest
      refine ⟨⟨hreceipt.1, hreceipt.2, by omega, by omega⟩,
        (ih ⟨by simp only; omega, by simp only; omega⟩).2 ⟨hnonneg, ?_, ?_⟩⟩
      · simp [receiptTotals, Prod.ext_iff, add_assoc]
      · simp only [receiptTotals, map_cons, sum_cons, Prod.fst_add, Prod.snd_add]
        omega

/-- The totals are those of the receipts, resource by resource. -/
def SameTotals (receipts : List EpochReceipt) (resources : List (String × ℤ × ℤ)) : Prop :=
  ∀ resource totals, (resource, totals) ∈ resources ↔
    resource ∈ receipts.map EpochReceipt.resource ∧ resourceTotals receipts resource = totals

/-- Distinct keys among names, as many as the names, are the names. -/
theorem sameTotals_iff {resources : List (String × ℤ × ℤ)} (hn : (resources.map fst).Nodup) :
    SameTotals receipts resources ↔
      (receipts.map EpochReceipt.resource).dedup.length = resources.length ∧
        ∀ e ∈ resources, e.1 ∈ (receipts.map EpochReceipt.resource).dedup ∧
          resourceTotals receipts e.1 = e.2 := by
  simp only [mem_dedup]
  refine Iff.symm ⟨?_, ?_⟩
  · rintro ⟨hlen, h⟩ resource totals
    refine ⟨h _, ?_⟩
    rintro ⟨hmem, rfl⟩
    have hsub : resources.map fst ⊆ (receipts.map EpochReceipt.resource).dedup := by
      intro name hname
      obtain ⟨e, he, rfl⟩ := mem_map.1 hname
      exact mem_dedup.2 (h e he).1
    have hperm := (subperm_of_subset hn hsub).perm_of_length_le (by rw [length_map, hlen])
    obtain ⟨e, he, rfl⟩ := mem_map.1 (hperm.mem_iff.2 (mem_dedup.2 hmem))
    exact (h e he).2 ▸ he
  · intro h
    refine ⟨?_, fun e he => (h e.1 e.2).1 he⟩
    rw [← length_map fst]
    refine ((perm_ext_iff_of_nodup (nodup_dedup _) hn).2 fun name => ?_).length_eq
    rw [mem_dedup]
    constructor
    · intro hmem
      exact mem_map.2 ⟨_, (h ..).2 ⟨hmem, rfl⟩, rfl⟩
    · intro hmem
      obtain ⟨e, he, rfl⟩ := mem_map.1 hmem
      exact ((h e.1 e.2).1 he).1

/-! ### The decision -/

variable {codecs : Codecs} {c : EpochCommit}

/-- **A certificate with a valid reference is accepted exactly when** the completion is bound to that
reference, the layouts are identical, the coverage claims nothing and has the completed domains at
positions that compare equal, and the receipts are not negative, with sums over the integers that are
the completed totals, resource by resource and overall, and the counts of the certificate. -/
theorem validateCompletion_iff (hr : CodecResolver.Lawful codecs.lookup) (hc : c.completion.Sealed)
    (hn : (c.certificate.coverage.positions.map Prod.fst).Nodup)
    (href : c.certificate.ref.validate = .ok ()) :
    c.validateCompletion codecs = .ok () ↔
      c.completion.binding = c.certificate.ref ∧
      c.certificate.messageSchemas = c.completion.messageSchemas ∧
      c.certificate.coverage.claims = [] ∧
      SamePositions codecs.lookup c.certificate.coverage.positions c.completion.positions ∧
      Nonnegative c.certificate.receipts ∧
      SameTotals c.certificate.receipts c.completion.resources ∧
      receiptTotals c.certificate.receipts = (c.completion.rows, c.completion.bytes) ∧
      receiptTotals c.certificate.receipts = (c.certificate.records, c.certificate.bytes) := by
  obtain ⟨⟨formatVersion, tenant, ref, version, ⟨covered, claims, activated⟩, receipts, records, bytes,
    layouts⟩, completion⟩ := c
  simp only [EpochCommit.validateCompletion, EpochRef.binding_inj, bind_eq_ok, require_eq_ok, exists_const]
  constructor
  · rintro ⟨hlayouts, _, -, ⟨rfl, hbinding⟩, left, hleft, right, hright, rfl, hcounts, total, htotal,
      hlen, hresources, hsums⟩
    obtain ⟨-, hvalid, entries, hnormal, rfl⟩ := canonicalize_eq_ok.1 hleft
    obtain ⟨-, -, entries', hnormal', heq⟩ := canonicalize_eq_ok.1 hright
    obtain ⟨hnonneg, rfl, -⟩ := (sumReceipts_eq_ok_iff (by decide)).1 htotal
    have hsame := (sort_canonical_eq_iff hr hvalid hn hc.positions hnormal hnormal').1
      (congrArg Coverage.positions heq)
    simp only [Prod.fst_add, Prod.snd_add, zero_add] at hsums
    refine ⟨hbinding, hlayouts, rfl, hsame, hnonneg,
      (sameTotals_iff hc.resources).2 ⟨hlen, hresources⟩, Prod.ext hsums.1 hsums.2,
      Prod.ext (hsums.1.trans hcounts.1.symm) (hsums.2.trans hcounts.2.symm)⟩
  · rintro ⟨hbinding, hlayouts, rfl, hsame, hnonneg, hresources, hsums, hcounts⟩
    obtain ⟨hleft, hright⟩ := hsame.exists_normal
    obtain ⟨entries, hnormal⟩ := exists_entries hleft
    obtain ⟨entries', hnormal'⟩ := exists_entries hright
    have hcovers : covered ≠ [] := by
      rintro rfl
      obtain ⟨e, he⟩ := exists_mem_of_ne_nil _ hc.covers
      simpa using (hsame.domains e.1).2 (mem_map_of_mem he)
    have heq := (sort_canonical_eq_iff hr (fun e he => (hleft e he).1) hn hc.positions hnormal
      hnormal').2 hsame
    obtain ⟨hlen, htotals⟩ := (sameTotals_iff hc.resources).1 hresources
    have hsum : sumReceipts _ (0, 0) = _ := (sumReceipts_eq_ok_iff (by decide)).2
      ⟨hnonneg, rfl, by simpa [hsums] using hc.counters⟩
    refine ⟨hlayouts, (), href, ⟨rfl, hbinding⟩, _,
      canonicalize_eq_ok.2 ⟨hcovers, fun e he => (hleft e he).1, entries, hnormal, rfl⟩, _,
      canonicalize_eq_ok.2 ⟨hc.covers, fun e he => (hright e he).1, entries', hnormal', rfl⟩,
      by rw [heq], ?_, _, hsum, hlen, htotals, by simp [hsums]⟩
    exact Prod.ext_iff.1 (hcounts.symm.trans hsums)

namespace Exact

/-- Positions that are their own normal forms. -/
def codec : PositionCodec where
  validate _ := .ok ()
  compare p q := .ok (if p = q then .positionEqual else .positionBefore)
  canonicalize := .ok

def identity : Codecs := ⟨fun _ _ => .ok codec, fun _ => .ok (), fun _ _ _ => .ok (), fun _ => []⟩

theorem canonicalPosition_eq_ok {p q : Position} :
    canonicalPosition identity.lookup p = .ok q ↔ p.Valid ∧ p = q := by
  simp [canonicalPosition, identity, codec, require_bind_eq_ok]

theorem lawful : CodecResolver.Lawful identity.lookup where
  idempotent h := by
    obtain ⟨hvalid, rfl⟩ := canonicalPosition_eq_ok.1 h
    exact h
  equal_iff hd hp hq := by
    obtain ⟨-, rfl⟩ := canonicalPosition_eq_ok.1 hp
    obtain ⟨-, rfl⟩ := canonicalPosition_eq_ok.1 hq
    rw [comparePositions, hp, hq]
    simp only [require_bind_eq_ok, ok_bind, identity, codec, pure_eq_ok_iff]
    split_ifs with heq
    · simp [hd, heq]
    · simp [heq]

def positions : DomainPositions := [(⟨"server", "slot"⟩, ⟨"lsn", 1, none⟩)]

def ref : EpochRef := ⟨⟨"run", "execution", "stream", 1, 1⟩, 1, 1⟩

/-- One epoch of three rows. -/
def commit : EpochCommit where
  certificate := ⟨1, "acme", ref, "v1", ⟨positions, [], []⟩, [⟨"orders", 3, 24, 0, none⟩], 3, 24, none⟩
  completion := ⟨none, ref, positions, 3, 24, [("orders", 3, 24)]⟩

end Exact

/-- A certificate of the completed rows is accepted, for the completed positions. -/
theorem exact_commit_accepted : Exact.commit.validateCompletion Exact.identity = .ok () ∧
    SamePositions Exact.identity.lookup Exact.positions Exact.positions :=
  ⟨rfl, ((validateCompletion_iff (c := Exact.commit) Exact.lawful
    ⟨by decide, by decide, by decide, by decide⟩ (by decide) rfl).1 rfl).2.2.2.1⟩

end Filament.Streams
