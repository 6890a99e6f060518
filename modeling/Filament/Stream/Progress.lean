import Filament.Stream.Attempts

/-!
# The merge of positions

`mergePositions` puts the covered positions of an epoch into the snapshot of the epoch before it.

* `DomainPositions.Distinct` : no two entries are of one domain;
* `mergePositions_spec` : the merge has every covered position, every entry of the snapshot whose
  domain is not covered, and an entry is covered only by a position at or after its own.
-/

namespace Filament.Streams

open Except List

variable {codecs : Codecs} {positions base rest snapshot before out : DomainPositions}
  {d d' : DomainKey} {p p' : Position}

/-- No two entries are of one domain. -/
def DomainPositions.Distinct (positions : DomainPositions) : Prop :=
  (positions.map fun e => e.1.domain).Nodup

theorem DomainPositions.Distinct.eq (h : positions.Distinct) {e e' : DomainKey × Position}
    (he : e ∈ positions) (he' : e' ∈ positions) (hdomain : e.1.domain = e'.1.domain) : e = e' :=
  inj_on_of_nodup_map h he he' hdomain

theorem DomainPositions.Distinct.lookup (h : positions.Distinct) (he : (d, p) ∈ positions) :
    positions.lookup d = some p := by
  induction positions with
  | nil => simp at he
  | cons e positions ih =>
    obtain ⟨k, q⟩ := e
    obtain ⟨hhead, htail⟩ := nodup_cons.1 h
    rcases mem_cons.1 he with heq | hmem
    · cases heq
      simp
    · have hne : d ≠ k := by
        rintro rfl
        exact hhead (mem_map.2 ⟨(d, p), hmem, rfl⟩)
      rw [lookup_cons, beq_false_of_ne hne]
      exact ih htail hmem

variable (codecs d p p') in
/-- The new position is at or after the old one. -/
def Forward : Prop :=
  comparePositions codecs.lookup d p d p' = .ok .positionEqual ∨
    comparePositions codecs.lookup d p d p' = .ok .positionBefore

theorem eq_of_comparePositions {r : CodecResolver} {order : PositionOrder}
    (h : comparePositions r d p d' p' = .ok order) : d = d' := by
  simp only [comparePositions, bind_eq_ok, require_eq_ok, exists_const] at h
  exact h.1.2.2.1

/-- The snapshot has one position for the domain of `d`, which is `p`, and is otherwise `before`. -/
structure Put (before after : DomainPositions) (d : DomainKey) (p : Position) : Prop where
  mem : ∀ e, e ∈ after ↔ (e ∈ before ∧ e.1.domain ≠ d.domain) ∨ e = (d, p)
  distinct : after.Distinct

/-- Replacing what a snapshot has for a domain, if that has at most the key `d` there. -/
theorem put_insert (h : before.Distinct) (p : Position)
    (hkey : ∀ e ∈ before, e.1.domain = d.domain → e.1 = d) :
    Put before (before.insert d p) d p := by
  have hmem : ∀ e, e ∈ before.erase d ↔ e ∈ before ∧ e.1.domain ≠ d.domain := by
    intro e
    simp only [DomainPositions.erase, mem_filter, decide_eq_true_eq]
    constructor
    · rintro ⟨he, hne⟩
      exact ⟨he, fun hdomain => hne (hkey e he hdomain)⟩
    · rintro ⟨he, hne⟩
      exact ⟨he, fun heq => hne (heq ▸ rfl)⟩
  refine ⟨fun e => by simp [DomainPositions.insert, hmem], ?_⟩
  rw [DomainPositions.Distinct, DomainPositions.insert, map_append]
  refine Nodup.append ?_ (nodup_singleton _) ?_
  · exact (filter_sublist.map _).nodup h
  · intro x hx hx'
    obtain ⟨e, he, rfl⟩ := mem_map.1 hx
    exact ((hmem e).1 he).2 (by simpa using hx')

theorem erase_insert (before : DomainPositions) (d : DomainKey) (p : Position) :
    (before.erase d).insert d p = before.insert d p := by
  simp [DomainPositions.insert, DomainPositions.erase, filter_filter]

/-- One step of the merge: the snapshot takes over the position of one domain that was not seen
before, and knew that domain only at or before it. -/
theorem mergePositions_cons {seen : List String} (hbase : base.Distinct) (hsnap : snapshot.Distinct)
    (hsame : ∀ e : DomainKey × Position, e.1.domain ∉ seen → (e ∈ snapshot ↔ e ∈ base))
    (h : mergePositions codecs (base.map fun e => (e.1.domain, e.1)) snapshot seen ((d, p) :: rest) =
      .ok out) :
    d.domain ∉ seen ∧ (∀ e ∈ base, e.1.domain = d.domain → e.1 = d ∧ Forward codecs d e.2 p) ∧
      ∃ next, Put snapshot next d p ∧
        mergePositions codecs (base.map fun e => (e.1.domain, e.1)) next (d.domain :: seen) rest =
          .ok out := by
  rw [mergePositions, require_bind_eq_ok] at h
  obtain ⟨hseen, h⟩ := h
  refine ⟨hseen, ?_⟩
  cases hlookup : (base.map fun e => (e.1.domain, e.1)).lookup d.domain with
  | none =>
    simp only [hlookup] at h
    have hnew : ∀ e ∈ base, e.1.domain ≠ d.domain := by
      intro e he hdomain
      have := lookup_eq_none_iff.1 hlookup (e.1.domain, e.1) (mem_map_of_mem he)
      simp [hdomain] at this
    refine ⟨fun e he hdomain => absurd hdomain (hnew e he), _, put_insert hsnap p ?_, h⟩
    intro e he hdomain
    exact absurd hdomain (hnew e ((hsame e (hdomain ▸ hseen)).1 he))
  | some oldKey =>
    simp only [hlookup] at h
    -- the key found is that of the only entry of the domain, which the snapshot still has
    obtain ⟨l₁, l₂, hsplit, -⟩ := lookup_eq_some_iff.1 hlookup
    obtain ⟨e₀, he₀, hkey⟩ : ∃ e ∈ base, (e.1.domain, e.1) = (d.domain, oldKey) := by
      refine mem_map.1 ?_
      rw [hsplit]
      simp
    obtain ⟨hdomain₀, rfl⟩ := Prod.mk.inj hkey
    have hin : e₀ ∈ snapshot := (hsame e₀ (hdomain₀ ▸ hseen)).2 he₀
    have hold : snapshot.lookup e₀.1 = some e₀.2 := hsnap.lookup hin
    rw [hold, Option.getD_some, bind_eq_ok] at h
    obtain ⟨order, horder, h⟩ := h
    obtain heq := eq_of_comparePositions horder
    have hforward : Forward codecs d e₀.2 p ∧
        mergePositions codecs (base.map fun e => (e.1.domain, e.1))
          ((snapshot.erase e₀.1).insert d p) (d.domain :: seen) rest = .ok out := by
      rw [heq] at horder
      cases order with
      | positionEqual => exact ⟨.inl horder, h⟩
      | positionBefore => exact ⟨.inr horder, h⟩
      | positionAfter => simp at h
      | positionIncomparable => simp at h
    rw [heq, erase_insert] at hforward
    refine ⟨fun e he hdomain => ?_, _, put_insert hsnap p fun e he hdomain => ?_, hforward.2⟩
    · obtain rfl := hbase.eq he he₀ (hdomain.trans hdomain₀.symm)
      exact ⟨heq, hforward.1⟩
    · rw [hsnap.eq he hin (hdomain.trans hdomain₀.symm)]
      exact heq

/-- The merge has every covered position, every entry whose domain is not covered, and an entry is
covered only by a position of its key at or after its own. -/
theorem mergePositions_spec (hbase : base.Distinct) :
    ∀ {snapshot : DomainPositions} {seen : List String} {out : DomainPositions}, snapshot.Distinct →
      (∀ e : DomainKey × Position, e.1.domain ∉ seen → (e ∈ snapshot ↔ e ∈ base)) →
      mergePositions codecs (base.map fun e => (e.1.domain, e.1)) snapshot seen rest = .ok out →
      out.Distinct ∧
      (∀ e ∈ rest, e.1.domain ∉ seen ∧ e ∈ out ∧
        ∀ old ∈ base, old.1.domain = e.1.domain → old.1 = e.1 ∧ Forward codecs e.1 old.2 e.2) ∧
      ∀ e ∈ snapshot, (∀ new ∈ rest, new.1.domain ≠ e.1.domain) → e ∈ out := by
  induction rest with
  | nil =>
    intro snapshot seen out hsnap _ h
    obtain rfl : snapshot = out := by simpa [mergePositions] using h
    exact ⟨hsnap, by simp, fun e he _ => he⟩
  | cons new rest ih =>
    intro snapshot seen out hsnap hsame h
    obtain ⟨d, p⟩ := new
    obtain ⟨hseen, hold, next, hput, hrest⟩ := mergePositions_cons hbase hsnap hsame h
    have hsame' : ∀ e : DomainKey × Position, e.1.domain ∉ d.domain :: seen →
        (e ∈ next ↔ e ∈ base) := by
      intro e he
      obtain ⟨hne, hnotin⟩ := not_or.1 (mt mem_cons.2 he)
      rw [hput.mem, ← hsame e hnotin]
      constructor
      · rintro (⟨hmem, -⟩ | rfl)
        · exact hmem
        · exact absurd rfl hne
      · exact fun hmem => .inl ⟨hmem, hne⟩
    obtain ⟨hdistinct, hcovered, hkept⟩ := ih hput.distinct hsame' hrest
    refine ⟨hdistinct, fun e he => ?_, fun e he hfree => ?_⟩
    · rcases mem_cons.1 he with rfl | he
      · refine ⟨hseen, hkept _ ((hput.mem _).2 (.inr rfl)) fun new hnew heq => ?_, hold⟩
        exact (hcovered new hnew).1 (heq ▸ mem_cons_self)
      · obtain ⟨hnotin, hout, hforward⟩ := hcovered e he
        exact ⟨fun hmem => hnotin (.tail _ hmem), hout, hforward⟩
    · have hne : e.1.domain ≠ d.domain := (hfree (d, p) (.head _)).symm
      refine hkept e ((hput.mem e).2 (.inl ⟨he, hne⟩)) fun new hnew => ?_
      exact hfree new (.tail _ hnew)

end Filament.Streams
