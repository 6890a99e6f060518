import Filament.Lib.Except
import Filament.Mysql.Stream

/-!
# Cursors of transactions

A cursor that has a transaction says that its rows were delivered.

* `Txn` : a transaction as the log has it; `Orderly` : no rows that are owed follow a query event that
  the source takes for the end of the transaction;
* `Settles`, `Inv` : what holds event by event;
* **`gtid_cursors_safe`** : over orderly transactions, no cursor or mark has a transaction whose rows are
  not all pushed, and a cycle that reaches its watermark has pushed all rows up to it;
* `statement_folds_transaction` : a query event in the middle of a transaction.
-/

namespace Filament.Mysql.Gtid

open List

variable {ρ : Type}

/-! ### Transactions -/

/-- What a transaction consists of, after its header. -/
inductive Part (ρ : Type) where
  | query (text : String)
  | rows (e : RowsEvent ρ)

def Part.event : Part ρ → Event ρ
  | .query text => .query text
  | .rows e => .rows e

/-- A transaction of the log; `xid` is whether it ends with an XID event, or with the next header. -/
structure Txn (ρ : Type) where
  gtid : GTID
  body : List (Part ρ)
  xid : Bool

def Txn.events (t : Txn ρ) : List (Event ρ) :=
  .gtid t.gtid :: (t.body.map Part.event ++ if t.xid then [.xid] else [])

def Txn.rows (t : Txn ρ) : List (RowsEvent ρ) :=
  t.body.filterMap fun
    | .query _ => none
    | .rows e => some e

variable (st : Setup ρ) (floor : String → GTIDSet)

/-- The floors of the resources of a cycle. -/
def floorsOf : List (String × GTIDSet) :=
  st.resources.map fun resource => (resource, floor resource)

/-- An event of a transaction is owed to its resource: it is of a selected table, and the resource
does not start from a set that has the transaction. -/
def Owed (g : GTID) (e : RowsEvent ρ) : Prop :=
  st.tracks e = true ∧ g ∉ floor e.table

/-- No rows that are owed follow a query event that is taken for the end of the transaction. -/
def Txn.Orderly (t : Txn ρ) : Prop :=
  ∀ before text after, t.body = before ++ .query text :: after → isControl text = false →
    ∀ e, Part.rows e ∈ after → ¬Owed st floor t.gtid e

/-! ### Events -/

/-- The rows events of a stream, each with the transaction it belongs to. -/
def owned : Option GTID → List (Event ρ) → List (GTID × RowsEvent ρ)
  | _, [] => []
  | _, .gtid g :: es => owned (some g) es
  | some g, .rows e :: es => (g, e) :: owned (some g) es
  | o, _ :: es => owned o es

/-- Nothing of a transaction is owed any more. -/
def Over (g : GTID) (rest : List (GTID × RowsEvent ρ)) : Prop :=
  ∀ e, (g, e) ∈ rest → ¬Owed st floor g e

/-- Where the source takes a transaction for delivered, nothing of it is owed any more. -/
def Settles : Option GTID → List (Event ρ) → Prop
  | _, [] => True
  | o, .gtid g :: es => (∀ g' ∈ o, Over st floor g' (owned (some g) es)) ∧ Settles (some g) es
  | o, .xid :: es => (∀ g ∈ o, Over st floor g (owned o es)) ∧ Settles o es
  | o, .query text :: es =>
    (isControl text = false → ∀ g ∈ o, Over st floor g (owned o es)) ∧ Settles o es
  | o, .rows _ :: es => Settles o es
  | o, .failed :: es => Settles o es

/-! ### What was pushed -/

variable {g : GTID} {watermark start : GTIDSet} {later : List (Event ρ)}
  {floors : List (String × GTIDSet)}

/-- The events that were pushed. -/
def Pushed (r : Run ρ GTIDSet) (e : RowsEvent ρ) : Prop := e ∈ r.pushed.map Prod.fst

section Safety

variable (st : Setup ρ) (floor : String → GTIDSet) (all : List (GTID × RowsEvent ρ))

/-- When a row is pushed, what its cursor has was pushed before. -/
def PushSafe (r : Run ρ GTIDSet) : Prop :=
  ∀ before e cursor after, r.pushed = before ++ (e, cursor) :: after →
    ∀ g e', (g, e') ∈ all → Owed st floor g e' → g ∈ cursor → e' ∈ before.map Prod.fst

/-- What a mark of a resource has was pushed to it. -/
def MarkSafe (r : Run ρ GTIDSet) : Prop :=
  ∀ resource cursor, (resource, cursor) ∈ r.marks →
    ∀ g e', (g, e') ∈ all → Owed st floor g e' → e'.table = resource → g ∈ cursor → Pushed r e'

/-- Everything up to a watermark was pushed. -/
def Reached (watermark : GTIDSet) (r : Run ρ GTIDSet) : Prop :=
  ∀ g e', (g, e') ∈ all → Owed st floor g e' → g ∈ watermark → Pushed r e'

/-- A cycle is safe, and when it returns without having reached a limit it is complete. -/
def Safe (watermark : GTIDSet) (result : Result ρ GTIDSet) : Prop :=
  PushSafe st floor all result.run ∧ MarkSafe st floor all result.run ∧
    ∀ r, result = .returned r → st.limit = 0 → Reached st floor all watermark r

/-- Between events: every owed row so far is pushed, and nothing of a delivered transaction is to
come. -/
structure Inv (o : Option GTID) (c : Cursor) (seen rest : List (GTID × RowsEvent ρ))
    (r : Run ρ GTIDSet) : Prop where
  pushed : ∀ g e, (g, e) ∈ seen → Owed st floor g e → Pushed r e
  ended : ∀ g ∈ c.committed, Over st floor g rest
  inflight : ∀ g ∈ c.inflight, o = some g
  safe : PushSafe st floor (seen ++ rest) r
  unmarked : r.marks = []

end Safety

section Steps

variable {st : Setup ρ} {floor : String → GTIDSet} {o : Option GTID} {c : Cursor}
  {seen rest : List (GTID × RowsEvent ρ)} {r : Run ρ GTIDSet} {e : RowsEvent ρ}

theorem Inv.pushed_of_committed (h : Inv st floor o c seen rest r) (hmem : (g, e) ∈ seen ++ rest)
    (howed : Owed st floor g e) (hg : g ∈ c.committed) : Pushed r e := by
  rcases mem_append.1 hmem with hseen | hrest
  · exact h.pushed g e hseen howed
  · exact absurd howed (h.ended g hg e hrest)

theorem lookup_floorsOf {resource : String} (h : resource ∈ st.resources) :
    (floorsOf st floor).lookup resource = some (floor resource) :=
  lookup_map_self h

theorem mem_unionGTID {a : GTIDSet} {b : Option GTIDSet} (h : g ∈ unionGTID a b) :
    g ∈ a ∨ ∃ s ∈ b, g ∈ s := by
  cases b with
  | none => exact .inl h
  | some b =>
    simp only [unionGTID] at h
    split_ifs at h
    · exact .inl h
    · exact .inr ⟨b, rfl, h⟩
    · exact (Finset.mem_union.1 h).imp_right fun hb => ⟨b, rfl, hb⟩

section

variable (h : Inv st floor o c seen rest r)
include h

theorem Inv.returns (hreached : st.limit = 0 → watermark ⊆ c.committed) :
    Safe st floor (seen ++ rest) watermark
      (pushStreamMarks st (mark (floorsOf st floor) c.committed) r) := by
  refine ⟨h.safe, ?_, ?_⟩
  · intro resource cursor hmark g e hmem howed htable hg
    have hmarks : (resource, cursor) ∈ r.marks ++
        st.resources.map fun resource => (resource, mark (floorsOf st floor) c.committed resource) :=
      hmark
    rw [h.unmarked, nil_append] at hmarks
    obtain ⟨resource, hresource, heq⟩ := mem_map.1 hmarks
    cases heq
    rw [mark, lookup_floorsOf hresource] at hg
    rcases mem_unionGTID hg with hg | ⟨s, hs, hg⟩
    · exact h.pushed_of_committed hmem howed hg
    · cases hs
      exact absurd (htable ▸ hg) howed.2
  · intro r' hr' hlimit g e hmem howed hg
    cases hr'
    exact h.pushed_of_committed hmem howed (hreached hlimit hg)

theorem Inv.stands {result : Result ρ GTIDSet} (hrun : result.run = r)
    (hresult : ∀ r', result ≠ .returned r') :
    Safe st floor (seen ++ rest) watermark result := by
  refine ⟨hrun ▸ h.safe, fun resource cursor hmark => ?_, fun r' hr' => absurd hr' (hresult r')⟩
  rw [hrun, h.unmarked] at hmark
  cases hmark

theorem Inv.fold (hover : ∀ g ∈ o, Over st floor g rest) :
    Inv st floor o c.fold seen rest r := by
  refine ⟨h.pushed, fun g hg => ?_, nofun, h.safe, h.unmarked⟩
  cases hinflight : c.inflight with
  | none => exact h.ended g (by simpa [Cursor.fold, hinflight] using hg)
  | some g' =>
    simp only [Cursor.fold, hinflight, Option.elim_some, Finset.mem_insert] at hg
    rcases hg with rfl | hg
    · exact hover g (h.inflight g hinflight)
    · exact h.ended g hg

theorem Inv.begin (g : GTID) :
    Inv st floor (some g) ⟨c.committed, some g⟩ seen rest r :=
  { h with inflight := fun _ hg => hg }

/-- A rows event: it is pushed if it is owed, with a cursor that does not have its transaction. -/
theorem Inv.rows {rest' : List (GTID × RowsEvent ρ)}
    (hrest : rest = (o.elim [] fun g => [(g, e)]) ++ rest') :
    Inv st floor o c (seen ++ o.elim [] fun g => [(g, e)]) rest'
      (pushRowsEvent st (c.skips (floorsOf st floor)) e c.committed r).1 := by
  have hall : seen ++ (o.elim [] fun g => [(g, e)]) ++ rest' = seen ++ rest := by
    rw [hrest, append_assoc]
  have hsub : ∀ p ∈ rest', p ∈ rest := fun p hp => hrest ▸ mem_append_right _ hp
  unfold pushRowsEvent
  split_ifs with hskip
  · -- A skipped event is not owed.
    refine ⟨fun g e' hmem howed => ?_, fun g hg e' hmem => h.ended g hg e' (hsub _ hmem), h.inflight,
      hall ▸ h.safe, h.unmarked⟩
    rcases mem_append.1 hmem with hseen | hnew
    · exact h.pushed g e' hseen howed
    exfalso
    cases o with
    | none => cases hnew
    | some g' =>
      obtain ⟨rfl, rfl⟩ := Prod.mk.inj (mem_singleton.1 hnew)
      obtain ⟨htracks, hfloor⟩ := howed
      rw [htracks, Bool.not_true, Bool.false_or] at hskip
      have hresource : e'.table ∈ st.resources := by
        simp only [Setup.tracks, Bool.and_eq_true, decide_eq_true_eq] at htracks
        exact htracks.2
      rw [Cursor.skips, lookup_floorsOf hresource] at hskip
      cases hinflight : c.inflight with
      | none => simp [hinflight] at hskip
      | some g'' =>
        obtain rfl := Option.some.inj (h.inflight g'' hinflight)
        exact hfloor (by simpa [hinflight] using hskip)
  · refine ⟨fun g e' hmem howed => ?_, fun g hg e' hmem => h.ended g hg e' (hsub _ hmem), h.inflight,
      ?_, h.unmarked⟩
    · rw [Pushed, map_append, mem_append]
      rcases mem_append.1 hmem with hseen | hnew
      · exact .inl (h.pushed g e' hseen howed)
      refine .inr ?_
      cases o with
      | none => cases hnew
      | some g' =>
        obtain ⟨rfl, rfl⟩ := Prod.mk.inj (mem_singleton.1 hnew)
        simp
    · -- What its cursor has is pushed already; the earlier cursors are as before.
      rw [hall]
      intro before e' cursor after hsplit g e'' hmem howed hg
      rcases eq_nil_or_concat after with rfl | ⟨after, last, rfl⟩
      · obtain ⟨rfl, rfl, rfl⟩ : r.pushed = before ∧ e = e' ∧ c.committed = cursor := by
          simpa using hsplit
        exact h.pushed_of_committed hmem howed hg
      · have hinit : r.pushed ++ [(e, c.committed)] = before ++ (e', cursor) :: after ++ [last] := by
          simpa using hsplit
        obtain ⟨hinit, -⟩ := append_inj' hinit rfl
        exact h.safe before e' cursor after hinit g e'' hmem howed hg

end

/-- **Event by event, a cycle stays safe.**  `events` is what the stream has delivered, `later` the rest
of the log. -/
theorem follow_safe {events : List (Event ρ)} (hsettles : Settles st floor o (events ++ later))
    (h : Inv st floor o c seen (owned o (events ++ later)) r) :
    Safe st floor (seen ++ owned o (events ++ later)) watermark
      (follow st (floorsOf st floor) watermark c r events) := by
  induction events generalizing o c seen r with
  | nil => exact h.stands rfl nofun
  | cons event events ih =>
    cases event with
    | failed => exact h.stands rfl nofun
    | gtid g =>
      obtain ⟨hover, hsettles⟩ := hsettles
      have hnext := (h.fold hover).begin g
      rw [follow]
      split_ifs with hreached
      · exact hnext.returns fun _ => hreached
      · exact ih hsettles hnext
    | xid =>
      obtain ⟨hover, hsettles⟩ := hsettles
      have hrest : owned o (.xid :: events ++ later) = owned o (events ++ later) := by
        cases o <;> rfl
      have hnext := h.fold hover
      rw [follow]
      split_ifs with hreached
      · exact hnext.returns fun _ => hreached
      · exact ih hsettles hnext
    | query text =>
      obtain ⟨hover, hsettles⟩ := hsettles
      have hrest : owned o (.query text :: events ++ later) = owned o (events ++ later) := by
        cases o <;> rfl
      rw [hrest] at h ⊢
      have hnext : Inv st floor o (if isControl text then c else c.fold) seen
          (owned o (events ++ later)) r := by
        split_ifs with hcontrol
        · exact h
        · exact h.fold (hover (Bool.eq_false_iff.2 hcontrol))
      rw [follow]
      generalize (if isControl text = true then c else c.fold) = next at hnext ⊢
      split_ifs with hreached
      · exact hnext.returns fun _ => hreached
      · exact ih hsettles hnext
    | rows e =>
      have hrest : owned o (.rows e :: events ++ later) =
          (o.elim [] fun g => [(g, e)]) ++ owned o (events ++ later) := by
        cases o <;> rfl
      have hnext := h.rows hrest
      rw [hrest, ← append_assoc]
      rw [follow]
      dsimp only
      split_ifs with hreached
      · refine hnext.returns fun hlimit => hreached.resolve_left fun hlimited => ?_
        unfold pushRowsEvent at hlimited
        split_ifs at hlimited
        simp [hlimit] at hlimited
      · exact ih hsettles hnext

end Steps

/-! ### Orderly transactions -/

section Transactions

variable {st : Setup ρ} {floor : String → GTIDSet}

theorem owned_part (g : GTID) (p : Part ρ) (es : List (Event ρ)) :
    owned (some g) (p.event :: es) =
      (match p with | .query _ => [] | .rows e => [(g, e)]) ++ owned (some g) es := by
  cases p <;> rfl

theorem owned_body (g : GTID) (body : List (Part ρ)) (es : List (Event ρ)) :
    owned (some g) (body.map Part.event ++ es) =
      (body.filterMap fun
        | .query _ => none
        | .rows e => some e).map (fun e => (g, e)) ++ owned (some g) es := by
  induction body with
  | nil => rfl
  | cons p body ih =>
    rw [map_cons, cons_append, owned_part, ih]
    cases p <;> rfl

theorem owned_txns (o : Option GTID) (txns : List (Txn ρ)) :
    owned o (txns.flatMap Txn.events) = txns.flatMap fun t => t.rows.map fun e => (t.gtid, e) := by
  induction txns generalizing o with
  | nil => cases o <;> rfl
  | cons t txns ih =>
    rw [flatMap_cons, flatMap_cons, Txn.events, cons_append, append_assoc]
    have hhead : owned o (.gtid t.gtid :: (t.body.map Part.event ++
        ((if t.xid then [.xid] else []) ++ txns.flatMap Txn.events))) =
        owned (some t.gtid) (t.body.map Part.event ++
          ((if t.xid then [.xid] else []) ++ txns.flatMap Txn.events)) := by
      cases o <;> rfl
    have htail : owned (some t.gtid) ((if t.xid then [.xid] else []) ++ txns.flatMap Txn.events) =
        txns.flatMap fun t => t.rows.map fun e => (t.gtid, e) := by
      rw [← ih (some t.gtid)]
      cases t.xid <;> rfl
    rw [hhead, owned_body, htail]
    rfl

variable {o : Option GTID} {txns : List (Txn ρ)}

/-- Nothing is owed of a transaction that does not come any more. -/
theorem over_txns (hg : ∀ t ∈ txns, t.gtid ≠ g) :
    Over st floor g (owned o (txns.flatMap Txn.events)) := by
  intro e hmem _
  rw [owned_txns] at hmem
  obtain ⟨t, ht, hmem⟩ := mem_flatMap.1 hmem
  obtain ⟨e', -, heq⟩ := mem_map.1 hmem
  exact hg t ht (Prod.mk.inj heq).1

variable {es : List (Event ρ)}

/-- The rest of a transaction of which `before` is gone. -/
theorem settles_body {t : Txn ρ} {before body : List (Part ρ)} (hbody : t.body = before ++ body)
    (horderly : t.Orderly st floor) (hover : Over st floor t.gtid (owned (some t.gtid) es))
    (hsettles : Settles st floor (some t.gtid) es) :
    Settles st floor (some t.gtid) (body.map Part.event ++ es) := by
  induction body generalizing before with
  | nil => exact hsettles
  | cons p body ih =>
    have hnext : Settles st floor (some t.gtid) (body.map Part.event ++ es) :=
      ih (show t.body = (before ++ [p]) ++ body by simpa using hbody)
    cases p with
    | rows e => exact hnext
    | query text =>
      refine ⟨fun hcontrol g hg e
        (hmem : (g, e) ∈ owned (some t.gtid) (body.map Part.event ++ es)) => ?_, hnext⟩
      obtain rfl : t.gtid = g := by simpa using hg
      rw [owned_body] at hmem
      rcases mem_append.1 hmem with hmem | hmem
      · obtain ⟨e', he', heq⟩ := mem_map.1 hmem
        obtain ⟨p, hp, hpe⟩ := mem_filterMap.1 he'
        obtain ⟨-, rfl⟩ := Prod.mk.inj heq
        cases p with
        | query _ => cases hpe
        | rows e'' =>
          obtain rfl : e'' = e' := by simpa using hpe
          exact horderly before text body hbody hcontrol e'' hp
      · exact hover e hmem

theorem settles_txns (horderly : ∀ t ∈ txns, t.Orderly st floor)
    (hnodup : (txns.map Txn.gtid).Nodup) (ho : ∀ g ∈ o, ∀ t ∈ txns, t.gtid ≠ g) :
    Settles st floor o (txns.flatMap Txn.events) := by
  induction txns generalizing o with
  | nil => cases o <;> trivial
  | cons t txns ih =>
    obtain ⟨hnew, hnodup⟩ := nodup_cons.1 hnodup
    have hlater : ∀ t' ∈ txns, t'.gtid ≠ t.gtid :=
      fun t' ht' heq => hnew (heq ▸ mem_map_of_mem ht')
    have hrest : Settles st floor (some t.gtid) (txns.flatMap Txn.events) := by
      refine ih (fun t' ht' => horderly t' (.tail _ ht')) hnodup fun g hg t' ht' => ?_
      obtain rfl : t.gtid = g := by simpa using hg
      exact hlater t' ht'
    have hover : Over st floor t.gtid (owned (some t.gtid) (txns.flatMap Txn.events)) :=
      over_txns hlater
    have hend : Settles st floor (some t.gtid)
        ((if t.xid then [.xid] else []) ++ txns.flatMap Txn.events) := by
      cases t.xid with
      | false => exact hrest
      | true =>
        refine ⟨fun g hg => ?_, hrest⟩
        obtain rfl : t.gtid = g := by simpa using hg
        exact hover
    have hendOwned : owned (some t.gtid) ((if t.xid then [.xid] else []) ++
        txns.flatMap Txn.events) = owned (some t.gtid) (txns.flatMap Txn.events) := by
      cases t.xid <;> rfl
    rw [flatMap_cons, Txn.events, cons_append, append_assoc]
    refine ⟨fun g hg => ?_, settles_body (nil_append _).symm (horderly t (.head _))
      (hendOwned ▸ hover) hend⟩
    have hall : Over st floor g (owned none ((t :: txns).flatMap Txn.events)) := over_txns (ho g hg)
    rwa [flatMap_cons, Txn.events, cons_append, append_assoc] at hall

/-! ### A stream that breaks off -/

theorem owned_failed :
    owned o (es ++ .failed :: later) = owned o (es ++ later) := by
  induction es generalizing o with
  | nil => cases o <;> rfl
  | cons event es ih => cases event <;> cases o <;> simp [owned, ih]

theorem settles_failed :
    Settles st floor o (es ++ .failed :: later) ↔ Settles st floor o (es ++ later) := by
  induction es generalizing o with
  | nil => cases o <;> rfl
  | cons event es ih => cases event <;> cases o <;> simp [Settles, ih, owned_failed]

end Transactions

/-! ### The cycle -/

theorem foldlM_oldest_subset {out : Option GTIDSet} (h : floors.foldlM (fun minSet floor =>
      match minSet with
      | none => Except.ok (some floor.2)
      | some minSet =>
        if floor.2 ⊆ minSet then .ok (some floor.2)
        else if minSet ⊆ floor.2 then .ok (some minSet)
        else .error "mysql cdc: incomparable gtid cursors (mixed streams?)") out =
      .ok (some start)) : (∀ s ∈ out, start ⊆ s) ∧ ∀ f ∈ floors, start ⊆ f.2 := by
  induction floors generalizing out with
  | nil =>
    obtain rfl : out = some start := by simpa [pure, Except.pure] using h
    simp
  | cons f floors ih =>
    obtain ⟨next, hnext, h⟩ := Except.bind_eq_ok.1 h
    obtain ⟨hout, hfloors⟩ := ih h
    cases out with
    | none =>
      obtain rfl : some f.2 = next := by simpa using hnext
      exact ⟨nofun, forall_mem_cons.2 ⟨hout _ rfl, hfloors⟩⟩
    | some s =>
      dsimp only at hnext
      split_ifs at hnext with hlower hhigher
      · obtain rfl : some f.2 = next := by simpa using hnext
        refine ⟨fun s' hs' => ?_, forall_mem_cons.2 ⟨hout _ rfl, hfloors⟩⟩
        obtain rfl : s = s' := by simpa using hs'
        exact (hout _ rfl).trans hlower
      · obtain rfl : some s = next := by simpa using hnext
        exact ⟨hout, forall_mem_cons.2 ⟨(hout _ rfl).trans hhigher, hfloors⟩⟩

/-- The stream starts from a set that every floor has. -/
theorem oldestGTID_subset (h : oldestGTID floors = .ok (some start)) : ∀ f ∈ floors, start ⊆ f.2 :=
  (foldlM_oldest_subset h).2

theorem safe_failed_empty {st : Setup ρ} {floor : String → GTIDSet}
    {all : List (GTID × RowsEvent ρ)} : Safe st floor all watermark (.failed .empty) :=
  ⟨by simp [PushSafe, Result.run, Run.empty], by simp [MarkSafe, Result.run, Run.empty], nofun⟩

/-- **A cursor has only delivered transactions.**  The log is any sequence of transactions, each with
any query and rows events, of which no rows that are owed follow a query event that is taken for the
end; the stream delivers a part of it and may then break off.  Then no cursor or mark that is pushed has
a transaction of which rows are still to be pushed, and a cycle without a limit that returns has pushed
everything up to its watermark. -/
theorem gtid_cursors_safe (st : Setup ρ) (floor : String → GTIDSet) (watermark : GTIDSet)
    (txns : List (Txn ρ)) (before later broken : List (Event ρ))
    (hlog : txns.flatMap Txn.events = before ++ later) (hbroken : broken = [] ∨ broken = [.failed])
    (hnodup : (txns.map Txn.gtid).Nodup) (horderly : ∀ t ∈ txns, t.Orderly st floor) :
    Safe st floor (txns.flatMap fun t => t.rows.map fun e => (t.gtid, e)) watermark
      (extractChanges st (floorsOf st floor) watermark (before ++ broken)) := by
  have hsettles : Settles st floor none (before ++ later) :=
    hlog ▸ settles_txns horderly hnodup nofun
  rw [← owned_txns none, hlog]
  obtain ⟨hsettles', howned⟩ : Settles st floor none (before ++ broken ++ later) ∧
      owned none (before ++ broken ++ later) = owned none (before ++ later) := by
    rcases hbroken with rfl | rfl
    · exact ⟨by simpa using hsettles, by simp⟩
    · rw [append_assoc, cons_append, nil_append]
      exact ⟨settles_failed.2 hsettles, owned_failed⟩
  rw [← howned]
  unfold extractChanges
  cases hstart : oldestGTID (floorsOf st floor) with
  | error m => exact safe_failed_empty
  | ok start =>
    cases start with
    | none => exact safe_failed_empty
    | some start =>
      have hinv : Inv st floor none ⟨start, none⟩ [] (owned none (before ++ broken ++ later))
          Run.empty := by
        refine ⟨nofun, fun g hg e _ howed => howed.2 ?_, nofun, ?_, rfl⟩
        · obtain ⟨htracks, -⟩ := howed
          have hselected : e.table ∈ st.resources := by
            simp only [Setup.tracks, Bool.and_eq_true, decide_eq_true_eq] at htracks
            exact htracks.2
          exact oldestGTID_subset hstart _ (mem_map_of_mem hselected) hg
        · simp [PushSafe, Run.empty]
      dsimp only
      split_ifs with hreached
      · exact hinv.returns fun _ => hreached
      · exact follow_safe hsettles' hinv

section Witness

private def ledger : Setup Unit := ⟨"shop", ["orders"], 0, fun _ => 1⟩

private def first : GTID := ⟨"3e11", 1⟩

private def order : RowsEvent Unit := ⟨"shop", "orders", 200, [()]⟩

private def second : GTID := ⟨"3e11", 2⟩

private def plain : Txn Unit := ⟨first, [.query "BEGIN", .rows order], true⟩

private def marked : Txn Unit :=
  ⟨second, [.query "BEGIN", .rows order, .query "SAVEPOINT a", .rows order], true⟩

private def logged : Txn Unit :=
  ⟨first, [.query "BEGIN", .query "insert into audit values (1)", .rows order], true⟩

/-- Two transactions that change rows, the second with a savepoint between them, read to the end. -/
theorem plain_transactions_safe :
    Safe ledger (fun _ => ∅) ([plain, marked].flatMap fun t => t.rows.map fun e => (t.gtid, e))
      {first, second} (extractChanges ledger (floorsOf ledger fun _ => ∅) {first, second}
        (plain.events ++ marked.events ++ [])) := by
  refine gtid_cursors_safe ledger _ {first, second} [plain, marked] _ [] []
    (by simp) (.inl rfl) (by decide) fun t ht before text after hbody hcontrol e he => ?_
  -- the query events of the transactions are their BEGIN and the savepoint
  have htext : text = "BEGIN" ∨ text = "SAVEPOINT a" := by
    have hmem : Part.query text ∈ t.body := hbody ▸ by simp
    rcases (by simpa using ht : t = plain ∨ t = marked) with rfl | rfl
    · exact .inl (by simpa [plain] using hmem)
    · simpa [marked] using hmem
  rcases htext with rfl | rfl
  · exact absurd hcontrol (by decide)
  · exact absurd hcontrol (by decide)

/-- A statement logged as text inside a transaction is taken for its end: the cursor has the
transaction, the watermark is reached, and the row that follows is never pushed. -/
theorem statement_folds_transaction :
    extractChanges ledger (floorsOf ledger fun _ => ∅) {first} logged.events =
        .returned ⟨[], [("orders", {first})], 0⟩ ∧
      ¬Safe ledger (fun _ => ∅) ([logged].flatMap fun t => t.rows.map fun e => (t.gtid, e)) {first}
        (extractChanges ledger (floorsOf ledger fun _ => ∅) {first} logged.events) := by
  have hrun : extractChanges ledger (floorsOf ledger fun _ => ∅) {first} logged.events =
      .returned ⟨[], [("orders", {first})], 0⟩ := by
    rfl
  refine ⟨hrun, fun hsafe => ?_⟩
  rw [hrun] at hsafe
  have hpushed := hsafe.2.2 _ rfl rfl first order (by simp [logged, Txn.rows])
    ⟨by decide, by simp⟩ (by simp)
  simp [Pushed] at hpushed

end Witness

end Filament.Mysql.Gtid
