import Filament.Incremental.Read
import Filament.Keyset.Complete

/-!
# What an incremental run reads

* `ordered_sorted`, `incrementalHigh_spec` : the order of the rows and the greatest of them;
* `pages_eq` : the pages of a run, one after the other, are the rows above its lower bound;
* **`extractIncrementalTable_eq`** : a run sends the rows of its window in order, up to its limit;
* `take_extractIncrementalTable` : a run that is paused has sent what it sends with a lower limit.
-/

namespace Filament.Incremental

open Row

open Filament.Keyset List
open Filament.Postgres.Snapshot (remaining page page_isPrefix page_eq_of_lt page_remaining_eq)

variable {α : Type} [LinearOrder α]

/-! ### Order -/

variable {r r' : Row α}

omit [LinearOrder α] in
theorem Row.key_eq_of_pos_eq (h : r.pos = r'.pos) : r.key = r'.key :=
  (cons.inj h).2

variable {rows : List (Row α)}

omit [LinearOrder α] in
theorem row_eq_of_key_eq (hdistinct : (rows.map key).Nodup)
    (hr : r ∈ rows) (hr' : r' ∈ rows) (h : r.key = r'.key) : r = r' :=
  inj_on_of_nodup_map hdistinct hr hr' h

instance : Std.Total (fun r r' : Row α => r.pos ≤ r'.pos) := ⟨fun r r' => le_total r.pos r'.pos⟩

instance : IsTrans (Row α) (fun r r' : Row α => r.pos ≤ r'.pos) :=
  ⟨fun _ _ _ h h' => le_trans h h'⟩

instance : Std.Total (fun r r' : Row α => r'.pos ≤ r.pos) := ⟨fun r r' => le_total r'.pos r.pos⟩

instance : IsTrans (Row α) (fun r r' : Row α => r'.pos ≤ r.pos) :=
  ⟨fun _ _ _ h h' => le_trans h' h⟩

theorem mem_ordered : r ∈ ordered rows ↔ r ∈ rows :=
  mem_insertionSort _

theorem ordered_sorted (hdistinct : (rows.map key).Nodup) :
    (ordered rows).Pairwise fun r r' => r.pos < r'.pos := by
  have hle := pairwise_insertionSort (fun r r' : Row α => r.pos ≤ r'.pos) rows
  have hperm := perm_insertionSort (fun r r' : Row α => r.pos ≤ r'.pos) rows
  have hne : (ordered rows).Pairwise fun r r' => r.key ≠ r'.key :=
    pairwise_map.1 ((hperm.map key).nodup_iff.2 hdistinct)
  exact (hle.and hne).imp fun h => lt_of_le_of_ne h.1 fun heq => h.2 (key_eq_of_pos_eq heq)

/-- The greatest position is that of a row, and no row is above it. -/
theorem incrementalHigh_spec (cfg : Config α) (rows : List (Row α)) :
    (rows = [] ∧ incrementalHigh cfg rows = none) ∨
      ∃ top ∈ rows, incrementalHigh cfg rows = some (top.text cfg) ∧ ∀ r ∈ rows, r.pos ≤ top.pos := by
  unfold incrementalHigh
  cases hsort : rows.insertionSort fun r r' => r'.pos ≤ r.pos with
  | nil =>
    refine .inl ⟨?_, rfl⟩
    have hperm := perm_insertionSort (fun r r' : Row α => r'.pos ≤ r.pos) rows
    rw [hsort] at hperm
    exact hperm.nil_eq.symm
  | cons top rest =>
    have hmem : ∀ r, r ∈ top :: rest ↔ r ∈ rows := fun r => by
      rw [← hsort, mem_insertionSort]
    have hsorted := pairwise_insertionSort (fun r r' : Row α => r'.pos ≤ r.pos) rows
    rw [hsort, pairwise_cons] at hsorted
    refine .inr ⟨top, (hmem top).1 (by simp), rfl, fun r hr => ?_⟩
    rcases mem_cons.1 ((hmem r).2 hr) with rfl | hr
    · exact le_rfl
    · exact hsorted.1 r hr

/-! ### Bounds -/

variable {low : List String} {last top : Row α}

/-- Whether a row is above a lower bound. -/
def above (cfg : Config α) (low : List String) (r : Row α) : Bool :=
  (lowerBound cfg low).all (Pred.eval cfg.type.cast r.pos)

/-- The rows above a lower bound, in order. -/
def window (cfg : Config α) (rows : List (Row α)) (low : List String) : List (Row α) :=
  ordered (rows.filter (above cfg low))

section Bounds

variable {cfg : Config α}

theorem cast_text (r : Row α) : (r.text cfg).mapIdx cfg.type.cast = r.pos := by
  refine ext_getElem? fun i => ?_
  simp [text, Function.comp_def, cfg.type.cast_text]

theorem text_head (r : Row α) : (r.text cfg).head? = some (cfg.type.text 0 r.cursor) := by
  simp [text, pos]

/-- A comparison with a full key is one of positions. -/
theorem tupleCmp_pos {op : Op} {vals : List String} (hr : r.key.length = cfg.n)
    (hvals : vals.length = cfg.n + 1) :
    (tupleCmp cfg.dialect op vals).eval cfg.type.cast r.pos =
      op.eval r.pos (vals.mapIdx cfg.type.cast) := by
  have hlength : r.pos.length = cfg.n + 1 := by rw [pos, length_cons, hr]
  rw [tupleCmp_eval _ _ _ _ _ (ne_nil_of_length_pos (by omega)) (by omega),
    take_of_length_le (by omega)]

theorem above_full {key : List String} (hkey : key.length = cfg.n + 1) (hr : r.key.length = cfg.n) :
    above cfg key r = true ↔ key.mapIdx cfg.type.cast < r.pos := by
  have hbound : lowerBound cfg key = [tupleCmp cfg.dialect .gt key] := if_pos hkey
  rw [above, hbound, all_cons, all_nil, Bool.and_true, tupleCmp_pos hr hkey, Op.eval_gt]

theorem above_cursor (hn : 0 < cfg.n) {v : String} :
    above cfg [v] r = true ↔ cfg.type.cast 0 v ≤ r.cursor := by
  have hbound : lowerBound cfg [v] = [.cmp 0 .ge v] := if_neg (by simpa using hn.ne')
  rw [above, hbound]
  simp [Pred.eval, pos, Op.eval]

/-- A bound that is neither a full key nor a cursor does not bound. -/
theorem above_open (hfull : low.length ≠ cfg.n + 1) (hone : low.length ≠ 1) (r : Row α) :
    above cfg low r = true := by
  have hbound : lowerBound cfg low = [] := by
    rw [lowerBound.eq_def, if_neg hfull]
    match low with
    | [] => rfl
    | _ :: _ :: _ => rfl
  rw [above, hbound, all_nil]

theorem above_mono (hn : 0 < cfg.n) (hr : r.key.length = cfg.n) (hr' : r'.key.length = cfg.n)
    (h : above cfg low r = true) (hlt : r.pos < r'.pos) : above cfg low r' = true := by
  by_cases hfull : low.length = cfg.n + 1
  · rw [above_full hfull hr] at h
    exact (above_full hfull hr').2 (h.trans hlt)
  · by_cases hone : low.length = 1
    · obtain ⟨v, rfl⟩ := length_eq_one_iff.1 hone
      rw [above_cursor hn] at h ⊢
      exact h.trans (head_le_of_lt hlt)
    · exact above_open hfull hone r'

theorem text_length (hr : r.key.length = cfg.n) : (r.text cfg).length = cfg.n + 1 := by
  simp [text, pos, hr]

theorem above_text (hr : r.key.length = cfg.n) (hlast : last.key.length = cfg.n) :
    above cfg (last.text cfg) r = true ↔ last.pos < r.pos := by
  rw [above_full (text_length hlast) hr, cast_text]

/-- No row is above the upper bound of a run. -/
theorem between_eq (hrows : ∀ r ∈ rows, r.key.length = cfg.n) (htop : top ∈ rows)
    (hmax : ∀ r ∈ rows, r.pos ≤ top.pos) (low : List String) :
    between cfg rows low (top.text cfg) = window cfg rows low := by
  refine congrArg ordered (filter_congr fun r hr => ?_)
  have hle : (tupleCmp cfg.dialect .le (top.text cfg)).eval cfg.type.cast r.pos = true := by
    rw [tupleCmp_pos (hrows r hr) (text_length (hrows top htop)), cast_text, Op.eval_le]
    exact hmax r hr
  rw [incrementalBounds, all_append, all_cons, all_nil, hle, Bool.and_true, Bool.and_true, above]

end Bounds

/-! ### Pages -/

variable {emitted limit : ℕ} {ρ : Type}

/-- Reading goes on where a page that stayed below the limit ended. -/
theorem page_append {front rest : List ρ} (hstop : ¬(0 < limit ∧ limit ≤ emitted + front.length)) :
    page (remaining limit emitted) (front ++ rest) =
      front ++ page (remaining limit (emitted + front.length)) rest := by
  rcases Nat.eq_zero_or_pos limit with rfl | hlimit
  · simp [page, remaining]
  have hfits : emitted + front.length < limit := by
    by_contra hle
    exact hstop ⟨hlimit, by omega⟩
  have hrest : ∀ e, e < limit → remaining limit e = limit - e := fun e _ => by
    rw [remaining, if_neg (by omega), Nat.max_zero]
  rw [page, page, hrest emitted (by omega), hrest _ hfits, if_pos (by omega), if_pos (by omega),
    take_append]
  congr 1
  · exact take_of_length_le (by omega)
  · rw [Nat.sub_sub]

theorem page_of_limit {size : ℕ} {rows : List ρ} (hlimit : 0 < limit) (hemitted : emitted < limit)
    (hstop : limit ≤ emitted + (page (remaining limit emitted) (page size rows)).length) :
    page (remaining limit emitted) (page size rows) = page (remaining limit emitted) rows := by
  have hrest : remaining limit emitted = limit - emitted := by
    rw [remaining, if_neg (by omega), Nat.max_zero]
  have htake : ∀ l : List ρ, page (remaining limit emitted) l = l.take (limit - emitted) :=
    fun l => by rw [hrest, page, if_pos (by omega)]
  rw [htake, length_take] at hstop
  obtain ⟨rest, hrows⟩ := page_isPrefix size rows
  rw [htake, htake]
  conv_rhs => rw [← hrows, take_append_of_le_length (by omega)]

section Pages

variable {cfg : Config α} {rows : List (Row α)}

section

variable (hn : 0 < cfg.n) (hdistinct : (rows.map Row.key).Nodup) (hrows : ∀ r ∈ rows, r.key.length = cfg.n)
include hn hdistinct hrows

/-- What is above the last row of the front of a window is the rest of it. -/
theorem window_rest {front rest : List (Row α)} (hwindow : window cfg rows low = front ++ rest)
    (hlast : front.getLast? = some last) :
    window cfg rows (last.text cfg) = rest := by
  have hsub : ∀ p : Row α → Bool, ((rows.filter p).map key).Nodup := fun p =>
    hdistinct.sublist (filter_sublist.map key)
  have hsorted := ordered_sorted (hsub (above cfg low))
  rw [show ordered (rows.filter (above cfg low)) = front ++ rest from hwindow] at hsorted
  have hmem : ∀ r, r ∈ front ++ rest ↔ r ∈ rows ∧ above cfg low r = true := fun r => by
    rw [← hwindow, window, mem_ordered, mem_filter]
  obtain ⟨init, hinit⟩ := getLast?_eq_some_iff.1 hlast
  have hlastMem : last ∈ front := mem_of_getLast? hlast
  have hlastRow : last ∈ rows := ((hmem last).1 (mem_append_left _ hlastMem)).1
  obtain ⟨hfront, hrest, hcross⟩ := pairwise_append.1 hsorted
  refine Pairwise.eq_of_mem_iff (ordered_sorted (hsub _)) hrest fun r => ?_
  rw [window, mem_ordered, mem_filter]
  constructor
  · rintro ⟨hr, habove⟩
    rw [above_text (hrows r hr) (hrows last hlastRow)] at habove
    have hlow := above_mono hn (hrows last hlastRow) (hrows r hr)
      ((hmem last).1 (mem_append_left _ hlastMem)).2 habove
    -- A row of the front is not above the last one of it.
    refine (mem_append.1 ((hmem r).2 ⟨hr, hlow⟩)).resolve_left fun hin => ?_
    rw [hinit] at hin hfront
    rcases mem_append.1 hin with hin | hin
    · exact lt_asymm habove ((pairwise_append.1 hfront).2.2 r hin last (by simp))
    · exact habove.ne (mem_singleton.1 hin ▸ rfl)
  · intro hr
    have hrow := ((hmem r).1 (mem_append_right _ hr)).1
    exact ⟨hrow, (above_text (hrows r hrow) (hrows last hlastRow)).2 (hcross last hlastMem r hr)⟩

/-- **The pages of a run are the rows above its lower bound, up to the limit.** -/
theorem pages_eq (htop : top ∈ rows) (hmax : ∀ r ∈ rows, r.pos ≤ top.pos) {fuel : ℕ}
    (hemitted : 0 < limit → emitted < limit) (hfuel : (window cfg rows low).length < fuel) :
    pages cfg rows (top.text cfg) limit fuel low emitted =
      page (remaining limit emitted) (window cfg rows low) := by
  induction fuel generalizing emitted low with
  | zero => omega
  | succ fuel ih =>
    rw [pages, between_eq hrows htop hmax]
    dsimp only
    by_cases hlimit : 0 < limit ∧ limit ≤ emitted +
        (page (remaining limit emitted) (page cfg.pageSize (window cfg rows low))).length
    · rw [if_pos (.inr (.inr hlimit))]
      exact page_of_limit hlimit.1 (hemitted hlimit.1) hlimit.2
    have hsent := page_remaining_eq hlimit
    rw [hsent] at hlimit ⊢
    obtain ⟨rest, hrest⟩ := page_isPrefix cfg.pageSize (window cfg rows low)
    by_cases hend : (page cfg.pageSize (window cfg rows low)).length = 0 ∨
        (page cfg.pageSize (window cfg rows low)).length < cfg.pageSize
    · -- A short page is the last one.
      have hall : page cfg.pageSize (window cfg rows low) = window cfg rows low :=
        page_eq_of_lt fun hpos => by omega
      rw [if_pos (by tauto), hall]
      rw [hall] at hlimit
      have happend : page (remaining limit emitted) (window cfg rows low ++ []) = _ :=
        page_append hlimit
      rw [append_nil] at happend
      rw [happend]
      simp [page]
    · rw [if_neg (by tauto)]
      have hne : page cfg.pageSize (window cfg rows low) ≠ [] :=
        ne_nil_of_length_pos (by omega)
      have hlast := getLast?_eq_some_getLast hne
      rw [hlast, Option.map_some, Option.getD_some]
      have hnext := window_rest hn hdistinct hrows hrest.symm hlast
      have hlength := congrArg length hrest
      rw [length_append] at hlength
      rw [ih (by omega) (by rw [hnext]; omega), hnext, ← page_append hlimit, hrest]

end

end Pages

/-- **A run by the cursor sends the rows of its window in order, up to its limit.** -/
theorem extractIncrementalTable_eq {cfg : Config α} (hn : 0 < cfg.n)
    (hdistinct : (rows.map key).Nodup) (hrows : ∀ r ∈ rows, r.key.length = cfg.n)
    (key : List String) (limit : ℕ) :
    extractIncrementalTable cfg rows key limit = page limit (window cfg rows (startLow cfg key)) := by
  have hremaining : remaining limit 0 = limit := by
    unfold remaining
    split_ifs <;> omega
  rw [extractIncrementalTable]
  rcases incrementalHigh_spec cfg rows with ⟨rfl, hhigh⟩ | ⟨top, htop, hhigh, hmax⟩
  · rw [hhigh]
    simp [window, ordered, page]
  rw [hhigh]
  dsimp only
  have hfuel : (window cfg rows (startLow cfg key)).length < rows.length + 1 := by
    rw [window, ordered, length_insertionSort]
    exact Nat.lt_succ_of_le (length_filter_le ..)
  rw [pages_eq hn hdistinct hrows htop hmax (fun h => h) hfuel, hremaining]

/-- The limit of a run that ends after some rows. -/
def cutLimit (limit count : ℕ) : ℕ := if limit = 0 then count else min count limit

/-- The first rows that a run sends are those that it sends with a lower limit. -/
theorem take_extractIncrementalTable {cfg : Config α} (hn : 0 < cfg.n)
    (hdistinct : (rows.map key).Nodup) (hrows : ∀ r ∈ rows, r.key.length = cfg.n)
    (key : List String) (limit : ℕ) {count : ℕ} (hcount : 0 < count) :
    (extractIncrementalTable cfg rows key limit).take count =
      extractIncrementalTable cfg rows key (cutLimit limit count) := by
  rw [extractIncrementalTable_eq hn hdistinct hrows, extractIncrementalTable_eq hn hdistinct hrows]
  by_cases hzero : limit = 0
  · simp [page, cutLimit, hzero, hcount]
  · have hpos : 0 < min count limit := by omega
    simp [page, cutLimit, hzero, hpos, take_take, Nat.pos_of_ne_zero hzero]

end Filament.Incremental
