import Filament.Keyset.Plan

/-!
# Keyset reads are complete and ordered

* `tupleCmp_eval` : both sources compare the leading columns of a key in lexicographic order;
* `planKeyset_unique` : the ranges of a plan partition the keys;
* `Reader.Ordered`, `Reader.Delivers` : what holds of a reader turn after turn;
* **`keyset_complete`** : whatever others do to the table and however often a read crashes, every key
  that stays in the table is written by the time the read is complete, no key is sent twice in an
  attempt, and every shard sends its keys in increasing order.
-/

namespace Filament.Keyset

open List Function Shard

open Filament.Postgres.Snapshot (remaining page page_isPrefix page_remaining_eq)

variable {α : Type} [LinearOrder α]

/-! ### Comparisons of keys -/

variable (cast : ℕ → String → α) {β : Type}

theorem Op.eval_cons (op : Op) (a b : α) (as bs : List α) :
    op.eval (a :: as) (b :: bs) = (op.strict.eval a b || (decide (a = b) && op.eval as bs)) := by
  have hlt : ∀ (c d : α) (cs ds : List α), c :: cs < d :: ds ↔ c < d ∨ c = d ∧ cs < ds :=
    fun c d cs ds => cons_lt_cons_iff
  have hle : ∀ (c d : α) (cs ds : List α), c :: cs ≤ d :: ds ↔ c < d ∨ c = d ∧ cs ≤ ds := by
    intro c d cs ds
    rw [← not_lt, hlt, ← not_lt]
    rcases lt_trichotomy c d with h | rfl | h
    · simp [h, h.ne', not_lt_of_gt h]
    · simp
    · simp [h, h.ne', not_lt_of_gt h]
  rw [Bool.eq_iff_iff]
  cases op <;>
    simp only [Op.eval, Op.strict, hlt, hle, Bool.or_eq_true, Bool.and_eq_true,
      decide_eq_true_iff, eq_comm (a := b)]

theorem Op.eval_singleton (op : Op) (a b : α) : op.eval [a] [b] = op.eval a b := by
  rw [Op.eval_cons]
  cases op <;> simp [Op.eval, Op.strict, le_iff_lt_or_eq, eq_comm]

theorem Op.eval_gt [LinearOrder β] {a b : β} : Op.gt.eval a b = true ↔ b < a :=
  decide_eq_true_iff

theorem Op.eval_le [LinearOrder β] {a b : β} : Op.le.eval a b = true ↔ a ≤ b :=
  decide_eq_true_iff

/-- The expansion compares the columns from `i` on lexicographically. -/
theorem expand_eval (op : Op) (i : ℕ) (vals : List String) (key : Key α) (hvals : vals ≠ [])
    (hlength : i + vals.length ≤ key.length) :
    (expand op i vals).eval cast key =
      op.eval ((key.drop i).take vals.length) (vals.mapIdx fun j => cast (i + j)) := by
  induction vals generalizing i with
  | nil => exact absurd rfl hvals
  | cons v vals ih =>
    have hi : i < key.length := by
      simp only [length_cons] at hlength
      omega
    rw [drop_eq_getElem_cons hi]
    cases vals with
    | nil =>
      rw [length_singleton, take_succ_cons, take_zero, mapIdx_singleton, Op.eval_singleton]
      simp [expand, Pred.eval, hi]
    | cons w vals =>
      have hrest := ih (i + 1) nofun (by simp only [length_cons] at hlength ⊢; omega)
      simp only [Nat.add_right_comm i 1] at hrest
      rw [length_cons, take_succ_cons, mapIdx_cons, Op.eval_cons]
      simp [expand, Pred.eval, hi, hrest, ← Nat.add_assoc]

/-- **Both sources compare the leading columns of a key lexicographically.** -/
theorem tupleCmp_eval (d : Dialect) (op : Op) (vals : List String) (key : Key α)
    (hvals : vals ≠ []) (hlength : vals.length ≤ key.length) :
    (tupleCmp d op vals).eval cast key = op.eval (key.take vals.length) (vals.mapIdx cast) := by
  have hexpand := expand_eval cast op 0 vals key hvals (by omega)
  cases d with
  | mysql => simpa [tupleCmp] using hexpand
  | postgres =>
    match vals with
    | [v] => simpa [tupleCmp, expand] using hexpand
    | v :: w :: vals => rfl

/-! ### The ranges of a plan -/

variable (T : KeyType α)

/-- Whether the range of a shard has a key. -/
def Shard.covers (cfg : Config α) (sh : Shard) (key : Key α) : Bool :=
  (keysetWhere cfg.dialect cfg.n sh.lo sh.hi []).all (Pred.eval cfg.type.cast key)

/-- Whether a value of the leading column is in the bounds of a shard. -/
def Shard.Spans (T : KeyType α) (sh : Shard) (a : α) : Prop :=
  (∀ b ∈ sh.lo, T.cast 0 b ≤ a) ∧ ∀ b ∈ sh.hi, a < T.cast 0 b

/-- The bounds of a shard are of the leading column. -/
def Shard.Leading (sh : Shard) : Prop := sh.lo.length ≤ 1 ∧ sh.hi.length ≤ 1

theorem tupleCmp_singleton (d : Dialect) (op : Op) (b : String) (a : α) (key : Key α) :
    (tupleCmp d op [b]).eval cast (a :: key) = op.eval a (cast 0 b) := by
  rw [tupleCmp_eval cast d op [b] (a :: key) (by simp) (by simp)]
  exact Op.eval_singleton op a (cast 0 b)

theorem bound_eval (d : Dialect) (op : Op) {bound : List String} (hlength : bound.length ≤ 1)
    (a : α) (key : Key α) :
    (if 0 < bound.length then [tupleCmp d op bound] else []).all (Pred.eval cast (a :: key)) = true ↔
      ∀ b ∈ bound, op.eval a (cast 0 b) = true := by
  match bound with
  | [] => simp
  | [b] => simp [tupleCmp_singleton]

variable {sh : Shard} {cfg : Config α} {prev : List String}

theorem covers_iff (hn : 0 < cfg.n) (hsh : sh.Leading) (a : α) (key : Key α) :
    sh.covers cfg (a :: key) = true ↔ sh.Spans cfg.type a := by
  have hstart : ([] : List String).length ≠ cfg.n := by simpa using hn.ne
  simp only [covers, keysetWhere, if_neg hstart, all_append, Bool.and_eq_true,
    bound_eval _ _ _ hsh.1, bound_eval _ _ _ hsh.2, Op.eval, decide_eq_true_iff, Shard.Spans]

/-- The later shards have a lower bound, which is not below the first one. -/
theorem splitFrom_lower {T : KeyType α} {p : String} {bounds : List String}
    (hprev : ∀ q ∈ [p], ∀ b ∈ bounds, T.cast 0 q ≤ T.cast 0 b)
    (hsh : sh ∈ splitFrom [p] bounds) : ∃ q ∈ sh.lo, T.cast 0 p ≤ T.cast 0 q := by
  have hmem : ∃ q ∈ sh.lo, q = p ∨ q ∈ bounds := by
    clear hprev
    induction bounds generalizing p with
    | nil =>
      obtain rfl := mem_singleton.1 hsh
      exact ⟨p, by simp, .inl rfl⟩
    | cons b bounds ih =>
      rcases mem_cons.1 hsh with rfl | hsh
      · exact ⟨p, by simp, .inl rfl⟩
      · obtain ⟨q, hq, hb⟩ := ih hsh
        exact ⟨q, hq, .inr (mem_cons.2 hb)⟩
  obtain ⟨q, hq, rfl | hb⟩ := hmem
  · exact ⟨q, hq, le_rfl⟩
  · exact ⟨q, hq, hprev p (by simp) q hb⟩

/-- From a bound on, the shards of increasing bounds have every value once. -/
theorem splitFrom_unique (prev : List String) {bounds : List String}
    (hbounds : (bounds.map (T.cast 0)).Pairwise (· ≤ ·))
    (hprev : ∀ p ∈ prev, ∀ b ∈ bounds, T.cast 0 p ≤ T.cast 0 b) {a : α}
    (ha : ∀ p ∈ prev, T.cast 0 p ≤ a) :
    ∃! i : ℕ, ∃ sh : Shard, (splitFrom prev bounds)[i]? = some sh ∧ sh.Spans T a := by
  induction bounds generalizing prev with
  | nil =>
    refine ⟨0, ⟨_, rfl, ha, by simp⟩, ?_⟩
    rintro i ⟨sh, hsh, -⟩
    simpa [splitFrom] using (List.getElem?_eq_some_iff.1 hsh).1
  | cons b bounds ih =>
    rw [map_cons, pairwise_cons] at hbounds
    have hnext : ∀ p ∈ [b], ∀ c ∈ bounds, T.cast 0 p ≤ T.cast 0 c := fun p hp c hc =>
      mem_singleton.1 hp ▸ hbounds.1 _ (mem_map_of_mem hc)
    by_cases hlt : a < T.cast 0 b
    · -- Below the bound the value is in the first shard, and below every later one.
      refine ⟨0, ⟨_, rfl, ha, by simpa using hlt⟩, ?_⟩
      rintro i ⟨sh, hsh, hspans⟩
      cases i with
      | zero => rfl
      | succ i =>
        obtain ⟨p, hp, hle⟩ := splitFrom_lower hnext (mem_of_getElem? hsh)
        exact absurd (hspans.1 p hp) (not_le_of_gt (hlt.trans_le hle))
    · have hge : T.cast 0 b ≤ a := le_of_not_gt hlt
      obtain ⟨i, ⟨sh, hsh, hspans⟩, hunique⟩ := ih [b] hbounds.2 hnext (by simpa using hge)
      refine ⟨i + 1, ⟨sh, hsh, hspans⟩, ?_⟩
      rintro j ⟨sh', hsh', hspans'⟩
      cases j with
      | zero =>
        cases hsh'
        exact absurd (hspans'.2 b (by simp)) hlt
      | succ j => rw [hunique j ⟨sh', hsh', hspans'⟩]

theorem mem_splitFrom {bounds : List String} (hprev : prev.length ≤ 1)
    (hsh : sh ∈ splitFrom prev bounds) : sh.Leading ∧ sh.key = [] := by
  induction bounds generalizing prev with
  | nil =>
    obtain rfl := mem_singleton.1 hsh
    exact ⟨⟨hprev, by simp⟩, rfl⟩
  | cons b bounds ih =>
    rcases mem_cons.1 hsh with rfl | hsh
    · exact ⟨⟨hprev, by simp⟩, rfl⟩
    · exact ih (by simp) hsh

theorem splitFromBoundaries_eq (bounds : List String) :
    splitFromBoundaries bounds = splitFrom [] bounds := by
  unfold splitFromBoundaries
  split_ifs with h
  · rw [h]
    rfl
  · rfl

theorem intBoundaries_sorted {T : KeyType α} (column : IntColumn (T.cast 0)) (lo hi : ℤ) (k : ℕ) :
    ((intBoundaries lo hi k).map (T.cast 0)).Pairwise (· ≤ ·) := by
  unfold intBoundaries
  split_ifs with h
  · exact .nil
  have hspan : 0 ≤ hi - lo + 1 := by omega
  rw [map_map, pairwise_map]
  refine Pairwise.imp (fun {i j} hij => ?_) pairwise_lt_range'
  have hmul : (hi - lo + 1) * (i : ℤ) ≤ (hi - lo + 1) * (j : ℤ) :=
    Int.mul_le_mul_of_nonneg_left (by omega) hspan
  have hdiv := Int.tdiv_le_tdiv (c := (k : ℤ)) (by omega) hmul
  simp only [comp_apply, column.cast_eq]
  exact column.mono (by omega)

theorem dedupeOrdered_sublist (vals : List String) : (dedupeOrdered vals).Sublist vals := by
  -- The fold only ever leaves values out.
  suffices h : ∀ out : List String, vals.foldl (fun out v =>
      if v = "" then out else if out.getLast? = some v then out else out ++ [v]) out |>.Sublist (out ++ vals)
    from h []
  induction vals with
  | nil => simp
  | cons v vals ih =>
    intro out
    have hdrop : (out ++ vals).Sublist (out ++ v :: vals) :=
      (sublist_cons_self v vals).append_left out
    rw [foldl_cons]
    split_ifs
    · exact (ih out).trans hdrop
    · exact (ih out).trans hdrop
    · simpa using ih (out ++ [v])

theorem planKeyset_eq (sample : Sampled α) :
    ∃ bounds, planKeyset T sample = splitFrom [] bounds ∧
      (bounds.map (T.cast 0)).Pairwise (· ≤ ·) := by
  have hopen : ∃ bounds, [⟨[], [], []⟩] = splitFrom [] bounds ∧
      (bounds.map (T.cast 0)).Pairwise (· ≤ ·) := ⟨[], rfl, .nil⟩
  unfold planKeyset
  split
  · rename_i column _
    split
    · exact ⟨_, splitFromBoundaries_eq _, intBoundaries_sorted column ..⟩
    · exact hopen
  split_ifs
  · split
    · rename_i qs hqs
      dsimp only
      split_ifs
      · exact hopen
      refine ⟨_, splitFromBoundaries_eq _, ?_⟩
      have hcast : (qs.map (T.text 0)).map (T.cast 0) = qs := by
        simp [comp_def, T.cast_text]
      exact (hcast ▸ sample.sorted qs hqs).sublist ((dedupeOrdered_sublist _).map (T.cast 0))
    · exact hopen
  · exact hopen

theorem planKeyset_leading {T : KeyType α} {sample : Sampled α}
    (hsh : sh ∈ planKeyset T sample) : sh.Leading ∧ sh.key = [] := by
  obtain ⟨bounds, heq, -⟩ := planKeyset_eq T sample
  exact mem_splitFrom (by simp) (heq ▸ hsh)

theorem planKeyset_ne_nil (sample : Sampled α) : planKeyset T sample ≠ [] := by
  obtain ⟨bounds, heq, -⟩ := planKeyset_eq T sample
  rw [heq]
  cases bounds <;> simp [splitFrom]

/-- **The ranges of a plan partition the keys.** -/
theorem planKeyset_unique (hn : 0 < cfg.n) (sample : Sampled α) (key : Key α)
    (hkey : key.length = cfg.n) :
    ∃! i : ℕ, ∃ sh : Shard, (planKeyset cfg.type sample)[i]? = some sh ∧ sh.covers cfg key = true := by
  obtain ⟨a, rest, rfl⟩ := exists_cons_of_length_pos (hkey ▸ hn)
  obtain ⟨bounds, heq, hbounds⟩ := planKeyset_eq cfg.type sample
  obtain ⟨i, ⟨sh, hsh, hspans⟩, hunique⟩ :=
    splitFrom_unique cfg.type [] (a := a) hbounds nofun nofun
  rw [← heq] at hsh
  refine ⟨i, ⟨sh, hsh, ?_⟩, ?_⟩
  · exact (covers_iff hn (planKeyset_leading (mem_of_getElem? hsh)).1 a rest).2 hspans
  · rintro j ⟨sh', hsh', hcovers⟩
    have hspans' := (covers_iff hn (planKeyset_leading (mem_of_getElem? hsh')).1 a rest).1 hcovers
    exact hunique j ⟨sh', heq ▸ hsh', hspans'⟩

/-! ### Pages -/

variable {key k : Key α} {cur : List String} {i m n : ℕ}

variable (cur) in
/-- The key that a cursor stands for, when it is not at the start. -/
def cursorKey : Option (Key α) :=
  if cur = [] then none else some (cur.mapIdx T.cast)

theorem cursorKey_text (hkey : key ≠ []) : cursorKey T (key.mapIdx T.text) = some key := by
  rw [cursorKey, if_neg (by simpa using hkey)]
  refine congrArg some (ext_getElem? fun i => ?_)
  simp [comp_def, T.cast_text]

/-- A cursor that moves to the last of some rows. -/
theorem cursorKey_getLast {T : KeyType α} {rows : List (Key α)} (hrows : ∀ r ∈ rows, r ≠ [])
    (hk : k ∈ cursorKey T ((rows.getLast?.map fun key => key.mapIdx T.text).getD cur)) :
    k ∈ cursorKey T cur ∨ k ∈ rows := by
  cases hlast : rows.getLast? with
  | none => exact .inl (by simpa [hlast] using hk)
  | some last =>
    have hmem := mem_of_getLast? hlast
    rw [hlast, Option.map_some, Option.getD_some, cursorKey_text _ (hrows last hmem)] at hk
    exact .inr (Option.some.inj hk ▸ hmem)

/-- A cursor in the range of a shard. -/
def InShard (cfg : Config α) (sh : Shard) (key : Key α) : Prop :=
  key.length = cfg.n ∧ sh.covers cfg key = true

/-- **The predicate of a page has the keys of the shard above the cursor.** -/
theorem keysetWhere_iff (hn : 0 < cfg.n) (hsh : sh.Leading)
    (hcur : ∀ k ∈ cursorKey cfg.type cur, InShard cfg sh k) (hkey : key.length = cfg.n) :
    (keysetWhere cfg.dialect cfg.n sh.lo sh.hi cur).all (Pred.eval cfg.type.cast key) = true ↔
      (∀ k ∈ cursorKey cfg.type cur, k < key) ∧ sh.covers cfg key = true := by
  by_cases hstart : cur = []
  · simp [cursorKey, hstart, covers]
  have hsome : cursorKey cfg.type cur = some (cur.mapIdx cfg.type.cast) := if_neg hstart
  obtain ⟨hlength, hcovers⟩ := hcur _ hsome
  rw [length_mapIdx] at hlength
  obtain ⟨a, rest, rfl⟩ := exists_cons_of_length_pos (hkey ▸ hn)
  have hne : cur.mapIdx cfg.type.cast ≠ [] := by simpa using hstart
  obtain ⟨c, crest, hc⟩ := exists_cons_of_ne_nil hne
  have hgt : (tupleCmp cfg.dialect .gt cur).eval cfg.type.cast (a :: rest) = true ↔
      cur.mapIdx cfg.type.cast < a :: rest := by
    rw [tupleCmp_eval _ _ _ _ _ hstart (by omega), take_of_length_le (by omega), Op.eval_gt]
  have hwhere : (keysetWhere cfg.dialect cfg.n sh.lo sh.hi cur).all
      (Pred.eval cfg.type.cast (a :: rest)) = true ↔
        cur.mapIdx cfg.type.cast < a :: rest ∧ ∀ b ∈ sh.hi, a < cfg.type.cast 0 b := by
    simp only [keysetWhere, if_pos hlength, all_append, Bool.and_eq_true,
      bound_eval _ _ _ hsh.2, Op.eval, decide_eq_true_iff, all_cons, all_nil, hgt, and_true]
  -- The cursor is above the lower bound, so a key above the cursor is.
  rw [hwhere, covers_iff hn hsh, hsome]
  rw [hc] at hcovers ⊢
  simp only [Option.mem_some_iff, forall_eq']
  have hlower := ((covers_iff hn hsh c crest).1 hcovers).1
  constructor
  · rintro ⟨habove, hupper⟩
    exact ⟨habove, fun b hb => (hlower b hb).trans (head_le_of_lt habove), hupper⟩
  · rintro ⟨habove, hspans⟩
    exact ⟨habove, hspans.2⟩

namespace Reader

variable (cfg : Config α) (keys : List (Key α)) (sh : Shard) (rd : Reader α) {r : Key α}

/-- What a reader has ahead of it in a table, in order. -/
def ahead : List (Key α) :=
  (keys.filter fun key => (keysetWhere cfg.dialect cfg.n sh.lo sh.hi rd.cur).all
    (Pred.eval cfg.type.cast key)).insertionSort (· ≤ ·)

/-- The rows that a turn sends. -/
def rows : List (Key α) :=
  page (remaining cfg.limit rd.sent.length)
    (pageRows cfg.type (keysetWhere cfg.dialect cfg.n sh.lo sh.hi rd.cur) cfg.pageSize keys)

variable {cfg keys sh rd}

theorem ahead_sorted (hkeys : keys.Nodup) : (rd.ahead cfg keys sh).Pairwise (· < ·) := by
  have hle : (rd.ahead cfg keys sh).Pairwise (· ≤ ·) := pairwise_insertionSort ..
  have hne : (rd.ahead cfg keys sh).Nodup :=
    (perm_insertionSort ..).nodup_iff.2 (hkeys.filter _)
  exact (hle.and hne).imp fun h => lt_of_le_of_ne h.1 h.2

theorem mem_ahead : key ∈ rd.ahead cfg keys sh ↔ key ∈ keys ∧
    (keysetWhere cfg.dialect cfg.n sh.lo sh.hi rd.cur).all (Pred.eval cfg.type.cast key) = true := by
  rw [ahead, mem_insertionSort, mem_filter]

theorem rows_isPrefix : rd.rows cfg keys sh <+: rd.ahead cfg keys sh :=
  (page_isPrefix ..).trans <| take_prefix ..

theorem turn_sent : (rd.turn cfg keys sh).sent = rd.sent ++ rd.rows cfg keys sh := rfl

theorem turn_flushed : (rd.turn cfg keys sh).flushed = rd.flushed := rfl

theorem mem_turn_sent :
    r ∈ (rd.turn cfg keys sh).sent ↔ r ∈ rd.sent ∨ r ∈ rd.rows cfg keys sh := mem_append

theorem turn_limited : (rd.turn cfg keys sh).limited =
    decide (0 < cfg.limit ∧ cfg.limit ≤ (rd.sent ++ rd.rows cfg keys sh).length) := rfl

theorem turn_exhausted : (rd.turn cfg keys sh).exhausted =
    (!(rd.turn cfg keys sh).limited && decide ((rd.rows cfg keys sh).length < cfg.pageSize)) := rfl

theorem turn_cur : (rd.turn cfg keys sh).cur =
    if (rd.turn cfg keys sh).limited = true ∨ (rd.rows cfg keys sh).length < cfg.pageSize then rd.cur
    else ((rd.rows cfg keys sh).getLast?.map fun key => key.mapIdx cfg.type.text).getD rd.cur := rfl

/-- A turn that finds the shard exhausted has sent everything ahead. -/
theorem rows_eq_ahead (hexhausted : (rd.turn cfg keys sh).exhausted = true) :
    rd.rows cfg keys sh = rd.ahead cfg keys sh := by
  rw [turn_exhausted, turn_limited, Bool.and_eq_true, Bool.not_eq_true', decide_eq_false_iff_not,
    decide_eq_true_iff, length_append] at hexhausted
  obtain ⟨hlimited, hshort⟩ := hexhausted
  have hpage := page_remaining_eq hlimited
  rw [rows, hpage, pageRows, length_take] at hshort
  rw [rows, hpage]
  exact take_of_length_le (by omega)

/-- A turn that leaves the reader running has sent a page and moved the cursor to its last key. -/
theorem turn_running (hpageSize : 0 < cfg.pageSize)
    (hrunning : ((rd.turn cfg keys sh).exhausted || (rd.turn cfg keys sh).limited) = false) :
    ∃ last, (rd.rows cfg keys sh).getLast? = some last ∧
      (rd.turn cfg keys sh).cur = last.mapIdx cfg.type.text := by
  rw [Bool.or_eq_false_iff] at hrunning
  obtain ⟨hexhausted, hlimited⟩ := hrunning
  have hfull : ¬(rd.rows cfg keys sh).length < cfg.pageSize := by
    rw [turn_exhausted, hlimited] at hexhausted
    simpa using hexhausted
  have hne : rd.rows cfg keys sh ≠ [] := by
    intro hnil
    rw [hnil] at hfull
    exact hfull (by simpa using hpageSize)
  refine ⟨_, getLast?_eq_some_getLast hne, ?_⟩
  rw [turn_cur, if_neg (by simpa [hlimited] using hfull), getLast?_eq_some_getLast hne]
  rfl

theorem turn_cursor (hrows : ∀ r ∈ rd.rows cfg keys sh, r ≠ [])
    (hk : k ∈ cursorKey cfg.type (rd.turn cfg keys sh).cur) :
    k ∈ cursorKey cfg.type rd.cur ∨ k ∈ rd.rows cfg keys sh := by
  rw [turn_cur] at hk
  split_ifs at hk
  · exact .inl hk
  · exact cursorKey_getLast hrows hk

/-! ### Readers -/

variable {written : List (Key α)}

variable (cfg sh rd) in
/-- The keys of a reader: they increase, in the range of the shard, up to the cursor. -/
structure Ordered : Prop where
  cursor : ∀ k ∈ cursorKey cfg.type rd.cur, InShard cfg sh k
  sent : ∀ r ∈ rd.sent, InShard cfg sh r
  increasing : rd.sent.Pairwise (· < ·)
  behind : (rd.exhausted || rd.limited) = false →
    ∀ r ∈ rd.sent, ∃ k ∈ cursorKey cfg.type rd.cur, r ≤ k

/-- What a turn reads: keys of one length, each once, of a shard with bounds of the leading column. -/
structure Source (cfg : Config α) (sh : Shard) (keys : List (Key α)) : Prop where
  n : 0 < cfg.n
  pageSize : 0 < cfg.pageSize
  leading : sh.Leading
  length : ∀ key ∈ keys, key.length = cfg.n
  distinct : keys.Nodup

variable (hs : Source cfg sh keys)
include hs

theorem Ordered.rows (h : rd.Ordered cfg sh) (hr : r ∈ rd.rows cfg keys sh) :
    InShard cfg sh r ∧ r ≠ [] ∧ ∀ k ∈ cursorKey cfg.type rd.cur, k < r := by
  obtain ⟨hmem, hwhere⟩ := mem_ahead.1 (rows_isPrefix.subset hr)
  have hlength := hs.length r hmem
  obtain ⟨habove, hcovers⟩ := (keysetWhere_iff hs.n hs.leading h.cursor hlength).1 hwhere
  exact ⟨⟨hlength, hcovers⟩, ne_nil_of_length_pos (hlength ▸ hs.n), habove⟩

theorem Ordered.turn (h : rd.Ordered cfg sh) (hrunning : (rd.exhausted || rd.limited) = false) :
    (rd.turn cfg keys sh).Ordered cfg sh := by
  have hrows := fun r hr => h.rows hs (r := r) hr
  have hne : ∀ r ∈ rd.rows cfg keys sh, r ≠ [] := fun r hr => (hrows r hr).2.1
  have hsorted : (rd.rows cfg keys sh).Pairwise (· < ·) :=
    (ahead_sorted hs.distinct).sublist rows_isPrefix.sublist
  -- Every key sent before is at most the cursor, so it is below the rows of this turn.
  have hcross : ∀ r ∈ rd.sent, ∀ r' ∈ rd.rows cfg keys sh, r < r' := by
    intro r hr r' hr'
    obtain ⟨k, hk, hle⟩ := h.behind hrunning r hr
    exact hle.trans_lt ((hrows r' hr').2.2 k hk)
  constructor
  · intro k hk
    rcases turn_cursor hne hk with hk | hk
    · exact h.cursor k hk
    · exact (hrows k hk).1
  · intro r hr
    rcases mem_turn_sent.1 hr with hr | hr
    · exact h.sent r hr
    · exact (hrows r hr).1
  · exact pairwise_append.2 ⟨h.increasing, hsorted, hcross⟩
  · intro hstill r hr
    obtain ⟨last, hlast, hcur⟩ := turn_running hs.pageSize hstill
    have hmem := mem_of_getLast? hlast
    refine ⟨last, hcur ▸ cursorKey_text cfg.type (hne last hmem), ?_⟩
    rcases mem_turn_sent.1 hr with hr | hr
    · exact (hcross r hr last hmem).le
    obtain ⟨front, hfront⟩ := getLast?_eq_some_iff.1 hlast
    rw [hfront] at hr hsorted
    rcases mem_append.1 hr with hr | hr
    · exact ((pairwise_append.1 hsorted).2.2 r hr last (by simp)).le
    · exact (mem_singleton.1 hr).le

omit hs

variable (cfg rd) in
/-- A reader has passed a key once it sent one that is not below it, or found the shard exhausted. -/
def Passed (x : Key α) : Prop :=
  rd.exhausted = true ∨ ∃ r, (r ∈ cursorKey cfg.type rd.cur ∨ r ∈ rd.sent) ∧ x ≤ r

/-- What a reader has passed it has sent, unless it is written already; and what it counts as
flushed is written. -/
structure Delivers (cfg : Config α) (x : Key α) (written : List (Key α)) (sh : Shard)
    (rd : Reader α) : Prop where
  passed : sh.covers cfg x = true → rd.Passed cfg x → x ∈ written ∨ x ∈ rd.sent
  flushed : rd.sent.take rd.flushed ⊆ written
  fits : rd.flushed ≤ rd.sent.length

variable {x last : Key α}

theorem Delivers.mono {written' : List (Key α)} (h : rd.Delivers cfg x written sh)
    (hsub : written ⊆ written') : rd.Delivers cfg x written' sh :=
  ⟨fun hcovers hpassed => (h.passed hcovers hpassed).imp_left (@hsub x),
    Subset.trans h.flushed hsub, h.fits⟩

theorem Delivers.turn (h : rd.Delivers cfg x written sh) (hordered : rd.Ordered cfg sh)
    (hs : Source cfg sh keys) (hx : x ∈ keys) : (rd.turn cfg keys sh).Delivers cfg x written sh := by
  have hne : ∀ r ∈ rd.rows cfg keys sh, r ≠ [] := fun r hr => (hordered.rows hs hr).2.1
  refine ⟨fun hcovers hpassed => ?_, ?_, ?_⟩
  · by_cases hbefore : rd.Passed cfg x
    · exact (h.passed hcovers hbefore).imp_right fun hmem => mem_turn_sent.2 (.inl hmem)
    -- A key that was not passed before is ahead; what is ahead is sent in order.
    · have hnot : ∀ r, (r ∈ cursorKey cfg.type rd.cur ∨ r ∈ rd.sent) → ¬x ≤ r :=
        fun r hr hle => hbefore (.inr ⟨r, hr, hle⟩)
      have hahead : x ∈ rd.ahead cfg keys sh := mem_ahead.2 ⟨hx,
        (keysetWhere_iff hs.n hs.leading hordered.cursor (hs.length x hx)).2
          ⟨fun k hk => lt_of_not_ge (hnot k (.inl hk)), hcovers⟩⟩
      refine .inr (mem_turn_sent.2 (.inr ?_))
      rcases hpassed with hexhausted | ⟨r, hr, hle⟩
      · exact rows_eq_ahead hexhausted ▸ hahead
      have hrow : r ∈ rd.rows cfg keys sh := by
        rcases hr with hr | hr
        · exact (turn_cursor hne hr).resolve_left fun hr => hnot r (.inl hr) hle
        · exact (mem_turn_sent.1 hr).resolve_left fun hr => hnot r (.inr hr) hle
      have hfront : rd.rows cfg keys sh =
          (rd.ahead cfg keys sh).take (rd.rows cfg keys sh).length :=
        prefix_iff_eq_take.1 rows_isPrefix
      rw [hfront] at hrow ⊢
      exact mem_take_of_le (ahead_sorted hs.distinct) hahead hrow hle
  · rw [turn_sent, turn_flushed, take_append_of_le_length h.fits]
    exact h.flushed
  · rw [turn_sent, turn_flushed, length_append]
    exact h.fits.trans (Nat.le_add_right ..)

/-- The keys that a flush writes. -/
def batch (rd : Reader α) (m : ℕ) : List (Key α) := (rd.sent.drop rd.flushed).take m

omit [LinearOrder α] in
theorem take_flushed_add_batch (rd : Reader α) (m : ℕ) :
    rd.sent.take (rd.flushed + (rd.batch m).length) = rd.sent.take rd.flushed ++ rd.batch m := by
  rw [batch, length_take, take_add, length_drop]
  congr 1
  rw [← length_drop, ← take_eq_take_min]

theorem Delivers.flush (h : rd.Delivers cfg x written sh) (m : ℕ) :
    ({ rd with flushed := rd.flushed + (rd.batch m).length } : Reader α).Delivers cfg x
      (written ++ rd.batch m) sh := by
  refine ⟨fun hcovers hpassed => ?_, ?_, ?_⟩
  · exact (h.passed hcovers hpassed).imp_left (mem_append_left _)
  · rw [take_flushed_add_batch]
    exact append_subset.2 ⟨fun r hr => mem_append_left _ (h.flushed hr),
      fun r hr => mem_append_right _ hr⟩
  · have hlength : (rd.batch m).length ≤ rd.sent.length - rd.flushed := by
      rw [batch, length_take, length_drop]
      exact Nat.min_le_right ..
    have hfits := h.fits
    show rd.flushed + (rd.batch m).length ≤ rd.sent.length
    omega

/-- What is at most the last key of a flush is written by it. -/
theorem Delivers.written_of_le (h : rd.Delivers cfg x written sh) (hordered : rd.Ordered cfg sh)
    (hcovers : sh.covers cfg x = true) (hlast : last ∈ rd.batch m) (hle : x ≤ last) :
    x ∈ written ++ rd.batch m := by
  have hsent : last ∈ rd.sent := mem_of_mem_drop (mem_of_mem_take hlast)
  rcases h.passed hcovers (.inr ⟨last, .inr hsent, hle⟩) with hx | hx
  · exact mem_append_left _ hx
  have htake : last ∈ rd.sent.take (rd.flushed + (rd.batch m).length) := by
    rw [take_flushed_add_batch]
    exact mem_append_right _ hlast
  have hfront := mem_take_of_le hordered.increasing hx htake hle
  rw [take_flushed_add_batch] at hfront
  rcases mem_append.1 hfront with hx | hx
  · exact mem_append_left _ (h.flushed hx)
  · exact mem_append_right _ hx

end Reader

/-! ### Runs -/

/-- The bounds of a shard. -/
def Shard.bounds (sh : Shard) : List String × List String := (sh.lo, sh.hi)

/-- What holds in every run: the shards keep the bounds of the plan, the cursors are in their shards,
and the readers are in order. -/
structure Inv (cfg : Config α) (plan : List Shard) (s : State α cfg.n) : Prop where
  layout : s.shards.map Shard.bounds = plan.map Shard.bounds
  cursors : ∀ sh ∈ s.shards, ∀ k ∈ cursorKey cfg.type sh.key, InShard cfg sh k
  readers : ∀ readers, s.readers = some readers →
    List.Forall₂ (Reader.Ordered cfg) s.shards readers

/-- What holds of a key that stays in the table: a cursor is past it only when it is written. -/
structure Kept (cfg : Config α) (x : Key α) (s : State α cfg.n) : Prop where
  table : x ∈ s.table.keys
  snapshot : ∀ t, s.snapshot = some t → x ∈ t.keys
  cursors : ∀ sh ∈ s.shards, sh.covers cfg x = true →
    ∀ k ∈ cursorKey cfg.type sh.key, x ≤ k → x ∈ s.written
  readers : ∀ readers, s.readers = some readers →
    List.Forall₂ (Reader.Delivers cfg x s.written) s.shards readers

theorem State.page_cases (cfg : Config α) (s : State α n) (i : ℕ) :
    s.page cfg i = s ∨ ∃ readers rd sh, s.readers = some readers ∧ readers[i]? = some rd ∧
      s.shards[i]? = some sh ∧ (rd.exhausted || rd.limited) = false ∧
      s.page cfg i = { s with
        readers := some (readers.set i (rd.turn cfg (s.snapshot.getD s.table).keys sh)) } := by
  unfold State.page
  split
  · exact .inl rfl
  · rename_i readers hreaders
    split
    · rename_i rd sh hrd hsh
      split_ifs with hstopped
      · exact .inl rfl
      · exact .inr ⟨readers, rd, sh, hreaders, hrd, hsh, Bool.eq_false_iff.2 hstopped, rfl⟩
    · exact .inl rfl

theorem State.flush_cases (cfg : Config α) (s : State α n) (i m : ℕ) :
    s.flush cfg i m = s ∨ ∃ readers rd sh, s.readers = some readers ∧ readers[i]? = some rd ∧
      s.shards[i]? = some sh ∧
      s.flush cfg i m = { s with
        shards := s.shards.set i { sh with
          key := ((rd.batch m).getLast?.map fun key => key.mapIdx cfg.type.text).getD sh.key }
        readers := some (readers.set i { rd with flushed := rd.flushed + (rd.batch m).length })
        written := s.written ++ rd.batch m } := by
  unfold State.flush
  split
  · exact .inl rfl
  · rename_i readers hreaders
    split
    · rename_i rd sh hrd hsh
      exact .inr ⟨readers, rd, sh, hreaders, hrd, hsh, rfl⟩
    · exact .inl rfl

section Steps

variable {cfg : Config α} {plan : List Shard} {s : State α cfg.n} {x : Key α}

theorem Inv.leading (h : Inv cfg plan s) (hplan : ∀ sh ∈ plan, sh.Leading)
    (hsh : sh ∈ s.shards) : sh.Leading := by
  obtain ⟨sh', hsh', heq⟩ := exists_of_map_eq h.layout hsh
  have hlead := hplan sh' hsh'
  rw [Shard.Leading, (Prod.mk.inj heq).1, (Prod.mk.inj heq).2] at hlead
  exact hlead

theorem flush_cursor {rd : Reader α} (hordered : rd.Ordered cfg sh) (hn : 0 < cfg.n)
    (hk : k ∈ cursorKey cfg.type
      (((rd.batch m).getLast?.map fun key => key.mapIdx cfg.type.text).getD sh.key)) :
    k ∈ cursorKey cfg.type sh.key ∨ k ∈ rd.batch m ∧ InShard cfg sh k := by
  have hin : ∀ r ∈ rd.batch m, InShard cfg sh r :=
    fun r hr => hordered.sent r (mem_of_mem_drop (mem_of_mem_take hr))
  have hne : ∀ r ∈ rd.batch m, r ≠ [] := fun r hr => ne_nil_of_length_pos ((hin r hr).1 ▸ hn)
  exact (cursorKey_getLast hne hk).imp_right fun hk => ⟨hk, hin k hk⟩

variable (hn : 0 < cfg.n) (hpageSize : 0 < cfg.pageSize) (hplan : ∀ sh ∈ plan, sh.Leading)
include hn hpageSize hplan

theorem Inv.source (h : Inv cfg plan s) (hsh : s.shards[i]? = some sh) :
    Reader.Source cfg sh (s.snapshot.getD s.table).keys :=
  ⟨hn, hpageSize, h.leading hplan (mem_of_getElem? hsh), (s.snapshot.getD s.table).length,
    (s.snapshot.getD s.table).distinct⟩

theorem Inv.step (h : Inv cfg plan s) (e : Event α cfg.n) : Inv cfg plan (step cfg s e) := by
  cases e with
  | others table => exact { h with }
  | crash => exact ⟨h.layout, h.cursors, nofun⟩
  | start parallel =>
    simp only [Keyset.step]
    split_ifs
    · refine ⟨h.layout, h.cursors, fun readers hreaders => ?_⟩
      cases hreaders
      refine forall₂_map fun sh hsh => ?_
      exact ⟨h.cursors sh hsh, by simp, .nil, by simp⟩
    · exact h
  | page i =>
    rcases s.page_cases cfg i with heq | ⟨readers, rd, sh, hreaders, hrd, hsh, hrunning, heq⟩ <;>
      rw [Keyset.step, heq]
    · exact h
    · refine ⟨h.layout, h.cursors, fun readers' hreaders' => ?_⟩
      cases hreaders'
      have hordered := (h.readers readers hreaders).of_getElem? hsh hrd
      exact (h.readers readers hreaders).set_right hsh
        (hordered.turn (h.source hn hpageSize hplan hsh) hrunning)
  | flush i m =>
    rcases s.flush_cases cfg i m with heq | ⟨readers, rd, sh, hreaders, hrd, hsh, heq⟩ <;>
      rw [Keyset.step, heq]
    · exact h
    · have hordered := (h.readers readers hreaders).of_getElem? hsh hrd
      refine ⟨(map_set_of_eq hsh (by rfl)).trans h.layout, fun sh' hsh' k hk => ?_,
        fun readers' hreaders' => ?_⟩
      · rcases mem_or_eq_of_mem_set hsh' with hsh' | rfl
        · exact h.cursors sh' hsh' k hk
        · rcases flush_cursor hordered hn hk with hk | ⟨-, hin⟩
          · exact h.cursors sh (mem_of_getElem? hsh) k hk
          · exact hin
      · cases hreaders'
        exact (h.readers readers hreaders).set i { hordered with }

theorem Kept.step (h : Kept cfg x s) (hinv : Inv cfg plan s) (e : Event α cfg.n)
    (hx : ∀ table, e = .others table → x ∈ table.keys) : Kept cfg x (step cfg s e) := by
  cases e with
  | others table => exact { h with table := hx table rfl }
  | crash => exact ⟨h.table, nofun, h.cursors, nofun⟩
  | start parallel =>
    simp only [Keyset.step]
    split_ifs
    · refine ⟨h.table, fun t ht => ?_, h.cursors, fun readers hreaders => ?_⟩
      · cases parallel with
        | false => cases ht
        | true => exact Option.some.inj ht ▸ h.table
      · cases hreaders
        refine forall₂_map fun sh hsh => ?_
        refine ⟨fun hcovers hpassed => ?_, by simp, by simp⟩
        obtain hexhausted | ⟨r, hr | hr, hle⟩ := hpassed
        · cases hexhausted
        · exact .inl (h.cursors sh hsh hcovers r hr hle)
        · cases hr
    · exact h
  | page i =>
    rcases s.page_cases cfg i with heq | ⟨readers, rd, sh, hreaders, hrd, hsh, hrunning, heq⟩ <;>
      rw [Keyset.step, heq]
    · exact h
    · refine { h with readers := fun readers' hreaders' => ?_ }
      cases hreaders'
      have hordered := (hinv.readers readers hreaders).of_getElem? hsh hrd
      have hdelivers := (h.readers readers hreaders).of_getElem? hsh hrd
      have hread : x ∈ (s.snapshot.getD s.table).keys := by
        cases hsnap : s.snapshot with
        | none => exact h.table
        | some t => exact h.snapshot t hsnap
      exact (h.readers readers hreaders).set_right hsh
        (hdelivers.turn hordered (hinv.source hn hpageSize hplan hsh) hread)
  | flush i m =>
    rcases s.flush_cases cfg i m with heq | ⟨readers, rd, sh, hreaders, hrd, hsh, heq⟩ <;>
      rw [Keyset.step, heq]
    · exact h
    · have hordered := (hinv.readers readers hreaders).of_getElem? hsh hrd
      have hdelivers := (h.readers readers hreaders).of_getElem? hsh hrd
      have hgrows : s.written ⊆ s.written ++ rd.batch m := subset_append_left ..
      refine ⟨h.table, h.snapshot, fun sh' hsh' hcovers k hk hle => ?_,
        fun readers' hreaders' => ?_⟩
      · rcases mem_or_eq_of_mem_set hsh' with hsh' | rfl
        · exact hgrows (h.cursors sh' hsh' hcovers k hk hle)
        · rcases flush_cursor hordered hn hk with hk | ⟨hk, -⟩
          · exact hgrows (h.cursors sh (mem_of_getElem? hsh) hcovers k hk hle)
          · exact hdelivers.written_of_le hordered hcovers hk hle
      · cases hreaders'
        have hothers := (h.readers readers hreaders).imp fun sh' rd' hd => hd.mono hgrows
        have hflush := hdelivers.flush m
        exact hothers.set i { hflush with }

end Steps

/-! ### Complete reads -/

theorem covers_of_bounds (cfg : Config α) {shards shards' : List Shard}
    (h : shards.map bounds = shards'.map bounds) (hsh : shards[i]? = some sh) :
    ∃ sh', shards'[i]? = some sh' ∧ ∀ key : Key α, sh'.covers cfg key = sh.covers cfg key := by
  have hmap : (shards'.map bounds)[i]? = some sh.bounds := by
    rw [← h, getElem?_map, hsh]
    rfl
  rw [getElem?_map, Option.map_eq_some_iff] at hmap
  obtain ⟨sh', hsh', hbounds⟩ := hmap
  refine ⟨sh', hsh', fun key => ?_⟩
  rw [covers, covers, (Prod.mk.inj hbounds).1, (Prod.mk.inj hbounds).2]

section Runs

variable {cfg : Config α} {sample : Sampled α} {s : State α cfg.n}

section

variable (h : Inv cfg (planKeyset cfg.type sample) s) (hn : 0 < cfg.n)
include h hn

/-- The shards of a run partition the keys, as those of the plan do. -/
theorem Inv.unique (hkey : key.length = cfg.n) :
    ∃! i : ℕ, ∃ sh : Shard, s.shards[i]? = some sh ∧ sh.covers cfg key = true := by
  obtain ⟨i, ⟨sh, hsh, hcovers⟩, hunique⟩ := planKeyset_unique hn sample key hkey
  obtain ⟨sh', hsh', heq⟩ := covers_of_bounds cfg h.layout.symm hsh
  refine ⟨i, ⟨sh', hsh', (heq key).trans hcovers⟩, ?_⟩
  rintro j ⟨shj, hshj, hcoversj⟩
  obtain ⟨shj', hshj', heqj⟩ := covers_of_bounds cfg h.layout hshj
  exact hunique j ⟨shj', hshj', (heqj key).trans hcoversj⟩

/-- No key is sent twice by the readers of an attempt. -/
theorem Inv.nodup {readers : List (Reader α)} (hreaders : s.readers = some readers) :
    (readers.flatMap Reader.sent).Nodup := by
  refine nodup_flatMap.2 ⟨fun rd hrd => ?_, ?_⟩
  · obtain ⟨sh, -, hordered⟩ := (h.readers readers hreaders).exists_of_mem_right hrd
    exact hordered.increasing.imp fun hlt => hlt.ne
  · rw [pairwise_iff_getElem]
    intro i j hi hj hij key hkeyi hkeyj
    obtain ⟨shi, hshi, hordi⟩ := (h.readers readers hreaders).getElem?_right
      (getElem?_eq_getElem hi)
    obtain ⟨shj, hshj, hordj⟩ := (h.readers readers hreaders).getElem?_right
      (getElem?_eq_getElem hj)
    obtain ⟨hlength, hcoversi⟩ := hordi.sent key hkeyi
    obtain ⟨-, hcoversj⟩ := hordj.sent key hkeyj
    exact hij.ne ((h.unique hn hlength).unique ⟨shi, hshi, hcoversi⟩ ⟨shj, hshj, hcoversj⟩)

end

/-- A complete read has written every key that stayed. -/
theorem Kept.written (h : Kept cfg x s) (hinv : Inv cfg (planKeyset cfg.type sample) s)
    (hn : 0 < cfg.n) (hcomplete : s.complete = true) : x ∈ s.written := by
  cases hreaders : s.readers with
  | none => simp [State.complete, hreaders] at hcomplete
  | some readers =>
    simp only [State.complete, hreaders, Option.any_some, all_eq_true, Bool.and_eq_true,
      decide_eq_true_iff] at hcomplete
    obtain ⟨i, ⟨sh, hsh, hcovers⟩, -⟩ := hinv.unique hn (s.table.length x h.table)
    obtain ⟨rd, hrd, hdelivers⟩ := (h.readers readers hreaders).getElem?_left hsh
    obtain ⟨hexhausted, hall⟩ := hcomplete rd (mem_of_getElem? hrd)
    rcases hdelivers.passed hcovers (.inl hexhausted) with hx | hx
    · exact hx
    · have hflushed := hdelivers.flushed
      rw [hall, take_length] at hflushed
      exact hflushed hx

end Runs

/-! ### A shard is exhausted -/

namespace Reader

variable {cfg : Config α} {keys : List (Key α)} {sh : Shard} {rd : Reader α}
  (hs : Source cfg sh keys)
include hs

theorem ahead_turn_lt (h : rd.Ordered cfg sh) (hrunning : (rd.exhausted || rd.limited) = false)
    (hstill : ((rd.turn cfg keys sh).exhausted || (rd.turn cfg keys sh).limited) = false) :
    ((rd.turn cfg keys sh).ahead cfg keys sh).length < (rd.ahead cfg keys sh).length := by
  have hturn := h.turn hs hrunning
  obtain ⟨last, hlast, hcur⟩ := turn_running hs.pageSize hstill
  have hrow := mem_of_getLast? hlast
  obtain ⟨-, hne, habove⟩ := h.rows hs hrow
  have hcursor : cursorKey cfg.type (rd.turn cfg keys sh).cur = some last := by
    rw [hcur, cursorKey_text _ hne]
  have hiff : ∀ key ∈ (rd.turn cfg keys sh).ahead cfg keys sh,
      key ∈ rd.ahead cfg keys sh ∧ last < key := by
    intro key hkey
    obtain ⟨hmem, hwhere⟩ := mem_ahead.1 hkey
    have hlength := hs.length key hmem
    obtain ⟨hlt, hcovers⟩ := (keysetWhere_iff hs.n hs.leading hturn.cursor hlength).1 hwhere
    have hgt : last < key := hlt last hcursor
    exact ⟨mem_ahead.2 ⟨hmem, (keysetWhere_iff hs.n hs.leading h.cursor hlength).2
      ⟨fun k hk => (habove k hk).trans hgt, hcovers⟩⟩, hgt⟩
  -- The last row was ahead and no longer is.
  have hcons : (last :: (rd.turn cfg keys sh).ahead cfg keys sh).Nodup :=
    nodup_cons.2 ⟨fun hmem => (hiff last hmem).2.false,
      (ahead_sorted hs.distinct).imp fun hlt => hlt.ne⟩
  have hsub : last :: (rd.turn cfg keys sh).ahead cfg keys sh ⊆ rd.ahead cfg keys sh :=
    cons_subset.2 ⟨rows_isPrefix.subset hrow, fun key hkey => (hiff key hkey).1⟩
  exact (subperm_of_subset hcons hsub).length_le

theorem exists_exhausted (h : rd.Ordered cfg sh) (hlimit : cfg.limit = 0)
    (hrunning : (rd.exhausted || rd.limited) = false) :
    ∃ turns, ((Reader.turn cfg keys sh)^[turns] rd).exhausted = true := by
  induction hm : (rd.ahead cfg keys sh).length using Nat.strong_induction_on generalizing rd with
  | _ m ih =>
    have hlimited : (rd.turn cfg keys sh).limited = false := by
      rw [turn_limited, hlimit]
      simp
    cases hexhausted : (rd.turn cfg keys sh).exhausted with
    | true => exact ⟨1, hexhausted⟩
    | false =>
      have hstill : ((rd.turn cfg keys sh).exhausted || (rd.turn cfg keys sh).limited) = false := by
        rw [hexhausted, hlimited]
        rfl
      have hless := ahead_turn_lt hs h hrunning hstill
      obtain ⟨turns, hturns⟩ := ih _ (hm ▸ hless) (h.turn hs hrunning) hstill rfl
      exact ⟨turns + 1, hturns⟩

end Reader

/-- **A keyset read is complete and ordered.**  The ranges of the plan partition the keys; in every
run of attempts and crashes, whatever table others leave, each shard sends its keys in increasing
order, no key is sent twice in an attempt, and a complete read has written every key that stayed in
the table; and a shard is read to its end when the table is left alone and there is no limit. -/
theorem keyset_complete (cfg : Config α) (hn : 0 < cfg.n) (hpageSize : 0 < cfg.pageSize)
    (sample : Sampled α) (table : Table α cfg.n) (events : List (Event α cfg.n)) :
    let plan := planKeyset cfg.type sample
    let s := Trace.run (step cfg) (planned cfg.type sample table) events
    (∀ key : Key α, key.length = cfg.n →
      ∃! i : ℕ, ∃ sh : Shard, plan[i]? = some sh ∧ sh.covers cfg key = true) ∧
    s.shards.map Shard.bounds = plan.map Shard.bounds ∧
    (∀ readers, s.readers = some readers →
      (∀ rd ∈ readers, rd.sent.Pairwise (· < ·)) ∧ (readers.flatMap Reader.sent).Nodup ∧
      (cfg.limit = 0 → ∀ (i : ℕ) rd sh, readers[i]? = some rd → s.shards[i]? = some sh →
        (rd.exhausted || rd.limited) = false → ∀ t : Table α cfg.n,
          ∃ turns, ((Reader.turn cfg t.keys sh)^[turns] rd).exhausted = true)) ∧
    (s.complete = true → ∀ x ∈ table.keys,
      (∀ t, Event.others t ∈ events → x ∈ t.keys) → x ∈ s.written) := by
  intro plan s
  have hplan : ∀ sh ∈ plan, sh.Leading := fun sh hsh => (planKeyset_leading hsh).1
  have hstart : ∀ sh ∈ plan, cursorKey cfg.type sh.key = none := fun sh hsh => by
    rw [(planKeyset_leading hsh).2]
    rfl
  have hinit : Inv cfg plan (planned cfg.type sample table) :=
    ⟨rfl, fun sh hsh k hk => by simp [hstart sh hsh] at hk, nofun⟩
  have hinv : Inv cfg plan s := Trace.inv_run
    (fun (s : State α cfg.n) e (h : Inv cfg plan s) => h.step hn hpageSize hplan e) hinit events
  refine ⟨planKeyset_unique hn sample, hinv.layout, fun readers hreaders => ⟨fun rd hrd => ?_,
    hinv.nodup hn hreaders, fun hlimit i rd sh hrd hsh hrunning t => ?_⟩,
    fun hcomplete x hx hstays => ?_⟩
  · obtain ⟨sh, -, hordered⟩ := (hinv.readers readers hreaders).exists_of_mem_right hrd
    exact hordered.increasing
  · exact Reader.exists_exhausted
      ⟨hn, hpageSize, hinv.leading hplan (mem_of_getElem? hsh), t.length, t.distinct⟩
      ((hinv.readers readers hreaders).of_getElem? hsh hrd) hlimit hrunning
  · have hothers : ∀ e ∈ events, ∀ t, e = Event.others t → x ∈ t.keys :=
      fun e he t heq => hstays t (heq ▸ he)
    have hkept : Inv cfg plan s ∧ Kept cfg x s := Trace.inv_run_of_along
      (fun (s : State α cfg.n) e (h : Inv cfg plan s ∧ Kept cfg x s)
          (hothers : ∀ t, e = .others t → x ∈ t.keys) =>
        ⟨h.1.step hn hpageSize hplan e, h.2.step hn hpageSize hplan h.1 e hothers⟩)
      ⟨hinit, hx, nofun, fun sh hsh _ k hk => by simp [hstart sh hsh] at hk, nofun⟩
      (Trace.along_of_forall hothers _)
    exact hkept.2.written hinv hn hcomplete

/-! A key of two columns, read by two shards in pages of one row.  The first attempt crashes after one
row is written; another session deletes that row and inserts one before the second attempt. -/

private def flags : KeyType Bool where
  text i b := if i = 0 then (if b then "t" else "f") else if b then "1" else "0"
  cast i s := s == if i = 0 then "t" else "1"
  cast_text i b := by by_cases hi : i = 0 <;> cases b <;> simp [hi]
  int := none

private def flagConfig : Config Bool := ⟨flags, .mysql, 2, 1, 0⟩

private def flagSample : Sampled Bool where
  k := 2
  minMax := none
  quantiles := some [true]
  sorted := by rintro qs ⟨⟩; simp

private def flagTable : Table Bool 2 :=
  ⟨[[true, true], [false, true], [false, false]], by decide, by decide⟩

private def flagTableLater : Table Bool 2 :=
  ⟨[[true, false], [true, true], [false, true]], by decide, by decide⟩

private def flagEvents : List (Event Bool 2) :=
  [.start true, .page 0, .page 0, .page 1, .flush 0 1, .crash, .others flagTableLater,
    .start false, .page 1, .page 0, .page 1, .page 0, .page 1, .flush 0 5, .flush 1 5]

/-- The key that stayed is written by the complete read. -/
theorem flags_complete :
    let s := Trace.run (step flagConfig) (planned flags flagSample flagTable) flagEvents
    s.complete = true ∧ [true, true] ∈ s.written := by
  have hcomplete : (Trace.run (step flagConfig) (planned flags flagSample flagTable)
      flagEvents).complete = true := by decide +kernel
  have h := keyset_complete flagConfig (by decide) (by decide) flagSample flagTable flagEvents
  refine ⟨hcomplete, h.2.2.2 hcomplete _ (by decide) fun (t : Table Bool 2) ht => ?_⟩
  have hothers : ∀ e ∈ flagEvents, ∀ t, e = Event.others t → [true, true] ∈ t.keys := by
    simp [flagEvents, flagTableLater]
  exact hothers _ ht t rfl

end Filament.Keyset
