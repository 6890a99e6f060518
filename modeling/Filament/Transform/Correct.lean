import Filament.Transform.Frames

/-!
# The compiler is correct

Every step keeps the fit of the frame to the layout, and takes each row of the frame to what the
step means for it.  A step finds its columns by name on the layout before it; the row finds them by
name as it changes, which is the same because the names of one step are distinct.

* `rename_ok`, `drop_ok`, `compute_ok` : one step;
* `steps_ok` : any number of steps;
* `compile_correct` : **a plan applied to a batch gives, in every row, what the steps mean for that
  row**, with the names and types of the plan's output schema.
-/

namespace Filament.Transform

open List Except

variable {F : Floats}

/-! ### Rows under changes of the layout -/

variable {x : Field} {r i : ℕ} {fields : List Field} {cols : List (Column F)} {c : Column F}

theorem rowOf_modify (fields : List Field) (cols : List (Column F)) (r i : ℕ) (name : String) :
    rowOf (fields.modify i fun x => { x with name := name }) cols r =
      (rowOf fields cols r).modify i fun e => { e with name := name } := by
  refine ext_getElem? fun j => ?_
  simp only [rowOf, getElem?_zipWith, getElem?_modify]
  cases hx : fields[j]? with
  | none => simp
  | some x =>
    cases hc : cols[j]? with
    | none => simp
    | some c =>
      by_cases hij : i = j
      · simp [hij, entryOf, typeOf]
      · simp [hij]

theorem rowOf_eraseIdx (fields : List Field) (cols : List (Column F)) (r i : ℕ) :
    rowOf (fields.eraseIdx i) (cols.eraseIdx i) r = (rowOf fields cols r).eraseIdx i := by
  refine ext_getElem? fun j => ?_
  simp only [rowOf, getElem?_zipWith, getElem?_eraseIdx]
  split_ifs <;> rfl

theorem rowOf_set {e : Entry F} (h : (rowOf fields cols r)[i]? = some e) :
    rowOf (fields.set i x) (cols.set i c) r =
      (rowOf fields cols r).modify i fun _ => entryOf r x c := by
  refine ext_getElem? fun j => ?_
  simp only [rowOf, getElem?_zipWith, getElem?_modify, getElem?_set] at h ⊢
  by_cases hij : i = j
  · subst hij
    cases hx : fields[i]? with
    | none => simp [hx] at h
    | some x' =>
      cases hc : cols[i]? with
      | none => simp [hx, hc] at h
      | some c' =>
        have hi := (List.getElem?_eq_some_iff.1 hx).1
        have hi' := (List.getElem?_eq_some_iff.1 hc).1
        simp [hi, hi']
  · simp [hij]

theorem rowOf_append (h : cols.length = fields.length) (r : ℕ) (x : Field) (c : Column F) :
    rowOf (fields ++ [x]) (cols ++ [c]) r = rowOf fields cols r ++ [entryOf r x c] := by
  unfold rowOf
  rw [zipWith_append h.symm]
  rfl

/-! ### Drop -/

variable {f : Frame F}

section

variable {K : Kernels F} {point : Point F}

/-- What a step does to a frame that fits, from a layout to the next. -/
structure Simulates (fields fields' : List Field) (f f' : Frame F) (m : Row F → Option (Row F)) :
    Prop where
  fits : Fits fields' f'
  rows : f'.rows = f.rows
  row : ∀ r < f.rows, m (rowOf fields f.cols r) = some (rowOf fields' f'.cols r)

theorem Simulates.refl (h : Fits fields f) : Simulates fields fields f f some :=
  ⟨h, rfl, fun _ _ => rfl⟩

theorem Simulates.trans {fields₁ fields₂ fields₃ : List Field} {f₁ f₂ f₃ : Frame F}
    {m m' : Row F → Option (Row F)} (h : Simulates fields₁ fields₂ f₁ f₂ m)
    (h' : Simulates fields₂ fields₃ f₂ f₃ m') :
    Simulates fields₁ fields₃ f₁ f₃ fun row => (m row).bind m' := by
  refine ⟨h'.fits, h'.rows.trans h.rows, fun r hr => ?_⟩
  rw [h.row r hr, Option.bind_some, h'.row r (h.rows.symm ▸ hr)]

variable {f' : Frame F}

theorem applyOps_append {os os' : List (Op F)} (h : applyOps K f (os ++ os') = .ok f') :
    ∃ f₁, applyOps K f os = .ok f₁ ∧ applyOps K f₁ os' = .ok f' := by
  induction os generalizing f with
  | nil => exact ⟨f, rfl, h⟩
  | cons o os ih =>
    obtain ⟨f₁, ho, hrest⟩ := bind_eq_ok.1 h
    obtain ⟨f₂, hos, hos'⟩ := ih hrest
    exact ⟨f₂, bind_eq_ok.2 ⟨f₁, ho, hos⟩, hos'⟩

theorem Fits.eraseIdx (h : Fits fields f) (i : ℕ) :
    Fits (fields.eraseIdx i) { f with cols := f.cols.eraseIdx i } := by
  refine ⟨?_, fun c hc => h.rows c (mem_of_mem_eraseIdx hc)⟩
  rw [← eraseIdx_map, ← eraseIdx_map, h.types]

variable {name : String}

theorem dropOne_ok (h : Fits fields f) (hi : (fields.findIdx? fun x => x.name = name) = some i) :
    Simulates fields (fields.eraseIdx i) f { f with cols := f.cols.eraseIdx i }
      fun row => row.drop name := by
  refine ⟨h.eraseIdx i, rfl, fun r _ => ?_⟩
  rw [Row.drop, index_rowOf h.length_eq, hi, Option.map_some, rowOf_eraseIdx]

variable {path target source : String} {layout : Schema}

/-- **A drop removes the named columns of every row.** -/
theorem drop_ok (names : List String) {j : ℕ} (hfits : Fits layout.fields f)
    (hissues : (drop path j layout names : Compiled (Schema × List (Op F))).issues = [])
    (happly : applyOps K f (drop path j layout names).value.2 = .ok f') :
    Simulates layout.fields (drop path j layout names : Compiled (Schema × List (Op F))).value.1.fields
      f f' fun row => names.foldlM (fun row name => row.drop name) row := by
  induction names generalizing j layout f with
  | nil =>
    cases happly
    exact .refl hfits
  | cons name names ih =>
    rw [drop] at hissues happly ⊢
    cases hi : layout.index name with
    | none => simp [hi] at hissues
    | some i =>
      simp only [hi] at hissues happly ⊢
      by_cases hkey : name ∈ layout.primaryKey
      · rw [if_pos hkey] at hissues
        simp at hissues
      · rw [if_neg hkey] at hissues happly ⊢
        obtain ⟨f₁, hf₁, hrest⟩ := bind_eq_ok.1 happly
        cases hf₁
        have hone := dropOne_ok hfits hi
        exact hone.trans (ih hone.fits hissues hrest)

/-! ### Rename -/

theorem NameMap.names_ne {β : Type} (m : NameMap β) :
    m.entries.Pairwise fun a b => a.1 ≠ b.1 := by
  refine m.sorted.imp ?_
  intro a b hlt heq
  rw [heq] at hlt
  exact String.lt_irrefl _ hlt

/-- Renaming one column leaves the positions of the other names. -/
theorem findIdx?_modify (hx : fields[i]? = some x) (hne : x.name ≠ name) (htarget : target ≠ name) :
    ((fields.modify i fun x => { x with name := target }).findIdx? fun x => x.name = name) =
      fields.findIdx? fun x => x.name = name := by
  induction fields generalizing i with
  | nil => simp
  | cons y fields ih =>
    cases i with
    | zero =>
      obtain rfl : y = x := by simpa using hx
      simp [findIdx?_cons, hne, htarget]
    | succ i =>
      rw [modify_succ_cons, findIdx?_cons, findIdx?_cons, ih (by simpa using hx)]

theorem name_of_findIdx? (h : (fields.findIdx? fun x => x.name = name) = some i) :
    ∃ x, fields[i]? = some x ∧ x.name = name := by
  obtain ⟨hi, hname, -⟩ := findIdx?_eq_some_iff_getElem.1 h
  exact ⟨fields[i], getElem?_eq_getElem hi, by simpa using hname⟩

theorem Fits.modify (h : Fits fields f) (i : ℕ) (name : String) :
    Fits (fields.modify i fun x => { x with name := name }) f := by
  refine ⟨h.types.trans ?_, h.rows⟩
  refine ext_getElem? fun j => ?_
  simp only [getElem?_map, getElem?_modify]
  cases fields[j]? with
  | none => rfl
  | some x =>
    by_cases hij : i = j
    · simp [hij, typeOf]
    · simp [hij]

theorem renameOne_ok (h : Fits fields f) (target : String)
    (hi : (fields.findIdx? fun x => x.name = source) = some i) :
    Simulates fields (fields.modify i fun x => { x with name := target }) f f
      fun row => row.rename source target := by
  refine ⟨h.modify i target, rfl, fun r _ => ?_⟩
  rw [Row.rename, index_rowOf h.length_eq, hi, Option.map_some, rowOf_modify]

/-- A rename and the position it resolves to. -/
def Resolves (fields : List Field) (p : String × String) (q : String × ℕ) : Prop :=
  q.1 = p.2 ∧ (fields.findIdx? fun x => x.name = p.1) = some q.2

variable {entries : List (String × String)} {renamed new : List (String × ℕ)} {m : NameMap String}

/-- Renames of distinct columns to names that none of them has, one by one. -/
theorem renameFields_ok (hfits : Fits fields f)
    (hresolves : List.Forall₂ (Resolves fields) entries renamed)
    (hdistinct : entries.Pairwise fun a b => a.1 ≠ b.1)
    (hfresh : ∀ p ∈ entries, ∀ q ∈ entries, q.2 ≠ p.1) :
    Simulates fields (renameFields fields renamed) f f
      fun row => entries.foldlM (fun row p => row.rename p.1 p.2) row := by
  induction entries generalizing fields renamed with
  | nil =>
    cases hresolves
    exact .refl hfits
  | cons p entries ih =>
    cases hresolves with
    | @cons _ q _ renamed hp hrest =>
      obtain ⟨source, target⟩ := p
      obtain ⟨target', i⟩ := q
      obtain ⟨rfl, hi⟩ := hp
      obtain ⟨x, hx, rfl⟩ := name_of_findIdx? hi
      have hone := renameOne_ok hfits target' hi
      have hrest' : Forall₂
          (Resolves (fields.modify i fun x => { x with name := target' })) entries renamed := by
        have hmem := (forall₂_and_left entries renamed).2 ⟨fun p (hp : p ∈ entries) => hp, hrest⟩
        refine hmem.imp fun p' q' ⟨hp', htarget, hindex⟩ => ⟨htarget, ?_⟩
        rw [findIdx?_modify hx ((pairwise_cons.1 hdistinct).1 p' hp')
          (hfresh p' (.tail _ hp') _ (.head _)), hindex]
      exact hone.trans (ih hone.fits hrest' (pairwise_cons.1 hdistinct).2 fun a ha b hb =>
        hfresh a (.tail _ ha) b (.tail _ hb))

variable (layout renamed) in
/-- What a rename that compiled says about an entry. -/
structure Renames (p : String × String) : Prop where
  fresh : layout.index p.2 = none
  key : p.1 ∉ layout.primaryKey
  reserved : isReservedColumn p.2 = false
  unassigned : p.2 ∉ renamed.map Prod.fst

/-- A rename without issues resolves every entry, to distinct names the layout does not have. -/
theorem renameEntries_ok (h : (renameEntries layout path entries renamed).issues = []) :
    ∃ new, (renameEntries layout path entries renamed).value = renamed ++ new ∧
      List.Forall₂ (Resolves layout.fields) entries new ∧
      (∀ p ∈ entries, Renames layout renamed p) ∧ (entries.map Prod.snd).Nodup := by
  induction entries generalizing renamed with
  | nil => exact ⟨[], (append_nil _).symm, .nil, by simp, nodup_nil⟩
  | cons p entries ih =>
    obtain ⟨source, target⟩ := p
    rw [renameEntries] at h ⊢
    cases hi : layout.index source with
    | none => simp [hi] at h
    | some i =>
      simp only [hi] at h ⊢
      by_cases hkey : source ∈ layout.primaryKey
      · simp [hkey] at h
      by_cases hreserved : isReservedColumn target = true
      · simp [hkey, hreserved] at h
      by_cases htaken : (layout.index target).isSome ∨ target ∈ renamed.map Prod.fst
      · rw [if_neg hkey, if_neg hreserved, if_pos htaken] at h
        simp at h
      rw [if_neg hkey, if_neg hreserved, if_neg htaken] at h ⊢
      obtain ⟨new, hvalue, hresolves, hentries, hnodup⟩ := ih h
      have hhead : Renames layout renamed (source, target) := by
        refine ⟨?_, hkey, Bool.eq_false_of_not_eq_true hreserved, fun hmem => htaken (.inr hmem)⟩
        exact Option.not_isSome_iff_eq_none.1 fun hsome => htaken (.inl hsome)
      refine ⟨(target, i) :: new, by simp [hvalue], .cons ⟨rfl, hi⟩ hresolves, ?_, ?_⟩
      · intro p hp
        rcases mem_cons.1 hp with rfl | hp
        · exact hhead
        have hp' := hentries p hp
        refine { hp' with unassigned := fun hmem => hp'.unassigned ?_ }
        rw [map_append]
        exact mem_append_left _ hmem
      · rw [map_cons, nodup_cons]
        refine ⟨fun hmem => ?_, hnodup⟩
        obtain ⟨p, hp, heq⟩ := mem_map.1 hmem
        apply (hentries p hp).unassigned
        rw [map_append, heq]
        exact mem_concat_self

/-- The sources of a rename are columns and its targets are not. -/
theorem source_ne_target (hresolves : List.Forall₂ (Resolves layout.fields) entries new)
    (hfresh : ∀ p ∈ entries, layout.index p.2 = none) :
    ∀ p ∈ entries, ∀ q ∈ entries, q.2 ≠ p.1 := by
  intro p hp q hq heq
  obtain ⟨r, -, hr⟩ := hresolves.exists_of_mem_left hp
  have hnone := hfresh q hq
  rw [heq] at hnone
  cases hnone.symm.trans hr.2

theorem rename_value (h : (renameEntries layout path m.entries []).value = [] ++ new) :
    (rename layout path m).value = { layout with fields := renameFields layout.fields new } := by
  rw [rename, h, nil_append]

/-- **A rename changes the names of the named columns in every row.** -/
theorem rename_ok (hfits : Fits layout.fields f) (hissues : (rename layout path m).issues = []) :
    Simulates layout.fields (rename layout path m).value.fields f f
      fun row => m.entries.foldlM (fun row p => row.rename p.1 p.2) row := by
  obtain ⟨new, hvalue, hresolves, hentries, -⟩ := renameEntries_ok hissues
  rw [rename_value hvalue]
  exact renameFields_ok hfits hresolves m.names_ne (source_ne_target hresolves fun p hp =>
    (hentries p hp).fresh)

/-! ### Columns of a compute -/

variable {out arr : Column F} {mask : Option (Column F)} {e : Expr F}
  {regexp : String → Except String ℕ} {entries : List (String × Expr F)} {p : String × Expr F}
  {cells : List (Value F)} {node : Option (Node F)} {conditional b : Bool} {y : Field} {v : Val F}
  {rows : ℕ}

theorem toArray_ok {t : ArgType F} {d : Datum F} (h : Shaped rows t d) :
    (toArray rows d).type = arrowType t.type ∧ (toArray rows d).cells.length = rows ∧
      ∀ r < rows, ((toArray rows d).cells[r]?).getD none = d.at' r := by
  cases d with
  | array c => exact ⟨h.type, h.length c rfl, fun r _ => rfl⟩
  | scalar type cell =>
    refine ⟨h.type, length_replicate, fun r hr => ?_⟩
    simp [toArray, Datum.at', hr]

/-- The rows where a mask holds; without one, all. -/
def holds (mask : Option (Column F)) (r : ℕ) : Bool :=
  match mask with
  | none => true
  | some m => isTrue ((m.cells[r]?).getD none)

theorem rowAt_eq_ok {v : Value F} : rowAt i cells = .ok v ↔ cells[i]? = some v := by
  unfold rowAt
  split
  · next v' hv => simp [hv]
  · next hnone => simp [hnone]

theorem mapM_indexed {g : ℕ × Value F → Except String (Value F)} {out : List (Value F)}
    (h : (indexed cells).mapM g = .ok out) :
    out.length = cells.length ∧
      ∀ r v, cells[r]? = some v → ∃ u, g (r, v) = .ok u ∧ out[r]? = some u := by
  have hforall := mapM_eq_ok.1 h
  have hlength : (indexed cells).length = cells.length := by simp [indexed]
  refine ⟨hforall.length_eq.symm.trans hlength, fun r v hv => ?_⟩
  have hget : (indexed cells)[r]? = some (r, v) := by
    simp [indexed, hv]
  obtain ⟨u, hu, hg⟩ := hforall.getElem?_left hget
  exact ⟨u, hg, hu⟩

/-- **`IfElse` picks each row from one of the branches.** -/
theorem ifElse_ok {mask then' els : Column F} (hmask : mask.cells.length = rows)
    (hthen : then'.cells.length = rows) (h : ifElse mask then' els = .ok out) :
    out.type = then'.type ∧ out.cells.length = rows ∧
      ∀ r < rows, (out.cells[r]?).getD none =
        if holds (some mask) r then (then'.cells[r]?).getD none else (els.cells[r]?).getD none := by
  unfold ifElse at h
  split_ifs at h with htype htext
  all_goals
    obtain ⟨cells, hcells, hout⟩ := bind_eq_ok.1 h
    cases hout
    obtain ⟨hlength, hrows⟩ := mapM_indexed hcells
    refine ⟨rfl, hlength.trans hmask, fun r hr => ?_⟩
    have hr' : r < mask.cells.length := hmask.symm ▸ hr
    obtain ⟨u, hu, hget⟩ := hrows r _ (getElem?_eq_getElem hr')
    have hpick := rowAt_eq_ok.1 hu
    simp only [holds, getElem?_eq_getElem hr', Option.getD_some, hget]
  · split_ifs with hholds <;> simp_all
  · split_ifs with hholds
    · rw [if_pos hholds, getElem?_append_left (hthen.symm ▸ hr)] at hpick
      rw [hpick]
      rfl
    · rw [if_neg hholds, hmask, getElem?_append_right (by omega)] at hpick
      rw [show r = rows + r - then'.cells.length by omega, hpick]
      rfl

/-- The value a column had before a compute, null for a new one. -/
def oldValue (cols : List (Column F)) (idx : Option ℕ) (r : ℕ) : Value F :=
  ((idx.bind fun i => cols[i]?).bind fun c => c.cells[r]?).getD none

/-- An entry keeps the old value in the rows where the condition does not hold. -/
theorem mergeEntry_ok {idx : Option ℕ} (hmask : ∀ m, mask = some m → m.cells.length = f.rows)
    (harr : arr.cells.length = f.rows) (h : mergeEntry f mask idx arr = .ok out) :
    out.type = arr.type ∧ out.cells.length = f.rows ∧
      ∀ r < f.rows, (out.cells[r]?).getD none =
        if holds mask r then (arr.cells[r]?).getD none else oldValue f.cols idx r := by
  cases mask with
  | none =>
    cases h
    exact ⟨rfl, harr, fun r _ => rfl⟩
  | some m =>
    cases idx with
    | none =>
      obtain ⟨htype, hlength, hrows⟩ := ifElse_ok (hmask m rfl) harr h
      refine ⟨htype, hlength, fun r hr => (hrows r hr).trans ?_⟩
      simp [oldValue, hr]
    | some i =>
      simp only [mergeEntry] at h
      split at h
      · next old hold =>
        obtain ⟨htype, hlength, hrows⟩ := ifElse_ok (hmask m rfl) harr h
        refine ⟨htype, hlength, fun r hr => (hrows r hr).trans ?_⟩
        simp [oldValue, hold]
      · cases h

variable (regexp) in
/-- What a compiled entry of a compute is. -/
structure Computes (layout : Schema) (p : String × Expr F) (ch : Change F) : Prop where
  name : ch.field.name = p.1
  idx : ch.entry.idx = layout.index p.1
  expr : ∃ path t, (expr regexp layout path p.2).value = some (ch.entry.expr, t) ∧
    typeOf ch.field = t.type
  key : p.1 ∉ layout.primaryKey
  reserved : isReservedColumn p.1 = false

theorem computeEntry_ok (h : (computeEntry regexp layout path conditional name e).issues = []) :
    ∃ ch, (computeEntry regexp layout path conditional name e).value = some ch ∧
      Computes regexp layout (name, e) ch := by
  unfold computeEntry at h ⊢
  by_cases hreserved : isReservedColumn name = true
  · simp [hreserved] at h
  by_cases hkey : name ∈ layout.primaryKey
  · simp [hreserved, hkey] at h
  rw [if_neg hreserved, if_neg hkey] at h ⊢
  have hreserved' := Bool.eq_false_of_not_eq_true hreserved
  cases hexpr : (Transform.expr regexp layout (path ++ ".compute[" ++ name.quote ++ "]") e).value with
  | none =>
    simp only [hexpr] at h
    exact absurd h (expr_issues e hexpr)
  | some a =>
    obtain ⟨node, t⟩ := a
    simp only [hexpr] at h ⊢
    cases hidx : layout.index name with
    | none =>
      exact ⟨_, rfl, rfl, hidx.symm, ⟨_, t, hexpr, rfl⟩, hkey, hreserved'⟩
    | some i =>
      simp only [hidx] at h ⊢
      cases hold : layout.fields[i]?.map typeOf with
      | none =>
        exact ⟨_, rfl, rfl, hidx.symm, ⟨_, t, hexpr, rfl⟩, hkey, hreserved'⟩
      | some old =>
        simp only [hold] at h ⊢
        by_cases hcond : conditional = true ∧ old ≠ t.type
        · rw [if_pos hcond] at h
          simp at h
        · rw [if_neg hcond]
          exact ⟨_, rfl, rfl, hidx.symm, ⟨_, t, hexpr, rfl⟩, hkey, hreserved'⟩

theorem computeEntries_ok (h : (computeEntries regexp layout path conditional entries).issues = []) :
    List.Forall₂ (Computes regexp layout) entries
      (computeEntries regexp layout path conditional entries).value := by
  induction entries with
  | nil => exact .nil
  | cons p entries ih =>
    rw [computeEntries] at h ⊢
    obtain ⟨hhead, htail⟩ := append_eq_nil_iff.1 h
    obtain ⟨ch, hch, hcomputes⟩ := computeEntry_ok hhead
    rw [hch]
    exact .cons hcomputes (ih htail)

/-- A new column of a compute: its type, its length, and its values. -/
structure Computed (point : Point F) (f : Frame F) (row : ℕ → Row F) (mask : Option (Column F))
    (p : String × Expr F) (ch : Change F) (out : Option ℕ × Column F) : Prop where
  idx : out.1 = ch.entry.idx
  type : out.2.type = arrowType (typeOf ch.field)
  length : out.2.cells.length = f.rows
  value : ∀ r < f.rows, ∃ v, meaning point (row r) p.2 = some v ∧ v.type = typeOf ch.field ∧
    (out.2.cells[r]?).getD none =
      if holds mask r then v.value else oldValue f.cols ch.entry.idx r

theorem computed_ok (hK : Documented regexp K point) (hfits : Fits layout.fields f)
    (hmask : ∀ m, mask = some m → m.cells.length = f.rows) {ch : Change F}
    (hcomputes : Computes regexp layout p ch) (harr : evalArray K ch.entry.expr f = .ok arr)
    (hout : mergeEntry f mask ch.entry.idx arr = .ok out) :
    Computed point f (rowOf layout.fields f.cols) mask p ch (ch.entry.idx, out) := by
  obtain ⟨path, t, hexpr, htype⟩ := hcomputes.expr
  obtain ⟨d, hd, rfl⟩ := map_eq_ok.1 harr
  obtain ⟨hshaped, hmeaning⟩ := (expr_ok hK hfits p.2 hexpr).eval d hd
  obtain ⟨htoType, htoLength, htoValue⟩ := toArray_ok hshaped
  obtain ⟨hmtype, hmlength, hmvalue⟩ := mergeEntry_ok hmask htoLength hout
  refine ⟨rfl, ?_, hmlength, fun r hr => ⟨_, hmeaning r hr, htype.symm, ?_⟩⟩
  · rw [hmtype, htoType, htype]
  · rw [hmvalue r hr, htoValue r hr]
    rfl

/-! ### Assigning the columns of a compute -/

theorem findIdx?_set_of_name (hx : fields[i]? = some x) (hy : y.name = x.name) (name : String) :
    ((fields.set i y).findIdx? fun z => z.name = name) =
      fields.findIdx? fun z => z.name = name := by
  have hnames : ∀ l : List Field, (l.findIdx? fun z => z.name = name) =
      (l.map Field.name).findIdx? fun n => n = name := by
    intro l
    rw [findIdx?_map]
    rfl
  rw [hnames, hnames, map_set_of_eq hx hy]

theorem findIdx?_append_of_ne (hy : y.name ≠ name) :
    ((fields ++ [y]).findIdx? fun z => z.name = name) = fields.findIdx? fun z => z.name = name := by
  simp [hy]

/-- The positions of the entries that are still to be assigned are those before the step, and so are
their columns. -/
structure Pending (layout : Schema) (f : Frame F) (entries : List (String × Expr F))
    (fields : List Field) (cols : List (Column F)) : Prop where
  fits : Fits fields ⟨f.rows, cols⟩
  distinct : entries.Pairwise fun a b => a.1 ≠ b.1
  index : ∀ p ∈ entries, (fields.findIdx? fun x => x.name = p.1) = layout.index p.1
  cols : ∀ p ∈ entries, ∀ i, layout.index p.1 = some i → cols[i]? = f.cols[i]?

theorem Pending.set (h : Pending layout f (p :: entries) fields cols)
    (hi : layout.index p.1 = some i) (hname : x.name = p.1)
    (htype : c.type = arrowType (typeOf x)) (hlength : c.cells.length = f.rows) :
    Pending layout f entries (fields.set i x) (cols.set i c) := by
  obtain ⟨hne, hdistinct⟩ := pairwise_cons.1 h.distinct
  have hfind := (h.index p (.head _)).trans hi
  obtain ⟨y, hy, hyname⟩ := name_of_findIdx? hfind
  refine ⟨⟨?_, forall_mem_set h.fits.rows hlength⟩, hdistinct, fun q hq => ?_, fun q hq j hj => ?_⟩
  · rw [map_set, map_set, h.fits.types, htype]
  · rw [findIdx?_set_of_name hy (hname.trans hyname.symm), h.index q (.tail _ hq)]
  · have hij : i ≠ j := by
      rintro rfl
      obtain ⟨z, hz, hzname⟩ := name_of_findIdx? ((h.index q (.tail _ hq)).trans hj)
      obtain rfl : z = y := Option.mem_unique hz hy
      exact hne q hq (hyname.symm.trans hzname)
    rw [getElem?_set_ne hij]
    exact h.cols q (.tail _ hq) j hj

theorem assign_append (h : Pending layout f (p :: entries) fields cols)
    (hi : layout.index p.1 = none) (hname : x.name = p.1) (htype : v.type = typeOf x)
    (hvalue : (c.cells[r]?).getD none = if b then v.value else oldValue f.cols none r) :
    (rowOf fields cols r).assign b p.1 v = rowOf (fields ++ [x]) (cols ++ [c]) r := by
  rw [rowOf_append h.fits.length_eq, Row.assign, index_rowOf h.fits.length_eq,
    h.index p (.head _), hi]
  simp only [entryOf, hname, htype, hvalue]
  rfl

section

variable (hfits : Fits layout.fields f) (h : Pending layout f (p :: entries) fields cols)
include hfits h

theorem Pending.append (hname : x.name = p.1) (htype : c.type = arrowType (typeOf x))
    (hlength : c.cells.length = f.rows) :
    Pending layout f entries (fields ++ [x]) (cols ++ [c]) := by
  obtain ⟨hne, hdistinct⟩ := pairwise_cons.1 h.distinct
  refine ⟨⟨?_, ?_⟩, hdistinct, fun q hq => ?_, fun q hq i hi => ?_⟩
  · rw [map_append, map_append, h.fits.types, map_singleton, map_singleton, htype]
  · intro c' hc'
    rcases mem_append.1 hc' with hc' | hc'
    · exact h.fits.rows c' hc'
    · rw [mem_singleton.1 hc']
      exact hlength
  · rw [findIdx?_append_of_ne (hname.trans_ne (hne q hq)), h.index q (.tail _ hq)]
  · have hcol := h.cols q (.tail _ hq) i hi
    obtain ⟨y, hy, -⟩ := name_of_findIdx? hi
    have hlt : i < f.cols.length := hfits.length_eq ▸ (List.getElem?_eq_some_iff.1 hy).1
    rw [getElem?_eq_getElem hlt] at hcol
    rw [List.getElem?_append_left (List.getElem?_eq_some_iff.1 hcol).1, hcol,
      getElem?_eq_getElem hlt]

theorem assign_set (hi : layout.index p.1 = some i) (hname : x.name = p.1)
    (htype : v.type = typeOf x)
    (hvalue : (c.cells[r]?).getD none = if b then v.value else oldValue f.cols (some i) r) :
    (rowOf fields cols r).assign b p.1 v = rowOf (fields.set i x) (cols.set i c) r := by
  obtain ⟨y, hy, -⟩ := name_of_findIdx? ((h.index p (.head _)).trans hi)
  obtain ⟨z, hz, -⟩ := name_of_findIdx? hi
  have hlt : i < f.cols.length := hfits.length_eq ▸ (List.getElem?_eq_some_iff.1 hz).1
  have hold := h.cols p (.head _) i hi
  rw [getElem?_eq_getElem hlt] at hold
  have hentry := getElem?_rowOf (r := r) hy hold
  rw [rowOf_set hentry, Row.assign, index_rowOf h.fits.length_eq, h.index p (.head _), hi]
  refine ext_getElem? fun j => ?_
  rw [getElem?_modify, getElem?_modify]
  by_cases hij : i = j
  · subst hij
    simp only [hentry, if_true, entryOf, hname, htype, hvalue, oldValue, Option.bind_some,
      getElem?_eq_getElem hlt]
    rfl
  · simp [hij]

end

theorem condition_issues (h : (condition regexp layout path e).value = none) :
    (condition regexp layout path e).issues ≠ [] := by
  unfold condition at h ⊢
  dsimp only at h ⊢
  split at h
  · next hexpr => exact expr_issues e hexpr
  · split_ifs at h ⊢
    exact append_ne_nil_of_right_ne_nil _ (cons_ne_nil _ _)

theorem computeUnder_computes (hissues : (computeUnder regexp layout path node entries).issues = []) :
    List.Forall₂ (Computes regexp layout) entries
      (computeEntries regexp layout path node.isSome entries).value := by
  refine computeEntries_ok ?_
  unfold computeUnder at hissues
  dsimp only at hissues
  split_ifs at hissues <;> exact hissues

section Fits

variable (hK : Documented regexp K point) (hfits : Fits layout.fields f) {where' : Option (Expr F)}
include hK hfits

/-- **The columns of a compute are assigned to the row as the step says.** -/
theorem assignAll_ok (hmask : ∀ m, mask = some m → m.cells.length = f.rows)
    {changes : List (Change F)}
    (hcomputes : List.Forall₂ (Computes regexp layout) entries changes)
    (h : Pending layout f entries fields cols) {outs : List (Option ℕ × Column F)}
    (houts : evalEntries K f mask (changes.map Change.entry) = .ok outs) :
    Fits (changeFields fields changes) ⟨f.rows, assign cols outs⟩ ∧
      ∀ r < f.rows, ∃ vs,
        entryMeanings point (rowOf layout.fields f.cols r) entries = some vs ∧
        vs.foldl (fun row p => row.assign (holds mask r) p.1 p.2) (rowOf fields cols r) =
          rowOf (changeFields fields changes) (assign cols outs) r := by
  induction hcomputes generalizing fields cols outs with
  | nil =>
    cases houts
    exact ⟨h.fits, fun r _ => ⟨[], rfl, rfl⟩⟩
  | @cons p ch entries changes hp _ ih =>
    simp only [map_cons, evalEntries, bind_eq_ok, pure_eq_ok_iff] at houts
    obtain ⟨arr, harr, out, hout, outs', houts', rfl⟩ := houts
    have hcomputed := computed_ok hK hfits hmask hp harr hout
    -- the first assignment, by whether the column is there
    obtain ⟨fields', cols', hpending, hstep, hassign⟩ : ∃ fields' cols',
        Pending layout f entries fields' cols' ∧
        (∀ r < f.rows, ∀ v, meaning point (rowOf layout.fields f.cols r) p.2 = some v →
          (rowOf fields cols r).assign (holds mask r) p.1 v = rowOf fields' cols' r) ∧
        changeFields fields (ch :: changes) = changeFields fields' changes ∧
        assign cols ((ch.entry.idx, out) :: outs') = assign cols' outs' := by
      have hvalue : ∀ r < f.rows, ∀ v,
          meaning point (rowOf layout.fields f.cols r) p.2 = some v → v.type = typeOf ch.field ∧
            (out.cells[r]?).getD none =
              if holds mask r then v.value else oldValue f.cols ch.entry.idx r := by
        intro r hr v hv
        obtain ⟨v', hv', hfacts⟩ := hcomputed.value r hr
        obtain rfl : v = v' := Option.mem_unique hv hv'
        exact hfacts
      cases hi : layout.index p.1 with
      | none =>
        have hidx : ch.entry.idx = none := hp.idx.trans hi
        refine ⟨fields ++ [ch.field], cols ++ [out],
          h.append hfits hp.name hcomputed.type hcomputed.length, fun r hr v hv => ?_, ?_, ?_⟩
        · obtain ⟨htype, hv'⟩ := hvalue r hr v hv
          exact assign_append h hi hp.name htype (hidx ▸ hv')
        · simp [changeFields, hidx]
        · simp [assign, hidx]
      | some i =>
        have hidx : ch.entry.idx = some i := hp.idx.trans hi
        refine ⟨fields.set i ch.field, cols.set i out,
          h.set hi hp.name hcomputed.type hcomputed.length, fun r hr v hv => ?_, ?_, ?_⟩
        · obtain ⟨htype, hv'⟩ := hvalue r hr v hv
          exact assign_set hfits h hi hp.name htype (hidx ▸ hv')
        · simp [changeFields, hidx]
        · simp [assign, hidx]
    obtain ⟨hfits', hrows⟩ := ih hpending houts'
    rw [hassign.1, hassign.2]
    refine ⟨hfits', fun r hr => ?_⟩
    obtain ⟨v, hv, -⟩ := hcomputed.value r hr
    obtain ⟨vs, hvs, hfold⟩ := hrows r hr
    refine ⟨(p.1, v) :: vs, ?_, ?_⟩
    · obtain ⟨name, e⟩ := p
      rw [entryMeanings, hv, Option.bind_some, hvs]
      rfl
    · rw [foldl_cons, hstep r hr v hv, hfold]

/-- The condition of a compute that compiled holds in a row when it means true there. -/
theorem condition_ok {node : Node F} (h : (condition regexp layout path e).value = some node) {m : Column F}
    (hm : evalArray K node f = .ok m) :
    m.cells.length = f.rows ∧ ∀ r < f.rows,
      whereMeaning point (rowOf layout.fields f.cols r) (some e) = some (holds (some m) r) := by
  unfold condition at h
  dsimp only at h
  split at h
  · cases h
  · next node' t hexpr =>
    split_ifs at h
    cases h
    obtain ⟨d, hd, rfl⟩ := map_eq_ok.1 hm
    obtain ⟨hshaped, hmeaning⟩ := (expr_ok hK hfits e hexpr).eval d hd
    obtain ⟨-, hlength, hvalue⟩ := toArray_ok hshaped
    refine ⟨hlength, fun r hr => ?_⟩
    rw [whereMeaning, hmeaning r hr, Option.map_some, holds, hvalue r hr]
    rfl

theorem computeUnder_ok {entries : NameMap (Expr F)}
    (hissues : (computeUnder regexp layout path node entries.entries).issues = [])
    (happly : applyOps K f (computeUnder regexp layout path node entries.entries).value.2 = .ok f')
    (hmask : ∀ mask, evalMask K f node = .ok mask →
      (∀ m, mask = some m → m.cells.length = f.rows) ∧ ∀ r < f.rows,
        whereMeaning point (rowOf layout.fields f.cols r) where' = some (holds mask r)) :
    Simulates layout.fields
      (computeUnder regexp layout path node entries.entries).value.1.fields f f'
      fun row => Step.meaning point row (.compute entries where') := by
  have hcomputes := computeUnder_computes hissues
  unfold computeUnder at happly ⊢
  by_cases hnil : (computeEntries regexp layout path node.isSome entries.entries).value = []
  · rw [if_pos hnil] at happly ⊢
    cases happly
    have hentries : entries.entries = [] := by
      rw [hnil] at hcomputes
      exact forall₂_nil_right_iff.1 hcomputes
    refine ⟨hfits, rfl, fun r _ => ?_⟩
    simp [Step.meaning, hentries]
  · rw [if_neg hnil] at happly ⊢
    obtain ⟨f₁, hop, hrest⟩ := bind_eq_ok.1 happly
    cases hrest
    simp only [Op.apply, bind_eq_ok, pure_eq_ok_iff] at hop
    obtain ⟨mask, hm, outs, houts, rfl⟩ := hop
    obtain ⟨hlength, hwhere⟩ := hmask mask hm
    have hne : entries.entries.isEmpty = false := by
      cases hentries : entries.entries with
      | nil => simp [hentries, computeEntries] at hnil
      | cons _ _ => rfl
    have hpending : Pending layout f entries.entries layout.fields f.cols :=
      ⟨hfits, entries.names_ne, fun _ _ => rfl, fun _ _ _ _ => rfl⟩
    obtain ⟨hfits', hrows⟩ := assignAll_ok hK hfits hlength hcomputes hpending houts
    refine ⟨hfits', rfl, fun r hr => ?_⟩
    obtain ⟨vs, hvs, hfold⟩ := hrows r hr
    simp only [Step.meaning, hne, hwhere r hr, hvs, Option.bind_some, Option.map_some, hfold]
    rfl

/-- **A compute evaluates its entries on the row before it and assigns them together.** -/
theorem compute_ok {entries : NameMap (Expr F)}
    (hissues : (compute regexp layout path entries where').issues = [])
    (happly : applyOps K f (compute regexp layout path entries where').value.2 = .ok f') :
    Simulates layout.fields (compute regexp layout path entries where').value.1.fields f f'
      fun row => Step.meaning point row (.compute entries where') := by
  cases where' with
  | none =>
    refine computeUnder_ok hK hfits hissues happly fun mask hm => ?_
    cases hm
    exact ⟨nofun, fun r _ => rfl⟩
  | some e =>
    cases hcond : (condition regexp layout path e).value with
    | none =>
      simp only [compute, hcond] at hissues
      exact absurd hissues (condition_issues hcond)
    | some node =>
      simp only [compute, hcond] at hissues happly ⊢
      obtain ⟨-, hrest⟩ := append_eq_nil_iff.1 hissues
      refine computeUnder_ok hK hfits hrest happly fun mask hm => ?_
      obtain ⟨m, hm', rfl⟩ := map_eq_ok.1 hm
      obtain ⟨hlength, hwhere⟩ := condition_ok hK hfits hcond hm'
      refine ⟨fun m' h => ?_, hwhere⟩
      cases h
      exact hlength

/-! ### Steps -/

/-- **One step takes every row to what it means for that row.** -/
theorem step_ok (st : Step F) (hissues : (step regexp layout path st).issues = [])
    (happly : applyOps K f (step regexp layout path st).value.2 = .ok f') :
    Simulates layout.fields (step regexp layout path st).value.1.fields f f'
      fun row => st.meaning point row := by
  cases st with
  | rename m =>
    cases happly
    exact rename_ok hfits hissues
  | drop names => exact drop_ok names hfits hissues happly
  | compute entries where' => exact compute_ok hK hfits hissues happly

/-- **So do any number of steps.** -/
theorem steps_ok {resource : String} (sts : List (Step F))
    (hissues : (steps regexp resource i layout sts).issues = [])
    (happly : applyOps K f (steps regexp resource i layout sts).value.2 = .ok f') :
    Simulates layout.fields (steps regexp resource i layout sts).value.1.fields f f'
      fun row => stepsMeaning point row sts := by
  induction sts generalizing i layout f with
  | nil =>
    cases happly
    exact .refl hfits
  | cons st sts ih =>
    obtain ⟨hhead, htail⟩ := append_eq_nil_iff.1 hissues
    obtain ⟨f₁, hfirst, hrest⟩ := applyOps_append happly
    have hstep := step_ok hK hfits st hhead hfirst
    exact hstep.trans (ih hstep.fits htail hrest)

end Fits

end

/-! ### Plans -/

/-- A record batch is built from a schema: the schema's columns, then any others, all of the batch's
length and of the types the batch says. -/
structure Built (input : Schema) (batch : RecordBatch F) : Prop where
  fields : batch.fields.take input.fields.length = input.fields.map arrowField
  types : batch.cols.map Column.type = batch.fields.map ArrowField.type
  rows : ∀ c ∈ batch.cols, c.cells.length = batch.rows

theorem Built.fits {input : Schema} {batch : RecordBatch F} (h : Built input batch) :
    Fits input.fields ⟨batch.rows, batch.cols.take input.fields.length⟩ := by
  refine ⟨?_, fun c hc => h.rows c (mem_of_mem_take hc)⟩
  rw [map_take, h.types, ← map_take, h.fields, map_map]
  rfl

theorem rowOf_take (fields : List Field) (cols : List (Column F)) (r : ℕ) :
    rowOf fields (cols.take fields.length) r = rowOf fields cols r := by
  rw [rowOf, zipWith_take_length, rowOf]

theorem rowOf_append_left (h : Fits fields f) (rest : List (Column F)) (r : ℕ) :
    rowOf fields (f.cols ++ rest) r = rowOf fields f.cols r := by
  rw [← rowOf_take fields (f.cols ++ rest), ← h.length_eq, take_left]

/-- **The transform compiler is correct**: a plan that compiled, applied to a batch built from its
input schema, gives a batch of as many rows whose columns are those of the plan's output schema, of
their names and types, followed by the columns after the schema's, unchanged; and every row of it is
what the steps mean for that row. -/
theorem compile_correct {regexp : String → Except String ℕ} {K : Kernels F} {point : Point F}
    (hK : Documented regexp K point) {d : Definition F} {input : Schema} {plan : Plan F}
    (hcompile : compile regexp d input = .ok plan) {batch out : RecordBatch F}
    (hbuilt : Built input batch) (happly : plan.apply K batch = .ok out) :
    out.rows = batch.rows ∧
      out.fields =
        plan.output.fields.map arrowField ++ batch.fields.drop input.fields.length ∧
      out.cols.map Column.type = out.fields.map ArrowField.type ∧
      (∀ c ∈ out.cols, c.cells.length = out.rows) ∧
      out.cols.drop plan.output.fields.length = batch.cols.drop input.fields.length ∧
      ∀ r < batch.rows, stepsMeaning point (rowOf input.fields batch.cols r)
        ((d.resources.lookup input.resource).getD []) =
          some (rowOf plan.output.fields out.cols r) := by
  unfold compile analyze at hcompile
  dsimp only at hcompile
  split_ifs at hcompile with hissues
  cases hcompile
  simp only [Plan.apply, bind_eq_ok, pure_eq_ok_iff] at happly
  obtain ⟨⟨⟩, -, f, hops, rfl⟩ := happly
  have hsim := steps_ok hK hbuilt.fits _ hissues (mapError_eq_ok.1 hops)
  refine ⟨rfl, rfl, ?_, fun c hc => ?_, ?_, fun r hr => ?_⟩
  · rw [map_append, map_append, hsim.fits.types, map_drop, hbuilt.types, map_drop, map_map]
    rfl
  · rcases mem_append.1 hc with hc | hc
    · exact (hsim.fits.rows c hc).trans hsim.rows
    · exact hbuilt.rows c (mem_of_mem_drop hc)
  · dsimp only
    rw [← hsim.fits.length_eq, drop_left]
  · have hrow := hsim.row r hr
    rw [rowOf_take] at hrow
    rw [hrow, rowOf_append_left hsim.fits]

/-! ### Kernels that are documented -/

/-- The number of rows of a column. -/
def Datum.length? : Datum F → Option ℕ
  | .array c => some c.cells.length
  | .scalar _ _ => none

theorem Shaped.findSome?_length? {n : ℕ} {ts : List (ArgType F)} {ds : List (Datum F)}
    (h : List.Forall₂ (Shaped n) ts ds) (hcolumn : ∃ a ∈ ts, a.literal = none) :
    ds.findSome? Datum.length? = some n := by
  induction h with
  | nil => simp at hcolumn
  | @cons a d ts ds hd _ ih =>
    cases d with
    | array c => simp [Datum.length?, hd.length c rfl]
    | scalar t cell =>
      obtain ⟨b, hb, hnone⟩ := hcolumn
      rcases mem_cons.1 hb with rfl | hb
      · obtain ⟨c, hc⟩ := hd.column hnone
        cases hc
      · exact ih ⟨b, hb, hnone⟩

/-- The kernels that apply the operations row by row, to values of any type. -/
def Kernels.ofPoint (point : Operation → List (Value F) → Value F) : Kernels F := fun k args =>
  match args.findSome? Datum.length? with
  | none => .error "no column among the arguments"
  | some n =>
    let type := (k.operation.returns.map fun t => arrowType ⟨t, 0, 0⟩).getD
      ((args.head?.map Datum.type).getD .utf8)
    .ok (.array ⟨type, (List.range n).map fun r => point k.operation (args.map (Datum.at' r))⟩)

theorem Kernels.documented_ofPoint (regexp : String → Except String ℕ)
    (point : Operation → List (Value F) → Value F) :
    Documented regexp (Kernels.ofPoint point) fun o vs => point o (vs.map Prod.snd) := by
  refine ⟨fun k ts ret args out n htakes hshaped h => ?_⟩
  obtain ⟨⟨fn, hmem, ho, hcheck⟩, -, hcolumn⟩ := htakes
  have hruns : fn.runs k.operation = true := by simpa [ho] using catalog_runs fn hmem
  obtain ⟨a, hhead, hret, -⟩ := (check_ok hcheck).head hruns
  have htype : args.head?.map Datum.type = some (arrowType a.type) := by
    cases hshaped with
    | nil => cases hhead
    | cons ha _ =>
      cases hhead
      exact congrArg some ha.type
  have hvalues : ∀ r, (zipWith (fun t d => (t.type, d.at' r)) ts args).map Prod.snd =
      args.map (Datum.at' r) := by
    intro r
    clear hcheck hcolumn hhead htype h
    induction hshaped with
    | nil => rfl
    | cons _ _ ih => rw [zipWith_cons_cons, map_cons, map_cons, ih]
  simp only [Kernels.ofPoint, Shaped.findSome?_length? hshaped hcolumn] at h
  cases h
  refine ⟨_, rfl, by simp, ?_, fun r hr => by simp [hr, hvalues]⟩
  rw [htype, hret, Operation.result]
  cases k.operation.returns <;> rfl

/-- Floats of one value. -/
def unitFloats : Floats where
  F32 := Unit
  F64 := Unit
  ofInt32 _ := ()
  ofInt64 _ := ()
  narrow _ := ()
  format _ := ['0']
  spells _ := ⟨'0', by simp, by decide⟩

/-- Upper case and comparison, and null otherwise. -/
def shoutPoint : Operation → List (Value unitFloats) → Value unitFloats
  | .upper, [some (.utf8 s)] => some (.utf8 s.toUpper)
  | .compare .gt, [some (.int64 x), some (.int64 y)] => some (.boolean (y.slt x))
  | _, _ => none

def people : Schema :=
  ⟨"people", [⟨"id", false, .int64, "bigint", 0, 0⟩, ⟨"name", true, .string, "text", 0, 0⟩,
    ⟨"age", true, .int64, "bigint", 0, 0⟩], ["id"]⟩

def shout : Definition unitFloats :=
  ⟨[("people", [.rename ⟨[("name", "full_name")], by simp⟩,
    .compute ⟨[("shout", .call "upper" [.col "full_name"])], by simp⟩
      (some (.call "gt" [.col "age", .lit (.int 18)])),
    .drop ["age"]])]⟩

def peopleBatch : RecordBatch unitFloats :=
  ⟨people.fields.map arrowField ++ [⟨"_op", .utf8, false, none⟩],
    [⟨.int64, [some (.int64 1), some (.int64 2)]⟩,
      ⟨.utf8, [some (.utf8 "ann"), some (.utf8 "bob")]⟩,
      ⟨.int64, [some (.int64 30), none]⟩,
      ⟨.utf8, [some (.utf8 "insert"), some (.utf8 "insert")]⟩], 2⟩

theorem people_built : Built people peopleBatch :=
  ⟨rfl, rfl, by simp [peopleBatch]⟩

theorem adults_shout : ∃ plan out, compile (fun _ => .ok 0) shout people = .ok plan ∧
    plan.apply (Kernels.ofPoint shoutPoint) peopleBatch = .ok out ∧
    out.fields.map ArrowField.name = ["id", "full_name", "shout", "_op"] ∧
    ∀ r < 2, stepsMeaning (fun o vs => shoutPoint o (vs.map Prod.snd)) (rowOf people.fields peopleBatch.cols r)
      ((shout.resources.lookup "people").getD []) = some (rowOf plan.output.fields out.cols r) := by
  have h : ((compile (fun _ => .ok 0) shout people).toOption.bind fun plan =>
    (plan.apply (Kernels.ofPoint shoutPoint) peopleBatch).toOption.map fun out =>
      out.fields.map ArrowField.name) = some ["id", "full_name", "shout", "_op"] := by
    decide +kernel
  cases hplan : compile (fun _ => .ok 0) shout people with
  | error _ => rw [hplan] at h; cases h
  | ok plan =>
    cases hout : plan.apply (Kernels.ofPoint shoutPoint) peopleBatch with
    | error _ => simp [hplan, hout, Except.toOption] at h
    | ok out =>
      simp only [hplan, hout, Except.toOption, Option.bind_some, Option.map_some] at h
      exact ⟨plan, out, rfl, hout, Option.some.inj h, (compile_correct
        (Kernels.documented_ofPoint _ shoutPoint) hplan people_built hout).2.2.2.2.2⟩

end Filament.Transform
