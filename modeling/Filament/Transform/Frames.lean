import Filament.Transform.Calls

/-!
# Frames and compiled expressions

The compiler works with names on a layout, the executor with positions on a frame.  A frame fits a
layout when its columns have the types and the row count the layout says; then the rows of the frame
are rows in which expressions have their meaning, and a compiled expression evaluates to it.

* `Fits`, `rowOf` : a frame under a layout, and its rows;
* `expr_ok` : **a compiled expression evaluates to its values in the rows of the frame**;
* `expr_issues` : an expression that does not compile leaves an issue.
-/

namespace Filament.Transform

open Option List

variable {F : Floats}

/-! ### Frames under a layout -/

variable {fields : List Field} {i : ℕ} {x : Field} {cols : List (Column F)} {c : Column F}
  {f : Frame F}

variable (fields f) in
/-- The columns of a frame have the types of the layout, and its row count. -/
structure Fits : Prop where
  types : f.cols.map Column.type = fields.map fun x => arrowType (typeOf x)
  rows : ∀ c ∈ f.cols, c.cells.length = f.rows

/-- A column in a row. -/
def entryOf (r : ℕ) (x : Field) (c : Column F) : Entry F :=
  ⟨x.name, typeOf x, (c.cells[r]?).getD none⟩

variable (fields cols) in
/-- A row of the columns of a layout. -/
def rowOf (r : ℕ) : Row F :=
  List.zipWith (entryOf r) fields cols

theorem Fits.length_eq (h : Fits fields f) : f.cols.length = fields.length := by
  have := congrArg length h.types
  simpa using this

theorem Fits.type_eq (h : Fits fields f) (hx : fields[i]? = some x) (hc : f.cols[i]? = some c) :
    c.type = arrowType (typeOf x) := by
  have := congrArg (fun l => l[i]?) h.types
  simpa [hx, hc] using this

/-- A name has the position in a row that it has in the layout. -/
theorem index_rowOf (h : cols.length = fields.length) (r : ℕ) (name : String) :
    (rowOf fields cols r).index name = fields.findIdx? fun x => x.name = name := by
  unfold rowOf Row.index
  induction fields generalizing cols with
  | nil => simp
  | cons x fields ih =>
    cases cols with
    | nil => simp at h
    | cons c cols =>
      rw [zipWith_cons_cons, findIdx?_cons, findIdx?_cons, ih (by simpa using h)]
      rfl

theorem getElem?_rowOf {r : ℕ} (hx : fields[i]? = some x) (hc : cols[i]? = some c) :
    (rowOf fields cols r)[i]? = some (entryOf r x c) := by
  rw [rowOf, getElem?_zipWith, hx, hc]

/-! ### Expressions -/

section

variable {K : Kernels F} {point : Point F} {f : Frame F} {layout : Schema}

theorem lit_ok (v : Literal F) :
    ArgOK K point f (rowOf layout.fields f.cols) (.lit v)
      (newLiteralNode v ⟨literalType v, 0, 0⟩, ⟨⟨literalType v, 0, 0⟩, some v⟩) := by
  rw [newLiteralNode_plain]
  refine ⟨fun _ _ => ⟨_, _, rfl⟩, fun d hd => ?_⟩
  cases hd
  exact ⟨shaped_scalar, fun r _ => rfl⟩

theorem col_ok (hfits : Fits layout.fields f) {name : String} (hi : layout.index name = some i)
    (hx : layout.fields[i]? = some x) :
    ArgOK K point f (rowOf layout.fields f.cols) (.col name) (.col i, ⟨typeOf x, none⟩) := by
  refine ⟨nofun, fun d hd => ?_⟩
  simp only [Node.eval] at hd
  split at hd
  · next c hc =>
    cases hd
    refine ⟨⟨hfits.type_eq hx hc, fun _ => ⟨c, rfl⟩, ?_⟩, fun r _ => ?_⟩
    · rintro c' hc'
      cases hc'
      exact hfits.rows c (mem_of_getElem? hc)
    · have hindex : (rowOf layout.fields f.cols r).index name = some i :=
        (index_rowOf hfits.length_eq r name).trans hi
      simp only [meaning, hindex, bind_some, getElem?_rowOf hx hc, map_some]
      rfl
  · cases hd

mutual

variable {regexp : String → Except String ℕ}

/-- **A compiled expression evaluates to its values.** -/
theorem expr_ok (hK : Documented regexp K point) (hfits : Fits layout.fields f) :
    ∀ (e : Expr F) {path : String} {a : Arg F},
    (expr regexp layout path e).value = some a →
      ArgOK K point f (rowOf layout.fields f.cols) e a
  | .lit v, path, a, h => by
    cases h
    exact lit_ok v
  | .col name, path, a, h => by
    rw [expr] at h
    split_ifs at h
    split at h
    · cases h
    · next i hi =>
      split at h
      · cases h
      · next x hx =>
        cases h
        exact col_ok hfits hi hx
  | .call name args, path, a, h => by
    rw [expr] at h
    split at h
    · cases h
    · next fn hfn =>
      dsimp only at h
      split at h
      · cases h
      · next as has => exact call_ok hK hfn (exprs_ok hK hfits args has) h

theorem exprs_ok (hK : Documented regexp K point) (hfits : Fits layout.fields f) :
    ∀ (es : List (Expr F)) {argPath : ℕ → String} {i : ℕ}
    {as : List (Arg F)}, (exprs regexp layout argPath i es).value = some as →
      List.Forall₂ (ArgOK K point f (rowOf layout.fields f.cols)) es as
  | [], argPath, i, as, h => by
    cases h
    exact .nil
  | e :: es, argPath, i, as, h => by
    rw [exprs] at h
    obtain ⟨a, ha, has⟩ := bind_eq_some_iff.1 h
    obtain ⟨as', has', rfl⟩ := map_eq_some_iff.1 has
    exact .cons (expr_ok hK hfits e ha) (exprs_ok hK hfits es has')

end

mutual

/-- An expression that does not compile leaves an issue. -/
theorem expr_issues : ∀ (e : Expr F) {path : String},
    (expr regexp layout path e).value = none → (expr regexp layout path e).issues ≠ []
  | .lit v, path, h => by cases h
  | .col name, path, h => by
    rw [expr] at h ⊢
    split_ifs
    · exact cons_ne_nil _ _
    split
    · exact cons_ne_nil _ _
    · next i hi =>
      split
      · exact cons_ne_nil _ _
      · next x hx => simp_all
  | .call name args, path, h => by
    rw [expr] at h ⊢
    split
    · exact cons_ne_nil _ _
    · next fn hfn =>
      simp only [hfn] at h
      dsimp only
      split
      · next hnone => exact exprs_issues args hnone
      · next as has =>
        simp only [has] at h
        unfold call at h ⊢
        dsimp only at h ⊢
        split at h
        · simp
        · cases h

theorem exprs_issues : ∀ (es : List (Expr F))
    {argPath : ℕ → String} {i : ℕ}, (exprs regexp layout argPath i es).value = none →
      (exprs regexp layout argPath i es).issues ≠ []
  | [], argPath, i, h => by cases h
  | e :: es, argPath, i, h => by
    rw [exprs] at h ⊢
    rw [Ne, append_eq_nil_iff, not_and_or]
    cases hhead : (expr regexp layout (argPath i) e).value with
    | none => exact .inl (expr_issues e hhead)
    | some a =>
      rw [hhead, Option.bind_some, Option.map_eq_none_iff] at h
      exact .inr (exprs_issues es h)

end

end

end Filament.Transform
