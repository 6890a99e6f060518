import Filament.Transform.Literals

/-!
# Calls are evaluated as they mean

What a successful check of a call says about its arguments, and from it that running the chosen
kernel over the evaluated arguments gives, in every row, the value of the call in that row.

* `sharedType_ok`, `check_ok` : the facts a check establishes;
* `runs_of_catalogByName` : the catalog runs the operations under their names;
* `ArgOK` : a compiled argument evaluates to the values of its expression;
* `coerced_ok` : so does one that was widened, at the type of the columns;
* `call_ok` : **a compiled call evaluates to the values of the call.**
-/

namespace Filament.Transform

open List Bool Except Prod

variable {F : Floats}

/-! ### What a check establishes -/

variable {t ret : ValueType} {spec : FunctionSpec} {fn : Function}
  {regexp : String → Except String ℕ} {args : List (ArgType F)} {α : Type*} {l : List α} {i : ℕ}

theorem mem_indexed {a : α} : (i, a) ∈ indexed l ↔ l[i]? = some a := by
  simp only [indexed, mem_map, Prod.mk.injEq, Prod.exists]
  constructor
  · rintro ⟨b, j, hmem, rfl, rfl⟩
    exact mem_zipIdx_iff_getElem?.mp hmem
  · intro h
    exact ⟨a, i, mem_zipIdx_iff_getElem?.mpr h, rfl, rfl⟩

/-- The values of a call share the type of its first column. -/
theorem sharedType_ok (h : sharedType spec args = .ok t) :
    columnType spec.isValue args = some t ∧ t.logical ≠ .unknown ∧
      ∀ i a, args[i]? = some a → spec.isValue i = true → a.type = t := by
  unfold sharedType at h
  split at h
  · cases h
  · next shared hcolumn =>
    split_ifs at h with hunknown
    split at h
    · cases h
    · next hfind =>
      cases h
      refine ⟨hcolumn, hunknown, fun i a ha hvalue => ?_⟩
      have := find?_eq_none.1 hfind (i, a) (mem_indexed.2 ha)
      simpa [hvalue] using this

theorem forM_ok {g : α → Except CheckError Unit} (h : l.forM g = .ok ()) :
    ∀ a ∈ l, g a = .ok () := by
  induction l with
  | nil => simp
  | cons a l ih =>
    intro b hb
    change (g a >>= fun _ => l.forM g) = .ok () at h
    cases ha : g a with
    | error e =>
      rw [ha] at h
      cases h
    | ok u =>
      rw [ha] at h
      rcases mem_cons.1 hb with rfl | hb
      · exact ha
      · exact ih h b hb

variable (fn args) in
/-- What a successful check says. -/
structure Checked (ret : ValueType) : Prop where
  required : fn.spec.required ≤ args.length
  arg : ∀ i a, args[i]? = some a → checkArg fn.spec i a = .ok ()
  shared : ∃ t, sharedIf fn.spec args = .ok t ∧
    ret = if fn.spec.returnsInput then t else ⟨fn.spec.returns, 0, 0⟩

theorem check_ok (h : fn.check regexp args = .ok ret) : Checked fn args ret := by
  simp only [Function.check, bind_eq_ok, pure_eq_ok_iff, require_eq_ok] at h
  obtain ⟨⟨⟩, harity, ⟨⟩, hargs, t, hshared, ⟨⟩, -, rfl⟩ := h
  exact ⟨harity.1, fun i a ha => forM_ok hargs (i, a) (mem_indexed.2 ha), t, hshared, rfl⟩

theorem literal_none_of_checkArg {a : ArgType F} (h : checkArg spec i a = .ok ())
    (hcolumn : (spec.argSpec i).column = true) : a.literal = none := by
  unfold checkArg at h
  dsimp only at h
  split_ifs at h with hliteral
  simpa [hcolumn] using hliteral

/-! ### The catalog -/

variable {name : String}

theorem textDecimal_eq (t : ValueType) :
    textDecimal t = (t.logical = .decimal && arrowType t = .utf8 : Bool) := by
  by_cases hdecimal : t.logical = .decimal
  · simp only [textDecimal, arrowType, hdecimal]
    split_ifs with hbounded
    · simp [hbounded]
    · simpa [imp_iff_not_or] using hbounded
  · simp [textDecimal, hdecimal]

/-- The function runs the operation: a value comes first, a column unless the values share a type,
and the types are those of the operation. -/
def Function.runs (fn : Function) (o : Operation) : Bool :=
  0 < fn.spec.required && (fn.spec.sameType || (fn.spec.argSpec 0).column) &&
  fn.spec.sameType = o.sameType && 0 < fn.spec.args.length &&
  (List.range (fn.spec.args.length + 1)).all (fun i =>
    (i = 0 || fn.spec.sameType) → fn.spec.isValue i = o.isValue i) &&
  (if fn.spec.returnsInput then fn.spec.sameType && o.returns = none
    else o.returns = some fn.spec.returns) &&
  match fn.exec with
  | .comparison op => o = .compare op
  | .kernel (.compare _) => false
  | .kernel o' => o = o'

theorem catalog_runs :
    ∀ fn ∈ catalog, (operations.lookup fn.spec.name).any fn.runs = true := by decide +kernel

theorem runs_of_catalogByName (h : catalogByName name = some fn) :
    fn ∈ catalog ∧ fn.spec.name = name ∧ ∃ o, operations.lookup name = some o ∧ fn.runs o := by
  have hmem := mem_of_find?_eq_some h
  obtain rfl : fn.spec.name = name := by simpa using find?_some h
  exact ⟨hmem, rfl, (Option.any_eq_true _ _).1 (catalog_runs fn hmem)⟩

variable {o : Operation}

/-- An operation on values of several types returns one type. -/
theorem Operation.result_plain (o : Operation) (h : o.sameType = false) (t u : ValueType) :
    o.result t = o.result u := by
  cases o with
  | concat | add | sub | mul | div | abs | floor | ceil | round | compare _ | and | or
  | coalesce => cases h
  | _ => rfl

section

variable (h : fn.runs o = true)
include h

/-- The kernel a function is bound to runs its operation, for values stored as they are. -/
theorem Function.runs_bind (t : ValueType) :
    (fn.exec.bind t).operation = o ∧ (fn.exec.bind t).suits t = true := by
  simp only [Function.runs, and_eq_true] at h
  obtain ⟨-, hexec⟩ := h
  split at hexec
  · next op hop =>
    obtain rfl := of_decide_eq_true hexec
    simp only [hop, Exec.bind, textDecimal_eq]
    split_ifs with htext
    · exact ⟨rfl, htext⟩
    · exact ⟨rfl, by simp [Kernel.suits, htext]⟩
  · cases hexec
  · next o' hcompare hk =>
    obtain rfl := of_decide_eq_true hexec
    rw [hk]
    cases o with
    | compare op => exact (hcompare op rfl).elim
    | _ => exact ⟨rfl, rfl⟩

theorem Function.runs_sameType : fn.spec.sameType = o.sameType := by
  simp only [Function.runs, and_eq_true, decide_eq_true_eq] at h
  exact h.1.1.1.1.2

/-- The arguments that are values. -/
theorem Function.runs_isValue (hi : i = 0 ∨ fn.spec.sameType = true) :
    fn.spec.isValue i = o.isValue i := by
  simp only [Function.runs, and_eq_true, all_eq_true, mem_range, decide_eq_true_eq, or_eq_true] at h
  obtain ⟨⟨⟨⟨-, hpos⟩, hvalue⟩, -⟩, -⟩ := h
  by_cases hlt : i < fn.spec.args.length + 1
  · exact hvalue i hlt hi
  · -- past the last argument nothing changes on either side
    have hsame := hi.resolve_left (by omega)
    have hspec : fn.spec.isValue i = fn.spec.isValue fn.spec.args.length := by
      have hnone : fn.spec.args[i]? = none := getElem?_eq_none (by omega)
      simp [FunctionSpec.isValue, FunctionSpec.argSpec, hnone]
    have hzero : i ≠ 0 := by omega
    rw [hspec, hvalue _ (by omega) (.inr hsame)]
    cases o <;> simp [Operation.isValue, hpos.ne', hzero]

end

/-- The value of an evaluated argument in a row. -/
def valOf (r : ℕ) (t : ArgType F) (d : Datum F) : Val F := ⟨t.type, t.literal, d.at' r⟩

section

variable {K : Kernels F} {point : Point F} {f : Frame F} {row : ℕ → Row F}

variable (K point f row) in
/-- A compiled argument evaluates to the values of its expression. -/
structure ArgOK (e : Expr F) (a : Arg F) : Prop where
  literal : ∀ v, a.2.literal = some v → ∃ t c, a.1 = .literal t c
  eval : ∀ d, a.1.eval K f = .ok d → Shaped f.rows a.2 d ∧
    ∀ r < f.rows, meaning point (row r) e = some (valOf r a.2 d)

theorem shaped_scalar {rows : ℕ} {v : Literal F} {c : Cell F} :
    Shaped rows ⟨t, some v⟩ (.scalar (arrowType t) c) :=
  ⟨rfl, nofun, nofun⟩

variable {a : Arg F} {d : Datum F}

/-- A widened argument evaluates to the values of its expression at the type of the columns. -/
theorem ArgOK.coerce {e : Expr F} (h : ArgOK K point f row e a) (isValue : Bool)
    (target : ValueType)
    (hsame : isValue = true → (coerceLiteral isValue target a).2.type = target)
    (heval : (coerceLiteral isValue target a).1.eval K f = .ok d) :
    Shaped f.rows (coerceLiteral isValue target a).2 d ∧ ∀ r < f.rows, ∃ v,
      meaning point (row r) e = some v ∧ v.argType = a.2 ∧
        (if isValue then v.widenTo target else v).typed =
          ((coerceLiteral isValue target a).2.type, d.at' r) := by
  obtain ⟨node, type, literal⟩ := a
  cases literal with
  | none =>
    obtain ⟨hshaped, hmeaning⟩ := h.eval d heval
    refine ⟨hshaped, fun r hr => ⟨_, hmeaning r hr, rfl, ?_⟩⟩
    cases isValue <;> rfl
  | some v =>
    obtain ⟨t, c, rfl⟩ := h.literal v rfl
    obtain ⟨hshaped, hmeaning⟩ := h.eval (.scalar t c) rfl
    simp only [coerceLiteral] at hsame heval ⊢
    by_cases hwiden : (isValue && type ≠ target && coercible v target) = true
    · rw [if_pos hwiden] at heval ⊢
      simp only [and_eq_true, decide_eq_true_eq] at hwiden
      obtain ⟨cell, hnode, hcell⟩ := newLiteralNode_widen hwiden.2
      rw [hnode] at heval
      cases heval
      refine ⟨shaped_scalar, fun r hr => ⟨_, hmeaning r hr, rfl, ?_⟩⟩
      rw [if_pos hwiden.1.1]
      simp only [Val.widenTo, valOf, if_neg hwiden.1.2, hcell]
      rfl
    · rw [if_neg hwiden] at hsame heval ⊢
      cases heval
      refine ⟨hshaped, fun r hr => ⟨_, hmeaning r hr, rfl, ?_⟩⟩
      split_ifs with hvalue
      · obtain rfl : type = target := hsame hvalue
        simp [Val.widenTo, Val.typed, valOf]
      · rfl

variable {es : List (Expr F)} {ds : List (Datum F)} {as : List (Arg F)}

/-- The arguments of a call, widened to the type of its columns. -/
theorem coerced_ok (h : List.Forall₂ (ArgOK K point f row) es as) (isValue : ℕ → Bool)
    (target : ValueType)
    (hsame : ∀ i a, (as.mapIdx fun i a => coerceLiteral (isValue i) target a)[i]? = some a →
      isValue i = true → a.2.type = target)
    (heval : evals K f ((as.mapIdx fun i a => coerceLiteral (isValue i) target a).map fst) =
      .ok ds) :
    List.Forall₂ (Shaped f.rows)
        ((as.mapIdx fun i a => coerceLiteral (isValue i) target a).map snd) ds ∧
      ∀ r < f.rows, ∃ vs, meanings point (row r) es = some vs ∧
        vs.map Val.argType = as.map snd ∧
        (vs.mapIdx fun i v => if isValue i then v.widenTo target else v).map Val.typed =
          zipWith (fun t d => (t.type, d.at' r))
            ((as.mapIdx fun i a => coerceLiteral (isValue i) target a).map snd) ds := by
  induction h generalizing isValue ds with
  | nil =>
    cases heval
    exact ⟨.nil, fun r _ => ⟨[], rfl, rfl, rfl⟩⟩
  | @cons e a es as ha _ ih =>
    simp only [mapIdx_cons, map_cons, evals, bind_eq_ok, pure_eq_ok_iff] at heval ⊢
    obtain ⟨d, hd, ds', hds', rfl⟩ := heval
    obtain ⟨hshaped, hvalues⟩ := ha.coerce (isValue 0) target
      (fun hvalue => hsame 0 _ (by simp [mapIdx_cons]) hvalue) hd
    obtain ⟨hrest, hrests⟩ := ih (fun i => isValue (i + 1))
      (fun i b hb hvalue => hsame (i + 1) b (by simpa [mapIdx_cons] using hb) hvalue) hds'
    refine ⟨.cons hshaped hrest, fun r hr => ?_⟩
    obtain ⟨v, hv, hvtype, hvvalue⟩ := hvalues r hr
    obtain ⟨vs, hvs, hvstypes, hvsvalues⟩ := hrests r hr
    refine ⟨v :: vs, by simp [meanings, hv, hvs], by simp [hvtype, hvstypes], ?_⟩
    simp only [mapIdx_cons, map_cons, zipWith_cons_cons, hvvalue, hvsvalues]

theorem columnType_coerced (isValue : ℕ → Bool) (target : ValueType) (as : List (Arg F)) :
    columnType isValue ((as.mapIdx fun i a => coerceLiteral (isValue i) target a).map snd) =
      columnType isValue (as.map snd) := by
  induction as generalizing isValue with
  | nil => rfl
  | cons a as ih =>
    simp only [mapIdx_cons, map_cons, columnType]
    obtain ⟨node, type, literal⟩ := a
    cases literal with
    | none => rw [ih]; rfl
    | some v =>
      have hsome : (coerceLiteral (isValue 0) target (node, ⟨type, some v⟩)).2.literal.isNone =
          false := by
        simp only [coerceLiteral]
        split_ifs <;> rfl
      simp [hsome, ih]

theorem exists_column {isValue : ℕ → Bool} {ts : List (ArgType F)}
    (h : columnType isValue ts = some t) : ∃ a ∈ ts, a.literal = none := by
  induction ts generalizing isValue with
  | nil => cases h
  | cons a ts ih =>
    rw [columnType] at h
    split_ifs at h with ha
    · rw [and_eq_true] at ha
      exact ⟨a, mem_cons_self, by simpa using ha.1⟩
    · obtain ⟨b, hb, hnone⟩ := ih h
      exact ⟨b, mem_cons_of_mem _ hb, hnone⟩

/-- When the check of the widened arguments finds a shared type, they were widened to it. -/
theorem coerceLiterals_of_shared
    (h : sharedType spec ((coerceLiterals spec as).map snd) = .ok t) :
    coerceLiterals spec as = (as.mapIdx fun i a => coerceLiteral (spec.isValue i) t a) ∧
      columnType spec.isValue (as.map snd) = some t := by
  obtain ⟨hcolumn, hunknown, -⟩ := sharedType_ok h
  unfold coerceLiterals at hcolumn ⊢
  split at hcolumn
  · next hnone =>
    rw [hnone] at hcolumn
    cases hcolumn
  · next target htarget =>
    split_ifs at hcolumn with htype
    · rw [htarget] at hcolumn
      exact absurd (Option.some.inj hcolumn ▸ htype) hunknown
    · rw [columnType_coerced, htarget] at hcolumn
      cases hcolumn
      exact ⟨if_neg htype, htarget⟩

theorem mapIdx_coerce_false (target : ValueType) (as : List (Arg F)) :
    (as.mapIdx fun _ a => coerceLiteral false target a) = as := by
  refine ext_getElem? fun i => ?_
  rw [getElem?_mapIdx]
  cases as[i]? with
  | none => rfl
  | some a =>
    obtain ⟨node, type, _ | v⟩ := a <;> rfl

/-- **Running a kernel over evaluated arguments.** -/
theorem kernel_ok (hK : Documented regexp K point) {k : Kernel} {ts : List (ArgType F)}
    (htakes : k.Takes regexp ts ret) (hshaped : List.Forall₂ (Shaped f.rows) ts ds)
    (hd : K k ds = .ok d) :
    Shaped f.rows ⟨ret, none⟩ d ∧ ∀ r < f.rows,
      d.at' r = point k.operation (zipWith (fun t d => (t.type, d.at' r)) ts ds) := by
  obtain ⟨col, rfl, hrows, htype, hpoint⟩ := hK.pointwise k ts ret ds d f.rows htakes hshaped hd
  refine ⟨⟨htype, fun _ => ⟨col, rfl⟩, ?_⟩, fun r hr => by simp [Datum.at', hpoint r hr]⟩
  rintro c hc
  cases hc
  exact hrows

/-- The first value of a checked call; the type of the call is that of the operation on it. -/
theorem Checked.head {ts : List (ArgType F)} (h : Checked fn ts ret) (hruns : fn.runs o = true) :
    ∃ a, ts.head? = some a ∧ ret = o.result a.type ∧
      (fn.spec.sameType = false → a.literal = none) ∧
      ∀ t, sharedType fn.spec ts = .ok t → a.type = t := by
  have hvalue := Function.runs_isValue hruns (.inl rfl : 0 = 0 ∨ _)
  simp only [Function.runs, and_eq_true, or_eq_true, decide_eq_true_eq] at hruns
  obtain ⟨⟨⟨⟨⟨⟨hrequired, hcolumn⟩, -⟩, -⟩, -⟩, hreturns⟩, -⟩ := hruns
  cases ts with
  | nil =>
    have := h.required
    rw [length_nil] at this
    omega
  | cons a ts =>
    have htype : ∀ t, sharedType fn.spec (a :: ts) = .ok t → a.type = t := fun t ht =>
      (sharedType_ok ht).2.2 0 a rfl (hvalue.trans (by cases o <;> rfl))
    refine ⟨a, rfl, ?_, fun hsame => ?_, htype⟩
    · obtain ⟨t, hshared, rfl⟩ := h.shared
      split_ifs at hreturns ⊢ with hinput
      · simp only [and_eq_true, decide_eq_true_eq] at hreturns
        rw [sharedIf, if_pos hreturns.1] at hshared
        simp [Operation.result, hreturns.2, htype t hshared]
      · simp [Operation.result, of_decide_eq_true hreturns]
    · exact literal_none_of_checkArg (h.arg 0 a rfl) (hcolumn.resolve_left (by simp [hsame]))

section

variable (hK : Documented regexp K point) (hfn : catalogByName name = some fn)
include hK hfn

/-- A kernel run on the arguments of a checked call, the values of the call given. -/
theorem checked_ok (ho : operations.lookup name = some o) {ts : List (ArgType F)}
    (hcheck : fn.check regexp ts = .ok ret) (hcolumn : ∃ a ∈ ts, a.literal = none)
    (hshaped : List.Forall₂ (Shaped f.rows) ts ds)
    (hd : K (fn.exec.bind ((ts.head?.map ArgType.type).getD ⟨.unknown, 0, 0⟩)) ds = .ok d) :
    Shaped f.rows ⟨ret, none⟩ d ∧
      ∀ r < f.rows, d.at' r = point o (zipWith (fun t d => (t.type, d.at' r)) ts ds) := by
  obtain ⟨hmem, rfl, o, ho', hruns⟩ := runs_of_catalogByName hfn
  cases ho.symm.trans ho'
  obtain ⟨a, hhead, -⟩ := (check_ok hcheck).head hruns
  rw [hhead, Option.map_some, Option.getD_some] at hd
  obtain ⟨hoperation, hsuits⟩ := Function.runs_bind hruns a.type
  have htakes : (fn.exec.bind a.type).Takes regexp ts ret := by
    refine ⟨⟨fn, hmem, hoperation ▸ ho, hcheck⟩, fun b hb => ?_, hcolumn⟩
    cases hhead.symm.trans hb
    exact hsuits
  exact hoperation ▸ kernel_ok hK htakes hshaped hd

theorem call_same_ok (hsame : fn.spec.sameType = true)
    (has : List.Forall₂ (ArgOK K point f row) es as)
    (hcheck : fn.check regexp ((coerceLiterals fn.spec as).map snd) = .ok ret)
    (hds : evals K f ((coerceLiterals fn.spec as).map fst) = .ok ds)
    (hd : K (fn.exec.bind (((coerceLiterals fn.spec as).head?.map fun a => a.2.type).getD
      ⟨.unknown, 0, 0⟩)) ds = .ok d) :
    Shaped f.rows ⟨ret, none⟩ d ∧
      ∀ r < f.rows, meaning point (row r) (.call name es) = some (valOf r ⟨ret, none⟩ d) := by
  have hchecked := check_ok hcheck
  obtain ⟨t, hshared, -⟩ := hchecked.shared
  rw [sharedIf, if_pos hsame] at hshared
  obtain ⟨hcoerced, hcolumn⟩ := coerceLiterals_of_shared hshared
  obtain ⟨hcolumn', -, htypes⟩ := sharedType_ok hshared
  have hsametype : ∀ i a, (as.mapIdx fun i a => coerceLiteral (fn.spec.isValue i) t a)[i]? =
      some a → fn.spec.isValue i = true → a.2.type = t := by
    intro i a ha hi
    rw [← hcoerced] at ha
    exact htypes i a.2 (by rw [getElem?_map, ha]; rfl) hi
  obtain ⟨hshaped, hvalues⟩ := coerced_ok has fn.spec.isValue t hsametype (hcoerced ▸ hds)
  rw [← hcoerced] at hshaped hvalues
  obtain ⟨-, -, o, ho, hruns⟩ := runs_of_catalogByName hfn
  obtain ⟨hd, hpoint⟩ := checked_ok hK hfn ho hcheck (exists_column hcolumn') hshaped
    (by rwa [head?_map, Option.map_map])
  refine ⟨hd, fun r hr => ?_⟩
  obtain ⟨vs, hvs, hvstypes, hvsvalues⟩ := hvalues r hr
  obtain ⟨a, -, hret, -, htype⟩ := hchecked.head hruns
  have hisValue : fn.spec.isValue = o.isValue :=
    funext fun i => Function.runs_isValue hruns (.inr hsame)
  have hsame' : o.sameType = true := Function.runs_sameType hruns ▸ hsame
  have hmeaning : o.meaning point vs = some (valOf r ⟨ret, none⟩ d) := by
    rw [hisValue] at hcolumn hvsvalues
    simp only [Operation.meaning, if_pos hsame', hvstypes, hcolumn, Option.map_some, hvsvalues,
      valOf, hpoint r hr, hret, htype t hshared]
  simp only [meaning, ho, hvs, Option.bind_some, hmeaning]

theorem call_plain_ok (hsame : fn.spec.sameType = false)
    (has : List.Forall₂ (ArgOK K point f row) es as)
    (hcheck : fn.check regexp (as.map snd) = .ok ret)
    (hds : evals K f (as.map fst) = .ok ds)
    (hd : K (fn.exec.bind ((as.head?.map fun a => a.2.type).getD ⟨.unknown, 0, 0⟩)) ds = .ok d) :
    Shaped f.rows ⟨ret, none⟩ d ∧
      ∀ r < f.rows, meaning point (row r) (.call name es) = some (valOf r ⟨ret, none⟩ d) := by
  -- no argument is widened, so the arguments are those of a call without values
  rw [← mapIdx_coerce_false ⟨.unknown, 0, 0⟩ as] at hds
  obtain ⟨hshaped, hvalues⟩ := coerced_ok has (fun _ => false) ⟨.unknown, 0, 0⟩
    (nofun) hds
  rw [mapIdx_coerce_false] at hshaped hvalues
  obtain ⟨-, -, o, ho, hruns⟩ := runs_of_catalogByName hfn
  obtain ⟨b, hb, hret, hnone, -⟩ := (check_ok hcheck).head hruns
  obtain ⟨hd, hpoint⟩ := checked_ok hK hfn ho hcheck ⟨b, mem_of_mem_head? hb, hnone hsame⟩ hshaped
    (by rwa [head?_map, Option.map_map])
  refine ⟨hd, fun r hr => ?_⟩
  obtain ⟨vs, hvs, -, hvsvalues⟩ := hvalues r hr
  have hplain : (vs.mapIdx fun _ v => if false then v.widenTo ⟨.unknown, 0, 0⟩ else v) = vs :=
    ext_getElem? fun i => by simp
  have hsame' : o.sameType = false := Function.runs_sameType hruns ▸ hsame
  have hmeaning : o.meaning point vs = some (valOf r ⟨ret, none⟩ d) := by
    rw [hplain] at hvsvalues
    rw [Operation.meaning, if_neg (by simp [hsame']), hvsvalues, hret, valOf, hpoint r hr,
      o.result_plain hsame' _ b.type]
  simp only [meaning, ho, hvs, Option.bind_some, hmeaning]

/-- **A compiled call evaluates to the values of the call.** -/
theorem call_ok {path : String} {argPath : ℕ → String}
    (has : List.Forall₂ (ArgOK K point f row) es as)
    (h : (call regexp fn path argPath as).value = some a) :
    ArgOK K point f row (.call name es) a := by
  unfold call at h
  dsimp only at h
  split at h
  · cases h
  · next ret hcheck =>
    cases h
    refine ⟨nofun, fun d hd => ?_⟩
    obtain ⟨ds, hds, hd⟩ := bind_eq_ok.1 hd
    cases hsame : fn.spec.sameType with
    | true =>
      simp only [hsame, if_true] at hcheck hds hd
      exact call_same_ok hK hfn hsame has hcheck hds hd
    | false =>
      simp only [hsame] at hcheck hds hd
      exact call_plain_ok hK hfn hsame has hcheck hds hd

end

end

end Filament.Transform
