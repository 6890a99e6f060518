import Filament.Transform.Correct

/-!
# Transforms and the primary key

The compiler refuses a step that renames, drops or computes a key column, or that gives a column a
reserved name or one that is taken.  What is left are edits of the list of columns: a layout and
anything that is kept column by column beside it go through the same edits, so what the edits keep
holds of the layout, and of the columns of a batch.

* `Edit` : one edit; `Edit.named`, `Edit.reserved`, `Edit.nodup` : what it keeps;
* `Moves` : what the operations of a plan do to a list of columns of any kind;
* `steps_edited` : **the steps edit the layout and the columns together**;
* `key_untouched` : **the key columns and their values come out as they went in**.
-/

namespace Filament.Transform

open List Except

variable {F : Floats} {γ : Type}

/-! ### Edits -/

variable {name : String}

/-- The names of the columns. -/
def namesOf (l : List (Field × γ)) : List String := l.map fun p => p.1.name

/-- The columns of a name. -/
def named (k : String) (l : List (Field × γ)) : List (Field × γ) := l.filter fun p => p.1.name = k

/-- One edit of a list of columns that leaves the keys alone. -/
inductive Edit (key : String → Prop) : List (Field × γ) → List (Field × γ) → Prop
  | erase {l : List (Field × γ)} {i : ℕ} {p : Field × γ} (hp : l[i]? = some p)
    (hkey : ¬key p.1.name) : Edit key l (l.eraseIdx i)
  | rename {l : List (Field × γ)} {i : ℕ} {p q : Field × γ} (hp : l[i]? = some p)
    (hkey : ¬key p.1.name) (hfresh : q.1.name ∉ namesOf l)
    (hreserved : isReservedColumn q.1.name = false) : Edit key l (l.set i q)
  | assign {l : List (Field × γ)} {i : ℕ} {p q : Field × γ} (hp : l[i]? = some p)
    (hkey : ¬key p.1.name) (hname : q.1.name = p.1.name) : Edit key l (l.set i q)
  | append {l : List (Field × γ)} {q : Field × γ} (hfresh : q.1.name ∉ namesOf l)
    (hreserved : isReservedColumn q.1.name = false) : Edit key l (l ++ [q])

section

variable {key : String → Prop} {l l' : List (Field × γ)}

variable {k : String}

theorem mem_namesOf_iff : k ∈ namesOf l ↔ named k l ≠ [] := by
  rw [Ne, named, filter_eq_nil_iff, namesOf, mem_map]
  simp only [decide_eq_true_eq, not_forall, not_not, exists_prop]

/-- An edit leaves the columns of a key that is there. -/
theorem Edit.named (h : Edit key l l') (hk : key k) (hmem : k ∈ namesOf l) :
    Transform.named k l' = Transform.named k l := by
  have hne : ∀ {name}, ¬key name → ¬(decide (name = k)) = true := by
    intro name hname heq
    exact hname (of_decide_eq_true heq ▸ hk)
  have hother : ∀ {name}, name ∉ namesOf l → ¬(decide (name = k)) = true := by
    intro name hname heq
    exact hname (of_decide_eq_true heq ▸ hmem)
  cases h with
  | erase hp hkey => exact filter_eraseIdx_of_not hp (hne hkey)
  | rename hp hkey hfresh _ => exact filter_set_of_not hp (hne hkey) (hother hfresh)
  | assign hp hkey hname =>
    refine filter_set_of_not hp (hne hkey) (hne ?_)
    rwa [hname]
  | append hfresh _ =>
    rw [Transform.named, filter_append, filter_singleton,
      Bool.eq_false_of_not_eq_true (hother hfresh)]
    exact append_nil _

/-- An edit makes no reserved name. -/
theorem Edit.reserved (h : Edit key l l') (hname : name ∈ namesOf l')
    (hreserved : isReservedColumn name = true) : name ∈ namesOf l := by
  obtain ⟨x, hx, rfl⟩ := mem_map.1 hname
  cases h with
  | erase _ _ => exact mem_map_of_mem (mem_of_mem_eraseIdx hx)
  | rename _ _ _ hnot =>
    rcases mem_or_eq_of_mem_set hx with hx | rfl
    · exact mem_map_of_mem hx
    · rw [hreserved] at hnot
      cases hnot
  | assign hp _ heq =>
    rcases mem_or_eq_of_mem_set hx with hx | rfl
    · exact mem_map_of_mem hx
    · rw [heq]
      exact mem_map_of_mem (mem_of_getElem? hp)
  | append _ hnot =>
    rcases mem_append.1 hx with hx | hx
    · exact mem_map_of_mem hx
    · rw [mem_singleton.1 hx, hnot] at hreserved
      cases hreserved

/-- An edit keeps the names distinct. -/
theorem Edit.nodup (h : Edit key l l') (hnodup : (namesOf l).Nodup) : (namesOf l').Nodup := by
  cases h with
  | erase _ _ => exact hnodup.sublist ((eraseIdx_sublist ..).map _)
  | rename _ _ hfresh _ =>
    rw [namesOf, map_set]
    exact Nodup.set hnodup hfresh
  | assign hp _ hname => rwa [namesOf, map_set_of_eq hp hname]
  | append hfresh _ =>
    rw [namesOf, map_append]
    exact Nodup.append hnodup (nodup_singleton _) (disjoint_singleton.2 hfresh)

/-- A number of edits. -/
abbrev Edits (key : String → Prop) : List (Field × γ) → List (Field × γ) → Prop :=
  Relation.ReflTransGen (Edit key)

theorem Edits.named (h : Edits key l l') (hk : key k) (hmem : k ∈ namesOf l) :
    Transform.named k l' = Transform.named k l := by
  induction h with
  | refl => rfl
  | tail _ hedit ih =>
    refine (hedit.named hk ?_).trans ih
    rwa [mem_namesOf_iff, ih, ← mem_namesOf_iff]

theorem Edits.reserved (h : Edits key l l') (hname : name ∈ namesOf l')
    (hreserved : isReservedColumn name = true) : name ∈ namesOf l := by
  induction h with
  | refl => exact hname
  | tail _ hedit ih => exact ih (hedit.reserved hname hreserved)

theorem Edits.nodup (h : Edits key l l') (hnodup : (namesOf l).Nodup) : (namesOf l').Nodup := by
  induction h with
  | refl => exact hnodup
  | tail _ hedit ih => exact hedit.nodup ih

end

/-! ### What the operations of a plan do to columns of any kind -/

variable {cs' cs : List γ} {K : Kernels F}

/-- What an operation does to a list of columns: a drop erases one, and a compute puts a column at
every position it assigns. -/
def Op.Moves (cs cs' : List γ) : Op F → Prop
  | .drop i => cs' = cs.eraseIdx i
  | .compute _ entries =>
    ∃ outs : List (Option ℕ × γ), outs.map Prod.fst = entries.map ComputeEntry.idx ∧
      cs' = assign cs outs

/-- What the operations do in turn. -/
def Moves : List (Op F) → List γ → List γ → Prop
  | [], cs, cs' => cs' = cs
  | o :: os, cs, cs' => ∃ cs₁, o.Moves cs cs₁ ∧ Moves os cs₁ cs'

theorem Moves.append {os os' : List (Op F)} (h : Moves (os ++ os') cs cs') :
    ∃ cs₁, Moves os cs cs₁ ∧ Moves os' cs₁ cs' := by
  induction os generalizing cs with
  | nil => exact ⟨cs, rfl, h⟩
  | cons o os ih =>
    obtain ⟨cs₁, ho, hrest⟩ := h
    obtain ⟨cs₂, hos, hos'⟩ := ih hrest
    exact ⟨cs₂, ⟨cs₁, ho, hos⟩, hos'⟩

/-- There is always something the operations do to a list of units. -/
theorem exists_moves (os : List (Op F)) (cs : List Unit) : ∃ cs', Moves os cs cs' := by
  induction os generalizing cs with
  | nil => exact ⟨cs, rfl⟩
  | cons o os ih =>
    have hone : ∃ cs₁ : List Unit, o.Moves cs cs₁ := by
      cases o with
      | drop i => exact ⟨_, rfl⟩
      | compute where' entries =>
        refine ⟨_, entries.map fun e => (e.idx, ()), ?_, rfl⟩
        rw [map_map]
        rfl
    obtain ⟨cs₁, ho⟩ := hone
    obtain ⟨cs', hos⟩ := ih cs₁
    exact ⟨cs', cs₁, ho, hos⟩

theorem evalEntries_idx {f : Frame F} {mask : Option (Column F)} {entries : List (ComputeEntry F)}
    {outs : List (Option ℕ × Column F)} (h : evalEntries K f mask entries = .ok outs) :
    outs.map Prod.fst = entries.map ComputeEntry.idx := by
  induction entries generalizing outs with
  | nil =>
    cases h
    rfl
  | cons e entries ih =>
    simp only [evalEntries, bind_eq_ok, pure_eq_ok_iff] at h
    obtain ⟨arr, -, out, -, outs', houts', rfl⟩ := h
    rw [map_cons, map_cons, ih houts']

/-- **Applying the operations moves the columns of the frame.** -/
theorem applyOps_moves {os : List (Op F)} {f f' : Frame F} (h : applyOps K f os = .ok f') :
    Moves os f.cols f'.cols := by
  induction os generalizing f with
  | nil =>
    cases h
    rfl
  | cons o os ih =>
    obtain ⟨f₁, ho, hrest⟩ := bind_eq_ok.1 h
    cases o with
    | drop i =>
      cases ho
      exact ⟨_, rfl, ih hrest⟩
    | compute where' entries =>
      simp only [Op.apply, bind_eq_ok, pure_eq_ok_iff] at ho
      obtain ⟨mask, -, outs, houts, rfl⟩ := ho
      exact ⟨_, ⟨outs, evalEntries_idx houts, rfl⟩, ih hrest⟩

/-! ### The steps edit the layout and the columns together -/

variable {layout input : Schema} {fields : List Field} {path resource : String}
  {regexp : String → Except String ℕ} {entries : NameMap (Expr F)} {i j : ℕ}

/-- A layout and its columns after edits that leave the key alone. -/
structure Edited (layout layout' : Schema) (cs cs' : List γ) : Prop where
  key : layout'.primaryKey = layout.primaryKey
  length : cs'.length = layout'.fields.length
  edits : Edits (· ∈ layout.primaryKey) (layout.fields.zip cs) (layout'.fields.zip cs')

theorem Edited.refl (h : cs.length = layout.fields.length) : Edited layout layout cs cs :=
  ⟨rfl, h, .refl⟩

theorem Edited.trans {layout₁ layout₂ layout₃ : Schema} {cs₁ cs₂ cs₃ : List γ}
    (h : Edited layout₁ layout₂ cs₁ cs₂) (h' : Edited layout₂ layout₃ cs₂ cs₃) :
    Edited layout₁ layout₃ cs₁ cs₃ := by
  refine ⟨h'.key.trans h.key, h'.length, h.edits.trans ?_⟩
  have hedits := h'.edits
  rwa [h.key] at hedits

theorem namesOf_zip (h : cs.length = fields.length) :
    namesOf (fields.zip cs) = fields.map Field.name := by
  rw [namesOf, ← map_fst_zip (Nat.le_of_eq h.symm), map_map]
  simp only [Function.comp_def]
  rw [map_fst_zip (Nat.le_of_eq h.symm)]

theorem getElem?_zip_of_findIdx? (h : cs.length = fields.length)
    (hi : (fields.findIdx? fun x => x.name = name) = some i) :
    ∃ p, (fields.zip cs)[i]? = some p ∧ p.1.name = name := by
  obtain ⟨x, hx, hname⟩ := name_of_findIdx? hi
  have hlt : i < cs.length := h ▸ (List.getElem?_eq_some_iff.1 hx).1
  refine ⟨(x, cs[i]), ?_, hname⟩
  rw [getElem?_zip_eq_some]
  exact ⟨hx, getElem?_eq_getElem hlt⟩

theorem not_mem_names_of_findIdx? (h : (fields.findIdx? fun x => x.name = name) = none) :
    name ∉ fields.map Field.name := by
  intro hmem
  obtain ⟨x, hx, hname⟩ := mem_map.1 hmem
  have := findIdx?_eq_none_iff.1 h x hx
  simp [hname] at this

theorem drop_edited (names : List String) (hlen : cs.length = layout.fields.length)
    (hissues : (drop path j layout names : Compiled (Schema × List (Op F))).issues = [])
    (hmoves : Moves (drop path j layout names : Compiled (Schema × List (Op F))).value.2 cs cs') :
    Edited layout (drop path j layout names : Compiled (Schema × List (Op F))).value.1 cs cs' := by
  induction names generalizing j layout cs with
  | nil =>
    obtain rfl := hmoves
    exact .refl hlen
  | cons name names ih =>
    rw [drop] at hissues hmoves ⊢
    cases hi : layout.index name with
    | none => simp [hi] at hissues
    | some i =>
      simp only [hi] at hissues hmoves ⊢
      by_cases hkey : name ∈ layout.primaryKey
      · rw [if_pos hkey] at hissues
        simp at hissues
      rw [if_neg hkey] at hissues hmoves ⊢
      obtain ⟨cs₁, rfl, hrest⟩ := hmoves
      obtain ⟨p, hp, hname⟩ := getElem?_zip_of_findIdx? hlen hi
      have hlen' : (cs.eraseIdx i).length = (layout.fields.eraseIdx i).length := by
        rw [length_eraseIdx, length_eraseIdx, hlen]
      have hone : Edited layout { layout with fields := layout.fields.eraseIdx i } cs
          (cs.eraseIdx i) := by
        refine ⟨rfl, hlen', .single ?_⟩
        rw [zip_eraseIdx]
        exact .erase hp (hname ▸ hkey)
      exact hone.trans (ih hlen' hissues hrest)

/-- Renames of columns that are no keys to distinct names that are new. -/
theorem renameFields_edited {key : String → Prop} {entries : List (String × String)}
    {renamed : List (String × ℕ)} (hlen : cs.length = fields.length)
    (hresolves : List.Forall₂ (Resolves fields) entries renamed)
    (hdistinct : entries.Pairwise fun a b => a.1 ≠ b.1) (htargets : (entries.map Prod.snd).Nodup)
    (hfresh : ∀ p ∈ entries, p.2 ∉ fields.map Field.name) (hkey : ∀ p ∈ entries, ¬key p.1)
    (hreserved : ∀ p ∈ entries, isReservedColumn p.2 = false) :
    cs.length = (renameFields fields renamed).length ∧
      Edits key (fields.zip cs) ((renameFields fields renamed).zip cs) := by
  induction entries generalizing fields renamed with
  | nil =>
    cases hresolves
    exact ⟨hlen, .refl⟩
  | cons p entries ih =>
    cases hresolves with
    | @cons _ q _ renamed hp hrest =>
      obtain ⟨source, target⟩ := p
      obtain ⟨target', i⟩ := q
      obtain ⟨rfl, hi⟩ := hp
      obtain ⟨p, hp, hname⟩ := getElem?_zip_of_findIdx? hlen hi
      obtain ⟨x, hx, hxname⟩ := name_of_findIdx? hi
      obtain ⟨hsource, hdistinct'⟩ := pairwise_cons.1 hdistinct
      obtain ⟨htarget, htargets'⟩ := nodup_cons.1 htargets
      have hnew : target' ∉ fields.map Field.name := hfresh _ (.head _)
      have hset : (fields.modify i fun x => { x with name := target' }) =
          fields.set i { x with name := target' } :=
        modify_eq_set_of_getElem? hx _
      have hlen' : cs.length = (fields.set i { x with name := target' }).length := by
        rw [length_set, hlen]
      have hrest' : Forall₂ (Resolves (fields.set i { x with name := target' })) entries
          renamed := by
        have hmem := (forall₂_and_left entries renamed).2 ⟨fun p (hp : p ∈ entries) => hp, hrest⟩
        refine hmem.imp fun p' q' ⟨hp', htarget, hindex⟩ => ⟨htarget, ?_⟩
        have hne : target' ≠ p'.1 := by
          rintro rfl
          obtain ⟨y, hy, hyname⟩ := name_of_findIdx? hindex
          exact hnew (hyname ▸ mem_map_of_mem (mem_of_getElem? hy))
        rw [← hset, findIdx?_modify hx (hxname.trans_ne (hsource p' hp')) hne, hindex]
      have hfresh' : ∀ p ∈ entries,
          p.2 ∉ (fields.set i { x with name := target' }).map Field.name := by
        intro p hp hmem
        rw [map_set] at hmem
        rcases mem_or_eq_of_mem_set hmem with hmem | heq
        · exact hfresh p (.tail _ hp) hmem
        · exact htarget (mem_map.2 ⟨p, hp, heq⟩)
      obtain ⟨hlength, hedits⟩ := ih hlen' hrest' hdistinct' htargets' hfresh'
        (fun p hp => hkey p (.tail _ hp))
        (fun p hp => hreserved p (.tail _ hp))
      have hedit : Edit key (fields.zip cs) ((fields.set i { x with name := target' }).zip cs) := by
        obtain ⟨hpx, hpc⟩ := getElem?_zip_eq_some.1 hp
        rw [← set_eq_self hpc, zip_set, set_eq_self hpc]
        refine .rename hp (hname ▸ hkey _ (.head _)) ?_ (hreserved _ (.head _))
        rw [namesOf_zip hlen]
        exact hnew
      rw [renameFields, foldl_cons, hset]
      exact ⟨hlength, .head hedit hedits⟩

/-- The columns of a compute, each at the position the layout before the step had for its name. -/
theorem changeFields_edited {entries : List (String × Expr F)} {changes : List (Change F)}
    (hcomputes : List.Forall₂ (Computes regexp layout) entries changes)
    (hdistinct : entries.Pairwise fun a b => a.1 ≠ b.1) (hlen : cs.length = fields.length)
    (hindex : ∀ p ∈ entries, (fields.findIdx? fun x => x.name = p.1) = layout.index p.1)
    {outs : List (Option ℕ × γ)} (houts : outs.map Prod.fst = changes.map fun ch => ch.entry.idx) :
    (assign cs outs).length = (changeFields fields changes).length ∧
      Edits (· ∈ layout.primaryKey) (fields.zip cs)
        ((changeFields fields changes).zip (assign cs outs)) := by
  induction hcomputes generalizing fields cs outs with
  | nil =>
    obtain rfl := map_eq_nil_iff.1 houts
    exact ⟨hlen, .refl⟩
  | @cons p ch entries changes hp _ ih =>
    obtain ⟨out, outs, rfl, hidx, houts'⟩ := map_eq_cons_iff.1 houts
    obtain ⟨hne, hdistinct'⟩ := pairwise_cons.1 hdistinct
    have hfind := hindex p (.head _)
    have hrest : ∀ q ∈ entries, (fields.findIdx? fun x => x.name = q.1) = layout.index q.1 :=
      fun q hq => hindex q (.tail _ hq)
    -- the first assignment, by whether the column is there
    obtain ⟨fields', cs', hlen', hindex', hedit, hfields, hassign⟩ :
        ∃ fields' cs', cs'.length = fields'.length ∧
          (∀ q ∈ entries, (fields'.findIdx? fun x => x.name = q.1) = layout.index q.1) ∧
          Edit (· ∈ layout.primaryKey) (fields.zip cs) (fields'.zip cs') ∧
          changeFields fields (ch :: changes) = changeFields fields' changes ∧
          assign cs (out :: outs) = assign cs' outs := by
      cases hi : layout.index p.1 with
      | none =>
        have hnone := hp.idx.trans hi
        refine ⟨fields ++ [ch.field], cs ++ [out.2], by simp [hlen], fun q hq => ?_, ?_, ?_, ?_⟩
        · rw [findIdx?_append_of_ne (hp.name.trans_ne (hne q hq)), hrest q hq]
        · rw [zip_append hlen.symm]
          refine .append ?_ (hp.name ▸ hp.reserved)
          rw [namesOf_zip hlen]
          exact hp.name ▸ not_mem_names_of_findIdx? (hfind.trans hi)
        · simp [changeFields, hnone]
        · simp [assign, hidx, hnone]
      | some i =>
        have hsome := hp.idx.trans hi
        obtain ⟨x, hx, hxname⟩ := name_of_findIdx? (hfind.trans hi)
        obtain ⟨q, hq, hqname⟩ := getElem?_zip_of_findIdx? hlen (hfind.trans hi)
        refine ⟨fields.set i ch.field, cs.set i out.2, by simp [hlen], fun q hq => ?_, ?_, ?_, ?_⟩
        · rw [findIdx?_set_of_name hx (hp.name.trans hxname.symm), hrest q hq]
        · rw [zip_set]
          exact .assign hq (hqname ▸ hp.key) (hp.name.trans hqname.symm)
        · simp [changeFields, hsome]
        · simp [assign, hidx, hsome]
    obtain ⟨hlength, hedits⟩ := ih hdistinct' hlen' hindex' houts'
    rw [hfields, hassign]
    exact ⟨hlength, .head hedit hedits⟩

section

variable (hlen : cs.length = layout.fields.length)
include hlen

theorem rename_edited {m : NameMap String} (hissues : (rename layout path m).issues = []) :
    Edited layout (rename layout path m).value cs cs := by
  obtain ⟨new, hvalue, hresolves, hentries, htargets⟩ := renameEntries_ok hissues
  rw [rename_value hvalue]
  have hrenamed := renameFields_edited hlen hresolves m.names_ne htargets
    (fun p hp => not_mem_names_of_findIdx? (hentries p hp).fresh)
    (fun p hp => (hentries p hp).key) (fun p hp => (hentries p hp).reserved)
  exact ⟨rfl, hrenamed.1, hrenamed.2⟩

theorem computeUnder_edited {node : Option (Node F)}
    (hissues : (computeUnder regexp layout path node entries.entries).issues = [])
    (hmoves : Moves (computeUnder regexp layout path node entries.entries).value.2 cs cs') :
    Edited layout (computeUnder regexp layout path node entries.entries).value.1 cs cs' := by
  have hcomputes := computeUnder_computes hissues
  unfold computeUnder at hmoves ⊢
  dsimp only at hmoves ⊢
  split_ifs at hmoves ⊢ with hnil
  · obtain rfl := hmoves
    exact .refl hlen
  · obtain ⟨cs₁, ⟨outs, houts, rfl⟩, rfl⟩ := hmoves
    rw [map_map] at houts
    have hchanged := changeFields_edited hcomputes entries.names_ne hlen (fun _ _ => rfl) houts
    exact ⟨rfl, hchanged.1, hchanged.2⟩

theorem compute_edited {where' : Option (Expr F)}
    (hissues : (compute regexp layout path entries where').issues = [])
    (hmoves : Moves (compute regexp layout path entries where').value.2 cs cs') :
    Edited layout (compute regexp layout path entries where').value.1 cs cs' := by
  cases where' with
  | none => exact computeUnder_edited hlen hissues hmoves
  | some e =>
    cases hcond : (condition regexp layout path e).value with
    | none =>
      simp only [compute, hcond] at hissues
      exact absurd hissues (condition_issues hcond)
    | some node =>
      simp only [compute, hcond] at hissues hmoves ⊢
      exact computeUnder_edited hlen (append_eq_nil_iff.1 hissues).2 hmoves

end

theorem step_edited (st : Step F) (hlen : cs.length = layout.fields.length)
    (hissues : (step regexp layout path st).issues = [])
    (hmoves : Moves (step regexp layout path st).value.2 cs cs') :
    Edited layout (step regexp layout path st).value.1 cs cs' := by
  cases st with
  | rename m =>
    obtain rfl := hmoves
    exact rename_edited hlen hissues
  | drop names => exact drop_edited names hlen hissues hmoves
  | compute entries where' => exact compute_edited hlen hissues hmoves

/-- **The steps edit the layout and the columns beside it together, and leave the key alone.** -/
theorem steps_edited (sts : List (Step F)) (hlen : cs.length = layout.fields.length)
    (hissues : (steps regexp resource i layout sts).issues = [])
    (hmoves : Moves (steps regexp resource i layout sts).value.2 cs cs') :
    Edited layout (steps regexp resource i layout sts).value.1 cs cs' := by
  induction sts generalizing i layout cs with
  | nil =>
    obtain rfl := hmoves
    exact .refl hlen
  | cons st sts ih =>
    obtain ⟨hhead, htail⟩ := append_eq_nil_iff.1 hissues
    obtain ⟨cs₁, hfirst, hrest⟩ := hmoves.append
    have hstep := step_edited st hlen hhead hfirst
    exact hstep.trans (ih hstep.length htail hrest)

/-! ### Plans -/

theorem checkInput_length {fields : List ArrowField} {u : Unit}
    (h : checkInput input fields = .ok u) : input.fields.length ≤ fields.length := by
  unfold checkInput at h
  split_ifs at h with hlt
  exact Nat.le_of_not_lt hlt

/-- The column of a name: the first one. -/
def columnNamed (fields : List Field) (cs : List γ) (k : String) : Option γ :=
  ((fields.zip cs).find? fun p => p.1.name = k).map Prod.snd

theorem columnNamed_eq (fields : List Field) (cs : List γ) (k : String) :
    columnNamed fields cs k = (named k (fields.zip cs)).head?.map Prod.snd := by
  rw [columnNamed, named, head?_filter]

/-- The fields of a name do not depend on what is beside them. -/
theorem map_fst_named (h : cs.length = fields.length) (k : String) :
    (named k (fields.zip cs)).map Prod.fst = fields.filter fun x => x.name = k := by
  have hzip : (fields.zip cs).map Prod.fst = fields := map_fst_zip (Nat.le_of_eq h.symm)
  rw [← hzip, filter_map, hzip]
  rfl

theorem zip_take_left (fields : List Field) (cs : List γ) :
    fields.zip (cs.take fields.length) = fields.zip cs :=
  zipWith_take_length ..

/-- **Transforms never touch the primary key**: when every key column occurs once among the fields,
a plan that compiled has the same key, each key column once and as it was, no reserved name that was
not there and, from distinct names, distinct names; and applied to any batch it leaves the key
columns as they are. -/
theorem key_untouched {d : Definition F} {plan : Plan F}
    (hkeys : ∀ k ∈ input.primaryKey, (input.fields.map Field.name).count k = 1)
    (hcompile : compile regexp d input = .ok plan) :
    plan.output.primaryKey = input.primaryKey ∧
      (∀ k ∈ input.primaryKey, ∃ x, (input.fields.filter fun y => y.name = k) = [x] ∧
        (plan.output.fields.filter fun y => y.name = k) = [x]) ∧
      (∀ x ∈ plan.output.fields, isReservedColumn x.name = true →
        x.name ∈ input.fields.map Field.name) ∧
      ((input.fields.map Field.name).Nodup → (plan.output.fields.map Field.name).Nodup) ∧
      ∀ (K : Kernels F) (batch out : RecordBatch F), batch.cols.length = batch.fields.length →
        plan.apply K batch = .ok out →
        out.rows = batch.rows ∧ ∀ k ∈ input.primaryKey, ∃ c,
          columnNamed input.fields batch.cols k = some c ∧
          columnNamed plan.output.fields out.cols k = some c := by
  unfold compile analyze at hcompile
  dsimp only at hcompile
  split_ifs at hcompile with hissues
  cases hcompile
  have hmem : ∀ k ∈ input.primaryKey, k ∈ input.fields.map Field.name := fun k hk =>
    count_pos_iff.1 (by rw [hkeys k hk]; exact Nat.one_pos)
  have hone : ∀ k ∈ input.primaryKey, ∃ x, (input.fields.filter fun y => y.name = k) = [x] := by
    intro k hk
    have hcount := hkeys k hk
    rw [count, countP_map, countP_eq_length_filter] at hcount
    obtain ⟨x, hx⟩ := length_eq_one_iff.1 hcount
    exact ⟨x, Eq.trans (filter_congr fun y _ => (beq_eq_decide y.name k).symm) hx⟩
  -- the layout alone, beside units
  have hunits : (replicate input.fields.length ()).length = input.fields.length :=
    length_replicate
  obtain ⟨units, hmoves⟩ := exists_moves _ (replicate input.fields.length ())
  have hedited := steps_edited _ hunits hissues hmoves
  refine ⟨hedited.key, fun k hk => ?_, fun x hx hreserved => ?_, fun hnodup => ?_, ?_⟩
  · obtain ⟨x, hx⟩ := hone k hk
    refine ⟨x, hx, ?_⟩
    rw [← map_fst_named hedited.length, hedited.edits.named hk (namesOf_zip hunits ▸ hmem k hk),
      map_fst_named hunits, hx]
  · rw [← namesOf_zip hunits]
    refine hedited.edits.reserved ?_ hreserved
    rw [namesOf_zip hedited.length]
    exact mem_map_of_mem hx
  · rw [← namesOf_zip hunits] at hnodup
    rw [← namesOf_zip hedited.length]
    exact hedited.edits.nodup hnodup
  · intro K batch out hcols happly
    simp only [Plan.apply, bind_eq_ok, pure_eq_ok_iff] at happly
    obtain ⟨⟨⟩, hcheck, f, hops, rfl⟩ := happly
    refine ⟨rfl, fun k hk => ?_⟩
    have hlen : (batch.cols.take input.fields.length).length = input.fields.length := by
      rw [length_take, hcols]
      exact Nat.min_eq_left (checkInput_length hcheck)
    have hframe := steps_edited _ hlen hissues (applyOps_moves (mapError_eq_ok.1 hops))
    have hnamed := hframe.edits.named hk (namesOf_zip hlen ▸ hmem k hk)
    obtain ⟨x, hx⟩ := hone k hk
    rw [← map_fst_named hlen] at hx
    obtain ⟨⟨x', c⟩, hsingle, -⟩ := map_eq_singleton_iff.1 hx
    refine ⟨c, ?_, ?_⟩
    · rw [columnNamed_eq, ← zip_take_left, hsingle]
      rfl
    · rw [columnNamed_eq, ← zip_take_left, ← hframe.length, take_left, hnamed, hsingle]
      rfl

/-- The key of `people` is `id`. -/
theorem people_key_untouched :
    (∀ k ∈ people.primaryKey, (people.fields.map Field.name).count k = 1) ∧
      ∃ plan, compile (fun _ => .ok 0) shout people = .ok plan ∧
        plan.output.primaryKey = ["id"] := by
  have hkeys : ∀ k ∈ people.primaryKey, (people.fields.map Field.name).count k = 1 := by
    decide
  have h : (compile (fun _ => .ok 0) shout people).toOption.isSome = true := by
    decide +kernel
  refine ⟨hkeys, ?_⟩
  cases hplan : compile (fun _ => .ok 0) shout people with
  | error _ => rw [hplan] at h; cases h
  | ok plan => exact ⟨plan, rfl, (key_untouched hkeys hplan).1⟩

end Filament.Transform
