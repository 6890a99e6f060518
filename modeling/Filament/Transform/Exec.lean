import Filament.Transform.Compile

/-!
# Applying a plan

`Apply` runs the operations of a plan over the columns of a record batch.  An expression is
evaluated for all rows at once: a column reference is the column at a position, a literal is a
scalar, and a call runs a kernel over its evaluated arguments.  The kernels are a parameter.

* `Frame`, `Datum` : the working columns of one batch, and the values kernels work on;
* `Node.eval`, `evalArray`, `ifElse` : compiled expressions;
* `Op.apply`, `applyOps` : the operations of a plan;
* `RecordBatch`, `Plan.apply` : a whole batch.
-/

namespace Filament.Transform

variable {F : Floats}

/-- The working columns of one batch. -/
structure Frame (F : Floats) where
  rows : ℕ
  cols : List (Column F)

/-- A column or a scalar. -/
inductive Datum (F : Floats) where
  | array (c : Column F)
  | scalar (type : DataType) (cell : Cell F)

/-- The functions over columns. -/
abbrev Kernels (F : Floats) := Kernel → List (Datum F) → Except String (Datum F)

/-! ### Expressions -/

mutual

/-- `eval` of a compiled expression. -/
def Node.eval (K : Kernels F) (f : Frame F) : Node F → Except String (Datum F)
  | .col idx =>
    match f.cols[idx]? with
    | some c => .ok (.array c)
    | none => .error "index out of range"
  | .literal type cell => .ok (.scalar type cell)
  | .call k args => (evals K f args).bind (K k)

/-- The arguments of a call in turn. -/
def evals (K : Kernels F) (f : Frame F) : List (Node F) → Except String (List (Datum F))
  | [] => .ok []
  | n :: ns => do
    let d ← n.eval K f
    let ds ← evals K f ns
    return d :: ds

end

/-- `toArray` : a scalar is broadcast. -/
def toArray (n : ℕ) : Datum F → Column F
  | .array c => c
  | .scalar type cell => ⟨type, List.replicate n (some cell)⟩

def evalArray (K : Kernels F) (node : Node F) (f : Frame F) : Except String (Column F) :=
  (node.eval K f).map (toArray f.rows)

/-- A condition holds in a row. -/
def isTrue : Value F → Bool
  | some (.boolean true) => true
  | _ => false

/-- Row `i` of a column, if it has one. -/
def rowAt (i : ℕ) (cells : List (Value F)) : Except String (Value F) :=
  match cells[i]? with
  | some v => .ok v
  | none => .error "index out of range"

/-- `IfElse` : a text column is built row by row, any other taken from both branches put end to
end. -/
def ifElse (mask then' els : Column F) : Except String (Column F) :=
  let n := mask.cells.length
  if then'.type ≠ els.type then .error "if_else branches differ"
  else if then'.type = .utf8 then do
    let cells ← (indexed mask.cells).mapM fun p =>
      rowAt p.1 (if isTrue p.2 then then'.cells else els.cells)
    return ⟨then'.type, cells⟩
  else do
    let cells ← (indexed mask.cells).mapM fun p =>
      rowAt (if isTrue p.2 then p.1 else n + p.1) (then'.cells ++ els.cells)
    return ⟨then'.type, cells⟩

/-! ### Operations -/

/-- The value of an entry under the condition: an unmatched row keeps the old value, null for a new
column. -/
def mergeEntry (f : Frame F) (mask : Option (Column F)) (idx : Option ℕ) (arr : Column F) :
    Except String (Column F) :=
  match mask, idx with
  | none, _ => .ok arr
  | some m, none => ifElse m arr ⟨arr.type, List.replicate f.rows none⟩
  | some m, some i =>
    match f.cols[i]? with
    | some old => ifElse m arr old
    | none => .error "index out of range"

/-- The new columns of a compute, each from the frame before the step. -/
def evalEntries (K : Kernels F) (f : Frame F) (mask : Option (Column F)) :
    List (ComputeEntry F) → Except String (List (Option ℕ × Column F))
  | [] => .ok []
  | e :: rest => do
    let arr ← evalArray K e.expr f
    let out ← mergeEntry f mask e.idx arr
    let outs ← evalEntries K f mask rest
    return (e.idx, out) :: outs

/-- Assign the new columns. -/
def assign {γ : Type} (cols : List γ) (outs : List (Option ℕ × γ)) : List γ :=
  outs.foldl (fun cols out =>
    match out.1 with
    | none => cols ++ [out.2]
    | some i => cols.set i out.2) cols

/-- The condition of a compute in every row. -/
def evalMask (K : Kernels F) (f : Frame F) : Option (Node F) → Except String (Option (Column F))
  | none => .ok none
  | some node => (evalArray K node f).map some

/-- One operation. -/
def Op.apply (K : Kernels F) (f : Frame F) : Op F → Except String (Frame F)
  | .drop idx => .ok { f with cols := f.cols.eraseIdx idx }
  | .compute where' entries => do
    let mask ← evalMask K f where'
    let outs ← evalEntries K f mask entries
    return { f with cols := assign f.cols outs }

/-- The operations in turn. -/
def applyOps (K : Kernels F) : Frame F → List (Op F) → Except String (Frame F)
  | f, [] => .ok f
  | f, o :: os => (o.apply K f).bind fun f' => applyOps K f' os

/-! ### Record batches -/

/-- A field of a batch; `meta'` is the logical and the native type it was built from. -/
structure ArrowField where
  name : String
  type : DataType
  nullable : Bool
  meta' : Option (LogicalType × String)
  deriving DecidableEq, Repr

/-- `arrowbatch.Field`. -/
def arrowField (f : Field) : ArrowField :=
  ⟨f.name, arrowType (typeOf f), f.nullable, some (f.logical, f.native)⟩

/-- A record batch. -/
structure RecordBatch (F : Floats) where
  fields : List ArrowField
  cols : List (Column F)
  rows : ℕ

/-- `checkInput` : the leading columns have the names the plan was compiled against. -/
def checkInput (input : Schema) (fields : List ArrowField) : Except String Unit :=
  if fields.length < input.fields.length then
    .error ("transform: record has " ++ toString fields.length ++
      " columns, plan expects at least " ++ toString input.fields.length)
  else
    match (indexed (input.fields.zip fields)).find? fun p => p.2.1.name ≠ p.2.2.name with
    | some p =>
      .error ("transform: column " ++ toString p.1 ++ " is " ++ p.2.2.name.quote ++
        ", plan expects " ++ p.2.1.name.quote)
    | none => .ok ()

/-- `Apply` : columns after the compiled ones pass through, after the plan's output. -/
def Plan.apply (K : Kernels F) (p : Plan F) (rec' : RecordBatch F) :
    Except String (RecordBatch F) := do
  checkInput p.input rec'.fields
  let n := p.input.fields.length
  let f ← (applyOps K ⟨rec'.rows, rec'.cols.take n⟩ p.ops).mapError ("transform: " ++ ·)
  return ⟨p.output.fields.map arrowField ++ rec'.fields.drop n, f.cols ++ rec'.cols.drop n, rec'.rows⟩

end Filament.Transform
