import Mathlib.Algebra.Group.Nat.Defs
import Filament.Transform.Catalog

/-!
# The transform compiler

A definition lists steps per resource: rename columns, drop columns, or compute columns from
expressions.  The compiler resolves names against the schema as each step leaves it and emits
operations on column positions; it collects every issue it finds, and fails when there is one.

* `Expr`, `Step`, `Definition` : what an author writes;
* `Node`, `Op` : compiled expressions and operations;
* `decimalLiteral`, `newLiteralNode`, `coerceLiterals` : literals, widened to the type of a column;
* `expr`, `rename`, `drop`, `compute`, `step` : the compiler;
* `analyze`, `compile` : the plan of a resource.
-/

namespace Filament.Transform

variable {F : Floats}

/-! ### Definitions -/

/-- An expression. -/
inductive Expr (F : Floats) where
  | lit (v : Literal F)
  | col (name : String)
  | call (fn : String) (args : List (Expr F))

/-- A map by name, in the order of its names. -/
structure NameMap (β : Type) where
  entries : List (String × β)
  sorted : entries.Pairwise fun a b => a.1 < b.1

/-- One step. -/
inductive Step (F : Floats) where
  | rename (m : NameMap String)
  | drop (names : List String)
  | compute (entries : NameMap (Expr F)) (where' : Option (Expr F))

/-- The steps of each resource. -/
structure Definition (F : Floats) where
  resources : List (String × List (Step F))

/-! ### Compiled expressions -/

/-- A compiled expression. -/
inductive Node (F : Floats) where
  | col (idx : ℕ)
  | literal (type : DataType) (cell : Cell F)
  | call (k : Kernel) (args : List (Node F))

/-- One assignment of a compute; without a position it appends a column. -/
structure ComputeEntry (F : Floats) where
  idx : Option ℕ
  expr : Node F

/-- A compiled operation. -/
inductive Op (F : Floats) where
  | drop (idx : ℕ)
  | compute (where' : Option (Node F)) (entries : List (ComputeEntry F))

/-- One problem and where it sits. -/
structure Issue where
  path : String
  message : String
  deriving DecidableEq, Repr

/-- The type of a sub-expression that compiled. -/
structure ExpressionType where
  path : String
  logical : LogicalType
  deriving DecidableEq, Repr

/-- A result of the compiler, with the issues and types recorded on the way. -/
structure Compiled (α : Type) where
  value : α
  issues : List Issue
  types : List ExpressionType

/-! ### Literals -/

/-- `strings.Cut` at the point. -/
def cut (s : List Char) : List Char × List Char :=
  (s.takeWhile (· ≠ '.'), (s.dropWhile (· ≠ '.')).drop 1)

/-- A numeral without a sign. -/
def digits (s : List Char) : Option ℕ :=
  if s ≠ [] ∧ s.all Char.isDigit then some (Nat.ofDigitChars 10 s 0) else none

/-- `SetString` in base ten. -/
def setString : List Char → Option ℤ
  | '-' :: s => (digits s).map fun n : ℕ => -(n : ℤ)
  | '+' :: s => (digits s).map fun n : ℕ => (n : ℤ)
  | s => (digits s).map fun n : ℕ => (n : ℤ)

/-- `FormatInt` in base ten. -/
def formatInt (x : ℤ) : List Char :=
  if x < 0 then '-' :: Nat.toDigits 10 x.natAbs else Nat.toDigits 10 x.natAbs

/-- The decimal spelling of a number literal. -/
def spelling : Literal F → Option (List Char)
  | .int x => some (formatInt x.toInt)
  | .float x => some (F.format x)
  | _ => none

/-- The unscaled value a literal has in a decimal column, if it is exact there. -/
def decimalLiteral (v : Literal F) (t : ValueType) : Option ℤ :=
  match arrowType t, spelling v with
  | .decimal128 precision scale, some s =>
    let (whole, frac) := cut s
    if scale < frac.length then none
    else
      match setString (whole ++ frac ++ List.replicate (scale - frac.length).toNat '0') with
      | none => none
      | some unscaled => if 10 ^ precision.toNat ≤ unscaled.natAbs then none else some unscaled
  | _, _ => none

/-- `newLiteralNode` : a literal as a scalar of the type. -/
def newLiteralNode (v : Literal F) (t : ValueType) : Node F :=
  if t.logical = .decimal then .literal (arrowType t) (.decimal128 ((decimalLiteral v t).getD 0))
  else
    match v with
    | .string s => .literal .utf8 (.utf8 s)
    | .bool b => .literal .boolean (.boolean b)
    | .int x =>
      match t.logical with
      | .int16 => .literal .int16 (.int16 (x.setWidth 16))
      | .int32 => .literal .int32 (.int32 (x.setWidth 32))
      | .float32 => .literal .float32 (.float32 (F.ofInt32 x.toInt))
      | .float64 => .literal .float64 (.float64 (F.ofInt64 x.toInt))
      | _ => .literal .int64 (.int64 x)
    | .float x =>
      if t.logical = .float32 then .literal .float32 (.float32 (F.narrow x))
      else .literal .float64 (.float64 x)

/-- A literal can stand in for a value of the type. -/
def coercible (v : Literal F) (t : ValueType) : Bool :=
  if t.logical = .decimal then (decimalLiteral v t).isSome
  else
    match v, t.logical with
    | .int x, .int16 => -2 ^ 15 ≤ x.toInt && x.toInt < 2 ^ 15
    | .int x, .int32 => -2 ^ 31 ≤ x.toInt && x.toInt < 2 ^ 31
    | .int _, .int64 | .int _, .float32 | .int _, .float64 => true
    | .float _, .float32 | .float _, .float64 => true
    | _, _ => false

/-- A compiled argument. -/
abbrev Arg (F : Floats) := Node F × ArgType F

/-- One argument, widened to the type of the columns if it is a value of the call. -/
def coerceLiteral (isValue : Bool) (target : ValueType) (arg : Arg F) : Arg F :=
  match arg.2.literal with
  | none => arg
  | some v =>
    if isValue && arg.2.type ≠ target && coercible v target then
      (newLiteralNode v target, ⟨target, some v⟩)
    else arg

/-- `coerceLiterals` : widen each literal to the type of the first column when the value fits. -/
def coerceLiterals (spec : FunctionSpec) (args : List (Arg F)) : List (Arg F) :=
  match columnType spec.isValue (args.map Prod.snd) with
  | none => args
  | some target =>
    if target.logical = .unknown then args
    else args.mapIdx fun i a => coerceLiteral (spec.isValue i) target a

/-! ### Expressions -/

/-- The position of a column. -/
def Schema.index (layout : Schema) (name : String) : Option ℕ :=
  layout.fields.findIdx? fun f => f.name = name

variable (regexp : String → Except String ℕ)

/-- A call whose arguments have compiled. -/
def call (fn : Function) (path : String)
    (argPath : ℕ → String) (args : List (Arg F)) : Compiled (Option (Arg F)) :=
  let args := if fn.spec.sameType then coerceLiterals fn.spec args else args
  let noted : List ExpressionType :=
    if fn.spec.sameType then (indexed args).map fun p => ⟨argPath p.1, p.2.2.type.logical⟩ else []
  match fn.check regexp (args.map Prod.snd) with
  | .error e => ⟨none, [⟨e.index.elim path argPath, e.message⟩], noted⟩
  | .ok ret =>
    let first := (args.head?.map fun a => a.2.type).getD ⟨.unknown, 0, 0⟩
    ⟨some (.call (fn.exec.bind first) (args.map Prod.fst), ⟨ret, none⟩), [],
      noted ++ [⟨path, ret.logical⟩]⟩

mutual

/-- `expr` : compile one expression against the layout. -/
def expr (layout : Schema) (path : String) : Expr F → Compiled (Option (Arg F))
  | .lit v =>
    let t : ValueType := ⟨literalType v, 0, 0⟩
    ⟨some (newLiteralNode v t, ⟨t, some v⟩), [], [⟨path, t.logical⟩]⟩
  | .col name =>
    if name = "" then ⟨none, [⟨path, "unknown function " ++ name.quote⟩], []⟩
    else
      match layout.index name with
      | none => ⟨none, [⟨path, "unknown column " ++ name.quote⟩], []⟩
      | some i =>
        match layout.fields[i]? with
        | none => ⟨none, [⟨path, "unknown column " ++ name.quote⟩], []⟩
        | some f => ⟨some (.col i, ⟨typeOf f, none⟩), [], [⟨path, f.logical⟩]⟩
  | .call name args =>
    match catalogByName name with
    | none => ⟨none, [⟨path, "unknown function " ++ name.quote⟩], []⟩
    | some fn =>
      let argPath := fun i : ℕ => path ++ "." ++ name ++ "[" ++ toString i ++ "]"
      let compiled := exprs layout argPath 0 args
      match compiled.value with
      | none => ⟨none, compiled.issues, compiled.types⟩
      | some args =>
        let called := call regexp fn path argPath args
        ⟨called.value, compiled.issues ++ called.issues, compiled.types ++ called.types⟩

/-- The arguments of a call; each is compiled even after one fails. -/
def exprs (layout : Schema) (argPath : ℕ → String) (i : ℕ) :
    List (Expr F) → Compiled (Option (List (Arg F)))
  | [] => ⟨some [], [], []⟩
  | e :: es =>
    let head := expr layout (argPath i) e
    let tail := exprs layout argPath (i + 1) es
    ⟨head.value.bind fun a => tail.value.map fun as => a :: as, head.issues ++ tail.issues,
      head.types ++ tail.types⟩

end

/-! ### Steps -/

/-- The columns a rename moves, as new names and positions. -/
def renameEntries (layout : Schema) (path : String) :
    List (String × String) → List (String × ℕ) → Compiled (List (String × ℕ))
  | [], renamed => ⟨renamed, [], []⟩
  | (source, target) :: rest, renamed =>
    let fail := fun message : String =>
      let tail := renameEntries layout path rest renamed
      (⟨tail.value, ⟨path ++ "[" ++ source.quote ++ "]", message⟩ :: tail.issues, []⟩ :
        Compiled (List (String × ℕ)))
    match layout.index source with
    | none => fail "unknown column"
    | some i =>
      if source ∈ layout.primaryKey then
        fail ("cannot rename primary key column " ++ source.quote)
      else if isReservedColumn target then fail ("column " ++ target.quote ++ " is reserved")
      else if (layout.index target).isSome ∨ target ∈ renamed.map Prod.fst then
        fail ("column " ++ target.quote ++ " already exists")
      else renameEntries layout path rest (renamed ++ [(target, i)])

/-- Give the columns their new names. -/
def renameFields (fields : List Field) (renamed : List (String × ℕ)) : List Field :=
  renamed.foldl (fun fields p => fields.modify p.2 fun f => { f with name := p.1 }) fields

variable (layout : Schema) (path : String)

/-- `rename` : the layout changes, the frame does not. -/
def rename (m : NameMap String) : Compiled Schema :=
  let renamed := renameEntries layout path m.entries []
  ⟨{ layout with fields := renameFields layout.fields renamed.value }, renamed.issues, []⟩

/-- `drop` : one operation for each column. -/
def drop (path : String) : ℕ → Schema → List String → Compiled (Schema × List (Op F))
  | _, layout, [] => ⟨(layout, []), [], []⟩
  | j, layout, name :: rest =>
    let fail := fun message : String =>
      let tail := drop path (j + 1) layout rest
      (⟨tail.value, ⟨path ++ "[" ++ toString j ++ "]", message⟩ :: tail.issues, []⟩ :
        Compiled (Schema × List (Op F)))
    match layout.index name with
    | none => fail ("unknown column " ++ name.quote)
    | some i =>
      if name ∈ layout.primaryKey then fail ("cannot drop primary key column " ++ name.quote)
      else
        let tail := drop path (j + 1) { layout with fields := layout.fields.eraseIdx i } rest
        ⟨(tail.value.1, .drop i :: tail.value.2), tail.issues, []⟩

/-- A compiled entry of a compute and the column it leaves. -/
structure Change (F : Floats) where
  entry : ComputeEntry F
  field : Field

/-- One entry of a compute. -/
def computeEntry (conditional : Bool) (name : String) (e : Expr F) : Compiled (Option (Change F)) :=
  let epath := path ++ ".compute[" ++ name.quote ++ "]"
  if isReservedColumn name then ⟨none, [⟨epath, "column " ++ name.quote ++ " is reserved"⟩], []⟩
  else if name ∈ layout.primaryKey then
    ⟨none, [⟨epath, "cannot compute onto primary key column " ++ name.quote⟩], []⟩
  else
    let compiled := expr regexp layout epath e
    match compiled.value with
    | none => ⟨none, compiled.issues, compiled.types⟩
    | some (node, t) =>
      let field : Field := ⟨name, true, t.type.logical, "", t.type.precision, t.type.scale⟩
      match layout.index name with
      | none => ⟨some ⟨⟨none, node⟩, field⟩, compiled.issues, compiled.types⟩
      | some idx =>
        match layout.fields[idx]?.map typeOf with
        | none => ⟨some ⟨⟨some idx, node⟩, field⟩, compiled.issues, compiled.types⟩
        | some old =>
          if conditional ∧ old ≠ t.type then
            ⟨none, compiled.issues ++ [⟨epath, "where cannot change type: column is " ++ old.text ++
              ", expression is " ++ t.type.text⟩], compiled.types⟩
          else ⟨some ⟨⟨some idx, node⟩, field⟩, compiled.issues, compiled.types⟩

/-- The entries of a compute, each against the layout before the step. -/
def computeEntries (conditional : Bool) : List (String × Expr F) → Compiled (List (Change F))
  | [] => ⟨[], [], []⟩
  | (name, e) :: rest =>
    let head := computeEntry regexp layout path conditional name e
    let tail := computeEntries conditional rest
    ⟨head.value.toList ++ tail.value, head.issues ++ tail.issues, head.types ++ tail.types⟩

/-- Apply the changes of a compute to the columns. -/
def changeFields (fields : List Field) (changes : List (Change F)) : List Field :=
  changes.foldl (fun fields ch =>
    match ch.entry.idx with
    | none => fields ++ [ch.field]
    | some i => fields.set i ch.field) fields

/-- The condition of a compute. -/
def condition (e : Expr F) : Compiled (Option (Node F)) :=
  let compiled := expr regexp layout (path ++ ".where") e
  match compiled.value with
  | none => ⟨none, compiled.issues, compiled.types⟩
  | some (node, t) =>
    if t.type.logical = .bool then ⟨some node, compiled.issues, compiled.types⟩
    else ⟨none, compiled.issues ++ [⟨path ++ ".where", "expects bool, got " ++ t.type.logical.text⟩],
      compiled.types⟩

/-- The entries of a compute under a compiled condition. -/
def computeUnder (where' : Option (Node F)) (entries : List (String × Expr F)) :
    Compiled (Schema × List (Op F)) :=
  let changes := computeEntries regexp layout path where'.isSome entries
  if changes.value = [] then ⟨(layout, []), changes.issues, changes.types⟩
  else
    ⟨({ layout with fields := changeFields layout.fields changes.value },
      [.compute where' (changes.value.map Change.entry)]), changes.issues, changes.types⟩

/-- `compute` : compile every entry against the layout before the step and apply them together. -/
def compute (entries : NameMap (Expr F)) (where' : Option (Expr F)) :
    Compiled (Schema × List (Op F)) :=
  match where' with
  | none => computeUnder regexp layout path none entries.entries
  | some e =>
    let cond := condition regexp layout path e
    match cond.value with
    | none => ⟨(layout, []), cond.issues, cond.types⟩
    | some node =>
      let rest := computeUnder regexp layout path (some node) entries.entries
      ⟨rest.value, cond.issues ++ rest.issues, cond.types ++ rest.types⟩

/-- One step. -/
def step : Step F → Compiled (Schema × List (Op F))
  | .rename m =>
    let renamed := rename layout (path ++ ".rename") m
    ⟨(renamed.value, []), renamed.issues, renamed.types⟩
  | .drop names => drop (path ++ ".drop") 0 layout names
  | .compute entries where' => compute regexp layout path entries where'

/-- The steps in turn, with the layout as each leaves it. -/
def steps (resource : String) : ℕ → Schema → List (Step F) → Compiled (Schema × List (Op F))
  | _, layout, [] => ⟨(layout, []), [], []⟩
  | i, layout, st :: rest =>
    let head := step regexp layout
      ("resources[" ++ resource.quote ++ "].steps[" ++ toString i ++ "]") st
    let tail := steps resource (i + 1) head.value.1 rest
    ⟨(tail.value.1, head.value.2 ++ tail.value.2), head.issues ++ tail.issues,
      head.types ++ tail.types⟩

/-! ### Plans -/

/-- A compiled transform of one resource. -/
structure Plan (F : Floats) where
  input : Schema
  output : Schema
  ops : List (Op F)

/-- `recordType` : a later note replaces an earlier one for the same path. -/
def recordType (types : List ExpressionType) (t : ExpressionType) : List ExpressionType :=
  if types.any (·.path = t.path) then
    types.map fun u => if u.path = t.path then t else u
  else types ++ [t]

/-- What is learned besides the plan. -/
structure Analysis where
  types : List ExpressionType
  layout : Schema
  deriving DecidableEq, Repr

/-- `Analyze` : the plan or the issues, and what was learned in either case. -/
def analyze (d : Definition F) (input : Schema) : Except (List Issue) (Plan F) × Analysis :=
  let compiled := steps regexp input.resource 0 input ((d.resources.lookup input.resource).getD [])
  (if compiled.issues = [] then .ok ⟨input, compiled.value.1, compiled.value.2⟩
    else .error compiled.issues,
    ⟨compiled.types.foldl recordType [], compiled.value.1⟩)

/-- `Compile`. -/
def compile (d : Definition F) (input : Schema) : Except (List Issue) (Plan F) :=
  (analyze regexp d input).1

end Filament.Transform
