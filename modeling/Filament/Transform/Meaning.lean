import Filament.Transform.Exec

/-!
# What a definition means, row by row

A row is a list of named and typed values; a name stands for the first column that has it.  An
expression has a value in a row, and a step turns a row into a row.  A literal in a call whose
arguments share one type stands for the value of that type which is the same number.

* `number`, `widen` : a literal as a value of the type of a column;
* `operations` : what an author may call, by name;
* `meaning` : the value of an expression in a row, over the meaning of the operations on values;
* `Step.meaning`, `stepsMeaning` : the row after a step, and after the steps of a resource;
* `Documented` : the kernels run the operations row by row, on the arguments of checked calls.
-/

namespace Filament.Transform

variable {F : Floats}

/-! ### Literals -/

/-- The number a decimal numeral spells: its digits over the power of ten of those after the
point. -/
def spelled (s : List Char) : Option ℚ :=
  (setString ((cut s).1 ++ (cut s).2)).map fun n : ℤ => (n : ℚ) / 10 ^ (cut s).2.length

/-- The number a literal stands for. -/
def number : Literal F → Option ℚ
  | .int x => some x.toInt
  | .float x => spelled (F.format x)
  | _ => none

/-- The value of a type that stands for the literal: the same number where the type is exact, the
converted one in a floating-point type. -/
def widen (v : Literal F) (t : ValueType) : Option (Cell F) :=
  match t.logical, v with
  | .int16, .int x =>
    let y := BitVec.ofInt 16 x.toInt
    if y.toInt = x.toInt then some (.int16 y) else none
  | .int32, .int x =>
    let y := BitVec.ofInt 32 x.toInt
    if y.toInt = x.toInt then some (.int32 y) else none
  | .int64, .int x => some (.int64 x)
  | .float32, .int x => some (.float32 (F.ofInt32 x.toInt))
  | .float64, .int x => some (.float64 (F.ofInt64 x.toInt))
  | .float32, .float x => some (.float32 (F.narrow x))
  | .float64, .float x => some (.float64 x)
  | .decimal, v =>
    match arrowType t, number v with
    | .decimal128 precision scale, some q =>
      let unscaled := q * (10 : ℚ) ^ scale
      if unscaled.den = 1 ∧ unscaled.num.natAbs < 10 ^ precision.toNat then
        some (.decimal128 unscaled.num)
      else none
    | _, _ => none
  | _, _ => none

/-- The value of a literal that is not widened. -/
def literalCell : Literal F → Cell F
  | .string s => .utf8 s
  | .int x => .int64 x
  | .float x => .float64 x
  | .bool b => .boolean b

/-! ### Expressions -/

/-- One column of a row. -/
structure Entry (F : Floats) where
  name : String
  type : ValueType
  value : Value F

abbrev Row (F : Floats) := List (Entry F)

/-- The position of a name. -/
def Row.index (row : Row F) (name : String) : Option ℕ := row.findIdx? fun e => e.name = name

/-- The value of an expression in a row, with its type and the literal it is, if it is one. -/
structure Val (F : Floats) where
  type : ValueType
  literal : Option (Literal F)
  value : Value F

def Val.argType (v : Val F) : ArgType F := ⟨v.type, v.literal⟩

/-- A literal taken as a value of the type. -/
def Val.widenTo (t : ValueType) (v : Val F) : Val F :=
  match v.literal with
  | none => v
  | some l =>
    if v.type = t then v
    else
      match widen l t with
      | some c => ⟨t, some l, some c⟩
      | none => v

/-- The value with its type. -/
def Val.typed (v : Val F) : ValueType × Value F := (v.type, v.value)

/-- The names authors call the operations by. -/
def operations : List (String × Operation) :=
  [ ("lower", .lower), ("upper", .upper), ("trim", .trim), ("length", .length),
    ("replace", .replace), ("substring", .substring), ("concat", .concat),
    ("regex_match", .regexMatch), ("regex_extract", .regexExtract),
    ("regex_replace", .regexReplace), ("md5", .md5), ("sha1", .sha1), ("sha256", .sha256),
    ("sha512", .sha512), ("add", .add), ("sub", .sub), ("mul", .mul), ("div", .div),
    ("abs", .abs), ("floor", .floor), ("ceil", .ceil), ("round", .round),
    ("eq", .compare .eq), ("neq", .compare .neq), ("gt", .compare .gt), ("gte", .compare .gte),
    ("lt", .compare .lt), ("lte", .compare .lte), ("and", .and), ("or", .or), ("not", .not),
    ("is_null", .isNull), ("coalesce", .coalesce), ("to_date", .toDate), ("year", .year),
    ("month", .month), ("day", .day) ]

/-- The operation takes its values at one type. -/
def Operation.sameType : Operation → Bool
  | .concat | .add | .sub | .mul | .div | .abs | .floor | .ceil | .round | .compare _ | .and | .or
  | .coalesce => true
  | _ => false

/-- Argument `i` is a value; the number of places a number is rounded to is not. -/
def Operation.isValue : Operation → ℕ → Bool
  | .round, i => i = 0
  | _, _ => true

/-- The type of the result; the others have the type of their values. -/
def Operation.returns : Operation → Option LogicalType
  | .lower | .upper | .trim | .replace | .substring | .concat | .regexExtract | .regexReplace
  | .md5 | .sha1 | .sha256 | .sha512 => some .string
  | .length | .year | .month | .day => some .int64
  | .regexMatch | .compare _ | .and | .or | .not | .isNull => some .bool
  | .toDate => some .date
  | .add | .sub | .mul | .div | .abs | .floor | .ceil | .round | .coalesce => none

/-- The type of the result on values of a type. -/
def Operation.result (o : Operation) (t : ValueType) : ValueType :=
  (o.returns.map (⟨·, 0, 0⟩)).getD t

/-- The meaning of the operations on typed values. -/
abbrev Point (F : Floats) := Operation → List (ValueType × Value F) → Value F

variable (point : Point F) (row : Row F)

/-- The value of a call: the values of a same-type operation are taken at the type of its columns. -/
def Operation.meaning (o : Operation) (vs : List (Val F)) : Option (Val F) :=
  if o.sameType then
    (columnType o.isValue (vs.map Val.argType)).map fun t =>
      let vs := vs.mapIdx fun i v => if o.isValue i then v.widenTo t else v
      ⟨o.result t, none, point o (vs.map Val.typed)⟩
  else some ⟨o.result ⟨.unknown, 0, 0⟩, none, point o (vs.map Val.typed)⟩

mutual

/-- The value of an expression in a row. -/
def meaning (point : Point F) (row : Row F) : Expr F → Option (Val F)
  | .lit v => some ⟨⟨literalType v, 0, 0⟩, some v, some (literalCell v)⟩
  | .col name => (row.index name).bind fun i => row[i]?.map fun e => ⟨e.type, none, e.value⟩
  | .call name args =>
    (operations.lookup name).bind fun o => (meanings point row args).bind (o.meaning point)

/-- The values of the arguments. -/
def meanings (point : Point F) (row : Row F) : List (Expr F) → Option (List (Val F))
  | [] => some []
  | e :: es => (meaning point row e).bind fun v => (meanings point row es).map fun vs => v :: vs

end

/-! ### Steps -/

/-- Rename a column. -/
def Row.rename (source target : String) : Option (Row F) :=
  (row.index source).map fun i => row.modify i fun e => { e with name := target }

/-- Drop a column. -/
def Row.drop (name : String) : Option (Row F) :=
  (row.index name).map row.eraseIdx

/-- Assign a value where the condition holds: an unmatched row keeps the old value, null for a new
column. -/
def Row.assign (holds : Bool) (name : String) (v : Val F) : Row F :=
  match row.index name with
  | some i => row.modify i fun e => ⟨name, v.type, if holds then v.value else e.value⟩
  | none => row ++ [⟨name, v.type, if holds then v.value else none⟩]

/-- The values of the entries of a compute. -/
def entryMeanings (point : Point F) (row : Row F) :
    List (String × Expr F) → Option (List (String × Val F))
  | [] => some []
  | (name, e) :: rest =>
    (meaning point row e).bind fun v => (entryMeanings point row rest).map fun vs => (name, v) :: vs

/-- Whether the condition of a compute holds; false and null do not. -/
def whereMeaning : Option (Expr F) → Option Bool
  | none => some true
  | some e => (meaning point row e).map fun v => isTrue v.value

/-- The row after a step: a compute evaluates every entry on the row before the step and then
assigns all of them; one without entries changes nothing. -/
def Step.meaning : Step F → Option (Row F)
  | .rename m => m.entries.foldlM (fun row p => row.rename p.1 p.2) row
  | .drop names => names.foldlM (fun row name => row.drop name) row
  | .compute entries where' =>
    if entries.entries.isEmpty then some row
    else
      (whereMeaning point row where').bind fun holds =>
        (entryMeanings point row entries.entries).map fun vs =>
          vs.foldl (fun row p => row.assign holds p.1 p.2) row

/-- The row after the steps. -/
def stepsMeaning (steps : List (Step F)) : Option (Row F) :=
  steps.foldlM (fun row st => st.meaning point row) row

/-! ### Kernels -/

/-- The value of a datum in a row. -/
def Datum.at' (r : ℕ) : Datum F → Value F
  | .array c => (c.cells[r]?).getD none
  | .scalar _ cell => some cell

def Datum.type : Datum F → DataType
  | .array c => c.type
  | .scalar t _ => t

/-- What the evaluated form of an argument is. -/
structure Shaped (rows : ℕ) (t : ArgType F) (d : Datum F) : Prop where
  type : d.type = arrowType t.type
  column : t.literal = none → ∃ c, d = .array c
  length : ∀ c, d = .array c → c.cells.length = rows

/-- The operation a kernel runs; two of them compare. -/
def Kernel.operation : Kernel → Operation
  | .stored o => o
  | .compareDecimalText op => .compare op

/-- A kernel that compares is for the types stored its way: a decimal stored as text is compared by
the number it spells, anything else as it is stored. -/
def Kernel.suits (k : Kernel) (t : ValueType) : Bool :=
  match k with
  | .stored (.compare _) => !(t.logical = .decimal && arrowType t = .utf8)
  | .compareDecimalText _ => t.logical = .decimal && arrowType t = .utf8
  | _ => true

/-- What a kernel is run on: the arguments of a checked call of its operation, stored its way, with
a column among them. -/
structure Kernel.Takes (regexp : String → Except String ℕ) (k : Kernel) (ts : List (ArgType F))
    (ret : ValueType) : Prop where
  checked : ∃ fn ∈ catalog, operations.lookup fn.spec.name = some k.operation ∧
    fn.check regexp ts = .ok ret
  suits : ∀ a ∈ ts.head?, k.suits a.type = true
  column : ∃ a ∈ ts, a.literal = none

/-- The kernels are the operations they document: over columns of one length and scalars of the
types of a checked call, a kernel that succeeds returns a column of that length and of the type of
the call, whose rows are the operation on the rows of the arguments. -/
structure Documented (regexp : String → Except String ℕ) (K : Kernels F) (point : Point F) :
    Prop where
  pointwise : ∀ k ts ret args out n, k.Takes regexp ts ret → List.Forall₂ (Shaped n) ts args →
    K k args = .ok out →
    ∃ col, out = .array col ∧ col.cells.length = n ∧ col.type = arrowType ret ∧
      ∀ r < n, col.cells[r]? =
        some (point k.operation (List.zipWith (fun a d => (a.type, d.at' r)) ts args))

end Filament.Transform
