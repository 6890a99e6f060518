import Mathlib.Algebra.Order.Ring.Unbundled.Rat
import Filament.Lib.Except

/-!
# Columns and the function catalog of transforms

The types of a compiled value and their Arrow storage, the literals of a definition, and the closed
set of functions a definition may call with the check of a call's arguments.

* `LogicalType`, `Field`, `Schema`, `ValueType` : the columns a plan is compiled against;
* `DataType`, `arrowType` : how a column is stored;
* `Floats`, `Cell`, `Column`, `Literal` : the values, over any representation of floating-point
  numbers;
* `Operation`, `Kernel`, `Function`, `catalog` : the functions and what runs them;
* `Function.check`, `sharedType` : whether a call is well typed, and its result type.
-/

namespace Filament.Transform

/-! ### Schemas -/

/-- A portable column type. -/
inductive LogicalType where
  | unknown
  | bool
  | int16
  | int32
  | int64
  | float32
  | float64
  | decimal
  | string
  | bytes
  | date
  | time
  | timestamp
  | timestampTZ
  | json
  | uuid
  | array
  deriving DecidableEq, Repr

/-- The spelling of a type. -/
def LogicalType.text : LogicalType → String
  | .unknown => ""
  | .bool => "bool"
  | .int16 => "int16"
  | .int32 => "int32"
  | .int64 => "int64"
  | .float32 => "float32"
  | .float64 => "float64"
  | .decimal => "decimal"
  | .string => "string"
  | .bytes => "bytes"
  | .date => "date"
  | .time => "time"
  | .timestamp => "timestamp"
  | .timestampTZ => "timestamptz"
  | .json => "json"
  | .uuid => "uuid"
  | .array => "array"

/-- One column of a schema. -/
structure Field where
  name : String
  nullable : Bool
  logical : LogicalType
  native : String
  precision : ℤ
  scale : ℤ
  deriving DecidableEq, Repr

/-- The columns of a resource. -/
structure Schema where
  resource : String
  fields : List Field
  primaryKey : List String
  deriving DecidableEq, Repr

/-- The type of a compiled value; a decimal has a precision and a scale. -/
structure ValueType where
  logical : LogicalType
  precision : ℤ
  scale : ℤ
  deriving DecidableEq, Repr

/-- The type of a column. -/
def typeOf (f : Field) : ValueType := ⟨f.logical, f.precision, f.scale⟩

/-- A bounded decimal is spelled with its precision and scale. -/
def ValueType.text (t : ValueType) : String :=
  if t.logical = .decimal ∧ 0 < t.precision then
    t.logical.text ++ "(" ++ toString t.precision ++ "," ++ toString t.scale ++ ")"
  else t.logical.text

/-- The names Filament keeps for its own columns. -/
def isReservedColumn (name : String) : Bool := "_filament_".isPrefixOf name.toLower

/-! ### Storage -/

/-- An Arrow type. -/
inductive DataType where
  | boolean
  | int16
  | int32
  | int64
  | float32
  | float64
  | decimal128 (precision scale : ℤ)
  | utf8
  | binary
  | date32
  | time64us
  | timestamp (timeZone : String)
  deriving DecidableEq, Repr

/-- The widest decimal that fits. -/
def maxDecimalPrecision : ℤ := 38

/-- `arrowbatch.Type` : what no sink addresses natively travels as text. -/
def arrowType (t : ValueType) : DataType :=
  match t.logical with
  | .bool => .boolean
  | .int16 => .int16
  | .int32 => .int32
  | .int64 => .int64
  | .float32 => .float32
  | .float64 => .float64
  | .decimal =>
    if 0 < t.precision ∧ t.precision ≤ maxDecimalPrecision then .decimal128 t.precision t.scale
    else .utf8
  | .bytes => .binary
  | .date => .date32
  | .time => .time64us
  | .timestamp => .timestamp ""
  | .timestampTZ => .timestamp "UTC"
  | .unknown | .string | .json | .uuid | .array => .utf8

/-- A decimal that travels as text: one with no precision, or one above 38. -/
def textDecimal (t : ValueType) : Bool :=
  t.logical = .decimal && !(0 < t.precision && t.precision ≤ maxDecimalPrecision)

/-- A representation of floating-point numbers: the conversions to it, and the shortest decimal
spelling of a number, which is more than a sign and a point. -/
structure Floats where
  F32 : Type
  F64 : Type
  ofInt32 : ℤ → F32
  ofInt64 : ℤ → F64
  narrow : F64 → F32
  format : F64 → List Char
  spells : ∀ x, ∃ c ∈ format x, c ≠ '-' ∧ c ≠ '+' ∧ c ≠ '.'

variable (F : Floats)

/-- One value that is not null. -/
inductive Cell where
  | boolean (b : Bool)
  | int16 (x : BitVec 16)
  | int32 (x : BitVec 32)
  | int64 (x : BitVec 64)
  | float32 (x : F.F32)
  | float64 (x : F.F64)
  | decimal128 (unscaled : ℤ)
  | utf8 (s : String)
  | binary (bytes : List UInt8)
  | date32 (days : ℤ)
  | time64 (micros : ℤ)
  | timestamp (micros : ℤ)

/-- One value of a column, `none` for null. -/
abbrev Value := Option (Cell F)

/-- A column of a record batch. -/
structure Column where
  type : DataType
  cells : List (Value F)

/-- A literal of a definition. -/
inductive Literal where
  | string (s : String)
  | int (x : BitVec 64)
  | float (x : F.F64)
  | bool (b : Bool)

variable {F}

/-- The type of a literal that is not widened. -/
def literalType : Literal F → LogicalType
  | .string _ => .string
  | .int _ => .int64
  | .float _ => .float64
  | .bool _ => .bool

/-! ### The catalog -/

/-- A comparison. -/
inductive KernelOp where
  | eq
  | neq
  | gt
  | gte
  | lt
  | lte
  deriving DecidableEq, Repr

/-- An operation of the language. -/
inductive Operation where
  | lower | upper | trim | length | replace | substring | concat
  | regexMatch | regexExtract | regexReplace
  | md5 | sha1 | sha256 | sha512
  | add | sub | mul | div | abs | floor | ceil | round
  | compare (op : KernelOp)
  | and | or | not | isNull | coalesce
  | toDate | year | month | day
  deriving DecidableEq, Repr

/-- What runs a function over columns: an operation on the values as they are stored, or a comparison
of the numbers that texts spell. -/
inductive Kernel where
  | stored (o : Operation)
  | compareDecimalText (op : KernelOp)
  deriving DecidableEq, Repr

/-- The constraints of one argument; an empty list of types accepts any. -/
structure ArgSpec where
  name : String
  types : List LogicalType := []
  literal : Bool := false
  column : Bool := false
  optional : Bool := false
  variadic : Bool := false
  deriving DecidableEq, Repr

/-- A function's signature. -/
structure FunctionSpec where
  name : String
  args : List ArgSpec
  returns : LogicalType := .unknown
  sameType : Bool := false
  returnsInput : Bool := false
  deriving DecidableEq, Repr

/-- A rule about the literals of a call. -/
inductive Rule where
  | positive (index : ℕ)
  | nonnegative (argument : String) (index : ℕ)
  | validPattern (index : ℕ)
  | groupInPattern (patternIndex index : ℕ)
  deriving DecidableEq, Repr

/-- How a function runs: one kernel, or a comparison whose kernel depends on how the type is stored. -/
inductive Exec where
  | kernel (o : Operation)
  | comparison (op : KernelOp)
  deriving DecidableEq, Repr

/-- One entry of the catalog. -/
structure Function where
  spec : FunctionSpec
  validate : List Rule := []
  exec : Exec
  deriving DecidableEq, Repr

def hashTypes : List LogicalType := [.string, .uuid, .int16, .int32, .int64]

def floatTypes : List LogicalType := [.float32, .float64]

def numericTypes : List LogicalType := [.int16, .int32, .int64, .float32, .float64]

def temporalTypes : List LogicalType := [.date, .timestamp, .timestampTZ]

def orderableTypes : List LogicalType :=
  [.int16, .int32, .int64, .float32, .float64, .decimal, .date, .time, .timestamp, .timestampTZ]

/-- A function of one column; without a result type it returns its input's. -/
def unary (name : String) (types : List LogicalType) (returns : LogicalType) (o : Operation) :
    Function where
  spec :=
    { name, args := [{ name := "value", types, column := true }], returns,
      sameType := returns = .unknown, returnsInput := returns = .unknown }
  exec := .kernel o

/-- A function of two numbers whose result takes their type. -/
def arithmetic (name : String) (o : Operation) : Function where
  spec :=
    { name, args := [{ name := "left", types := numericTypes }, { name := "right", types := numericTypes }],
      sameType := true, returnsInput := true }
  exec := .kernel o

/-- A predicate of two values of one type. -/
def comparison (name : String) (types : List LogicalType) (op : KernelOp) : Function where
  spec :=
    { name, args := [{ name := "left", types }, { name := "right", types }], returns := .bool,
      sameType := true }
  exec := .comparison op

/-- A digest of one or more columns. -/
def digest (name : String) (o : Operation) : Function where
  spec :=
    { name, args := [{ name := "column", types := hashTypes, column := true, variadic := true }],
      returns := .string }
  exec := .kernel o

/-- A join of two conditions. -/
def join (name : String) (o : Operation) : Function where
  spec :=
    { name, args := [{ name := "left", types := [.bool] }, { name := "right", types := [.bool] }],
      returns := .bool, sameType := true }
  exec := .kernel o

/-- A string column and string literals. -/
def onString (name : String) (literals : List ArgSpec) (returns : LogicalType) (rules : List Rule)
    (o : Operation) : Function where
  spec :=
    { name, args := { name := "value", types := [.string], column := true } :: literals, returns }
  validate := rules
  exec := .kernel o

def stringLiteral (name : String) : ArgSpec := { name, types := [.string], literal := true }

def intLiteral (name : String) (optional : Bool) : ArgSpec :=
  { name, types := [.int64], literal := true, optional }

/-- The functions a definition may call. -/
def catalog : List Function :=
  [ unary "lower" [.string] .string .lower,
    unary "upper" [.string] .string .upper,
    unary "trim" [.string] .string .trim,
    unary "length" [.string] .int64 .length,
    onString "replace" [stringLiteral "find", stringLiteral "with"] .string [] .replace,
    onString "substring" [intLiteral "start" false, intLiteral "length" true] .string
      [.positive 1, .nonnegative "length" 2] .substring,
    { spec :=
        { name := "concat", args := [{ name := "part", types := [.string], variadic := true }],
          returns := .string, sameType := true }
      exec := .kernel .concat },
    onString "regex_match" [stringLiteral "pattern"] .bool [.validPattern 1] .regexMatch,
    onString "regex_extract" [stringLiteral "pattern", intLiteral "group" true] .string
      [.validPattern 1, .nonnegative "group" 2, .groupInPattern 1 2] .regexExtract,
    onString "regex_replace" [stringLiteral "pattern", stringLiteral "with"] .string
      [.validPattern 1] .regexReplace,
    digest "md5" .md5,
    digest "sha1" .sha1,
    digest "sha256" .sha256,
    digest "sha512" .sha512,
    arithmetic "add" .add,
    arithmetic "sub" .sub,
    arithmetic "mul" .mul,
    arithmetic "div" .div,
    unary "abs" numericTypes .unknown .abs,
    unary "floor" floatTypes .unknown .floor,
    unary "ceil" floatTypes .unknown .ceil,
    { spec :=
        { name := "round",
          args := [{ name := "value", types := floatTypes, column := true }, intLiteral "places" true],
          sameType := true, returnsInput := true }
      exec := .kernel .round },
    comparison "eq" [] .eq,
    comparison "neq" [] .neq,
    comparison "gt" orderableTypes .gt,
    comparison "gte" orderableTypes .gte,
    comparison "lt" orderableTypes .lt,
    comparison "lte" orderableTypes .lte,
    join "and" .and,
    join "or" .or,
    unary "not" [.bool] .bool .not,
    unary "is_null" [] .bool .isNull,
    { spec :=
        { name := "coalesce", args := [{ name := "value", variadic := true }], sameType := true,
          returnsInput := true }
      exec := .kernel .coalesce },
    unary "to_date" [.string] .date .toDate,
    unary "year" temporalTypes .int64 .year,
    unary "month" temporalTypes .int64 .month,
    unary "day" temporalTypes .int64 .day ]

/-- The function of a name. -/
def catalogByName (name : String) : Option Function := catalog.find? fun f => f.spec.name = name

/-! ### The check of a call -/

/-- What is known of a compiled argument; `literal` is the value of one that is a literal. -/
structure ArgType (F : Floats) where
  type : ValueType
  literal : Option (Literal F)

/-- A failed check, with the argument that is responsible for it if one is. -/
structure CheckError where
  index : Option ℕ
  message : String
  deriving DecidableEq, Repr

/-- The constraints of argument `i`; a variadic last argument repeats. -/
def FunctionSpec.argSpec (s : FunctionSpec) (i : ℕ) : ArgSpec :=
  s.args.getD i (s.args.getLast?.getD { name := "" })

/-- Argument `i` is a value of the call, and not a parameter of the function. -/
def FunctionSpec.isValue (s : FunctionSpec) (i : ℕ) : Bool := !(s.argSpec i).literal

/-- Accepted types in a message. -/
def joinTypes (types : List LogicalType) : String :=
  String.intercalate " or " (types.map LogicalType.text)

/-- The arguments with their positions. -/
def indexed {α : Type*} (args : List α) : List (ℕ × α) := args.zipIdx.map fun p => (p.2, p.1)

/-- The type of the first value that is not a literal. -/
def columnType (isValue : ℕ → Bool) : List (ArgType F) → Option ValueType
  | [] => none
  | a :: as =>
    if a.literal.isNone && isValue 0 then some a.type
    else columnType (fun i => isValue (i + 1)) as

/-- `sharedType` : every value has one type, and one of them is a column. -/
def sharedType (spec : FunctionSpec) (args : List (ArgType F)) : Except CheckError ValueType :=
  match columnType spec.isValue args with
  | none => .error ⟨none, spec.name ++ " expects at least one column"⟩
  | some shared =>
    if shared.logical = .unknown then .error ⟨none, spec.name ++ " expects at least one column"⟩
    else
      match (indexed args).find? fun p => spec.isValue p.1 && p.2.type ≠ shared with
      | some p =>
        .error ⟨some p.1, spec.name ++ " expects matching types, got " ++ shared.text ++ " and " ++
          p.2.type.text⟩
      | none => .ok shared

/-- The shared type of a function that needs one. -/
def sharedIf (spec : FunctionSpec) (args : List (ArgType F)) : Except CheckError ValueType :=
  if spec.sameType then sharedType spec args else .ok ⟨.unknown, 0, 0⟩

/-- The number of arguments a call needs. -/
def FunctionSpec.required (s : FunctionSpec) : ℕ :=
  (s.args.filter fun a => !a.optional && !a.variadic).length +
    (if s.args.getLast?.any ArgSpec.variadic then 1 else 0)

/-- The arity in a message. -/
def FunctionSpec.want (s : FunctionSpec) : String :=
  if s.args.getLast?.any ArgSpec.variadic then "at least " ++ toString s.required
  else if s.required ≠ s.args.length then toString s.required ++ " to " ++ toString s.args.length
  else toString s.required

/-- The check of one argument against its constraints. -/
def checkArg (spec : FunctionSpec) (i : ℕ) (arg : ArgType F) : Except CheckError Unit :=
  let a := spec.argSpec i
  if a.column ∧ arg.literal.isSome then
    .error ⟨some i, spec.name ++ " expects a column for " ++ a.name ++ ", got a literal"⟩
  else if a.literal ∧ arg.literal.isNone then
    .error ⟨some i, spec.name ++ " expects a literal for " ++ a.name ++ ", got a column"⟩
  else if a.types ≠ [] ∧ arg.type.logical ∉ a.types then
    .error ⟨some i, spec.name ++ " expects " ++ joinTypes a.types ++ " for " ++ a.name ++ ", got " ++
      arg.type.logical.text⟩
  else .ok ()

/-- The integer literal at an index, zero for any other argument. -/
def intAt (args : List (ArgType F)) (i : ℕ) : ℤ :=
  match args[i]? with
  | some ⟨_, some (.int x)⟩ => x.toInt
  | _ => 0

/-- The string literal at an index, empty for any other argument. -/
def stringAt (args : List (ArgType F)) (i : ℕ) : String :=
  match args[i]? with
  | some ⟨_, some (.string s)⟩ => s
  | _ => ""

/-- A rule about the literals; `regexp` compiles a pattern and reports the number of its groups. -/
def Rule.check (regexp : String → Except String ℕ) (name : String) (args : List (ArgType F)) :
    Rule → Except CheckError Unit
  | .positive i =>
    if i < args.length ∧ intAt args i < 1 then
      .error ⟨some i, name ++ " start must be 1 or more, got " ++ toString (intAt args i)⟩
    else .ok ()
  | .nonnegative argument i =>
    if i < args.length ∧ intAt args i < 0 then
      .error ⟨some i, name ++ " " ++ argument ++ " must be zero or more, got " ++
        toString (intAt args i)⟩
    else .ok ()
  | .validPattern i =>
    match regexp (stringAt args i) with
    | .ok _ => .ok ()
    | .error e => .error ⟨some i, name ++ " pattern: " ++ e⟩
  | .groupInPattern pi i =>
    match regexp (stringAt args pi) with
    | .ok groups =>
      if i < args.length ∧ (groups : ℤ) < intAt args i then
        .error ⟨some i, name ++ " pattern has " ++ toString groups ++ " groups, asked for " ++
          toString (intAt args i)⟩
      else .ok ()
    | .error _ => .ok ()

/-- `check` : the arity, the kind and type of every argument, the shared type and the function's own
rules; the result is the type of the call. -/
def Function.check (regexp : String → Except String ℕ) (fn : Function) (args : List (ArgType F)) :
    Except CheckError ValueType := do
  let spec := fn.spec
  Except.require (spec.required ≤ args.length ∧
      (spec.args.getLast?.any ArgSpec.variadic ∨ args.length ≤ spec.args.length))
    ⟨none, spec.name ++ " expects " ++ spec.want ++ " arguments, got " ++ toString args.length⟩
  (indexed args).forM fun p => checkArg spec p.1 p.2
  let shared ← sharedIf spec args
  fn.validate.forM fun rule => rule.check regexp spec.name args
  return if spec.returnsInput then shared else ⟨spec.returns, 0, 0⟩

/-- `bind` : a decimal that travels as text is compared as a number. -/
def Exec.bind (exec : Exec) (t : ValueType) : Kernel :=
  match exec with
  | .kernel o => .stored o
  | .comparison op => if textDecimal t then .compareDecimalText op else .stored (.compare op)

end Filament.Transform
