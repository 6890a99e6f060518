import Mathlib.Data.List.Basic

/-!
# Rows and schemas

The connector-neutral row model: the change kinds a row carries and the column layout of a
resource (package `rowmodel`).
-/

namespace Filament

/-- The change kind carried by a row. -/
inductive Operation where
  | opInsert
  | opUpdate
  | opDelete
  deriving DecidableEq, Repr

/-- One portable column and its source-native spelling. -/
structure Field where
  name : String
  nullable : Bool := true
  logical : String := ""
  native : String := ""
  precision : ℕ := 0
  scale : ℕ := 0
  deriving DecidableEq, Repr

/-- One resource's column layout. -/
structure Schema where
  resource : String
  fields : List Field
  primaryKey : List String
  deriving DecidableEq, Repr

end Filament
