import CodeCompletion.Settings.Basic

/-! Settings as a table of names and values, whatever notation the table was written in. A name
that is missing keeps its default, and names that mean nothing here are ignored. -/
namespace CodeCompletion

inductive SettingValue where
  | bool (value : Bool)
  | integer (value : Int)
  | text (value : String)
  | table (entries : List (String × SettingValue))
  /-- A value that suits no setting. -/
  | other
deriving Inhabited

abbrev SettingTable := List (String × SettingValue)

inductive SettingsError where
  /-- A line, counted from one, that is not written as it should be. -/
  | unreadable (line : Nat)
  | repeated (name : String)
  | unsuitable (name : String)
deriving DecidableEq

def SettingsError.message : SettingsError → String
  | unreadable line => "line " ++ toString line ++ " cannot be read"
  | repeated name => "'" ++ name ++ "' is given twice"
  | unsuitable name => "'" ++ name ++ "' has an unsuitable value"

namespace SettingTable

/-- The setting of a name: the default when it is missing, an error when it does not suit. -/
def read {α : Type} (table : SettingTable) (name : String) (default : α)
    (suits : SettingValue → Option α) : Except SettingsError α :=
  match table.lookup name with
  | none => .ok default
  | some value => (suits value).elim (.error (.unsuitable name)) .ok

def maxCount : Nat := 0xffffffffffffffff

def bool? : SettingValue → Option Bool
  | .bool value => some value
  | _ => none

def count? : SettingValue → Option Nat
  | .integer value =>
    if 0 ≤ value ∧ value.toNat ≤ maxCount then some value.toNat else none
  | _ => none

def policy? : SettingValue → Option RefreshPolicy
  | .text value => RefreshPolicy.ofName? value
  | _ => none

def table? : SettingValue → Option SettingTable
  | .table entries => some entries
  | _ => none

def limits (table : SettingTable) : Except SettingsError Limits := do
  let standard : Limits := {}
  let walkSteps ← read table "max_walk_steps" standard.walkSteps count?
  let shapeDepth ← read table "max_shape_depth" standard.shapeDepth count?
  let literalDepth ← read table "max_literal_depth" standard.literalDepth count?
  let prototypeDepth ← read table "max_prototype_depth" standard.prototypeDepth count?
  return { walkSteps, shapeDepth, literalDepth, prototypeDepth }

def settings (table : SettingTable) : Except SettingsError Settings := do
  let standard : Settings := {}
  let refresh ← read table "rebuild" standard.refresh policy?
  let keywords ← read table "keywords" standard.keywords bool?
  let sandbox ← read table "sandbox" standard.sandbox bool?
  let limits ← limits (← read table "limits" [] table?)
  return { refresh, keywords, sandbox, limits }

end SettingTable

end CodeCompletion
