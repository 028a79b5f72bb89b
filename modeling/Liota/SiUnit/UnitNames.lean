import Liota.Python.Phrases

namespace Liota.SiUnit

open Python Python.Regex
open Python.Text (Str)

def IsUnitName (w : Str) : Prop :=
  w ≠ [] ∧ (∀ c ∈ w, isWord c) ∧ w.head?.any Char.isDigit = false ∧ w ≠ "dimensionless".toList

instance (w : Str) : Decidable (IsUnitName w) :=
  have : Decidable (∀ c ∈ w, isWord c) := List.decidableBAll _ w
  inferInstanceAs (Decidable (_ ∧ _ ∧ _ ∧ _))

structure Factor where
  name : Str
  power : ℕ
  isUnitName : IsUnitName name
  power_pos : 0 < power

/-- A unit of pint: the factors with positive powers and those with negative powers. -/
structure PintUnit where
  numerator : List Factor
  denominator : List Factor

def Factor.str (f : Factor) : Str :=
  if f.power = 1 then f.name else f.name ++ (" ** ".toList ++ Nat.toDigits 10 f.power)

/-- `str(unit)`, as pint formats it -/
def PintUnit.str (u : PintUnit) : Str :=
  if u.numerator = [] ∧ u.denominator = [] then "dimensionless".toList
  else
    (if u.numerator = [] then "1".toList
      else " * ".toList.intercalate (u.numerator.map Factor.str)) ++
    u.denominator.flatMap fun f ↦ " / ".toList ++ f.str

/-- The keys of `re_obj_replaces`. -/
inductive Replace
  | meter | degC | becquerel | gray | squared | cubed | fourth | reciprocal | times
deriving DecidableEq

def Replace.pattern : Replace → Regex
  -- `\bmeter\b`
  | .meter => bounded "meter".toList
  -- `\bdegC\b`
  | .degC => bounded "degC".toList
  -- `Bq\b`
  | .becquerel => ending "Bq".toList
  -- `Gy\b`
  | .gray => ending "Gy".toList
  -- `\*\*\s2\b`
  | .squared => ending "** 2".toList
  -- `\*\*\s3\b`
  | .cubed => ending "** 3".toList
  -- `\*\*\s4\b`
  | .fourth => ending "** 4".toList
  -- `\b1\s\/\s(meter|metre)`
  | .reciprocal =>
    .seq .boundary (.seq (spaced "1 / ".toList) (either "meter".toList "metre".toList))
  -- `\s\*\s`
  | .times => spaced " * ".toList

/-- What takes the place of a match; `g` is what the group matched. -/
def Replace.repl : Replace → Str → Str
  | .meter, _ => "metre".toList
  | .degC, _ => "degree Celsius".toList
  | .becquerel, _ => "becquerel".toList
  | .gray, _ => "gray".toList
  | .squared, _ => "squared".toList
  | .cubed, _ => "cubed".toList
  | .fourth, _ => "to the fourth power".toList
  | .reciprocal, g => "reciprocal ".toList ++ g
  | .times, _ => " ".toList

def reObjReplaces : List Replace :=
  [.meter, .degC, .becquerel, .gray, .squared, .cubed, .fourth, .reciprocal, .times]

/-- The keys of `re_obj_patches`. -/
inductive Patch
  | squareMetre | cubicMetre | kilogram | metre | mole | newtonMetre
deriving DecidableEq

def Patch.pattern : Patch → Regex
  -- `metre\ssquared`
  | .squareMetre => spaced "metre squared".toList
  -- `metre\scubed`
  | .cubicMetre => spaced "metre cubed".toList
  -- `(kelvin|degree\sCelsius)\skilogram`
  | .kilogram =>
    .seq (either "kelvin".toList "degree Celsius".toList) (spaced " kilogram".toList)
  -- `(kelvin|degree\sCelsius)\smetre`
  | .metre => .seq (either "kelvin".toList "degree Celsius".toList) (spaced " metre".toList)
  -- `(kelvin|degree\sCelsius)\smole`
  | .mole => .seq (either "kelvin".toList "degree Celsius".toList) (spaced " mole".toList)
  -- `metre\snewton`
  | .newtonMetre => spaced "metre newton".toList

def Patch.repl : Patch → Str → Str
  | .squareMetre, _ => "square metre".toList
  | .cubicMetre, _ => "cubic metre".toList
  | .kilogram, g => "kilogram ".toList ++ g
  | .metre, g => "metre ".toList ++ g
  | .mole, g => "mole ".toList ++ g
  | .newtonMetre, _ => "newton metre".toList

def reObjPatches : List Patch :=
  [.squareMetre, .cubicMetre, .kilogram, .metre, .mole, .newtonMetre]

structure UnsupportedUnitError where
  unitSpecs : PintUnit

/-- `\*\*\s\-?\d` -/
def higherPower : Regex :=
  .seq (spaced "** ".toList) (.seq (.alt (spaced "-".toList) .empty) (.char Char.isDigit))

/-- `\d` -/
def digit : Regex := .char Char.isDigit

/-- `\s\/\s` -/
def division : Regex := spaced " / ".toList

def applyReplaces (replaces : List Replace) (text : Str) : Str :=
  replaces.foldl (fun text re ↦ re.pattern.sub re.repl text) text

def applyPatches (patches : List Patch) (text : Str) : Str :=
  patches.foldl (fun text re ↦ re.pattern.sub re.repl text) text

def readDivisions (text : Str) : Str :=
  division.subOnce (fun _ ↦ " ".toList) (division.subOnce (fun _ ↦ " per ".toList) text)

/-- `_get_unit_name`, where the two dictionaries give their items in these orders. -/
def getUnitName (replaces : List Replace) (patches : List Patch) :
    Option PintUnit → Except UnsupportedUnitError (Option Str)
  | none => .ok none
  | some unit =>
    if unit.str = "dimensionless".toList then .ok none
    else
      let text := applyReplaces replaces unit.str
      if higherPower.search text then .error ⟨unit⟩
      else if digit.search text then .error ⟨unit⟩
      else .ok (some (applyPatches patches (readDivisions text)))

end Liota.SiUnit
