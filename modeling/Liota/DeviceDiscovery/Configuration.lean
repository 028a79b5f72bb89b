import Liota.DeviceDiscovery.Concurrent
import Liota.Python.Regex

namespace Liota.DeviceDiscovery

open Python Python.Computation Python.Text Interleaving DiscListeners

/-- An option of a section, as `config.items` gives it. -/
abbrev Item := Str × Str

/-- The options that the loops over the sections do not pass over. -/
def admitted (item : Item) : Bool := typeSafe item.1 && item.2 ≠ "None".toList

def strip (text : Str) : Str := (text.dropWhile Regex.isSpace).rdropWhile Regex.isSpace

/-- `[x.strip() for x in value.split(',')]` -/
def dccList (value : Str) : List Str := (value.splitOn ',').map strip

/-- What `_get_config_from_file` makes of the sections for device types. -/
structure Mappings where
  typeKeyMap : Dict Str
  typeDccMap : Dict (List Str)
  typeTupleKeyDccPkg : Dict (Str × List Str)

def configured (items : List Item) (key : Str) : Option Str :=
  ((items.filter fun item ↦ admitted item ∧ item.1 = key).getLast?).map Prod.snd

section Sections

variable {uniqueKeys dccs : List Item} {m : Mappings}

/-- The maps of the configuration say what the sections say, and each type with DCCs has a unique
key. -/
structure Mappings.Reads (m : Mappings) (uniqueKeys dccs : List Item) : Prop where
  uniqueKey : ∀ key, m.typeKeyMap.lookup key = configured uniqueKeys key
  dcc : ∀ key, m.typeDccMap.lookup key = (configured dccs key).map dccList
  both : ∀ key, m.typeTupleKeyDccPkg.lookup key = (configured dccs key).bind fun value ↦
    (configured uniqueKeys key).map fun uniqueKey ↦ (uniqueKey, dccList value)
  mapped : ∀ key, (configured dccs key).isSome → (configured uniqueKeys key).isSome

end Sections

section Devices

variable {c : Config} {answers : ℕ → Answer}

end Devices

section Example

end Example

end Liota.DeviceDiscovery
