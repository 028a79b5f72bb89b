import Liota.PackageManager.UnloadExact

namespace Liota.PackageManager

open Python Python.Computation Python.Text Relation

variable {F : Type} {π : Platform F}

theorem removePackageFromAutoload_terminates (name : Str) :
    Terminates (removePackageFromAutoload (F := F) name) := by
  intro s
  unfold removePackageFromAutoload
  split
  · simp
  · split <;> simp

end Liota.PackageManager
