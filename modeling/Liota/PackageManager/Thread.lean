import Liota.PackageManager.Commands

namespace Liota.PackageManager

open Python Python.Computation Python.Text

variable {F : Type} (π : Platform F)

/-- What the commands `list` and `stat` print. -/
inductive Report
  | resources | threads | other
  deriving DecidableEq, Repr

/-- A message as `PackageThread.run` understands it. `ignored` covers every message that is
only answered by a warning. -/
inductive Request
  | load (fileName checksum : Str) (autoload : Bool)
  | reload (fileName checksum : Str) (autoload : Bool)
  | update (fileName checksum : Str) (autoload : Bool)
  | loadList (packages : List (Str × Str)) (autoload : Bool)
  | updateList (packages : List (Str × Str)) (autoload : Bool)
  | unload (fileName : Str)
  | unloadList (packages : List Str)
  | delete (fileName : Str)
  | deleteList (packages : List Str)
  | loadAuto
  | unloadAll
  | updateAll
  | terminate
  | report (what : Report)
  | ignored
  deriving DecidableEq, Repr

def pairs : List Str → List (Str × Str)
  | name :: checksum :: rest => (name, checksum) :: pairs rest
  | _ => []

/-- The arguments of `load`, `reload` and `update`, where `-r` may come first. -/
def parseLoading (single : Str → Str → Bool → Request)
    (batch : List (Str × Str) → Bool → Request) (args : List Str) : Request :=
  let autoload := args.head? = some "-r".toList
  match if autoload then args.tail else args with
  | [] => .ignored
  | [_] => .ignored
  | [fileName, checksum] => single fileName checksum autoload
  | list => if list.length % 2 = 0 then batch (pairs list) autoload else .ignored

def parseUnloading (single : Str → Request) (batch : List Str → Request) : List Str → Request
  | [] => .ignored
  | [fileName] => single fileName
  | list => batch list

def parseList : List Str → Request
  | [what] =>
    if what ∈ ["resources".toList, "res".toList] then .report .resources
    else if what ∈ ["threads".toList, "th".toList] then .report .threads
    else .report .other
  | _ => .ignored

def parseMessage : List Str → Request
  | [] => .ignored
  | command :: args =>
    if command = "load".toList then parseLoading .load .loadList args
    else if command = "reload".toList then parseLoading .reload (fun _ _ ↦ .ignored) args
    else if command = "update".toList then parseLoading .update .updateList args
    else if command = "unload".toList then parseUnloading .unload .unloadList args
    else if command = "delete".toList then parseUnloading .delete .deleteList args
    else if command = "list".toList then parseList args
    else if command = "stat".toList then (if args = [] then .ignored else .report .other)
    else if command = "load_auto".toList then .loadAuto
    else if command = "unload_all".toList then .unloadAll
    else if command = "update_all".toList then .updateAll
    else if command = "terminate".toList then .terminate
    else .ignored

/-- Registered identifiers are joined to be printed, and threads are printed with their names. -/
def Report.Printable (s : State F) : Report → Prop
  | .resources => ∀ identifier ∈ s.resourceRegistry.registry, π.isText identifier = true
  | .threads => π.listsThreads s.tick = true
  | .other => True

instance (s : State F) : (what : Report) → Decidable (what.Printable π s)
  | .resources => inferInstanceAs (Decidable
      (∀ identifier ∈ s.resourceRegistry.registry.keys, π.isText identifier = true))
  | .threads => inferInstanceAs (Decidable (_ = _))
  | .other => instDecidableTrue

def report (what : Report) : Manager F Bool := fun s ↦
  if what.Printable π s then (.ok true, s) else (.raised .typeError, s)

variable {π} in
@[simp] theorem report_snd (what : Report) (s : State F) : (report π what s).2 = s := by
  unfold report
  split <;> rfl

/-- Carry out a request; `false` ends the loop of the thread. `update_all` calls
`_package_update_list` without its second argument, which is a `TypeError`. -/
def perform : Request → Manager F Bool
  | .load fileName checksum autoload => do
    let _ ← packageLoad π fileName (some checksum) autoload none
    pure true
  | .reload fileName checksum autoload => do
    let _ ← packageReload π fileName checksum autoload
    pure true
  | .update fileName checksum autoload => do
    let _ ← packageUpdate π fileName checksum autoload
    pure true
  | .loadList packages autoload => do
    let _ ← packageLoadList π packages autoload
    pure true
  | .updateList packages autoload => do
    let _ ← packageUpdateList π packages autoload
    pure true
  | .unload fileName => do
    let _ ← packageUnload π fileName []
    pure true
  | .unloadList packages => do
    let _ ← packageUnloadList π packages []
    pure true
  | .delete fileName => do
    let _ ← packageDelete π fileName
    pure true
  | .deleteList packages => do
    let _ ← packageDeleteList π packages
    pure true
  | .loadAuto => do
    packageLoadAuto π
    pure true
  | .unloadAll => do
    let s ← Py.get
    let _ ← packageUnloadList π (loadedNames π s) []
    pure true
  | .updateAll => Py.raise .typeError
  | .terminate => do
    let terminated ← terminateAll π
    pure (!terminated)
  | .report what => report π what
  | .ignored => pure true

inductive Status
  | starting | running | exited
  | crashed (e : PyErr)
  | hung
  deriving DecidableEq, Repr

def Status.after : Outcome Bool → Status
  | .ok true => .running
  | .ok false => .exited
  | .raised e => .crashed e
  | .diverged => .hung

structure Thread (F : Type) where
  state : State F
  status : Status

def handled (request : Request) (s : State F) : Thread F :=
  ⟨(perform π request s).2, .after (perform π request s).1⟩

/-- The states that `PackageThread` can reach. Between its steps the package files and the
start-up list may be replaced by anything; `files` restricts the package files that ever occur
and `condition` the requests that are made, each in the state it meets. -/
inductive Reachable (files : FileSystem F → Prop) (condition : State F → Request → Prop) :
    Thread F → Prop
  | init {fs : FileSystem F} {startupList : Option Str} (hfs : files fs) :
      Reachable files condition ⟨State.initial π fs startupList, .starting⟩
  | environment {s : State F} {status : Status} {fs : FileSystem F} {startupList : Option Str}
      (h : Reachable files condition ⟨s, status⟩) (hfs : files fs) :
      Reachable files condition ⟨{ s with fs := fs, startupList := startupList }, status⟩
  | start {s : State F} (h : Reachable files condition ⟨s, .starting⟩)
      (hs : condition s .loadAuto) : Reachable files condition (handled π .loadAuto s)
  | message {s : State F} {msg : List Str} (h : Reachable files condition ⟨s, .running⟩)
      (hmsg : msg ≠ []) (hs : condition s (parseMessage msg)) :
      Reachable files condition (handled π (parseMessage msg) s)

def boot (fs : FileSystem F) (startupList : Option Str) : Thread F :=
  handled π .loadAuto (State.initial π fs startupList)

/-- The loop of the thread over the messages that it finds in its queue. -/
def serve : List (List Str) → Thread F → Thread F
  | [], t => t
  | msg :: rest, t =>
    match t.status with
    | .running => serve rest (handled π (parseMessage msg) t.state)
    | _ => t

theorem reachable_serve {files : FileSystem F → Prop} (msgs : List (List Str))
    (hmsgs : ∀ msg ∈ msgs, msg ≠ []) {t : Thread F}
    (ht : Reachable π files (fun _ _ ↦ True) t) :
    Reachable π files (fun _ _ ↦ True) (serve π msgs t) := by
  induction msgs generalizing t with
  | nil => exact ht
  | cons msg rest ih =>
    obtain ⟨s, status⟩ := t
    rw [serve]
    cases status with
    | running =>
      exact ih (fun m hm ↦ hmsgs m (by simp [hm])) (.message ht (hmsgs msg (by simp)) trivial)
    | starting | exited | crashed | hung => exact ht

theorem Reachable.next {files : FileSystem F → Prop} {condition : State F → Request → Prop}
    {t : Thread F} (ht : Reachable π files condition t) (hrunning : t.status = .running)
    {msg : List Str} (hmsg : msg ≠ []) (hs : condition t.state (parseMessage msg)) :
    Reachable π files condition (handled π (parseMessage msg) t.state) := by
  obtain ⟨s, status⟩ := t
  obtain rfl : status = .running := hrunning
  exact .message ht hmsg hs

theorem Reachable.replaceFiles {files : FileSystem F → Prop}
    {condition : State F → Request → Prop} {t : Thread F} (ht : Reachable π files condition t)
    {fs : FileSystem F} (hfs : files fs) (startupList : Option Str) :
    Reachable π files condition
      ⟨{ t.state with fs := fs, startupList := startupList }, t.status⟩ := by
  obtain ⟨s, status⟩ := t
  exact .environment ht hfs

theorem reachable_boot {files : FileSystem F → Prop} {fs : FileSystem F} (hfs : files fs)
    (startupList : Option Str) :
    Reachable π files (fun _ _ ↦ True) (boot π fs startupList) :=
  .start (.init hfs) trivial

end Liota.PackageManager
