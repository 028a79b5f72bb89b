import Liota.PackageManager.Messenger
import Liota.PackageManager.Persistence

namespace Liota.PackageManager

open Python Python.Computation Python.Text

variable {F : Type}

/-- The two threads of the manager: the lines that the messenger has read and not handled yet,
`package_message_queue` with what was put and not taken yet, and `PackageThread`. -/
structure Daemon (F : Type) where
  lines : List Str
  messenger : Messenger
  thread : Thread F

namespace Daemon

inductive Action
  | starts
  | reads (text : Str)
  | puts
  | takes
  deriving DecidableEq, Repr

/-- One step of one of the threads. The messenger opens the pipe again when it has handled all
lines, and the other thread waits for the queue. -/
def step (π : Platform F) : Action → Daemon F → Option (Daemon F)
  | .starts, d =>
    if d.thread.status = .starting then
      some { d with thread := handled π .loadAuto d.thread.state }
    else none
  | .reads text, d =>
    if d.messenger.alive ∧ d.lines = [] then some { d with lines := readlines text } else none
  | .puts, d =>
    match d.lines with
    | [] => none
    | line :: rest =>
      if line.splitOn ',' = [terminateText] then
        some { d with lines := [], messenger := { d.messenger with alive := false } }
      else
        some { d with
          lines := rest
          messenger := { d.messenger with queue := d.messenger.queue ++ [line.splitOn ','] } }
  | .takes, d =>
    match d.thread.status, d.messenger.queue with
    | .running, msg :: rest =>
      some { d with
        messenger := { d.messenger with queue := rest }
        thread := handled π (parseMessage msg) d.thread.state }
    | _, _ => none

def initial (π : Platform F) (fs : FileSystem F) (startupList : Option Str) : Daemon F where
  lines := []
  messenger := ⟨[], true⟩
  thread := ⟨State.initial π fs startupList, .starting⟩

def run (π : Platform F) : List Action → Daemon F → Option (Daemon F)
  | [], d => some d
  | a :: rest, d => (step π a d).bind (run π rest)

def Action.text : Action → Option Str
  | .reads text => some text
  | _ => none

def texts (actions : List Action) : List Str := actions.filterMap Action.text

def waiting (d : Daemon F) : List (List Str) := d.messenger.queue ++ Messenger.messages d.lines

/-- What was read has been carried out, one message after the other, or is waiting. -/
structure Serves (π : Platform F) (fs : FileSystem F) (startupList : Option Str)
    (read : List Str) (taken : List (List Str)) (d : Daemon F) : Prop where
  received : Messenger.received read = taken ++ d.waiting
  alive : d.messenger.alive = true → ∀ text ∈ read, ∀ line ∈ readlines text,
    line.splitOn ',' = [terminateText] → line ∈ d.lines
  thread : d.thread = ⟨State.initial π fs startupList, .starting⟩ ∧ taken = [] ∨
    d.thread = serve π taken (boot π fs startupList)

section Steps

variable {π : Platform F} {fs : FileSystem F} {startupList : Option Str} {read : List Str}
  {taken : List (List Str)} {d d' : Daemon F}

theorem received_concat {read : List Str} (text : Str)
    (h : ∀ t ∈ read, ∀ line ∈ readlines t, line.splitOn ',' ≠ [terminateText]) :
    Messenger.received (read ++ [text]) =
      Messenger.received read ++ Messenger.messages (readlines text) := by
  induction read with
  | nil => simp [Messenger.received]
  | cons first rest ih =>
    have hfirst : ¬ ∃ line ∈ readlines first, line.splitOn ',' = [terminateText] := by
      rintro ⟨line, hline, heq⟩
      exact h first List.mem_cons_self line hline heq
    rw [List.cons_append, Messenger.received, Messenger.received, if_neg hfirst, if_neg hfirst,
      ih fun t ht ↦ h t (List.mem_cons_of_mem _ ht), List.append_assoc]

theorem Serves.initial : Serves π fs startupList [] [] (initial π fs startupList) where
  received := rfl
  alive _ _ h := by cases h
  thread := .inl ⟨rfl, rfl⟩

theorem handled_ne_starting (π : Platform F) (request : Request) (s : State F) :
    (handled π request s).status ≠ .starting := by
  rw [handled]
  cases (perform π request s).1 with
  | ok b => cases b <;> simp [Status.after]
  | raised e => simp [Status.after]
  | diverged => simp [Status.after]

theorem serve_ne_starting (msgs : List (List Str)) {t : Thread F} (h : t.status ≠ .starting) :
    (serve π msgs t).status ≠ .starting := by
  induction msgs generalizing t with
  | nil => exact h
  | cons msg rest ih =>
    rw [serve]
    split
    · exact ih (handled_ne_starting π (parseMessage msg) t.state)
    · exact h

theorem messages_cons (line : Str) (rest : List Str) :
    Messenger.messages (line :: rest) =
      if line.splitOn ',' = [terminateText] then []
      else line.splitOn ',' :: Messenger.messages rest := by
  rw [Messenger.messages, List.map_cons, List.takeWhile_cons]
  split
  · next h => rw [if_neg (by simpa using h)]; rfl
  · next h => rw [if_pos (by simpa using h)]

theorem Serves.starts (h : Serves π fs startupList read taken d)
    (hstep : step π .starts d = some d') : Serves π fs startupList read taken d' := by
  rw [step] at hstep
  split at hstep
  · next hstarting =>
    cases hstep
    refine ⟨h.received, h.alive, .inr ?_⟩
    rcases h.thread with ⟨hthread, rfl⟩ | hthread
    · rw [hthread]
      rfl
    · rw [hthread] at hstarting
      have hboot := handled_ne_starting π .loadAuto (State.initial π fs startupList)
      exact absurd hstarting (serve_ne_starting taken hboot)
  · cases hstep

theorem Serves.reads (h : Serves π fs startupList read taken d) {text : Str}
    (hstep : step π (.reads text) d = some d') :
    Serves π fs startupList (read ++ [text]) taken d' := by
  rw [step] at hstep
  split at hstep
  · next hready =>
    obtain ⟨halive, hlines⟩ := hready
    cases hstep
    have hnone : ∀ t ∈ read, ∀ line ∈ readlines t, line.splitOn ',' ≠ [terminateText] := by
      intro t ht line hline heq
      have hmem := h.alive halive t ht line hline heq
      rw [hlines] at hmem
      cases hmem
    refine ⟨?_, fun _ t ht line hline heq ↦ ?_, h.thread⟩
    · have hwaiting : d.waiting = d.messenger.queue := by
        rw [waiting, hlines]
        exact List.append_nil _
      rw [received_concat text hnone, h.received, hwaiting, List.append_assoc]
      rfl
    · rcases List.mem_append.mp ht with ht | ht
      · exact absurd heq (hnone t ht line hline)
      · rwa [← List.mem_singleton.mp ht]
  · cases hstep

theorem Serves.puts (h : Serves π fs startupList read taken d)
    (hstep : step π .puts d = some d') : Serves π fs startupList read taken d' := by
  rw [step] at hstep
  split at hstep
  · cases hstep
  · next line rest hlines =>
    have hreceived := h.received
    rw [waiting, hlines, messages_cons] at hreceived
    split at hstep
    · next hend =>
      cases hstep
      rw [if_pos hend] at hreceived
      exact ⟨hreceived, fun hdead ↦ Bool.noConfusion hdead, h.thread⟩
    · next hgo =>
      cases hstep
      rw [if_neg hgo] at hreceived
      refine ⟨?_, fun halive t ht l hl heq ↦ ?_, h.thread⟩
      · rw [hreceived, waiting, List.append_assoc, List.singleton_append]
      · have hmem := h.alive halive t ht l hl heq
        rw [hlines] at hmem
        rcases List.mem_cons.mp hmem with rfl | hmem
        · exact absurd heq hgo
        · exact hmem

theorem Serves.takes (h : Serves π fs startupList read taken d)
    (hstep : step π .takes d = some d') :
    ∃ msg, Serves π fs startupList read (taken ++ [msg]) d' := by
  rw [step] at hstep
  split at hstep
  · next msg rest hrunning hqueue =>
    cases hstep
    refine ⟨msg, ?_, h.alive, .inr ?_⟩
    · rw [h.received, waiting, hqueue, List.append_assoc]
      rfl
    · rcases h.thread with ⟨hthread, -⟩ | hthread
      · rw [hthread] at hrunning
        cases hrunning
      · rw [hthread] at hrunning
        rw [Catalogue.serve_append taken [msg] _ hrunning, serve, hrunning, hthread]
        rfl
  · cases hstep

/-- However the two threads take turns, `PackageThread` has carried out the first messages of what
was read, in order and each once, and the others are waiting. -/
theorem Serves.run {actions : List Action} (h : Serves π fs startupList read taken d)
    (hrun : run π actions d = some d') :
    ∃ taken', Serves π fs startupList (read ++ texts actions) taken' d' := by
  induction actions generalizing read taken d with
  | nil =>
    cases hrun
    rw [texts, List.filterMap_nil, List.append_nil]
    exact ⟨taken, h⟩
  | cons a rest ih =>
    obtain ⟨d₁, hstep, hrest⟩ := Option.bind_eq_some_iff.mp hrun
    cases a with
    | starts => exact ih (h.starts hstep) hrest
    | reads text =>
      have hnext := ih (h.reads hstep) hrest
      rwa [List.append_assoc] at hnext
    | puts => exact ih (h.puts hstep) hrest
    | takes =>
      obtain ⟨msg, htaken⟩ := h.takes hstep
      exact ih htaken hrest

theorem progress (hthread : d.thread.status = .starting ∨ d.thread.status = .running)
    (hwaiting : d.waiting ≠ []) :
    ∃ a ∈ [Action.starts, .puts, .takes], (step π a d).isSome := by
  rcases hthread with hstarting | hrunning
  · refine ⟨.starts, by simp, ?_⟩
    rw [step, if_pos hstarting]
    rfl
  cases hqueue : d.messenger.queue with
  | cons msg rest =>
    refine ⟨.takes, by simp, ?_⟩
    rw [step, hrunning, hqueue]
    rfl
  | nil =>
    refine ⟨.puts, by simp, ?_⟩
    cases hlines : d.lines with
    | nil =>
      rw [waiting, hqueue, hlines] at hwaiting
      exact absurd rfl hwaiting
    | cons line rest =>
      rw [step, hlines]
      dsimp only
      split
      · rfl
      · rfl

end Steps

section Commands

variable {π : Platform F} {fs : FileSystem F} {startupList : Option Str} {echo : Str → Str}

/-- From the command line to the loaded packages: of the commands that were sent, each read on its
own, the first ones have been carried out as the ledger says, the others are waiting, and as long
as there are such one of the threads can go on. -/
theorem commands_carried_out (C : Catalogue π fs) {recorded : Set C.Package}
    (hlist : C.Lists startupList recorded) {groups : List (List (List Str))}
    (hargs : ∀ group ∈ groups, ∀ args ∈ group, Separable args)
    (hread : ∀ group ∈ groups, Readable echo group)
    (hhandles : ∀ group ∈ groups, ∀ args ∈ group, C.Handles (parseMessage args))
    {actions : List Action} (htexts : texts actions = groups.map (pipeText echo)) {d : Daemon F}
    (hrun : run π actions (initial π fs startupList) = some d) :
    ∃ taken, groups.flatten = taken ++ d.waiting ∧
      (d.thread.status = .starting ∧ taken = [] ∨ d.thread.status = .running ∧
        C.Keeps d.thread.state ((Catalogue.Ledger.start recorded).serve taken)) ∧
      (d.waiting ≠ [] → ∃ a ∈ [Action.starts, .puts, .takes], (step π a d).isSome) := by
  obtain ⟨taken, h⟩ := Serves.run Serves.initial hrun
  have hreceived := h.received
  rw [List.nil_append, htexts, (received_eq_flatten_iff hargs).mpr hread] at hreceived
  have hthread : d.thread.status = .starting ∧ taken = [] ∨ d.thread.status = .running ∧
      C.Keeps d.thread.state ((Catalogue.Ledger.start recorded).serve taken) := by
    rcases h.thread with ⟨hstart, hnil⟩ | hserved
    · left
      rw [hstart]
      exact ⟨rfl, hnil⟩
    · right
      obtain ⟨hrunning, hkeeps⟩ := hlist.boot
      rw [hserved]
      apply hkeeps.serve taken _ hrunning
      intro msg hmsg
      have hmem : msg ∈ groups.flatten := by
        rw [hreceived]
        exact List.mem_append_left _ hmsg
      obtain ⟨group, hgroup, hmsg⟩ := List.mem_flatten.mp hmem
      exact hhandles group hgroup msg hmsg
  refine ⟨taken, hreceived, hthread, progress ?_⟩
  exact hthread.imp And.left And.left

end Commands

section Shared

theorem run_app :
    run scriptPlatform [.starts, .reads (pipeText id [words "load -r app 2"]), .puts, .takes]
        (initial scriptPlatform (scriptFiles sharedScripts) (some [])) =
      some ⟨[], ⟨[], true⟩, handled scriptPlatform (parseMessage (words "load -r app 2"))
        (boot scriptPlatform (scriptFiles sharedScripts) (some [])).state⟩ := by
  have hlines : readlines (pipeText id [words "load -r app 2"]) =
      [commaSeparatedArgs (words "load -r app 2")] := by decide
  have hwords : (commaSeparatedArgs (words "load -r app 2")).splitOn ',' =
      words "load -r app 2" := by decide
  have hgo : words "load -r app 2" ≠ [terminateText] := by decide
  obtain ⟨hrunning, -⟩ := lists_nothing.boot
  have hstarts : step scriptPlatform .starts
      (initial scriptPlatform (scriptFiles sharedScripts) (some [])) =
      some ⟨[], ⟨[], true⟩, boot scriptPlatform (scriptFiles sharedScripts) (some [])⟩ := rfl
  rw [run, hstarts, Option.bind_some, run, step, if_pos ⟨rfl, rfl⟩, hlines, Option.bind_some, run,
    step]
  dsimp only
  rw [hwords, if_neg hgo, Option.bind_some, run, step, hrunning]
  rfl

theorem commands_carried_out_app :
    ∃ d, run scriptPlatform [.starts, .reads (pipeText id [words "load -r app 2"]), .puts, .takes]
        (initial scriptPlatform (scriptFiles sharedScripts) (some [])) = some d ∧
      sharedCatalogue.Keeps d.thread.state
        ((Catalogue.Ledger.start ∅).serve [words "load -r app 2"]) := by
  have hargs : ∀ group ∈ [[words "load -r app 2"]], ∀ args ∈ group, Separable args := by
    unfold Separable
    decide
  have hread : ∀ group ∈ [[words "load -r app 2"]], Readable id group := by
    intro group hgroup
    obtain rfl := List.mem_singleton.mp hgroup
    exact .inr ⟨_, rfl, rfl, by decide, by decide⟩
  have hhandles : ∀ group ∈ [[words "load -r app 2"]], ∀ args ∈ group,
      sharedCatalogue.Handles (parseMessage args) := by
    intro group hgroup args hmem
    obtain rfl := List.mem_singleton.mp hgroup
    obtain rfl := List.mem_singleton.mp hmem
    rw [parse_record_app]
    exact knows_app
  obtain ⟨taken, hflatten, hthread, -⟩ :=
    commands_carried_out sharedCatalogue lists_nothing hargs hread hhandles rfl run_app
  obtain rfl : [words "load -r app 2"] = taken := hflatten.trans (List.append_nil taken)
  rcases hthread with ⟨-, hnil⟩ | ⟨-, hkeeps⟩
  · cases hnil
  · exact ⟨_, run_app, hkeeps⟩

end Shared

end Daemon

end Liota.PackageManager
