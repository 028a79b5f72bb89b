import Mathlib.Algebra.Order.Ring.Rat
import Mathlib.Order.WithBot
import Liota.Python.Heapq
import Liota.Python.Number
import Liota.Dccs.FormatData

namespace Liota.MetricHandler

open Python Python.Text Python.Heapq Dccs

variable {M V : Type}

inductive Collected (V : Type)
  | none
  | list (samples : List (Sample V))
  | tuple (sample : Sample V)
  | value (v : V)
  deriving DecidableEq

/-- What `add_collected_data` puts into the queue of values. -/
def Collected.samples (now : ℤ) : Collected V → List (Sample V)
  | .none => []
  | .list samples => samples
  | .tuple sample => [sample]
  | .value v => [(now, v)]

/-- How far the one call of `start_collecting` has got. -/
inductive Phase
  | created
  | flagged
  | scheduled
  | started
  deriving DecidableEq

/-- The attributes of a `RegisteredMetric`. The fields from `phase` on are ghosts: the progress of
`start_collecting` and the time it read, how often `collect` returned, the sampling function was
called and `send_data` was called, all samples put into `values`, and the messages passed to
`comms.send`. -/
structure RegisteredMetric (V : Type) where
  flagAlive : Bool := false
  nextRunTime : ℚ := 0
  currentAggregationSize : ℕ := 0
  values : List (Sample V) := []
  collectedData : Collected V := .none
  phase : Phase := .created
  startTime : ℤ := 0
  collections : ℕ := 0
  samplings : ℕ := 0
  sendings : ℕ := 0
  stored : List (Sample V) := []
  sent : List (Message V) := []

/-- What does not change: the metric entities, their data centre components, and `str` of a
value. -/
structure Config (M V : Type) where
  name : M → Str
  interval : M → Number
  aggregationSize : M → ℤ
  dcc : M → Dcc
  str : V → Str

/-- What is put into `event_ds` and `send_queue`. -/
inductive Item (M : Type)
  | metric (m : M)
  | systemExit
  deriving DecidableEq

/-- The order of `__cmp__`: by next run time, and `SystemExit` after every metric. -/
def Item.key (time : M → ℚ) : Item M → WithTop ℚ
  | .metric m => (time m : WithTop ℚ)
  | .systemExit => ⊤

/-- The program points of `EventCheckerThread`. From `looking` to `popping` it holds the lock of
`event_ds`, except while it waits: on a metric until its next run time, or on an empty queue. -/
inductive Checker (M : Type)
  | idle
  | looking
  | waiting (first : Option (M × ℚ)) (notified : Bool)
  | testing (first : Item M)
  | popping
  | returned (item : Item M)
  | putting (m : M)
  | exited
  deriving DecidableEq

/-- The program points of a `CollectionThread`, from `collect_queue.get()` on. -/
inductive Worker (M V : Type)
  | idle
  | taken (m : M)
  | checked (m : M)
  | sampling (m : M)
  | sampled (m : M)
  | adding (m : M) (rest : List (Sample V)) (added : ℕ)
  | counting (m : M) (added : ℕ)
  | storing (m : M) (size : ℕ)
  | collected (m : M)
  | scheduling (m : M)
  | returning (m : M)
  | testing (m : M)
  | queueing (m : M)
  | resetting (m : M)
  | dead
  deriving DecidableEq

/-- The program points of `SendThread`; `draining` is the loop of `_format_data`, with the samples
taken so far. -/
inductive Sender (M V : Type)
  | idle
  | getting
  | taken (item : Item M)
  | checked (m : M)
  | sending (m : M)
  | publishing (m : M)
  | draining (m : M) (left : ℕ) (samples : List (Sample V))
  | exited
  deriving DecidableEq

structure State (M V : Type) where
  clock : ℤ
  metrics : M → RegisteredMetric V
  eventDs : List (Item M)
  collectQueue : List M
  sendQueue : List (Item M)
  checker : Checker M
  checkerAlive : Bool
  workers : List (Worker M V)
  sender : Sender M V
  senderAlive : Bool

namespace State

/-- After `initialize()` with a pool of `n` collection threads. -/
def initial (clock : ℤ) (n : ℕ) : State M V where
  clock := clock
  metrics _ := {}
  eventDs := []
  collectQueue := []
  sendQueue := []
  checker := .idle
  checkerAlive := true
  workers := List.replicate n .idle
  sender := .idle
  senderAlive := true

def key (s : State M V) : Item M → WithTop ℚ := Item.key fun m ↦ (s.metrics m).nextRunTime

def setChecker (pc : Checker M) (s : State M V) : State M V := { s with checker := pc }

def setWorker (i : ℕ) (pc : Worker M V) (s : State M V) : State M V :=
  { s with workers := s.workers.set i pc }

def setSender (pc : Sender M V) (s : State M V) : State M V := { s with sender := pc }

/-- `EventCheckerThread` holds the lock of `event_ds`. -/
def locked (s : State M V) : Bool :=
  match s.checker with
  | .looking | .testing _ | .popping => true
  | _ => false

end State

/-- `first_element_changed.notify()`. -/
def Checker.notify : Checker M → Checker M
  | .waiting first _ => .waiting first true
  | pc => pc

/-- What a statement does to the objects that the threads share. -/
inductive Effect (M V : Type)
  | skip
  | flag (m : M)
  | schedule (m : M)
  | launch (m : M)
  | stop (m : M)
  | putEvent (item : Item M)
  | popEvent (left : List (Item M))
  | putCollect (m : M)
  | takeCollect
  | putSend (item : Item M)
  | takeSend
  | sample (m : M)
  | assign (m : M) (data : Collected V)
  | put (m : M) (v : Sample V)
  | complete (m : M) (size : Option ℕ)
  | setNextRunTime (m : M)
  | reset (m : M)
  | send (m : M)
  | get (m : M)
  | pass (m : M) (message : Message V)

variable [DecidableEq M] (cfg : Config M V)

namespace Effect

def onMetric (clock : ℤ) (m : M) (r : RegisteredMetric V) : Effect M V → RegisteredMetric V
  | .flag m' => if m' = m then { r with flagAlive := true, phase := .flagged } else r
  | .schedule m' =>
    if m' = m then
      { r with
        nextRunTime := (cfg.interval m).after clock, startTime := clock, phase := .scheduled }
    else r
  | .launch m' => if m' = m then { r with phase := .started } else r
  | .stop m' => if m' = m then { r with flagAlive := false } else r
  | .sample m' => if m' = m then { r with samplings := r.samplings + 1 } else r
  | .assign m' data => if m' = m then { r with collectedData := data } else r
  | .put m' v =>
    if m' = m then { r with values := r.values ++ [v], stored := r.stored ++ [v] } else r
  | .complete m' size =>
    if m' = m then
      { r with
        currentAggregationSize := size.getD r.currentAggregationSize
        collections := r.collections + 1 }
    else r
  | .setNextRunTime m' =>
    if m' = m then { r with nextRunTime := (cfg.interval m).after r.nextRunTime } else r
  | .reset m' => if m' = m then { r with currentAggregationSize := 0 } else r
  | .send m' => if m' = m then { r with sendings := r.sendings + 1 } else r
  | .get m' => if m' = m then { r with values := r.values.tail } else r
  | .pass m' message => if m' = m then { r with sent := r.sent ++ [message] } else r
  | _ => r

/-- `put_and_notify`: the waiting thread is notified if the first element compares differently. -/
def putAndNotify (item : Item M) (s : State M V) : State M V :=
  let queue := heappush (keyLt s.key) s.eventDs item
  { s with
    eventDs := queue
    checker :=
      if s.eventDs.head?.map s.key ≠ queue.head?.map s.key then s.checker.notify else s.checker }

def onQueues : Effect M V → State M V → State M V
  | .launch m, s => putAndNotify (.metric m) s
  | .putEvent item, s => putAndNotify item s
  | .popEvent left, s => { s with eventDs := left }
  | .putCollect m, s => { s with collectQueue := s.collectQueue ++ [m] }
  | .takeCollect, s => { s with collectQueue := s.collectQueue.tail }
  | .putSend item, s => { s with sendQueue := s.sendQueue ++ [item] }
  | .takeSend, s => { s with sendQueue := s.sendQueue.tail }
  | _, s => s

def apply (e : Effect M V) (s : State M V) : State M V :=
  { e.onQueues s with metrics := fun m ↦ e.onMetric cfg s.clock m (s.metrics m) }

end Effect

variable (s : State M V)

/-- One statement of `EventCheckerThread`. `none` means that it has to wait. -/
def Checker.step : Checker M → Option (Checker M × Effect M V)
  | .idle => some (if s.checkerAlive then .looking else .exited, .skip)
  | .looking =>
    match s.eventDs.head? with
    | none => some (.waiting none false, .skip)
    | some .systemExit => some (.popping, .skip)
    | some (.metric m) =>
      some (if (s.metrics m).flagAlive then .waiting (some (m, (s.metrics m).nextRunTime)) false
        else .popping, .skip)
  | .waiting none notified =>
    if notified then
      -- `self.queue[0]` would be an `IndexError` on an empty queue
      some ((s.eventDs.head?.map Checker.testing).getD .exited, .skip)
    else none
  | .waiting (some (m, deadline)) notified =>
    if notified ∨ deadline ≤ s.clock then some (.testing (.metric m), .skip) else none
  | .testing .systemExit => some (.popping, .skip)
  | .testing (.metric m) =>
    some (if (s.metrics m).nextRunTime ≤ s.clock ∨ ¬ (s.metrics m).flagAlive then .popping
      else .looking, .skip)
  | .popping =>
    match heappop (keyLt s.key) s.eventDs with
    | none => some (.exited, .skip)
    | some (item, left) => some (.returned item, .popEvent left)
  | .returned .systemExit => some (.exited, .skip)
  | .returned (.metric m) =>
    some (if (s.metrics m).flagAlive then .putting m else .idle, .skip)
  | .putting m => some (.idle, .putCollect m)
  | .exited => none

/-- One statement of a `CollectionThread` outside the sampling function. -/
def Worker.step : Worker M V → Option (Worker M V × Effect M V)
  | .idle =>
    match s.collectQueue with
    | [] => none
    | m :: _ => some (.taken m, .takeCollect)
  | .taken m => some (if (s.metrics m).flagAlive then .checked m else .idle, .skip)
  | .checked m => some (.sampling m, .sample m)
  | .sampling _ => none
  | .sampled m =>
    match (s.metrics m).collectedData with
    | .none => some (.collected m, .complete m none)
    | data => some (.adding m (data.samples s.clock) (data.samples s.clock).length, .skip)
  | .adding m (v :: rest) added => some (.adding m rest added, .put m v)
  | .adding m [] added => some (.counting m added, .skip)
  | .counting m added => some (.storing m ((s.metrics m).currentAggregationSize + added), .skip)
  | .storing m size => some (.collected m, .complete m (some size))
  | .collected m => some (if (s.metrics m).flagAlive then .scheduling m else .idle, .skip)
  | .scheduling m => some (.returning m, .setNextRunTime m)
  | .returning m => if s.locked then none else some (.testing m, .putEvent (.metric m))
  | .testing m =>
    some (if cfg.aggregationSize m ≤ (s.metrics m).currentAggregationSize then .queueing m
      else .idle, .skip)
  | .queueing m => some (.resetting m, .putSend (.metric m))
  | .resetting m => some (.idle, .reset m)
  | .dead => none

/-- One statement of `SendThread`. -/
def Sender.step : Sender M V → Option (Sender M V × Effect M V)
  | .idle => some (if s.senderAlive then .getting else .exited, .skip)
  | .getting =>
    match s.sendQueue with
    | [] => none
    | item :: _ => some (.taken item, .takeSend)
  | .taken .systemExit => some (.exited, .skip)
  | .taken (.metric m) => some (if (s.metrics m).flagAlive then .checked m else .idle, .skip)
  | .checked m => some (.sending m, .send m)
  | .sending m => some (if (s.metrics m).values = [] then .idle else .publishing m, .skip)
  | .publishing m =>
    some (if (s.metrics m).values = [] then .idle
      else .draining m (s.metrics m).values.length [], .skip)
  | .draining m (left + 1) samples =>
    match (s.metrics m).values with
    | [] => none
    | v :: _ => some (.draining m left (samples ++ [v]), .get m)
  | .draining m 0 samples =>
    match formatData cfg.str (cfg.name m) (cfg.dcc m) samples with
    | none => some (.idle, .skip)
    | some message => some (.idle, .pass m message)
  | .exited => none

/-- Who makes the next step. `returns` and `raises` end a call of a sampling function,
`collectRaises` is an exception of `collect` before or after that call, `formatRaises` one in
`_format_data` once a sample has been taken, and the four actions from `endChecker` on are the
statements of `terminate()`. -/
inductive Action (M V : Type)
  | tick (ms : ℕ)
  | start (m : M)
  | stop (m : M)
  | check
  | collect (i : ℕ)
  | returns (i : ℕ) (data : Collected V)
  | raises (i : ℕ)
  | collectRaises (i : ℕ)
  | send
  | formatRaises
  | endChecker
  | endSender
  | exitEvent
  | exitSend

/-- A call of `collect` ends in an exception. -/
def Action.Fails : Action M V → Prop
  | .raises _ | .collectRaises _ => True
  | _ => False

/-- The next statement of `start_collecting`. -/
def startStep (m : M) : Option (Effect M V) :=
  match (s.metrics m).phase with
  | .created => some (.flag m)
  | .flagged => some (.schedule m)
  | .scheduled => if s.locked then none else some (.launch m)
  | .started => none

def perform : Action M V → State M V → Option (State M V)
  | .tick ms, s => some { s with clock := s.clock + ms }
  | .start m, s => (startStep s m).map fun e ↦ e.apply cfg s
  | .stop m, s => some ((Effect.stop m).apply cfg s)
  | .check, s =>
    (s.checker.step s).map fun (pc, e) ↦ (e.apply cfg s).setChecker pc
  | .collect i, s =>
    (s.workers[i]?.bind (Worker.step cfg s)).map fun (pc, e) ↦ (e.apply cfg s).setWorker i pc
  | .returns i data, s =>
    match s.workers[i]? with
    | some (.sampling m) =>
      some (((Effect.assign m data).apply cfg s).setWorker i (.sampled m))
    | _ => none
  | .raises i, s =>
    match s.workers[i]? with
    | some (.sampling _) => some (s.setWorker i .dead)
    | _ => none
  | .collectRaises i, s =>
    match s.workers[i]? with
    | some (.checked _) | some (.sampled _) => some (s.setWorker i .dead)
    | _ => none
  | .send, s =>
    (Sender.step cfg s s.sender).map fun (pc, e) ↦ (e.apply cfg s).setSender pc
  | .formatRaises, s =>
    match s.sender with
    | .draining _ _ (_ :: _) => some (s.setSender .idle)
    | _ => none
  | .endChecker, s => some { s with checkerAlive := false }
  | .endSender, s => some { s with senderAlive := false }
  | .exitEvent, s => if s.locked then none else some ((Effect.putEvent .systemExit).apply cfg s)
  | .exitSend, s => some ((Effect.putSend .systemExit).apply cfg s)

end Liota.MetricHandler
