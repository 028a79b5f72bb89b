import Liota.Python.Text
import Liota.Interleaving.Threads

namespace Liota.Transports.WebSocket

open Python.Text Interleaving

/-- The `sslopt` of `create_connection`. -/
inductive SslOpt
  | certNone
  | certRequired (caCerts : Str)
  deriving DecidableEq, Repr

/-- What a `WebSocket` is made with. An identity is its `root_ca_cert`, empty where there
is none. -/
structure Settings where
  verifyCert : Bool
  identity : Option Str

/-- Where a call of `send` stands. `attempts` is 0 in the first try, and otherwise the value of the
variable of the loop. -/
inductive Pc
  | reading (attempts : ℕ)
  | sending (attempts : ℕ) (ws : Option ℕ)
  | connecting (attempts : ℕ)
  | checking (attempts : ℕ)
  | creating (attempts : ℕ)
  | assigning (attempts : ℕ) (conn : ℕ)
  | verifying (attempts : ℕ)
  | closing (attempts : ℕ)
  | shutting (attempts : ℕ)
  deriving DecidableEq, Repr

/-- How the next call that a thread makes outside of the class turns out, if it ever ends. -/
structure Reply where
  raises : Bool
  pathExists : Bool
  isFile : Bool

/-- The attribute `ws` as an index, and the connections that were created. -/
structure Shared where
  ws : Option ℕ
  connections : List SslOpt
  deriving DecidableEq, Repr

inductive Next
  | goes (pc : Pc)
  | returns
  | raises
  deriving DecidableEq, Repr

/-- What a step of a call does. If it has handed the message to `ws.send`, then with the connection
and whether that raised. -/
structure Result where
  shared : Shared
  next : Next
  sent : Option (ℕ × Bool)
  deriving DecidableEq, Repr

namespace Pc

/-- The handler for an exception in a try: the first one leads to the loop, in which the attempts
are counted before the connection is closed. -/
def fail : ℕ → Pc
  | 0 => .connecting 1
  | attempts + 1 => .closing (attempts + 2)

/-- What follows `self.close()` in the loop. -/
def closed (attempts : ℕ) : Next := if attempts = 4 then .raises else .goes (.connecting attempts)

/-- One step of a call of `send`. The attribute `ws` may be changed by another call between any
two of them. -/
def step (cfg : Settings) (r : Reply) (s : Shared) : Pc → Result
  | .reading attempts => ⟨s, .goes (.sending attempts s.ws), none⟩
  | .sending attempts none => ⟨s, .goes (fail attempts), none⟩
  | .sending attempts (some conn) =>
    if r.raises then ⟨s, .goes (fail attempts), some (conn, true)⟩
    else ⟨s, .returns, some (conn, false)⟩
  | .connecting attempts =>
    ⟨{ s with ws := none },
      .goes (if cfg.verifyCert then .checking attempts else .creating attempts), none⟩
  | .checking attempts =>
    match cfg.identity with
    | none => ⟨s, .goes (fail attempts), none⟩
    | some rootCaCert =>
      if rootCaCert ≠ [] ∧ r.pathExists then
        ⟨s, .goes (if r.isFile then .creating attempts else .verifying attempts), none⟩
      else ⟨s, .goes (fail attempts), none⟩
  | .creating attempts =>
    if r.raises then ⟨s, .goes (fail attempts), none⟩
    else
      let sslopt := if cfg.verifyCert then .certRequired (cfg.identity.getD []) else .certNone
      ⟨{ s with connections := s.connections ++ [sslopt] },
        .goes (.assigning attempts s.connections.length), none⟩
  | .assigning attempts conn =>
    ⟨{ s with ws := some conn },
      .goes (if cfg.verifyCert then .verifying attempts else .reading attempts), none⟩
  | .verifying attempts =>
    ⟨s, .goes (if s.ws = none then fail attempts else .reading attempts), none⟩
  | .closing attempts =>
    ⟨s, if s.ws = none then closed attempts else .goes (.shutting attempts), none⟩
  | .shutting attempts =>
    ⟨s, if s.ws = none ∨ r.raises then .raises else closed attempts, none⟩

end Pc

variable {ι M : Type}

/-- The calls of a thread that are over, with whether each has returned, and the one that is not. -/
structure Thread (M : Type) where
  calls : List (M × Bool)
  current : Option (M × Pc)

/-- What was handed to `ws.send`, with the thread, the connection and whether that raised. -/
structure State (ι M : Type) where
  shared : Shared
  threads : ι → Thread M
  log : List (ι × (M × (ℕ × Bool)))

inductive Action (ι M : Type)
  | send (i : ι) (msg : M)
  | step (i : ι) (r : Reply)

def Thread.next (t : Thread M) (msg : M) : Next → Thread M
  | .goes pc => { t with current := some (msg, pc) }
  | .returns => ⟨t.calls ++ [(msg, true)], none⟩
  | .raises => ⟨t.calls ++ [(msg, false)], none⟩

variable [DecidableEq ι]

def perform (cfg : Settings) (s : State ι M) : Action ι M → Option (State ι M)
  | .send i msg =>
    match (s.threads i).current with
    | none => some { s with
        threads := Function.update s.threads i
          ((s.threads i).next msg (.goes (.reading 0))) }
    | some _ => none
  | .step i r =>
    match (s.threads i).current with
    | none => none
    | some (msg, pc) =>
      let result := pc.step cfg r s.shared
      some ⟨result.shared, Function.update s.threads i ((s.threads i).next msg result.next),
        s.log ++ result.sent.toList.map fun sent ↦ (i, (msg, sent))⟩

/-- `__init__`, which raises what `connect_soc` raises. -/
def init (cfg : Settings) (r : Reply) : Option (State ι M) :=
  let made sslopt : State ι M := ⟨⟨some 0, [sslopt]⟩, fun _ ↦ ⟨[], none⟩, []⟩
  if cfg.verifyCert then
    match cfg.identity with
    | none => none
    | some rootCaCert =>
      if rootCaCert ≠ [] ∧ r.pathExists ∧ r.isFile ∧ !r.raises then
        some (made (.certRequired rootCaCert))
      else none
  else if r.raises then none
  else some (made .certNone)

def run (cfg : Settings) (r : Reply) (actions : List (Action ι M)) : Option (State ι M) :=
  (init cfg r).bind fun s ↦ actions.foldlM (perform cfg) s

/-- The messages that a thread has handed to `ws.send`, with whether that raised. -/
def State.handed (s : State ι M) (i : ι) : List (M × Bool) :=
  (own i s.log).map fun entry ↦ (entry.1, entry.2.2)

/-- What calls that are over have handed to `ws.send`, in up to four tries each: all of these have
raised but the last one of a call that has returned. -/
inductive Handed : List (M × Bool) → List (M × Bool) → Prop
  | nil : Handed [] []
  | returned {calls log : List (M × Bool)} (msg : M) (n : ℕ) (h : Handed calls log) (hn : n ≤ 3) :
      Handed (calls ++ [(msg, true)]) (log ++ List.replicate n (msg, true) ++ [(msg, false)])
  | raised {calls log : List (M × Bool)} (msg : M) (n : ℕ) (h : Handed calls log) (hn : n ≤ 4) :
      Handed (calls ++ [(msg, false)]) (log ++ List.replicate n (msg, true))

def Thread.InOrder (t : Thread M) (log : List (M × Bool)) : Prop :=
  match t.current with
  | none => Handed t.calls log
  | some (msg, _) =>
    ∃ before n, Handed t.calls before ∧ n ≤ 4 ∧ log = before ++ List.replicate n (msg, true)

/-- A connection to the server is made as the settings say. With certificates verified there is an
identity that has a CA. -/
def Settings.Accepts (cfg : Settings) : SslOpt → Prop
  | .certNone => cfg.verifyCert = false
  | .certRequired caCerts => cfg.verifyCert = true ∧ cfg.identity = some caCerts ∧ caCerts ≠ []

namespace Pc

def attempts : Pc → ℕ
  | .reading attempts | .sending attempts _ | .connecting attempts | .checking attempts
  | .creating attempts | .assigning attempts _ | .verifying attempts | .closing attempts
  | .shutting attempts => attempts

def InLoop : Pc → Prop
  | .closing attempts | .shutting attempts => attempts ≤ 4
  | pc => pc.attempts ≤ 3

theorem fail_spec {attempts : ℕ} (h : attempts ≤ 3) :
    (fail attempts).InLoop ∧ attempts + 1 ≤ (fail attempts).attempts := by
  cases attempts with
  | zero => simp [fail, InLoop, Pc.attempts]
  | succ n =>
    simp only [fail, InLoop, Pc.attempts]
    omega

theorem closed_spec {attempts : ℕ} (h : attempts ≤ 4) :
    (closed attempts = .raises) ∨
      closed attempts = .goes (.connecting attempts) ∧ (Pc.connecting attempts).InLoop := by
  rw [closed]
  by_cases hfour : attempts = 4
  · exact .inl (if_pos hfour)
  · apply Or.inr
    refine ⟨if_neg hfour, ?_⟩
    simp only [InLoop, Pc.attempts]
    omega

/-- A step that goes on stays in the loop and counts a try that has raised before the next one. A
call that returns has handed its message over without an exception. -/
structure Counts (pc : Pc) (result : Result) : Prop where
  goes : ∀ pc', result.next = .goes pc' →
    pc'.InLoop ∧ pc.attempts + result.sent.toList.length ≤ pc'.attempts ∧
      ∀ sent ∈ result.sent, sent.2 = true
  returns : result.next = .returns → pc.attempts ≤ 3 ∧ ∃ conn, result.sent = some (conn, false)
  raises : result.next = .raises → pc.attempts ≤ 4 ∧ result.sent = none

theorem Counts.of_goes {pc pc' : Pc} {s : Shared} (hloop : pc'.InLoop)
    (hle : pc.attempts ≤ pc'.attempts) : Counts pc ⟨s, .goes pc', none⟩ where
  goes pc'' heq := by
    cases heq
    exact ⟨hloop, hle, by simp⟩
  returns heq := by cases heq
  raises heq := by cases heq

theorem Counts.of_fail {pc : Pc} {s : Shared} (hle : pc.attempts ≤ 3) :
    Counts pc ⟨s, .goes (fail pc.attempts), none⟩ := by
  obtain ⟨hloop, hnext⟩ := fail_spec hle
  exact .of_goes hloop (by omega)

theorem Counts.of_raises {pc : Pc} {s : Shared} (hle : pc.attempts ≤ 4) :
    Counts pc ⟨s, .raises, none⟩ where
  goes pc' heq := by cases heq
  returns heq := by cases heq
  raises _ := ⟨hle, rfl⟩

theorem Counts.of_closed {pc : Pc} {s : Shared} (hle : pc.attempts ≤ 4) :
    Counts pc ⟨s, closed pc.attempts, none⟩ := by
  obtain heq | ⟨heq, hloop⟩ := closed_spec hle
  · rw [heq]
    exact .of_raises hle
  · rw [heq]
    exact .of_goes hloop le_rfl

theorem step_counts (cfg : Settings) (r : Reply) (s : Shared) {pc : Pc} (h : pc.InLoop) :
    Counts pc (pc.step cfg r s) := by
  cases pc with
  | reading attempts => exact .of_goes h le_rfl
  | sending attempts ws =>
    cases ws with
    | none => exact .of_fail h
    | some conn =>
      rw [step]
      split
      · obtain ⟨hloop, hnext⟩ := fail_spec h
        refine ⟨fun pc' heq ↦ ?_, fun heq ↦ (by cases heq), fun heq ↦ (by cases heq)⟩
        cases heq
        exact ⟨hloop, hnext, by simp⟩
      · exact ⟨fun pc' heq ↦ (by cases heq), fun _ ↦ ⟨h, conn, rfl⟩, fun heq ↦ (by cases heq)⟩
  | connecting attempts =>
    rw [step]
    split
    · exact .of_goes h le_rfl
    · exact .of_goes h le_rfl
  | checking attempts =>
    rw [step]
    split
    · exact .of_fail h
    · split
      · split
        · exact .of_goes h le_rfl
        · exact .of_goes h le_rfl
      · exact .of_fail h
  | creating attempts =>
    rw [step]
    split
    · exact .of_fail h
    · exact .of_goes h le_rfl
  | assigning attempts conn =>
    rw [step]
    split
    · exact .of_goes h le_rfl
    · exact .of_goes h le_rfl
  | verifying attempts =>
    rw [step]
    split
    · exact .of_fail h
    · exact .of_goes h le_rfl
  | closing attempts =>
    rw [step]
    split
    · exact .of_closed h
    · exact .of_goes h le_rfl
  | shutting attempts =>
    rw [step]
    split
    · exact .of_raises h
    · exact .of_closed h

def InRange (n : ℕ) : Pc → Prop
  | .sending _ ws => ∀ conn, ws = some conn → conn < n
  | .assigning _ conn => conn < n
  | _ => True

theorem InRange.mono {n n' : ℕ} (hle : n ≤ n') {pc : Pc} (h : pc.InRange n) : pc.InRange n' := by
  cases pc with
  | sending attempts ws => exact fun conn heq ↦ (h conn heq).trans_le hle
  | assigning attempts conn => exact Nat.lt_of_lt_of_le h hle
  | _ => trivial

theorem fail_inRange (attempts n : ℕ) : (fail attempts).InRange n := by
  cases attempts with
  | zero => trivial
  | succ attempts => trivial

theorem closed_inRange {attempts n : ℕ} {pc : Pc} (h : closed attempts = .goes pc) :
    pc.InRange n := by
  rw [closed] at h
  split at h
  · cases h
  · cases h
    trivial

end Pc

/-- What `connect_soc` needs of the settings. -/
def Settings.Usable (cfg : Settings) : Prop :=
  cfg.verifyCert = true → ∃ rootCaCert, cfg.identity = some rootCaCert ∧ rootCaCert ≠ []

structure Shared.Sound (cfg : Settings) (s : Shared) : Prop where
  ws : ∀ conn, s.ws = some conn → conn < s.connections.length
  accepts : ∀ sslopt ∈ s.connections, cfg.Accepts sslopt

/-- A step keeps the connections and adds at most one, made as the settings say. -/
structure Pc.Keeps (cfg : Settings) (s : Shared) (result : Result) : Prop where
  sound : result.shared.Sound cfg
  connections : s.connections <+: result.shared.connections
  goes : ∀ pc', result.next = .goes pc' → pc'.InRange result.shared.connections.length
  sent : ∀ sent ∈ result.sent, sent.1 < s.connections.length

namespace Pc

variable {cfg : Settings} {s : Shared}

theorem Keeps.of_goes {pc : Pc} (hs : s.Sound cfg) (h : pc.InRange s.connections.length) :
    Keeps cfg s ⟨s, .goes pc, none⟩ where
  sound := hs
  connections := List.prefix_rfl
  goes pc' heq := by
    cases heq
    exact h
  sent conn heq := by cases heq

theorem step_keeps (hcfg : cfg.Usable) (r : Reply) (hs : s.Sound cfg) {pc : Pc}
    (hpc : pc.InRange s.connections.length) : Keeps cfg s (pc.step cfg r s) := by
  cases pc with
  | reading attempts => exact .of_goes hs hs.ws
  | sending attempts ws =>
    cases ws with
    | none => exact .of_goes hs (fail_inRange _ _)
    | some conn =>
      have hconn : conn < s.connections.length := hpc conn rfl
      rw [step]
      split
      · refine ⟨hs, List.prefix_rfl, fun pc' heq ↦ ?_, fun conn' heq ↦ ?_⟩
        · cases heq
          exact fail_inRange _ _
        · cases heq
          exact hconn
      · refine ⟨hs, List.prefix_rfl, fun pc' heq ↦ (by cases heq), fun conn' heq ↦ ?_⟩
        cases heq
        exact hconn
  | connecting attempts =>
    refine ⟨⟨fun conn heq ↦ (by cases heq), hs.accepts⟩, List.prefix_rfl, fun pc' heq ↦ ?_,
      fun conn heq ↦ (by cases heq)⟩
    cases heq
    split
    · trivial
    · trivial
  | checking attempts =>
    rw [step]
    split
    · exact .of_goes hs (fail_inRange _ _)
    · split
      · split
        · exact .of_goes hs trivial
        · exact .of_goes hs trivial
      · exact .of_goes hs (fail_inRange _ _)
  | creating attempts =>
    rw [step]
    split
    · exact .of_goes hs (fail_inRange _ _)
    · have hmade : cfg.Accepts (if cfg.verifyCert then .certRequired (cfg.identity.getD [])
          else .certNone) := by
        by_cases hverify : cfg.verifyCert = true
        · obtain ⟨rootCaCert, hidentity, hne⟩ := hcfg hverify
          rw [if_pos hverify, hidentity]
          exact ⟨hverify, hidentity, hne⟩
        · rw [if_neg hverify]
          exact Bool.eq_false_iff.mpr hverify
      refine ⟨⟨fun conn heq ↦ ?_, fun sslopt hmem ↦ ?_⟩, List.prefix_append _ _, fun pc' heq ↦ ?_,
        fun conn heq ↦ (by cases heq)⟩
      · have hconn := hs.ws conn heq
        simp only [List.length_append, List.length_singleton]
        omega
      · obtain hmem | hmem := List.mem_append.mp hmem
        · exact hs.accepts sslopt hmem
        · rw [List.mem_singleton.mp hmem]
          exact hmade
      · cases heq
        simp [InRange]
  | assigning attempts conn =>
    refine ⟨⟨fun conn' heq ↦ ?_, hs.accepts⟩, List.prefix_rfl, fun pc' heq ↦ ?_,
      fun conn' heq ↦ (by cases heq)⟩
    · cases heq
      exact hpc
    · cases heq
      split
      · trivial
      · trivial
  | verifying attempts =>
    rw [step]
    split
    · exact .of_goes hs (fail_inRange _ _)
    · exact .of_goes hs trivial
  | closing attempts =>
    rw [step]
    split
    · exact ⟨hs, List.prefix_rfl, fun pc' heq ↦ closed_inRange heq, fun conn heq ↦ (by cases heq)⟩
    · exact .of_goes hs trivial
  | shutting attempts =>
    rw [step]
    split
    · exact ⟨hs, List.prefix_rfl, fun pc' heq ↦ (by cases heq), fun conn heq ↦ (by cases heq)⟩
    · exact ⟨hs, List.prefix_rfl, fun pc' heq ↦ closed_inRange heq, fun conn heq ↦ (by cases heq)⟩

end Pc

def Thread.Tracks (t : Thread M) (log : List (M × Bool)) : Prop :=
  match t.current with
  | none => Handed t.calls log
  | some (msg, pc) =>
    pc.InLoop ∧ ∃ before n, Handed t.calls before ∧ n ≤ pc.attempts ∧
      log = before ++ List.replicate n (msg, true)

structure Invariant (cfg : Settings) (s : State ι M) : Prop where
  shared : s.shared.Sound cfg
  inRange : ∀ i msg pc, (s.threads i).current = some (msg, pc) →
    pc.InRange s.shared.connections.length
  log : ∀ entry ∈ s.log, entry.2.2.1 < s.shared.connections.length
  tracks : ∀ i, (s.threads i).Tracks (s.handed i)

section Runs

variable {cfg : Settings} {s s' : State ι M} {t : Thread M} {log : List (M × Bool)}

omit [DecidableEq ι] in
theorem Thread.Tracks.inOrder (h : t.Tracks log) : t.InOrder log := by
  unfold Thread.Tracks at h
  unfold Thread.InOrder
  split
  · next hcurrent =>
    rw [hcurrent] at h
    exact h
  · next msg pc hcurrent =>
    rw [hcurrent] at h
    obtain ⟨hloop, before, n, hbefore, hn, hlog⟩ := h
    refine ⟨before, n, hbefore, ?_, hlog⟩
    cases pc <;> simp only [Pc.InLoop, Pc.attempts] at hloop hn <;> omega

theorem Thread.Tracks.begins (hcurrent : t.current = none) (h : t.Tracks log) (msg : M) :
    (t.next msg (.goes (.reading 0))).Tracks log := by
  rw [Thread.Tracks, hcurrent] at h
  exact ⟨Nat.zero_le _, log, 0, h, le_rfl, by simp⟩

theorem Thread.Tracks.next {msg : M} {pc : Pc} (hcurrent : t.current = some (msg, pc))
    (h : t.Tracks log) {result : Result} (hresult : pc.Counts result) :
    (t.next msg result.next).Tracks (log ++ result.sent.toList.map fun sent ↦ (msg, sent.2)) := by
  rw [Thread.Tracks, hcurrent] at h
  obtain ⟨-, before, n, hbefore, hn, rfl⟩ := h
  cases hnext : result.next with
  | goes pc' =>
    obtain ⟨hloop, hcount, hraised⟩ := hresult.goes pc' hnext
    refine ⟨hloop, before, n + result.sent.toList.length, hbefore, by omega, ?_⟩
    rw [List.replicate_add, List.append_assoc]
    congr 2
    rw [List.eq_replicate_iff]
    refine ⟨List.length_map _, fun entry hentry ↦ ?_⟩
    obtain ⟨sent, hsent, rfl⟩ := List.mem_map.mp hentry
    rw [hraised sent (Option.mem_toList.mp hsent)]
  | returns =>
    obtain ⟨hthree, conn, hsent⟩ := hresult.returns hnext
    rw [hsent]
    exact .returned msg n hbefore (by omega)
  | raises =>
    obtain ⟨hfour, hsent⟩ := hresult.raises hnext
    rw [hsent, Option.toList_none, List.map_nil, List.append_nil]
    exact .raised msg n hbefore (by omega)

theorem handed_append (i : ι) (msg : M) (sent : List (ℕ × Bool)) (j : ι) :
    (own j (s.log ++ sent.map fun sent ↦ (i, (msg, sent)))).map
        (fun entry ↦ (entry.1, entry.2.2)) =
      s.handed j ++ if j = i then sent.map fun sent ↦ (msg, sent.2) else [] := by
  rw [own_append, List.map_append]
  congr 1
  by_cases hj : j = i
  · subst hj
    rw [if_pos rfl, own_eq_of_forall, List.map_map, List.map_map]
    · rfl
    · intro entry hentry
      obtain ⟨-, -, rfl⟩ := List.mem_map.mp hentry
      rfl
  · rw [if_neg hj, List.map_eq_nil_iff, own, List.map_eq_nil_iff, List.filter_eq_nil_iff]
    intro entry hentry
    obtain ⟨-, -, rfl⟩ := List.mem_map.mp hentry
    simpa using Ne.symm hj

omit [DecidableEq ι] in
theorem init_cases {r : Reply} (h : init cfg r = some s) :
    cfg.Usable ∧ ∃ sslopt, cfg.Accepts sslopt ∧
      s = ⟨⟨some 0, [sslopt]⟩, fun _ ↦ ⟨[], none⟩, []⟩ := by
  rw [init] at h
  split at h
  · next hverify =>
    split at h
    · cases h
    · next rootCaCert hidentity =>
      split at h
      · next hchecks =>
        exact ⟨fun _ ↦ ⟨rootCaCert, hidentity, hchecks.1⟩, .certRequired rootCaCert,
          ⟨hverify, hidentity, hchecks.1⟩, (Option.some.inj h).symm⟩
      · cases h
  · next hverify =>
    split at h
    · cases h
    · exact ⟨fun htrue ↦ absurd htrue hverify, .certNone, Bool.eq_false_iff.mpr hverify,
        (Option.some.inj h).symm⟩

theorem invariant_init {r : Reply} (h : init cfg r = some s) : Invariant cfg s := by
  obtain ⟨-, sslopt, hsslopt, rfl⟩ := init_cases h
  refine ⟨⟨fun conn heq ↦ ?_, fun sslopt' hmem ↦ ?_⟩, fun i msg pc hpc ↦ (by cases hpc),
    fun entry hentry ↦ (by cases hentry), fun i ↦ Handed.nil⟩
  · cases heq
    exact Nat.zero_lt_one
  · rw [List.mem_singleton.mp hmem]
    exact hsslopt

theorem invariant_perform (hcfg : cfg.Usable) {a : Action ι M} (hs : Invariant cfg s)
    (h : perform cfg s a = some s') : Invariant cfg s' := by
  cases a with
  | send i msg =>
    rw [perform] at h
    split at h
    · next hcurrent =>
      cases h
      refine ⟨hs.shared, fun j msg' pc hpc ↦ ?_, hs.log, fun j ↦ ?_⟩
      · by_cases hj : j = i
        · subst hj
          simp only [Function.update_self, Thread.next, Option.some.injEq, Prod.mk.injEq] at hpc
          rw [← hpc.2]
          trivial
        · simp only [Function.update_of_ne hj] at hpc
          exact hs.inRange j msg' pc hpc
      · by_cases hj : j = i
        · subst hj
          simp only [Function.update_self]
          exact (hs.tracks j).begins hcurrent msg
        · simp only [Function.update_of_ne hj]
          exact hs.tracks j
    · cases h
  | step i r =>
    rw [perform] at h
    split at h
    · cases h
    · next msg pc hcurrent =>
      have hkeeps := Pc.step_keeps hcfg r hs.shared (hs.inRange i msg pc hcurrent)
      have hloop : pc.InLoop := by
        have htracks := hs.tracks i
        rw [Thread.Tracks, hcurrent] at htracks
        exact htracks.1
      have hcounts := Pc.step_counts cfg r s.shared hloop
      generalize pc.step cfg r s.shared = result at h hkeeps hcounts
      cases h
      have hlength := hkeeps.connections.length_le
      refine ⟨hkeeps.sound, fun j msg' pc' hpc ↦ ?_, fun entry hentry ↦ ?_, fun j ↦ ?_⟩
      · by_cases hj : j = i
        · subst hj
          simp only [Function.update_self] at hpc
          cases hnext : result.next with
          | goes pc'' =>
            rw [hnext] at hpc
            simp only [Thread.next, Option.some.injEq, Prod.mk.injEq] at hpc
            rw [← hpc.2]
            exact hkeeps.goes pc'' hnext
          | returns =>
            rw [hnext] at hpc
            cases hpc
          | raises =>
            rw [hnext] at hpc
            cases hpc
        · simp only [Function.update_of_ne hj] at hpc
          exact (hs.inRange j msg' pc' hpc).mono hlength
      · obtain hentry | hentry := List.mem_append.mp hentry
        · exact (hs.log entry hentry).trans_le hlength
        · obtain ⟨conn, hconn, rfl⟩ := List.mem_map.mp hentry
          exact (hkeeps.sent conn (Option.mem_toList.mp hconn)).trans_le hlength
      · change Thread.Tracks (Function.update s.threads i ((s.threads i).next msg result.next) j)
          (State.handed ⟨s.shared, s.threads, s.log ++ _⟩ j)
        rw [State.handed, handed_append]
        by_cases hj : j = i
        · subst hj
          rw [Function.update_self, if_pos rfl]
          exact (hs.tracks j).next hcurrent hcounts
        · rw [Function.update_of_ne hj, if_neg hj, List.append_nil]
          exact hs.tracks j

theorem run_concat (cfg : Settings) (r : Reply) (actions : List (Action ι M)) (a : Action ι M) :
    run cfg r (actions ++ [a]) = (run cfg r actions).bind fun s ↦ perform cfg s a := by
  rw [run, run, Option.bind_assoc]
  congr 1
  funext s
  rw [List.foldlM_append]
  change ((actions.foldlM (perform cfg) s).bind fun s ↦ [a].foldlM (perform cfg) s) = _
  congr 1
  funext s
  rw [List.foldlM_cons]
  exact bind_pure _

theorem invariant_run {r : Reply} {actions : List (Action ι M)}
    (h : run cfg r actions = some s) : Invariant cfg s := by
  induction actions using List.reverseRecOn generalizing s with
  | nil =>
    obtain ⟨s', hinit, hnil⟩ := Option.bind_eq_some_iff.mp h
    cases hnil
    exact invariant_init hinit
  | append_singleton actions a ih =>
    rw [run_concat] at h
    obtain ⟨s', hrun, hstep⟩ := Option.bind_eq_some_iff.mp h
    obtain ⟨s₀, hinit, -⟩ := Option.bind_eq_some_iff.mp hrun
    exact invariant_perform (init_cases hinit).1 (ih hrun) hstep

/-- Whatever the library calls do and however the threads take turns, a thread hands its messages to
`ws.send` in the order of its calls, each up to four times, and those of calls that have returned
once without an exception, as the last; and only on connections that are made as the settings
say. -/
theorem send_hands_over {r : Reply} {actions : List (Action ι M)} (h : run cfg r actions = some s) :
    (∀ i, (s.threads i).InOrder (s.handed i)) ∧
      ∀ entry ∈ s.log, ∃ sslopt, s.shared.connections[entry.2.2.1]? = some sslopt ∧
        cfg.Accepts sslopt := by
  have hs := invariant_run h
  refine ⟨fun i ↦ (hs.tracks i).inOrder, fun entry hentry ↦ ?_⟩
  have hlt := hs.log entry hentry
  exact ⟨_, List.getElem?_eq_getElem hlt, hs.shared.accepts _ (List.getElem_mem hlt)⟩

section Steps

namespace Pc

def weight : Pc → ℕ
  | .reading attempts => min (9 * (3 - attempts) + 4) 29
  | .sending attempts _ => min (9 * (3 - attempts) + 3) 28
  | .connecting attempts => 9 * (3 - attempts) + 9
  | .checking attempts => 9 * (3 - attempts) + 8
  | .creating attempts => 9 * (3 - attempts) + 7
  | .assigning attempts _ => 9 * (3 - attempts) + 6
  | .verifying attempts => 9 * (3 - attempts) + 5
  | .closing attempts => 9 * (4 - attempts) + 2
  | .shutting attempts => 9 * (4 - attempts) + 1

theorem weight_pos (pc : Pc) : 0 < pc.weight := by
  cases pc <;> simp only [weight] <;> omega

theorem fail_weight (attempts : ℕ) :
    (fail attempts).weight < min (9 * (3 - attempts) + 3) 28 := by
  cases attempts with
  | zero => decide
  | succ attempts =>
    simp only [fail, weight]
    omega

theorem closed_weight {attempts : ℕ} {pc : Pc} (h : closed attempts = .goes pc)
    (hle : attempts ≤ 4) : pc.weight < 9 * (4 - attempts) + 1 := by
  rw [closed] at h
  split at h
  · cases h
  · cases h
    simp only [weight]
    omega

theorem step_weight (cfg : Settings) (r : Reply) (s : Shared) {pc pc' : Pc} (h : pc.InLoop)
    (hnext : (pc.step cfg r s).next = .goes pc') : pc'.weight < pc.weight := by
  cases pc with
  | reading attempts =>
    cases hnext
    simp only [weight]
    omega
  | sending attempts ws =>
    have hpc' : pc' = fail attempts := by
      cases ws with
      | none => exact (Next.goes.inj hnext).symm
      | some conn =>
        rw [step] at hnext
        split at hnext
        · exact (Next.goes.inj hnext).symm
        · cases hnext
    rw [hpc']
    exact fail_weight attempts
  | connecting attempts =>
    cases hnext
    split
    · exact Nat.lt_succ_self _
    · simp only [weight]
      omega
  | checking attempts =>
    have hfail := fail_weight attempts
    rw [step] at hnext
    split at hnext
    · cases hnext
      change _ < 9 * (3 - attempts) + 8
      omega
    · split at hnext
      · cases hnext
        split
        · simp only [weight]
          omega
        · simp only [weight]
          omega
      · cases hnext
        change _ < 9 * (3 - attempts) + 8
        omega
  | creating attempts =>
    have hfail := fail_weight attempts
    rw [step] at hnext
    split at hnext
    · cases hnext
      change _ < 9 * (3 - attempts) + 7
      omega
    · cases hnext
      simp only [weight]
      omega
  | assigning attempts conn =>
    cases hnext
    split
    · simp only [weight]
      omega
    · simp only [weight]
      omega
  | verifying attempts =>
    have hfail := fail_weight attempts
    cases hnext
    split
    · change _ < 9 * (3 - attempts) + 5
      omega
    · simp only [weight]
      omega
  | closing attempts =>
    rw [step] at hnext
    split at hnext
    · have hclosed := closed_weight hnext h
      change _ < 9 * (4 - attempts) + 2
      omega
    · cases hnext
      exact Nat.lt_succ_self _
  | shutting attempts =>
    rw [step] at hnext
    split at hnext
    · cases hnext
    · exact closed_weight hnext h

end Pc

def steps (i : ι) (actions : List (Action ι M)) : ℕ :=
  actions.countP fun
    | .send _ _ => false
    | .step j _ => j = i

def Thread.begun (t : Thread M) : ℕ := t.calls.length + t.current.toList.length

def Thread.left (t : Thread M) : ℕ :=
  match t.current with
  | none => 0
  | some (_, pc) => pc.weight

theorem budget_perform {a : Action ι M} (hs : Invariant cfg s) (h : perform cfg s a = some s')
    (i : ι) : steps i [a] + (s'.threads i).left + 29 * (s.threads i).begun ≤
      (s.threads i).left + 29 * (s'.threads i).begun := by
  cases a with
  | send j msg =>
    rw [perform] at h
    split at h
    · next hcurrent =>
      cases h
      by_cases hi : i = j
      · subst hi
        simp [steps, Thread.left, Thread.begun, Thread.next, hcurrent, Pc.weight]
        omega
      · simp [steps, Function.update_of_ne hi]
    · cases h
  | step j r =>
    rw [perform] at h
    split at h
    · cases h
    · next msg pc hcurrent =>
      cases h
      by_cases hi : i = j
      · subst hi
        have hloop : pc.InLoop := by
          have htracks := hs.tracks i
          rw [Thread.Tracks, hcurrent] at htracks
          exact htracks.1
        have hweight := pc.weight_pos
        have hstep (pc' : Pc) (hnext : (pc.step cfg r s.shared).next = .goes pc') :=
          Pc.step_weight cfg r s.shared hloop hnext
        have hone : steps i [Action.step i r (M := M)] = 1 := by simp [steps]
        have hleft : (s.threads i).left = pc.weight := by rw [Thread.left, hcurrent]
        have hbegun : (s.threads i).begun = (s.threads i).calls.length + 1 := by
          rw [Thread.begun, hcurrent]
          rfl
        simp only [hone, Function.update_self]
        cases hnext : (pc.step cfg r s.shared).next with
        | goes pc' =>
          have hlt := hstep pc' hnext
          have hbegun' : ((s.threads i).next msg (.goes pc')).begun =
              (s.threads i).calls.length + 1 := rfl
          have hleft' : ((s.threads i).next msg (.goes pc')).left = pc'.weight := rfl
          omega
        | returns =>
          have hbegun' : ((s.threads i).next msg .returns).begun =
              (s.threads i).calls.length + 1 := by simp [Thread.next, Thread.begun]
          have hleft' : ((s.threads i).next msg .returns).left = 0 := rfl
          omega
        | raises =>
          have hbegun' : ((s.threads i).next msg .raises).begun =
              (s.threads i).calls.length + 1 := by simp [Thread.next, Thread.begun]
          have hleft' : ((s.threads i).next msg .raises).left = 0 := rfl
          omega
      · have hzero : steps i [Action.step j r (M := M)] = 0 := by simp [steps, Ne.symm hi]
        simp [hzero, Function.update_of_ne hi]

theorem steps_left {r : Reply} {actions : List (Action ι M)} (h : run cfg r actions = some s)
    (i : ι) : steps i actions + (s.threads i).left ≤ 29 * (s.threads i).begun := by
  induction actions using List.reverseRecOn generalizing s with
  | nil =>
    obtain ⟨s', hinit, hnil⟩ := Option.bind_eq_some_iff.mp h
    cases hnil
    obtain ⟨-, sslopt, -, rfl⟩ := init_cases hinit
    exact le_rfl
  | append_singleton actions a ih =>
    rw [run_concat] at h
    obtain ⟨s', hrun, hstep⟩ := Option.bind_eq_some_iff.mp h
    have hbefore := ih hrun
    have hbudget := budget_perform (invariant_run hrun) hstep i
    have hsteps : steps i (actions ++ [a]) = steps i actions + steps i [a] := List.countP_append
    omega

/-- However the other threads behave and the library calls end, a thread takes at most 29 steps for
each call of `send`; and it waits for no other thread, only for the library call that it has made to
end in some way. -/
theorem send_ends {r : Reply} {actions : List (Action ι M)} (h : run cfg r actions = some s)
    (i : ι) : steps i actions ≤ 29 * (s.threads i).begun ∧
      ((s.threads i).current.isSome → ∀ r', (perform cfg s (.step i r')).isSome) := by
  have hsteps := steps_left h i
  refine ⟨by omega, fun hcurrent r' ↦ ?_⟩
  obtain ⟨call, hcall⟩ := Option.isSome_iff_exists.mp hcurrent
  rw [perform, hcall]
  rfl

end Steps

end Runs

section Example

def verified : Settings := ⟨true, some "ca.pem".toList⟩

def good : Reply := ⟨false, true, true⟩

/-- The first try raises, and the second one is over a new connection. -/
def secondTry : List (Action Unit ℕ) :=
  [.send () 7, .step () good, .step () { good with raises := true }] ++
    List.replicate 7 (.step () good)

theorem secondTry_runs :
    ∃ s, run verified good secondTry = some s ∧ s.handed () = [(7, true), (7, false)] :=
  ⟨_, rfl, rfl⟩

theorem send_hands_over_second : ∃ s, run verified good secondTry = some s ∧
    (∀ i, (s.threads i).InOrder (s.handed i)) ∧
      ∀ entry ∈ s.log, ∃ sslopt, s.shared.connections[entry.2.2.1]? = some sslopt ∧
        verified.Accepts sslopt := by
  obtain ⟨s, hrun, -⟩ := secondTry_runs
  exact ⟨s, hrun, send_hands_over hrun⟩

theorem send_ends_second : ∃ s, run verified good secondTry = some s ∧
    steps () secondTry ≤ 29 * (s.threads ()).begun ∧
      ((s.threads ()).current.isSome → ∀ r', (perform verified s (.step () r')).isSome) := by
  obtain ⟨s, hrun, -⟩ := secondTry_runs
  exact ⟨s, hrun, send_ends hrun ()⟩

end Example

end Liota.Transports.WebSocket
