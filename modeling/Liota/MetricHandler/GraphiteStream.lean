import Mathlib
import Liota.MetricHandler.Delivery

namespace Liota.MetricHandler

open Python.Text Dccs

variable {M V : Type}

def Word (w : Str) : Prop := ∀ c ∈ w, c ≠ ' ' ∧ c ≠ '\n' ∧ c ≠ '\r'

theorem word_digits (n : ℕ) : Word (Nat.toDigits 10 n) := by
  intro c hc
  have hdigit := Nat.isDigit_of_mem_toDigits (by decide) (by decide) hc
  refine ⟨?_, ?_, ?_⟩
  · rintro rfl
    cases hdigit
  · rintro rfl
    cases hdigit
  · rintro rfl
    cases hdigit

theorem word_toString (n : ℤ) : Word (toString n).toList := by
  intro c hc
  rw [Int.toString_eq_repr] at hc
  cases n with
  | ofNat n =>
    apply word_digits n
    simpa [Int.repr, Nat.repr] using hc
  | negSucc n =>
    have hcases : c = '-' ∨ c ∈ Nat.toDigits 10 (n + 1) := by
      simpa [Int.repr, Nat.repr] using hc
    rcases hcases with rfl | hdigit
    · decide
    · exact word_digits (n + 1) c hdigit

section Lines

variable (str : V → Str)

def point (v : Sample V) : Str × ℤ := (str v.2, v.1 / 1000)

def readLine (name line : Str) : Option (Str × ℤ) :=
  match line.splitOn ' ' with
  | [name', value, time] =>
    if name' = name then (String.ofList time).toInt?.map fun t ↦ (value, t) else none
  | _ => none

def series (name text : Str) : List (Str × ℤ) := (splitlines text).filterMap (readLine name)

def graphiteRecord (name : Str) (v : Sample V) : Str :=
  [' '].intercalate [name, str v.2, (toString (v.1 / 1000)).toList]

theorem graphiteLine_eq (name : Str) (v : Sample V) :
    graphiteLine str name v = graphiteRecord str name v ++ ['\n'] := by
  simp [graphiteLine, graphiteRecord, List.intercalate]

variable {str} {name name' : Str} {v : Sample V}

theorem readLine_record (hname : Word name') (hvalue : Word (str v.2)) :
    readLine name (graphiteRecord str name' v) =
      if name' = name then some (point str v) else none := by
  have hsplit : (graphiteRecord str name' v).splitOn ' ' =
      [name', str v.2, (toString (v.1 / 1000)).toList] := by
    apply List.splitOn_intercalate
    · simp only [List.forall_mem_cons]
      refine ⟨fun h ↦ (hname _ h).1 rfl, fun h ↦ (hvalue _ h).1 rfl, ?_, by simp⟩
      exact fun h ↦ (word_toString _ _ h).1 rfl
    · simp
  have htime : (String.ofList (toString (v.1 / 1000)).toList).toInt? = some (v.1 / 1000) := by
    rw [String.ofList_toList]
    exact Int.toInt?_repr _
  rw [readLine, hsplit]
  simp only [htime, Option.map_some]
  rfl

theorem noNewline_record (hname : Word name) (hvalue : Word (str v.2)) :
    NoNewline (graphiteRecord str name v) := by
  intro c hc
  have hcases : c ∈ name ∨ c = ' ' ∨ c ∈ str v.2 ∨ c ∈ (toString (v.1 / 1000)).toList := by
    simp only [graphiteRecord, List.intercalate, List.intersperse, List.flatten_cons,
      List.mem_append, List.mem_singleton, List.flatten_nil, List.not_mem_nil, or_false] at hc
    tauto
  rcases hcases with h | rfl | h | h
  · exact (hname c h).2
  · decide
  · exact (hvalue c h).2
  · exact (word_toString _ c h).2

theorem series_lines (name : Str) (hname : Word name') (hvalue : ∀ v, Word (str v))
    (samples : List (Sample V)) (rest : Str) :
    series name (samples.flatMap (graphiteLine str name') ++ rest) =
      (if name' = name then samples.map (point str) else []) ++ series name rest := by
  have hlines : samples.flatMap (graphiteLine str name') =
      unlines (samples.map (graphiteRecord str name')) := by
    rw [unlines, List.flatMap_map]
    exact List.flatMap_congr fun v _ ↦ graphiteLine_eq str name' v
  have hnoNewline : ∀ line ∈ samples.map (graphiteRecord str name'), NoNewline line := by
    intro line hline
    obtain ⟨v, -, rfl⟩ := List.mem_map.mp hline
    exact noNewline_record hname (hvalue v.2)
  rw [series, series, hlines, splitlines_unlines_append _ rest hnoNewline, List.filterMap_append,
    List.filterMap_map]
  congr 1
  by_cases hname' : name' = name
  · rw [if_pos hname', ← List.filterMap_eq_map]
    apply List.filterMap_congr
    intro v _
    rw [Function.comp_apply, readLine_record hname (hvalue v.2), if_pos hname']
    rfl
  · rw [if_neg hname', List.filterMap_eq_nil_iff]
    intro v _
    rw [Function.comp_apply, readLine_record hname (hvalue v.2), if_neg hname']

end Lines

section Messages

variable (str : V → Str)

def points (name : Str) : Message V → List (Str × ℤ)
  | .text message => series name message
  | .addStats _ _ _ _ _ timestamps data => (timestamps.zip data).map (point str)
  | .payload _ _ _ metricData _ => metricData.map fun d ↦ point str d.swap

variable {str} {name : Str}

theorem points_of_carries (hname : Word name) (hvalue : ∀ v, Word (str v)) {message : Message V}
    {samples : List (Sample V)} (h : Carries str name message samples) :
    points str name message = samples.map (point str) := by
  cases message with
  | text message =>
    have hlines := series_lines name hname hvalue samples []
    rw [List.append_nil, if_pos rfl] at hlines
    rw [points, show message = _ from h, hlines]
    simp [series]
  | addStats version kind id parent statKey timestamps data =>
    obtain ⟨-, -, hzip⟩ := h
    rw [points, hzip]
  | payload edgeSystem device metricName metricData unit =>
    obtain ⟨-, hdata⟩ := h
    rw [points, hdata, List.map_map]
    exact List.map_congr_left fun v _ ↦ by rw [Function.comp_apply, Prod.swap_swap]

theorem points_of_forall₂ (hname : Word name) (hvalue : ∀ v, Word (str v))
    {messages : List (Message V)} {groups : List (List (Sample V))}
    (h : List.Forall₂ (Carries str name) messages groups) :
    messages.flatMap (points str name) = groups.flatten.map (point str) := by
  induction h with
  | nil => rfl
  | cons hcarries _ ih =>
    rw [List.flatMap_cons, List.flatten_cons, List.map_append, ih,
      points_of_carries hname hvalue hcarries]

theorem formatData_text {dcc : Dcc} {samples : List (Sample V)} {message : Str}
    (h : formatData str name dcc samples = some (.text message)) :
    dcc = .graphite ∧ message = samples.flatMap (graphiteLine str name) := by
  have hne : samples ≠ [] := by
    rintro rfl
    cases h
  obtain ⟨message', hmessage, hcarries⟩ := formatData_carries str name dcc hne
  rw [h] at hmessage
  obtain rfl := Option.some.inj hmessage
  refine ⟨?_, hcarries⟩
  cases dcc with
  | graphite => rfl
  | iotControlCenter version kind id parent =>
    rw [formatData, if_neg hne] at h
    simp only at h
    split at h
    · cases h
    · cases h
  | awsIoT encloseMetadata hierarchy unit =>
    rw [formatData, if_neg hne] at h
    simp only at h
    split at h
    · cases h
    · cases h
    · cases h

theorem formatData_graphite {samples : List (Sample V)} {message : Message V}
    (h : formatData str name .graphite samples = some message) : ∃ text, message = .text text := by
  rw [formatData] at h
  split at h
  · cases h
  · simp only at h
    split at h
    · cases h
    · exact ⟨_, (Option.some.inj h).symm⟩

end Messages

variable [DecidableEq M] (cfg : Config M V)

def written (s : State M V) : Action M V → Str
  | .send =>
    match s.sender with
    | .draining m 0 samples =>
      match formatData cfg.str (cfg.name m) (cfg.dcc m) samples with
      | some (.text message) => message
      | _ => []
    | _ => []
  | _ => []

def streamed : List (Action M V) → State M V → Str
  | [], _ => []
  | a :: actions, s =>
    written cfg s a ++ ((perform cfg a s).map (streamed actions)).getD []

variable {cfg} {s t : State M V} {a : Action M V} {m : M}

theorem Sender.Moves.sent_cases {w pc : Sender M V} {e : Effect M V} (h : w.Moves cfg s a pc e) :
    (∃ m samples message, a = .send ∧ w = .draining m 0 samples ∧ e = .pass m message ∧
        formatData cfg.str (cfg.name m) (cfg.dcc m) samples = some message) ∨
      (a = .send → ∀ m samples, w = .draining m 0 samples →
        formatData cfg.str (cfg.name m) (cfg.dcc m) samples = none) ∧
      ∀ m, ((e.apply cfg s).metrics m).sent = (s.metrics m).sent := by
  cases h with
  | pass hformat => exact .inl ⟨_, _, _, rfl, rfl, rfl, hformat⟩
  | empty hformat =>
    refine .inr ⟨fun _ m samples hw ↦ ?_, fun m ↦ rfl⟩
    cases hw
    exact hformat
  | formatRaises => exact .inr ⟨fun ha ↦ (by cases ha), fun m ↦ rfl⟩
  | send | get =>
    refine .inr ⟨fun _ m samples hw ↦ (by cases hw), fun m ↦ ?_⟩
    simp only [Effect.apply, Effect.onMetric]
    split_ifs
    · rfl
    · rfl
  | _ => exact .inr ⟨fun _ m samples hw ↦ (by cases hw), fun m ↦ rfl⟩

theorem Moves.sent_eq (h : Moves cfg s a t) (ha : a ≠ .send) :
    (t.metrics m).sent = (s.metrics m).sent := by
  cases h with
  | tick ms => rfl
  | endChecker => rfl
  | endSender => rfl
  | client h => exact ((h.aside (m := m)).frame cfg s).2.2
  | checker h => exact ((h.aside (m := m)).frame cfg s).2.2
  | worker _ _ h =>
    rcases h.aside_or_put (m := m) with haside | ⟨v, rfl⟩
    · exact (haside.frame cfg s).2.2
    · simp [State.setWorker, Effect.apply, Effect.onMetric]
  | sender h =>
    rcases h.sent_cases with ⟨_, _, _, hsend, -⟩ | ⟨-, hsame⟩
    · exact absurd hsend ha
    · exact hsame m

/-- A step writes nothing and passes no message of Graphite's on, or it writes the lines that it
passes on as the message of one metric. -/
theorem written_cases (h : perform cfg a s = some t) :
    (written cfg s a = [] ∧
        ∀ m, cfg.dcc m = .graphite → (t.metrics m).sent = (s.metrics m).sent) ∨
      ∃ (m : M) (samples : List (Sample V)), cfg.dcc m = .graphite ∧
        written cfg s a = samples.flatMap (graphiteLine cfg.str (cfg.name m)) ∧
        ∀ m', (t.metrics m').sent =
          (s.metrics m').sent ++ if m = m' then [.text (written cfg s a)] else [] := by
  by_cases ha : a = .send
  · subst ha
    obtain ⟨⟨pc, e⟩, hstep, rfl⟩ := Option.map_eq_some_iff.mp h
    have hmoves := Sender.step_moves hstep
    rcases hmoves.sent_cases with ⟨m, samples, message, -, hpc, rfl, hformat⟩ | ⟨hnone, hsame⟩
    · have hsent (m' : M) : ((((Effect.pass m message).apply cfg s).setSender pc).metrics m').sent =
          (s.metrics m').sent ++ if m = m' then [message] else [] := by
        simp only [State.setSender, Effect.apply, Effect.onMetric]
        split_ifs
        · rfl
        · exact (List.append_nil _).symm
      by_cases hgraphite : cfg.dcc m = .graphite
      · right
        obtain ⟨text, rfl⟩ : ∃ text, message = .text text := by
          rw [hgraphite] at hformat
          exact formatData_graphite hformat
        have hwritten : written cfg s .send = text := by
          rw [written, hpc]
          simp only [hformat]
        rw [hwritten]
        exact ⟨m, samples, hgraphite, (formatData_text hformat).2, hsent⟩
      · left
        constructor
        · rw [written, hpc]
          simp only [hformat]
          cases message with
          | text message => exact absurd (formatData_text hformat).1 hgraphite
          | addStats => rfl
          | payload => rfl
        · intro m' hm'
          have hne : m ≠ m' := by
            rintro rfl
            exact hgraphite hm'
          rw [hsent, if_neg hne, List.append_nil]
    · left
      refine ⟨?_, fun m _ ↦ hsame m⟩
      rw [written]
      split
      · next m samples hpc => rw [hnone rfl m samples hpc]
      · rfl
  · left
    refine ⟨?_, fun m _ ↦ (perform_moves h).sent_eq ha⟩
    cases a with
    | send => exact absurd rfl ha
    | _ => rfl

section Reading

variable {actions : List (Action M V)}
  (hname : ∀ m, cfg.dcc m = .graphite → Word (cfg.name m)) (hvalue : ∀ v, Word (cfg.str v))
  (hdistinct : ∀ m m', cfg.dcc m = .graphite → cfg.dcc m' = .graphite →
    cfg.name m = cfg.name m' → m = m')

include hname hvalue hdistinct

theorem series_written (h : perform cfg a s = some t) (hm : cfg.dcc m = .graphite) (rest : Str) :
    (s.metrics m).sent.flatMap (points cfg.str (cfg.name m)) ++
        series (cfg.name m) (written cfg s a ++ rest) =
      (t.metrics m).sent.flatMap (points cfg.str (cfg.name m)) ++ series (cfg.name m) rest := by
  rcases written_cases h with ⟨hnothing, hsent⟩ | ⟨m', samples, hm', hwritten, hsent⟩
  · rw [hnothing, hsent m hm, List.nil_append]
  · have hlines := series_lines (cfg.name m) (hname m' hm') hvalue samples rest
    rw [hsent, List.flatMap_append, List.append_assoc, hwritten, hlines]
    congr 2
    by_cases heq : m' = m
    · subst heq
      have hcarries : Carries cfg.str (cfg.name m')
          (.text (samples.flatMap (graphiteLine cfg.str (cfg.name m')))) samples := rfl
      rw [if_pos rfl, if_pos rfl, List.flatMap_singleton,
        points_of_carries (hname m' hm') hvalue hcarries]
    · rw [if_neg fun hnames ↦ heq (hdistinct m' m hm' hm hnames), if_neg heq]
      rfl

theorem series_streamed (h : run cfg actions s = some t) (hm : cfg.dcc m = .graphite) :
    (s.metrics m).sent.flatMap (points cfg.str (cfg.name m)) ++
        series (cfg.name m) (streamed cfg actions s) =
      (t.metrics m).sent.flatMap (points cfg.str (cfg.name m)) := by
  induction actions generalizing s with
  | nil =>
    obtain rfl := Option.some.inj h
    rw [streamed]
    simp [series]
  | cons a actions ih =>
    obtain ⟨u, hu, hrest⟩ := Option.bind_eq_some_iff.mp h
    rw [streamed, hu, Option.map_some, Option.getD_some,
      series_written hname hvalue hdistinct hu hm]
    exact ih hrest

end Reading

/-- All Graphite metrics share a connection. If they have different names, and names and values are
words, then from what a run writes to it the server reads for each metric the samples that were
collected, in their order and with the time in seconds, up to those that wait to be sent; as long as
no message fails. -/
theorem graphite_reads (cfg : Config M V) (clock : ℤ) (n : ℕ) (actions : List (Action M V))
    (s : State M V) (h : run cfg actions (State.initial clock n) = some s)
    (hname : ∀ m, cfg.dcc m = .graphite → Word (cfg.name m)) (hvalue : ∀ v, Word (cfg.str v))
    (hdistinct : ∀ m m', cfg.dcc m = .graphite → cfg.dcc m' = .graphite →
      cfg.name m = cfg.name m' → m = m')
    (hformats : .formatRaises ∉ actions) (m : M) (hm : cfg.dcc m = .graphite) :
    series (cfg.name m) (streamed cfg actions (State.initial clock n)) ++
        (s.sender.inHand m ++ (s.metrics m).values).map (point cfg.str) =
      (s.metrics m).stored.map (point cfg.str) := by
  have hreach : Reaches cfg (fun s a ↦ a = .formatRaises → s.sender.busy ≠ some m)
      (State.initial clock n) s := by
    refine Reaches.refl.trans_run h fun _ a ha hraises ↦ ?_
    rw [hraises] at ha
    exact absurd ha hformats
  have hhanded : Handed cfg m s :=
    hreach.invariant (handed_initial clock n) fun hformats hs hm ↦ hs.moves hm hformats
  obtain ⟨groups, hcarries, hconcat⟩ := hhanded.carried
  have hstream := series_streamed hname hvalue hdistinct h hm
  have hnone : ((State.initial clock n : State M V).metrics m).sent = [] := rfl
  rw [points_of_forall₂ (hname m hm) hvalue hcarries, hnone, List.flatMap_nil,
    List.nil_append] at hstream
  rw [hstream, ← List.map_append, ← List.append_assoc, hconcat]

def graphiteConfig : Config Bool ℤ :=
  { plainConfig Bool 1 1 with name := fun m ↦ if m then "cpu".toList else "disk".toList }

def graphiteActions : List (Action Bool ℤ) :=
  startActions true 1000 ++ startActions false 1000 ++ List.replicate 3 (Action.collect 0) ++
    [Action.returns 0 (.list [(1500, 7), (2999, 8)])] ++ List.replicate 15 (Action.collect 0) ++
    [Action.returns 0 (.value 5)] ++ List.replicate 11 (Action.collect 0) ++
    List.replicate 17 Action.send

theorem graphite_reads_cpu : ∃ s, run graphiteConfig graphiteActions (State.initial 0 1) = some s ∧
    streamed graphiteConfig graphiteActions (State.initial 0 1) =
      "cpu 7 1\ncpu 8 2\ndisk 5 2\n".toList ∧
    series "cpu".toList (streamed graphiteConfig graphiteActions (State.initial 0 1)) ++
        (s.sender.inHand true ++ (s.metrics true).values).map (point graphiteConfig.str) =
      (s.metrics true).stored.map (point graphiteConfig.str) := by
  obtain ⟨s, hs⟩ : ∃ s, run graphiteConfig graphiteActions (State.initial 0 1) = some s :=
    Option.isSome_iff_exists.mp (by decide +kernel)
  have hstream : streamed graphiteConfig graphiteActions (State.initial 0 1) =
      "cpu 7 1\ncpu 8 2\ndisk 5 2\n".toList := by decide +kernel
  have hname (m : Bool) : Word (graphiteConfig.name m) := by
    cases m with
    | true => simp [graphiteConfig, Word]
    | false => simp [graphiteConfig, Word]
  have hdistinct (m m' : Bool) (h : graphiteConfig.name m = graphiteConfig.name m') : m = m' := by
    cases m with
    | true =>
      cases m' with
      | true => rfl
      | false => exact absurd h (by decide)
    | false =>
      cases m' with
      | true => exact absurd h (by decide)
      | false => rfl
  refine ⟨s, hs, hstream, graphite_reads graphiteConfig 0 1 graphiteActions s hs
    (fun m _ ↦ hname m) word_toString (fun m m' _ _ h ↦ hdistinct m m' h) ?_ true rfl⟩
  simp [graphiteActions, startActions]

end Liota.MetricHandler
