import Mathlib.Data.Int.Basic
import Liota.Python.Text

namespace Liota.Dccs

open Python.Text

/-- An element of the `values` queue of a metric: a timestamp in milliseconds and a value. -/
abbrev Sample (V : Type) := ℤ × V

/-- The data centre component a metric is registered with, and what its `_format_data` reads
besides the samples: the parent's entity, or the names from the edge system down to the metric and
the text of the unit. -/
inductive Dcc
  | graphite
  | iotControlCenter (version : ℕ) (kind id name : Str)
  | awsIoT (encloseMetadata : Bool) (entityHierarchy : List Str) (unit : Str)
  deriving DecidableEq

/-- What is passed to `comms.send`; the two JSON texts are given by the objects that
`json.dumps` is called with. -/
inductive Message (V : Type)
  | text (message : Str)
  | addStats (version : ℕ) (kind id name statKey : Str) (timestamps : List ℤ) (data : List V)
  | payload (edgeSystemName deviceName : Option Str) (metricName : Str)
      (metricData : List (V × ℤ)) (unit : Str)
  deriving DecidableEq

variable {V : Type} (str : V → Str)

/-- `'%s %s %d\n' % (name, v[1], v[0] / 1000)`; the division rounds down. -/
def graphiteLine (name : Str) (v : Sample V) : Str :=
  name ++ ' ' :: str v.2 ++ ' ' :: (toString (v.1 / 1000)).toList ++ ['\n']

/-- `_format_data` of the three components, for the samples taken from the queue; `none` if no
message is sent. -/
def formatData (name : Str) (dcc : Dcc) (samples : List (Sample V)) : Option (Message V) :=
  if samples = [] then none
  else
    match dcc with
    | .graphite =>
      let message := samples.foldl (fun message v ↦ message ++ graphiteLine str name v) []
      if message = [] then none else some (.text message)
    | .iotControlCenter version kind id parent =>
      let (timestamps, values) := samples.foldl
        (fun acc m ↦ (acc.1 ++ [m.1], acc.2 ++ [m.2])) ([], [])
      if timestamps = [] then none
      else some (.addStats version kind id parent name timestamps values)
    | .awsIoT encloseMetadata entityHierarchy unit =>
      let metricData := samples.foldl (fun list m ↦ list ++ [(m.2, m.1)]) []
      match encloseMetadata, entityHierarchy with
      | true, [edgeSystem, device, _] =>
        some (.payload (some edgeSystem) (some device) name metricData unit)
      | true, [edgeSystem, _] => some (.payload (some edgeSystem) none name metricData unit)
      | _, _ => some (.payload none none name metricData unit)

/-- The message carries these samples: Graphite a line for each with the time in seconds,
IotControlCenter their timestamps and their values as two lists, AWSIoT a list of pairs. -/
def Carries (name : Str) (message : Message V) (samples : List (Sample V)) : Prop :=
  match message with
  | .text text => text = samples.flatMap (graphiteLine str name)
  | .addStats _ _ _ _ statKey timestamps data =>
    statKey = name ∧ timestamps.length = data.length ∧ timestamps.zip data = samples
  | .payload _ _ metricName metricData _ =>
    metricName = name ∧ metricData = samples.map Prod.swap

theorem graphiteLine_ne_nil (name : Str) (v : Sample V) : graphiteLine str name v ≠ [] := by
  simp [graphiteLine]

theorem foldl_append_flatMap {α β : Type} (f : α → List β) (acc : List β) (l : List α) :
    l.foldl (fun acc x ↦ acc ++ f x) acc = acc ++ l.flatMap f := by
  induction l generalizing acc with
  | nil => simp
  | cons x l ih => rw [List.foldl_cons, ih, List.flatMap_cons, List.append_assoc]

theorem foldl_unzip (acc : List ℤ × List V) (samples : List (Sample V)) :
    samples.foldl (fun acc m ↦ (acc.1 ++ [m.1], acc.2 ++ [m.2])) acc =
      (acc.1 ++ samples.map Prod.fst, acc.2 ++ samples.map Prod.snd) := by
  induction samples generalizing acc with
  | nil => simp
  | cons m samples ih => rw [List.foldl_cons, ih]; simp

theorem formatData_carries (name : Str) (dcc : Dcc) {samples : List (Sample V)}
    (h : samples ≠ []) :
    ∃ message, formatData str name dcc samples = some message ∧
      Carries str name message samples := by
  obtain ⟨v, rest, rfl⟩ := List.exists_cons_of_ne_nil h
  unfold formatData
  rw [if_neg h]
  cases dcc with
  | graphite =>
    simp only [foldl_append_flatMap, List.nil_append]
    rw [if_neg (by simp [graphiteLine_ne_nil])]
    exact ⟨_, rfl, rfl⟩
  | iotControlCenter version kind id parent =>
    simp only [foldl_unzip, List.nil_append]
    rw [if_neg (by simp)]
    refine ⟨_, rfl, rfl, by simp, ?_⟩
    exact (List.zip_of_prod rfl rfl).symm
  | awsIoT encloseMetadata entityHierarchy unit =>
    have hdata : (v :: rest).foldl (fun list (m : Sample V) ↦ list ++ [(m.2, m.1)]) [] =
        (v :: rest).map Prod.swap := by
      rw [foldl_append_flatMap, List.nil_append, ← List.map_eq_flatMap]
      rfl
    dsimp only
    rw [hdata]
    split
    · exact ⟨_, rfl, rfl, rfl⟩
    · exact ⟨_, rfl, rfl, rfl⟩
    · exact ⟨_, rfl, rfl, rfl⟩

end Liota.Dccs
