import Mathlib.Logic.Function.Basic
import Mathlib.Logic.Relation
import Liota.Python.Computation
import Liota.Dccs.FormatData

namespace Liota.Dccs.AwsIot

open Python.Text Python.Computation

/-- What `isinstance` tells of a registered entity. -/
inductive Kind
  | edgeSystem | device | metric
  deriving DecidableEq, Repr

/-- The registered entities. Two of them may have one name. -/
structure Entities (Id : Type) where
  kind : Id → Kind
  name : Id → Str

/-- The field `parent` of each registered entity. -/
abbrev Parents (Id : Type) := Id → Option Id

variable {Id : Type} [DecidableEq Id] (entities : Entities Id)

def createRelationship (parent child : Id) (parents : Parents Id) :
    Except PyErr (Parents Id) :=
  if entities.kind parent ≠ .edgeSystem ∧ entities.kind parent ≠ .device then .error .typeError
  else if entities.kind child ≠ .device ∧ entities.kind child ≠ .metric then .error .typeError
  else .ok (Function.update parents child (some parent))

/-- Calls made one after the other, with those passed over that raise an exception. -/
def relate (parents : Parents Id) (calls : List (Id × Id)) : Parents Id :=
  calls.foldl (fun parents call ↦
    match createRelationship entities call.1 call.2 parents with
    | .ok parents' => parents'
    | .error _ => parents) parents

omit [DecidableEq Id] in
/-- `extract_hierarchy`, with at most so many calls of itself: `none` where they do not suffice. -/
def extractHierarchy (parents : Parents Id) : ℕ → Option Id → Option (List Str)
  | _, none => some []
  | 0, some _ => none
  | n + 1, some r => (extractHierarchy parents n (parents r)).map (· ++ [entities.name r])

/-- `_get_entity_hierarchy` ends, with these names. -/
def Returns (parents : Parents Id) (r : Id) (names : List Str) : Prop :=
  ∃ n, extractHierarchy entities parents n (some r) = some names

/-- The links lead from `r` to `e`, and no further. -/
def StartsAt (parents : Parents Id) (r e : Id) : Prop :=
  Relation.ReflTransGen (fun r p ↦ parents r = some p) r e ∧ parents e = none

/-- The hierarchy of a metric is that of the documentation, with a device or without one, and the
payload names the edge system and the device. -/
structure Encloses (parents : Parents Id) (m e : Id) (device : Option Id) : Prop where
  kind : ∀ d ∈ device, entities.kind d = .device
  hierarchy : Returns entities parents m
    (entities.name e :: ((device.map entities.name).toList ++ [entities.name m]))
  payload : ∀ (V : Type) (str : V → Str) (samples : List (Sample V)) (unit : Str), samples ≠ [] →
    ∃ data, formatData str (entities.name m)
        (.awsIoT true (entities.name e :: ((device.map entities.name).toList ++ [entities.name m]))
          unit) samples =
      some (.payload (some (entities.name e)) (device.map entities.name) (entities.name m) data
        unit)

structure WellShaped (parents : Parents Id) : Prop where
  ends : ∀ r, ∃ names, Returns entities parents r names
  documented : ∀ m e, entities.kind m = .metric → StartsAt parents m e →
    entities.kind e = .edgeSystem → ∃ device, Encloses entities parents m e device

/-- The links that the documentation of `create_relationship` draws. -/
def Linked (parents : Parents Id) : Prop :=
  ∀ r p, parents r = some p →
    (entities.kind p = .edgeSystem ∧ entities.kind r ≠ .edgeSystem) ∨
    (entities.kind p = .device ∧ entities.kind r = .metric)

variable {entities} {parents : Parents Id}

theorem createRelationship_eq_ok {parent child : Id} {parents' : Parents Id}
    (h : createRelationship entities parent child parents = .ok parents') :
    entities.kind parent ≠ .metric ∧ entities.kind child ≠ .edgeSystem ∧
      parents' = Function.update parents child (some parent) := by
  unfold createRelationship at h
  split at h
  · cases h
  · next hparent =>
    split at h
    · cases h
    · next hchild =>
      refine ⟨?_, ?_, (Except.ok.inj h).symm⟩
      · intro hkind
        exact hparent ⟨by simp [hkind], by simp [hkind]⟩
      · intro hkind
        exact hchild ⟨by simp [hkind], by simp [hkind]⟩

theorem Linked.createRelationship (h : Linked entities parents) {parent child : Id}
    {parents' : Parents Id}
    (hok : AwsIot.createRelationship entities parent child parents = .ok parents')
    (hdevices : ¬ (entities.kind parent = .device ∧ entities.kind child = .device)) :
    Linked entities parents' := by
  obtain ⟨hparent, hchild, rfl⟩ := createRelationship_eq_ok hok
  intro r p hp
  by_cases hr : r = child
  · rw [hr, Function.update_self, Option.some.injEq] at hp
    rw [hr, ← hp]
    cases hkind : entities.kind parent with
    | edgeSystem => exact .inl ⟨rfl, hchild⟩
    | device =>
      apply Or.inr
      refine ⟨rfl, ?_⟩
      cases hkind' : entities.kind child with
      | edgeSystem => exact absurd hkind' hchild
      | device => exact absurd ⟨hkind, hkind'⟩ hdevices
      | metric => rfl
    | metric => exact absurd hkind hparent
  · rw [Function.update_of_ne hr] at hp
    exact h r p hp

theorem Linked.relate {calls : List (Id × Id)}
    (hdevices : ∀ call ∈ calls,
      ¬ (entities.kind call.1 = .device ∧ entities.kind call.2 = .device))
    (h : Linked entities parents) : Linked entities (AwsIot.relate entities parents calls) := by
  induction calls generalizing parents with
  | nil => exact h
  | cons call calls ih =>
    have hrest := fun call' hcall' ↦ hdevices call' (List.mem_cons_of_mem call hcall')
    rw [AwsIot.relate, List.foldl_cons]
    cases hcall : AwsIot.createRelationship entities call.1 call.2 parents with
    | error e => exact ih hrest h
    | ok parents' => exact ih hrest (h.createRelationship hcall (hdevices call List.mem_cons_self))

def Kind.depth : Kind → ℕ
  | .edgeSystem => 0
  | .device => 1
  | .metric => 2

omit [DecidableEq Id] in
theorem Linked.depth_lt (h : Linked entities parents) {r p : Id} (hp : parents r = some p) :
    (entities.kind p).depth < (entities.kind r).depth := by
  obtain ⟨hkind, hne⟩ | ⟨hkind, hr⟩ := h r p hp
  · rw [hkind]
    cases hr : entities.kind r with
    | edgeSystem => exact absurd hr hne
    | device => decide
    | metric => decide
  · rw [hkind, hr]
    decide

omit [DecidableEq Id] in
theorem Linked.extractHierarchy_isSome (h : Linked entities parents) {n : ℕ} {r : Id}
    (hn : (entities.kind r).depth ≤ n) :
    ∃ names, extractHierarchy entities parents (n + 1) (some r) = some names := by
  induction n generalizing r with
  | zero =>
    cases hp : parents r with
    | none => exact ⟨_, by rw [extractHierarchy, hp]; rfl⟩
    | some p =>
      have := h.depth_lt hp
      omega
  | succ n ih =>
    cases hp : parents r with
    | none => exact ⟨_, by rw [extractHierarchy, hp]; rfl⟩
    | some p =>
      have := h.depth_lt hp
      obtain ⟨names, hnames⟩ := ih (r := p) (by omega)
      exact ⟨_, by rw [extractHierarchy, hp, hnames]; rfl⟩

omit [DecidableEq Id] in
theorem StartsAt.eq_of_none {r e : Id} (h : StartsAt parents r e) (hr : parents r = none) :
    e = r := by
  obtain heq | ⟨p, hp, -⟩ := Relation.ReflTransGen.cases_head h.1
  · exact heq.symm
  · rw [hr] at hp
    cases hp

omit [DecidableEq Id] in
theorem StartsAt.of_some {r e p : Id} (h : StartsAt parents r e) (hp : parents r = some p) :
    StartsAt parents p e := by
  obtain heq | ⟨q, hq, hpath⟩ := Relation.ReflTransGen.cases_head h.1
  · have := h.2
    rw [← heq, hp] at this
    cases this
  · rw [hp] at hq
    rw [Option.some.inj hq]
    exact ⟨hpath, h.2⟩

omit [DecidableEq Id] in
theorem Linked.parent_eq_none (h : Linked entities parents) {e : Id}
    (he : entities.kind e = .edgeSystem) : parents e = none := by
  cases hp : parents e with
  | none => rfl
  | some p =>
    have := h.depth_lt hp
    rw [he, Kind.depth] at this
    omega

omit [DecidableEq Id] in
theorem Linked.above (h : Linked entities parents) {m e : Id} (hm : entities.kind m = .metric)
    (hstart : StartsAt parents m e) (he : entities.kind e = .edgeSystem) :
    parents e = none ∧ (parents m = some e ∨
      ∃ d, entities.kind d = .device ∧ parents m = some d ∧ parents d = some e) := by
  refine ⟨hstart.2, ?_⟩
  cases hp : parents m with
  | none =>
    rw [hstart.eq_of_none hp, hm] at he
    cases he
  | some p =>
    have hstart := hstart.of_some hp
    obtain ⟨hkind, -⟩ | ⟨hkind, -⟩ := h m p hp
    · rw [hstart.eq_of_none (h.parent_eq_none hkind)]
      exact .inl rfl
    · apply Or.inr
      cases hq : parents p with
      | none =>
        rw [hstart.eq_of_none hq, hkind] at he
        cases he
      | some q =>
        have hstart := hstart.of_some hq
        obtain ⟨hkind', -⟩ | ⟨-, hmetric⟩ := h p q hq
        · rw [hstart.eq_of_none (h.parent_eq_none hkind')]
          exact ⟨p, hkind, rfl, hq⟩
        · rw [hkind] at hmetric
          cases hmetric

omit [DecidableEq Id] in
theorem Linked.wellShaped (h : Linked entities parents) : WellShaped entities parents where
  ends r := by
    obtain ⟨names, hnames⟩ := h.extractHierarchy_isSome (le_refl (entities.kind r).depth)
    exact ⟨names, _, hnames⟩
  documented m e hm hstart he := by
    obtain ⟨hnone, hp | ⟨d, hd, hp, hq⟩⟩ := h.above hm hstart he
    · refine ⟨none, by simp, ⟨2, ?_⟩, ?_⟩
      · simp [extractHierarchy, hp, hnone]
      · intro V str samples unit hsamples
        exact ⟨_, by rw [formatData, if_neg hsamples]; rfl⟩
    · refine ⟨some d, by simp [hd], ⟨3, ?_⟩, ?_⟩
      · simp [extractHierarchy, hp, hq, hnone]
      · intro V str samples unit hsamples
        exact ⟨_, by rw [formatData, if_neg hsamples]; rfl⟩

/-- The hierarchy is well founded and of the documented shape after every sequence of calls none of
which puts a device below a device. -/
theorem wellShaped_relate (calls : List (Id × Id))
    (hdevices : ∀ call ∈ calls,
      ¬ (entities.kind call.1 = .device ∧ entities.kind call.2 = .device)) :
    WellShaped entities (relate entities (fun _ ↦ none) calls) := by
  apply Linked.wellShaped
  apply Linked.relate hdevices
  intro r p hp
  cases hp

omit [DecidableEq Id] in
theorem extractHierarchy_loop {a b : Id} (ha : parents a = some b) (hb : parents b = some a)
    (n : ℕ) : extractHierarchy entities parents n (some a) = none ∧
      extractHierarchy entities parents n (some b) = none := by
  induction n with
  | zero => exact ⟨rfl, rfl⟩
  | succ n ih =>
    constructor
    · rw [extractHierarchy, ha, ih.2]
      rfl
    · rw [extractHierarchy, hb, ih.1]
      rfl

/-- A call that puts a device below a device is accepted in every state, and the call with the two
exchanged after it as well: the links of both then never end. -/
theorem relate_devices_loop {a b : Id} (ha : entities.kind a = .device)
    (hb : entities.kind b = .device) (names : List Str) :
    ¬ Returns entities (relate entities parents [(a, b), (b, a)]) a names := by
  rintro ⟨n, hn⟩
  have hcalls : relate entities parents [(a, b), (b, a)] =
      Function.update (Function.update parents b (some a)) a (some b) := by
    simp [relate, createRelationship, ha, hb]
  rw [hcalls] at hn
  by_cases hab : a = b
  · have hself : Function.update (Function.update parents b (some a)) a (some b) a = some a := by
      rw [Function.update_self, hab]
    rw [(extractHierarchy_loop hself hself n).1] at hn
    cases hn
  · have hfirst : Function.update (Function.update parents b (some a)) a (some b) a = some b :=
      Function.update_self _ _ _
    have hsecond : Function.update (Function.update parents b (some a)) a (some b) b = some a := by
      rw [Function.update_of_ne (Ne.symm hab), Function.update_self]
    rw [(extractHierarchy_loop hfirst hsecond n).1] at hn
    cases hn

section Example

inductive HomeEntity
  | edge | hub | lamp | power
  deriving DecidableEq

def home : Entities HomeEntity where
  kind
    | .edge => .edgeSystem
    | .hub => .device
    | .lamp => .device
    | .power => .metric
  name
    | .edge => ['e']
    | .hub => ['h']
    | .lamp => ['l']
    | .power => ['p']

theorem home_wellShaped : WellShaped home (relate home (fun _ ↦ none)
    [(.edge, .hub), (.edge, .lamp), (.hub, .power), (.lamp, .power)]) :=
  wellShaped_relate _ (by decide)

/-- Each of the devices was made the parent of the other. -/
theorem home_devices_loop : ¬ WellShaped home (relate home (fun _ ↦ none)
    [(.edge, .hub), (.hub, .power), (.hub, .lamp), (.lamp, .hub)]) := by
  intro h
  obtain ⟨names, hnames⟩ := h.ends .hub
  have hloop : ∀ names, ¬ Returns home (relate home
      (relate home (fun _ ↦ none) [(.edge, .hub), (.hub, .power)])
      [(.hub, .lamp), (.lamp, .hub)]) .hub names := relate_devices_loop rfl rfl
  exact hloop names hnames

/-- With a device below a device, a metric has four names. -/
example : extractHierarchy home
    (relate home (fun _ ↦ none) [(.edge, .hub), (.hub, .lamp), (.lamp, .power)]) 4 (some .power) =
      some [['e'], ['h'], ['l'], ['p']] := by decide

end Example

end Liota.Dccs.AwsIot
