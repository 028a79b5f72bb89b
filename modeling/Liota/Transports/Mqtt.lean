import Mathlib.Data.List.Induction
import Liota.Python.Computation
import Liota.Python.Dict

namespace Liota.Transports

open Python Python.Computation Python.Text

variable {C : Type}

/-- An `Mqtt` object, the callbacks of its paho client and the subscriptions at the broker: the
quality of service for each topic of the session, or `none` without a session. -/
structure Mqtt (C : Type) where
  subDict : Dict (ℕ × C)
  callbacks : Dict C
  session : Option (Dict ℕ)

/-- What happens to an `Mqtt` object. -/
inductive Event (C : Type)
  | subscribe (topic : Str) (qos : ℕ) (callback : C)
  | unsubscribe (topic : Str)
  | onDisconnect
  | onConnect

namespace Mqtt

def initial : Mqtt C := ⟨∅, ∅, none⟩

/-- `dict.setdefault`. -/
def setdefault (topic : Str) (entry : ℕ × C) (d : Dict (ℕ × C)) : Dict (ℕ × C) :=
  if topic ∈ d then d else d.insert topic entry

def subscribe (topic : Str) (qos : ℕ) (callback : C) (s : Mqtt C) : Mqtt C where
  subDict := setdefault topic (qos, callback) s.subDict
  session := s.session.map (AList.insert topic qos)
  callbacks := s.callbacks.insert topic callback

def unsubscribe (topic : Str) (s : Mqtt C) : Mqtt C where
  subDict := s.subDict.erase topic
  session := s.session.map (AList.erase topic)
  callbacks := s.callbacks.erase topic

def onDisconnect (s : Mqtt C) : Mqtt C := { s with session := none }

/-- The loop of `on_connect` over `sub_dict`. A topic that is not ASCII is a `unicode` object, and
the line that logs it raises `UnicodeEncodeError`, a `ValueError`. -/
def resubscribe : List Str → Mqtt C → Outcome Unit × Mqtt C
  | [], s => (.ok (), s)
  | topic :: rest, s =>
    match s.subDict.lookup topic with
    | none => (.raised .typeError, s)
    | some (qos, callback) =>
      if ascii topic then resubscribe rest (s.subscribe topic qos callback)
      else (.raised .valueError, s.subscribe topic qos callback)

variable (order : KeyOrder)

/-- A new session starts without subscriptions. -/
def onConnect (s : Mqtt C) : Outcome Unit × Mqtt C :=
  resubscribe (order.keys s.subDict.keys) { s with session := some ∅ }

def apply (s : Mqtt C) : Event C → Mqtt C
  | .subscribe topic qos callback => s.subscribe topic qos callback
  | .unsubscribe topic => s.unsubscribe topic
  | .onDisconnect => s.onDisconnect
  | .onConnect => (s.onConnect order).2

def run (history : List (Event C)) : Mqtt C := history.foldl (apply order) initial

/-- The subscription to a topic that is active: its quality of service at the broker and its
callback at the client. -/
def active (s : Mqtt C) (topic : Str) : Option (ℕ × Option C) :=
  (s.session.bind (AList.lookup topic)).map fun qos ↦ (qos, s.callbacks.lookup topic)

end Mqtt

/-- The calls of `subscribe` for a topic since its last `unsubscribe`, continued by one event. -/
def Event.extend (topic : Str) (made : List (ℕ × C)) : Event C → List (ℕ × C)
  | .subscribe topic' qos callback =>
    if topic' = topic then made ++ [(qos, callback)] else made
  | .unsubscribe topic' => if topic' = topic then [] else made
  | .onDisconnect | .onConnect => made

def calls (topic : Str) (history : List (Event C)) : List (ℕ × C) :=
  history.foldl (Event.extend topic) []

/-- The subscription that the last call of `subscribe` asks for, if no `unsubscribe` follows it. -/
def inForce (topic : Str) (history : List (Event C)) : Option (ℕ × Option C) :=
  (calls topic history).getLast?.map fun call ↦ (call.1, some call.2)

/-- The topics with a call of `subscribe` that no `unsubscribe` follows. -/
def Event.subscribed (topics : List Str) : Event C → List Str
  | .subscribe topic _ _ => if topic ∈ topics then topics else topic :: topics
  | .unsubscribe topic => topics.filter (· ≠ topic)
  | .onDisconnect | .onConnect => topics

def subscribed (history : List (Event C)) : List Str := history.foldl Event.subscribed []

/-- After each `on_connect` in the history, the subscriptions in force are the active ones. -/
def Restores (order : KeyOrder) (history : List (Event C)) : Prop :=
  ∀ before, before ++ [.onConnect] <+: history → ∀ topic,
    (Mqtt.run order (before ++ [.onConnect])).active topic = inForce topic before

section Replay

variable {s : Mqtt C}

theorem lookup_setdefault (topic k : Str) (entry : ℕ × C) (d : Dict (ℕ × C)) :
    (Mqtt.setdefault topic entry d).lookup k =
      if k = topic then (d.lookup k <|> some entry) else d.lookup k := by
  unfold Mqtt.setdefault
  split
  · next hmem =>
    obtain ⟨v, hv⟩ := (Dict.mem_iff_lookup topic d).mp hmem
    split
    · next hk => rw [hk, hv]; rfl
    · rfl
  · next hmem =>
    rw [Dict.lookup_insert_eq]
    split
    · next hk => rw [hk, (Dict.not_mem_iff_lookup topic d).mp hmem]; rfl
    · rfl

theorem subscribe_subDict {topic : Str} {qos : ℕ} {callback : C} (qos' : ℕ) (callback' : C)
    (h : s.subDict.lookup topic = some (qos, callback)) :
    (s.subscribe topic qos' callback').subDict = s.subDict :=
  if_pos ((Dict.mem_iff_lookup topic s.subDict).mpr ⟨_, h⟩)

theorem active_subscribe (hsession : s.session.isSome) (topic k : Str) (qos : ℕ) (callback : C) :
    (s.subscribe topic qos callback).active k =
      if k = topic then some (qos, some callback) else s.active k := by
  obtain ⟨d, hd⟩ := Option.isSome_iff_exists.mp hsession
  simp only [Mqtt.active, Mqtt.subscribe, hd, Option.map_some, Option.bind_some,
    Dict.lookup_insert_eq]
  split
  · rfl
  · rfl

/-- The topics that the loop subscribes to: it ends after the first that is not ASCII. -/
def reached : List Str → List Str
  | [] => []
  | topic :: rest => if ascii topic then topic :: reached rest else [topic]

theorem subset_reached_iff {topics : List Str} (hnodup : topics.Nodup) :
    topics ⊆ reached topics ↔ ∀ topic ∈ topics.dropLast, ascii topic := by
  induction topics with
  | nil => simp [reached]
  | cons topic rest ih =>
    obtain ⟨hnot, hrest⟩ := List.nodup_cons.mp hnodup
    cases rest with
    | nil => by_cases h : ascii topic <;> simp [reached, h]
    | cons next others =>
      rw [List.dropLast_cons_of_ne_nil (List.cons_ne_nil _ _), List.forall_mem_cons,
        ← ih hrest, reached]
      split
      · next hascii =>
        rw [List.cons_subset]
        constructor
        · rintro ⟨-, h⟩
          refine ⟨hascii, fun k hk ↦ (List.mem_cons.mp (h hk)).resolve_left ?_⟩
          intro heq
          exact hnot (heq ▸ hk)
        · rintro ⟨-, h⟩
          exact ⟨List.mem_cons_self, fun k hk ↦ List.mem_cons_of_mem _ (h hk)⟩
      · next hascii =>
        refine iff_of_false (fun h ↦ ?_) fun h ↦ hascii h.1
        have hnext := List.mem_singleton.mp (h (List.mem_cons_of_mem _ List.mem_cons_self))
        exact hnot (hnext ▸ List.mem_cons_self)

theorem resubscribe_subDict (topics : List Str) (s : Mqtt C) :
    (Mqtt.resubscribe topics s).2.subDict = s.subDict := by
  induction topics generalizing s with
  | nil => rfl
  | cons topic rest ih =>
    rw [Mqtt.resubscribe]
    split
    · rfl
    · next qos callback hlookup =>
      split
      · rw [ih, subscribe_subDict _ _ hlookup]
      · exact subscribe_subDict _ _ hlookup

theorem active_resubscribe (topics : List Str) (hmem : ∀ topic ∈ topics, topic ∈ s.subDict)
    (hsession : s.session.isSome) (k : Str) :
    (Mqtt.resubscribe topics s).2.active k =
      if k ∈ reached topics then (s.subDict.lookup k).map fun call ↦ (call.1, some call.2)
      else s.active k := by
  induction topics generalizing s with
  | nil => simp [Mqtt.resubscribe, reached]
  | cons topic rest ih =>
    obtain ⟨⟨qos, callback⟩, hlookup⟩ :=
      (Dict.mem_iff_lookup topic s.subDict).mp (hmem topic List.mem_cons_self)
    have hsession' : (s.subscribe topic qos callback).session.isSome := by
      simpa [Mqtt.subscribe] using hsession
    have hsame := subscribe_subDict qos callback hlookup
    rw [Mqtt.resubscribe, hlookup, reached]
    dsimp only
    split
    · have hrest : ∀ t ∈ rest, t ∈ (s.subscribe topic qos callback).subDict := by
        intro t ht
        rw [hsame]
        exact hmem t (List.mem_cons_of_mem _ ht)
      rw [ih hrest hsession', hsame, active_subscribe hsession]
      by_cases hk : k = topic
      · rw [hk]
        simp [hlookup]
      · simp [hk]
    · rw [active_subscribe hsession]
      by_cases hk : k = topic
      · rw [hk]
        simp [hlookup]
      · simp [hk]

theorem active_onConnect (order : KeyOrder) (s : Mqtt C) (k : Str) :
    (s.onConnect order).2.active k =
      if k ∈ reached (order.keys s.subDict.keys) then
        (s.subDict.lookup k).map fun call ↦ (call.1, some call.2)
      else none := by
  rw [Mqtt.onConnect, active_resubscribe _ (fun topic htopic ↦ ?_) rfl]
  · rfl
  · exact AList.mem_keys.mpr ((order.perm s.subDict.keys).mem_iff.mp htopic)

theorem calls_concat (topic : Str) (history : List (Event C)) (event : Event C) :
    calls topic (history ++ [event]) = event.extend topic (calls topic history) := by
  rw [calls, List.foldl_append]
  rfl

theorem run_concat (order : KeyOrder) (history : List (Event C)) (event : Event C) :
    Mqtt.run order (history ++ [event]) = (Mqtt.run order history).apply order event := by
  rw [Mqtt.run, List.foldl_append]
  rfl

theorem lookup_subDict (order : KeyOrder) (history : List (Event C)) (topic : Str) :
    (Mqtt.run order history).subDict.lookup topic = (calls topic history).head? := by
  induction history using List.reverseRecOn with
  | nil => rfl
  | append_singleton history event ih =>
    rw [run_concat, calls_concat]
    cases event with
    | subscribe topic' qos callback =>
      simp only [Mqtt.apply, Mqtt.subscribe, lookup_setdefault, ih, Event.extend]
      by_cases h : topic = topic'
      · rw [if_pos h, if_pos h.symm, List.head?_append]
        cases (calls topic history).head? with
        | none => rfl
        | some call => rfl
      · rw [if_neg h, if_neg (Ne.symm h)]
    | unsubscribe topic' =>
      simp only [Mqtt.apply, Mqtt.unsubscribe, Dict.lookup_erase_eq, ih, Event.extend]
      by_cases h : topic = topic'
      · rw [if_pos h, if_pos h.symm]
        rfl
      · rw [if_neg h, if_neg (Ne.symm h)]
    | onDisconnect => exact ih
    | onConnect =>
      simp only [Mqtt.apply, Mqtt.onConnect, resubscribe_subDict]
      exact ih

theorem keys_subDict (order : KeyOrder) (history : List (Event C)) :
    (Mqtt.run order history).subDict.keys = subscribed history := by
  induction history using List.reverseRecOn with
  | nil => rfl
  | append_singleton history event ih =>
    have hstep : subscribed (history ++ [event]) = event.subscribed (subscribed history) := by
      rw [subscribed, List.foldl_append]
      rfl
    rw [run_concat, hstep, ← ih]
    cases event with
    | subscribe topic qos callback =>
      simp only [Mqtt.apply, Mqtt.subscribe, Mqtt.setdefault, Event.subscribed, AList.mem_keys]
      split
      · rfl
      · next hnot =>
        exact Dict.keys_insert_of_not_mem hnot (qos, callback)
    | unsubscribe topic => exact Dict.keys_erase topic _
    | onDisconnect => rfl
    | onConnect =>
      simp only [Mqtt.apply, Mqtt.onConnect, resubscribe_subDict]
      rfl

end Replay

/-- Each reconnection restores the subscriptions in force if and only if, at each reconnection, the
calls for a topic since its last `unsubscribe` begin and end with the same one, and the topics are
ASCII but for the one that the dictionary lists last. -/
theorem restores_iff_first_last (order : KeyOrder) (history : List (Event C)) :
    Restores order history ↔ ∀ before, before ++ [.onConnect] <+: history →
      (∀ topic, (calls topic before).head? = (calls topic before).getLast?) ∧
      ∀ topic ∈ (order.keys (subscribed before)).dropLast, ascii topic := by
  have hinj : Function.Injective fun call : ℕ × C ↦ (call.1, some call.2) := by
    intro call call' hcall
    have h : (call.1, some call.2) = (call'.1, some call'.2) := hcall
    obtain ⟨hqos, hcallback⟩ := Prod.mk.inj h
    exact Prod.ext hqos (Option.some.inj hcallback)
  have hkeys (before : List (Event C)) (topic : Str) :
      topic ∈ order.keys (subscribed before) ↔ calls topic before ≠ [] := by
    rw [(order.perm _).mem_iff, ← keys_subDict order, ← AList.mem_keys, Dict.mem_iff_lookup,
      ← Option.isSome_iff_exists, lookup_subDict, List.isSome_head?]
  have hnodup (before : List (Event C)) : (order.keys (subscribed before)).Nodup := by
    rw [(order.perm _).nodup_iff, ← keys_subDict order]
    exact AList.keys_nodup _
  have hactive (before : List (Event C)) (topic : Str) :
      (Mqtt.run order (before ++ [.onConnect])).active topic =
        if topic ∈ reached (order.keys (subscribed before)) then
          (calls topic before).head?.map fun call ↦ (call.1, some call.2)
        else none := by
    rw [run_concat, Mqtt.apply, active_onConnect, lookup_subDict, keys_subDict]
  constructor
  · intro h before hbefore
    have hall : order.keys (subscribed before) ⊆ reached (order.keys (subscribed before)) := by
      intro topic htopic
      by_contra hnot
      have hsame := h before hbefore topic
      rw [hactive, if_neg hnot, inForce, eq_comm, Option.map_eq_none_iff,
        List.getLast?_eq_none_iff] at hsame
      exact (hkeys before topic).mp htopic hsame
    refine ⟨fun topic ↦ ?_, (subset_reached_iff (hnodup before)).mp hall⟩
    have hsame := h before hbefore topic
    rw [hactive, inForce] at hsame
    by_cases htopic : topic ∈ order.keys (subscribed before)
    · rw [if_pos (hall htopic)] at hsame
      exact Option.map_injective hinj hsame
    · have hnil := not_not.mp ((hkeys before topic).not.mp htopic)
      rw [hnil]
      rfl
  · intro h before hbefore topic
    obtain ⟨hsame, hascii⟩ := h before hbefore
    have hall := (subset_reached_iff (hnodup before)).mpr hascii
    rw [hactive, inForce, ← hsame]
    split
    · rfl
    · next hnot =>
      have hnil := not_not.mp ((hkeys before topic).not.mp fun htopic ↦ hnot (hall htopic))
      rw [hnil]
      rfl

def anyOrder : KeyOrder := ⟨id, List.Perm.refl⟩

/-- A second call for a topic is forgotten by the next session. -/
theorem second_subscription_not_restored :
    ¬ Restores anyOrder [.onConnect, .subscribe "t".toList 0 false,
      .subscribe "t".toList 1 true, .onDisconnect, .onConnect] := by
  intro h
  have hlast := h [.onConnect, .subscribe "t".toList 0 false, .subscribe "t".toList 1 true,
    .onDisconnect] (List.prefix_refl _) "t".toList
  revert hlast
  decide

end Liota.Transports
