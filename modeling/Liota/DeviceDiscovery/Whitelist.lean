import Liota.DeviceDiscovery.Names

namespace Liota.DeviceDiscovery

open Python Python.Computation Python.Text

/-- The class of `DEVICE_TYPE_SAFE_REGEX` and of `DEVICE_KEY_SAFE_REGEX`. -/
def typeChar (c : Char) : Bool := c.isAlphanum || c = '_' || c = '-'

/-- The class of `DEVICE_VAL_SAFE_REGEX`. -/
def valChar (c : Char) : Bool := c.isAlphanum || c = '.' || c = '_' || c = '-'

theorem typeSafe_eq (text : Str) : typeSafe text = safeMatch typeChar text := rfl

theorem keySafe_eq (text : Str) : keySafe text = safeMatch typeChar text := rfl

theorem valSafe_eq (text : Str) : valSafe text = safeMatch valChar text := rfl

theorem valChar_of_typeChar {c : Char} (h : typeChar c = true) : valChar c = true := by
  simp only [typeChar, valChar, Bool.or_eq_true] at h ⊢
  tauto

theorem safeMatch_all {chars : Char → Bool} (hnewline : chars '\n' = false) {text : Str}
    (h : safeMatch chars text = true) :
    text.all chars = true ↔ text.getLast? ≠ some '\n' := by
  constructor
  · intro hall hlast
    have := List.all_eq_true.mp hall '\n' (List.mem_of_getLast? hlast)
    rw [hnewline] at this
    cases this
  · intro hlast
    simp only [safeMatch, if_neg hlast, Bool.and_eq_true] at h
    exact h.2

/-- A device whose texts consist of the characters of their classes. -/
structure Whitelisted (e : Entry) (dev : Device) : Prop where
  type : dev.entityType.all typeChar = true
  keys : ∀ p ∈ e.2.entries, p.1.all typeChar = true
  values : ∀ p ∈ e.2.entries, p.2.all valChar = true
  name : dev.name.all valChar = true

def EndsLine (e : Entry) : Prop :=
  e.1.getLast? = some '\n' ∨
    ∃ p ∈ e.2.entries, p.1.getLast? = some '\n' ∨ p.2.getLast? = some '\n'

namespace Config

variable {c : Config} {answers : ℕ → Answer}

theorem name_all {e : Entry} (htype : e.1.all typeChar = true)
    (hvalues : ∀ p ∈ e.2.entries, p.2.all valChar = true) : (c.name e).all valChar = true := by
  have hkey : e.1.all valChar = true := by
    rw [List.all_eq_true] at htype ⊢
    exact fun ch hch ↦ valChar_of_typeChar (htype ch hch)
  have hvalue : ((c.uniqueValue e).getD []).all valChar = true := by
    cases hunique : c.uniqueValue e with
    | none => rfl
    | some v =>
      obtain ⟨t, -, hlookup⟩ := Option.bind_eq_some_iff.mp hunique
      exact hvalues ⟨t.2, v⟩ (AList.mem_lookup_iff.mp hlookup)
  rw [name, deviceName, List.all_append, List.all_cons, hkey, hvalue]
  rfl

theorem whitelisted_iff {e : Entry} (hsaves : c.saves e = true) :
    Whitelisted e (c.deviceOf e) ↔ ¬ EndsLine e := by
  simp only [saves, Bool.and_eq_true, safeProperties, List.all_eq_true] at hsaves
  obtain ⟨⟨htype, -⟩, hprops⟩ := hsaves
  rw [typeSafe_eq] at htype
  have htype := safeMatch_all (by decide) htype
  have hkey : ∀ p ∈ e.2.entries, p.1.all typeChar = true ↔ p.1.getLast? ≠ some '\n' :=
    fun p hp ↦ safeMatch_all (by decide) (keySafe_eq p.1 ▸ (hprops p hp).1)
  have hval : ∀ p ∈ e.2.entries, p.2.all valChar = true ↔ p.2.getLast? ≠ some '\n' :=
    fun p hp ↦ safeMatch_all (by decide) (valSafe_eq p.2 ▸ (hprops p hp).2)
  constructor
  · intro h hends
    obtain hends | ⟨p, hp, hends | hends⟩ := hends
    · exact htype.mp h.type hends
    · exact (hkey p hp).mp (h.keys p hp) hends
    · exact (hval p hp).mp (h.values p hp) hends
  · intro h
    have htype := htype.mpr fun hends ↦ h (.inl hends)
    have hvalues : ∀ p ∈ e.2.entries, p.2.all valChar = true :=
      fun p hp ↦ (hval p hp).mpr fun hends ↦ h (.inr ⟨p, hp, .inr hends⟩)
    exact ⟨htype, fun p hp ↦ (hkey p hp).mpr fun hends ↦ h (.inr ⟨p, hp, .inl hends⟩), hvalues,
      name_all htype hvalues⟩

/-- Whatever the DCCs answer, the loop over them makes no other calls than when they succeed, and
it goes on only where the properties can be had for each of them. -/
theorem registerAll_attempts (name devType : Str) (value : Dict Str) (keyDcc : List Str)
    (s : DiscoveryThread) :
    let r := c.registerAll answers name devType value keyDcc s
    (∀ a ∈ r.2.attempts, a ∈ s.attempts ∨
      a ∈ c.attemptsFor (c.device name devType) value keyDcc) ∧
    (r.1 = .next → ∀ dcc ∈ keyDcc, (c.propDict dcc value).isOk) := by
  induction keyDcc generalizing s with
  | nil =>
    constructor
    · exact fun a ha ↦ .inl ha
    · simp
  | cons dcc keyDcc ih =>
    rw [registerAll, attemptsFor]
    cases hpropDict : c.propDict dcc value with
    | error e =>
      constructor
      · exact fun a ha ↦ .inl ha
      · simp
    | ok propDict =>
      have hrest : ∀ s' : DiscoveryThread,
          s'.attempts = s.attempts ++ [⟨c.device name devType, dcc, propDict⟩] →
          let r := c.registerAll answers name devType value keyDcc s'
          (∀ a ∈ r.2.attempts, a ∈ s.attempts ∨ a ∈ (⟨c.device name devType, dcc, propDict⟩ ::
            c.attemptsFor (c.device name devType) value keyDcc : List Attempt)) ∧
          (r.1 = .next → ∀ dcc' ∈ dcc :: keyDcc, (c.propDict dcc' value).isOk) := by
        intro s' hs'
        obtain ⟨hmade, hnext⟩ := ih s'
        constructor
        · intro a ha
          obtain ha | ha := hmade a ha
          · rw [hs', List.mem_append, List.mem_singleton] at ha
            exact ha.imp_right fun h ↦ List.mem_cons.mpr (.inl h)
          · exact .inr (List.mem_cons_of_mem _ ha)
        · intro hflow dcc' hdcc'
          obtain rfl | hdcc' := List.mem_cons.mp hdcc'
          · rw [hpropDict]
            rfl
          · exact hnext hflow dcc' hdcc'
      obtain ⟨-, -, heq⟩ | ⟨-, -, heq⟩ | ⟨-, -, e, heq⟩ :=
        regDevice_cases c (answers s.attempts.length) name devType
      · simp only [heq]
        exact hrest _ rfl
      · simp only [heq]
        exact hrest _ rfl
      · simp only [heq]
        constructor
        · intro a ha
          obtain ha | ha := List.mem_append.mp ha
          · exact .inl ha
          · exact .inr (List.mem_cons.mpr (.inl (List.mem_singleton.mp ha)))
        · simp

theorem processEntry_attempts (e : Entry) (s : DiscoveryThread) :
    let r := c.processEntry answers e.1 e.2 s
    (∀ a ∈ r.2.attempts, a ∈ s.attempts ∨ a ∈ c.attemptsOf e) ∧
    (r.1 = .next → c.stops e = false) := by
  obtain ⟨hsaves, hrejects, heq⟩ | ⟨hsaves, hrejects, heq⟩ | ⟨hsaves, hrejects, heq⟩ :=
    processEntry_cases c answers e s
  · rw [heq]
    exact ⟨fun a ha ↦ .inl ha, fun _ ↦ by rw [stops, hsaves, hrejects]; rfl⟩
  · rw [heq]
    exact ⟨fun a ha ↦ .inl ha, fun h ↦ by cases h⟩
  · obtain ⟨hmade, hnext⟩ := @registerAll_attempts c answers (c.name e) e.1 e.2 (c.dccs e.1)
      (s.saveDevinfo (c.name e) e.1)
    rw [heq, attemptsOf, if_pos hsaves]
    refine ⟨hmade, fun hflow ↦ ?_⟩
    rw [stops, hsaves, hrejects, Bool.false_or, Bool.true_and, breaks, Bool.eq_false_iff]
    intro hbreaks
    rw [Bool.and_eq_true, List.any_eq_true] at hbreaks
    obtain ⟨hog, dcc, hdcc, hiotcc⟩ := hbreaks
    have hok := hnext hflow dcc hdcc
    obtain ⟨-, err, herr⟩ | ⟨hno, -⟩ := propDict_cases c dcc e.2
    · rw [herr] at hok
      cases hok
    · rw [hog, hiotcc] at hno
      cases hno

theorem processEntries_attempts (entries : List Entry) (s : DiscoveryThread) :
    ∀ a ∈ (c.processEntries answers entries s).2.attempts,
      a ∈ s.attempts ∨ ∃ e ∈ c.processed entries, a ∈ c.attemptsOf e := by
  induction entries generalizing s with
  | nil => exact fun a ha ↦ .inl ha
  | cons e rest ih =>
    intro a ha
    have hentry := @processEntry_attempts c answers e s
    have hhead : e ∈ c.processed (e :: rest) := by
      rw [processed]
      split
      · exact List.mem_singleton_self e
      · exact List.mem_cons_self
    generalize hr : c.processEntry answers e.1 e.2 s = r at hentry
    obtain ⟨flow, s'⟩ := r
    by_cases hflow : flow = .next
    · rw [hflow] at hr
      rw [processEntries_next hr] at ha
      obtain ha | ⟨e', he', ha⟩ := ih s' a ha
      · exact (hentry.1 a ha).imp_right fun h ↦ ⟨e, hhead, h⟩
      · refine .inr ⟨e', ?_, ha⟩
        rw [processed, hentry.2 hflow]
        exact List.mem_cons_of_mem e he'
    · rw [processEntries_stop hr hflow] at ha
      exact (hentry.1 a ha).imp_right fun h ↦ ⟨e, hhead, h⟩

def OnlyWhitelisted (c : Config) (m : Message) : Prop :=
  ∀ answers devices e dev, c.Registers answers m devices e dev → Whitelisted e dev

/-- Only whitelisted characters get through if and only if no text of an entry that is registered
ends with a newline. -/
theorem onlyWhitelisted_iff (c : Config) (m : Message) :
    c.OnlyWhitelisted m ↔
      ∀ e ∈ c.processed m.entries, c.attemptsOf e ≠ [] → ¬ EndsLine e := by
  have hsaves {e : Entry} (h : c.attemptsOf e ≠ []) : c.saves e = true := by
    by_contra hno
    exact h (if_neg hno)
  constructor
  · intro hall e he hattempts
    obtain ⟨a, ha⟩ := List.exists_mem_of_ne_nil _ hattempts
    have hdevice : a.device = c.deviceOf e := by
      rw [attemptsOf, if_pos (hsaves hattempts)] at ha
      exact attemptsFor_device ha
    apply (whitelisted_iff (hsaves hattempts)).mp
    apply hall (fun _ ↦ willing) ∅ e (c.deviceOf e)
    refine ⟨(c.processed_prefix m.entries).subset he, rfl, a, ?_, hdevice⟩
    rw [deviceMsgProcess_snd, (processEntries_succeeds (fun _ ↦ willing_succeeds) _ _).1]
    exact List.mem_append_right _ (List.mem_flatMap.mpr ⟨e, he, ha⟩)
  · intro hends answers devices e dev hreg
    have hdev := hreg.device_eq.1
    obtain ⟨he, htype, a, ha, hadev⟩ := hreg
    rw [deviceMsgProcess_snd] at ha
    obtain ha | ⟨e', he', ha⟩ := processEntries_attempts m.entries _ a ha
    · cases ha
    · have hsame : e' = e := by
        apply m.nodupKeys.eq_of_fst_eq ((c.processed_prefix m.entries).subset he') he
        rw [← attemptsOf_type ha, hadev, htype]
      rw [hsame] at he' ha
      have hattempts := List.ne_nil_of_mem ha
      rw [hdev]
      exact (whitelisted_iff (hsaves hattempts)).mpr (hends e he' hattempts)

end Config

/-- A value with a newline at its end is accepted, and the name has the newline. -/
theorem lm35_newline : ¬ lm35Config.OnlyWhitelisted
    (AList.insert "LM35".toList (AList.insert "SN".toList "12345\n".toList ∅) ∅) := by
  intro hall
  have h := hall (fun _ ↦ willing) ∅
    ⟨"LM35".toList, AList.insert "SN".toList "12345\n".toList ∅⟩
    ⟨"LM35_12345\n".toList, "LM35_12345\n".toList, "LM35".toList⟩
    ⟨List.mem_cons_self, rfl, by decide⟩
  exact absurd h.name (by decide)

end Liota.DeviceDiscovery
