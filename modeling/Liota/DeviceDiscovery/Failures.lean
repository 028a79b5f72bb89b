import Mathlib.Data.Nat.Find
import Mathlib.Data.List.Nodup
import Liota.DeviceDiscovery.Names

namespace Liota.DeviceDiscovery

open Python Python.Computation Python.Text

def Attempt.pair (a : Attempt) : Device × Str := (a.device, a.dcc)

def Recorded (s : DiscoveryThread) (dev : Device) (dcc : Str) : Prop :=
  ∃ regs, s.devicesDiscoverd.lookup dev.name = some (dev.entityType, regs) ∧ (dcc, dev) ∈ regs

/-- A call of `reg_device` for the device and the DCC in which nothing failed. -/
def Succeeded (answers : ℕ → Answer) (s : DiscoveryThread) (dev : Device) (dcc : Str) : Prop :=
  ∃ n a, s.attempts[n]? = some a ∧ a.pair = (dev, dcc) ∧ (answers n).Succeeds

def Clean (answers : ℕ → Answer) (s : DiscoveryThread) : Prop :=
  ∀ n < s.attempts.length, ¬ (answers n).Raises

/-- The last call of `reg_device`, and no other, has raised an exception. -/
def Broken (answers : ℕ → Answer) (s : DiscoveryThread) : Prop :=
  ∃ n, s.attempts.length = n + 1 ∧ (answers n).Raises ∧ ∀ i < n, ¬ (answers i).Raises

def lastNamed (devs : List Device) (k : Str) : Option Device :=
  (devs.filter fun dev ↦ dev.name = k).getLast?

namespace Config

def devicesOf (c : Config) (entries : List Entry) : List Device :=
  (entries.filter c.saves).map c.deviceOf

def pairsOf (c : Config) (entries : List Entry) : List (Device × Str) :=
  (entries.filter c.saves).flatMap fun e ↦ (c.dccs e.1).map fun dcc ↦ (c.deviceOf e, dcc)

/-- Every device is registered with every DCC in its list, and what is recorded under the names of
the devices is what succeeded. -/
structure Independent (c : Config) (answers : ℕ → Answer) (m : Message)
    (devices : Dict (Str × List (Str × Device))) : Prop where
  attempted : ∀ p ∈ c.pairsOf m.entries,
    p ∈ (c.deviceMsgProcess answers m devices).2.attempts.map Attempt.pair
  recorded : ∀ dev dcc, dev.name ∈ (c.devicesOf m.entries).map Device.name →
    (Recorded (c.deviceMsgProcess answers m devices).2 dev dcc ↔
      Succeeded answers (c.deviceMsgProcess answers m devices).2 dev dcc)

end Config

section LastNamed

variable {devs : List Device} {dev : Device} {k : Str}

theorem lastNamed_concat (devs : List Device) (dev : Device) (k : Str) :
    lastNamed (devs ++ [dev]) k = if dev.name = k then some dev else lastNamed devs k := by
  rw [lastNamed, List.filter_append]
  split
  · next h => rw [List.filter_cons_of_pos (by simpa using h), List.filter_nil, List.getLast?_concat]
  · next h =>
    rw [List.filter_cons_of_neg (by simpa using h), List.filter_nil, List.append_nil]
    rfl

theorem lastNamed_mem (h : lastNamed devs k = some dev) : dev ∈ devs ∧ dev.name = k := by
  simpa using List.mem_of_getLast? h

theorem lastNamed_isSome (h : k ∈ devs.map Device.name) : ∃ dev, lastNamed devs k = some dev := by
  obtain ⟨dev, hdev, hname⟩ := List.mem_map.mp h
  have hmem : dev ∈ devs.filter fun dev ↦ dev.name = k := by
    simp [hdev, hname]
  exact Option.isSome_iff_exists.mp (List.getLast?_isSome.mpr (List.ne_nil_of_mem hmem))

end LastNamed

section Succeeded

variable {answers : ℕ → Answer} {s : DiscoveryThread} {a : Attempt} {dev : Device} {dcc : Str}

theorem succeeded_attempt :
    Succeeded answers (s.attempt a) dev dcc ↔
      Succeeded answers s dev dcc ∨
        (answers s.attempts.length).Succeeds ∧ a.pair = (dev, dcc) := by
  constructor
  · rintro ⟨n, b, hn, hpair, hsucceeds⟩
    by_cases hlt : n < s.attempts.length
    · rw [DiscoveryThread.attempt, List.getElem?_append_left hlt] at hn
      exact Or.inl ⟨n, b, hn, hpair, hsucceeds⟩
    · have hlength : n < (s.attempts ++ [a]).length := (List.getElem?_eq_some_iff.mp hn).1
      rw [List.length_append, List.length_singleton] at hlength
      have heq : n = s.attempts.length := by omega
      rw [DiscoveryThread.attempt, heq, List.getElem?_concat_length] at hn
      rw [heq] at hsucceeds
      rw [← Option.some.inj hn] at hpair
      exact Or.inr ⟨hsucceeds, hpair⟩
  · rintro (⟨n, b, hn, hpair, hsucceeds⟩ | ⟨hsucceeds, hpair⟩)
    · refine ⟨n, b, ?_, hpair, hsucceeds⟩
      rw [DiscoveryThread.attempt,
        List.getElem?_append_left (List.getElem?_eq_some_iff.mp hn).1]
      exact hn
    · refine ⟨s.attempts.length, a, ?_, hpair, hsucceeds⟩
      exact List.getElem?_concat_length

end Succeeded

/-- What is recorded under a name are the successes of the last device with this name. -/
structure Kept (answers : ℕ → Answer) (devs : List Device) (s : DiscoveryThread) : Prop where
  known : ∀ a ∈ s.attempts, a.device ∈ devs
  records : ∀ k d, lastNamed devs k = some d → ∃ regs,
    s.devicesDiscoverd.lookup k = some (d.entityType, regs) ∧
    ∀ dcc dev, (dcc, dev) ∈ regs ↔ dev = d ∧ Succeeded answers s dev dcc

section Kept

variable {answers : ℕ → Answer} {devs : List Device} {s : DiscoveryThread} {dev : Device}

theorem Kept.save (h : Kept answers devs s) (hnew : dev ∉ devs) :
    Kept answers (devs ++ [dev]) (s.saveDevinfo dev.name dev.entityType) where
  known a ha := List.mem_append.mpr (.inl (h.known a ha))
  records k d hlast := by
    rw [lastNamed_concat] at hlast
    rw [DiscoveryThread.saveDevinfo, Dict.lookup_insert_eq]
    by_cases hk : dev.name = k
    · rw [if_pos hk] at hlast
      rw [if_pos hk.symm, ← Option.some.inj hlast]
      refine ⟨[], rfl, fun dcc dev' ↦ ?_⟩
      constructor
      · intro hmem
        cases hmem
      · rintro ⟨heq, n, a, hn, hpair, -⟩
        have hdevice : a.device = dev' := congrArg Prod.fst hpair
        have hmem := h.known a (List.mem_of_getElem? hn)
        rw [hdevice, heq] at hmem
        exact absurd hmem hnew
    · rw [if_neg hk] at hlast
      rw [if_neg (Ne.symm hk)]
      exact h.records k d hlast

theorem Kept.known_attempt (h : Kept answers (devs ++ [dev]) s) (dcc : Str)
    (propDict : Dict Str) : ∀ a ∈ s.attempts ++ [(⟨dev, dcc, propDict⟩ : Attempt)],
      a.device ∈ devs ++ [dev] := by
  intro a ha
  obtain ha | ha := List.mem_append.mp ha
  · exact h.known a ha
  · rw [List.mem_singleton.mp ha]
    simp

theorem Kept.fails (h : Kept answers (devs ++ [dev]) s) (dcc : Str) (propDict : Dict Str)
    (hfails : ¬ (answers s.attempts.length).Succeeds) :
    Kept answers (devs ++ [dev]) (s.attempt ⟨dev, dcc, propDict⟩) where
  known := h.known_attempt dcc propDict
  records k d hlast := by
    obtain ⟨regs, hlookup, hregs⟩ := h.records k d hlast
    refine ⟨regs, hlookup, fun dcc' dev' ↦ ?_⟩
    rw [hregs, succeeded_attempt]
    simp [hfails]

theorem Kept.succeeds (h : Kept answers (devs ++ [dev]) s) (dcc : Str) (propDict : Dict Str)
    (hsucceeds : (answers s.attempts.length).Succeeds) : Kept answers (devs ++ [dev])
      ((s.attempt ⟨dev, dcc, propDict⟩).updateDevinfo dev.name (dcc, dev)) where
  known := h.known_attempt dcc propDict
  records k d hlast := by
    obtain ⟨regs, hlookup, hregs⟩ := h.records k d hlast
    have hsucceeded (dcc' : Str) (dev' : Device) :
        Succeeded answers ((s.attempt ⟨dev, dcc, propDict⟩).updateDevinfo dev.name (dcc, dev))
          dev' dcc' ↔ Succeeded answers s dev' dcc' ∨ (dev, dcc) = (dev', dcc') :=
      succeeded_attempt.trans (by simp [hsucceeds, Attempt.pair])
    have hmodified : ((s.attempt ⟨dev, dcc, propDict⟩).updateDevinfo dev.name
        (dcc, dev)).devicesDiscoverd.lookup k =
          if k = dev.name then some (d.entityType, regs ++ [(dcc, dev)])
          else some (d.entityType, regs) := by
      rw [DiscoveryThread.updateDevinfo, Dict.lookup_modify, DiscoveryThread.attempt, hlookup]
      rfl
    rw [lastNamed_concat] at hlast
    by_cases hk : dev.name = k
    · rw [if_pos hk] at hlast
      have hd : dev = d := Option.some.inj hlast
      refine ⟨regs ++ [(dcc, dev)], ?_, fun dcc' dev' ↦ ?_⟩
      · rw [hmodified, if_pos hk.symm]
      · rw [hsucceeded, List.mem_append, hregs, List.mem_singleton, Prod.mk.injEq, Prod.mk.injEq,
          ← hd]
        constructor
        · rintro (⟨hdev, hold⟩ | ⟨hdcc, hdev⟩)
          · exact ⟨hdev, .inl hold⟩
          · exact ⟨hdev, .inr ⟨hdev.symm, hdcc.symm⟩⟩
        · rintro ⟨hdev, hold | ⟨-, hdcc⟩⟩
          · exact Or.inl ⟨hdev, hold⟩
          · exact Or.inr ⟨hdcc.symm, hdev⟩
    · rw [if_neg hk] at hlast
      have hne : d ≠ dev := by
        intro heq
        rw [heq] at hlast
        exact hk (lastNamed_mem hlast).2
      refine ⟨regs, ?_, fun dcc' dev' ↦ ?_⟩
      · rw [hmodified, if_neg (Ne.symm hk)]
      · rw [hsucceeded, hregs, Prod.mk.injEq]
        constructor
        · rintro ⟨hdev, hold⟩
          exact ⟨hdev, .inl hold⟩
        · rintro ⟨hdev, hold | ⟨hdev', -⟩⟩
          · exact ⟨hdev, hold⟩
          · exact absurd (hdev'.trans hdev).symm hne

end Kept

namespace Config

variable {c : Config} {answers : ℕ → Answer}

theorem kept_processEntries {entries : List Entry} {devs : List Device} {s : DiscoveryThread}
    (hs : Kept answers devs s) (hnodup : (devs ++ c.devicesOf entries).Nodup) :
    ∃ reached, reached <+: c.devicesOf entries ∧
      Kept answers (devs ++ reached) (c.processEntries answers entries s).2 := by
  induction entries generalizing devs s with
  | nil => exact ⟨[], List.nil_prefix, by simpa [processEntries] using hs⟩
  | cons e rest ih =>
    obtain ⟨hsaves, -, heq⟩ | ⟨-, -, heq⟩ | ⟨hsaves, -, heq⟩ :=
      processEntry_cases c answers e s
    · have hdevices : c.devicesOf (e :: rest) = c.devicesOf rest := by
        simp [devicesOf, hsaves]
      rw [processEntries_next heq, hdevices]
      exact ih hs (hdevices ▸ hnodup)
    · rw [processEntries_stop heq (by simp)]
      exact ⟨[], List.nil_prefix, by simpa using hs⟩
    · have hdevices : c.devicesOf (e :: rest) = c.deviceOf e :: c.devicesOf rest := by
        simp [devicesOf, hsaves]
      rw [hdevices] at hnodup ⊢
      have hnew : c.deviceOf e ∉ devs := by
        intro hmem
        have hdisjoint := (List.nodup_append.mp hnodup).2.2
        exact hdisjoint _ hmem _ List.mem_cons_self rfl
      have hkept : Kept answers (devs ++ [c.deviceOf e])
          (c.processEntry answers e.1 e.2 s).2 := by
        rw [heq]
        apply registerAll_rule (I := Kept answers (devs ++ [c.deviceOf e]))
        · intro s' dcc propDict _ hs'
          exact ⟨hs'.fails dcc propDict, hs'.succeeds dcc propDict⟩
        · exact hs.save hnew
      generalize hr : c.processEntry answers e.1 e.2 s = r at hkept
      obtain ⟨flow, s'⟩ := r
      by_cases hflow : flow = .next
      · rw [hflow] at hr
        rw [processEntries_next hr]
        obtain ⟨reached, hprefix, hreached⟩ := ih hkept (by simpa using hnodup)
        refine ⟨c.deviceOf e :: reached, (List.prefix_cons_inj _).mpr hprefix, ?_⟩
        simpa using hreached
      · rw [processEntries_stop hr hflow]
        exact ⟨[c.deviceOf e], (List.prefix_cons_inj _).mpr List.nil_prefix, hkept⟩

/-- A loop from `s` has tried every pair, or the pairs up to a call that raised an exception. -/
def Tried (answers : ℕ → Answer) (s : DiscoveryThread) (pairs : List (Device × Str))
    (r : Flow × DiscoveryThread) : Prop :=
  (r.1 = .next ∧ Clean answers r.2 ∧
    r.2.attempts.map Attempt.pair = s.attempts.map Attempt.pair ++ pairs) ∨
  (r.1 ≠ .next ∧ Broken answers r.2 ∧ ∃ made, made <+: pairs ∧
    r.2.attempts.map Attempt.pair = s.attempts.map Attempt.pair ++ made)

theorem Tried.after {s s' : DiscoveryThread} {first pairs : List (Device × Str)}
    {r : Flow × DiscoveryThread} (h : Tried answers s' pairs r)
    (hfirst : s'.attempts.map Attempt.pair = s.attempts.map Attempt.pair ++ first) :
    Tried answers s (first ++ pairs) r := by
  obtain ⟨hflow, hclean, hpairs⟩ | ⟨hflow, hbroken, made, hmade, hpairs⟩ := h
  · refine Or.inl ⟨hflow, hclean, ?_⟩
    rw [hpairs, hfirst, List.append_assoc]
  · refine Or.inr ⟨hflow, hbroken, first ++ made, (List.prefix_append_right_inj first).mpr hmade,
      ?_⟩
    rw [hpairs, hfirst, List.append_assoc]

theorem registerAll_tried (name devType : Str) (value : Dict Str) {keyDcc : List Str}
    (hog : c.ogProperties.isOk ∨ ∀ dcc ∈ keyDcc, isIotcc dcc = false) {s : DiscoveryThread}
    (hclean : Clean answers s) :
    Tried answers s (keyDcc.map fun dcc ↦ (c.device name devType, dcc))
      (c.registerAll answers name devType value keyDcc s) := by
  induction keyDcc generalizing s with
  | nil =>
    apply Or.inl
    exact ⟨rfl, hclean, by simp [registerAll]⟩
  | cons dcc keyDcc ih =>
    rw [registerAll]
    obtain ⟨hbreak, -⟩ | ⟨-, propDict, hpropDict⟩ := propDict_cases c dcc value
    · simp only [Bool.and_eq_true, Bool.not_eq_true'] at hbreak
      obtain hog | hog := hog
      · rw [hbreak.1] at hog
        cases hog
      · rw [hog dcc List.mem_cons_self] at hbreak
        cases hbreak.2
    · have hog' : c.ogProperties.isOk ∨ ∀ dcc ∈ keyDcc, isIotcc dcc = false :=
        hog.imp_right fun h d hd ↦ h d (List.mem_cons_of_mem dcc hd)
      have hnext (s' : DiscoveryThread)
          (hattempts : s'.attempts = s.attempts ++ [⟨c.device name devType, dcc, propDict⟩])
          (hraises : ¬ (answers s.attempts.length).Raises) :
          Tried answers s ((dcc :: keyDcc).map fun dcc ↦ (c.device name devType, dcc))
            (c.registerAll answers name devType value keyDcc s') := by
        have hclean' : Clean answers s' := by
          intro n hn
          rw [hattempts, List.length_append, List.length_singleton] at hn
          by_cases hlt : n < s.attempts.length
          · exact hclean n hlt
          · have heq : n = s.attempts.length := by omega
            rw [heq]
            exact hraises
        have hfirst : s'.attempts.map Attempt.pair =
            s.attempts.map Attempt.pair ++ [(c.device name devType, dcc)] := by
          rw [hattempts, List.map_append]
          rfl
        exact (ih hog' hclean').after hfirst
      simp only [hpropDict]
      obtain ⟨-, hraises, heq⟩ | ⟨-, hraises, heq⟩ | ⟨-, hraises, err, heq⟩ :=
        regDevice_cases c (answers s.attempts.length) name devType
      · simp only [heq]
        exact hnext _ rfl hraises
      · simp only [heq]
        exact hnext _ rfl hraises
      · simp only [heq]
        apply Or.inr
        refine ⟨by simp, ⟨s.attempts.length, ?_, hraises, hclean⟩,
          [(c.device name devType, dcc)], ?_, ?_⟩
        · simp [DiscoveryThread.attempt]
        · exact (List.prefix_cons_inj _).mpr List.nil_prefix
        · simp [DiscoveryThread.attempt, Attempt.pair]

theorem processEntries_tried {entries : List Entry}
    (hvalid : ∀ e ∈ entries, c.rejects e = false)
    (hog : c.ogProperties.isOk ∨ ∀ p ∈ c.pairsOf entries, isIotcc p.2 = false)
    {s : DiscoveryThread} (hclean : Clean answers s) :
    Tried answers s (c.pairsOf entries) (c.processEntries answers entries s) := by
  induction entries generalizing s with
  | nil => exact Or.inl ⟨rfl, hclean, by simp [processEntries, pairsOf]⟩
  | cons e rest ih =>
    have hvalid' : ∀ e ∈ rest, c.rejects e = false :=
      fun e' he' ↦ hvalid e' (List.mem_cons_of_mem e he')
    obtain ⟨hsaves, -, heq⟩ | ⟨-, hrejects, -⟩ | ⟨hsaves, -, heq⟩ :=
      processEntry_cases c answers e s
    · have hpairs : c.pairsOf (e :: rest) = c.pairsOf rest := by
        simp [pairsOf, hsaves]
      rw [hpairs] at hog ⊢
      rw [processEntries_next heq]
      exact ih hvalid' hog hclean
    · rw [hvalid e List.mem_cons_self] at hrejects
      cases hrejects
    · have hpairs : c.pairsOf (e :: rest) =
          (c.dccs e.1).map (fun dcc ↦ (c.deviceOf e, dcc)) ++ c.pairsOf rest := by
        simp [pairsOf, hsaves]
      rw [hpairs] at hog ⊢
      have hogEntry : c.ogProperties.isOk ∨ ∀ dcc ∈ c.dccs e.1, isIotcc dcc = false := by
        refine hog.imp_right fun h dcc hdcc ↦ ?_
        exact h (c.deviceOf e, dcc) (List.mem_append.mpr (.inl (List.mem_map.mpr ⟨dcc, hdcc, rfl⟩)))
      have hogRest : c.ogProperties.isOk ∨ ∀ p ∈ c.pairsOf rest, isIotcc p.2 = false :=
        hog.imp_right fun h p hp ↦ h p (List.mem_append.mpr (.inr hp))
      have hfirst := registerAll_tried (c := c) (c.name e) e.1 e.2 hogEntry
        (s := s.saveDevinfo (c.name e) e.1) hclean
      rw [← heq] at hfirst
      generalize hr : c.processEntry answers e.1 e.2 s = r at hfirst
      obtain ⟨flow, s'⟩ := r
      obtain ⟨hflow, hclean', hmade⟩ | ⟨hflow, hbroken, made, hprefix, hmade⟩ := hfirst
      · rw [show flow = .next from hflow] at hr
        rw [processEntries_next hr]
        exact (ih hvalid' hogRest hclean').after hmade
      · rw [processEntries_stop hr hflow]
        exact Or.inr ⟨hflow, hbroken, made, hprefix.trans (List.prefix_append _ _), hmade⟩

theorem devicesOf_nodup (c : Config) (m : Message) : (c.devicesOf m.entries).Nodup := by
  apply List.Nodup.of_map Device.entityType
  have htypes : (c.devicesOf m.entries).map Device.entityType =
      (m.entries.filter c.saves).map Sigma.fst := by
    rw [devicesOf, List.map_map]
    rfl
  rw [htypes]
  exact List.Nodup.sublist (List.filter_sublist.map Sigma.fst) m.nodupKeys

theorem mem_pairsOf {entries : List Entry} {p : Device × Str} (hp : p ∈ c.pairsOf entries) :
    p.1 ∈ c.devicesOf entries := by
  obtain ⟨e, he, hmem⟩ := List.mem_flatMap.mp hp
  obtain ⟨dcc, -, heq⟩ := List.mem_map.mp hmem
  rw [← heq]
  exact List.mem_map.mpr ⟨e, he, rfl⟩

theorem exists_pair {entries : List Entry} {dev : Device} (hdev : dev ∈ c.devicesOf entries) :
    ∃ dcc, (dev, dcc) ∈ c.pairsOf entries := by
  obtain ⟨e, he, heq⟩ := List.mem_map.mp hdev
  have htarget : (c.target e.1).isSome := by
    have hsaves := (List.mem_filter.mp he).2
    simp only [saves, Bool.and_eq_true] at hsaves
    exact hsaves.1.2
  obtain ⟨dcc, hdcc⟩ := List.exists_mem_of_ne_nil _ (dccs_ne_nil htarget)
  rw [← heq]
  exact ⟨dcc, List.mem_flatMap.mpr ⟨e, he, List.mem_map.mpr ⟨dcc, hdcc, rfl⟩⟩⟩

section Runs

variable {m : Message} {devices : Dict (Str × List (Str × Device))}

theorem Independent.properties (h : c.Independent answers m devices) :
    c.ogProperties.isOk ∨ ∀ p ∈ c.pairsOf m.entries, isIotcc p.2 = false := by
  by_cases hog : c.ogProperties.isOk
  · exact Or.inl hog
  · apply Or.inr
    intro p hp
    obtain ⟨a, ha, hpair⟩ := List.mem_map.mp (h.attempted p hp)
    rw [deviceMsgProcess_snd] at ha
    obtain ⟨e, -, -, hprops, -⟩ := sourced_processEntries c answers m.entries devices a ha
    have hdcc : a.dcc = p.2 := congrArg Prod.snd hpair
    obtain ⟨-, err, herr⟩ | ⟨hbreak, -⟩ := propDict_cases c a.dcc e.2
    · rw [hprops] at herr
      cases herr
    · rw [Bool.not_eq_true] at hog
      rw [hog, hdcc] at hbreak
      simpa using hbreak

theorem kept_of_attempted (hall : ∀ p ∈ c.pairsOf m.entries,
      p ∈ (c.deviceMsgProcess answers m devices).2.attempts.map Attempt.pair) :
    Kept answers (c.devicesOf m.entries) (c.deviceMsgProcess answers m devices).2 := by
  have hnone : Kept answers [] ⟨devices, []⟩ := by
    constructor
    · intro a ha
      cases ha
    · intro k d hlast
      cases hlast
  have hnodup : ([] ++ c.devicesOf m.entries).Nodup := c.devicesOf_nodup m
  obtain ⟨reached, hprefix, hkept⟩ := kept_processEntries hnone hnodup
  rw [← deviceMsgProcess_snd, List.nil_append] at hkept
  have hsubset : c.devicesOf m.entries ⊆ reached := by
    intro dev hdev
    obtain ⟨dcc, hpair⟩ := exists_pair hdev
    obtain ⟨a, ha, heq⟩ := List.mem_map.mp (hall _ hpair)
    have hdevice : a.device = dev := congrArg Prod.fst heq
    rw [← hdevice]
    exact hkept.known a ha
  have hreached : reached = c.devicesOf m.entries := by
    apply hprefix.eq_of_length_le
    exact (List.subperm_of_subset (c.devicesOf_nodup m) hsubset).length_le
  rw [hreached] at hkept
  exact hkept

variable (hvalid : ∀ e ∈ m.entries, c.rejects e = false)
  (hog : c.ogProperties.isOk ∨ ∀ p ∈ c.pairsOf m.entries, isIotcc p.2 = false)

include hvalid hog

theorem pairs_of_run (answers : ℕ → Answer) (devices : Dict (Str × List (Str × Device))) :
    let s := (c.deviceMsgProcess answers m devices).2
    (Clean answers s ∧ s.attempts.map Attempt.pair = c.pairsOf m.entries) ∨
    (Broken answers s ∧ s.attempts.map Attempt.pair <+: c.pairsOf m.entries) := by
  have hclean : Clean answers ⟨devices, []⟩ := fun n hn ↦ absurd hn (Nat.not_lt_zero n)
  simp only [deviceMsgProcess_snd]
  obtain ⟨-, hclean, hpairs⟩ | ⟨-, hbroken, made, hmade, hpairs⟩ :=
    processEntries_tried hvalid hog hclean
  · exact Or.inl ⟨hclean, hpairs⟩
  · refine Or.inr ⟨hbroken, ?_⟩
    rw [hpairs]
    exact hmade

theorem getElem?_attempts (answers : ℕ → Answer) (devices : Dict (Str × List (Str × Device)))
    (n : ℕ) (p : Device × Str) :
    ((c.deviceMsgProcess answers m devices).2.attempts.map Attempt.pair)[n]? = some p ↔
      (c.pairsOf m.entries)[n]? = some p ∧ ∀ i < n, ¬ (answers i).Raises := by
  have hrun := pairs_of_run hvalid hog answers devices
  generalize (c.deviceMsgProcess answers m devices).2 = s at hrun
  have hlength : (s.attempts.map Attempt.pair).length = s.attempts.length := List.length_map _
  obtain ⟨hclean, hpairs⟩ | ⟨⟨r, hr, hraises, hbefore⟩, rest, hrest⟩ := hrun
  · rw [hpairs]
    constructor
    · intro hn
      refine ⟨hn, fun i hi ↦ hclean i ?_⟩
      have hlt := (List.getElem?_eq_some_iff.mp hn).1
      rw [← hpairs, hlength] at hlt
      omega
    · exact fun h ↦ h.1
  · rw [← hrest]
    constructor
    · intro hn
      have hlt := (List.getElem?_eq_some_iff.mp hn).1
      rw [List.getElem?_append_left hlt]
      rw [hlength, hr] at hlt
      exact ⟨hn, fun i hi ↦ hbefore i (by omega)⟩
    · rintro ⟨hn, hno⟩
      have hlt : n < (s.attempts.map Attempt.pair).length := by
        rw [hlength, hr]
        by_contra hge
        exact hno r (by omega) hraises
      rw [List.getElem?_append_left hlt] at hn
      exact hn

theorem attempted_iff (answers : ℕ → Answer) (devices : Dict (Str × List (Str × Device))) :
    (∀ p ∈ c.pairsOf m.entries,
      p ∈ (c.deviceMsgProcess answers m devices).2.attempts.map Attempt.pair) ↔
    ∀ n, (answers n).Raises → ∀ p ∈ c.pairsOf m.entries,
      p ∈ (c.pairsOf m.entries).take (n + 1) := by
  have hmem (p : Device × Str) :
      p ∈ (c.deviceMsgProcess answers m devices).2.attempts.map Attempt.pair ↔
        ∃ n, (c.pairsOf m.entries)[n]? = some p ∧ ∀ i < n, ¬ (answers i).Raises := by
    rw [List.mem_iff_getElem?]
    simp only [getElem?_attempts hvalid hog]
  constructor
  · intro hall n hraises p hp
    obtain ⟨k, hk, hno⟩ := (hmem p).mp (hall p hp)
    have hle : k < n + 1 := by
      by_contra hlt
      exact hno n (by omega) hraises
    apply List.mem_iff_getElem?.mpr
    refine ⟨k, ?_⟩
    rw [List.getElem?_take_of_lt hle]
    exact hk
  · intro hall p hp
    apply (hmem p).mpr
    by_cases hraises : ∃ n, (answers n).Raises
    · classical
      have hfirst := hall (Nat.find hraises) (Nat.find_spec hraises) p hp
      obtain ⟨k, hk⟩ := List.mem_iff_getElem?.mp hfirst
      have hlt := (List.getElem?_eq_some_iff.mp hk).1
      rw [List.length_take] at hlt
      have hle : k < Nat.find hraises + 1 := by omega
      rw [List.getElem?_take_of_lt hle] at hk
      exact ⟨k, hk, fun i hi ↦ Nat.find_min hraises (by omega)⟩
    · obtain ⟨k, hk⟩ := List.mem_iff_getElem?.mp hp
      exact ⟨k, hk, fun i _ hi ↦ hraises ⟨i, hi⟩⟩

theorem recorded_iff (answers : ℕ → Answer) (devices : Dict (Str × List (Str × Device)))
    (hall : ∀ p ∈ c.pairsOf m.entries,
      p ∈ (c.deviceMsgProcess answers m devices).2.attempts.map Attempt.pair) :
    (∀ dev dcc, dev.name ∈ (c.devicesOf m.entries).map Device.name →
      (Recorded (c.deviceMsgProcess answers m devices).2 dev dcc ↔
        Succeeded answers (c.deviceMsgProcess answers m devices).2 dev dcc)) ↔
    ∀ n p, (c.pairsOf m.entries)[n]? = some p → (answers n).Succeeds →
      (∀ i < n, ¬ (answers i).Raises) →
        lastNamed (c.devicesOf m.entries) p.1.name = some p.1 := by
  have hattempts := getElem?_attempts hvalid hog answers devices
  have hkept := kept_of_attempted hall
  generalize (c.deviceMsgProcess answers m devices).2 = s at hattempts hkept
  constructor
  · intro hrecorded n p hp hsucceeds hno
    have hname : p.1.name ∈ (c.devicesOf m.entries).map Device.name :=
      List.mem_map.mpr ⟨p.1, mem_pairsOf (List.mem_of_getElem? hp), rfl⟩
    have hget := (hattempts n p).mpr ⟨hp, hno⟩
    rw [List.getElem?_map] at hget
    obtain ⟨a, ha, hpair⟩ := Option.map_eq_some_iff.mp hget
    obtain ⟨regs, hlookup, hmem⟩ := (hrecorded p.1 p.2 hname).mpr ⟨n, a, ha, hpair, hsucceeds⟩
    obtain ⟨d, hlast⟩ := lastNamed_isSome hname
    obtain ⟨regs', hlookup', hregs⟩ := hkept.records _ d hlast
    rw [hlookup] at hlookup'
    obtain ⟨-, hregsEq⟩ := Prod.mk.inj (Option.some.inj hlookup')
    rw [hregsEq] at hmem
    rw [((hregs p.2 p.1).mp hmem).1]
    have hd := (lastNamed_mem hlast).2
    rw [← hd] at hlast
    exact hlast
  · intro hlastNamed dev dcc hname
    obtain ⟨d, hlast⟩ := lastNamed_isSome hname
    obtain ⟨regs, hlookup, hregs⟩ := hkept.records _ d hlast
    constructor
    · rintro ⟨regs', hlookup', hmem⟩
      rw [hlookup] at hlookup'
      obtain ⟨-, hregsEq⟩ := Prod.mk.inj (Option.some.inj hlookup')
      rw [← hregsEq] at hmem
      exact ((hregs dcc dev).mp hmem).2
    · intro h
      obtain ⟨n, a, hn, hpair, hsucceeds⟩ := id h
      have hget : (s.attempts.map Attempt.pair)[n]? = some (dev, dcc) := by
        rw [List.getElem?_map, hn, ← hpair]
        rfl
      obtain ⟨hpairs, hno⟩ := (hattempts n _).mp hget
      have hself := hlastNamed n _ hpairs hsucceeds hno
      have hd : dev = d := Option.some.inj (hself.symm.trans hlast)
      refine ⟨regs, ?_, (hregs dcc dev).mpr ⟨hd, h⟩⟩
      rw [hlookup, hd]

end Runs

/-- A failure stays with its DCC exactly when organization properties that are wanted can be read,
each pair has been tried by the time that `create_relationship` raises an exception, and a device
that is registered is the last one of its name. -/
theorem independent_iff {m : Message} (hvalid : ∀ e ∈ m.entries, c.rejects e = false)
    (answers : ℕ → Answer) (devices : Dict (Str × List (Str × Device))) :
    c.Independent answers m devices ↔
      (c.ogProperties.isOk ∨ ∀ p ∈ c.pairsOf m.entries, isIotcc p.2 = false) ∧
      (∀ n, (answers n).Raises → ∀ p ∈ c.pairsOf m.entries,
        p ∈ (c.pairsOf m.entries).take (n + 1)) ∧
      ∀ n p, (c.pairsOf m.entries)[n]? = some p → (answers n).Succeeds →
        (∀ i < n, ¬ (answers i).Raises) →
          lastNamed (c.devicesOf m.entries) p.1.name = some p.1 := by
  constructor
  · intro h
    have hog := h.properties
    exact ⟨hog, (attempted_iff hvalid hog answers devices).mp h.attempted,
      (recorded_iff hvalid hog answers devices h.attempted).mp h.recorded⟩
  · rintro ⟨hog, hraises, hnames⟩
    have hattempted := (attempted_iff hvalid hog answers devices).mpr hraises
    exact ⟨hattempted, (recorded_iff hvalid hog answers devices hattempted).mpr hnames⟩

end Config

section Example

def unrelated : Answer := ⟨true, .ok (), .ok (), true, .error .exception⟩

def refusing : Answer := ⟨true, .error .exception, .ok (), true, .ok ()⟩

def twoDccs : Config :=
  { lm35Config with
    typeDccMap := AList.insert "LM35".toList ["iotcc_mqtt".toList, "iotcc".toList] ∅ }

theorem twoDccs_independent :
    twoDccs.Independent (fun n ↦ if n = 0 then refusing else unrelated) lm35Message ∅ := by
  apply (Config.independent_iff (by decide) _ _).mpr
  refine ⟨Or.inl rfl, fun n hraises p hp ↦ ?_, fun n p hp hsucceeds _ ↦ ?_⟩
  · have hn : n ≠ 0 := by
      rintro rfl
      simp [Answer.Raises, refusing, Except.isOk, Except.toBool] at hraises
    have hlength : (twoDccs.pairsOf lm35Message.entries).length ≤ n + 1 := by
      have htwo : (twoDccs.pairsOf lm35Message.entries).length = 2 := by decide
      omega
    rwa [List.take_of_length_le hlength]
  · split at hsucceeds
    · simp [Answer.Succeeds, refusing, Except.isOk, Except.toBool] at hsucceeds
    · simp [Answer.Succeeds, unrelated, Except.isOk, Except.toBool] at hsucceeds

/-- The exception of the first DCC keeps the second from being asked. -/
theorem twoDccs_not_independent :
    ¬ twoDccs.Independent (fun n ↦ if n = 0 then unrelated else willing) lm35Message ∅ := by
  intro h
  have hattempted := h.attempted
    (⟨"LM35_12345".toList, "LM35_12345".toList, "LM35".toList⟩, "iotcc".toList)
  revert hattempted
  decide

end Example

end Liota.DeviceDiscovery
