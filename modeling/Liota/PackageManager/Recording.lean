import Liota.PackageManager.Relisting

namespace Liota.PackageManager

open Python Python.Computation Python.Text Relation

variable {F : Type} {π : Platform F}

section Own

/-- How a package that its own call loads comes to be recorded: from the file that was opened for
it, with a line in the start-up list if that is asked for. -/
structure Enters (π : Platform F) (call : Call) (s : State F)
    (o : Outcome (Option (PackageRecord F))) (t : State F) (r : PackageRecord F) : Prop where
  opened : ∃ u opened obj, Opens π call.name call.checksum call.ext s u opened ∧
    r = opened.record obj
  listed : ∃ u : State F, u.startupList = s.startupList ∧ t.startupList = if call.autoload then
    (writePackageIntoAutoload call.name r.sha1 u).2.startupList else u.startupList
  returned : o = .ok (some r) ∨ call.autoload = true ∧ ¬ Parseable s.startupList

structure OwnEffect (π : Platform F) (call : Call) (s : State F)
    (o : Outcome (Option (PackageRecord F))) (t : State F) : Prop where
  enters : ∀ r, ¬ s.Loaded call.name → t.record call.name = some r → Enters π call s o t r
  loaded : ∀ r, o = .ok (some r) → t.record call.name = some r

variable {call : Call} {s t u : State F} {o : Outcome (Option (PackageRecord F))}

theorem ownEffect_of_not_loaded (hn : ¬ s.Loaded call.name → ¬ t.Loaded call.name)
    (ho : ∀ r, o ≠ .ok (some r)) : OwnEffect π call s o t where
  enters _ hs hr := absurd (State.loaded_of_record hr) (hn hs)
  loaded r h := absurd h (ho r)

theorem recordPackage_ownEffect (name : Str) (checksum : Option Str) (autoload : Bool)
    (r : PackageRecord F) (s : State F) :
    (recordPackage name checksum autoload r s).2.record name = some r ∧
      ∀ r', (recordPackage name checksum autoload r s).1 = .ok (some r') → r' = r := by
  constructor
  · obtain ⟨list, h⟩ := recordPackage_snd name checksum autoload r s
    rw [h]
    change (s.insert name r).record name = some r
    rw [State.record_insert, if_pos rfl]
  · intro r' h
    rcases recordPackage_fst name checksum autoload r s with hok | ⟨hraised, -⟩
    · rw [hok] at h
      exact (Option.some.inj (Outcome.ok.inj h)).symm
    · rw [hraised] at h
      cases h

theorem startPackage_ownEffect {opened : Opened F}
    (ho : openPackage π call.name call.checksum call.ext s = (.ok (some opened), t))
    (hlist : u.startupList = s.startupList) (hn : ¬ u.Loaded call.name) :
    OwnEffect π call s (startPackage call.name call.checksum call.autoload opened u).1
      (startPackage call.name call.checksum call.autoload opened u).2 := by
  rcases startPackage_cases call.name call.checksum call.autoload opened u with
    hfail | ⟨klass, obj, registry, -, -, -, heq⟩
  · obtain ⟨tick, registry, hframe⟩ := hfail.frame
    apply ownEffect_of_not_loaded
    · intro _
      rw [hframe]
      exact hn
    · intro r hr
      rcases hfail.outcome with h | ⟨_, _, e, _, _, _, _, _, h⟩
      · rw [h] at hr
        cases hr
      · rw [h] at hr
        cases hr
  · obtain ⟨v, hv, hrecord⟩ := recordPackage_startupList call.name call.checksum call.autoload
      (opened.record obj) (ran u registry)
    obtain ⟨hsnd, hfst⟩ := recordPackage_ownEffect call.name call.checksum call.autoload
      (opened.record obj) (ran u registry)
    rw [heq]
    constructor
    · intro r _ hr
      obtain rfl := Option.some.inj (hsnd.symm.trans hr)
      refine ⟨⟨t, opened, obj, openPackage_opens ho, rfl⟩, ⟨v, hv.trans hlist, hrecord⟩, ?_⟩
      rcases recordPackage_fst call.name call.checksum call.autoload (opened.record obj)
        (ran u registry) with h | ⟨-, hauto, hpar⟩
      · exact .inl h
      · refine .inr ⟨hauto, ?_⟩
        rw [← hlist]
        exact hpar
    · intro r hr
      rw [hfst r hr]
      exact hsnd

theorem own_loadRule : LoadRule π
    (fun _ call s o t ↦ ListEffect π call s o t ∧ OwnEffect π call s o t)
    (fun _ _ _ s _ t ↦ t.startupList = s.startupList) where
  outOfFuel stack call s := ⟨list_loadRule.outOfFuel stack call s,
    ownEffect_of_not_loaded id (by simp)⟩
  closed {_ call s _} hstack ho := by
    have hsteps := openPackage_steps (π := π) [call.name] call.name call.checksum call.ext s
    rw [ho] at hsteps
    exact ⟨list_loadRule.closed hstack ho,
      ownEffect_of_not_loaded (LoadSteps.not_loaded hsteps (by simp)) (by simp)⟩
  refused {_ call s _ _} hstack ho := by
    have hsteps := openPackage_steps (π := π) [call.name] call.name call.checksum call.ext s
    rw [ho] at hsteps
    exact ⟨list_loadRule.refused hstack ho,
      ownEffect_of_not_loaded (LoadSteps.not_loaded hsteps (by simp)) (by simp)⟩
  stopped {_ _ _ _ _ _ o} hstack ho hQ hne hsteps := by
    refine ⟨list_loadRule.stopped hstack ho hQ hne hsteps, ownEffect_of_not_loaded ?_ ?_⟩
    · intro _
      exact LoadSteps.not_loaded hsteps (by simp) (openPackage_not_loaded_after ho)
    · intro r
      cases o <;> simp [Outcome.map]
  started {_ call s _ _ _} hstack ho hQ hsteps hlinked := by
    have hstep := openPackage_step (π := π) call.name call.checksum call.ext s
    rw [ho] at hstep
    exact ⟨list_loadRule.started hstack ho hQ hsteps hlinked,
      startPackage_ownEffect ho (hQ.trans hstep.startupList)
        (LoadSteps.not_loaded hsteps (by simp) (openPackage_not_loaded_after ho))⟩
  done _ _ _ := rfl
  cycle _ _ _ := rfl
  present _ _ _ hQ := hQ
  pulled _ _ _ hP _ _ hQ := hQ.trans (hP.1.startupList rfl)
  missing _ _ hP _ _ := hP.1.startupList rfl

theorem makeCall_ownEffect (call : Call) (s : State F) :
    OwnEffect π call s (makeCall π call s).1 (makeCall π call s).2 :=
  (own_loadRule.packageLoad call.name call.checksum call.autoload call.ext s).2

end Own

section Lines

def startupLines : Option Str → List Str
  | none => []
  | some text => splitlines text

def linesOf (name : Str) (startupList : Option Str) : List Str :=
  (startupLines startupList).filter fun values ↦ lineKey values = some name

theorem listed_iff_linesOf (name : Str) (startupList : Option Str) :
    Listed startupList name ↔ linesOf name startupList ≠ [] := by
  have hmem : linesOf name startupList ≠ [] ↔
      ∃ values ∈ startupLines startupList, lineKey values = some name := by
    simp [linesOf, List.filter_eq_nil_iff]
  rw [hmem]
  cases startupList <;> simp [Listed, startupLines]

theorem lineKey_append {name sum : Str} (hname : Plain name) (hsum : Plain sum) :
    lineKey (name ++ ':' :: sum) = some name := by
  rw [lineKey, splitRecord_append hname.1 hsum.1]
  rfl

theorem startupLines_written {s : State F} {name sum : Str} (hpar : Parseable s.startupList)
    (hsome : s.startupList ≠ none) (hname : Plain name) (hsum : Plain sum) :
    startupLines (writePackageIntoAutoload name sum s).2.startupList =
      startupLines s.startupList ++
        if linesOf name s.startupList = [] then [name ++ ':' :: sum] else [] := by
  obtain ⟨text, htext⟩ := Option.ne_none_iff_exists'.mp hsome
  obtain ⟨added, hadded, hw⟩ := writePackageIntoAutoload_eq name sum htext hpar
  have hlines : startupLines (writePackageIntoAutoload name sum s).2.startupList =
      startupLines s.startupList ++ added := by
    rw [hw, htext]
    exact splitlines_written hname hsum hadded
  rw [hlines]
  rw [listed_iff_linesOf] at hadded
  rcases hadded with ⟨rfl, hl⟩ | ⟨rfl, hl⟩
  · rw [if_neg hl]
  · rw [if_pos (not_not.mp hl)]

theorem startupLines_retire (s : State F) (name : Str) :
    startupLines (retire s name).startupList =
      (startupLines s.startupList).filter fun values ↦ lineKey values ≠ some name := by
  rcases hs : s.startupList with _ | text
  · simp [retire, delist, hs, startupLines]
  · simp only [retire, delist, hs, Option.map_some, startupLines, splitlines_delist]

theorem startupLines_retireAll (s : State F) (names : List Str) :
    startupLines (retireAll s names).startupList =
      (startupLines s.startupList).filter fun values ↦ ∀ n ∈ names, lineKey values ≠ some n := by
  induction names generalizing s with
  | nil => simp [retireAll]
  | cons n rest ih =>
    change startupLines (retireAll (retire s n) rest).startupList = _
    rw [ih, startupLines_retire, List.filter_filter]
    apply List.filter_congr
    intro values _
    simp [Bool.and_comm]

end Lines

section Events

/-- What was logged since `s`. -/
def State.since (s t : State F) : List Event := t.trace.drop s.trace.length

theorem State.since_eq {s t : State F} {events : List Event} (h : t.trace = s.trace ++ events) :
    s.since t = events := by
  rw [State.since, h, List.drop_left]

/-- What loading logs: nothing of packages that are unloaded, and of loaded packages only such as
were not loaded before. -/
structure LoadLog (s t : State F) (events : List Event) : Prop where
  trace : t.trace = s.trace ++ events
  cleanedUp : ∀ q, .cleanedUp q ∉ events
  loaded : ∀ p c, .loaded p c ∈ events → ¬ s.Loaded p ∧ t.Loaded p

theorem LoadStep.log {stack : List Str} {s t : State F} (h : LoadStep π stack s t) :
    ∃ events, LoadLog s t events := by
  cases h with
  | tick | linked | raised => exact ⟨[], (List.append_nil s.trace).symm, by simp, by simp⟩
  | imported | dropped => exact ⟨[_], rfl, by simp, by simp⟩
  | loaded hn =>
    refine ⟨[_], rfl, by simp, ?_⟩
    intro p c hmem
    obtain ⟨rfl, rfl⟩ : p = _ ∧ c = _ := by simpa using hmem
    exact ⟨hn, (State.loaded_insert _ _ _ _).mpr (.inl rfl)⟩
  | @listed name sha1 =>
    obtain ⟨list, hl⟩ := writePackageIntoAutoload_frame name sha1 s
    exact ⟨[], by simp [hl], by simp, by simp⟩

theorem LoadSteps.log {stack : List Str} {s t : State F} (h : LoadSteps π stack s t) :
    ∃ events, LoadLog s t events := by
  induction h with
  | refl => exact ⟨[], by simp, by simp, by simp⟩
  | @tail u v hsteps hstep ih =>
    obtain ⟨events, hbefore⟩ := ih
    obtain ⟨events', hlast⟩ := hstep.log
    refine ⟨events ++ events', ?_, ?_, ?_⟩
    · rw [hlast.trace, hbefore.trace, List.append_assoc]
    · intro q hq
      exact (List.mem_append.mp hq).elim (hbefore.cleanedUp q) (hlast.cleanedUp q)
    · intro p c hp
      rcases List.mem_append.mp hp with hp | hp
      · obtain ⟨hn, hl⟩ := hbefore.loaded p c hp
        exact ⟨hn, hstep.grows.loaded hl⟩
      · obtain ⟨hn, hl⟩ := hlast.loaded p c hp
        exact ⟨fun hs ↦ hn (LoadSteps.grows hsteps |>.loaded hs), hl⟩

/-- The package was loaded, or loaded again, since `s`. -/
def LoadedSince (p : Str) (s t : State F) : Prop := ∃ c, .loaded p c ∈ s.since t

theorem not_loadedSince_of_cleanedUp {p : Str} {s t : State F}
    (h : ∃ names : List Str, t.trace = s.trace ++ names.map .cleanedUp) :
    ¬ LoadedSince p s t := by
  obtain ⟨names, htrace⟩ := h
  rintro ⟨c, hc⟩
  rw [State.since_eq htrace] at hc
  obtain ⟨n, -, hn⟩ := List.mem_map.mp hc
  cases hn

/-- A line of a package other than `p` that was not unloaded either. -/
def otherLine (p : Str) (events : List Event) (values : Str) : Bool :=
  (lineKey values).any fun q ↦ q ≠ p ∧ .cleanedUp q ∉ events

/-- The start-up list has one line for the package, with the digest that is recorded, and the
lines of the packages that were not unloaded are as they were. -/
structure LineRecorded (p : Str) (s t : State F) : Prop where
  own : ∃ r, t.record p = some r ∧ linesOf p t.startupList = [p ++ ':' :: r.sha1]
  others : (startupLines t.startupList).filter (otherLine p (s.since t)) =
    (startupLines s.startupList).filter (otherLine p (s.since t))

theorem LineRecorded.plain {p : Str} {s t : State F} (h : LineRecorded p s t) : Plain p := by
  obtain ⟨r, -, hlines⟩ := h.own
  have hlisted : Listed t.startupList p := by
    rw [listed_iff_linesOf, hlines]
    simp
  exact hlisted.plain

end Events

section Loop

abbrev loadTracked (π : Platform F) (ext : TrackItem → Option Ext) :
    TrackItem → Str → Manager F (Option (PackageRecord F)) :=
  fun item sha1 ↦ packageLoad π item.name (some sha1) false (ext item)

theorem Tries.startupList {calls : List Call} {s t : State F} (h : Tries π calls s t)
    (hauto : ∀ call ∈ calls, call.autoload = false) : t.startupList = s.startupList := by
  induction h with
  | done => rfl
  | skipped _ _ ih => exact ih fun call hc ↦ hauto call (by simp [hc])
  | @made call _ s t _ _ ih =>
    rw [ih fun call hc ↦ hauto call (by simp [hc])]
    exact (makeCall_listEffect call s).startupList (hauto call (by simp))

end Loop

section Restart

variable {s v : State F} {p sum : Str} {names : List Str}

theorem linesOf_retireAll (s : State F) (hmem : p ∈ names) :
    linesOf p (retireAll s names).startupList = [] := by
  rw [linesOf, startupLines_retireAll, List.filter_filter, List.filter_eq_nil_iff]
  intro values _ h
  simp only [Bool.and_eq_true, decide_eq_true_eq] at h
  exact h.2 p hmem h.1

theorem otherLine_own {events : List Event} (hname : Plain p) (hsum : Plain sum) :
    otherLine p events (p ++ ':' :: sum) = false := by
  rw [otherLine, lineKey_append hname hsum]
  simp

theorem filter_otherLine_retireAll (s : State F) (p : Str) {events : List Event}
    (hevents : ∀ n ∈ names, .cleanedUp n ∈ events) :
    (startupLines (retireAll s names).startupList).filter (otherLine p events) =
      (startupLines s.startupList).filter (otherLine p events) := by
  rw [startupLines_retireAll, List.filter_filter]
  apply List.filter_congr
  intro values _
  have hkeep (h : otherLine p events values = true) : ∀ n ∈ names, lineKey values ≠ some n := by
    intro n hn heq
    rw [otherLine, heq] at h
    simp only [Option.any_some, decide_eq_true_eq] at h
    exact h.2 (hevents n hn)
  cases h : otherLine p events values with
  | false => rfl
  | true =>
    rw [Bool.true_and, decide_eq_true_eq]
    exact hkeep h

theorem lineRecorded_written (hmem : p ∈ names)
    (hlist : v.startupList = (retireAll s names).startupList) (hpar : Parseable s.startupList)
    (hsome : s.startupList ≠ none) (hname : Plain p) (hsum : Plain sum)
    (hrecord : ∃ r, v.record p = some r ∧ r.sha1 = sum) {events : List Event}
    (htrace : v.trace = (retireAll s names).trace ++ events) :
    LineRecorded p s (writePackageIntoAutoload p sum v).2 := by
  have hlines := startupLines_written (s := v) (by rw [hlist]; exact parseable_retireAll hpar _)
    (by rw [hlist]; exact retireAll_startupList_ne_none hsome) hname hsum
  rw [hlist, if_pos (linesOf_retireAll s hmem)] at hlines
  constructor
  · obtain ⟨r, hr, rfl⟩ := hrecord
    refine ⟨r, by rw [record_writePackageIntoAutoload]; exact hr, ?_⟩
    have hnone := linesOf_retireAll s hmem
    rw [linesOf] at hnone
    rw [linesOf, hlines, List.filter_append, hnone]
    simp [lineKey_append hname hsum]
  · obtain ⟨htrace', -⟩ := frame_retireAll s names
    have hsince : s.since (writePackageIntoAutoload p sum v).2 =
        names.map .cleanedUp ++ events := by
      apply State.since_eq
      rw [trace_of_written (.inr ⟨sum, rfl⟩), htrace, htrace', List.append_assoc]
    rw [hsince, hlines, List.filter_append,
      filter_otherLine_retireAll s p fun n hn ↦ List.mem_append_left _ (List.mem_map_of_mem hn)]
    simp [otherLine_own hname hsum]

end Restart

section Reload

variable {s s₁ v : State F} {p c : Str}

theorem reloadTracked_own (ext : TrackItem → Option Ext) {item : TrackItem} {rest : List TrackItem}
    (hitem : item.name = p) (hrest : ∀ x ∈ rest, x.name ≠ p) (hgone : ¬ s₁.Loaded p)
    {r : Option (PackageRecord F)}
    (h : reloadTracked (loadTracked π ext) p c (item :: rest) none s₁ = (.ok r, v)) :
    ∃ u, makeCall π (restartCall ext p c item) s₁ = (.ok r, u) ∧ LoadSteps π [] u v := by
  rw [reloadTracked, get_bind_apply, if_neg (by rw [hitem]; exact hgone)] at h
  obtain ⟨temp, u, hown, hloop⟩ := bind_eq_ok h
  rw [if_pos hitem] at hloop
  have hrecord := reloadTracked_record ext p c rest hrest _ _ hloop
  obtain ⟨pre, -, htries⟩ := reloadTracked_tries (π := π) ext p c rest (temp <|> none) u
  rw [hloop] at htries
  refine ⟨u, ?_, htries.steps⟩
  obtain rfl : r = temp := by simpa using hrecord
  exact hown

theorem restart_of_record {load : TrackItem → Str → Manager F (Option (PackageRecord F))}
    {track : List TrackItem} {r : PackageRecord F}
    (hu : packageUnload π p [] s = (.ok (true, track), s₁))
    (hloop : reloadTracked load p c track.reverse none s₁ = (.ok (some r), v)) :
    (restart π load p c true s).2 = (writePackageIntoAutoload p r.sha1 v).2 := by
  rw [restart, bind_ok hu]
  dsimp only
  rw [if_pos rfl, bind_ok hloop]
  dsimp only
  rw [if_pos rfl, bind_pure_snd]

theorem reloadTracked_startupList (ext : TrackItem → Option Ext) (p c : Str)
    (items : List TrackItem) (record : Option (PackageRecord F)) (s : State F) :
    (reloadTracked (loadTracked π ext) p c items record s).2.startupList = s.startupList := by
  obtain ⟨pre, hpre, htries⟩ := reloadTracked_tries (π := π) ext p c items record s
  apply htries.startupList
  intro call hcall
  obtain ⟨x, -, rfl⟩ := List.mem_map.mp (hpre.subset hcall)
  rfl

variable {above : List Str}

theorem not_loaded_retired (hnodup : (above ++ [p]).Nodup) :
    ¬ (retireAll s (above ++ [p])).Loaded p :=
  fun hl ↦ ((loaded_retireAll hnodup p).mp hl).1 (by simp)

theorem trackItems_reverse (s : State F) (above : List Str) (p : Str) :
    ((above ++ [p]).map (trackItem s)).reverse =
      trackItem s p :: (above.map (trackItem s)).reverse := by
  simp

theorem name_ne_of_above (hnodup : (above ++ [p]).Nodup) :
    ∀ x ∈ (above.map (trackItem s)).reverse, x.name ≠ p := by
  intro x hx
  obtain ⟨q, hq, rfl⟩ := List.mem_map.mp (List.mem_reverse.mp hx)
  rw [trackItem_name]
  exact (List.nodup_append.mp hnodup).2.2 q hq p (by simp)

theorem restarted_lineRecorded (hhex : s.fs.All fun _ content ↦ Hex (π.sha1 content))
    (hsome : s.startupList ≠ none) (hpar : Parseable s.startupList)
    (ext : TrackItem → Option Ext) (hnodup : (above ++ [p]).Nodup) (hname : Plain p)
    {r : PackageRecord F}
    (hloop : reloadTracked (loadTracked π ext) p c ((above ++ [p]).map (trackItem s)).reverse none
      (retireAll s (above ++ [p])) = (.ok (some r), v)) :
    LineRecorded p s (writePackageIntoAutoload p r.sha1 v).2 := by
  obtain ⟨pre, -, htries⟩ := reloadTracked_tries (π := π) ext p c
    ((above ++ [p]).map (trackItem s)).reverse none (retireAll s (above ++ [p]))
  have hlist := reloadTracked_startupList (π := π) ext p c
    ((above ++ [p]).map (trackItem s)).reverse none (retireAll s (above ++ [p]))
  rw [hloop] at htries hlist
  rw [trackItems_reverse] at hloop
  have hgone := not_loaded_retired (s := s) hnodup
  obtain ⟨u, hown, hsteps⟩ :=
    reloadTracked_own ext (trackItem_name s p) (name_ne_of_above hnodup) hgone hloop
  have heffect := makeCall_ownEffect (π := π) (restartCall ext p c (trackItem s p))
    (retireAll s (above ++ [p]))
  have hcall : (restartCall ext p c (trackItem s p)).name = p := trackItem_name s p
  rw [hown] at heffect
  have hr := heffect.loaded r rfl
  rw [hcall] at hr
  obtain ⟨u', opened, obj, hopens, rfl⟩ := (heffect.enters r (by rw [hcall]; exact hgone)
    (by rw [hcall]; exact hr)).opened
  have hmatch := hopens.sha1_matches
  obtain ⟨-, hfs, -, -⟩ := frame_retireAll s (above ++ [p])
  rw [hfs] at hmatch
  obtain ⟨dependents, hrecord, -⟩ := hsteps.grows p _ hr
  obtain ⟨events, hlog⟩ := htries.steps.log
  exact lineRecorded_written (by simp) hlist hpar hsome hname (hex_of_matches hhex hmatch).plain
    ⟨_, hrecord, rfl⟩ hlog.trace

theorem loaded_of_loadedSince {names : List Str} {pre : List Call}
    (htries : Tries π pre (retireAll s names) v) {t : State F} (htrace : t.trace = v.trace)
    (h : LoadedSince p s t) : v.Loaded p := by
  obtain ⟨events, hlog⟩ := htries.steps.log
  obtain ⟨hretired, -⟩ := frame_retireAll s names
  have hsince : s.since t = names.map .cleanedUp ++ events := by
    apply State.since_eq
    rw [htrace, hlog.trace, hretired, List.append_assoc]
  obtain ⟨c', hc'⟩ := h
  rw [hsince] at hc'
  rcases List.mem_append.mp hc' with hc' | hc'
  · obtain ⟨n, -, hn⟩ := List.mem_map.mp hc'
    cases hn
  · exact (hlog.loaded p c' hc').2

/-- Reload and update with `-r` of a loaded package record its line if the name can stand in a
line, only its own call can load it again, and no call meets anything that raises. -/
theorem restart_lineRecorded (hs : Consistent s) (htame : s.Follows (tame π))
    (hhex : s.fs.All fun _ content ↦ Hex (π.sha1 content)) (hp : s.Loaded p)
    (hsome : s.startupList ≠ none) (hname : Plain p) (ext : TrackItem → Option Ext) (c : Str)
    (hcalls : ∀ names, Enumerates s (· = p) names →
      Unpulled π (retireAll s names) p
        ((names.map (trackItem s)).reverse.map (restartCall ext p c)) ∧
      ∀ call ∈ (names.map (trackItem s)).reverse.map (restartCall ext p c),
        Calm π (retireAll s names) call)
    (hloaded : LoadedSince p s (restart π (loadTracked π ext) p c true s).2) :
    LineRecorded p s (restart π (loadTracked π ext) p c true s).2 := by
  have hshrinks := packageUnload_shrinks π p [] s
  rcases hu : packageUnload π p [] s with ⟨⟨b, track⟩ | e | _, w⟩
  · obtain ⟨hpar, names, hnames, rfl, rfl, rfl⟩ := packageUnload_ok hs hp hu
    obtain ⟨above, rfl⟩ := hnames.eq_concat hp
    obtain ⟨hpull, hcalm⟩ := hcalls _ hnames
    obtain ⟨r, v, hloop, -, hrecord⟩ := reloadTracked_returns htame hnames.nodup ext c hpull hcalm
    obtain ⟨pre, -, htries⟩ := reloadTracked_tries (π := π) ext p c
      ((above ++ [p]).map (trackItem s)).reverse none (retireAll s (above ++ [p]))
    rw [hloop] at htries
    have htrace : (restart π (loadTracked π ext) p c true s).2.trace = v.trace := by
      cases r with
      | none =>
        rw [restart, bind_ok hu]
        dsimp only
        rw [if_pos rfl, List.nil_append, bind_ok hloop]
        rfl
      | some r =>
        rw [restart_of_record hu hloop]
        exact trace_of_written (.inr ⟨r.sha1, rfl⟩)
    obtain ⟨r₀, rfl, -⟩ := hrecord (loaded_of_loadedSince htries htrace hloaded)
    rw [restart_of_record hu hloop]
    exact restarted_lineRecorded hhex hsome hpar ext hnames.nodup hname hloop
  · rw [hu] at hshrinks
    rw [restart, bind_raised hu] at hloaded
    exact absurd hloaded (not_loadedSince_of_cleanedUp hshrinks.trace)
  · rw [hu] at hshrinks
    rw [restart, bind_diverged hu] at hloaded
    exact absurd hloaded (not_loadedSince_of_cleanedUp hshrinks.trace)

end Reload

section Load

variable {s : State F} {p c : Str}

theorem entered_of_loadedSince {autoload : Bool}
    (hloaded : LoadedSince p s (makeCall π (listCall autoload (p, c)) s).2) :
    ∃ r, (makeCall π (listCall autoload (p, c)) s).2.record p = some r ∧ r.sha1 = c ∧
      Enters π (listCall autoload (p, c)) s (makeCall π (listCall autoload (p, c)) s).1
        (makeCall π (listCall autoload (p, c)) s).2 r := by
  have hsteps : LoadSteps π [] s (makeCall π (listCall autoload (p, c)) s).2 :=
    packageLoad_steps p (some c) autoload none s
  obtain ⟨events, hlog⟩ := hsteps.log
  obtain ⟨c', hc'⟩ := hloaded
  rw [State.since_eq hlog.trace] at hc'
  obtain ⟨hn, hl⟩ := hlog.loaded p c' hc'
  obtain ⟨r, hr⟩ := State.loaded_iff.mp hl
  have henters := (makeCall_ownEffect (π := π) (listCall autoload (p, c)) s).enters r hn hr
  obtain ⟨u, opened, obj, hopens, rfl⟩ := henters.opened
  exact ⟨_, hr, (hopens.given c rfl).1, henters⟩

theorem load_lineRecorded_iff
    (hloaded : LoadedSince p s (makeCall π (listCall false (p, c)) s).2) :
    LineRecorded p s (makeCall π (listCall false (p, c)) s).2 ↔
      linesOf p s.startupList = [p ++ ':' :: c] := by
  obtain ⟨r, hr, hsum, henters⟩ := entered_of_loadedSince hloaded
  obtain ⟨u, hu, hlist⟩ := henters.listed
  have hsame : (makeCall π (listCall false (p, c)) s).2.startupList = s.startupList :=
    hlist.trans hu
  constructor
  · intro h
    obtain ⟨r', hr', hlines⟩ := h.own
    obtain rfl := Option.some.inj (hr.symm.trans hr')
    rwa [hsame, hsum] at hlines
  · intro h
    refine ⟨⟨r, hr, ?_⟩, ?_⟩
    · rw [hsame, hsum]
      exact h
    · rw [hsame]

theorem load_autoload_lineRecorded_iff (hhex : s.fs.All fun _ content ↦ Hex (π.sha1 content))
    (hsome : s.startupList ≠ none) (hpar : Parseable s.startupList)
    (hloaded : LoadedSince p s (makeCall π (listCall true (p, c)) s).2) :
    LineRecorded p s (makeCall π (listCall true (p, c)) s).2 ↔
      Plain p ∧ (linesOf p s.startupList = [] ∨
        linesOf p s.startupList = [p ++ ':' :: c]) := by
  obtain ⟨r, hr, hsha1, henters⟩ := entered_of_loadedSince hloaded
  have hsum : Plain c := by
    obtain ⟨u', opened, obj, hopens, rfl⟩ := henters.opened
    rw [← hsha1]
    exact (hex_of_matches hhex hopens.sha1_matches).plain
  obtain ⟨u, hu, hlist⟩ := henters.listed
  have hlines (hname : Plain p) :
      startupLines (makeCall π (listCall true (p, c)) s).2.startupList =
        startupLines s.startupList ++
          if linesOf p s.startupList = [] then [p ++ ':' :: c] else [] := by
    rw [← hu] at hpar hsome
    have h := startupLines_written hpar hsome hname hsum
    rw [hu] at h
    rw [hsha1] at hlist
    exact (congrArg startupLines hlist).trans h
  have hown (hname : Plain p) : linesOf p (makeCall π (listCall true (p, c)) s).2.startupList =
      linesOf p s.startupList ++
        if linesOf p s.startupList = [] then [p ++ ':' :: c] else [] := by
    rw [linesOf, hlines hname, List.filter_append]
    split
    · simp [linesOf, lineKey_append hname hsum]
    · simp [linesOf]
  constructor
  · intro h
    refine ⟨h.plain, ?_⟩
    obtain ⟨r', hr', hlines'⟩ := h.own
    obtain rfl := Option.some.inj (hr.symm.trans hr')
    rw [hown h.plain, hsha1] at hlines'
    by_cases hnil : linesOf p s.startupList = []
    · exact .inl hnil
    · rw [if_neg hnil, List.append_nil] at hlines'
      exact .inr hlines'
  · rintro ⟨hname, hbefore⟩
    refine ⟨⟨r, hr, ?_⟩, ?_⟩
    · rw [hown hname, hsha1]
      rcases hbefore with h | h
      · rw [if_pos h, h, List.nil_append]
      · rw [if_neg (by simp [h]), h, List.append_nil]
    · rw [hlines hname, List.filter_append]
      split
      · simp [otherLine_own hname hsum]
      · simp

end Load

/-- With `-r` these commands are to put the package into the start-up list. -/
def Request.Records : Request → Str → Prop
  | .load fileName _ autoload, p => autoload = true ∧ p = fileName
  | .reload fileName _ autoload, p => autoload = true ∧ p = fileName
  | .update fileName _ autoload, p => autoload = true ∧ p = fileName
  | _, _ => False

/-- Only its own call can load `p` again once the request has unloaded it, and no call meets
anything that raises. -/
def Request.LoadsAlone (π : Platform F) (s : State F) (p : Str) (request : Request) : Prop :=
  ∀ s₁ calls, Loads s request s₁ calls → Unpulled π s₁ p calls ∧ ∀ call ∈ calls, Calm π s₁ call

/-- A load adds a line but leaves one that is there alone, an update of a package that is not
loaded writes none, and where packages are unloaded first, the package must be loaded again by its
own call. -/
def Request.WritesLine (π : Platform F) (s : State F) (p : Str) : Request → Prop
  | .load _ c _ => Plain p ∧ (linesOf p s.startupList = [] ∨
      linesOf p s.startupList = [p ++ ':' :: c])
  | .reload fileName c autoload => Plain p ∧ (Request.reload fileName c autoload).LoadsAlone π s p
  | .update fileName c autoload =>
    if s.Loaded p then Plain p ∧ (Request.update fileName c autoload).LoadsAlone π s p
    else linesOf p s.startupList = [p ++ ':' :: c]
  | _ => True

/-- With `-r` the list records what was loaded, wherever the request writes the line. -/
theorem line_recorded {condition : State F → Request → Prop} {t : Thread F}
    (ht : Reachable π (FileSystem.All (tame π).file) condition t)
    (hhex : t.state.fs.All fun _ content ↦ Hex (π.sha1 content))
    (hsome : t.state.startupList ≠ none) (hpar : Parseable t.state.startupList)
    {request : Request} {p : Str} (hrequest : request.Records p)
    (hloaded : LoadedSince p t.state (perform π request t.state).2)
    (hwrites : request.WritesLine π t.state p) :
    LineRecorded p t.state (perform π request t.state).2 := by
  have hidle : ¬ LoadedSince p t.state t.state :=
    not_loadedSince_of_cleanedUp ⟨[], (List.append_nil _).symm⟩
  cases request with
  | load fileName c autoload =>
    obtain ⟨rfl, rfl⟩ := hrequest
    rw [perform, bind_pure_snd] at hloaded ⊢
    exact (load_autoload_lineRecorded_iff hhex hsome hpar hloaded).mpr hwrites
  | reload fileName c autoload =>
    obtain ⟨rfl, rfl⟩ := hrequest
    obtain ⟨hname, hcalls⟩ := hwrites
    rw [perform, bind_pure_snd, packageReload, get_bind_apply] at hloaded ⊢
    by_cases hp : t.state.Loaded p
    · rw [if_pos hp] at hloaded ⊢
      exact restart_lineRecorded ht.consistent ht.follows hhex hp hsome hname _ c
        (fun names hnames ↦ hcalls _ _ (.reload c true hp hnames)) hloaded
    · rw [if_neg hp] at hloaded
      exact absurd hloaded hidle
  | update fileName c autoload =>
    obtain ⟨rfl, rfl⟩ := hrequest
    rw [perform, bind_pure_snd, packageUpdate, get_bind_apply] at hloaded ⊢
    rw [Request.WritesLine] at hwrites
    by_cases hp : t.state.Loaded p
    · rw [if_pos hp] at hloaded hwrites ⊢
      exact restart_lineRecorded ht.consistent ht.follows hhex hp hsome hwrites.1 _ c
        (fun names hnames ↦ hwrites.2 _ _ (.update c true hp hnames)) hloaded
    · rw [if_neg hp] at hloaded hwrites ⊢
      exact (load_lineRecorded_iff hloaded).mpr hwrites
  | loadList | updateList | unload | unloadList | delete | deleteList | loadAuto | unloadAll
  | updateAll | terminate | report | ignored => exact hrequest.elim

section Witness

/-- The thread whose start-up list is empty, or has an old line for `p`. -/
def emptyListThread : Thread Script := scriptThread pairScripts (some []) []

def oldLineThread : Thread Script := scriptThread pairScripts (some "p:1\n".toList) []

theorem line_recorded_empty :
    LineRecorded "p".toList emptyListThread.state
      (perform scriptPlatform (parseMessage (words "load -r p 2")) emptyListThread.state).2 := by
  have htame : Reachable scriptPlatform (FileSystem.All (tame scriptPlatform).file)
      (fun _ _ ↦ True) emptyListThread := reachable_scriptThread tame_pairScripts _ _
  have hchecksummed : Reachable scriptPlatform (FileSystem.All (checksummed scriptPlatform).file)
      (fun _ _ ↦ True) emptyListThread := reachable_scriptThread checksummed_pairScripts _ _
  have hlist : emptyListThread.state.startupList = some [] := by decide +kernel
  have hmsg : parseMessage (words "load -r p 2") = .load "p".toList "2".toList true := by
    decide +kernel
  have hloaded : Event.loaded "p".toList (some "2".toList) ∈ emptyListThread.state.since
      (perform scriptPlatform (parseMessage (words "load -r p 2"))
        emptyListThread.state).2 := by decide +kernel
  refine line_recorded htame hchecksummed.follows.files (by simp [hlist]) ?_ ?_ ⟨_, hloaded⟩ ?_
  · rw [hlist, parseable_iff]
    simp [splitlines, splitlinesFrom]
  · rw [hmsg]
    exact ⟨rfl, rfl⟩
  · rw [hmsg, Request.WritesLine, hlist]
    exact ⟨⟨by decide, by simp [NoNewline]⟩, .inl rfl⟩

/-- A line with an old checksum is not brought up to date. -/
theorem old_line_kept :
    ¬ ∀ t, Reachable scriptPlatform (FileSystem.All (checksummed scriptPlatform).file)
      (fun _ _ ↦ True) t → t.state.startupList ≠ none → Parseable t.state.startupList →
      ∀ (request : Request) (p : Str), request.Records p →
        LoadedSince p t.state (perform scriptPlatform request t.state).2 →
        LineRecorded p t.state (perform scriptPlatform request t.state).2 := by
  intro h
  have hlist : oldLineThread.state.startupList = some "p:1\n".toList := by decide +kernel
  have hlines : splitlines "p:1\n".toList = ["p:1".toList] := by decide +kernel
  have hloaded : Event.loaded "p".toList (some "2".toList) ∈ oldLineThread.state.since
      (perform scriptPlatform (.load "p".toList "2".toList true) oldLineThread.state).2 := by
    decide +kernel
  have hline := h oldLineThread (reachable_scriptThread checksummed_pairScripts _ _)
    (by simp [hlist]) (by
      rw [hlist, parseable_iff, hlines]
      decide)
    (.load "p".toList "2".toList true) "p".toList ⟨rfl, rfl⟩ ⟨_, hloaded⟩
  obtain ⟨r, hr, hown⟩ := hline.own
  have hrecord : ((perform scriptPlatform (.load "p".toList "2".toList true)
      oldLineThread.state).2.record "p".toList).map PackageRecord.sha1 = some "2".toList := by
    decide +kernel
  have hend : linesOf "p".toList (perform scriptPlatform (.load "p".toList "2".toList true)
      oldLineThread.state).2.startupList = ["p:1".toList] := by decide +kernel
  rw [hr, Option.map_some, Option.some.injEq] at hrecord
  rw [hend, hrecord] at hown
  exact absurd hown (by decide)

end Witness

end Liota.PackageManager
