import Liota.PackageManager.Calls
import Liota.PackageManager.ListRule
import Liota.PackageManager.Tries
import Liota.PackageManager.UnloadTermination

namespace Liota.PackageManager

open Python Python.Computation Python.Text Relation

variable {F : Type} {π : Platform F}

/-- `run` and `clean_up` raise nothing but exceptions that a handler can log. -/
structure Instance.Tame (obj : Instance) : Prop where
  run : ∀ name r e r', ResourceRegistry.exec name obj.run r = (.raised e, r') →
    e.isLogged = true
  cleanUp : ∀ e, obj.cleanUp = some e → e.isLogged = true

def Namespace.Tame (n : Namespace) : Prop :=
  ∀ klass tick obj, n.packageClass = some klass → klass tick = .ok obj → obj.Tame

/-- Package code raises nothing but exceptions that a handler can log. -/
def tame (π : Platform F) : Convention π where
  file ext content := ∀ tick,
    (∀ e, π.importing ext content tick = .rejected e ∨ π.importing ext content tick = .failed e →
      e.isLogged = true) ∧
    (π.importing ext content tick = .done → (π.assigns ext content).Tame)
  module := Namespace.Tame
  list _ := True
  object := Instance.Tame
  empty := by simp [Namespace.Tame, Namespace.empty]
  initialise {old assigned} hold hnew klass tick obj hk hobj := by
    rcases ha : assigned.packageClass with _ | w
    · exact hold klass tick obj (by simpa [Namespace.initialise, ha] using hk) hobj
    · exact hnew klass tick obj (by simpa [Namespace.initialise, ha] using hk) hobj
  assigns h hdone := (h _).2 hdone
  dependencies _ _ := trivial
  constructs h hk hobj := h _ _ _ hk hobj

/-- A call that may raise when it is opened: a candidate file cannot be read, or `dependencies`
has an item that is not a string. -/
def Hazard (π : Platform F) (s₀ : State F) (calls : List Str → Call → Prop) (call : Call) : Prop :=
  UnderPackagePath π call.name ∧
    ((∃ e, checksumList π s₀.fs call.name extensions = .error e) ∨
      (∀ c, call.checksum = some c → Matches π s₀.fs call.name c) ∧
      ∃ ext f, fileExt π s₀.fs call.name call.ext = some ext ∧
        s₀.fs.file (candidate π call.name ext) = some f ∧
        ∃ left, (left = none ∨ ∃ n, Source π s₀ calls (moduleName call.name) n ∧
          n.dependencies = left) ∧
          ∃ e, dependencyList ((π.assigns ext f.content).dependencies <|> left) = .error e)

section Load

variable {s₀ : State F} {calls : List Str → Call → Prop} {built : Str → Prop} {stack : List Str}

theorem isfile_of_fileExt {fs : FileSystem F} {name : Str} {extForced : Option Ext} {ext : Ext}
    (h : fileExt π fs name extForced = some ext) :
    ∃ f, fs.file (candidate π name ext) = some f := by
  refine Option.isSome_iff_exists.mp (show fs.isfile (candidate π name ext) = true from ?_)
  cases extForced with
  | none => simpa using List.find?_some h
  | some ext' =>
    simp only [fileExt] at h
    split at h
    · next hf => exact Option.some.inj h ▸ hf
    · cases h

theorem verifyIntegrity_ne_error {fs : FileSystem F} {path : Str} {f : File F}
    (hf : fs.file path = some f) (sums : List Str) (checksum : Option Str) (e : PyErr) :
    verifyIntegrity π fs path sums checksum ≠ .error e := by
  cases checksum with
  | some c => simp [verifyIntegrity]
  | none =>
    unfold verifyIntegrity
    dsimp only
    rcases hs : sha1sum π fs path with e' | (_ | sum)
    · simp
    · exact absurd hf (by simp [sha1sum_eq_none hs])
    · simp

theorem packageModuleLoad_raised {name : Str} {ext : Ext} {checksum : Option Str}
    {s t : State F} {e : PyErr}
    (h : packageModuleLoad π name ext checksum s = (.raised e, t)) :
    ∃ f e', s.fs.file (candidate π name ext) = some f ∧ e'.isLogged = false ∧
      (π.importing ext f.content s.tick = .rejected e' ∨
        π.importing ext f.content s.tick = .failed e') := by
  unfold packageModuleLoad at h
  split at h
  · cases h
  next f hf =>
  split at h
  swap
  · cases h
  dsimp only at h
  split at h
  · next e' himp =>
    cases he : e'.isLogged <;> simp only [he, Prod.mk.injEq] at h
    · exact ⟨f, e', hf, he, .inl himp⟩
    · cases h.1
  · next e' himp =>
    cases he : e'.isLogged <;> simp only [he, Prod.mk.injEq] at h
    · exact ⟨f, e', hf, he, .inr himp⟩
    · cases h.1
  · cases h

theorem LoadInv.hazard {call : Call} {s t : State F} {e : PyErr}
    (hs : LoadInv π s₀ calls built stack s) (htame : s.Follows (tame π))
    (ho : openPackage π call.name call.checksum call.ext s = (.raised e, t)) :
    Hazard π s₀ calls call := by
  have hfs := hs.steps.fs
  unfold openPackage at ho
  split at ho
  · cases ho
  split at ho
  · next e' hchk =>
    unfold packageChkExists at hchk
    split at hchk
    · next hunder =>
      refine ⟨hunder, .inl ?_⟩
      rcases hsums : checksumList π s.fs call.name extensions with e'' | sums
      · exact ⟨e'', hfs ▸ hsums⟩
      · simp [hsums] at hchk
    · cases hchk
  · cases ho
  next ext sums hchk =>
  obtain ⟨hunder, hsums, hext⟩ := packageChkExists_ext hchk
  obtain ⟨f, hf⟩ := isfile_of_fileExt hext
  split at ho
  · next e' hverify => exact absurd hverify (verifyIntegrity_ne_error hf _ _ _)
  · cases ho
  next sha1 hverify =>
  have hgiven : ∀ c, call.checksum = some c → Matches π s₀.fs call.name c := fun c hc ↦
    hfs ▸ matches_of_mem_checksumList hsums ((verifyIntegrity_eq_some hverify).1 c hc).2
  rw [bind_apply] at ho
  rcases hm : packageModuleLoad π call.name ext call.checksum s with ⟨(_ | source) | e' | _, u⟩ <;>
    rw [hm] at ho
  · cases ho
  · obtain ⟨⟨g, hg, -, rfl⟩, -, rfl⟩ := packageModuleLoad_eq_some hm
    refine ⟨hunder, .inr ⟨hgiven, ext, g, hfs ▸ hext, hfs ▸ hg,
      (s.module (moduleName call.name)).dependencies, hs.dependencies (moduleName call.name), ?_⟩⟩
    dsimp only [readDependencies] at ho
    rw [module_executed, if_pos rfl] at ho
    split at ho
    · next e'' hdeps => exact ⟨e'', hdeps⟩
    · cases ho
    · cases ho
  · obtain ⟨g, e'', hg, he, himp⟩ := packageModuleLoad_raised hm
    have hexc := (htame.files _ g hg ext s.tick).1 e'' himp
    simp [he] at hexc
  · cases ho

theorem startPackage_calm {call : Call} {opened : Opened F} {u : State F}
    (hu : u.Follows (tame π)) (hpar : call.autoload = true → Parseable u.startupList) (e : PyErr) :
    (startPackage call.name call.checksum call.autoload opened u).1 ≠ .raised e := by
  rcases startPackage_cases call.name call.checksum call.autoload opened u with
    hfail | ⟨klass, obj, registry, -, -, -, heq⟩
  · rcases hfail.outcome with h | ⟨klass, obj, e', registry, hk, hobj, hexec, he, h⟩
    · rw [h]
      simp
    · have hexc := ((hu.modules _) klass u.tick obj hk hobj).run _ _ _ _ hexec
      simp [he] at hexc
  · rw [heq]
    rcases recordPackage_fst call.name call.checksum call.autoload (opened.record obj)
      (ran u registry) with h | ⟨h, hauto, hnot⟩
    · rw [h]
      simp
    · exact absurd (hpar hauto) hnot

theorem tame_loadRule (hrun : RunOf π s₀ calls built) :
    LoadRule π
      (fun stack call s o t ↦ CertainCall π s₀ calls built stack call s o t ∧
        ListEffect π call s o t ∧ (s.Follows (tame π) → t.Follows (tame π)))
      (fun stack name deps s o t ↦ CertainLoop π s₀ calls built stack name deps s o t ∧
        t.startupList = s.startupList ∧ (s.Follows (tame π) → t.Follows (tame π))) :=
  (certain_loadRule hrun).and (list_loadRule.and follows_loadRule)

theorem calm_loadRule (hrun : RunOf π s₀ calls built)
    (hsafe : ∀ stack call, calls stack call → ¬ Hazard π s₀ calls call) :
    LoadRule π
      (fun stack call s o t ↦ (CertainCall π s₀ calls built stack call s o t ∧
        ListEffect π call s o t ∧ (s.Follows (tame π) → t.Follows (tame π))) ∧
        (calls stack call → LoadInv π s₀ calls built stack s → s.Follows (tame π) →
          (call.autoload = true → Parseable s.startupList) → ∀ e, o ≠ .raised e))
      (fun stack name deps s o t ↦ (CertainLoop π s₀ calls built stack name deps s o t ∧
        t.startupList = s.startupList ∧ (s.Follows (tame π) → t.Follows (tame π))) ∧
        ((∀ d ∈ deps, ¬ s₀.Loaded d → d ∉ stack → calls stack (.ofDependency d)) →
          LoadInv π s₀ calls built stack s → s.Follows (tame π) → ∀ e, o ≠ .raised e)) where
  outOfFuel stack call s := ⟨(tame_loadRule hrun).outOfFuel stack call s, by simp⟩
  closed hstack ho := ⟨(tame_loadRule hrun).closed hstack ho, by simp⟩
  refused {stack call s t e} hstack ho := ⟨(tame_loadRule hrun).refused hstack ho,
    fun hcall hs htame _ _ _ ↦ hsafe stack call hcall (hs.hazard htame ho)⟩
  stopped {stack call s t u opened o} hstack ho hQ hne hsteps := by
    refine ⟨(tame_loadRule hrun).stopped hstack ho hQ.1 hne hsteps, fun hcall hs htame _ e h ↦ ?_⟩
    have hstep := openPackage_step (π := π) call.name call.checksum call.ext s
    have hloop := hQ.2 (hrun.pulls hcall hs (openPackage_opens ho)) (hs.push hcall hstack ho)
      ((ho ▸ hstep).follows htame)
    rcases o with b | e' | _
    · cases h
    · exact hloop e' rfl
    · cases h
  started {stack call s t u opened} hstack ho hQ hsteps hlinked := by
    refine ⟨(tame_loadRule hrun).started hstack ho hQ.1 hsteps hlinked,
      fun hcall hs htame hpar e ↦ ?_⟩
    obtain ⟨-, hlist, hfollows⟩ := hQ.1
    have hstep := openPackage_step (π := π) call.name call.checksum call.ext s
    have hsame : t.startupList = s.startupList := (ho ▸ hstep).startupList
    refine startPackage_calm (hfollows ((ho ▸ hstep).follows htame)) (fun hauto ↦ ?_) e
    rw [hlist, hsame]
    exact hpar hauto
  done stack name s := ⟨(tame_loadRule hrun).done stack name s, by simp⟩
  cycle rest s hd := ⟨(tame_loadRule hrun).cycle rest s hd, by simp⟩
  present {stack name d rest s t o} hd hl hn hQ := by
    refine ⟨(tame_loadRule hrun).present (o := o) hd hl hn hQ.1, fun hcalls hs htame ↦ ?_⟩
    exact hQ.2 (fun x hx ↦ hcalls x (by simp [hx])) (hs.addDependent hl hn)
      (htame.relinks (addDependent_relinks d name _))
  pulled {stack name d rest s t u o r} hd hl hn hP hsteps hld hQ := by
    refine ⟨(tame_loadRule hrun).pulled (o := o) hd hl hn hP.1 hsteps hld hQ.1,
      fun hcalls hs htame ↦ ?_⟩
    obtain ⟨hcertain, -, hfollows⟩ := hP.1
    obtain ⟨ht, -⟩ := hcertain.2 (hcalls d (by simp) (hs.not_loaded hl) hd) hs
    exact hQ.2 (fun x hx ↦ hcalls x (by simp [hx])) (ht.addDependent hld hn)
      ((hfollows htame).relinks (addDependent_relinks d name _))
  missing {stack name d rest s t o} hd hl hP hsteps hmiss := by
    refine ⟨(tame_loadRule hrun).missing hd hl hP.1 hsteps hmiss, fun hcalls hs htame e h ↦ ?_⟩
    have hcall := hcalls d (by simp) (hs.not_loaded hl) hd
    have hpull := hP.2 hcall hs htame (by simp [Call.ofDependency])
    rcases o with r | e' | _
    · cases h
    · exact hpull e' rfl
    · cases h

end Load

/-- However packages are loaded from `s₁` on, the call meets no hazard. -/
def Calm (π : Platform F) (s₁ : State F) (call : Call) : Prop :=
  ∀ u, LoadSteps π [] s₁ u → ∀ other, MayCall π u call other →
    ¬ Hazard π u (callsOf π u call) other

theorem makeCall_ok {s₁ u : State F} {call : Call} (hu : LoadSteps π [] s₁ u)
    (htame : u.Follows (tame π)) (h : Calm π s₁ call)
    (hpar : call.autoload = true → Parseable u.startupList) :
    ∃ r t, makeCall π call u = (.ok r, t) ∧ t.Follows (tame π) ∧
      ListEffect π call u (.ok r) t := by
  obtain ⟨⟨-, hlist, hfollows⟩, hcalm⟩ := (calm_loadRule (runOf_top π u call)
    fun _ other hcall ↦ h u hu other hcall.1).packageLoad call.name call.checksum call.autoload
      call.ext u
  have hraise := hcalm callsOf_root loadInv_initial htame hpar
  have hterm := packageLoad_terminates (π := π) call.name call.checksum call.autoload call.ext u
  change ListEffect π call u (makeCall π call u).1 (makeCall π call u).2 at hlist
  rcases hm : makeCall π call u with ⟨r | e | _, t⟩
  · rw [show packageLoad π call.name call.checksum call.autoload call.ext u = _ from hm] at hfollows
    rw [hm] at hlist
    exact ⟨r, t, rfl, hfollows htame, hlist⟩
  · exact absurd (congrArg Prod.fst hm) (hraise e)
  · exact absurd (congrArg Prod.fst hm) hterm

/-- What unloading needs of a loaded package, apart from its links and its `clean_up`. -/
structure Detachable (s : State F) (name : Str) : Prop where
  isLiotaPackage : ∀ r, s.record name = some r → r.obj.isLiotaPackage = true
  nodup : (s.dependencies name).Nodup

theorem Detachable.removable {s : State F} {name : Str} (h : Detachable s name)
    (hs : s.Follows (tame π)) : Removable s name :=
  ⟨fun r e hr he ↦ (hs.records name r hr).2.cleanUp e he, h.isLiotaPackage, h.nodup⟩

/-- The request loads packages without handling exceptions. -/
def Request.LoadsSingly : Request → Prop
  | .load _ _ _ => True
  | .reload _ _ _ => True
  | .update _ _ _ => True
  | _ => False

section Perform

variable {s : State F}

theorem follows_retireAll {c : Convention π} (hs : s.Follows c) {names : List Str}
    (hnodup : names.Nodup) : (retireAll s names).Follows c := by
  obtain ⟨-, hfs, hmodules, -⟩ := frame_retireAll s names
  refine hs.relinks ⟨hfs, hmodules, fun k r hr ↦ ?_⟩
  rw [record_retireAll s names hnodup] at hr
  split at hr
  · cases hr
  · obtain ⟨r₀, hr₀, rfl⟩ := Option.map_eq_some_iff.mp hr
    exact ⟨r₀.dependents, hr₀⟩

theorem reloadTracked_ok (ext : TrackItem → Option Ext) (fileName checksum : Str)
    (items : List TrackItem) (record : Option (PackageRecord F)) {s₁ u : State F}
    (hu : LoadSteps π [] s₁ u) (htame : u.Follows (tame π))
    (hcalm : ∀ call ∈ items.map (restartCall ext fileName checksum), Calm π s₁ call) :
    ∃ r t, reloadTracked (fun item sha1 ↦ packageLoad π item.name (some sha1) false (ext item))
      fileName checksum items record u = (.ok r, t) ∧ t.startupList = u.startupList := by
  induction items generalizing record u with
  | nil => exact ⟨record, u, rfl, rfl⟩
  | cons item rest ih =>
    have hrest : ∀ call ∈ rest.map (restartCall ext fileName checksum), Calm π s₁ call :=
      fun call hc ↦ hcalm call (by simp [hc])
    rw [reloadTracked, get_bind_apply]
    split
    · exact ih record hu htame hrest
    · obtain ⟨r, t, hm, ht, hlist⟩ := makeCall_ok hu htame
        (hcalm (restartCall ext fileName checksum item) (by simp)) (by simp [restartCall])
      have hsteps : LoadSteps π [] u (makeCall π (restartCall ext fileName checksum item) u).2 :=
        packageLoad_steps _ _ _ _ u
      rw [hm] at hsteps
      have hload : packageLoad π item.name (some (if item.name = fileName ∧ checksum ≠ item.sha1
        then checksum else item.sha1)) false (ext item) u = (.ok r, t) := hm
      rw [bind_ok hload]
      obtain ⟨r', t', hrun, hlist'⟩ := ih (if item.name = fileName then r <|> record else record)
        (hu.trans hsteps) ht hrest
      exact ⟨r', t', hrun, hlist'.trans (hlist.startupList rfl)⟩

theorem packageUnload_returns (hs : Consistent s) (htame : s.Follows (tame π)) (p : Str)
    (hpar : s.Loaded p → Parseable s.startupList)
    (habove : s.Loaded p → ∀ q, s.Up p q → Detachable s q) (track : List TrackItem) :
    ∃ names result, packageUnload π p track s = (.ok result, retireAll s names) := by
  by_cases hp : s.Loaded p
  · obtain ⟨names, -, hrun⟩ := packageUnload_eq (π := π) hs (hpar hp) hp
      (fun q hq ↦ (habove hp q hq).removable htame) track
    exact ⟨names, _, hrun⟩
  · refine ⟨[], (false, track), ?_⟩
    simp [packageUnload, unloadFuel, State.not_loaded_iff.mp hp, retireAll]

theorem readStartupList_isSome {lines : List Str}
    (h : ∀ values ∈ lines, (splitRecord values).isSome) : (readStartupList lines).isSome := by
  induction lines with
  | nil => rfl
  | cons values rest ih =>
    obtain ⟨kv, hkv⟩ := Option.isSome_iff_exists.mp (h values (by simp))
    obtain ⟨kvs, hkvs⟩ := Option.isSome_iff_exists.mp (ih fun w hw ↦ h w (by simp [hw]))
    simp [readStartupList, hkv, hkvs]

end Perform

section Strings

def Namespace.Strings (n : Namespace) : Prop :=
  ∃ names, dependencyList n.dependencies = .ok names ∧ ∀ l, names = some l → ∀ d ∈ l, nul ∉ d

/-- Every file can be read, and files and modules list strings without NUL only. -/
structure State.Strings (π : Platform F) (s : State F) : Prop where
  readable : ∀ path f, s.fs.file path = some f → f.readable = true
  files : ∀ path f, s.fs.file path = some f → ∀ ext, (π.assigns ext f.content).Strings
  modules : ∀ m, (s.module m).Strings

theorem strings_empty : Namespace.empty.Strings := ⟨some [], rfl, by simp⟩

theorem Namespace.Strings.initialise {old assigned : Namespace} (hold : old.Strings)
    (hnew : assigned.Strings) : (old.initialise assigned).Strings := by
  rcases ha : assigned.dependencies with _ | v
  · simpa [Namespace.Strings, Namespace.initialise, ha] using hold
  · simpa [Namespace.Strings, Namespace.initialise, ha] using hnew

theorem LoadStep.strings {stack : List Str} {s t : State F} (h : LoadStep π stack s t)
    (hs : s.Strings π) : t.Strings π := by
  cases h with
  | tick | linked | raised | loaded => exact ⟨hs.readable, hs.files, hs.modules⟩
  | @imported _ _ _ _ hf =>
    refine ⟨hs.readable, hs.files, fun m ↦ ?_⟩
    simp only [State.module, Dict.lookup_insert_eq]
    split
    · exact (hs.modules _).initialise (hs.files _ _ hf _)
    · exact hs.modules m
  | dropped =>
    refine ⟨hs.readable, hs.files, fun m ↦ ?_⟩
    simp only [State.module, Dict.lookup_erase_eq]
    split
    · exact strings_empty
    · exact hs.modules m
  | @listed name sha1 =>
    obtain ⟨list, hlist⟩ := writePackageIntoAutoload_frame name sha1 s
    rw [hlist]
    exact ⟨hs.readable, hs.files, hs.modules⟩

theorem LoadSteps.strings {stack : List Str} {s t : State F} (h : LoadSteps π stack s t)
    (hs : s.Strings π) : t.Strings π := by
  induction h with
  | refl => exact hs
  | tail _ hstep ih => exact hstep.strings ih

theorem State.Strings.source {s : State F} (hs : s.Strings π) {calls : List Str → Call → Prop}
    {m : Str} {n : Namespace} (h : Source π s calls m n) : n.Strings := by
  rcases h with rfl | ⟨stack, call, ext, f, -, -, -, hf, rfl⟩
  · exact hs.modules m
  · exact hs.files _ f hf ext

theorem State.Strings.checksumList {s : State F} (hs : s.Strings π) {name : Str}
    (hname : nul ∉ name) (exts : List Ext) (e : PyErr) :
    checksumList π s.fs name exts ≠ .error e := by
  induction exts with
  | nil => simp [PackageManager.checksumList]
  | cons ext rest ih =>
    obtain ⟨sha1, hsum⟩ : ∃ sha1, sha1sum π s.fs (candidate π name ext) = .ok sha1 := by
      rw [sha1sum, if_neg (fun hnul ↦ not_nul_pathFile hname ((nul_mem_candidate _).mp hnul))]
      split
      · exact ⟨_, rfl⟩
      · next f hf => exact ⟨_, if_pos (hs.readable _ f hf)⟩
    rcases hrest : PackageManager.checksumList π s.fs name rest with e' | sums
    · intro h
      simp only [PackageManager.checksumList, hsum, hrest] at h
      exact ih (hrest.trans h)
    · simp [PackageManager.checksumList, hsum, hrest]

theorem State.Strings.read {s : State F} (hs : s.Strings π) {calls : List Str → Call → Prop}
    {path m : Str} {f : File F} (ext : Ext) {left : Option DependencyValue}
    (hf : s.fs.file path = some f)
    (hleft : left = none ∨ ∃ n, Source π s calls m n ∧ n.dependencies = left) :
    Namespace.Strings ⟨(π.assigns ext f.content).dependencies <|> left, none⟩ := by
  have hold : Namespace.Strings ⟨left, none⟩ := by
    rcases hleft with rfl | ⟨n, hn, rfl⟩
    · exact strings_empty
    · exact (hs.source hn : n.Strings)
  exact hold.initialise (hs.files _ f hf ext)

theorem calm_of_strings {s : State F} (hs : s.Strings π) {call : Call} (hcall : nul ∉ call.name) :
    Calm π s call := by
  intro u hu other hother ⟨_, h⟩
  have hstrings := LoadSteps.strings hu hs
  have hname : nul ∉ other.name := by
    refine hother (fun other ↦ nul ∉ other.name) ⟨hcall, fun other l d hname hl hd _ _ ↦ ?_⟩
    obtain ⟨-, -, ext, f, -, hf, left, hleft, hdeps⟩ := hl
    obtain ⟨names, hnames, hall⟩ := hstrings.read ext hf hleft
    obtain rfl := Except.ok.inj (hdeps.symm.trans hnames)
    exact hall l rfl d hd
  rcases h with ⟨e, he⟩ | ⟨-, ext, f, -, hf, left, hleft, e, he⟩
  · exact hstrings.checksumList hname extensions e he
  · obtain ⟨names, hnames, -⟩ := hstrings.read ext hf hleft
    cases he.symm.trans hnames

theorem strings_scriptFiles {packages : List (Str × Script)}
    (h : ∀ p ∈ packages, p.2.defines.Strings) (startupList : Option Str) :
    (State.initial scriptPlatform (scriptFiles packages) startupList).Strings scriptPlatform where
  readable path f hf := by
    induction packages with
    | nil => simp [State.initial, FileSystem.file, scriptFiles] at hf
    | cons p rest ih =>
      simp only [State.initial, FileSystem.file, scriptFiles, List.foldr_cons,
        Dict.lookup_insert_eq] at hf
      split at hf
      · rw [← Option.some.inj hf]
      · exact ih (fun q hq ↦ h q (by simp [hq])) hf
  files path f hf ext := by
    obtain ⟨p, hp, heq⟩ := mem_scriptFiles hf
    exact heq ▸ h p hp
  modules m := strings_empty

theorem tame_scriptFiles {packages : List (Str × Script)}
    (h : ∀ p ∈ packages, p.2.defines.Tame) :
    (scriptFiles packages).All (tame scriptPlatform).file := by
  intro path f hf ext tick
  obtain ⟨p, hp, heq⟩ := mem_scriptFiles hf
  exact ⟨fun e he ↦ he.elim (by simp [scriptPlatform]) (by simp [scriptPlatform]),
    fun _ ↦ heq ▸ h p hp⟩

end Strings

theorem tame_pairScripts : (scriptFiles pairScripts).All (tame scriptPlatform).file := by
  refine tame_scriptFiles fun p hp klass tick obj hk hobj ↦ ?_
  have hobj' : obj = ⟨true, .ret, none, .ret⟩ := by
    simp only [pairScripts, List.mem_cons, List.not_mem_nil, or_false] at hp
    rcases hp with rfl | rfl <;> obtain rfl := Option.some.inj hk <;>
      exact (Except.ok.inj hobj).symm
  subst hobj'
  exact ⟨by simp [ResourceRegistry.exec], by simp⟩

theorem strings_pairScripts : ∀ p ∈ pairScripts, p.2.defines.Strings := by
  intro p hp
  simp only [pairScripts, List.mem_cons, List.not_mem_nil, or_false] at hp
  rcases hp with rfl | rfl <;> exact ⟨_, rfl, by decide⟩

end Liota.PackageManager
