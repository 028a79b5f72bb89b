import Liota.PackageManager.Pulling

namespace Liota.PackageManager

open Python Python.Computation Python.Text Relation

variable {F : Type} {π : Platform F}

def Event.OfCall (call : Call) (e : Event) : Prop :=
  e = .executed call.name call.checksum ∨ e = .loaded call.name call.checksum

/-- Whatever was logged since `s` belongs to a call that may be made and whose checksum, if it
has one, was compared. -/
def Logs (π : Platform F) (fs : FileSystem F) (calls : List Str → Call → Prop) (s t : State F) :
    Prop :=
  ∃ events, t.trace = s.trace ++ events ∧ ∀ e ∈ events, ∃ stack call, calls stack call ∧
    e.OfCall call ∧ ∀ c, call.checksum = some c → Matches π fs call.name c

section Events

variable {s₀ : State F} {calls : List Str → Call → Prop} {built : Str → Prop} {stack : List Str}
  {s t u : State F} {fs : FileSystem F}

theorem Logs.of_eq (h : t.trace = s.trace) : Logs π fs calls s t :=
  ⟨[], by simp [h], by simp⟩

theorem Logs.single {call : Call} {e : Event} (hcall : calls stack call) (he : e.OfCall call)
    (hgiven : ∀ c, call.checksum = some c → Matches π fs call.name c)
    (h : t.trace = s.trace ++ [e]) : Logs π fs calls s t := by
  refine ⟨[e], h, fun e' he' ↦ ⟨stack, call, hcall, ?_, hgiven⟩⟩
  rwa [List.mem_singleton.mp he']

theorem Logs.trans (h : Logs π fs calls s t) (h' : Logs π fs calls t u) :
    Logs π fs calls s u := by
  obtain ⟨events, ht, hall⟩ := h
  obtain ⟨events', hu, hall'⟩ := h'
  refine ⟨events ++ events', by rw [hu, ht, List.append_assoc], fun e he ↦ ?_⟩
  rcases List.mem_append.mp he with he | he
  · exact hall e he
  · exact hall' e he

theorem LoadInv.openStep_logs {call : Call} {o : Outcome (Option (Opened F))}
    (hs : LoadInv π s₀ calls built stack s) (hcall : calls stack call)
    (ho : openPackage π call.name call.checksum call.ext s = (o, t)) :
    Logs π s₀.fs calls s t := by
  have hstep := openPackage_step (π := π) call.name call.checksum call.ext s
  rw [ho] at hstep
  rcases hstep.trace with h | ⟨h, hgiven⟩
  · exact .of_eq h
  · exact .single hcall (.inl rfl) (hs.steps.fs ▸ hgiven) h

theorem startPackage_logs {call : Call} (hcall : calls stack call)
    (hgiven : ∀ c, call.checksum = some c → Matches π fs call.name c) (opened : Opened F) :
    Logs π fs calls u (startPackage call.name call.checksum call.autoload opened u).2 := by
  rcases startPackage_cases call.name call.checksum call.autoload opened u with
    hfail | ⟨klass, obj, registry, -, -, -, heq⟩
  · obtain ⟨tick, registry, hframe⟩ := hfail.frame
    exact .of_eq (by rw [hframe])
  · obtain ⟨list, hsnd⟩ := recordPackage_snd call.name call.checksum call.autoload
      (opened.record obj) (ran u registry)
    exact .single hcall (.inr rfl) hgiven (by rw [heq, hsnd]; rfl)

theorem logs_loadRule (hrun : RunOf π s₀ calls built) :
    LoadRule π
      (fun stack call s o t ↦ CertainCall π s₀ calls built stack call s o t ∧
        (calls stack call → LoadInv π s₀ calls built stack s → Logs π s₀.fs calls s t))
      (fun stack name deps s o t ↦ CertainLoop π s₀ calls built stack name deps s o t ∧
        ((∀ d ∈ deps, ¬ s₀.Loaded d → d ∉ stack → calls stack (.ofDependency d)) →
          LoadInv π s₀ calls built stack s → Logs π s₀.fs calls s t)) where
  outOfFuel stack call s := ⟨(certain_loadRule hrun).outOfFuel stack call s, fun _ _ ↦ .of_eq rfl⟩
  closed hstack ho := ⟨(certain_loadRule hrun).closed hstack ho,
    fun hcall hs ↦ hs.openStep_logs hcall ho⟩
  refused hstack ho := ⟨(certain_loadRule hrun).refused hstack ho,
    fun hcall hs ↦ hs.openStep_logs hcall ho⟩
  stopped hstack ho hQ hne hsteps := by
    refine ⟨(certain_loadRule hrun).stopped hstack ho hQ.1 hne hsteps, fun hcall hs ↦ ?_⟩
    exact (hs.openStep_logs hcall ho).trans
      (hQ.2 (hrun.pulls hcall hs (openPackage_opens ho)) (hs.push hcall hstack ho))
  started {stack call s t u opened} hstack ho hQ hsteps hlinked := by
    refine ⟨(certain_loadRule hrun).started hstack ho hQ.1 hsteps hlinked, fun hcall hs ↦ ?_⟩
    have hopens := openPackage_opens ho
    have hloop := hQ.2 (hrun.pulls hcall hs hopens) (hs.push hcall hstack ho)
    refine (hs.openStep_logs hcall ho).trans (hloop.trans (startPackage_logs hcall ?_ opened))
    intro c hc
    exact hs.steps.fs ▸ (hopens.given c hc).2
  done stack name s := ⟨(certain_loadRule hrun).done stack name s, fun _ _ ↦ .of_eq rfl⟩
  cycle rest s hd := ⟨(certain_loadRule hrun).cycle rest s hd, fun _ _ ↦ .of_eq rfl⟩
  present {stack name d rest s t o} hd hl hn hQ := by
    refine ⟨(certain_loadRule hrun).present (o := o) hd hl hn hQ.1, fun hcalls hs ↦ ?_⟩
    have hlinked : Logs π s₀.fs calls s (s.addDependent d name) := .of_eq rfl
    exact hlinked.trans (hQ.2 (fun x hx ↦ hcalls x (by simp [hx])) (hs.addDependent hl hn))
  pulled {stack name d rest s t u o r} hd hl hn hP hsteps hld hQ := by
    refine ⟨(certain_loadRule hrun).pulled (o := o) hd hl hn hP.1 hsteps hld hQ.1,
      fun hcalls hs ↦ ?_⟩
    have hcall := hcalls d (by simp) (hs.not_loaded hl) hd
    obtain ⟨ht, -⟩ := hP.1.2 hcall hs
    have hlinked : Logs π s₀.fs calls t (t.addDependent d name) := .of_eq rfl
    exact (hP.2 hcall hs).trans (hlinked.trans
      (hQ.2 (fun x hx ↦ hcalls x (by simp [hx])) (ht.addDependent hld hn)))
  missing {stack name d rest s t o} hd hl hP hsteps hmiss := by
    refine ⟨(certain_loadRule hrun).missing hd hl hP.1 hsteps hmiss, fun hcalls hs ↦ ?_⟩
    exact hP.2 (hcalls d (by simp) (hs.not_loaded hl) hd) hs

end Events

/-- Where a package was executed or loaded, its checksum was compared with one that is
accepted. -/
def Event.Compared (π : Platform F) (fs : FileSystem F) (p : Str) (accepted : Str → Prop)
    (e : Event) : Prop :=
  ∀ checksum, e = .executed p checksum ∨ e = .loaded p checksum →
    ∃ c, checksum = some c ∧ accepted c ∧ Matches π fs p c

/-- All that was logged since `s` is compared. -/
def LogsCompared (π : Platform F) (fs : FileSystem F) (p : Str) (accepted : Str → Prop)
    (s t : State F) : Prop :=
  ∃ events, t.trace = s.trace ++ events ∧ ∀ e ∈ events, e.Compared π fs p accepted

theorem LogsCompared.refl (fs : FileSystem F) (p : Str) (accepted : Str → Prop) (s : State F) :
    LogsCompared π fs p accepted s s := ⟨[], by simp, by simp⟩

theorem LogsCompared.trans {fs : FileSystem F} {p : Str} {accepted : Str → Prop}
    {s t u : State F} (h : LogsCompared π fs p accepted s t)
    (h' : LogsCompared π fs p accepted t u) : LogsCompared π fs p accepted s u := by
  obtain ⟨events, ht, hall⟩ := h
  obtain ⟨events', hu, hall'⟩ := h'
  refine ⟨events ++ events', by rw [hu, ht, List.append_assoc], fun e he ↦ ?_⟩
  rcases List.mem_append.mp he with he | he
  · exact hall e he
  · exact hall' e he

theorem logsCompared_of_cleanedUp {fs : FileSystem F} {p : Str} {accepted : Str → Prop}
    {s t : State F} {names : List Str} (h : t.trace = s.trace ++ names.map .cleanedUp) :
    LogsCompared π fs p accepted s t := by
  refine ⟨_, h, fun e he checksum hlog ↦ ?_⟩
  obtain ⟨n, -, rfl⟩ := List.mem_map.mp he
  rcases hlog with hlog | hlog <;> cases hlog

/-- Of the calls, made in order, those for `p` are given accepted checksums, and the others do
not pull it in. -/
structure Guarded (π : Platform F) (s₁ : State F) (p : Str) (accepted : Str → Prop)
    (calls : List Call) : Prop where
  given : ∀ call ∈ calls, call.name = p →
    ∃ c, call.checksum = some c ∧ (Matches π s₁.fs p c → accepted c)
  others : Unpulled π s₁ p calls

section Sequence

variable {s₁ : State F} {p : Str} {accepted : Str → Prop} {calls : List Call}

theorem Guarded.mono {pre : List Call} (h : Guarded π s₁ p accepted calls)
    (hpre : pre <+: calls) : Guarded π s₁ p accepted pre :=
  ⟨fun call hc ↦ h.given call (hpre.subset hc), h.others.mono hpre⟩

theorem makeCall_compared {call : Call} {u : State F} (hu : LoadSteps π [] s₁ u)
    (hn : ¬ u.Loaded call.name)
    (hown : call.name = p → ∃ c, call.checksum = some c ∧ (Matches π s₁.fs p c → accepted c))
    (hother : call.name ≠ p → u.Loaded p ∨ NeverPulls π s₁ call p) :
    LogsCompared π s₁.fs p accepted u (makeCall π call u).2 := by
  obtain ⟨events, htrace, hall⟩ := ((logs_loadRule (runOf_top π u call)).packageLoad
    call.name call.checksum call.autoload call.ext u).2 callsOf_root loadInv_initial
  refine ⟨events, htrace, fun e he checksum hlog ↦ ?_⟩
  obtain ⟨stack, other, hcall, hof, hgiven⟩ := hall e he
  obtain ⟨rfl, rfl⟩ : other.name = p ∧ other.checksum = checksum := by
    rcases hof with rfl | rfl <;> simpa using hlog
  rcases hcall.1.cases with rfl | ⟨d, rfl, hne, hnd⟩
  · obtain ⟨c, hc, hacc⟩ := hown rfl
    have hmatch := hgiven c hc
    rw [hu.fs] at hmatch
    exact ⟨c, hc, hacc hmatch, hmatch⟩
  · rcases hother (Ne.symm hne) with hl | hnever
    · exact absurd hl hnd
    · exact absurd hcall.1 (hnever u hu hn hnd)

theorem Tries.compared {t : State F} (h : Tries π calls s₁ t)
    (hg : Guarded π s₁ p accepted calls) : LogsCompared π s₁.fs p accepted s₁ t := by
  have hothers : Unpulled π s₁ p ([] ++ calls) := hg.others
  refine h.unpulled (LogsCompared.refl s₁.fs p accepted) (fun _ _ _ h h' ↦ h.trans h') hothers
    .refl (by simp) ?_ ?_
  · exact fun call hcall u hu hn hname ↦
      makeCall_compared hu hn (fun _ ↦ hg.given call hcall hname) (absurd hname)
  · exact fun call hcall u hu hn hname hor ↦
      makeCall_compared hu hn (fun h ↦ absurd h hname) fun _ ↦ hor

end Sequence

/-- The checksums that a request which names `p` with `c` accepts: `c`, or the one recorded
before. -/
def Accepted (s : State F) (p c sha1 : Str) : Prop :=
  sha1 = c ∨ ∃ r, s.record p = some r ∧ sha1 = r.sha1

/-- Whenever the request executes or loads a package that it names, it has compared a checksum
that it accepts and that one of the candidate files has. -/
def Request.Verified (π : Platform F) (s : State F) (request : Request) : Prop :=
  ∀ p c, (p, c) ∈ request.named →
    LogsCompared π s.fs p (Accepted s p c) s (perform π request s).2

def Request.Guarded (π : Platform F) (s : State F) (request : Request) : Prop :=
  ∀ s₁ calls, Loads s request s₁ calls → ∀ p c, (p, c) ∈ request.named →
    PackageManager.Guarded π s₁ p (Accepted s p c) calls

theorem Loads.start {s s₁ : State F} {request : Request} {calls : List Call}
    (h : Loads s request s₁ calls) :
    s₁.fs = s.fs ∧ ∃ names : List Str, s₁.trace = s.trace ++ names.map .cleanedUp := by
  cases h with
  | load | loadList | updateNew => exact ⟨rfl, [], by simp⟩
  | @reload _ _ _ names | @update _ _ _ names | @updateList _ _ names =>
    obtain ⟨htrace, hfs, -, -⟩ := frame_retireAll s names
    exact ⟨hfs, names, htrace⟩

/-- A request whose calls are guarded verifies every package that it names. -/
theorem named_packages_verified {files : FileSystem F → Prop}
    {condition : State F → Request → Prop} {t : Thread F} (ht : Reachable π files condition t)
    {request : Request} (hg : request.Guarded π t.state) : request.Verified π t.state := by
  intro p c hpc
  rcases perform_tried (π := π) ht.consistent request (List.ne_nil_of_mem hpc) with
    ⟨names, hnames⟩ | ⟨s₁, calls, pre, u, hloads, hpre, htries, htrace⟩
  · exact logsCompared_of_cleanedUp hnames
  · obtain ⟨hfs, names, hnames⟩ := hloads.start
    have hguard := (hg s₁ calls hloads p c hpc).mono hpre
    obtain ⟨events, hevents, hall⟩ := htries.compared hguard
    rw [hfs] at hall
    exact (logsCompared_of_cleanedUp hnames).trans ⟨events, htrace.trans hevents, hall⟩

theorem dependency_not_verified :
    ¬ ∀ t, Reachable scriptPlatform (fun _ ↦ True) (fun _ _ ↦ True) t →
      ∀ request : Request, request.Verified scriptPlatform t.state := by
  intro h
  obtain ⟨events, htrace, hall⟩ := h (scriptThread pairScripts none [])
    (reachable_scriptThread trivial none []) (parseMessage (words "load p 2 d 3"))
    "d".toList "3".toList (by decide)
  have hlog : (perform scriptPlatform (parseMessage (words "load p 2 d 3"))
      (scriptThread pairScripts none []).state).2.trace =
      [.executed "p".toList (some "2".toList), .executed "d".toList none,
        .loaded "d".toList none, .loaded "p".toList (some "2".toList)] := by decide +kernel
  have hnone : (scriptThread pairScripts none []).state.trace = [] := by decide +kernel
  rw [hlog, hnone, List.nil_append] at htrace
  obtain ⟨c, hc, -⟩ := hall (.executed "d".toList none) (by simp [← htrace]) none (.inl rfl)
  cases hc

section Witness

/-- The call that the request `load d 1 p 2` makes first. -/
def firstCall : Call := listCall false ("d".toList, "1".toList)

variable {u : State Script} (hu : LoadSteps scriptPlatform [] pairState u)
include hu

theorem mayCall_first {call : Call} (h : MayCall scriptPlatform u firstCall call) :
    call = firstCall := by
  refine h (fun call ↦ call = firstCall) ⟨rfl, fun other l x hother hl hx _ _ ↦ ?_⟩
  subst hother
  obtain ⟨-, -, ext, f, hext, hf, left, -, hlist⟩ := hl
  rw [hu.fs] at hext hf
  have hpy : fileExt scriptPlatform pairState.fs firstCall.name firstCall.ext = some .py := by
    decide
  obtain rfl := Option.some.inj (hpy.symm.trans hext)
  have hfile : (pairState.fs.file (candidate scriptPlatform firstCall.name .py)).map
      (fun f ↦ (scriptPlatform.assigns .py f.content).dependencies) = some (some (.list [])) := by
    decide
  rw [hf, Option.map_some, Option.some.injEq] at hfile
  rw [hfile] at hlist
  obtain rfl : [] = l := Option.some.inj (Except.ok.inj hlist)
  simp at hx

theorem sure_first : Sure scriptPlatform u (callsOf scriptPlatform u firstCall) firstCall := by
  have hfs := hu.fs
  have hquiet : (defines scriptPlatform u.fs firstCall.name firstCall.ext).Quiet := by
    rw [hfs]
    rcases defines_scriptFiles pairScripts firstCall.name firstCall.ext with hd | ⟨q, hq, hd⟩
    · exact hd ▸ quiet_empty
    · simp only [pairScripts, List.mem_cons, List.not_mem_nil, or_false] at hq
      rcases hq with rfl | rfl <;> exact hd ▸ quiet_standard _ _ _
  have hdeps : (defines scriptPlatform u.fs firstCall.name firstCall.ext).dependencies =
      some (.list []) := by
    rw [hfs]
    decide
  have hclass : (defines scriptPlatform u.fs firstCall.name firstCall.ext).packageClass.isSome := by
    rw [hfs]
    decide
  refine ⟨loadable_of_quiet (by decide) (by rw [hfs]; decide)
    (by rw [hfs]; decide) hclass hquiet, ⟨⟨?_, ?_⟩, ?_⟩, ?_, ?_⟩
  · simp [hdeps]
  · intro hnone
    simp [hnone] at hclass
  · exact fun _ _ hcall _ ↦ mayCall_first hu hcall.1
  · intro c hc
    obtain rfl : "1".toList = c := Option.some.inj hc
    rw [hfs]
    have hsum : (pairState.fs.file (candidate scriptPlatform firstCall.name .py)).map
        (fun f ↦ scriptPlatform.sha1 f.content) = some "1".toList := by decide
    obtain ⟨f, hf, hsha⟩ := Option.map_eq_some_iff.mp hsum
    exact ⟨.py, f, hf, hsha⟩
  · intro d hd
    simp [declared, Namespace.names, hdeps, DependencyValue.names] at hd

omit hu

theorem guarded_pair :
    Request.Guarded scriptPlatform pairState
      (.loadList [("d".toList, "1".toList), ("p".toList, "2".toList)] false) := by
  intro s₁ calls hloads p c hpc
  cases hloads
  have hcases : (p = "d".toList ∧ c = "1".toList) ∨ (p = "p".toList ∧ c = "2".toList) := by
    simpa [Request.named] using hpc
  have hsplit (pre : List Call) (call : Call) (post : List Call)
      (h : [firstCall, listCall false ("p".toList, "2".toList)] = pre ++ call :: post) :
      (pre = [] ∧ call = firstCall) ∨ pre = [firstCall] := by
    rcases pre with _ | ⟨x, _ | ⟨y, pre⟩⟩
    · exact .inl ⟨rfl, (List.cons.inj h).1.symm⟩
    · exact .inr (by rw [(List.cons.inj h).1])
    · simp at h
  refine ⟨fun call hcall hname ↦ ?_, fun pre call post h hne ↦ ?_⟩
  · simp only [List.map_cons, List.map_nil, List.mem_cons, List.not_mem_nil, or_false] at hcall
    rcases hcall with rfl | rfl <;> rcases hcases with ⟨rfl, rfl⟩ | ⟨rfl, rfl⟩
    · exact ⟨_, rfl, fun _ ↦ .inl rfl⟩
    · exact absurd hname (by decide)
    · exact absurd hname (by decide)
    · exact ⟨_, rfl, fun _ ↦ .inl rfl⟩
  · rcases hcases with ⟨rfl, rfl⟩ | ⟨rfl, rfl⟩
    · rcases hsplit pre call post h with ⟨rfl, rfl⟩ | rfl
      · exact absurd rfl hne
      · exact .inl ⟨firstCall, by simp, rfl, fun u hu _ ↦ sure_first hu⟩
    · rcases hsplit pre call post h with ⟨rfl, rfl⟩ | rfl
      · refine .inr fun u hu _ _ hpull ↦ ?_
        exact absurd (congrArg Call.name (mayCall_first hu hpull)) (by decide)
      · obtain ⟨-, htail⟩ := List.cons.inj h
        obtain ⟨rfl, -⟩ := List.cons.inj htail
        exact absurd rfl hne

theorem named_packages_verified_pair :
    Request.Verified scriptPlatform (scriptThread pairScripts none []).state
      (parseMessage (words "load d 1 p 2")) := by
  have ht : Reachable scriptPlatform (fun _ ↦ True) (fun _ _ ↦ True)
      (scriptThread pairScripts none []) := reachable_scriptThread trivial none []
  have hmsg : parseMessage (words "load d 1 p 2") =
      .loadList [("d".toList, "1".toList), ("p".toList, "2".toList)] false := by decide
  refine named_packages_verified ht ?_
  rw [hmsg, scriptThread_nil]
  exact guarded_pair

end Witness

end Liota.PackageManager
