import Mathlib.Data.List.TakeWhile
import Liota.Python.Text

namespace Liota.PackageManager

open Python.Text

/-- `PackageMessengerThread`: what it has put on `package_message_queue`, and `flag_alive`. -/
structure Messenger where
  queue : List (List Str)
  alive : Bool

def terminateText : Str := "terminate_messenger_but_you_should_not_do_this_yourself".toList

namespace Messenger

/-- The loop over the lines of one read. `line.split(',')` keeps the newline of the line. -/
def handleLines : List Str → Messenger → Messenger
  | [], m => m
  | line :: rest, m =>
    if line.splitOn ',' = [terminateText] then { m with alive := false }
    else handleLines rest { m with queue := m.queue ++ [line.splitOn ','] }

/-- `run`, given what the pipe holds each time it is opened and read to its end. -/
def run : List Str → Messenger → Messenger
  | [], m => m
  | text :: reads, m => if m.alive then run reads (handleLines (readlines text) m) else m

end Messenger

/-- The string that `liotapkg.sh` makes of its arguments. -/
def commaSeparatedArgs : List Str → Str
  | [] => []
  | first :: rest => rest.foldl (fun text arg ↦ text ++ ',' :: arg) first

/-- What the pipe holds after some invocations of `liotapkg.sh`; `echo` is what `echo -n` of the
shell writes for its operand. -/
def pipeText (echo : Str → Str) (invocations : List (List Str)) : Str :=
  invocations.flatMap fun args ↦ echo (commaSeparatedArgs args)

/-- What `_terminate_all` writes to the pipe. -/
def terminateLine : Str := terminateText ++ ['\n']

namespace Messenger

def messages (lines : List Str) : List (List Str) :=
  (lines.map (List.splitOn ',')).takeWhile (· ≠ [terminateText])

theorem queue_handleLines (lines : List Str) (m : Messenger) :
    (handleLines lines m).queue = m.queue ++ messages lines := by
  induction lines generalizing m with
  | nil => simp [handleLines, messages]
  | cons line rest ih =>
    unfold handleLines
    split
    · next h => simp [messages, h]
    · next h =>
      rw [ih]
      simp [messages, h]

theorem alive_handleLines {lines : List Str}
    (h : ∀ line ∈ lines, line.splitOn ',' ≠ [terminateText]) (m : Messenger) :
    (handleLines lines m).alive = m.alive := by
  induction lines generalizing m with
  | nil => rfl
  | cons line rest ih =>
    rw [handleLines, if_neg (h line (by simp)), ih fun l hl ↦ h l (by simp [hl])]

def received : List Str → List (List Str)
  | [] => []
  | text :: reads =>
    messages (readlines text) ++
      if ∃ line ∈ readlines text, line.splitOn ',' = [terminateText] then [] else received reads

theorem dead_handleLines {lines : List Str}
    (h : ∃ line ∈ lines, line.splitOn ',' = [terminateText]) (m : Messenger) :
    (handleLines lines m).alive = false := by
  induction lines generalizing m with
  | nil => simp at h
  | cons line rest ih =>
    unfold handleLines
    split
    · rfl
    · next hline =>
      apply ih
      obtain ⟨l, hl, heq⟩ := h
      rcases List.mem_cons.mp hl with rfl | hl
      · exact absurd heq hline
      · exact ⟨l, hl, heq⟩

theorem run_of_dead (reads : List Str) {m : Messenger} (h : m.alive = false) : run reads m = m := by
  cases reads with
  | nil => rfl
  | cons text reads => rw [run, h]; rfl

theorem queue_run (reads : List Str) {m : Messenger} (h : m.alive = true) :
    (run reads m).queue = m.queue ++ received reads := by
  induction reads generalizing m with
  | nil => simp [run, received]
  | cons text reads ih =>
    rw [run, if_pos h, received]
    split
    · next hdead =>
      rw [run_of_dead reads (dead_handleLines hdead m), queue_handleLines, List.append_nil]
    · next halive =>
      have hlines : ∀ line ∈ readlines text, line.splitOn ',' ≠ [terminateText] :=
        fun line hl heq ↦ halive ⟨line, hl, heq⟩
      rw [ih ((alive_handleLines hlines m).trans h), queue_handleLines, List.append_assoc]

end Messenger

section Framing

variable {echo : Str → Str}

theorem commaSeparatedArgs_eq (args : List Str) :
    commaSeparatedArgs args = [','].intercalate args := by
  have hfold (first : Str) (rest : List Str) :
      rest.foldl (fun text arg ↦ text ++ ',' :: arg) first =
        [','].intercalate (first :: rest) := by
    induction rest generalizing first with
    | nil => simp
    | cons arg rest ih =>
      rw [List.foldl_cons, ih]
      cases rest with
      | nil => simp
      | cons next rest => simp
  cases args with
  | nil => rfl
  | cons first rest => exact hfold first rest

def Separable (args : List Str) : Prop := ∀ arg ∈ args, ',' ∉ arg ∧ '\n' ∉ arg

theorem newline_mem_intercalate (args : List Str) :
    '\n' ∈ [','].intercalate args ↔ ∃ arg ∈ args, '\n' ∈ arg := by
  induction args with
  | nil => simp
  | cons first rest ih =>
    cases rest with
    | nil => simp
    | cons second rest =>
      rw [List.intercalate_cons_cons]
      simp only [List.mem_append, ih, List.mem_cons, exists_eq_or_imp]
      simp

theorem messages_of_line {line : Str} (h : line.splitOn ',' ≠ [terminateText]) :
    Messenger.messages [line] = [line.splitOn ','] := by
  simp [Messenger.messages, h]

theorem readlines_of_messages {text : Str}
    (h : ∀ msg ∈ Messenger.messages (readlines text), ∀ arg ∈ msg, '\n' ∉ arg) :
    Messenger.messages (readlines text) = [] ∨
      (readlines text = [text] ∧ Messenger.messages (readlines text) = [text.splitOn ',']) := by
  rcases hlines : readlines text with _ | ⟨line, rest⟩
  · exact .inl rfl
  by_cases hend : line.splitOn ',' = [terminateText]
  · left
    simp [Messenger.messages, hend]
  · have hmem : line.splitOn ',' ∈ Messenger.messages (readlines text) := by
      simp [hlines, Messenger.messages, hend]
    have hline : '\n' ∉ line := by
      intro hn
      have hjoin : [','].intercalate (line.splitOn ',') = line := List.intercalate_splitOn ','
      rw [← hjoin, newline_mem_intercalate] at hn
      obtain ⟨arg, harg, hn⟩ := hn
      exact h _ hmem arg harg hn
    have hrest : rest = [] := eq_nil_of_readlinesFrom hlines hline
    have htext : line = text := by
      have hflat := flatten_readlinesFrom [] text
      change (readlines text).flatten = _ at hflat
      rw [hlines, hrest] at hflat
      simpa using hflat
    right
    rw [hrest, htext]
    exact ⟨rfl, messages_of_line (htext ▸ hend)⟩

theorem splitOn_terminateText : terminateText.splitOn ',' = [terminateText] := by decide

theorem messages_eq_singleton {text : Str} {args : List Str} (hargs : Separable args) :
    Messenger.messages (readlines text) = [args] ↔
      text = commaSeparatedArgs args ∧ text ≠ [] ∧ text ≠ terminateText := by
  rw [commaSeparatedArgs_eq]
  constructor
  · intro h
    have hnew : ∀ msg ∈ Messenger.messages (readlines text), ∀ arg ∈ msg, '\n' ∉ arg := by
      intro msg hmsg arg harg
      rw [h, List.mem_singleton] at hmsg
      exact (hargs arg (hmsg ▸ harg)).2
    rcases readlines_of_messages hnew with hnil | ⟨hlines, hone⟩
    · rw [hnil] at h
      cases h
    · have hsplit : text.splitOn ',' = args := List.singleton_inj.mp (hone.symm.trans h)
      refine ⟨?_, ?_, ?_⟩
      · rw [← hsplit]
        exact (List.intercalate_splitOn ',').symm
      · rintro rfl
        cases hlines
      · rintro rfl
        rw [hlines] at hone
        simp [Messenger.messages, splitOn_terminateText] at hone
  · rintro ⟨htext, hne, hend⟩
    have hnonempty : args ≠ [] := by
      rintro rfl
      exact hne htext
    have hsplit : text.splitOn ',' = args := by
      rw [htext]
      exact List.splitOn_intercalate ',' (fun arg ha ↦ (hargs arg ha).1) hnonempty
    have hnew : '\n' ∉ text := by
      rw [htext, newline_mem_intercalate]
      rintro ⟨arg, harg, hn⟩
      exact (hargs arg harg).2 hn
    rw [readlines_noNewline hnew hne, messages_of_line, hsplit]
    intro hterm
    apply hend
    have hjoin : [','].intercalate (text.splitOn ',') = text := List.intercalate_splitOn ','
    rw [← hjoin, hterm]
    simp

theorem readlines_ne_terminate {text : Str}
    (h : ∀ msg ∈ Messenger.messages (readlines text), ∀ arg ∈ msg, '\n' ∉ arg)
    (hne : Messenger.messages (readlines text) ≠ []) :
    ¬ ∃ line ∈ readlines text, line.splitOn ',' = [terminateText] := by
  rcases readlines_of_messages h with hnil | ⟨hlines, hone⟩
  · exact absurd hnil hne
  · rintro ⟨line, hline, hterm⟩
    rw [hlines, List.mem_singleton] at hline
    subst hline
    rw [hlines] at hone
    simp [Messenger.messages, hterm] at hone

theorem length_messages_le (group : List (List Str))
    (h : ∀ msg ∈ Messenger.messages (readlines (pipeText echo group)), ∀ arg ∈ msg, '\n' ∉ arg) :
    (Messenger.messages (readlines (pipeText echo group))).length ≤ group.length := by
  rcases readlines_of_messages h with hnil | ⟨hlines, hone⟩
  · rw [hnil]
    exact Nat.zero_le _
  · rw [hone, List.length_singleton]
    apply List.length_pos_of_ne_nil
    rintro rfl
    cases hlines

theorem length_received_le (groups : List (List (List Str)))
    (h : ∀ msg ∈ Messenger.received (groups.map (pipeText echo)), ∀ arg ∈ msg, '\n' ∉ arg) :
    (Messenger.received (groups.map (pipeText echo))).length ≤ groups.flatten.length := by
  induction groups with
  | nil => simp [Messenger.received]
  | cons group groups ih =>
    rw [List.map_cons, Messenger.received] at h ⊢
    have hgroup := length_messages_le group fun msg hmsg ↦ h msg (List.mem_append_left _ hmsg)
    rw [List.length_append, List.flatten_cons, List.length_append]
    split at h
    · next hdead =>
      rw [if_pos hdead, List.length_nil]
      omega
    · next halive =>
      have hgroups := ih fun msg hmsg ↦ h msg (List.mem_append_right _ hmsg)
      rw [if_neg halive]
      omega

/-- A batch of invocations that is read as it was written: none, or a single one whose text
`echo` leaves alone and that is neither empty nor the word that ends the messenger. -/
def Readable (echo : Str → Str) (group : List (List Str)) : Prop :=
  group = [] ∨ ∃ args, group = [args] ∧
    echo (commaSeparatedArgs args) = commaSeparatedArgs args ∧
    commaSeparatedArgs args ≠ [] ∧ commaSeparatedArgs args ≠ terminateText

theorem pipeText_singleton (args : List Str) :
    pipeText echo [args] = echo (commaSeparatedArgs args) := by
  simp [pipeText]

theorem Readable.of_messages {group : List (List Str)}
    (hargs : ∀ args ∈ group, Separable args)
    (h : Messenger.messages (readlines (pipeText echo group)) = group) : Readable echo group := by
  have hnew : ∀ msg ∈ Messenger.messages (readlines (pipeText echo group)),
      ∀ arg ∈ msg, '\n' ∉ arg := by
    intro msg hmsg arg harg
    rw [h] at hmsg
    exact (hargs msg hmsg arg harg).2
  rcases readlines_of_messages hnew with hnil | ⟨-, hone⟩
  · exact .inl (h.symm.trans hnil)
  · obtain ⟨args, rfl⟩ : ∃ args, group = [args] := ⟨_, h.symm.trans hone⟩
    obtain ⟨htext, hne, hend⟩ := (messages_eq_singleton (hargs args (by simp))).mp h
    rw [pipeText_singleton] at htext
    rw [pipeText_singleton, htext] at hne hend
    exact .inr ⟨args, rfl, htext, hne, hend⟩

theorem Readable.messages_eq {group : List (List Str)} (h : Readable echo group)
    (hargs : ∀ args ∈ group, Separable args) :
    Messenger.messages (readlines (pipeText echo group)) = group ∧
      ¬ ∃ line ∈ readlines (pipeText echo group), line.splitOn ',' = [terminateText] := by
  rcases h with rfl | ⟨args, rfl, htext, hne, hend⟩
  · simp [pipeText, readlines, readlinesFrom, Messenger.messages]
  · have hmessages : Messenger.messages (readlines (pipeText echo [args])) = [args] := by
      rw [messages_eq_singleton (hargs args (by simp)), pipeText_singleton, htext]
      exact ⟨rfl, hne, hend⟩
    refine ⟨hmessages, readlines_ne_terminate ?_ ?_⟩
    · intro msg hmsg arg harg
      rw [hmessages, List.mem_singleton] at hmsg
      exact (hargs args (by simp) arg (hmsg ▸ harg)).2
    · rw [hmessages]
      exact List.cons_ne_nil _ _

theorem received_eq_flatten_iff {groups : List (List (List Str))}
    (hargs : ∀ group ∈ groups, ∀ args ∈ group, Separable args) :
    Messenger.received (groups.map (pipeText echo)) = groups.flatten ↔
      ∀ group ∈ groups, Readable echo group := by
  induction groups with
  | nil => simp [Messenger.received]
  | cons group groups ih =>
    have hgroup := hargs group (by simp)
    specialize ih fun g hg ↦ hargs g (by simp [hg])
    rw [List.map_cons, Messenger.received, List.flatten_cons, List.forall_mem_cons]
    constructor
    · intro h
      have hnew : ∀ msg ∈ Messenger.received ((group :: groups).map (pipeText echo)),
          ∀ arg ∈ msg, '\n' ∉ arg := by
        intro msg hmsg arg harg
        rw [List.map_cons, Messenger.received, h, ← List.flatten_cons, List.mem_flatten] at hmsg
        obtain ⟨g, hg, hmsg⟩ := hmsg
        exact (hargs g hg msg hmsg arg harg).2
      rw [List.map_cons, Messenger.received] at hnew
      have hle := length_messages_le group fun msg hmsg ↦ hnew msg (List.mem_append_left _ hmsg)
      have hlength := congrArg List.length h
      rw [List.length_append, List.length_append] at hlength
      split at h
      · next hdead =>
        rw [if_pos hdead, List.length_nil] at hlength
        obtain ⟨hhead, hrest⟩ := List.append_inj h (by omega)
        refine ⟨Readable.of_messages hgroup hhead, fun g hg ↦ .inl ?_⟩
        exact List.flatten_eq_nil_iff.mp hrest.symm g hg
      · next halive =>
        rw [if_neg halive] at hlength hnew
        have hrestle := length_received_le groups fun msg hmsg ↦
          hnew msg (List.mem_append_right _ hmsg)
        obtain ⟨hhead, hrest⟩ := List.append_inj h (by omega)
        exact ⟨Readable.of_messages hgroup hhead, ih.mp hrest⟩
    · rintro ⟨hread, hrest⟩
      obtain ⟨hmessages, halive⟩ := hread.messages_eq hgroup
      rw [hmessages, if_neg halive, ih.mpr hrest]

end Framing

/-- The queue receives exactly the invocations, in order, just in case every read holds the text
of at most one of them and that text can be read. -/
theorem commands_framed_iff (echo : Str → Str) (queue : List (List Str))
    (groups : List (List (List Str)))
    (hargs : ∀ group ∈ groups, ∀ args ∈ group, Separable args) :
    (Messenger.run (groups.map (pipeText echo)) ⟨queue, true⟩).queue = queue ++ groups.flatten ↔
      ∀ group ∈ groups, Readable echo group := by
  rw [Messenger.queue_run _ rfl, List.append_cancel_left_eq]
  exact received_eq_flatten_iff hargs

/-- Two commands that are read one after the other. -/
theorem commands_framed_apart :
    (Messenger.run ([[["load".toList, "p".toList]], [["unload".toList, "p".toList]]].map
      (pipeText id)) ⟨[], true⟩).queue =
        [["load".toList, "p".toList], ["unload".toList, "p".toList]] := by
  apply (commands_framed_iff id [] [[["load".toList, "p".toList]], [["unload".toList, "p".toList]]]
    ?_).mpr
  · intro group hgroup
    simp only [List.mem_cons, List.not_mem_nil, or_false] at hgroup
    rcases hgroup with rfl | rfl
    · exact .inr ⟨_, rfl, rfl, by decide, by decide⟩
    · exact .inr ⟨_, rfl, rfl, by decide, by decide⟩
  · unfold Separable
    decide

/-- Two commands in one read are taken for one. -/
theorem commands_run_together :
    (∀ args ∈ [["load".toList, "p".toList], ["unload".toList, "p".toList]], Separable args) ∧
    (Messenger.run ([[["load".toList, "p".toList], ["unload".toList, "p".toList]]].map
      (pipeText id)) ⟨[], true⟩).queue = [["load".toList, "punload".toList, "p".toList]] ∧
    (Messenger.run ([[["load".toList, "p".toList], ["unload".toList, "p".toList]]].map
      (pipeText id)) ⟨[], true⟩).queue ≠
        [] ++ [[["load".toList, "p".toList], ["unload".toList, "p".toList]]].flatten := by
  refine ⟨?_, ?_, ?_⟩
  · unfold Separable
    decide
  · decide
  · decide

section Shutdown

/-- What shutting down should come to: the waiting commands are put on the queue and nothing else
is, and the messenger leaves its loop. -/
def ShutsDown (queue : List (List Str)) (lines : List Str) (m : Messenger) : Prop :=
  m.alive = false ∧ m.queue = queue ++ lines.map (List.splitOn ',')

theorem splitOn_terminateLine : terminateLine.splitOn ',' = [terminateLine] := by decide

theorem splitOn_ne_terminateText {line : Str} (h : Complete line) :
    line.splitOn ',' ≠ [terminateText] := by
  obtain ⟨body, -, rfl⟩ := h
  intro hsplit
  have hjoin : [','].intercalate ((body ++ ['\n']).splitOn ',') = body ++ ['\n'] :=
    List.intercalate_splitOn ','
  rw [hsplit] at hjoin
  have hmem : '\n' ∈ [','].intercalate [terminateText] := by
    rw [hjoin]
    simp
  revert hmem
  decide

theorem run_complete (groups : List (List Str))
    (hlines : ∀ group ∈ groups, ∀ line ∈ group, Complete line) (queue : List (List Str)) :
    Messenger.run (groups.map List.flatten) ⟨queue, true⟩ =
      ⟨queue ++ groups.flatten.map (List.splitOn ','), true⟩ := by
  induction groups generalizing queue with
  | nil => simp [Messenger.run]
  | cons group groups ih =>
    have hgroup := hlines group (by simp)
    have hne : ∀ line ∈ group, line.splitOn ',' ≠ [terminateText] :=
      fun line hline ↦ splitOn_ne_terminateText (hgroup line hline)
    have hmessages : Messenger.messages group = group.map (List.splitOn ',') := by
      rw [Messenger.messages, List.takeWhile_eq_self_iff]
      simpa using hne
    have hstep : Messenger.handleLines group ⟨queue, true⟩ =
        ⟨queue ++ group.map (List.splitOn ','), true⟩ := by
      have hqueue := Messenger.queue_handleLines group ⟨queue, true⟩
      have halive := Messenger.alive_handleLines hne ⟨queue, true⟩
      rw [hmessages] at hqueue
      rcases hm : Messenger.handleLines group ⟨queue, true⟩ with ⟨q, a⟩
      rw [hm] at hqueue halive
      simp_all
    rw [List.map_cons, Messenger.run, if_pos rfl, readlines_flatten hgroup, hstep,
      ih (fun g hg ↦ hlines g (by simp [hg]))]
    simp

theorem complete_terminateLine : Complete terminateLine := ⟨terminateText, by decide, rfl⟩

theorem run_terminate {lines : List Str} {groups : List (List Str)}
    (hlines : ∀ line ∈ lines, Complete line) (hgroups : groups.flatten = lines ++ [terminateLine])
    (queue : List (List Str)) :
    Messenger.run (groups.map List.flatten) ⟨queue, true⟩ =
      ⟨queue ++ lines.map (List.splitOn ',') ++ [[terminateLine]], true⟩ := by
  have hcomplete : ∀ group ∈ groups, ∀ line ∈ group, Complete line := by
    intro group hgroup line hline
    have hmem : line ∈ lines ++ [terminateLine] :=
      hgroups ▸ List.mem_flatten.mpr ⟨group, hgroup, hline⟩
    rcases List.mem_append.mp hmem with hmem | hmem
    · exact hlines line hmem
    · rw [List.mem_singleton.mp hmem]
      exact complete_terminateLine
  rw [run_complete groups hcomplete, hgroups, List.map_append, List.map_singleton,
    splitOn_terminateLine, List.append_assoc]

end Shutdown

/-- The newline that `_terminate_all` writes stays in the line, so the messenger never takes it
for the word that ends it, however the pipe is read. -/
theorem terminate_never_shuts_down (queue : List (List Str)) (lines : List Str)
    (groups : List (List Str)) (hlines : ∀ line ∈ lines, Complete line)
    (hgroups : groups.flatten = lines ++ [terminateLine]) :
    ¬ ShutsDown queue lines (Messenger.run (groups.map List.flatten) ⟨queue, true⟩) := by
  rw [run_terminate hlines hgroups]
  rintro ⟨halive, -⟩
  cases halive

theorem terminate_never_shuts_down_load :
    ¬ ShutsDown [] ["load,p\n".toList]
      (Messenger.run ([["load,p\n".toList], [terminateLine]].map List.flatten) ⟨[], true⟩) := by
  apply terminate_never_shuts_down [] ["load,p\n".toList] [["load,p\n".toList], [terminateLine]]
  · intro line hline
    rw [List.mem_singleton.mp hline]
    exact ⟨"load,p".toList, by decide, by decide⟩
  · rfl

/-- With nothing waiting, the text that should end the messenger is put on the queue. -/
theorem terminate_enqueued :
    (Messenger.run [terminateLine] ⟨[], true⟩).queue = [[terminateLine]] ∧
    (Messenger.run [terminateLine] ⟨[], true⟩).alive = true ∧
    ¬ ShutsDown [] [] (Messenger.run [terminateLine] ⟨[], true⟩) := by
  have hrun : Messenger.run [terminateLine] ⟨[], true⟩ = ⟨[[terminateLine]], true⟩ := by
    simpa using @run_terminate [] [[terminateLine]] (by simp) rfl []
  rw [hrun]
  refine ⟨rfl, rfl, ?_⟩
  rintro ⟨halive, -⟩
  cases halive

end Liota.PackageManager
