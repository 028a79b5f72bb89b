import Liota.MetricHandler.Conservation

namespace Liota.MetricHandler

open Python.Heapq Dccs

variable {M V : Type}

def Worker.inside : Worker M V → Option M
  | .testing m | .queueing m | .resetting m => some m
  | w => w.holding

/-- The metric whose data `SendThread` is sending or about to send. -/
def Sender.busy : Sender M V → Option M
  | .taken (.metric m) | .checked m | .sending m | .publishing m | .draining m _ _ => some m
  | _ => none

/-- `SendThread` has taken the metric and not yet read the size of its queue of values. -/
def Sender.Fresh (m : M) : Sender M V → Prop
  | .taken (.metric m') | .checked m' | .sending m' | .publishing m' => m' = m
  | _ => False

def Worker.credit (count : ℤ) : Worker M V → ℤ
  | .adding _ rest added => count + added - rest.length
  | .counting _ added => count + added
  | .storing _ size => size
  | _ => count

def Worker.Settles (m : M) : Worker M V → Prop
  | .collected m' | .scheduling m' | .returning m' | .testing m' | .queueing m' | .resetting m' =>
    m' = m
  | _ => False

theorem Worker.inside_of_holding {w : Worker M V} {m : M} (h : w.holding = some m) :
    w.inside = some m := by
  cases w <;> first | exact h | cases h

theorem Worker.Settles.inside {w : Worker M V} {m : M} (h : w.Settles m) : w.inside = some m := by
  cases w <;> first | exact congrArg some h | exact h.elim

def Effect.Spares (m : M) : Effect M V → Prop
  | .put m' _ | .complete m' _ | .reset m' | .get m' => m' ≠ m
  | _ => True

theorem Effect.Spares.ne_put {e : Effect M V} {m : M} (h : e.Spares m) (v : Sample V) :
    e ≠ .put m v := by
  rintro rfl
  exact h rfl

section

variable {cfg : Config M V} {s : State M V} {a : Action M V} {e : Effect M V} {m : M}

theorem Worker.Moves.spares {w pc : Worker M V} (h : w.Moves cfg s a pc e)
    (hw : w.holding ≠ some m) : e.Spares m ∨ e = .reset m ∧ w = .resetting m := by
  cases h with
  | @reset i m' =>
    by_cases hm : m' = m
    · subst hm
      exact .inr ⟨rfl, rfl⟩
    · exact .inl hm
  | put => exact .inl fun hm ↦ hw (congrArg some hm)
  | filtered => exact .inl fun hm ↦ hw (congrArg some hm)
  | store => exact .inl fun hm ↦ hw (congrArg some hm)
  | _ => exact .inl trivial

theorem Worker.Moves.takes {w pc : Worker M V} (h : w.Moves cfg s a pc e)
    (hw : w.holding ≠ some m) (hpc : pc.holding = some m) :
    pc = .taken m ∧ e = .takeCollect ∧ m ∈ s.collectQueue := by
  cases h with
  | take hqueue =>
    obtain rfl := Option.some.inj hpc
    exact ⟨rfl, rfl, by simp [hqueue]⟩
  | discard => cases hpc
  | raises | startRaises | resultRaises => cases hpc
  | drop => cases hpc
  | putBack => cases hpc
  | _ => exact absurd hpc hw

theorem Worker.Moves.credit_of_leaves {w pc : Worker M V} (h : w.Moves cfg s a pc e)
    (hw : w.holding = some m) (hpc : pc.holding ≠ some m) (count : ℤ) :
    w.credit count = count ∧ e.Spares m := by
  cases h <;> first
    | exact ⟨rfl, trivial⟩
    | exact absurd hw hpc

theorem Worker.Moves.settles {w pc : Worker M V} (h : w.Moves cfg s a pc e) (hw : w.Settles m) :
    pc.Settles m ∨ (s.metrics m).flagAlive = false ∨
      ((s.metrics m).currentAggregationSize : ℤ) < cfg.aggregationSize m ∨ e = .reset m := by
  cases h <;> first
    | exact hw.elim
    | exact .inl hw
    | (obtain rfl := hw
       first
        | exact .inr (.inl ‹_›)
        | exact .inr (.inr (.inl ‹_›))
        | exact .inr (.inr (.inr rfl)))

theorem Worker.Moves.inside_cases {w pc : Worker M V} (h : w.Moves cfg s a pc e)
    (hpc : pc.inside = some m) : w.inside = some m ∨ m ∈ s.collectQueue := by
  cases h with
  | take hqueue =>
    obtain rfl := Option.some.inj hpc
    exact .inr (by simp [hqueue])
  | discard => cases hpc
  | raises | startRaises | resultRaises => cases hpc
  | drop => cases hpc
  | unready => cases hpc
  | reset => cases hpc
  | _ => exact .inl hpc

theorem Worker.Moves.spares_of_outside {w pc : Worker M V} (h : w.Moves cfg s a pc e)
    (hw : w.inside ≠ some m) : e.Spares m := by
  cases h with
  | put => exact fun hm ↦ hw (congrArg some hm)
  | filtered => exact fun hm ↦ hw (congrArg some hm)
  | store => exact fun hm ↦ hw (congrArg some hm)
  | reset => exact fun hm ↦ hw (congrArg some hm)
  | _ => trivial

theorem ClientMoves.spares (h : ClientMoves s e) : e.Spares m := by
  cases h <;> trivial

theorem Checker.Moves.spares {w pc : Checker M} (h : w.Moves s pc e) : e.Spares m := by
  cases h <;> trivial

def Worker.Proper : Worker M V → Prop
  | .adding _ rest added => rest.length ≤ added
  | _ => True

theorem Worker.Moves.proper {w pc : Worker M V} (h : w.Moves cfg s a pc e) (hw : w.Proper) :
    pc.Proper := by
  cases h with
  | add => exact Nat.le_refl _
  | put => exact Nat.le_of_succ_le hw
  | _ => trivial

theorem Worker.Proper.credit_nonneg {w : Worker M V} (h : w.Proper) (count : ℕ) :
    0 ≤ w.credit count := by
  cases w with
  | adding m rest added =>
    have hle : rest.length ≤ added := h
    simp only [Worker.credit]
    omega
  | counting m added =>
    simp only [Worker.credit]
    omega
  | _ => exact Int.natCast_nonneg _

theorem mem_setWorker {i : ℕ} {pc w : Worker M V} (h : w ∈ (s.setWorker i pc).workers) :
    ∃ j, (j = i ∧ w = pc) ∨ (j ≠ i ∧ s.workers[j]? = some w) := by
  obtain ⟨j, hj⟩ := List.mem_iff_getElem?.mp h
  change (s.workers.set i pc)[j]? = some w at hj
  refine ⟨j, ?_⟩
  by_cases hji : j = i
  · subst hji
    have hlt := (List.getElem?_eq_some_iff.mp hj).1
    rw [List.length_set] at hlt
    rw [List.getElem?_set_self hlt] at hj
    exact .inl ⟨rfl, (Option.some.inj hj).symm⟩
  · rw [List.getElem?_set_ne (Ne.symm hji)] at hj
    exact .inr ⟨hji, hj⟩

theorem mem_setWorker_self {i : ℕ} {w : Worker M V} (hw : s.workers[i]? = some w)
    (pc : Worker M V) : pc ∈ (s.setWorker i pc).workers := by
  have hlt := (List.getElem?_eq_some_iff.mp hw).1
  exact List.mem_of_getElem? (List.getElem?_set_self hlt)

theorem mem_setWorker_of_ne {i j : ℕ} (hji : j ≠ i) {w : Worker M V} (hw : s.workers[j]? = some w)
    (pc : Worker M V) : w ∈ (s.setWorker i pc).workers := by
  have hset : (s.workers.set i pc)[j]? = some w := by rwa [List.getElem?_set_ne (Ne.symm hji)]
  exact List.mem_of_getElem? hset

end

variable [DecidableEq M]

/-- How many samples `SendThread` is still to take in the drain it is in. -/
def Sender.left (m : M) : Sender M V → ℕ
  | .draining m' left _ => if m' = m then left else 0
  | _ => 0

/-- All samples in the queue of values will be taken: the metric is in `send_queue` or on its way
there, or `SendThread` has not yet read the size of the queue. -/
def Covered (s : State M V) (m : M) : Prop :=
  .metric m ∈ s.sendQueue ∨ .queueing m ∈ s.workers ∨ s.sender.Fresh m

/-- At most `count` samples wait that no send is sure to take. -/
def Accounted (s : State M V) (m : M) (count : ℤ) : Prop :=
  Covered s m ∨ ((s.metrics m).values.length : ℤ) ≤ s.sender.left m + count

/-- With this count, the samples that no send is sure to take are counted, or will be by the thread
that holds the metric. -/
def Backed (s : State M V) (m : M) (count : ℤ) : Prop :=
  (∀ w ∈ s.workers, w.holding = some m → Accounted s m (w.credit count)) ∧
    ((∀ w ∈ s.workers, w.holding ≠ some m) → Accounted s m count)

theorem eq_of_countP_le_one {α : Type} {p : α → Bool} {l : List α} (h : l.countP p ≤ 1) {i j : ℕ}
    {x y : α} (hi : l[i]? = some x) (hx : p x = true) (hj : l[j]? = some y) (hy : p y = true) :
    i = j := by
  induction l generalizing i j with
  | nil => simp at hi
  | cons z l ih =>
    rw [List.countP_cons] at h
    have hmem {k : ℕ} {w : α} (hk : l[k]? = some w) (hw : p w = true) : 0 < l.countP p :=
      List.countP_pos_iff.mpr ⟨w, List.mem_of_getElem? hk, hw⟩
    rcases i with _ | i
    · obtain rfl : z = x := by simpa using hi
      rcases j with _ | j
      · rfl
      · have hpos := hmem (by simpa using hj) hy
        simp only [hx, if_true] at h
        omega
    · rcases j with _ | j
      · obtain rfl : z = y := by simpa using hj
        have hpos := hmem (by simpa using hi) hx
        simp only [hy, if_true] at h
        omega
      · have hle : l.countP p ≤ 1 := by omega
        exact congrArg Nat.succ (ih hle (by simpa using hi) (by simpa using hj))

section

variable {cfg : Config M V} {s : State M V} {a : Action M V} {e : Effect M V} {m : M}

theorem Placed.holder_unique (hs : Placed s) {i j : ℕ} {w w' : Worker M V}
    (hi : s.workers[i]? = some w) (hw : w.holding = some m) (hj : s.workers[j]? = some w')
    (hw' : w'.holding = some m) : i = j := by
  have hle := (countP_holding_le s m).trans (hs.le_one m)
  exact eq_of_countP_le_one hle hi (by simpa using hw) hj (by simpa using hw')

variable (cfg) in
theorem mem_sendQueue_apply {item : Item M} (h : item ∈ s.sendQueue) (he : e ≠ .takeSend) :
    item ∈ (e.apply cfg s).sendQueue := by
  cases e <;> first
    | exact h
    | exact List.mem_append_left _ h
    | exact absurd rfl he

variable (cfg s) in
theorem Effect.Spares.frame (h : e.Spares m) :
    ((e.apply cfg s).metrics m).values = (s.metrics m).values ∧
      ((e.apply cfg s).metrics m).currentAggregationSize =
        (s.metrics m).currentAggregationSize := by
  cases e <;> first
    | (simp only [Effect.apply, Effect.onMetric]; split_ifs <;> exact ⟨rfl, rfl⟩)
    | exact ⟨rfl, rfl⟩
    | (have hne := h; simp only [Effect.Spares] at hne
       simp [Effect.apply, Effect.onMetric, hne])

theorem Worker.Moves.credit_of_keeps {w pc : Worker M V} (h : w.Moves cfg s a pc e)
    (hw : w.holding = some m) (hpc : pc.holding = some m) :
    ((∃ v, e = .put m v) ∧
      pc.credit ((e.apply cfg s).metrics m).currentAggregationSize =
        w.credit (s.metrics m).currentAggregationSize + 1) ∨
    ((∀ v, e ≠ .put m v) ∧ e ≠ .get m ∧
      pc.credit ((e.apply cfg s).metrics m).currentAggregationSize =
        w.credit (s.metrics m).currentAggregationSize) := by
  cases h with
  | @put i m' v rest added =>
    obtain rfl := Option.some.inj hw
    refine .inl ⟨⟨v, rfl⟩, ?_⟩
    simp only [Worker.credit, Effect.apply, Effect.onMetric, if_true, List.length_cons]
    push_cast
    ring
  | _ =>
    cases hpc
    all_goals
      refine .inr ⟨by simp, by simp, ?_⟩
      simp [Worker.credit, Effect.apply, Effect.onMetric]

theorem Placed.not_holding (hs : Placed s) (hm : m ∈ s.collectQueue) :
    ∀ w ∈ s.workers, w.holding ≠ some m := by
  intro w hw hholds
  have hpos : 0 < s.workers.countP fun w ↦ w.holding = some m :=
    List.countP_pos_iff.mpr ⟨w, hw, by simpa using hholds⟩
  have hcount := List.count_pos_iff.mpr hm
  have hle := hs.le_one m
  rw [places] at hle
  omega

variable (cfg s) in
theorem values_apply (hput : ∀ v, e ≠ .put m v) (hget : e ≠ .get m) :
    ((e.apply cfg s).metrics m).values = (s.metrics m).values := by
  cases e with
  | put m' v =>
    have hne : m' ≠ m := fun hm ↦ hput v (by rw [hm])
    simp [Effect.apply, Effect.onMetric, hne]
  | get m' =>
    have hne : m' ≠ m := fun hm ↦ hget (by rw [hm])
    simp [Effect.apply, Effect.onMetric, hne]
  | _ =>
    first
    | rfl
    | (simp only [Effect.apply, Effect.onMetric]; split_ifs <;> rfl)

variable (cfg s) in
theorem count_apply (hcomplete : ∀ size, e ≠ .complete m size) (hreset : e ≠ .reset m) :
    ((e.apply cfg s).metrics m).currentAggregationSize =
      (s.metrics m).currentAggregationSize := by
  cases e with
  | complete m' size =>
    have hne : m' ≠ m := fun hm ↦ hcomplete size (by rw [hm])
    simp [Effect.apply, Effect.onMetric, hne]
  | reset m' =>
    have hne : m' ≠ m := fun hm ↦ hreset (by rw [hm])
    simp [Effect.apply, Effect.onMetric, hne]
  | _ =>
    first
    | rfl
    | (simp only [Effect.apply, Effect.onMetric]; split_ifs <;> rfl)

theorem Covered.worker {i : ℕ} {w pc : Worker M V} (hw : s.workers[i]? = some w)
    (h : w.Moves cfg s a pc e) (hc : Covered s m) :
    Covered ((e.apply cfg s).setWorker i pc) m := by
  have hne : e ≠ .takeSend := by
    rintro rfl
    cases h
  rcases hc with hqueue | hready | hfresh
  · exact .inl (mem_sendQueue_apply cfg hqueue hne)
  · obtain ⟨j, hj⟩ := List.mem_iff_getElem?.mp hready
    by_cases hji : j = i
    · subst hji
      obtain rfl := Option.some.inj (hw.symm.trans hj)
      cases h
      exact .inl (List.mem_append_right _ (List.mem_singleton_self _))
    · refine .inr (.inl (mem_setWorker_of_ne hji ?_ pc))
      rwa [workers_apply]
  · refine .inr (.inr ?_)
    change ((e.apply cfg s).sender).Fresh m
    rwa [sender_apply]

theorem Accounted.worker {i : ℕ} {w pc : Worker M V} (hw : s.workers[i]? = some w)
    (h : w.Moves cfg s a pc e) (hput : ∀ v, e ≠ .put m v) {count : ℤ}
    (hacc : Accounted s m count) : Accounted ((e.apply cfg s).setWorker i pc) m count := by
  have hget : e ≠ .get m := by
    rintro rfl
    cases h
  refine hacc.imp (·.worker hw h) fun hlen ↦ ?_
  change ((((e.apply cfg s).metrics m).values.length : ℕ) : ℤ) ≤ (e.apply cfg s).sender.left m + _
  rwa [values_apply cfg s hput hget, sender_apply]

theorem Accounted.worker_put {i : ℕ} {w pc : Worker M V} {v : Sample V}
    (hw : s.workers[i]? = some w) (h : w.Moves cfg s a pc (.put m v)) {count : ℤ}
    (hacc : Accounted s m count) :
    Accounted (((Effect.put m v).apply cfg s).setWorker i pc) m (count + 1) := by
  refine hacc.imp (·.worker hw h) fun hlen ↦ ?_
  have hvalues : (((Effect.put m v).apply cfg s).metrics m).values =
      (s.metrics m).values ++ [v] := by
    simp [Effect.apply, Effect.onMetric]
  change (((((Effect.put m v).apply cfg s).metrics m).values.length : ℕ) : ℤ) ≤ _
  rw [hvalues, List.length_append, List.length_singleton]
  change _ ≤ (s.sender.left m : ℤ) + (count + 1)
  push_cast
  linarith

section Backed

variable {i : ℕ} {w pc : Worker M V}

theorem mem_moved {w' : Worker M V} (hw' : w' ∈ ((e.apply cfg s).setWorker i pc).workers) :
    w' = pc ∨ ∃ j, j ≠ i ∧ s.workers[j]? = some w' := by
  obtain ⟨j, ⟨-, heq⟩ | ⟨hji, hj⟩⟩ := mem_setWorker hw'
  · exact .inl heq
  · rw [workers_apply] at hj
    exact .inr ⟨j, hji, hj⟩

variable (hs : Placed s) (hw : s.workers[i]? = some w) (h : w.Moves cfg s a pc e)
include hw

theorem mem_unmoved {w' : Worker M V} (hw' : w' ∈ s.workers) :
    w' = w ∨ w' ∈ ((e.apply cfg s).setWorker i pc).workers := by
  obtain ⟨j, hj⟩ := List.mem_iff_getElem?.mp hw'
  by_cases hji : j = i
  · subst hji
    exact .inl (Option.some.inj (hj.symm.trans hw))
  · exact .inr (mem_setWorker_of_ne hji (by rwa [workers_apply]) pc)

theorem mem_moved_self : pc ∈ ((e.apply cfg s).setWorker i pc).workers :=
  mem_setWorker_self (by rwa [workers_apply]) pc

include hs h

theorem Backed.worker_holds (hholds : w.holding = some m)
    (hacc : Accounted s m (w.credit (s.metrics m).currentAggregationSize)) :
    Backed ((e.apply cfg s).setWorker i pc) m
      ((e.apply cfg s).metrics m).currentAggregationSize := by
  have hunique {w' : Worker M V} (hw' : w' ∈ ((e.apply cfg s).setWorker i pc).workers)
      (hm' : w'.holding = some m) : w' = pc := by
    rcases mem_moved hw' with heq | ⟨j, hji, hj⟩
    · exact heq
    · exact absurd (hs.holder_unique hj hm' hw hholds) hji
  by_cases hkeeps : pc.holding = some m
  · refine ⟨fun w' hw' hm' ↦ ?_, fun hnone ↦ absurd hkeeps (hnone pc (mem_moved_self hw))⟩
    rw [hunique hw' hm']
    rcases h.credit_of_keeps hholds hkeeps with ⟨⟨v, rfl⟩, hcredit⟩ | ⟨hput, -, hcredit⟩
    · rw [hcredit]
      exact hacc.worker_put hw h
    · rw [hcredit]
      exact hacc.worker hw h hput
  · obtain ⟨hcredit, hspares⟩ := h.credit_of_leaves hholds hkeeps
      (s.metrics m).currentAggregationSize
    rw [hcredit] at hacc
    rw [(hspares.frame cfg s).2]
    refine ⟨fun w' hw' hm' ↦ ?_, fun _ ↦ hacc.worker hw h hspares.ne_put⟩
    exact absurd (hunique hw' hm' ▸ hm') hkeeps

theorem Backed.worker_takes (hholds : w.holding ≠ some m) (htakes : pc.holding = some m)
    (hb : Backed s m (s.metrics m).currentAggregationSize) :
    Backed ((e.apply cfg s).setWorker i pc) m
      ((e.apply cfg s).metrics m).currentAggregationSize := by
  obtain ⟨rfl, rfl, hqueue⟩ := h.takes hholds htakes
  have hnone := hs.not_holding hqueue
  have hacc := (hb.2 hnone).worker hw h (by simp)
  refine ⟨fun w' hw' hm' ↦ ?_, fun hall ↦ absurd htakes (hall _ (mem_moved_self hw))⟩
  rcases mem_moved hw' with rfl | ⟨j, -, hj⟩
  · exact hacc
  · exact absurd hm' (hnone w' (List.mem_of_getElem? hj))

omit hs in
theorem Backed.worker_other (hholds : w.holding ≠ some m) (htakes : pc.holding ≠ some m)
    (hb : Backed s m (s.metrics m).currentAggregationSize)
    (hsafe : w = .resetting m → Backed s m 0) :
    Backed ((e.apply cfg s).setWorker i pc) m
      ((e.apply cfg s).metrics m).currentAggregationSize := by
  have hspares := h.spares hholds
  have hput (v : Sample V) : e ≠ .put m v := by
    rcases hspares with hspares | ⟨rfl, -⟩
    · exact hspares.ne_put v
    · simp
  have hbacked : Backed s m ((e.apply cfg s).metrics m).currentAggregationSize := by
    rcases hspares with hspares | ⟨rfl, hreset⟩
    · rw [(hspares.frame cfg s).2]
      exact hb
    · have hzero : (((Effect.reset m).apply cfg s).metrics m).currentAggregationSize = 0 := by
        simp [Effect.apply, Effect.onMetric]
      rw [hzero]
      exact hsafe hreset
  refine ⟨fun w' hw' hm' ↦ ?_, fun hnone ↦ ?_⟩
  · rcases mem_moved hw' with rfl | ⟨j, hji, hj⟩
    · exact absurd hm' htakes
    · exact (hbacked.1 w' (List.mem_of_getElem? hj) hm').worker hw h hput
  · refine (hbacked.2 fun w' hw' hm' ↦ ?_).worker hw h hput
    rcases mem_unmoved hw hw' with rfl | hw'
    · exact hholds hm'
    · exact hnone w' hw' hm'

theorem Backed.worker (hb : Backed s m (s.metrics m).currentAggregationSize)
    (hsafe : w = .resetting m → Backed s m 0) :
    Backed ((e.apply cfg s).setWorker i pc) m
      ((e.apply cfg s).metrics m).currentAggregationSize := by
  by_cases hholds : w.holding = some m
  · exact Backed.worker_holds hs hw h hholds (hb.1 w (List.mem_of_getElem? hw) hholds)
  · by_cases htakes : pc.holding = some m
    · exact Backed.worker_takes hs hw h hholds htakes hb
    · exact Backed.worker_other hw h hholds htakes hb hsafe

end Backed

theorem Sender.Moves.fresh {w pc : Sender M V} (h : w.Moves cfg s a pc e)
    (halive : (s.metrics m).flagAlive = true) (hw : w.Fresh m) :
    pc.Fresh m ∨ ((e.apply cfg s).metrics m).values.length ≤ pc.left m := by
  cases h with
  | discard hdead =>
    obtain rfl := hw
    rw [halive] at hdead
    cases hdead
  | nothing hnil =>
    obtain rfl := hw
    exact .inr (by simp [Effect.apply, Effect.onMetric, hnil])
  | drained hnil =>
    obtain rfl := hw
    exact .inr (by simp [Effect.apply, Effect.onMetric, hnil])
  | drain hne =>
    obtain rfl := hw
    exact .inr (by simp [Effect.apply, Effect.onMetric, Sender.left])
  | _ =>
    first
    | exact hw.elim
    | exact .inl hw

theorem Sender.Moves.left_le {w pc : Sender M V} (h : w.Moves cfg s a pc e)
    (hraises : a = .formatRaises → ∀ left samples, w ≠ .draining m left samples) :
    ((e.apply cfg s).metrics m).values.length + w.left m ≤
      (s.metrics m).values.length + pc.left m := by
  cases h with
  | @formatRaises m' left samples =>
    have hne : m' ≠ m := fun hm ↦ hraises rfl left samples (by rw [hm])
    simp [Effect.apply, Effect.onMetric, Sender.left, hne]
  | @get m' left samples v rest hvalues =>
    by_cases hm : m' = m
    · subst hm
      simp [Effect.apply, Effect.onMetric, Sender.left, hvalues]
      omega
    · simp [Effect.apply, Effect.onMetric, Sender.left, hm]
  | @drain m' hne =>
    simp [Effect.apply, Effect.onMetric, Sender.left]
  | @send m' =>
    have hvalues := values_apply cfg s (e := .send m') (m := m) (by simp) (by simp)
    simp [hvalues, Sender.left]
  | @pass m' samples message hformat =>
    have hvalues := values_apply cfg s (e := .pass m' message) (m := m) (by simp) (by simp)
    simp [hvalues, Sender.left]
  | _ => simp [Effect.apply, Effect.onMetric, Sender.left]

theorem Sender.Moves.count_eq {w pc : Sender M V} (h : w.Moves cfg s a pc e) (m : M) :
    ((e.apply cfg s).metrics m).currentAggregationSize =
      (s.metrics m).currentAggregationSize := by
  apply count_apply
  · rintro size rfl
    cases h
  · rintro rfl
    cases h

theorem Sender.Moves.values_nil {w pc : Sender M V} (h : w.Moves cfg s a pc e)
    (hnil : (s.metrics m).values = []) : ((e.apply cfg s).metrics m).values = [] := by
  by_cases hget : e = .get m
  · rw [hget]
    simp [Effect.apply, Effect.onMetric, hnil]
  · rw [values_apply cfg s _ hget, hnil]
    rintro v rfl
    cases h

theorem Sender.Moves.mem_sendQueue {w pc : Sender M V} (h : w.Moves cfg s a pc e)
    (hm : .metric m ∈ s.sendQueue) : .metric m ∈ (e.apply cfg s).sendQueue ∨ pc.Fresh m := by
  cases h with
  | @take item rest hqueue =>
    rw [hqueue] at hm
    rcases List.mem_cons.mp hm with rfl | hm
    · exact .inr rfl
    · left
      change .metric m ∈ s.sendQueue.tail
      rwa [hqueue]
  | _ => exact .inl hm

/-- What `SendThread` does takes the samples it is sure to take, unless the metric is dead or the
drain is left by an exception. -/
theorem Accounted.sender {pc : Sender M V} (h : s.sender.Moves cfg s a pc e)
    (hraises : a = .formatRaises → ∀ left samples, s.sender ≠ .draining m left samples)
    (halive : (s.metrics m).flagAlive = true) {count : ℤ} (hcount : 0 ≤ count)
    (hacc : Accounted s m count) : Accounted ((e.apply cfg s).setSender pc) m count := by
  rcases hacc with (hqueue | hready | hfresh) | hlen
  · exact .inl ((h.mem_sendQueue hqueue).imp_right .inr)
  · refine .inl (.inr (.inl ?_))
    change .queueing m ∈ (e.apply cfg s).workers
    rwa [workers_apply]
  · rcases h.fresh halive hfresh with hfresh | hle
    · exact .inl (.inr (.inr hfresh))
    · right
      change ((((e.apply cfg s).metrics m).values.length : ℕ) : ℤ) ≤ pc.left m + count
      omega
  · right
    have hle := h.left_le hraises
    change ((((e.apply cfg s).metrics m).values.length : ℕ) : ℤ) ≤ pc.left m + count
    omega

theorem Backed.of_accounted {t : State M V} {count : ℕ} (hb : Backed s m count)
    (hproper : ∀ w ∈ s.workers, w.Proper) (hworkers : t.workers = s.workers)
    (hacc : ∀ count, 0 ≤ count → Accounted s m count → Accounted t m count) :
    Backed t m count := by
  rw [Backed, hworkers]
  refine ⟨fun w hw hm ↦ hacc _ ((hproper w hw).credit_nonneg count) (hb.1 w hw hm), fun hnone ↦ ?_⟩
  exact hacc _ (Int.natCast_nonneg count) (hb.2 hnone)

def Settled (cfg : Config M V) (s : State M V) (m : M) : Prop :=
  cfg.aggregationSize m ≤ ((s.metrics m).currentAggregationSize : ℤ) → ∃ w ∈ s.workers, w.Settles m

theorem Settled.worker {i : ℕ} {w pc : Worker M V} (hw : s.workers[i]? = some w)
    (h : w.Moves cfg s a pc e) (halive : (s.metrics m).flagAlive = true)
    (hsize : 1 ≤ cfg.aggregationSize m) (hs : Settled cfg s m) :
    Settled cfg ((e.apply cfg s).setWorker i pc) m := by
  intro hready
  change _ ≤ (((e.apply cfg s).metrics m).currentAggregationSize : ℤ) at hready
  by_cases hcomplete : ∃ size, e = .complete m size
  · obtain ⟨size, rfl⟩ := hcomplete
    have hpc : pc = .collected m := by
      cases h <;> rfl
    exact ⟨pc, mem_moved_self hw, by rw [hpc]; rfl⟩
  · have hreset : e ≠ .reset m := by
      rintro rfl
      simp [Effect.apply, Effect.onMetric] at hready
      omega
    rw [count_apply cfg s (not_exists.mp hcomplete) hreset] at hready
    obtain ⟨w', hw', hsettles⟩ := hs hready
    rcases mem_unmoved hw hw' with rfl | hw'
    · rcases h.settles hsettles with hpc | hdead | hlt | heq
      · exact ⟨pc, mem_moved_self hw, hpc⟩
      · rw [halive] at hdead
        cases hdead
      · omega
      · exact absurd heq hreset
    · exact ⟨w', hw', hsettles⟩

/-- A metric that has not been started has no samples, and no thread works on it. -/
structure Unused (s : State M V) (m : M) : Prop where
  values : (s.metrics m).values = []
  count : (s.metrics m).currentAggregationSize = 0
  outside : ∀ w ∈ s.workers, w.inside ≠ some m

theorem Unused.moves {t : State M V} (hs : Placed s) (hu : Unused s m) (h : Moves cfg s a t)
    (hphase : (s.metrics m).phase ≠ .started) : Unused t m := by
  have hspares {e : Effect M V} (he : e.Spares m) : Unused (e.apply cfg s) m := by
    obtain ⟨hvalues, hcount⟩ := he.frame cfg s
    refine ⟨hvalues.trans hu.values, hcount.trans hu.count, ?_⟩
    rw [workers_apply]
    exact hu.outside
  cases h with
  | tick ms => exact ⟨hu.values, hu.count, hu.outside⟩
  | endChecker => exact ⟨hu.values, hu.count, hu.outside⟩
  | endSender => exact ⟨hu.values, hu.count, hu.outside⟩
  | client h => exact hspares h.spares
  | checker h =>
    have hstep := hspares (h.spares (m := m))
    exact ⟨hstep.values, hstep.count, hstep.outside⟩
  | @worker _ i w pc e ha hw h =>
    have hstep := hspares (h.spares_of_outside (hu.outside w (List.mem_of_getElem? hw)))
    refine ⟨hstep.values, hstep.count, fun w' hw' hin ↦ ?_⟩
    rcases mem_moved hw' with rfl | ⟨j, -, hj⟩
    · rcases h.inside_cases hin with hin | hqueue
      · exact hu.outside w (List.mem_of_getElem? hw) hin
      · have hcount := List.count_pos_iff.mpr hqueue
        have hzero := hs.unstarted m hphase
        rw [places] at hzero
        omega
    · exact hu.outside w' (List.mem_of_getElem? hj) hin
  | @sender _ pc e h =>
    refine ⟨h.values_nil hu.values, (h.count_eq m).trans hu.count, ?_⟩
    change ∀ w ∈ (e.apply cfg s).workers, _
    rw [workers_apply]
    exact hu.outside

/-- The samples of a live metric are accounted for without the count where a step resets it, and
without the drain where an exception leaves it. -/
structure Safe (s : State M V) (a : Action M V) : Prop where
  reset : ∀ i m, a = .collect i → s.workers[i]? = some (.resetting m) →
    (s.metrics m).flagAlive = true → Backed s m 0
  format : a = .formatRaises → ∀ m left samples, s.sender = .draining m left samples →
    (s.metrics m).flagAlive = true →
      Backed (s.setSender .idle) m (s.metrics m).currentAggregationSize

structure Aggregated (cfg : Config M V) (s : State M V) : Prop where
  proper : ∀ w ∈ s.workers, w.Proper
  unused : ∀ m, (s.metrics m).phase ≠ .started → Unused s m
  backed : ∀ m, (s.metrics m).flagAlive = true →
    Backed s m (s.metrics m).currentAggregationSize
  settled : ∀ m, (s.metrics m).flagAlive = true → 1 ≤ cfg.aggregationSize m → Settled cfg s m

theorem Unused.backed (hs : Placed s) (hphase : (s.metrics m).phase ≠ .started)
    (hu : Unused s m) : Backed s m (s.metrics m).currentAggregationSize := by
  refine ⟨fun w hw hm ↦ ?_, fun _ ↦ .inr ?_⟩
  · exact absurd (hs.started_of_holding hw hm) hphase
  · rw [hu.values, hu.count]
    simp

theorem aggregated_initial (clock : ℤ) (n : ℕ) :
    Aggregated cfg (State.initial clock n : State M V) := by
  have hidle (w : Worker M V) (hw : w ∈ (State.initial clock n : State M V).workers) :
      w = .idle := List.eq_of_mem_replicate hw
  refine ⟨fun w hw ↦ ?_, fun m _ ↦ ⟨rfl, rfl, fun w hw ↦ ?_⟩, fun m halive ↦ ?_, fun m halive ↦ ?_⟩
  · rw [hidle w hw]
    trivial
  · rw [hidle w hw]
    simp [Worker.inside, Worker.holding]
  · cases halive
  · cases halive

theorem Moves.proper {t : State M V} (h : Moves cfg s a t) (hs : ∀ w ∈ s.workers, w.Proper) :
    ∀ w ∈ t.workers, w.Proper := by
  have hsame (e : Effect M V) : ∀ w ∈ (e.apply cfg s).workers, w.Proper := by
    rw [workers_apply]
    exact hs
  cases h with
  | tick ms => exact hs
  | endChecker => exact hs
  | endSender => exact hs
  | client h => exact hsame _
  | checker h => exact hsame _
  | sender h => exact hsame _
  | @worker _ i w pc e ha hw h =>
    intro w' hw'
    rcases mem_moved hw' with rfl | ⟨j, -, hj⟩
    · exact h.proper (hs w (List.mem_of_getElem? hw))
    · exact hs w' (List.mem_of_getElem? hj)

theorem Accounted.of_apply (he : e.Spares m) (hne : e ≠ .takeSend) {count : ℤ}
    (hacc : Accounted s m count) : Accounted (e.apply cfg s) m count := by
  refine hacc.imp (fun hc ↦ ?_) fun hlen ↦ ?_
  · rcases hc with hqueue | hready | hfresh
    · exact .inl (mem_sendQueue_apply cfg hqueue hne)
    · exact .inr (.inl (by rwa [workers_apply]))
    · exact .inr (.inr (by rwa [sender_apply]))
  · rwa [(he.frame cfg s).1, sender_apply]

theorem Moves.backed {t : State M V} (hs : Placed s) (hproper : ∀ w ∈ s.workers, w.Proper)
    (h : Moves cfg s a t) (hsafe : Safe s a) (halive : (s.metrics m).flagAlive = true)
    (hb : Backed s m (s.metrics m).currentAggregationSize) :
    Backed t m (t.metrics m).currentAggregationSize := by
  cases h with
  | tick ms => exact hb
  | endChecker => exact hb
  | endSender => exact hb
  | @client _ e h =>
    have hne : e ≠ .takeSend := by
      rintro rfl
      cases h
    rw [((h.spares (m := m)).frame cfg s).2]
    exact hb.of_accounted hproper (workers_apply cfg s) fun _ _ hacc ↦ hacc.of_apply h.spares hne
  | @checker pc e h =>
    have hne : e ≠ .takeSend := by
      generalize s.checker = w at h
      rintro rfl
      cases h
    change Backed _ m ((e.apply cfg s).metrics m).currentAggregationSize
    rw [((h.spares (m := m)).frame cfg s).2]
    refine hb.of_accounted hproper (workers_apply cfg s) fun _ _ hacc ↦ ?_
    exact hacc.of_apply h.spares hne
  | @worker _ i w pc e ha hw h =>
    refine Backed.worker hs hw h hb ?_
    rintro rfl
    cases h with
    | reset => exact hsafe.reset _ _ rfl (Option.some.inj ha ▸ hw) halive
  | @sender _ pc e h =>
    by_cases hleft : a = .formatRaises ∧ ∃ left samples, s.sender = .draining m left samples
    · obtain ⟨rfl, left, samples, hpc⟩ := hleft
      have hbacked := hsafe.format rfl m left samples hpc halive
      rw [hpc] at h
      cases h with
      | formatRaises => exact hbacked
    · change Backed _ m ((e.apply cfg s).metrics m).currentAggregationSize
      rw [h.count_eq m]
      refine hb.of_accounted hproper (workers_apply cfg s) fun _ hcount hacc ↦ ?_
      refine hacc.sender h (fun ha left samples hpc ↦ ?_) halive hcount
      exact hleft ⟨ha, left, samples, hpc⟩

theorem Moves.settled {t : State M V} (h : Moves cfg s a t)
    (halive : (s.metrics m).flagAlive = true) (hsize : 1 ≤ cfg.aggregationSize m)
    (hs : Settled cfg s m) : Settled cfg t m := by
  have hsame {t : State M V} (hworkers : t.workers = s.workers)
      (hcount : (t.metrics m).currentAggregationSize = (s.metrics m).currentAggregationSize) :
      Settled cfg t m := by
    rw [Settled, hworkers, hcount]
    exact hs
  cases h with
  | tick ms => exact hs
  | endChecker => exact hs
  | endSender => exact hs
  | client h => exact hsame (workers_apply cfg s) (h.spares.frame cfg s).2
  | checker h => exact hsame (workers_apply cfg s) (h.spares.frame cfg s).2
  | worker ha hw h => exact hs.worker hw h halive hsize
  | sender h => exact hsame (workers_apply cfg s) (h.count_eq m)

theorem Aggregated.moves {t : State M V} (hs : Placed s) (hc : Aggregated cfg s)
    (h : Moves cfg s a t) (hsafe : Safe s a) : Aggregated cfg t := by
  have hunused (m : M) (hphase : (t.metrics m).phase ≠ .started) : Unused t m := by
    have hold : (s.metrics m).phase ≠ .started := by
      intro hstarted
      rcases h.phase_cases m with heq | ⟨hcreated, -⟩ | ⟨hflagged, -⟩ | ⟨hscheduled, -⟩
      · exact hphase (heq.trans hstarted)
      · exact absurd (hcreated.symm.trans hstarted) (by decide)
      · exact absurd (hflagged.symm.trans hstarted) (by decide)
      · exact absurd (hscheduled.symm.trans hstarted) (by decide)
    exact (hc.unused m hold).moves hs h hold
  have halive (m : M) (hal : (t.metrics m).flagAlive = true)
      (hstarted : (t.metrics m).phase = .started) : (s.metrics m).flagAlive = true := by
    rcases h.alive hal with hal | ⟨-, hflagged⟩
    · exact hal
    · exact absurd (hflagged.symm.trans hstarted) (by decide)
  refine ⟨h.proper hc.proper, hunused, fun m hal ↦ ?_, fun m hal hsize ↦ ?_⟩
  · by_cases hstarted : (t.metrics m).phase = .started
    · have hold := halive m hal hstarted
      exact h.backed hs hc.proper hsafe hold (hc.backed m hold)
    · exact (hunused m hstarted).backed (hs.moves h) hstarted
  · by_cases hstarted : (t.metrics m).phase = .started
    · have hold := halive m hal hstarted
      exact h.settled hold hsize (hc.settled m hold hsize)
    · intro hready
      rw [(hunused m hstarted).count] at hready
      simp only [Nat.cast_zero] at hready
      omega

end

/-- Fewer samples than the aggregation size wait for a live metric that no collection thread is at
work on and that is neither in `send_queue` nor being sent. -/
def Threshold (cfg : Config M V) (s : State M V) : Prop :=
  ∀ m, (s.metrics m).flagAlive = true → 1 ≤ cfg.aggregationSize m →
    (∀ w ∈ s.workers, w.inside ≠ some m) → .metric m ∉ s.sendQueue → s.sender.busy ≠ some m →
    ((s.metrics m).values.length : ℤ) < cfg.aggregationSize m

theorem Sender.left_of_not_busy {pc : Sender M V} {m : M} (h : pc.busy ≠ some m) :
    pc.left m = 0 ∧ ¬ pc.Fresh m := by
  cases pc with
  | draining m' left samples =>
    have hne : m' ≠ m := fun hm ↦ h (congrArg some hm)
    exact ⟨by simp [Sender.left, hne], id⟩
  | taken item =>
    cases item with
    | metric m' => exact ⟨rfl, fun hm ↦ h (congrArg some hm)⟩
    | systemExit => exact ⟨rfl, id⟩
  | checked m' => exact ⟨rfl, fun hm ↦ h (congrArg some hm)⟩
  | sending m' => exact ⟨rfl, fun hm ↦ h (congrArg some hm)⟩
  | publishing m' => exact ⟨rfl, fun hm ↦ h (congrArg some hm)⟩
  | _ => exact ⟨rfl, id⟩

/-- The aggregation threshold is honoured in every run in which a count is reset only where the
waiting samples are accounted for without it, and an exception of `_format_data` leaves only samples
that are. -/
theorem threshold_honoured (cfg : Config M V) (clock : ℤ) (n : ℕ) (s : State M V)
    (h : Reaches cfg Safe (State.initial clock n) s) : Threshold cfg s := by
  have hboth : Sound cfg s ∧ Aggregated cfg s := by
    refine h.invariant (I := fun s ↦ Sound cfg s ∧ Aggregated cfg s)
      ⟨sound_initial clock n, aggregated_initial clock n⟩ ?_
    intro t a u hsafe ⟨hsound, hagg⟩ hm
    exact ⟨hsound.moves hm, hagg.moves hsound.placed hm hsafe⟩
  obtain ⟨hsound, hagg⟩ := hboth
  intro m halive hsize houtside hqueue hbusy
  obtain ⟨hleft, hfresh⟩ := Sender.left_of_not_busy hbusy
  have hnone (w : Worker M V) (hw : w ∈ s.workers) : w.holding ≠ some m :=
    fun hm ↦ houtside w hw (Worker.inside_of_holding hm)
  have hcount : ((s.metrics m).currentAggregationSize : ℤ) < cfg.aggregationSize m := by
    by_contra hge
    obtain ⟨w, hw, hsettles⟩ := hagg.settled m halive hsize (not_lt.mp hge)
    exact houtside w hw hsettles.inside
  rcases (hagg.backed m halive).2 hnone with (hq | hready | hf) | hlen
  · exact absurd hq hqueue
  · exact absurd rfl (houtside _ hready)
  · exact absurd hf hfresh
  · rw [hleft] at hlen
    simp only [Nat.cast_zero, zero_add] at hlen
    omega

section Examples

/-- A collection thread resets the count of a metric only while it is in `send_queue`, and
formatting does not raise. -/
def resetsQueued (s : State M V) : Action M V → Bool
  | .collect i =>
    match s.workers[i]? with
    | some (.resetting m) => .metric m ∈ s.sendQueue
    | _ => true
  | .formatRaises => false
  | _ => true

theorem safe_of_queued {s : State M V} {a : Action M V} (h : resetsQueued s a = true) :
    Safe s a where
  reset i m ha hw _ := by
    have hmem : .metric m ∈ s.sendQueue := by simpa [ha, resetsQueued, hw] using h
    exact ⟨fun _ _ _ ↦ .inl (.inl hmem), fun _ ↦ .inl (.inl hmem)⟩
  format ha := by
    rw [ha] at h
    cases h

def queueActions : List (Action Unit ℤ) :=
  startActions () 5000 ++ collectActions 0 1 ++ List.replicate 7 Action.check ++
    (List.replicate 3 (Action.collect 0) ++ [Action.returns 0 (.value 2)] ++
      List.replicate 11 (Action.collect 0))

/-- The same, but `SendThread` sends both samples and the other collection thread collects and
counts a third before the reset; the fourth is collected after it. -/
def wipeActions : List (Action Unit ℤ) :=
  startActions () 5000 ++ collectActions 0 1 ++ List.replicate 7 Action.check ++
    (List.replicate 3 (Action.collect 0) ++ [Action.returns 0 (.value 2)] ++
      List.replicate 10 (Action.collect 0)) ++
    List.replicate 9 Action.send ++ List.replicate 7 Action.check ++
    (List.replicate 3 (Action.collect 1) ++ [Action.returns 1 (.value 3)] ++
      List.replicate 5 (Action.collect 1)) ++
    [Action.collect 0] ++ List.replicate 4 (Action.collect 1) ++ List.replicate 7 Action.check ++
    collectActions 0 4

end Examples

theorem threshold_honoured_queued :
    ∃ s, runTested (plainConfig Unit 1 2) resetsQueued queueActions (State.initial 0 2) = some s ∧
      (s.metrics ()).currentAggregationSize = 0 ∧ s.sendQueue = [.metric ()] ∧
      Threshold (plainConfig Unit 1 2) s := by
  have hmap : (runTested (plainConfig Unit 1 2) resetsQueued queueActions
      (State.initial 0 2)).map (fun s ↦ ((s.metrics ()).currentAggregationSize, s.sendQueue)) =
        some (0, [.metric ()]) := by
    decide +kernel
  obtain ⟨s, hs, hfields⟩ := Option.map_eq_some_iff.mp hmap
  simp only [Prod.mk.injEq] at hfields
  exact ⟨s, hs, hfields.1, hfields.2, threshold_honoured (plainConfig Unit 1 2) 0 2 s
    (Reaches.refl.trans_runTested (fun _ _ ↦ safe_of_queued) hs)⟩

/-- The count of a sample is wiped out, and two samples wait where the aggregation size is two. -/
theorem reset_wipes_count :
    ∃ s, Reaches (plainConfig Unit 1 2) (fun _ _ ↦ True) (State.initial 0 2) s ∧
      ¬ Threshold (plainConfig Unit 1 2) s := by
  have hmap : (run (plainConfig Unit 1 2) wipeActions (State.initial 0 2)).map
      (fun s ↦ ((s.metrics ()).flagAlive, s.workers.map Worker.inside, s.sendQueue, s.sender.busy,
        (s.metrics ()).values.length)) = some (true, [none, none], [], none, 2) := by
    decide +kernel
  obtain ⟨s, hs, hfields⟩ := Option.map_eq_some_iff.mp hmap
  refine ⟨s, Reaches.refl.trans_run hs fun _ _ _ ↦ trivial, fun h ↦ ?_⟩
  simp only [Prod.mk.injEq] at hfields
  obtain ⟨halive, hworkers, hqueue, hsender, hvalues⟩ := hfields
  have houtside (w : Worker Unit ℤ) (hw : w ∈ s.workers) : w.inside ≠ some () := by
    have hmem := List.mem_map_of_mem (f := Worker.inside) hw
    rw [hworkers] at hmem
    simp only [List.mem_cons, List.not_mem_nil, or_false, or_self] at hmem
    simp [hmem]
  have hsize : 1 ≤ (plainConfig Unit 1 2).aggregationSize () := by decide
  have hqueued : Item.metric () ∉ s.sendQueue := by simp [hqueue]
  have hbusy : s.sender.busy ≠ some () := by simp [hsender]
  have hlt := h () halive hsize houtside hqueued hbusy
  rw [hvalues] at hlt
  exact absurd hlt (by decide)

end Liota.MetricHandler
