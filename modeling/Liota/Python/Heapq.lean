import Mathlib.Data.List.Basic
import Mathlib.Order.Defs.LinearOrder
import Mathlib.Order.Basic
import Mathlib.Order.Lattice

namespace Liota.Python.Heapq

variable {α : Type}

section Algorithm

variable (lt : α → α → Bool)

/-- `_siftdown` towards the root: parents move down until `newitem` fits at `pos`. -/
def siftdown (newitem : α) : ℕ → List α → ℕ → List α
  | 0, heap, pos => heap.set pos newitem
  | fuel + 1, heap, pos =>
    if pos = 0 then heap.set pos newitem
    else
      match heap[(pos - 1) / 2]? with
      | none => heap.set pos newitem
      | some parent =>
        if lt newitem parent then siftdown newitem fuel (heap.set pos parent) ((pos - 1) / 2)
        else heap.set pos newitem

/-- The loop of `_siftup`: the smaller children move up until `pos` has none. -/
def siftleaf : ℕ → List α → ℕ → List α × ℕ
  | 0, heap, pos => (heap, pos)
  | fuel + 1, heap, pos =>
    match heap[2 * pos + 1]?, heap[2 * pos + 2]? with
    | none, _ => (heap, pos)
    | some left, none => siftleaf fuel (heap.set pos left) (2 * pos + 1)
    | some left, some right =>
      if lt left right then siftleaf fuel (heap.set pos left) (2 * pos + 1)
      else siftleaf fuel (heap.set pos right) (2 * pos + 2)

/-- `_siftup(heap, 0)` for a heap whose first item is `newitem`. -/
def siftup (newitem : α) (heap : List α) : List α :=
  siftdown lt newitem heap.length (siftleaf lt heap.length heap 0).1
    (siftleaf lt heap.length heap 0).2

def heappush (heap : List α) (item : α) : List α :=
  siftdown lt item heap.length (heap ++ [item]) heap.length

/-- The first item and the heap that is left; `none` is an `IndexError`. -/
def heappop (heap : List α) : Option (α × List α) :=
  match heap.getLast? with
  | none => none
  | some lastelt =>
    match heap.dropLast with
    | [] => some (lastelt, [])
    | returnitem :: rest => some (returnitem, siftup lt lastelt (lastelt :: rest))

end Algorithm

section Content

theorem exchange_perm {l : List α} {i j : ℕ} {a b : α} (hi : l[i]? = some a)
    (hj : l[j]? = some b) : ((l.set i b).set j a).Perm l := by
  obtain ⟨hil, rfl⟩ := List.getElem?_eq_some_iff.mp hi
  obtain ⟨hjl, rfl⟩ := List.getElem?_eq_some_iff.mp hj
  exact List.set_set_perm hil hjl

theorem move_perm {heap : List α} {hole origin : ℕ} {moved item : α} (hhole : hole < heap.length)
    (hne : origin ≠ hole) (hmoved : heap[origin]? = some moved) :
    ((heap.set hole moved).set origin item).Perm (heap.set hole item) := by
  have hitem : (heap.set hole item)[hole]? = some item := List.getElem?_set_self hhole
  have hfrom : (heap.set hole item)[origin]? = some moved := by
    rwa [List.getElem?_set_ne hne.symm]
  simpa only [List.set_set] using exchange_perm hitem hfrom

variable (lt : α → α → Bool)

theorem siftdown_perm (item : α) (fuel : ℕ) {heap : List α} {pos : ℕ} (hpos : pos < heap.length) :
    (siftdown lt item fuel heap pos).Perm (heap.set pos item) := by
  induction fuel generalizing heap pos with
  | zero => exact List.Perm.refl _
  | succ fuel ih =>
    unfold siftdown
    split
    · exact List.Perm.refl _
    · next hne =>
      split
      · exact List.Perm.refl _
      · next parent hparent =>
        split
        · refine (ih ?_).trans (move_perm hpos ?_ hparent)
          · rw [List.length_set]
            omega
          · omega
        · exact List.Perm.refl _

theorem siftleaf_spec (fuel : ℕ) {heap : List α} {pos : ℕ} (hpos : pos < heap.length) :
    (siftleaf lt fuel heap pos).2 < (siftleaf lt fuel heap pos).1.length ∧
      ∀ item, ((siftleaf lt fuel heap pos).1.set (siftleaf lt fuel heap pos).2 item).Perm
        (heap.set pos item) := by
  induction fuel generalizing heap pos with
  | zero => exact ⟨hpos, fun item ↦ List.Perm.refl _⟩
  | succ fuel ih =>
    have hstep {child : ℕ} {moved : α} (hmoved : heap[child]? = some moved) (hne : child ≠ pos) :
        (siftleaf lt fuel (heap.set pos moved) child).2 <
          (siftleaf lt fuel (heap.set pos moved) child).1.length ∧
        ∀ item, ((siftleaf lt fuel (heap.set pos moved) child).1.set
          (siftleaf lt fuel (heap.set pos moved) child).2 item).Perm (heap.set pos item) := by
      have hchild : child < (heap.set pos moved).length := by
        rw [List.length_set]
        exact (List.getElem?_eq_some_iff.mp hmoved).1
      exact ⟨(ih hchild).1, fun item ↦ ((ih hchild).2 item).trans (move_perm hpos hne hmoved)⟩
    unfold siftleaf
    split
    · exact ⟨hpos, fun item ↦ List.Perm.refl _⟩
    · next left hleft _ => exact hstep hleft (by omega)
    · next left right hleft hright =>
      split
      · exact hstep hleft (by omega)
      · exact hstep hright (by omega)

theorem heappush_perm (heap : List α) (item : α) : (heappush lt heap item).Perm (item :: heap) := by
  have hpos : heap.length < (heap ++ [item]).length := by simp
  have hset : (heap ++ [item]).set heap.length item = heap ++ [item] := by simp
  have hperm := siftdown_perm lt item heap.length hpos
  rw [hset] at hperm
  exact hperm.trans List.perm_append_comm

theorem siftup_perm (item : α) (rest : List α) :
    (siftup lt item (item :: rest)).Perm (item :: rest) := by
  have hroot : 0 < (item :: rest).length := by simp
  obtain ⟨hpos, hperm⟩ := siftleaf_spec lt (item :: rest).length hroot
  exact (siftdown_perm lt item _ hpos).trans (hperm item)

variable {lt}

theorem heappop_head {heap left : List α} {item : α} (h : heappop lt heap = some (item, left)) :
    heap.head? = some item := by
  unfold heappop at h
  split at h
  · cases h
  · next lastelt hlast =>
    obtain ⟨front, hfront⟩ := List.getLast?_eq_some_iff.mp hlast
    rw [hfront, List.dropLast_concat] at h
    rw [hfront]
    split at h
    · rw [← (Prod.mk.inj (Option.some.inj h)).1]
      rfl
    · rw [← (Prod.mk.inj (Option.some.inj h)).1]
      rfl

theorem heappop_eq_none {heap : List α} (h : heappop lt heap = none) : heap = [] := by
  unfold heappop at h
  split at h
  · next hlast => exact List.getLast?_eq_none_iff.mp hlast
  · split at h
    · cases h
    · cases h

theorem heappop_perm {heap left : List α} {item : α} (h : heappop lt heap = some (item, left)) :
    heap.head? = some item ∧ heap.Perm (item :: left) := by
  unfold heappop at h
  split at h
  · cases h
  · next lastelt hlast =>
    have hheap : heap = heap.dropLast ++ [lastelt] :=
      (List.dropLast_append_getLast? lastelt hlast).symm
    split at h
    · next hnil =>
      obtain ⟨rfl, rfl⟩ := Prod.mk.inj (Option.some.inj h)
      rw [hheap, hnil]
      exact ⟨rfl, List.Perm.refl _⟩
    · next returnitem rest hrest =>
      obtain ⟨rfl, rfl⟩ := Prod.mk.inj (Option.some.inj h)
      rw [hheap, hrest]
      refine ⟨rfl, ?_⟩
      have hperm : (rest ++ [lastelt]).Perm (lastelt :: rest) := List.perm_append_comm
      exact (hperm.trans (siftup_perm lt lastelt rest).symm).cons _

end Content

section Order

variable {K : Type} [LinearOrder K]

def keyLt (key : α → K) (x y : α) : Bool := key x < key y

def EdgeOrdered (key : α → K) (heap : List α) (i : ℕ) : Prop :=
  ∀ x y, heap[i]? = some x → heap[(i - 1) / 2]? = some y → key y ≤ key x

def IsHeap (key : α → K) (heap : List α) : Prop := ∀ i, 0 < i → EdgeOrdered key heap i

/-- The items below `pos` are not before the item above it. -/
def Spans (key : α → K) (heap : List α) (pos : ℕ) : Prop :=
  ∀ c x y, 0 < pos → 0 < c → (c - 1) / 2 = pos → heap[c]? = some x →
    heap[(pos - 1) / 2]? = some y → key y ≤ key x

variable {key : α → K} {heap : List α}

theorem isHeap_nil : IsHeap key ([] : List α) := by
  intro i _ x y hx
  simp at hx

theorem IsHeap.le_of_mem (h : IsHeap key heap) {first x : α} (hfirst : heap.head? = some first)
    (hx : x ∈ heap) : key first ≤ key x := by
  have hroot : heap[0]? = some first := by rwa [← List.head?_eq_getElem?]
  have hall (i : ℕ) : ∀ x, heap[i]? = some x → key first ≤ key x := by
    induction i using Nat.strongRecOn with
    | ind i ih =>
      intro x hx
      by_cases hi : i = 0
      · subst hi
        rw [hroot] at hx
        rw [Option.some.inj hx]
      · have hlength := (List.getElem?_eq_some_iff.mp hx).1
        have hparent : heap[(i - 1) / 2]? = some (heap.get ⟨(i - 1) / 2, by omega⟩) :=
          List.getElem?_eq_getElem _
        exact (ih _ (by omega) _ hparent).trans (h i (by omega) x _ hx hparent)
  obtain ⟨i, hi⟩ := List.mem_iff_getElem?.mp hx
  exact hall i x hi

theorem IsHeap.congr {key' : α → K} (h : IsHeap key heap) (heq : ∀ x ∈ heap, key' x = key x) :
    IsHeap key' heap := by
  intro i hi x y hx hy
  rw [heq x (List.mem_of_getElem? hx), heq y (List.mem_of_getElem? hy)]
  exact h i hi x y hx hy

/-- Every edge is in order but perhaps the one above `pos`. -/
structure Rising (key : α → K) (heap : List α) (pos : ℕ) : Prop where
  edges : ∀ i, 0 < i → i ≠ pos → EdgeOrdered key heap i
  spans : Spans key heap pos

theorem Rising.isHeap {pos : ℕ} (h : Rising key heap pos)
    (hpos : 0 < pos → EdgeOrdered key heap pos) : IsHeap key heap := by
  intro i hi
  by_cases hip : i = pos
  · subst hip
    exact hpos hi
  · exact h.edges i hi hip

theorem Rising.step {item parent : α} {pos : ℕ} (hpos : pos ≠ 0) (hlength : pos < heap.length)
    (h : Rising key (heap.set pos item) pos) (hparent : heap[(pos - 1) / 2]? = some parent)
    (hlt : key item < key parent) :
    Rising key ((heap.set pos parent).set ((pos - 1) / 2) item) ((pos - 1) / 2) := by
  have hne : pos ≠ (pos - 1) / 2 := by omega
  have hold (i : ℕ) (hi : i ≠ pos) : (heap.set pos item)[i]? = heap[i]? :=
    List.getElem?_set_ne hi.symm
  have hnew (i : ℕ) : ((heap.set pos parent).set ((pos - 1) / 2) item)[i]? =
      if i = (pos - 1) / 2 then some item else if i = pos then some parent else heap[i]? := by
    simp only [List.getElem?_set, List.length_set]
    split_ifs <;> first | rfl | omega
  refine ⟨fun i hi hip x y hx hy ↦ ?_, fun c x y hpp hc hcp hx hy ↦ ?_⟩
  · rw [hnew] at hx hy
    rw [if_neg hip] at hx
    by_cases hipos : i = pos
    · subst hipos
      rw [if_pos rfl] at hx hy
      rw [← Option.some.inj hx, ← Option.some.inj hy]
      exact hlt.le
    · rw [if_neg hipos] at hx
      have hxold := (hold i hipos).trans hx
      have hpar := (hold ((pos - 1) / 2) hne.symm).trans hparent
      by_cases hsibling : (i - 1) / 2 = (pos - 1) / 2
      · rw [if_pos hsibling] at hy
        rw [← Option.some.inj hy]
        exact hlt.le.trans (h.edges i hi hipos x parent hxold (hsibling ▸ hpar))
      · rw [if_neg hsibling] at hy
        by_cases hchild : (i - 1) / 2 = pos
        · rw [if_pos hchild] at hy
          rw [← Option.some.inj hy]
          exact h.spans i x parent (by omega) hi hchild hxold hpar
        · rw [if_neg hchild] at hy
          exact h.edges i hi hipos x y hxold ((hold _ hchild).trans hy)
  · rw [hnew] at hx hy
    rw [if_neg (by omega)] at hx
    rw [if_neg (by omega), if_neg (by omega)] at hy
    have hpar := (hold ((pos - 1) / 2) hne.symm).trans hparent
    have habove : key y ≤ key parent :=
      h.edges _ hpp hne.symm parent y hpar ((hold _ (by omega)).trans hy)
    by_cases hcpos : c = pos
    · rw [if_pos hcpos] at hx
      rwa [← Option.some.inj hx]
    · rw [if_neg hcpos] at hx
      exact habove.trans (h.edges c hc hcpos x parent ((hold c hcpos).trans hx) (hcp ▸ hpar))

theorem siftdown_isHeap {item : α} (fuel : ℕ) {pos : ℕ} (hfuel : pos ≤ fuel)
    (hpos : pos < heap.length) (h : Rising key (heap.set pos item) pos) :
    IsHeap key (siftdown (keyLt key) item fuel heap pos) := by
  induction fuel generalizing heap pos with
  | zero =>
    obtain rfl : pos = 0 := by omega
    exact h.isHeap fun hlt ↦ absurd hlt (Nat.lt_irrefl 0)
  | succ fuel ih =>
    unfold siftdown
    split
    · next hzero => exact h.isHeap fun hlt ↦ absurd hlt (by omega)
    · next hne =>
      split
      · next hnone =>
        rw [List.getElem?_eq_none_iff] at hnone
        omega
      · next parent hparent =>
        split
        · next hlt =>
          refine ih (by omega) ?_ (h.step hne hpos hparent (by simpa [keyLt] using hlt))
          rw [List.length_set]
          omega
        · next hge =>
          refine h.isHeap fun _ x y hx hy ↦ ?_
          rw [List.getElem?_set_self hpos] at hx
          rw [List.getElem?_set_ne (by omega), hparent] at hy
          rw [← Option.some.inj hx, ← Option.some.inj hy]
          simpa [keyLt] using hge

/-- Every edge is in order that does not touch the hole at `pos`. -/
structure Sinking (key : α → K) (heap : List α) (pos : ℕ) : Prop where
  edges : ∀ i, 0 < i → i ≠ pos → (i - 1) / 2 ≠ pos → EdgeOrdered key heap i
  spans : Spans key heap pos

theorem Sinking.step {child : α} {pos c : ℕ} (h : Sinking key heap pos) (hc : 0 < c)
    (hparent : (c - 1) / 2 = pos) (hchild : heap[c]? = some child)
    (hleast : ∀ i x, 0 < i → (i - 1) / 2 = pos → heap[i]? = some x → key child ≤ key x) :
    Sinking key (heap.set pos child) c := by
  have hne : c ≠ pos := by omega
  have hpos : pos < heap.length := by
    have := (List.getElem?_eq_some_iff.mp hchild).1
    omega
  have hother (i : ℕ) (hi : i ≠ pos) : (heap.set pos child)[i]? = heap[i]? :=
    List.getElem?_set_ne hi.symm
  refine ⟨fun i hi hic hpc x y hx hy ↦ ?_, fun d x y _ hd hdc hx hy ↦ ?_⟩
  · by_cases hip : i = pos
    · subst hip
      rw [List.getElem?_set_self hpos] at hx
      rw [hother _ (by omega)] at hy
      rw [← Option.some.inj hx]
      exact h.spans c child y hi hc hparent hchild hy
    · rw [hother i hip] at hx
      by_cases hipar : (i - 1) / 2 = pos
      · rw [hipar, List.getElem?_set_self hpos] at hy
        rw [← Option.some.inj hy]
        exact hleast i x hi hipar hx
      · rw [hother _ hipar] at hy
        exact h.edges i hi hip hipar x y hx hy
  · rw [hparent, List.getElem?_set_self hpos] at hy
    rw [hother d (by omega)] at hx
    rw [← Option.some.inj hy]
    exact h.edges d hd (by omega) (by omega) x child hx (hdc ▸ hchild)

theorem Sinking.rising {pos : ℕ} (h : Sinking key heap pos) (hleaf : heap[2 * pos + 1]? = none)
    (item : α) : Rising key (heap.set pos item) pos := by
  rw [List.getElem?_eq_none_iff] at hleaf
  refine ⟨fun i hi hip x y hx hy ↦ ?_, fun c x y _ hc hcp hx _ ↦ ?_⟩
  · have hlength := (List.getElem?_eq_some_iff.mp hx).1
    rw [List.length_set] at hlength
    rw [List.getElem?_set_ne (Ne.symm hip)] at hx
    rw [List.getElem?_set_ne (by omega)] at hy
    exact h.edges i hi hip (by omega) x y hx hy
  · have hlength := (List.getElem?_eq_some_iff.mp hx).1
    rw [List.length_set] at hlength
    omega

theorem siftleaf_rising (item : α) (fuel : ℕ) {pos : ℕ} (hfuel : heap.length ≤ pos + fuel)
    (h : Sinking key heap pos) :
    Rising key ((siftleaf (keyLt key) fuel heap pos).1.set (siftleaf (keyLt key) fuel heap pos).2
      item) (siftleaf (keyLt key) fuel heap pos).2 := by
  induction fuel generalizing heap pos with
  | zero => exact h.rising (List.getElem?_eq_none_iff.mpr (by omega)) item
  | succ fuel ih =>
    unfold siftleaf
    have hchildren (i : ℕ) (hi : 0 < i) (hip : (i - 1) / 2 = pos) :
        i = 2 * pos + 1 ∨ i = 2 * pos + 2 := by omega
    split
    · next hnone => exact h.rising hnone item
    · next left hleft hright =>
      refine ih (by rw [List.length_set]; omega) (h.step (by omega) (by omega) hleft ?_)
      intro i x hi hip hx
      rcases hchildren i hi hip with rfl | rfl
      · rw [Option.some.inj (hleft.symm.trans hx)]
      · rw [hright] at hx
        cases hx
    · next left right hleft hright =>
      split
      · next hlt =>
        refine ih (by rw [List.length_set]; omega) (h.step (by omega) (by omega) hleft ?_)
        intro i x hi hip hx
        rcases hchildren i hi hip with rfl | rfl
        · rw [Option.some.inj (hleft.symm.trans hx)]
        · rw [← Option.some.inj (hright.symm.trans hx)]
          exact le_of_lt (by simpa [keyLt] using hlt)
      · next hge =>
        refine ih (by rw [List.length_set]; omega) (h.step (by omega) (by omega) hright ?_)
        intro i x hi hip hx
        rcases hchildren i hi hip with rfl | rfl
        · rw [← Option.some.inj (hleft.symm.trans hx)]
          simpa [keyLt] using hge
        · rw [Option.some.inj (hright.symm.trans hx)]

theorem heappush_isHeap (h : IsHeap key heap) (item : α) :
    IsHeap key (heappush (keyLt key) heap item) := by
  have hpos : heap.length < (heap ++ [item]).length := by simp
  apply siftdown_isHeap heap.length (Nat.le_refl _) hpos
  have hset : (heap ++ [item]).set heap.length item = heap ++ [item] := by simp
  rw [hset]
  refine ⟨fun i hi hip x y hx hy ↦ ?_, fun c x y _ hc hcp hx _ ↦ ?_⟩
  · have hlength := (List.getElem?_eq_some_iff.mp hx).1
    rw [List.length_append, List.length_singleton] at hlength
    rw [List.getElem?_append_left (by omega)] at hx hy
    exact h i hi x y hx hy
  · have hlength := (List.getElem?_eq_some_iff.mp hx).1
    rw [List.length_append, List.length_singleton] at hlength
    omega

theorem heappop_isHeap {item : α} {left : List α} (h : IsHeap key heap)
    (hpop : heappop (keyLt key) heap = some (item, left)) : IsHeap key left := by
  unfold heappop at hpop
  split at hpop
  · cases hpop
  · next lastelt hlast =>
    split at hpop
    · obtain ⟨-, rfl⟩ := Prod.mk.inj (Option.some.inj hpop)
      exact isHeap_nil
    · next returnitem rest hrest =>
      obtain ⟨-, rfl⟩ := Prod.mk.inj (Option.some.inj hpop)
      have hsink : Sinking key (lastelt :: rest) 0 := by
        refine ⟨fun i hi _ hpar x y hx hy ↦ ?_, fun c x y hlt ↦ absurd hlt (Nat.lt_irrefl 0)⟩
        have hold (j : ℕ) (hj : 0 < j) (z : α) (hz : (lastelt :: rest)[j]? = some z) :
            heap[j]? = some z := by
          obtain ⟨k, rfl⟩ : ∃ k, j = k + 1 := ⟨j - 1, by omega⟩
          have hdrop : heap.dropLast[k + 1]? = some z := by rwa [hrest]
          have hk := (List.getElem?_eq_some_iff.mp hdrop).1
          rw [List.length_dropLast] at hk
          rwa [List.getElem?_dropLast, if_pos (by omega)] at hdrop
        exact h i hi x y (hold i hi x hx) (hold _ (by omega) y hy)
      have hroot : 0 < (lastelt :: rest).length := by simp
      have hspec := siftleaf_spec (keyLt key) (lastelt :: rest).length hroot
      have hlength : (siftleaf (keyLt key) (lastelt :: rest).length (lastelt :: rest) 0).1.length =
          (lastelt :: rest).length := by
        simpa using (hspec.2 lastelt).length_eq
      apply siftdown_isHeap
      · exact Nat.le_of_lt (Nat.lt_of_lt_of_eq hspec.1 hlength)
      · exact hspec.1
      · exact siftleaf_rising lastelt _ (by simp) hsink

end Order

end Liota.Python.Heapq
