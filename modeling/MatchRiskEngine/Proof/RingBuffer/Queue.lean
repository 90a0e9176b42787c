import Mathlib.Data.List.Induction
import MatchRiskEngine.Framework.Actors
import MatchRiskEngine.Spec.SharedMemory

/-!
# The invariant of the ring buffers

What holds of a queue under every interleaving, for both kinds of queue: their
full test is a parameter (`FullTest`).

* `ConsumerInv`: a consumer has popped the first items pushed, the slots still
  hold the items after them, and the producer's view of its cursor is not ahead
  of it;
* `Inv`: the same for all consumers, and no slot the producer has claimed is
  `cap` ahead of one of its views;
* `step_inv`, `run_inv`: every step keeps the invariant.
-/

namespace MRE.Proof.RingBuffer

open MRE.RingBuffer MRE.Ring

variable {α : Type} {cap : UInt64} {tailOf : List UInt64 → UInt64} {q : Queue α}

/-- The items in the slots: those pushed, and one whose push is not over. -/
def written (q : Queue α) : List α :=
  match q.pc with
  | .store item => q.pushed ++ [item]
  | _ => q.pushed

/-- How many slots the producer has claimed so far. -/
def claimed (q : Queue α) : Nat :=
  match q.pc with
  | .write _ | .store _ => q.pushed.length + 1
  | _ => q.pushed.length

structure ConsumerInv (cap : Nat) (slots : List (Option α)) (written pushed : List α) (view : Nat) (c : Consumer α) :
    Prop where
  tailStores : c.tailStores = cursor c.popped.length
  cachedTail : c.cachedTail = UInt64.ofNat c.popped.length
  view_le : view ≤ c.popped.length
  popped_le : c.popped.length ≤ c.headView
  headView_le : c.headView ≤ pushed.length
  popped : c.popped <+: pushed
  intact : Intact slots cap written c.popped.length
  busy : c.pc ≠ .idle → c.popped.length < c.headView
  store (x : α) : c.pc = .store x → pushed[c.popped.length]? = some x
  fault : c.fault = false

structure Inv (cap : UInt64) (q : Queue α) : Prop where
  slots : q.slots.length = cap.toNat
  headStores : q.headStores = cursor q.pushed.length
  cachedHead : q.cachedHead = UInt64.ofNat q.pushed.length
  views : q.tailViews.length = q.consumers.length
  room : ∀ v ∈ q.tailViews, claimed q ≤ v + cap.toNat
  seen (item : α) (seen : List UInt64) : q.pc = .loading item seen →
    seen = (q.tailViews.take seen.length).map UInt64.ofNat
  consumers (i v : Nat) (c : Consumer α) : q.tailViews[i]? = some v → q.consumers[i]? = some c →
    ConsumerInv cap.toNat q.slots (written q) q.pushed v c

/-- The test of `try_push` tells exactly if some view is `cap` behind. -/
def FullTest (tailOf : List UInt64 → UInt64) (cap : UInt64) (views : List Nat) (head : Nat) : Prop :=
  (∀ v ∈ views, v ≤ head ∧ head ≤ v + cap.toNat) →
    (UInt64.ofNat head - tailOf (views.map UInt64.ofNat) = cap ↔ ∃ v ∈ views, head = v + cap.toNat)

/-! ## A consumer while the producer goes on -/

theorem ConsumerInv.mono {slots slots' : List (Option α)} {w w' pushed pushed' : List α} {cap v v' : Nat} {c : Consumer α}
    (h : ConsumerInv cap slots w pushed v c) (hv : v' ≤ c.popped.length) (hpushed : pushed <+: pushed')
    (hintact : Intact slots' cap w' c.popped.length) : ConsumerInv cap slots' w' pushed' v' c where
  tailStores := h.tailStores
  cachedTail := h.cachedTail
  view_le := hv
  popped_le := h.popped_le
  headView_le := Nat.le_trans h.headView_le hpushed.length_le
  popped := h.popped.trans hpushed
  intact := hintact
  busy := h.busy
  store x hx := by
    have hlt := h.busy (by rw [hx]; intro hidle; cases hidle)
    have hle := h.headView_le
    rw [List.prefix_iff_getElem?.mp hpushed _ (by omega), ← h.store x hx, List.getElem?_eq_getElem (by omega)]
  fault := h.fault

namespace Inv

theorem exists_view (h : Inv cap q) {i : Nat} {c : Consumer α} (hc : q.consumers[i]? = some c) :
    ∃ v, q.tailViews[i]? = some v := by
  obtain ⟨hlt, -⟩ := List.getElem?_eq_some_iff.mp hc
  exact ⟨_, List.getElem?_eq_getElem (h.views ▸ hlt)⟩

theorem exists_consumer (h : Inv cap q) {i v : Nat} (hv : q.tailViews[i]? = some v) :
    ∃ c, q.consumers[i]? = some c := by
  obtain ⟨hlt, -⟩ := List.getElem?_eq_some_iff.mp hv
  exact ⟨_, List.getElem?_eq_getElem (h.views ▸ hlt)⟩

theorem pushed_le_claimed (q : Queue α) : q.pushed.length ≤ claimed q := by
  rw [claimed]
  split <;> omega

/-- A view is behind the producer, by no more than the capacity. -/
theorem view_bounds (h : Inv cap q) {v : Nat} (hv : v ∈ q.tailViews) :
    v ≤ q.pushed.length ∧ q.pushed.length ≤ v + cap.toNat := by
  obtain ⟨i, hi⟩ := List.mem_iff_getElem?.mp hv
  obtain ⟨c, hc⟩ := h.exists_consumer hi
  have hcons := h.consumers i v c hi hc
  have hle := hcons.view_le
  have hle' := hcons.popped_le
  have hle'' := hcons.headView_le
  have hroom := h.room v hv
  have hclaimed := pushed_le_claimed q
  omega

theorem in_flight_le (h : Inv cap q) {i : Nat} {c : Consumer α} (hc : q.consumers[i]? = some c) :
    q.pushed.length ≤ c.popped.length + cap.toNat := by
  obtain ⟨v, hv⟩ := h.exists_view hc
  have hle := (h.consumers i v c hv hc).view_le
  have hroom := (h.view_bounds (List.mem_of_getElem? hv)).2
  omega

end Inv

/-! ## The producer's steps -/

theorem push_inv (h : Inv cap q) (item : α) : Inv cap (q.step tailOf cap (.push item)) := by
  rw [Queue.step]
  split
  · rename_i hpc
    refine ⟨h.slots, h.headStores, h.cachedHead, h.views, fun v hv => ?_, fun item' seen hseen => ?_, fun i v c hv hc => ?_⟩
    · exact Nat.le_trans (Inv.pushed_le_claimed q) (h.room v hv)
    · cases hseen
      rfl
    · have hcons := h.consumers i v c hv hc
      rw [written, hpc] at hcons
      exact hcons
  · exact h

theorem loadTail_inv (h : Inv cap q) (view : Nat) : Inv cap (q.loadTail view) := by
  rw [Queue.loadTail]
  split
  case h_2 => exact h
  rename_i item seen hpc
  split
  case h_2 => exact h
  rename_i c last hc hlast
  split
  case h_2 => exact h
  rename_i tail htail
  split
  case isFalse => exact h
  rename_i hle
  have hcons := h.consumers _ last c hlast hc
  rw [hcons.tailStores] at htail
  obtain ⟨hview, rfl⟩ := getElem?_cursor htail
  have hlt : seen.length < q.tailViews.length := (List.getElem?_eq_some_iff.mp hlast).1
  refine ⟨h.slots, h.headStores, h.cachedHead, by rw [List.length_set, h.views], fun v hv => ?_, fun item' seen' hseen => ?_,
    fun i v c' hv hc' => ?_⟩
  · -- the new view is not older than the one before it
    have hclaimed := Inv.pushed_le_claimed q
    show q.pushed.length ≤ v + cap.toNat
    obtain hv | rfl := List.mem_or_eq_of_mem_set hv
    · have := h.room v hv
      omega
    · have := h.room last (List.mem_of_getElem? hlast)
      omega
  · cases hseen
    rw [List.length_append, List.length_singleton, List.take_add_one, List.take_set_of_le (Nat.le_refl _),
      List.getElem?_set_self hlt, List.map_append, ← h.seen item seen hpc]
    rfl
  · show ConsumerInv cap.toNat q.slots q.pushed q.pushed v c'
    by_cases hi : seen.length = i
    · subst hi
      rw [List.getElem?_set_self hlt] at hv
      cases hv
      rw [hc] at hc'
      cases hc'
      rw [written, hpc] at hcons
      exact hcons.mono hview (List.prefix_refl _) hcons.intact
    · rw [List.getElem?_set_ne hi] at hv
      have hother := h.consumers i v c' hv hc'
      rw [written, hpc] at hother
      exact hother

/-- With all cursors loaded, the test is about the views. -/
theorem seen_eq (h : Inv cap q) {item : α} {seen : List UInt64} (hpc : q.pc = .loading item seen)
    (hlen : seen.length = q.consumers.length) : seen = q.tailViews.map UInt64.ofNat := by
  have hseen := h.seen item seen hpc
  rwa [hlen, ← h.views, List.take_length] at hseen

theorem full_iff (h : Inv cap q) (hfull : FullTest tailOf cap q.tailViews q.pushed.length) {item : α}
    {seen : List UInt64} (hpc : q.pc = .loading item seen) (hlen : seen.length = q.consumers.length) :
    q.cachedHead - tailOf seen = cap ↔ ∃ v ∈ q.tailViews, q.pushed.length = v + cap.toNat := by
  rw [h.cachedHead, seen_eq h hpc hlen]
  exact hfull fun v hv => h.view_bounds hv

theorem check_inv (h : Inv cap q) (hfull : FullTest tailOf cap q.tailViews q.pushed.length) :
    Inv cap (q.check tailOf cap) := by
  rw [Queue.check]
  split
  case h_2 => exact h
  rename_i item seen hpc
  have hcons : ∀ (i v : Nat) (c : Consumer α), q.tailViews[i]? = some v → q.consumers[i]? = some c →
      ConsumerInv cap.toNat q.slots q.pushed q.pushed v c := by
    intro i v c hv hc
    have := h.consumers i v c hv hc
    rwa [written, hpc] at this
  split
  case isFalse => exact h
  rename_i hlen
  split
  · exact ⟨h.slots, h.headStores, h.cachedHead, h.views, fun v hv => (h.view_bounds hv).2, fun _ _ hpc' => (by cases hpc'),
      hcons⟩
  · rename_i hne
    refine ⟨h.slots, h.headStores, h.cachedHead, h.views, fun v hv => ?_, fun _ _ hpc' => (by cases hpc'), hcons⟩
    show q.pushed.length + 1 ≤ v + cap.toNat
    have hne' : q.pushed.length ≠ v + cap.toNat := fun heq => hne ((full_iff h hfull hpc hlen).mpr ⟨v, hv, heq⟩)
    have := (h.view_bounds hv).2
    omega

theorem writeSlot_inv (hcap : IsPowerOfTwo cap) (h : Inv cap q) : Inv cap (q.writeSlot cap) := by
  rw [Queue.writeSlot]
  split
  case h_2 => exact h
  rename_i item hpc
  have hmask : mask cap q.cachedHead = q.pushed.length % cap.toNat := by
    rw [mask, h.cachedHead, toNat_and_mask hcap]
  have hroom : ∀ v ∈ q.tailViews, q.pushed.length + 1 ≤ v + cap.toNat := by
    intro v hv
    have := h.room v hv
    rwa [claimed, hpc] at this
  refine ⟨by rw [List.length_set, h.slots], h.headStores, h.cachedHead, h.views, hroom, fun _ _ hpc' => (by cases hpc'),
    fun i v c hv hc => ?_⟩
  have hcons := h.consumers i v c hv hc
  rw [written, hpc] at hcons
  have hlt : q.pushed.length < c.popped.length + cap.toNat := by
    have := hroom v (List.mem_of_getElem? hv)
    have := hcons.view_le
    omega
  refine hcons.mono hcons.view_le (List.prefix_refl _) ?_
  rw [hmask]
  exact hcons.intact.write h.slots hlt item

theorem storeHead_inv (h : Inv cap q) : Inv cap q.storeHead := by
  rw [Queue.storeHead]
  split
  case h_2 => exact h
  rename_i item hpc
  have hlen : (q.pushed ++ [item]).length = q.pushed.length + 1 := by
    rw [List.length_append, List.length_singleton]
  refine ⟨h.slots, ?_, ?_, h.views, fun v hv => ?_, fun _ _ hpc' => (by cases hpc'), fun i v c hv hc => ?_⟩
  · show q.headStores ++ [q.cachedHead + 1] = cursor (q.pushed ++ [item]).length
    rw [hlen, cursor_succ, h.headStores, h.cachedHead, ofNat_succ]
  · show q.cachedHead + 1 = UInt64.ofNat (q.pushed ++ [item]).length
    rw [hlen, h.cachedHead, ofNat_succ]
  · have hroom := h.room v hv
    rw [claimed, hpc] at hroom
    show (q.pushed ++ [item]).length ≤ v + cap.toNat
    rwa [hlen]
  · have hcons := h.consumers i v c hv hc
    rw [written, hpc] at hcons
    exact hcons.mono hcons.view_le (List.prefix_append _ _) hcons.intact

/-! ## The consumers' steps -/

theorem modify_inv (h : Inv cap q) (i : Nat) {f : Consumer α → Consumer α}
    (hf : ∀ v c, ConsumerInv cap.toNat q.slots (written q) q.pushed v c → q.pushed.length ≤ v + cap.toNat →
      ConsumerInv cap.toNat q.slots (written q) q.pushed v (f c)) :
    Inv cap { q with consumers := q.consumers.modify i f } := by
  refine ⟨h.slots, h.headStores, h.cachedHead, ?_, h.room, h.seen, fun j v c hv hc => ?_⟩
  · rw [List.length_modify, h.views]
  · rw [List.getElem?_modify] at hc
    obtain ⟨c₀, hc₀, rfl⟩ := Option.map_eq_some_iff.mp hc
    have hcons := h.consumers j v c₀ hv hc₀
    split
    · exact hf v c₀ hcons (h.view_bounds (List.mem_of_getElem? hv)).2
    · exact hcons

variable {slots : List (Option α)} {w pushed : List α} {v : Nat} {c : Consumer α}

theorem loadHead_inv (hcap : IsPowerOfTwo cap) (h : ConsumerInv cap.toNat slots w pushed v c)
    (hroom : pushed.length ≤ v + cap.toNat) (view : Nat) :
    ConsumerInv cap.toNat slots w pushed v (c.loadHead (cursor pushed.length) view) := by
  rw [Consumer.loadHead]
  split
  case h_2 => exact h
  rename_i head hpc hhead
  obtain ⟨hview, rfl⟩ := getElem?_cursor hhead
  split
  case isFalse => exact h
  rename_i hle
  have hpopped : c.popped.length ≤ view := Nat.le_trans h.popped_le hle
  split
  · exact ⟨h.tailStores, h.cachedTail, h.view_le, hpopped, hview, h.popped, h.intact, fun hne => absurd hpc hne, h.store,
      h.fault⟩
  · rename_i hne
    refine ⟨h.tailStores, h.cachedTail, h.view_le, hpopped, hview, h.popped, h.intact, fun _ => ?_, fun x hx => ?_,
      h.fault⟩
    · have hlt : view < c.popped.length + 2 ^ 64 := by
        have := hcap.le
        have := h.view_le
        omega
      have hne' : view ≠ c.popped.length := by
        rwa [h.cachedTail, ofNat_eq_iff hpopped hlt] at hne
      show c.popped.length < view
      omega
    · cases hx

/-- The slot a consumer reads holds the item it is to get. -/
theorem slot_eq (hcap : IsPowerOfTwo cap) (h : ConsumerInv cap.toNat slots w pushed v c) (hw : pushed <+: w)
    (hpc : c.pc ≠ .idle) :
    ∃ x, pushed[c.popped.length]? = some x ∧ slots[mask cap c.cachedTail]? = some (some x) := by
  have hlt : c.popped.length < pushed.length := Nat.lt_of_lt_of_le (h.busy hpc) h.headView_le
  refine ⟨pushed[c.popped.length], List.getElem?_eq_getElem hlt, ?_⟩
  rw [mask, h.cachedTail, toNat_and_mask hcap,
    h.intact _ (Nat.le_refl _) (Nat.lt_of_lt_of_le hlt hw.length_le), List.prefix_iff_getElem?.mp hw _ hlt]

theorem readSlot_inv (hcap : IsPowerOfTwo cap) (h : ConsumerInv cap.toNat slots w pushed v c) (hw : pushed <+: w) :
    ConsumerInv cap.toNat slots w pushed v (c.readSlot cap slots) := by
  rw [Consumer.readSlot]
  split
  case h_2 => exact h
  rename_i hpc
  have hbusy : c.pc ≠ .idle := by
    rw [hpc]
    intro hidle
    cases hidle
  obtain ⟨x, hx, hslot⟩ := slot_eq hcap h hw hbusy
  rw [hslot]
  refine ⟨h.tailStores, h.cachedTail, h.view_le, h.popped_le, h.headView_le, h.popped, h.intact, fun _ => h.busy hbusy,
    fun y hy => ?_, h.fault⟩
  cases hy
  exact hx

theorem storeTail_inv (h : ConsumerInv cap.toNat slots w pushed v c) :
    ConsumerInv cap.toNat slots w pushed v c.storeTail := by
  rw [Consumer.storeTail]
  split
  case h_2 => exact h
  rename_i item hpc
  have hlen : (c.popped ++ [item]).length = c.popped.length + 1 := by
    rw [List.length_append, List.length_singleton]
  have hlt : c.popped.length < c.headView := by
    refine h.busy ?_
    rw [hpc]
    intro hidle
    cases hidle
  have hitem := h.store item hpc
  refine ⟨?_, ?_, ?_, ?_, h.headView_le, ?_, ?_, fun hne => absurd rfl hne, fun x hx => ?_, h.fault⟩
  · show c.tailStores ++ [c.cachedTail + 1] = cursor (c.popped ++ [item]).length
    rw [hlen, cursor_succ, h.tailStores, h.cachedTail, ofNat_succ]
  · show c.cachedTail + 1 = UInt64.ofNat (c.popped ++ [item]).length
    rw [hlen, h.cachedTail, ofNat_succ]
  · show v ≤ (c.popped ++ [item]).length
    have := h.view_le
    omega
  · show (c.popped ++ [item]).length ≤ c.headView
    omega
  · show c.popped ++ [item] <+: pushed
    obtain ⟨rest, rfl⟩ := h.popped
    rw [List.getElem?_append_right (Nat.le_refl _), Nat.sub_self] at hitem
    cases rest with
    | nil => cases hitem
    | cons y rest =>
      cases hitem
      exact ⟨rest, by rw [List.append_assoc, List.singleton_append]⟩
  · exact h.intact.mono (by rw [hlen]; omega)
  · cases hx

/-! ## What a step does to the histories -/

/-- What a consumer's step does to the items popped. -/
def PopsNext (f : Consumer α → Consumer α) : Prop :=
  ∀ c, (f c).popped = c.popped ∨ ∃ x, c.pc = .store x ∧ (f c).popped = c.popped ++ [x]

theorem popsNext_loadHead (headStores : List UInt64) (view : Nat) :
    PopsNext (fun c : Consumer α => c.loadHead headStores view) := by
  intro c
  simp only [Consumer.loadHead]
  repeat' split
  all_goals exact Or.inl rfl

theorem popsNext_readSlot (cap : UInt64) (slots : List (Option α)) : PopsNext (Consumer.readSlot cap slots) := by
  intro c
  rw [Consumer.readSlot]
  repeat' split
  all_goals exact Or.inl rfl

theorem popsNext_storeTail : PopsNext (fun c : Consumer α => c.storeTail) := by
  intro c
  simp only [Consumer.storeTail]
  split
  · rename_i x hpc
    exact Or.inr ⟨x, hpc, rfl⟩
  · exact Or.inl rfl

/-- What a step does to the histories. -/
inductive Effect (tailOf : List UInt64 → UInt64) (cap : UInt64) (q q' : Queue α) : Prop where
  | quiet (pushed : q'.pushed = q.pushed) (results : q'.results = q.results) (consumers : q'.consumers = q.consumers)
  | pushed {item : α} (pc : q.pc = .store item) (eq : q' = q.storeHead)
  | refused {item : α} {seen : List UInt64} (pc : q.pc = .loading item seen) (loaded : seen.length = q.consumers.length)
      (full : q.cachedHead - tailOf seen = cap)
      (eq : q' = { q with pc := .idle, results := q.results ++ [(item, .error item)] })
  | consumer (i : Nat) {f : Consumer α → Consumer α} (pops : PopsNext f)
      (eq : q' = { q with consumers := q.consumers.modify i f })

theorem step_effect (tailOf : List UInt64 → UInt64) (cap : UInt64) (q : Queue α) (a : RingBuffer.Action α) :
    Effect tailOf cap q (q.step tailOf cap a) := by
  cases a with
  | push item =>
    rw [Queue.step]
    split <;> exact .quiet rfl rfl rfl
  | loadTail view =>
    rw [Queue.step, Queue.loadTail]
    repeat' split
    all_goals exact .quiet rfl rfl rfl
  | check =>
    rw [Queue.step, Queue.check]
    split
    case h_2 => exact .quiet rfl rfl rfl
    rename_i item seen hpc
    split
    case isFalse => exact .quiet rfl rfl rfl
    rename_i hlen
    split
    · rename_i hfull
      exact .refused hpc hlen hfull rfl
    · exact .quiet rfl rfl rfl
  | writeSlot =>
    rw [Queue.step, Queue.writeSlot]
    split <;> exact .quiet rfl rfl rfl
  | storeHead =>
    cases hpc : q.pc with
    | store item => exact .pushed hpc rfl
    | idle | loading _ _ | write _ =>
      rw [Queue.step, Queue.storeHead, hpc]
      exact .quiet rfl rfl rfl
  | loadHead i view => exact .consumer i (popsNext_loadHead _ _) rfl
  | readSlot i => exact .consumer i (popsNext_readSlot _ _) rfl
  | storeTail i => exact .consumer i popsNext_storeTail rfl

theorem storeHead_eq {item : α} (hpc : q.pc = .store item) :
    q.storeHead.pushed = q.pushed ++ [item] ∧ q.storeHead.results = q.results ++ [(item, .ok ())] ∧
      q.storeHead.consumers = q.consumers := by
  rw [Queue.storeHead, hpc]
  exact ⟨rfl, rfl, rfl⟩

theorem pushed_prefix_step (a : RingBuffer.Action α) : q.pushed <+: (q.step tailOf cap a).pushed := by
  cases step_effect tailOf cap q a with
  | quiet pushed results consumers => exact pushed ▸ List.prefix_refl _
  | pushed pc eq =>
    rw [eq, (storeHead_eq pc).1]
    exact List.prefix_append _ _
  | refused pc loaded full eq => exact eq ▸ List.prefix_refl _
  | consumer i pops eq => exact eq ▸ List.prefix_refl _

theorem okItems_concat (results : List (α × Except α Unit)) (r : α × Except α Unit) :
    okItems (results ++ [r]) = okItems results ++ if r.2.isOk then [r.1] else [] := by
  rw [okItems, okItems, List.filter_append, List.map_append, List.filter_singleton]
  cases r.2.isOk <;> rfl

theorem step_returnsItems (h : ReturnsItems q) (a : RingBuffer.Action α) : ReturnsItems (q.step tailOf cap a) := by
  cases step_effect tailOf cap q a with
  | quiet pushed results consumers => exact ⟨by rw [pushed, results, h.pushed], results ▸ h.error⟩
  | @pushed item pc eq =>
    obtain ⟨hpushed, hresults, -⟩ := storeHead_eq pc
    refine ⟨?_, fun r hr => ?_⟩
    · rw [eq, hpushed, hresults, okItems_concat, ← h.pushed]
      rfl
    · rw [eq, hresults, List.mem_append, List.mem_singleton] at hr
      obtain hr | rfl := hr
      · exact h.error r hr
      · exact Or.inl rfl
  | @refused item seen pc loaded full eq =>
    rw [eq]
    refine ⟨?_, fun r hr => ?_⟩
    · show q.pushed = okItems (q.results ++ [(item, .error item)])
      rw [okItems_concat, ← h.pushed]
      exact (List.append_nil _).symm
    · obtain hr | hr := List.mem_append.mp hr
      · exact h.error r hr
      · rw [List.mem_singleton.mp hr]
        exact Or.inr rfl
  | consumer i pops eq => exact eq ▸ ⟨h.pushed, h.error⟩

/-- A call that fails returns its item and leaves the contents. -/
theorem step_error {a : RingBuffer.Action α} {x y : α} (h : (q.step tailOf cap a).results = q.results ++ [(x, .error y)]) :
    y = x ∧ SameContents q (q.step tailOf cap a) ∧ ∃ seen, q.pc = .loading x seen ∧
      seen.length = q.consumers.length ∧ q.cachedHead - tailOf seen = cap := by
  have hne : (q.step tailOf cap a).results ≠ q.results := by
    rw [h]
    intro heq
    have := congrArg List.length heq
    rw [List.length_append, List.length_singleton] at this
    omega
  cases step_effect tailOf cap q a with
  | quiet pushed results consumers => exact absurd results hne
  | pushed pc eq =>
    rw [eq, (storeHead_eq pc).2.1, List.append_cancel_left_eq] at h
    cases h
  | @refused item seen pc loaded full eq =>
    rw [eq] at h ⊢
    have h' := List.append_cancel_left h
    cases h'
    exact ⟨rfl, ⟨rfl, rfl, rfl, rfl, rfl⟩, seen, pc, loaded, full⟩
  | consumer i pops eq => exact absurd (congrArg Queue.results eq) hne

/-! ## Runs -/

theorem length_tailViews_step (a : RingBuffer.Action α) : (q.step tailOf cap a).tailViews.length = q.tailViews.length := by
  cases a <;> rw [Queue.step]
  case push item => split <;> rfl
  case loadTail view =>
    rw [Queue.loadTail]
    repeat' split
    all_goals first | rfl | exact List.length_set
  case check =>
    rw [Queue.check]
    repeat' split
    all_goals rfl
  case writeSlot =>
    rw [Queue.writeSlot]
    split <;> rfl
  case storeHead =>
    rw [Queue.storeHead]
    split <;> rfl

theorem pushed_prefix_written (q : Queue α) : q.pushed <+: written q := by
  rw [written]
  split
  · exact List.prefix_append _ _
  · exact List.prefix_refl _

theorem step_inv (hcap : IsPowerOfTwo cap) (h : Inv cap q)
    (hfull : FullTest tailOf cap q.tailViews q.pushed.length) (a : RingBuffer.Action α) : Inv cap (q.step tailOf cap a) := by
  cases a with
  | push item => exact push_inv h item
  | loadTail view => exact loadTail_inv h view
  | check => exact check_inv h hfull
  | writeSlot => exact writeSlot_inv hcap h
  | storeHead => exact storeHead_inv h
  | loadHead i view =>
    refine modify_inv h i fun v c hc hroom => ?_
    rw [h.headStores]
    exact loadHead_inv hcap hc hroom view
  | readSlot i => exact modify_inv h i fun v c hc _ => readSlot_inv hcap hc (pushed_prefix_written q)
  | storeTail i => exact modify_inv h i fun v c hc _ => storeTail_inv hc

theorem Inv.delivers (hcap : IsPowerOfTwo cap) (h : Inv cap q) {i : Nat} {c : Consumer α}
    (hc : q.consumers[i]? = some c) : DeliversInOrder cap q c := by
  obtain ⟨v, hv⟩ := h.exists_view hc
  have hcons := h.consumers i v c hv hc
  have hintact : Intact q.slots cap.toNat q.pushed c.popped.length := by
    obtain ⟨rest, hrest⟩ := pushed_prefix_written q
    exact (hrest ▸ hcons.intact).of_append
  refine ⟨hcons.popped, h.in_flight_le hc, hintact, hcons.fault, fun item hpc hread => ?_⟩
  have hlt : c.popped.length < c.headView := hcons.busy (by rw [hread]; intro hidle; cases hidle)
  have hle := hcons.headView_le
  have hroom : q.pushed.length + 1 ≤ v + cap.toNat := by
    have := h.room v (List.mem_of_getElem? hv)
    rwa [claimed, hpc] at this
  have hview := hcons.view_le
  rw [mask, mask, h.cachedHead, hcons.cachedTail, toNat_and_mask hcap, toNat_and_mask hcap]
  exact (mod_ne_of_lt (by omega) (by omega)).symm

/-- A whole run keeps the invariant if the full test tells the truth in each
state it passes through. -/
theorem run_inv (hcap : IsPowerOfTwo cap) (h : Inv cap q) (actions : List (RingBuffer.Action α))
    (hfull : ∀ pre, pre <+: actions →
      FullTest tailOf cap (q.run tailOf cap pre).tailViews (q.run tailOf cap pre).pushed.length) :
    Inv cap (q.run tailOf cap actions) := by
  induction actions using List.reverseRecOn with
  | nil => exact h
  | append_singleton actions a ih =>
    have hrun : q.run tailOf cap (actions ++ [a]) = (q.run tailOf cap actions).step tailOf cap a := List.foldl_append
    rw [hrun]
    refine step_inv hcap (ih fun pre hpre => hfull pre (hpre.trans (List.prefix_append _ _))) ?_ a
    exact hfull actions (List.prefix_append _ _)

theorem run_returnsItems (h : ReturnsItems q) (actions : List (RingBuffer.Action α)) :
    ReturnsItems (q.run tailOf cap actions) :=
  foldl_inv (I := ReturnsItems) (fun _ a hq => step_returnsItems hq a) h actions

theorem length_tailViews_run (q : Queue α) (actions : List (RingBuffer.Action α)) :
    (q.run tailOf cap actions).tailViews.length = q.tailViews.length :=
  foldl_inv (I := fun q' : Queue α => q'.tailViews.length = q.tailViews.length)
    (fun _ a hq => (length_tailViews_step a).trans hq) rfl actions

theorem pushed_prefix_run (q : Queue α) (actions : List (RingBuffer.Action α)) :
    q.pushed <+: (q.run tailOf cap actions).pushed :=
  foldl_inv (I := fun q' : Queue α => q.pushed <+: q'.pushed)
    (fun _ a hq => hq.trans (pushed_prefix_step a)) (List.prefix_refl _) actions

theorem new_inv {n : Nat} (h : Queue.new cap n = some q) :
    IsPowerOfTwo cap ∧ Inv cap q ∧ ReturnsItems q ∧ q.tailViews.length = n := by
  rw [Queue.new] at h
  split at h
  case isFalse => cases h
  rename_i hcap
  cases h
  refine ⟨hcap, ?_, ⟨rfl, fun r hr => absurd hr List.not_mem_nil⟩, List.length_replicate⟩
  refine ⟨List.length_replicate, cursor_zero.symm, rfl, ?_, fun v hv => Nat.zero_le _, fun _ _ hpc => (by cases hpc),
    fun i v c hv hc => ?_⟩
  · rw [List.length_replicate, List.length_replicate]
  · obtain rfl : v = 0 := List.eq_of_mem_replicate (List.mem_of_getElem? hv)
    obtain rfl : c = Consumer.new := List.eq_of_mem_replicate (List.mem_of_getElem? hc)
    exact ⟨cursor_zero.symm, rfl, Nat.le_refl _, Nat.le_refl _, Nat.le_refl _, List.nil_prefix,
      fun j _ hj => absurd hj (Nat.not_lt_zero j), fun hne => absurd rfl hne, fun x hx => (by cases hx), rfl⟩

end MRE.Proof.RingBuffer
