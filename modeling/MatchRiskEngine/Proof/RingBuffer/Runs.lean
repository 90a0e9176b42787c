import MatchRiskEngine.Proof.RingBuffer.Queue

/-!
# Runs of the queues

With one consumer the full test compares two cursors at most `cap` apart, so
that it is right also after they have wrapped (`fullTest_tail`), and the queue
refines a bounded FIFO, over runs of any length (`spsc_run`). With several it
takes the least of the values loaded. As long as the cursors have not wrapped,
that is the cursor of the slowest consumer in the producer's view
(`fullTest_minTail`), and every consumer gets every item (`spmc_run`).
-/

namespace MRE.Proof.RingBuffer

open MRE.RingBuffer MRE.Ring

variable {α : Type} {cap : UInt64} {q : Queue α}

theorem fullTest_tail (cap : UInt64) {views : List Nat} (hviews : views.length = 1) (head : Nat) :
    FullTest Spsc.tail cap views head := by
  obtain ⟨v, rfl⟩ := List.length_eq_one_iff.mp hviews
  intro hbounds
  obtain ⟨hle, hcap⟩ := hbounds v List.mem_cons_self
  rw [List.map_singleton, Spsc.tail, List.headD_cons, ofNat_sub_eq_iff hle hcap]
  constructor
  · intro h
    exact ⟨v, List.mem_cons_self, h⟩
  · rintro ⟨v', hv', h⟩
    rw [List.mem_singleton.mp hv'] at h
    exact h

/-! ## The contents as a bounded queue -/

theorem contents_eq {c : Consumer α} (h : q.consumers = [c]) : Spsc.contents q = q.pushed.drop c.popped.length := by
  rw [Spsc.contents, h, List.headD_cons]

theorem drop_eq_cons {popped pushed : List α} {x : α} (h : popped ++ [x] <+: pushed) :
    pushed.drop popped.length = x :: pushed.drop (popped ++ [x]).length := by
  obtain ⟨rest, rfl⟩ := h
  rw [List.drop_left, List.append_assoc, List.drop_left, List.singleton_append]

theorem step_fifo (hcap : IsPowerOfTwo cap) (h : Inv cap q) {c : Consumer α} (hc : q.consumers = [c]) (a : RingBuffer.Action α)
    (hnext : Inv cap (q.step Spsc.tail cap a)) :
    Fifo.Step cap.toNat (Spsc.contents q) (Spsc.contents (q.step Spsc.tail cap a)) := by
  have hc0 : q.consumers[0]? = some c := by rw [hc]; rfl
  cases step_effect Spsc.tail cap q a with
  | quiet pushed results consumers =>
    rw [Spsc.contents, Spsc.contents, pushed, consumers]
    exact .stay _
  | @pushed item pc eq =>
    obtain ⟨hpushed, -, hcons⟩ := storeHead_eq pc
    have hle : c.popped.length ≤ q.pushed.length := (h.delivers hcap hc0).popped.length_le
    have hroom : (q.pushed ++ [item]).length ≤ c.popped.length + cap.toNat := by
      rw [← hpushed, ← eq]
      exact hnext.in_flight_le (i := 0) (by rw [eq, hcons, hc0])
    rw [List.length_append, List.length_singleton] at hroom
    rw [eq, contents_eq hc, contents_eq (hcons.trans hc), hpushed, List.drop_append_of_le_length hle]
    exact .push (by rw [List.length_drop]; omega) item
  | refused pc loaded full eq =>
    rw [eq]
    exact .stay _
  | @consumer i f pops eq =>
    have hc' : (q.step Spsc.tail cap a).consumers = [if i = 0 then f c else c] := by
      rw [eq]
      show q.consumers.modify i f = _
      rw [hc]
      cases i with
      | zero => rfl
      | succ i => rw [if_neg (Nat.succ_ne_zero i), List.modify_succ_cons, List.modify_nil]
    have hpushed : (q.step Spsc.tail cap a).pushed = q.pushed := by rw [eq]
    rw [contents_eq hc, contents_eq hc', hpushed]
    split
    · rename_i hi
      rw [if_pos hi] at hc'
      obtain hpop | ⟨x, -, hpop⟩ := pops c
      · rw [hpop]
        exact .stay _
      · have hprefix : c.popped ++ [x] <+: q.pushed := by
          rw [← hpop, ← hpushed]
          exact (hnext.delivers hcap (i := 0) (by rw [hc']; rfl)).popped
        rw [hpop, drop_eq_cons hprefix]
        exact .pop x _
    · exact .stay _

/-! ## Runs -/

theorem inv_run (hq : spscQueue cap = some q) (actions : List (RingBuffer.Action α)) :
    IsPowerOfTwo cap ∧ Inv cap (q.run Spsc.tail cap actions) ∧ ReturnsItems (q.run Spsc.tail cap actions) ∧
      ∃ c, (q.run Spsc.tail cap actions).consumers = [c] := by
  obtain ⟨hcap, hinv, hret, hlen⟩ := new_inv hq
  have hviews : ∀ actions : List (RingBuffer.Action α), (q.run Spsc.tail cap actions).tailViews.length = 1 :=
    fun actions => (length_tailViews_run q actions).trans hlen
  have hrun := run_inv hcap hinv actions fun pre _ => fullTest_tail cap (hviews pre) _
  exact ⟨hcap, hrun, run_returnsItems hret actions,
    List.length_eq_one_iff.mp (hrun.views.symm.trans (hviews actions))⟩

/-- In every state of every interleaving the consumer has got the first items
pushed and at most `cap` are in flight, the next step is one of a bounded FIFO,
and a push that fails returns its item and leaves the queue as it is. -/
theorem spsc_run (hq : spscQueue cap = some q) (actions : List (RingBuffer.Action α)) :
    ∃ c, (q.run Spsc.tail cap actions).consumers = [c] ∧ DeliversInOrder cap (q.run Spsc.tail cap actions) c ∧
      ReturnsItems (q.run Spsc.tail cap actions) ∧
      ∀ a, Fifo.Step cap.toNat (Spsc.contents (q.run Spsc.tail cap actions))
          (Spsc.contents ((q.run Spsc.tail cap actions).step Spsc.tail cap a)) ∧
        ∀ x y, ((q.run Spsc.tail cap actions).step Spsc.tail cap a).results =
            (q.run Spsc.tail cap actions).results ++ [(x, .error y)] →
          y = x ∧ SameContents (q.run Spsc.tail cap actions) ((q.run Spsc.tail cap actions).step Spsc.tail cap a) := by
  obtain ⟨hcap, hinv, hret, c, hc⟩ := inv_run hq actions
  refine ⟨c, hc, hinv.delivers hcap (i := 0) (by rw [hc]; rfl), hret, fun a => ⟨?_, fun x y hxy => ?_⟩⟩
  · have hnext := (inv_run hq (actions ++ [a])).2.1
    rw [Queue.run, List.foldl_append] at hnext
    exact step_fifo hcap hinv hc a hnext
  · obtain ⟨heq, hsame, -⟩ := step_error hxy
    exact ⟨heq, hsame⟩

/-- A queue of two slots. -/
def demoQueue (consumers : Nat) : Queue Nat :=
  { slots := [none, none], headStores := [0], cachedHead := 0, pc := .idle, tailViews := List.replicate consumers 0
    consumers := List.replicate consumers Consumer.new, pushed := [], results := [] }

theorem new_demoQueue (consumers : Nat) : Queue.new 2 consumers = some (demoQueue consumers) :=
  if_pos ⟨1, by decide, rfl⟩

/-- One item is pushed and popped, and a second is in its slot. -/
def demoActions : List (RingBuffer.Action Nat) :=
  [.push 5, .loadTail 0, .check, .writeSlot, .storeHead, .loadHead 0 1, .push 6, .loadTail 0, .check, .readSlot 0,
    .writeSlot, .storeTail 0, .storeHead]

theorem spsc_run_demo :
    ∃ c, ((demoQueue 1).run Spsc.tail 2 demoActions).consumers = [c] ∧ c.popped = [5] ∧
      ((demoQueue 1).run Spsc.tail 2 demoActions).pushed = [5, 6] ∧
      DeliversInOrder 2 ((demoQueue 1).run Spsc.tail 2 demoActions) c := by
  obtain ⟨c, hc, hdel, -⟩ := spsc_run (new_demoQueue 1) demoActions
  refine ⟨c, hc, ?_, rfl, hdel⟩
  have hpopped : ((demoQueue 1).run Spsc.tail 2 demoActions).consumers.map Consumer.popped = [[5]] := rfl
  rw [hc] at hpopped
  exact List.singleton_inj.mp hpopped

/-! ## Several consumers -/

theorem exists_min {views : List Nat} (h : views ≠ []) : ∃ m ∈ views, ∀ v ∈ views, m ≤ v := by
  obtain ⟨m, hm⟩ := Option.isSome_iff_exists.mp (List.isSome_min?_of_ne_nil h)
  exact ⟨m, List.min?_eq_some_iff.mp hm⟩

theorem fullTest_minTail (cap : UInt64) {views : List Nat} (hviews : views ≠ []) {head : Nat} (hhead : head < 2 ^ 64) :
    FullTest Spmc.minTail cap views head := by
  intro hbounds
  obtain ⟨m, hm, hmin⟩ := exists_min hviews
  obtain ⟨hle, hcap⟩ := hbounds m hm
  -- below `2^64` the values are ordered as the counts
  have hminTail : Spmc.minTail (views.map UInt64.ofNat) = UInt64.ofNat m := by
    have hmin? : (views.map UInt64.ofNat).min? = some (UInt64.ofNat m) := by
      refine List.min?_eq_some_iff.mpr ⟨List.mem_map_of_mem hm, fun b hb => ?_⟩
      obtain ⟨v, hv, rfl⟩ := List.mem_map.mp hb
      have hv' := (hbounds v hv).1
      rw [UInt64.le_iff_toNat_le, toNat_ofNat, toNat_ofNat, Nat.mod_eq_of_lt (by omega), Nat.mod_eq_of_lt (by omega)]
      exact hmin v hv
    rw [Spmc.minTail, hmin?, Option.getD_some]
  rw [hminTail, ofNat_sub_eq_iff hle hcap]
  constructor
  · intro h
    exact ⟨m, hm, h⟩
  · rintro ⟨v, hv, h⟩
    have := hmin v hv
    have := (hbounds v hv).2
    omega

/-- In every state of every interleaving with fewer than `2^64` items, each
consumer has got the first items pushed, those after them are in their slots,
and a push fails only if a consumer is `cap` items behind in the producer's
view. -/
theorem spmc_run {n : Nat} (hn : 1 ≤ n) (hq : spmcQueue cap n = some q) (actions : List (RingBuffer.Action α))
    (hlt : (q.run Spmc.minTail cap actions).pushed.length < 2 ^ 64) :
    (q.run Spmc.minTail cap actions).consumers.length = n ∧
      (∀ c ∈ (q.run Spmc.minTail cap actions).consumers, DeliversInOrder cap (q.run Spmc.minTail cap actions) c) ∧
      ReturnsItems (q.run Spmc.minTail cap actions) ∧
      ∀ a x y, ((q.run Spmc.minTail cap actions).step Spmc.minTail cap a).results =
          (q.run Spmc.minTail cap actions).results ++ [(x, .error y)] →
        y = x ∧ SameContents (q.run Spmc.minTail cap actions) ((q.run Spmc.minTail cap actions).step Spmc.minTail cap a) ∧
          ∃ i v : Nat, (q.run Spmc.minTail cap actions).tailViews[i]? = some v ∧
            (q.run Spmc.minTail cap actions).pushed.length = v + cap.toNat := by
  obtain ⟨hcap, hinv, hret, hlen⟩ := new_inv hq
  have hviews : ∀ actions : List (RingBuffer.Action α), (q.run Spmc.minTail cap actions).tailViews.length = n :=
    fun actions => (length_tailViews_run q actions).trans hlen
  have hfull : ∀ pre, pre <+: actions → FullTest Spmc.minTail cap (q.run Spmc.minTail cap pre).tailViews
      (q.run Spmc.minTail cap pre).pushed.length := by
    rintro pre ⟨rest, rfl⟩
    refine fullTest_minTail cap ?_ ?_
    · intro hnil
      have := hviews pre
      rw [hnil, List.length_nil] at this
      omega
    · rw [Queue.run, List.foldl_append] at hlt
      exact Nat.lt_of_le_of_lt (pushed_prefix_run _ rest).length_le hlt
  have hrun := run_inv hcap hinv actions hfull
  refine ⟨hrun.views.symm.trans (hviews actions), fun c hc => ?_, run_returnsItems hret actions, fun a x y hxy => ?_⟩
  · obtain ⟨i, hi⟩ := List.mem_iff_getElem?.mp hc
    exact hrun.delivers hcap hi
  · obtain ⟨heq, hsame, seen, hpc, hloaded, htest⟩ := step_error hxy
    refine ⟨heq, hsame, ?_⟩
    obtain ⟨v, hv, hbehind⟩ := (full_iff hrun (hfull actions (List.prefix_refl _)) hpc hloaded).mp htest
    obtain ⟨i, hi⟩ := List.mem_iff_getElem?.mp hv
    exact ⟨i, v, hi, hbehind⟩

/-- An item that one of two consumers has popped. -/
def demoBroadcast : List (RingBuffer.Action Nat) :=
  [.push 5, .loadTail 0, .loadTail 0, .check, .writeSlot, .storeHead, .loadHead 1 1, .readSlot 1, .storeTail 1]

theorem spmc_run_demo :
    ((demoQueue 2).run Spmc.minTail 2 demoBroadcast).consumers.map Consumer.popped = [[], [5]] ∧
      ∀ c ∈ ((demoQueue 2).run Spmc.minTail 2 demoBroadcast).consumers,
        DeliversInOrder 2 ((demoQueue 2).run Spmc.minTail 2 demoBroadcast) c :=
  ⟨rfl, (spmc_run (by decide) (new_demoQueue 2) demoBroadcast (by decide)).2.1⟩

end MRE.Proof.RingBuffer
