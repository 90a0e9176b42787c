import MatchRiskEngine.Framework.Actors
import MatchRiskEngine.Spec.SharedMemory

/-!
# Reads are not torn

The counter is twice the number of completed updates, and one more while an
update stores its fields (`Written`). A reader that finds the counter where it
loaded it has loaded all fields from one version of the state (`Loaded`), since
the counter never comes back to an earlier value before it wraps. So in every
interleaving of fewer than `2 ^ 63` updates each read returns the arguments of
one completed update, or the initial state, and no read returns an older one
than the reads before it (`run_versions`).
-/

namespace MRE.Seqlock

namespace Proof

variable {l : Lock} {r : Reader} {updates states : List AccountRiskState} {v : AccountRiskState} {k n : Nat}

/-! ## Copying field by field -/

/-- `dst`, with some fields of `src`. -/
def copyAll (fs : List Field) (src dst : AccountRiskState) : AccountRiskState := fs.foldl (fun d f => f.copy src d) dst

theorem copyAll_concat (fs : List Field) (f : Field) (src dst : AccountRiskState) :
    copyAll (fs ++ [f]) src dst = f.copy src (copyAll fs src dst) := by
  rw [copyAll, List.foldl_append]
  rfl

theorem copyAll_all (src dst : AccountRiskState) : copyAll Field.all src dst = src := rfl

/-! ## Versions -/

theorem version_append (h : k ≤ updates.length) (more : List AccountRiskState) :
    version (updates ++ more) k = version updates k := by
  rw [version, version, ← List.cons_append]
  exact List.getElem?_append_left (by rw [List.length_cons]; omega)

theorem version_length (updates : List AccountRiskState) (v : AccountRiskState) :
    version (updates ++ [v]) (updates.length + 1) = some v := by
  rw [version, ← List.cons_append]
  exact List.getElem?_concat_length ..

theorem InOrder.mono {n' : Nat} (h : InOrder updates states n) (hn : n ≤ n') : InOrder updates states n' := by
  obtain ⟨ks, hsorted, hle, hstates⟩ := h
  exact ⟨ks, hsorted, fun k hk => Nat.le_trans (hle k hk) hn, hstates⟩

theorem InOrder.append (h : InOrder updates states n) (hn : n ≤ updates.length) (more : List AccountRiskState) :
    InOrder (updates ++ more) states n := by
  obtain ⟨ks, hsorted, hle, hstates⟩ := h
  refine ⟨ks, hsorted, hle, hstates.trans (List.map_congr_left fun k hk => ?_)⟩
  exact (version_append (Nat.le_trans (hle k hk) hn) more).symm

theorem InOrder.concat (h : InOrder updates states n) (hv : version updates n = some v) :
    InOrder updates (states ++ [v]) n := by
  obtain ⟨ks, hsorted, hle, hstates⟩ := h
  refine ⟨ks ++ [n], ?_, ?_, ?_⟩
  · refine List.pairwise_append.mpr ⟨hsorted, List.pairwise_singleton _ _, fun k hk m hm => ?_⟩
    rw [List.mem_singleton.mp hm]
    exact hle k hk
  · intro k hk
    rcases List.mem_append.mp hk with hk | hk
    · exact hle k hk
    · exact Nat.le_of_eq (List.mem_singleton.mp hk)
  · rw [List.map_append, List.map_append, hstates, List.map_singleton, List.map_singleton, hv]

/-! ## The invariant -/

/-- The counter after `k` updates. -/
def counter (k : Nat) : UInt64 := UInt64.ofNat (2 * k)

/-- What the writer has stored. -/
def Written (l : Lock) : Prop :=
  match l.writer with
  | .idle => l.seq = counter l.updates.length ∧ version l.updates l.updates.length = some l.state
  | .loaded seq _ => seq = l.seq ∧ l.seq = counter l.updates.length ∧
      version l.updates l.updates.length = some l.state
  | .storing seq args todo => seq = counter l.updates.length ∧ l.seq = seq + 1 ∧
      ∃ (done : List Field) (old : AccountRiskState), done ++ todo = Field.all ∧ l.state = copyAll done args old

/-- What a reader has loaded, if the counter is where it was. -/
def Loaded (l : Lock) (r : Reader) : Prop :=
  match r.pc with
  | .start => InOrder l.updates r.returned l.updates.length
  | .loading seq1 loaded todo => ∃ k ≤ l.updates.length, seq1 = counter k ∧ InOrder l.updates r.returned k ∧
      (l.seq = seq1 → ∃ (done : List Field) (v dst : AccountRiskState), done ++ todo = Field.all ∧
        version l.updates k = some v ∧ loaded = copyAll done v dst)

structure Inv (l : Lock) : Prop where
  written : Written l
  loaded (i : Nat) (r : Reader) : l.readers[i]? = some r → Loaded l r

theorem toNat_counter (h : k < 2 ^ 63) : (counter k).toNat = 2 * k :=
  UInt64.toNat_ofNat_of_lt' (show 2 * k < 2 ^ 64 by omega)

theorem counter_succ (k : Nat) : counter k + 2 = counter (k + 1) := by
  rw [counter, counter, Nat.mul_add, UInt64.ofNat_add]
  rfl

/-- The counter of an update under way is no earlier one. -/
theorem counter_add_one_ne (hn : n < 2 ^ 63) (hk : k ≤ n) : counter n + 1 ≠ counter k := by
  intro h
  have hnat := congrArg UInt64.toNat h
  rw [UInt64.toNat_add, toNat_counter hn, toNat_counter (Nat.lt_of_le_of_lt hk hn),
    show (1 : UInt64).toNat = 1 from rfl, Nat.mod_eq_of_lt (by omega)] at hnat
  omega

theorem counter_inj (hn : n < 2 ^ 63) (hk : k < 2 ^ 63) (h : counter n = counter k) : n = k := by
  have hnat := congrArg UInt64.toNat h
  rw [toNat_counter hn, toNat_counter hk] at hnat
  omega

theorem odd_counter_add_one (k : Nat) : (counter k + 1) % 2 ≠ 0 := by
  rw [ne_eq, ← UInt64.toNat_inj, UInt64.toNat_mod, UInt64.toNat_add, counter, UInt64.toNat_ofNat']
  show ¬ (2 * k % 2 ^ 64 + 1) % 2 ^ 64 % 2 = 0
  omega

/-- Where the counter is that of `k` updates, these are all updates and the
state is theirs. -/
theorem Written.at_rest (h : Written l) (hn : l.updates.length < 2 ^ 63) (hk : k ≤ l.updates.length)
    (hseq : l.seq = counter k) : k = l.updates.length ∧ version l.updates k = some l.state := by
  unfold Written at h
  split at h
  · have hk' := counter_inj (Nat.lt_of_le_of_lt hk hn) hn (hseq.symm.trans h.1)
    exact ⟨hk', hk' ▸ h.2⟩
  · have hk' := counter_inj (Nat.lt_of_le_of_lt hk hn) hn (hseq.symm.trans h.2.1)
    exact ⟨hk', hk' ▸ h.2.2⟩
  · rw [h.2.1, h.1] at hseq
    exact absurd hseq (counter_add_one_ne hn hk)

theorem Written.of_even (h : Written l) (heven : l.seq % 2 = 0) :
    l.seq = counter l.updates.length ∧ version l.updates l.updates.length = some l.state := by
  unfold Written at h
  split at h
  · exact h
  · exact h.2
  · rw [h.2.1, h.1] at heven
    exact absurd heven (odd_counter_add_one l.updates.length)

/-- A reader is not misled by a step that takes the counter back to none of its
values. -/
theorem Loaded.mono {l' : Lock} {more : List AccountRiskState} (h : Loaded l r) (hupdates : l'.updates = l.updates ++ more)
    (hseq : ∀ k ≤ l.updates.length, l'.seq = counter k → l.seq = counter k) : Loaded l' r := by
  unfold Loaded at h ⊢
  have hlen : l.updates.length ≤ l'.updates.length := by
    rw [hupdates, List.length_append]
    omega
  split at h
  · rw [hupdates] at hlen ⊢
    exact InOrder.mono (InOrder.append h (Nat.le_refl _) more) hlen
  · obtain ⟨k, hk, hs, hreturned, hloaded⟩ := h
    refine ⟨k, Nat.le_trans hk hlen, hs, by rw [hupdates]; exact InOrder.append hreturned hk more, fun hseq' => ?_⟩
    obtain ⟨done, v, dst, hdone, hv, hcopy⟩ := hloaded ((hseq k hk (hseq'.trans hs)).trans hs.symm)
    exact ⟨done, v, dst, hdone, by rw [hupdates, version_append hk]; exact hv, hcopy⟩

/-! ## Steps -/

theorem Inv.writer {l' : Lock} {more : List AccountRiskState} (h : Inv l) (hw : Written l')
    (hupdates : l'.updates = l.updates ++ more) (hreaders : l'.readers = l.readers)
    (hseq : ∀ k ≤ l.updates.length, l'.seq = counter k → l.seq = counter k) : Inv l' :=
  ⟨hw, fun i r hr => (h.loaded i r (hreaders ▸ hr)).mono hupdates hseq⟩

theorem inv_update (h : Inv l) (args : AccountRiskState) : Inv (l.update args) := by
  have hw := h.written
  unfold Lock.update
  unfold Written at hw
  split
  · rename_i hidle
    rw [hidle] at hw
    exact h.writer (show Written { l with writer := .loaded l.seq args } from ⟨rfl, hw.1, hw.2⟩)
      (List.append_nil _).symm rfl fun _ _ hseq => hseq
  · exact h

theorem inv_stepWriter (h : Inv l) (hn : l.stepWriter.updates.length < 2 ^ 63) : Inv l.stepWriter := by
  have hw := h.written
  unfold Lock.stepWriter at hn ⊢
  unfold Written at hw
  split
  · exact h
  · rename_i seq args hpc
    rw [hpc] at hw hn
    obtain ⟨rfl, hseq, hv⟩ := hw
    refine h.writer (show Written { l with seq := l.seq + 1, writer := .storing l.seq args Field.all } from
      ⟨hseq, rfl, [], l.state, rfl, rfl⟩) (List.append_nil _).symm rfl fun k hk hk' => ?_
    rw [hseq] at hk'
    exact absurd hk' (counter_add_one_ne hn hk)
  · rename_i seq args f todo hpc
    rw [hpc] at hw
    obtain ⟨hseq, hodd, done, old, hdone, hstate⟩ := hw
    refine h.writer (show Written { l with state := f.copy args l.state, writer := .storing seq args todo } from
      ⟨hseq, hodd, done ++ [f], old, ?_, ?_⟩) (List.append_nil _).symm rfl fun _ _ hseq => hseq
    · rw [List.append_assoc]
      exact hdone
    · rw [copyAll_concat, ← hstate]
  · rename_i seq args hpc
    rw [hpc] at hw hn
    obtain ⟨hseq, hodd, done, old, hdone, hstate⟩ := hw
    rw [List.append_nil] at hdone
    rw [hdone, copyAll_all] at hstate
    have hlen : (l.updates ++ [args]).length = l.updates.length + 1 := List.length_append
    rw [hlen] at hn
    have hseq' : seq + 2 = counter (l.updates.length + 1) := by rw [hseq, counter_succ]
    refine h.writer (show Written { l with seq := seq + 2, writer := .idle, updates := l.updates ++ [args] } from
      ⟨?_, ?_⟩) rfl rfl fun k hk hk' => ?_
    · rw [hlen]
      exact hseq'
    · rw [hlen, hstate]
      exact version_length _ _
    · have hk' := counter_inj hn (by omega) (hseq'.symm.trans hk')
      omega

theorem loaded_stepReader (hw : Written l) (hn : l.updates.length < 2 ^ 63) (h : Loaded l r) :
    Loaded l (l.stepReader r) := by
  obtain ⟨pc, returned⟩ := r
  cases pc with
  | start =>
    simp only [Lock.stepReader]
    split
    · exact h
    · rename_i heven
      -- an even counter is that of all updates
      obtain ⟨hseq, hv⟩ := hw.of_even (not_not.mp heven)
      exact ⟨l.updates.length, Nat.le_refl _, hseq, h, fun _ => ⟨[], l.state, .default, rfl, hv, rfl⟩⟩
  | loading seq1 loaded todo =>
    obtain ⟨k, hk, hs, hreturned, hloaded⟩ := h
    cases todo with
    | cons f todo =>
      refine ⟨k, hk, hs, hreturned, fun hseq => ?_⟩
      obtain ⟨done, v, dst, hdone, hv, hcopy⟩ := hloaded hseq
      have hrest := (hw.at_rest hn hk (hseq.trans hs)).2
      cases hv.symm.trans hrest
      refine ⟨done ++ [f], l.state, dst, ?_, hv, ?_⟩
      · rw [List.append_assoc]
        exact hdone
      · rw [copyAll_concat, ← hcopy]
    | nil =>
      simp only [Lock.stepReader]
      split
      · rename_i hseq
        obtain ⟨done, v, dst, hdone, hv, hcopy⟩ := hloaded hseq.symm
        rw [List.append_nil] at hdone
        rw [hdone, copyAll_all] at hcopy
        rw [hcopy]
        exact InOrder.mono (InOrder.concat hreturned hv) hk
      · exact InOrder.mono hreturned hk

theorem inv_step (h : Inv l) (a : Action) (hn : (l.step a).updates.length < 2 ^ 63) : Inv (l.step a) := by
  cases a with
  | update args => exact inv_update h args
  | writer => exact inv_stepWriter h hn
  | reader i =>
    simp only [Lock.step] at hn ⊢
    split at hn
    · rename_i r hr
      have hother : ∀ r', Loaded l r' → Loaded { l with readers := l.readers.set i (l.stepReader r) } r' :=
        fun r' h' => h'.mono (List.append_nil _).symm fun _ _ hseq => hseq
      refine ⟨h.written, List.forall_getElem?_set ?_ fun j r' _ hr' => hother r' (h.loaded j r' hr')⟩
      exact hother _ (loaded_stepReader h.written hn (h.loaded i r hr))
    · exact h

theorem updates_le_step (l : Lock) (a : Action) : l.updates.length ≤ (l.step a).updates.length := by
  cases a with
  | update args =>
    simp only [Lock.step, Lock.update]
    split <;> exact Nat.le_refl _
  | writer =>
    simp only [Lock.step, Lock.stepWriter]
    split
    · exact Nat.le_refl _
    · exact Nat.le_refl _
    · exact Nat.le_refl _
    · rw [List.length_append]
      omega
  | reader i =>
    simp only [Lock.step]
    split <;> exact Nat.le_refl _

theorem inv_new (readers : Nat) : Inv (Lock.new readers) := by
  refine ⟨⟨rfl, rfl⟩, fun i r hr => ?_⟩
  obtain rfl := List.eq_of_mem_replicate (List.mem_of_getElem? hr)
  exact ⟨[], .nil, fun _ h => absurd h List.not_mem_nil, rfl⟩

theorem inv_run (h : Inv l) (actions : List Action) (hn : (l.run actions).updates.length < 2 ^ 63) :
    Inv (l.run actions) := by
  refine foldl_inv (I := fun l : Lock => l.updates.length < 2 ^ 63 → Inv l) (fun l a hl hn => ?_) (fun _ => h) actions hn
  exact inv_step (hl (Nat.lt_of_le_of_lt (updates_le_step l a) hn)) a hn

/-- However the writer and the readers interleave, fewer than `2 ^ 63` updates
being completed, what a reader's calls returned are, in all fields, the initial
state or the arguments of completed updates, and none is older than the one
before. -/
theorem run_versions (readers : Nat) (actions : List Action)
    (hn : ((Lock.new readers).run actions).updates.length < 2 ^ 63) :
    ∀ r ∈ ((Lock.new readers).run actions).readers, ∃ ks : List Nat, ks.Pairwise (· ≤ ·) ∧
      r.returned.map some = ks.map (version ((Lock.new readers).run actions).updates) := by
  intro r hr
  obtain ⟨i, hi⟩ := List.mem_iff_getElem?.mp hr
  have h := (inv_run (inv_new readers) actions hn).loaded i r hi
  unfold Loaded at h
  split at h
  · obtain ⟨ks, hsorted, -, hks⟩ := h
    exact ⟨ks, hsorted, hks⟩
  · obtain ⟨-, -, -, ⟨ks, hsorted, -, hks⟩, -⟩ := h
    exact ⟨ks, hsorted, hks⟩

def demoFrozen : AccountRiskState := { AccountRiskState.default with balance := 7, frozen := true }

/-- A read that an update overtakes, and that then tries again. -/
def demoRead : List Action :=
  [.reader 0, .reader 0, .update demoFrozen] ++ List.replicate 4 .writer ++ List.replicate 9 (.reader 0) ++
    List.replicate 4 .writer ++ List.replicate 8 (.reader 0)

set_option maxRecDepth 2000

theorem run_versions_demo : ((Lock.new 1).run demoRead).readers.map Reader.returned = [[demoFrozen]] ∧
    ∀ r ∈ ((Lock.new 1).run demoRead).readers, ∃ ks : List Nat, ks.Pairwise (· ≤ ·) ∧
      r.returned.map some = ks.map (version ((Lock.new 1).run demoRead).updates) :=
  ⟨rfl, run_versions 1 demoRead (by decide)⟩

end Proof

end MRE.Seqlock
