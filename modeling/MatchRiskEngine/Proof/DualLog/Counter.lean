import Mathlib.Data.List.Nodup
import MatchRiskEngine.Framework.Actors
import MatchRiskEngine.Spec.DualLog

/-!
# The counter is accurate at rest

What a thread still has to do to the counter is known from where it is
(`RingPc.toAdd`, `RingPc.toSubtract`), and so are the keys that it has taken from
the map and not reported yet (`RingPc.unreported`). With these every step keeps
the counter in balance with the map, modulo 2^64, and each key that was pushed in
one place (`Balanced`). At rest nothing is outstanding (`run_accurate`).
-/

namespace MRE

namespace RingPc

def toAdd : RingPc → Nat
  | .pushed _ => 1
  | _ => 0

/-- The keys taken from the map that no result has reported. -/
def unreported : RingPc → List UInt64
  | .removed seq => [seq]
  | .sweep _ _ taken => taken
  | _ => []

def toSubtract (pc : RingPc) : Nat := pc.unreported.length

/-- A collection's count is the number of the keys it has taken. -/
def Exact : RingPc → Prop
  | .sweep _ n taken => n = UInt64.ofNat taken.length
  | _ => True

end RingPc

namespace Proof.RingCounter

variable {ring : PendingRing X} {seq key : UInt64} {entry : EntryRef}

/-! ## The map -/

theorem containsKey_iff : ring.containsKey seq = true ↔ ∃ entry, (seq, entry) ∈ ring.toList := by
  simp [PendingRing.containsKey]

theorem push_perm (h : ring.containsKey seq = false) (entry : EntryRef) :
    (ring.push seq entry).toList.Perm ((seq, entry) :: ring.toList) := by
  refine Crossbeam.insert_perm (fun x hx heq => ?_) entry
  have : ring.containsKey seq = true := containsKey_iff.mpr ⟨x.2, heq ▸ hx⟩
  rw [h] at this
  cases this

theorem remove_perm (h : ring.containsKey seq = true) :
    ∃ entry, ring.toList.Perm ((seq, entry) :: (ring.remove seq).toList) := by
  obtain ⟨entry, hentry⟩ := containsKey_iff.mp h
  exact ⟨entry, Crossbeam.remove_perm hentry⟩

theorem containsKey_iff_count : ring.containsKey seq = true ↔ 0 < (ring.toList.map Prod.fst).count seq := by
  rw [containsKey_iff, List.count_pos_iff, List.mem_map]
  constructor
  · rintro ⟨entry, hentry⟩
    exact ⟨_, hentry, rfl⟩
  · rintro ⟨x, hx, rfl⟩
    exact ⟨x.2, hx⟩

/-! ## Steps -/

variable {x x' : RingCalls X} {i : Nat} {pc pc' : RingPc}

/-- What a step can do. -/
inductive RingMoves (x : RingCalls X) : RingCalls X → Prop where
  | stay : RingMoves x x
  | claim (entries : List LogEntry) : RingMoves x { x with entries }
  /-- A thread goes on without touching the map or the counter. -/
  | look {i : Nat} {pc pc' : RingPc} : x.threads[i]? = some pc → pc'.toAdd = pc.toAdd → pc'.unreported = pc.unreported →
      pc'.Exact → RingMoves x (x.setThread i pc')
  | insert {i : Nat} (e : LogEntry) : x.threads[i]? = some .idle → RingMoves x (x.callPush i e)
  | count {i : Nat} {seq : UInt64} : x.threads[i]? = some (.pushed seq) →
      RingMoves x ({ x with len := x.len + 1 }.setThread i .idle)
  /-- A thread removes a key from the map. -/
  | take {i : Nat} {pc pc' : RingPc} {key : UInt64} : x.threads[i]? = some pc → x.ring.containsKey key →
      pc'.toAdd = pc.toAdd → pc'.unreported = pc.unreported ++ [key] → pc'.Exact →
      RingMoves x ({ x with ring := x.ring.remove key }.setThread i pc')
  /-- A thread takes what it has removed from the counter, and reports it. -/
  | report {i : Nat} {pc : RingPc} {removeResults : List UInt64} {gcResults : List (UInt64 × List UInt64)} :
      x.threads[i]? = some pc → pc.toAdd = 0 →
      (∀ k, removeResults.count k + (gcResults.flatMap Prod.snd).count k =
        x.removeResults.count k + x.collected.count k + pc.unreported.count k) →
      (∀ r ∈ gcResults, r ∈ x.gcResults ∨ r.1 = UInt64.ofNat r.2.length) →
      RingMoves x ({ x with
        len := x.len - UInt64.ofNat pc.unreported.length, removeResults, gcResults }.setThread i .idle)

/-- A sweep that took nothing leaves the counter, as subtracting nothing would. -/
theorem sub_removed (len removed : UInt64) : (if 0 < removed then len - removed else len) = len - removed := by
  split
  · rfl
  · rename_i hzero
    rw [UInt64.pos_iff_ne_zero, not_not] at hzero
    rw [hzero, UInt64.sub_zero]

theorem sweep_moves {terminalKeys taken : List UInt64} {removed : UInt64}
    (h : x.threads[i]? = some (.sweep terminalKeys removed taken)) (hexact : removed = UInt64.ofNat taken.length) :
    RingMoves x (x.stepThread i (.sweep terminalKeys removed taken)) := by
  cases terminalKeys with
  | nil =>
    have hreported (k : UInt64) :
        x.removeResults.count k + ((x.gcResults ++ [(removed, taken)]).flatMap Prod.snd).count k =
          x.removeResults.count k + x.collected.count k + (RingPc.sweep [] removed taken).unreported.count k := by
      simp only [List.flatMap_append, List.count_append, RingCalls.collected, RingPc.unreported, List.flatMap_singleton]
      omega
    have hcounted : ∀ r ∈ x.gcResults ++ [(removed, taken)], r ∈ x.gcResults ∨ r.1 = UInt64.ofNat r.2.length := by
      intro r hr
      rcases List.mem_append.mp hr with hr | hr
      · exact .inl hr
      · cases List.mem_singleton.mp hr
        exact .inr hexact
    have hmove := RingMoves.report h rfl hreported hcounted
    have hlen : (if 0 < removed then x.len - removed else x.len) = x.len - UInt64.ofNat taken.length := by
      rw [sub_removed, hexact]
    simp only [RingCalls.stepThread, hlen]
    exact hmove
  | cons key terminalKeys =>
    simp only [RingCalls.stepThread]
    split
    · rename_i hkey
      refine .take h hkey rfl rfl ?_
      show removed + 1 = UInt64.ofNat (taken ++ [key]).length
      rw [List.length_append, List.length_singleton, UInt64.ofNat_add, hexact]
      rfl
    · exact .look h rfl rfl hexact

theorem stepThread_moves (h : x.threads[i]? = some pc) (hexact : pc.Exact) : RingMoves x (x.stepThread i pc) := by
  cases pc with
  | idle => exact .stay
  | pushed seq => exact .count h
  | removed seq =>
    have hreported (k : UInt64) : (x.removeResults ++ [seq]).count k + (x.gcResults.flatMap Prod.snd).count k =
        x.removeResults.count k + x.collected.count k + (RingPc.removed seq).unreported.count k := by
      rw [List.count_append, RingCalls.collected, RingPc.unreported]
      omega
    have hmove := RingMoves.report h rfl hreported fun r hr => .inl hr
    exact hmove
  | collect last terminalKeys =>
    simp only [RingCalls.stepThread]
    split
    · exact .look h rfl rfl trivial
    · exact .look h rfl rfl rfl
  | load seq entry terminalKeys =>
    simp only [RingCalls.stepThread]
    split
    · split
      · exact .look h rfl rfl trivial
      · exact .look h rfl rfl trivial
    · exact .stay
  | sweep terminalKeys removed taken => exact sweep_moves h hexact

theorem step_moves (hexact : ∀ pc ∈ x.threads, pc.Exact) (a : RingCalls.Action) : RingMoves x (x.step a) := by
  cases a with
  | push i e =>
    simp only [RingCalls.step, RingCalls.whenIdle]
    split
    · rename_i h
      exact .insert e h
    · exact .stay
  | remove i seq =>
    simp only [RingCalls.step, RingCalls.whenIdle, RingCalls.callRemove]
    split
    · rename_i h
      split
      · rename_i hkey
        exact .take h hkey rfl rfl trivial
      · exact .stay
    · exact .stay
  | gcTerminal i =>
    simp only [RingCalls.step, RingCalls.whenIdle]
    split
    · rename_i h
      exact .look h rfl rfl trivial
    · exact .stay
  | step i =>
    simp only [RingCalls.step]
    split
    · rename_i pc h
      exact stepThread_moves h (hexact pc (List.mem_of_getElem? h))
    · exact .stay
  | claim entry source target =>
    simp only [RingCalls.step, RingCalls.claimEntry]
    split
    · exact .claim _
    · exact .stay

/-! ## The balance -/

/-- The counter, with what the threads still have to add to it, is the number of
entries, with what they still have to subtract. A key that was pushed is in the
map, with a thread that has not reported it, or reported. -/
structure Balanced (x : RingCalls X) : Prop where
  counter : (x.len.toNat + (x.threads.map RingPc.toAdd).sum) % 2 ^ 64 =
    (x.ring.toList.length + (x.threads.map RingPc.toSubtract).sum) % 2 ^ 64
  placed : ∀ k, (x.ring.toList.map Prod.fst).count k + (x.threads.map (·.unreported.count k)).sum +
    (x.removeResults.count k + x.collected.count k) = x.pushedSeqs.count k
  counted : ∀ r ∈ x.gcResults, r.1 = UInt64.ofNat r.2.length

theorem init_balanced (threads : Nat) : Balanced (RingCalls.init X threads) where
  counter := by
    simp [RingCalls.init, RingPc.toAdd, RingPc.toSubtract, RingPc.unreported]
  placed k := by
    simp [RingCalls.init, RingPc.unreported, RingCalls.collected]
  counted r hr := by cases hr

/-- A key that is pushed for the first time is not in the map. -/
theorem Balanced.fresh (hx : Balanced x) (h : seq ∉ x.pushedSeqs) : x.ring.containsKey seq = false := by
  rw [Bool.eq_false_iff, ne_eq, containsKey_iff_count]
  have hplaced := hx.placed seq
  rw [List.count_eq_zero_of_not_mem h] at hplaced
  omega

/-- A step of one thread keeps the balance if what it does to the counter, the
map and the reports is what it no longer has to do. -/
theorem Balanced.setThread {y : RingCalls X} (hx : Balanced x) (hthreads : y.threads = x.threads)
    (h : x.threads[i]? = some pc)
    (hcounter : (y.len.toNat + pc'.toAdd + x.ring.toList.length + pc.toSubtract) % 2 ^ 64 =
      (x.len.toNat + pc.toAdd + y.ring.toList.length + pc'.toSubtract) % 2 ^ 64)
    (hplaced : ∀ k, (y.ring.toList.map Prod.fst).count k + pc'.unreported.count k +
        (y.removeResults.count k + y.collected.count k) + x.pushedSeqs.count k =
      (x.ring.toList.map Prod.fst).count k + pc.unreported.count k +
        (x.removeResults.count k + x.collected.count k) + y.pushedSeqs.count k)
    (hcounted : ∀ r ∈ y.gcResults, r.1 = UInt64.ofNat r.2.length) : Balanced (y.setThread i pc') where
  counter := by
    have hbefore := hx.counter
    have hadds := List.sum_map_set_add RingPc.toAdd h pc'
    have hsubs := List.sum_map_set_add RingPc.toSubtract h pc'
    simp only [RingCalls.setThread, hthreads]
    omega
  placed k := by
    have hbefore := hx.placed k
    have hchange := hplaced k
    have hcounts := List.sum_map_set_add (·.unreported.count k) h pc'
    simp only [RingCalls.setThread, RingCalls.collected, hthreads] at hbefore hchange ⊢
    omega
  counted := hcounted

theorem Balanced.insert (hx : Balanced x) (e : LogEntry) (h : x.threads[i]? = some .idle) (hnew : e.seq ∉ x.pushedSeqs) :
    Balanced (x.callPush i e) := by
  have hperm := push_perm (hx.fresh hnew) x.entries.length
  refine hx.setThread rfl h ?_ (fun k => ?_) hx.counted
  · have hlen : (x.ring.push e.seq x.entries.length).toList.length = x.ring.toList.length + 1 := hperm.length_eq
    simp only [RingPc.toAdd, RingPc.toSubtract, RingPc.unreported, hlen]
    omega
  · have hcount := (hperm.map Prod.fst).count_eq k
    rw [List.map_cons, List.count_cons] at hcount
    simp only [RingPc.unreported, RingCalls.collected, List.count_append, List.count_singleton, hcount]
    omega

theorem Balanced.count (hx : Balanced x) (h : x.threads[i]? = some (.pushed seq)) :
    Balanced ({ x with len := x.len + 1 }.setThread i .idle) := by
  refine hx.setThread rfl h ?_ (fun k => rfl) hx.counted
  simp only [RingPc.toAdd, RingPc.toSubtract, RingPc.unreported, UInt64.toNat_add, UInt64.toNat_one]
  omega

theorem Balanced.take (hx : Balanced x) (h : x.threads[i]? = some pc) (hkey : x.ring.containsKey key)
    (hadd : pc'.toAdd = pc.toAdd) (htaken : pc'.unreported = pc.unreported ++ [key]) :
    Balanced ({ x with ring := x.ring.remove key }.setThread i pc') := by
  obtain ⟨entry, hperm⟩ := remove_perm hkey
  refine hx.setThread rfl h ?_ (fun k => ?_) hx.counted
  · have hlen := hperm.length_eq
    rw [List.length_cons] at hlen
    simp only [RingPc.toSubtract, hadd, htaken, List.length_append, List.length_singleton]
    omega
  · have hcount := (hperm.map Prod.fst).count_eq k
    rw [List.map_cons, List.count_cons] at hcount
    simp only [RingCalls.collected, htaken, List.count_append, List.count_singleton, hcount]
    omega

theorem Balanced.report (hx : Balanced x) {removeResults : List UInt64} {gcResults : List (UInt64 × List UInt64)}
    (h : x.threads[i]? = some pc) (hadd : pc.toAdd = 0)
    (hreported : ∀ k, removeResults.count k + (gcResults.flatMap Prod.snd).count k =
      x.removeResults.count k + x.collected.count k + pc.unreported.count k)
    (hcounted : ∀ r ∈ gcResults, r ∈ x.gcResults ∨ r.1 = UInt64.ofNat r.2.length) :
    Balanced ({ x with
      len := x.len - UInt64.ofNat pc.unreported.length, removeResults, gcResults }.setThread i .idle) := by
  refine hx.setThread rfl h ?_ (fun k => ?_) fun r hr => ?_
  · have hdone : RingPc.idle.toAdd = 0 ∧ RingPc.idle.toSubtract = 0 := ⟨rfl, rfl⟩
    rw [hadd, hdone.1, hdone.2, RingPc.toSubtract, UInt64.toNat_sub, UInt64.toNat_ofNat']
    dsimp only
    omega
  · have hk := hreported k
    simp only [RingPc.unreported, RingCalls.collected, List.count_nil] at hk ⊢
    omega
  · obtain hr | hr := hcounted r hr
    · exact hx.counted r hr
    · exact hr

theorem Balanced.moves (hx : Balanced x) (hm : RingMoves x x') (hnodup : x'.pushedSeqs.Nodup) : Balanced x' := by
  cases hm with
  | stay => exact hx
  | claim entries => exact ⟨hx.counter, hx.placed, hx.counted⟩
  | look h hadd hkeys =>
    refine hx.setThread rfl h ?_ (fun k => by rw [hkeys]) hx.counted
    rw [hadd, RingPc.toSubtract, RingPc.toSubtract, hkeys]
  | insert e h =>
    refine hx.insert e h fun hmem => ?_
    exact (List.nodup_append.mp hnodup).2.2 e.seq hmem e.seq (List.mem_singleton.mpr rfl) rfl
  | count h => exact hx.count h
  | take h hkey hadd htaken => exact hx.take h hkey hadd htaken
  | report h hadd hreported hcounted => exact hx.report h hadd hreported hcounted

/-! ## Runs -/

theorem pushedSeqs_grow (hm : RingMoves x x') : x.pushedSeqs <+: x'.pushedSeqs := by
  cases hm with
  | stay | claim | look | count | take | report => exact List.prefix_refl _
  | insert e h => exact List.prefix_append _ _

theorem moves_exact (hexact : ∀ pc ∈ x.threads, pc.Exact) (hm : RingMoves x x') : ∀ pc ∈ x'.threads, pc.Exact := by
  have hset (i : Nat) {pc' : RingPc} (hpc' : pc'.Exact) : ∀ pc ∈ x.threads.set i pc', pc.Exact := fun pc hpc => by
    rcases List.mem_or_eq_of_mem_set hpc with hpc | rfl
    · exact hexact pc hpc
    · exact hpc'
  cases hm with
  | stay | claim => exact hexact
  | look _ _ _ hpc' | take _ _ _ _ hpc' => exact hset _ hpc'
  | insert | count | report => exact hset _ trivial

/-- The balance is kept as long as no number is pushed twice. -/
theorem run_balanced (threads : Nat) (actions : List RingCalls.Action)
    (hnodup : ((RingCalls.init X threads).run actions).pushedSeqs.Nodup) :
    Balanced ((RingCalls.init X threads).run actions) := by
  have hstep : ∀ (x : RingCalls X) (a : RingCalls.Action),
      (∀ pc ∈ x.threads, pc.Exact) ∧ (x.pushedSeqs.Nodup → Balanced x) →
      (∀ pc ∈ (x.step a).threads, pc.Exact) ∧ ((x.step a).pushedSeqs.Nodup → Balanced (x.step a)) := by
    rintro x a ⟨hexact, hx⟩
    have hm := step_moves hexact a
    exact ⟨moves_exact hexact hm, fun h => (hx (h.sublist (pushedSeqs_grow hm).sublist)).moves hm h⟩
  refine (foldl_inv (I := fun x => (∀ pc ∈ x.threads, pc.Exact) ∧ (x.pushedSeqs.Nodup → Balanced x)) hstep
    ⟨?_, ?_⟩ actions).2 hnodup
  · intro pc hpc
    rw [List.eq_of_mem_replicate hpc]
    trivial
  · exact fun _ => init_balanced threads

theorem sum_map_atRest (hrest : x.AtRest) {f : RingPc → Nat} (hf : f .idle = 0) : (x.threads.map f).sum = 0 := by
  refine List.sum_eq_zero fun n hn => ?_
  obtain ⟨pc, hpc, rfl⟩ := List.mem_map.mp hn
  rw [hrest pc hpc, hf]

/-- Whatever the interleaving, when no call is in progress the counter is the
number of entries in the map, and an entry that has left the map has been reported
once. -/
theorem run_accurate (X : Crossbeam EntryRef) (threads : Nat) (actions : List RingCalls.Action)
    (hnodup : ((RingCalls.init X threads).run actions).pushedSeqs.Nodup)
    (hrest : ((RingCalls.init X threads).run actions).AtRest) : ((RingCalls.init X threads).run actions).Accurate := by
  have hx := run_balanced threads actions hnodup
  generalize (RingCalls.init X threads).run actions = x at hx hnodup hrest
  have hcounter := hx.counter
  rw [sum_map_atRest hrest rfl, sum_map_atRest hrest rfl, Nat.add_zero, Nat.add_zero,
    Nat.mod_eq_of_lt x.len.toNat_lt] at hcounter
  have hplaced (k : UInt64) : (x.ring.toList.map Prod.fst).count k + (x.removeResults.count k + x.collected.count k) =
      x.pushedSeqs.count k := by
    have hk := hx.placed k
    rwa [sum_map_atRest hrest rfl, Nat.add_zero] at hk
  refine ⟨?_, fun hlt => ?_, fun seq hseq hin => ?_, fun seq hseq hout => ?_, hx.counted⟩
  · rw [← UInt64.toNat_inj, UInt64.toNat_ofNat']
    exact hcounter
  · rw [hcounter, Nat.mod_eq_of_lt hlt]
  · have hk := hplaced seq
    have hpos := containsKey_iff_count.mp hin
    rw [List.count_eq_one_of_mem hnodup hseq] at hk
    exact ⟨List.count_eq_zero.mp (by omega), List.count_eq_zero.mp (by omega)⟩
  · have hk := hplaced seq
    rw [Bool.eq_false_iff, ne_eq, containsKey_iff_count] at hout
    rw [List.count_eq_one_of_mem hnodup hseq] at hk
    omega

def demoEntry (seq : UInt64) : LogEntry := LogEntry.new seq 1 0 (.freezeAccount ⟨1⟩)

/-- Entry 1 is removed before it is counted, so that the counter passes below
zero. Entry 2 is handled and collected, and entry 3 stays. -/
def demoCalls : List RingCalls.Action :=
  [.push 0 (demoEntry 1), .remove 1 1, .step 1, .step 0, .push 0 (demoEntry 2), .step 0, .claim 1 .pending .addressed,
    .push 0 (demoEntry 3), .gcTerminal 1, .step 1, .step 1, .step 1, .step 1, .step 1, .step 0, .step 1, .step 1]

/-- Two threads make them. -/
def demoState (calls : List RingCalls.Action) : RingCalls (.lists EntryRef) := (RingCalls.init _ 2).run calls

theorem run_accurate_demo :
    (demoState (demoCalls.take 3)).len = 0xFFFFFFFFFFFFFFFF ∧ (demoState demoCalls).removeResults = [1] ∧
      (demoState demoCalls).gcResults = [(1, [2])] ∧ (demoState demoCalls).len = 1 ∧ (demoState demoCalls).Accurate := by
  have hthreads : (demoState demoCalls).threads = List.replicate 2 .idle := rfl
  have hrest : (demoState demoCalls).AtRest := by
    rw [RingCalls.AtRest, hthreads]
    exact fun pc hpc => List.eq_of_mem_replicate hpc
  have hnodup : (demoState demoCalls).pushedSeqs.Nodup := by decide
  exact ⟨rfl, rfl, rfl, rfl, run_accurate _ 2 demoCalls hnodup hrest⟩

end Proof.RingCounter

end MRE
