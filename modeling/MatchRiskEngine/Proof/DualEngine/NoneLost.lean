import MatchRiskEngine.Proof.DualEngine.Custody
import MatchRiskEngine.Proof.DualLog.Mirror

/-!
# No accepted order is lost

An accepted entry stays in the ring until it is terminal, unless a step evicts
it, and an `Unaddressed` one is in one place, unless a step orphans it. After
such a step the entry is lost (`noneLost_step`), so that nothing is lost along a
run if and only if no step orphans or evicts an entry (`noneLost_iff`).

With sequence numbers that increase, as `write` asserts, nothing is evicted: an
entry's number is nobody else's, and it is removed only once it is terminal. But
entries are orphaned, when workers end (`order_lost`).
-/

namespace MRE

/-- The step of the engines that an action is. -/
def DualPipeline.Action.engine? : DualPipeline.Action → Option MRE.Action
  | .primary entry => some (.primary entry)
  | .startScan i nowNs load => some (.startScan i nowNs load)
  | .sorter i => some (.sorter i)
  | .worker i nowNs => some (.worker i nowNs)
  | .stop i => some (.stop i)
  | .write .. | .startGc _ | .gc _ => none

namespace GcPc

/-- The keys that a collection is going to remove. -/
def keys : GcPc → List UInt64
  | .idle => []
  | .collect _ terminalKeys | .load _ _ terminalKeys | .remove terminalKeys => terminalKeys

/-- The key and the entry that a collection is at. -/
def reads : GcPc → Option (UInt64 × EntryRef)
  | .load seq entry _ => some (seq, entry)
  | _ => none

end GcPc

namespace Proof.DualEngine

open DualPipeline

variable {M K : Type} {X : Crossbeam EntryRef} {p : Pipeline M K X} {x x' : DualPipeline M K X}
  {a : DualPipeline.Action} {r : EntryRef} {i : Nat}

/-! ## Steps -/

/-- What a collection finds before it goes on. -/
structure GcMoves (p : Pipeline M K X) (pc pc' : GcPc) : Prop where
  keys : ∀ k ∈ pc'.keys, k ∈ pc.keys ∨
    ∃ entry e, pc.reads = some (k, entry) ∧ p.entries[entry]? = some e ∧ e.loadStatus.isTerminal
  reads : ∀ y ∈ pc'.reads, y ∈ p.ring.toList

theorem GcMoves.of_subset {pc pc' : GcPc} (hkeys : pc'.keys ⊆ pc.keys) (hreads : pc'.reads = none) : GcMoves p pc pc' :=
  ⟨fun _ hk => .inl (hkeys hk), fun y hy => by rw [hreads] at hy; cases hy⟩

section

variable [DecidableEq K] [Arena M K]

/-- The steps that an action can lead to. -/
inductive Turns (x : DualPipeline M K X) (a : DualPipeline.Action) (x' : DualPipeline M K X) : Prop where
  | engines {a' : MRE.Action} : a.engine? = some a' → x' = x.engines a' → Turns x a x'
  | accept {tsNs term seq : UInt64} {cmd : InboundCommand} : a = .write tsNs term seq cmd →
      x'.pipeline = x.pipeline.step (.push seq term tsNs cmd) → x'.accepted = x.accepted ++ [x.pipeline.entries.length] →
      x'.gcs = x.gcs → x'.lastAssignedSeq = seq → Turns x a x'
  | reject {tsNs term seq : UInt64} {cmd : InboundCommand} : a = .write tsNs term seq cmd → x'.pipeline = x.pipeline →
      x'.accepted = x.accepted → x'.gcs = x.gcs → x'.lastAssignedSeq = seq → Turns x a x'
  | collect {i : Nat} {pc pc' : GcPc} : a.engine? = none → x.gcs[i]? = some pc → x' = x.setGc i pc' →
      GcMoves x.pipeline pc pc' → Turns x a x'
  | remove {i : Nat} {key : UInt64} {terminalKeys : List UInt64} : a = .gc i →
      x.gcs[i]? = some (.remove (key :: terminalKeys)) →
      x' = { x with pipeline := { x.pipeline with ring := x.pipeline.ring.remove key } }.setGc i (.remove terminalKeys) →
      Turns x a x'
  | stay : a.engine? = none → x' = x → Turns x a x'

variable {codec : Codec} {crc32 : Checksum}

theorem write_turns (x : DualPipeline M K X) (tsNs term seq : UInt64) (cmd : InboundCommand) :
    Turns x (.write tsNs term seq cmd) (x.write codec crc32 tsNs term seq cmd) := by
  unfold DualPipeline.write DualLog.write
  dsimp only
  split
  · exact .accept rfl rfl rfl rfl rfl
  · exact .reject rfl rfl (List.append_nil _) rfl rfl
  · exact .reject rfl rfl (List.append_nil _) rfl rfl
  · exact .reject rfl rfl (List.append_nil _) rfl rfl

theorem stepGc_turns {pc : GcPc} (h : x.gcs[i]? = some pc) : Turns x (.gc i) (x.stepGc i pc) := by
  cases pc with
  | idle => exact .stay rfl rfl
  | collect last terminalKeys =>
    simp only [DualPipeline.stepGc]
    split
    · rename_i hnext
      refine .collect rfl h rfl ⟨fun k hk => .inl hk, fun y hy => ?_⟩
      cases hy
      exact next_mem hnext
    · exact .collect rfl h rfl (.of_subset (List.Subset.refl _) rfl)
  | load seq entry terminalKeys =>
    simp only [DualPipeline.stepGc]
    split
    · rename_i e he
      split
      · rename_i hs
        refine .collect rfl h rfl ⟨fun k hk => ?_, fun y hy => nomatch hy⟩
        rcases List.mem_append.mp hk with hk | hk
        · exact .inl hk
        · cases List.mem_singleton.mp hk
          exact .inr ⟨entry, e, rfl, he, hs⟩
      · exact .collect rfl h rfl (.of_subset (List.Subset.refl _) rfl)
    · exact .stay rfl rfl
  | remove terminalKeys =>
    cases terminalKeys with
    | nil => exact .collect rfl h rfl (.of_subset (List.Subset.refl _) rfl)
    | cons key terminalKeys => exact .remove rfl h rfl

theorem step_turns (x : DualPipeline M K X) (a : DualPipeline.Action) : Turns x a (x.step codec crc32 a) := by
  cases a with
  | write tsNs term seq cmd => exact write_turns x tsNs term seq cmd
  | primary | startScan | sorter | worker | stop => exact .engines rfl rfl
  | startGc i =>
    simp only [DualPipeline.step]
    split
    · rename_i h
      exact .collect rfl h rfl (.of_subset (List.Subset.refl _) rfl)
    · exact .stay rfl rfl
  | gc i =>
    simp only [DualPipeline.step]
    split
    · rename_i h
      exact stepGc_turns h
    · exact .stay rfl rfl

theorem Turns.pipeline (ht : Turns x a x') :
    (∃ a', a.engine? = some a' ∧ x'.pipeline = (x.pipeline.step a').discard) ∨
    (∃ seq term tsNs cmd, x'.pipeline = x.pipeline.step (.push seq term tsNs cmd)) ∨
    ∃ ring, x'.pipeline = { x.pipeline with ring } := by
  cases ht with
  | engines ha hx => exact .inl ⟨_, ha, by rw [hx]; rfl⟩
  | accept _ hp => exact .inr (.inl ⟨_, _, _, _, hp⟩)
  | reject _ hp => exact .inr (.inr ⟨_, hp⟩)
  | collect _ _ hx => exact .inr (.inr ⟨x.pipeline.ring, by rw [hx]; rfl⟩)
  | stay _ hx => exact .inr (.inr ⟨x.pipeline.ring, by rw [hx]⟩)
  | remove _ _ hx => exact .inr (.inr ⟨_, by rw [hx]; rfl⟩)

/-! ## Places -/

theorem orphans_engines {a' : MRE.Action} (ha : a.engine? = some a') : x.Orphans codec crc32 r a ↔
    Drops x.pipeline r a' ∨ x.pipeline.connected ∧ (x.pipeline.step a').connected = false ∧ r ∈ x.pipeline.queued := by
  have hconnected : (x.step codec crc32 a).pipeline.connected = (x.pipeline.step a').connected := by
    have hstep : x.step codec crc32 a = x.engines a' := by cases a <;> cases ha <;> rfl
    rw [hstep]
    exact discard_connected _
  constructor
  · intro h
    cases h with
    | send hi hr hc =>
      cases ha
      exact .inl (.send hi hr hc)
    | stop hi hr =>
      cases ha
      exact .inl (.stop hi hr)
    | discard hmem hc hc' => exact .inr ⟨hc, hconnected ▸ hc', hmem⟩
  · rintro (hdrop | ⟨hc, hc', hmem⟩)
    · cases hdrop with
      | send hi hr hc =>
        cases a <;> cases ha
        exact .send hi hr hc
      | stop hi hr =>
        cases a <;> cases ha
        exact .stop hi hr
    · exact .discard hmem hc (hconnected ▸ hc')

/-- The writer and the collections leave the threads of the engines alone. -/
theorem not_orphans (ha : a.engine? = none) : ¬ x.Orphans codec crc32 r a := by
  have hworkers : (x.step codec crc32 a).pipeline.workers = x.pipeline.workers := by
    have ht : Turns x a (x.step codec crc32 a) := step_turns x a
    cases ht with
    | engines ha' => cases ha.symm.trans ha'
    | accept _ hp =>
      rw [hp]
      rfl
    | reject _ hp => rw [hp]
    | collect _ _ hx | remove _ _ hx =>
      rw [hx]
      rfl
    | stay _ hx => rw [hx]
  intro h
  cases h with
  | send | stop => cases ha
  | discard hmem hc hc' =>
    rw [Pipeline.connected, hworkers] at hc'
    exact Bool.false_ne_true (hc'.symm.trans hc)

omit [DecidableEq K] [Arena M K] in
theorem push_not_drops (p : Pipeline M K X) (r : EntryRef) {seq term timestampIn : UInt64} {cmd : InboundCommand} :
    ¬ Drops p r (.push seq term timestampIn cmd) := nofun

theorem Held.push (hp : Held p) (seq term timestampIn : UInt64) (cmd : InboundCommand) :
    Held (p.step (.push seq term timestampIn cmd)) :=
  ⟨fun r => hp.bound (moves_custody hp (step_moves p _) (push_not_drops p r)), moves_follows hp (step_moves p _),
    hp.closed⟩

theorem Held.turns (hp : Held x.pipeline) (ht : Turns x a x') : Held x'.pipeline := by
  rcases ht.pipeline with ⟨a', -, heq⟩ | ⟨seq, term, tsNs, cmd, heq⟩ | ⟨ring, heq⟩ <;> rw [heq]
  · exact hp.engines a'
  · exact hp.push seq term tsNs cmd
  · exact ⟨hp.places_le, hp.workers, hp.closed⟩

theorem kept_custody (hp : Held x.pipeline) (h : ¬ x.Orphans codec crc32 r a) :
    (x.pipeline.custody r).Step ((x.step codec crc32 a).pipeline.custody r) := by
  have ht : Turns x a (x.step codec crc32 a) := step_turns x a
  rcases ht.pipeline with ⟨a', ha, heq⟩ | ⟨seq, term, tsNs, cmd, heq⟩ | ⟨ring, heq⟩ <;> rw [heq]
  · rw [orphans_engines ha, not_or] at h
    exact engines_custody hp h.1 h.2
  · exact moves_custody hp (step_moves x.pipeline _) (push_not_drops x.pipeline r)
  · exact .stay rfl rfl

theorem orphans_lose (hp : Held x.pipeline) (h : x.Orphans codec crc32 r a) :
    (x.step codec crc32 a).pipeline.status r = x.pipeline.status r ∧
      (x.step codec crc32 a).pipeline.places r < x.pipeline.places r := by
  have ht : Turns x a (x.step codec crc32 a) := step_turns x a
  cases ht with
  | engines ha hx =>
    rw [hx]
    exact engines_lose hp ((orphans_engines ha).mp h)
  | accept hw | reject hw | remove hw => exact absurd h (not_orphans (hw ▸ rfl))
  | collect ha | stay ha => exact absurd h (not_orphans ha)

end

/-- What a worker holds and has not claimed yet it awaits. -/
theorem awaits_of_holds {w : Worker M K} (hw : Follows p w.pc) (hr : w.pc.holds r) (h : p.status r = some .unaddressed) :
    w.pc.awaits r := by
  cases hpc : w.pc with
  | recv | stopped =>
    rw [hpc] at hr
    cases hr
  | received e | loaded e s =>
    rw [hpc] at hr
    exact hr
  | claimed e | applied e | recorded e =>
    rw [hpc] at hr hw
    have he : e = r := of_decide_eq_true hr
    have hst : p.status e = some .finallyHandled := hw
    rw [he, h] at hst
    cases hst

theorem onItsWay_iff (hp : Held p) (h : p.status r = some .unaddressed) : p.onItsWay r = true ↔ 0 < p.places r := by
  have hsorters : p.sorters.any (·.escalates r) = true ↔ 0 < p.sorters.countP (·.escalates r) := by
    rw [List.any_eq_true, List.countP_pos_iff]
  have hworkers : p.workers.any (·.pc.holds r) = true ↔ 0 < p.workers.countP fun w => w.pc.awaits r := by
    rw [List.any_eq_true, List.countP_pos_iff]
    constructor
    · rintro ⟨w, hmem, hr⟩
      obtain ⟨i, hi⟩ := List.mem_iff_getElem?.mp hmem
      exact ⟨w, hmem, awaits_of_holds (hp.workers i w hi) hr h⟩
    · rintro ⟨w, hmem, hr⟩
      refine ⟨w, hmem, ?_⟩
      cases hpc : w.pc <;> rw [hpc] at hr <;> first | exact hr | cases hr
  rw [Pipeline.onItsWay, Bool.or_eq_true, Bool.or_eq_true, hsorters, hworkers, List.contains_iff_mem, ← List.count_pos_iff,
    Pipeline.places]
  omega

/-! ## The ring -/

section

variable [DecidableEq K] [Arena M K] {codec : Codec} {crc32 : Checksum}

/-- What holds of every state that is reached. -/
structure Tracked (x : DualPipeline M K X) : Prop where
  held : Held x.pipeline
  read : AllRead x.pipeline
  accepted : ∀ r, x.pipeline.ring.holds r → r ∈ x.accepted
  known : ∀ r, x.pipeline.ring.holds r → (x.pipeline.seqOf r).isSome
  once : ∀ k k' r, (k, r) ∈ x.pipeline.ring.toList → (k', r) ∈ x.pipeline.ring.toList → k = k'

theorem engine_not_push {a' : MRE.Action} (ha : a.engine? = some a') (seq term timestampIn : UInt64) (cmd : InboundCommand) :
    a' ≠ .push seq term timestampIn cmd := by
  cases a <;> cases ha <;> nofun

theorem Tracked.engines_ring (hx : Tracked x) {a' : MRE.Action} (ha : a.engine? = some a') :
    (x.engines a').pipeline.ring = x.pipeline.ring ∨
      ∃ k, x.pipeline.Removes k a' ∧ TerminalKey x.pipeline k ∧
        (x.engines a').pipeline.ring = x.pipeline.ring.remove k := by
  have hring : (x.engines a').pipeline.ring = (x.pipeline.step a').ring := by
    rw [DualPipeline.engines, discard_eq]
  rw [hring]
  exact moves_ring hx.held hx.read (step_moves x.pipeline a') (engine_not_push ha)

theorem AllRead.turns (hread : AllRead x.pipeline) (ht : Turns x a x') : AllRead x'.pipeline := by
  rcases ht.pipeline with ⟨a', -, heq⟩ | ⟨seq, term, tsNs, cmd, heq⟩ | ⟨ring, heq⟩ <;> rw [heq]
  · have hmoved := hread.moves (step_moves x.pipeline a')
    rw [discard_eq]
    exact hmoved
  · exact hread.moves (step_moves x.pipeline _)
  · exact hread

/-- The ring holds no more than before, unless an entry is accepted. -/
theorem Tracked.ring_turns (hx : Tracked x) (ht : Turns x a x') :
    ((∀ y ∈ x'.pipeline.ring.toList, y ∈ x.pipeline.ring.toList) ∧ (∀ r, x'.pipeline.seqOf r = x.pipeline.seqOf r) ∧
      x'.accepted = x.accepted) ∨
    ∃ seq term tsNs cmd, x'.pipeline = x.pipeline.step (.push seq term tsNs cmd) ∧
      x'.accepted = x.accepted ++ [x.pipeline.entries.length] := by
  cases ht with
  | @engines a' ha hx' =>
    subst hx'
    refine .inl ⟨fun y hy => ?_, fun r => ?_, rfl⟩
    · rcases hx.engines_ring ha with hsame | ⟨k, -, -, hrem⟩
      · rwa [hsame] at hy
      · rw [hrem] at hy
        exact (mem_remove.mp hy).1
    · rw [DualPipeline.engines, discard_eq]
      exact moves_seqOf (step_moves x.pipeline a') (engine_not_push ha) r
  | accept _ hp hacc => exact .inr ⟨_, _, _, _, hp, hacc⟩
  | reject _ hp hacc => exact .inl ⟨fun y hy => hp ▸ hy, fun r => by rw [hp], hacc⟩
  | collect _ _ hx' | stay _ hx' =>
    subst hx'
    exact .inl ⟨fun y hy => hy, fun r => rfl, rfl⟩
  | remove _ _ hx' =>
    subst hx'
    exact .inl ⟨fun y hy => (mem_remove.mp hy).1, fun r => rfl, rfl⟩

theorem Tracked.turns (hx : Tracked x) (ht : Turns x a x') : Tracked x' := by
  have hlast : ¬ (x.pipeline.seqOf x.pipeline.entries.length).isSome := by
    rw [Pipeline.seqOf, List.getElem?_eq_none (Nat.le_refl _)]
    exact Bool.false_ne_true
  obtain ⟨hring, hseq, hacc⟩ | ⟨seq, term, tsNs, cmd, hp, hacc⟩ := hx.ring_turns ht
  · have hholds : ∀ r, x'.pipeline.ring.holds r → x.pipeline.ring.holds r := fun r hr => by
      obtain ⟨k, hk⟩ := holds_iff.mp hr
      exact holds_iff.mpr ⟨k, hring _ hk⟩
    exact ⟨hx.held.turns ht, hx.read.turns ht, fun r hr => hacc ▸ hx.accepted r (hholds r hr),
      fun r hr => hseq r ▸ hx.known r (hholds r hr), fun k k' r hk hk' => hx.once k k' r (hring _ hk) (hring _ hk')⟩
  · have hpush : ∀ k r, (k, r) ∈ x'.pipeline.ring.toList →
        k = seq ∧ r = x.pipeline.entries.length ∨ (k, r) ∈ x.pipeline.ring.toList := fun k r hk => by
      rw [hp] at hk
      rcases mem_push.mp hk with heq | ⟨hmem, -⟩
      · exact .inl (Prod.mk.inj heq)
      · exact .inr hmem
    refine ⟨hx.held.turns ht, hx.read.turns ht, fun r hr => ?_, fun r hr => ?_, fun k k' r hk hk' => ?_⟩
    · obtain ⟨k, hk⟩ := holds_iff.mp hr
      rw [hacc, List.mem_append, List.mem_singleton]
      exact (hpush k r hk).symm.imp (fun hmem => hx.accepted r (holds_iff.mpr ⟨k, hmem⟩)) And.right
    · obtain ⟨k, hk⟩ := holds_iff.mp hr
      rw [hp]
      refine (seqOf_append x.pipeline _ _ r).symm ▸ ?_
      split
      · rfl
      · rename_i hne
        exact hx.known r (holds_iff.mpr ⟨k, (hpush k r hk).resolve_left fun h => hne h.2⟩)
    · rcases hpush k r hk with ⟨rfl, rfl⟩ | hmem
      · rcases hpush k' _ hk' with ⟨rfl, -⟩ | hmem'
        · rfl
        · exact absurd (hx.known _ (holds_iff.mpr ⟨k', hmem'⟩)) hlast
      · rcases hpush k' r hk' with ⟨-, rfl⟩ | hmem'
        · exact absurd (hx.known _ (holds_iff.mpr ⟨k, hmem⟩)) hlast
        · exact hx.once k k' r hmem hmem'

theorem terminal_turns (ht : Turns x a x') (h : x.pipeline.terminal r) : x'.pipeline.terminal r := by
  rcases ht.pipeline with ⟨a', -, heq⟩ | ⟨seq, term, tsNs, cmd, heq⟩ | ⟨ring, heq⟩ <;> rw [heq]
  · have hmoved := terminal_moves (step_moves x.pipeline a') h
    rw [discard_eq]
    exact hmoved
  · exact terminal_moves (step_moves x.pipeline _) h
  · exact h

theorem accepted_turns (ht : Turns x a x') (h : r ∈ x'.accepted) : r ∈ x.accepted ∨ x'.pipeline.ring.holds r := by
  cases ht with
  | engines _ hx' | collect _ _ hx' | remove _ _ hx' | stay _ hx' =>
    rw [hx'] at h
    exact .inl h
  | accept _ hp hacc =>
    rw [hacc, List.mem_append] at h
    rcases h with h | h
    · exact .inl h
    · cases List.mem_singleton.mp h
      rw [hp]
      exact .inr (holds_iff.mpr ⟨_, mem_push.mpr (.inl rfl)⟩)
  | reject _ _ hacc =>
    rw [hacc] at h
    exact .inl h

theorem accepted_mono (ht : Turns x a x') (h : r ∈ x.accepted) : r ∈ x'.accepted := by
  cases ht with
  | engines _ hx' | collect _ _ hx' | remove _ _ hx' | stay _ hx' =>
    rw [hx']
    exact h
  | accept _ _ hacc =>
    rw [hacc]
    exact List.mem_append_left _ h
  | reject _ _ hacc =>
    rw [hacc]
    exact h

/-- A write that both logs take puts an entry in the ring. -/
theorem write_pipeline (codec : Codec) (crc32 : Checksum) (x : DualPipeline M K X) (tsNs term seq : UInt64)
    (cmd : InboundCommand) :
    x.logA.Takes codec { term, seq, tsNs, cmd } ∧ x.logB.Takes codec { term, seq, tsNs, cmd } ∧
        (x.write codec crc32 tsNs term seq cmd).pipeline = x.pipeline.step (.push seq term tsNs cmd) ∨
      ¬ (x.logA.Takes codec { term, seq, tsNs, cmd } ∧ x.logB.Takes codec { term, seq, tsNs, cmd }) ∧
        (x.write codec crc32 tsNs term seq cmd).pipeline = x.pipeline := by
  rw [← Mirror.append_isOk_iff codec crc32, ← Mirror.append_isOk_iff codec crc32]
  rcases hA : x.logA.append codec crc32 { term, seq, tsNs, cmd } with ⟨logA, _ | _⟩ <;>
    rcases hB : x.logB.append codec crc32 { term, seq, tsNs, cmd } with ⟨logB, _ | _⟩ <;>
    simp only [DualPipeline.write, DualLog.write, DualPipeline.dualLog, hA, hB]
  · exact .inr ⟨fun h => Bool.false_ne_true h.1, trivial⟩
  · exact .inr ⟨fun h => Bool.false_ne_true h.1, trivial⟩
  · exact .inr ⟨fun h => Bool.false_ne_true h.2, trivial⟩
  · exact .inl ⟨rfl, rfl, rfl⟩

/-- What leaves the ring stood under a key that is freed. -/
theorem Tracked.freed (hx : Tracked x) (hr : x.pipeline.ring.holds r)
    (hr' : (x.step codec crc32 a).pipeline.ring.holds r = false) :
    ∃ key, (key, r) ∈ x.pipeline.ring.toList ∧ x.Frees codec key a := by
  have ht : Turns x a (x.step codec crc32 a) := step_turns x a
  cases ht with
  | @engines a' ha hx' =>
    rw [hx'] at hr'
    rcases hx.engines_ring ha with hsame | ⟨k, hremoves, -, hrem⟩
    · rw [hsame, hr] at hr'
      cases hr'
    · rw [hrem] at hr'
      refine ⟨k, mem_of_removed hr hr', ?_⟩
      cases a <;> cases ha <;> cases hremoves
      · exact .sorter (.sorter ‹_› ‹_› ‹_› ‹_›)
      · exact .worker (.worker ‹_› ‹_› ‹_› ‹_›)
  | @accept tsNs term seq cmd ha hp =>
    subst ha
    obtain ⟨k, hk⟩ := holds_iff.mp hr
    rcases write_pipeline codec crc32 x tsNs term seq cmd with ⟨hA, hB, -⟩ | ⟨-, hsame⟩
    · refine ⟨k, hk, ?_⟩
      by_cases hkey : k = seq
      · exact hkey ▸ .write hA hB
      · rw [hp] at hr'
        have hstill : (x.pipeline.ring.push seq x.pipeline.entries.length).holds r = true :=
          holds_iff.mpr ⟨k, mem_push.mpr (.inr ⟨hk, hkey⟩)⟩
        exact absurd (hr'.symm.trans hstill) Bool.false_ne_true
    · rw [DualPipeline.step, hsame, hr] at hr'
      cases hr'
  | reject _ hp =>
    rw [hp, hr] at hr'
    cases hr'
  | collect _ _ hx' | stay _ hx' =>
    rw [hx'] at hr'
    exact absurd (hr'.symm.trans hr) Bool.false_ne_true
  | remove ha hi hx' =>
    rw [hx'] at hr'
    exact ⟨_, mem_of_removed hr hr', ha ▸ .gc hi⟩

/-- What stands under a key that is freed leaves the ring, and keeps its status. -/
theorem Tracked.evicts (crc32 : Checksum) (hx : Tracked x) (h : x.Evicts codec r a) :
    (x.step codec crc32 a).pipeline.ring.holds r = false ∧ (x.step codec crc32 a).pipeline.terminal r = false := by
  obtain ⟨key, hkey, hfrees⟩ := h.freed
  have hknown := hx.known r (holds_iff.mpr ⟨key, hkey⟩)
  have hgone : ∀ ring : PendingRing X, (∀ k, (k, r) ∈ ring.toList → (k, r) ∈ x.pipeline.ring.toList ∧ k ≠ key) →
      ring.holds r = false := fun ring hring => by
    rw [Bool.eq_false_iff]
    intro hr
    obtain ⟨k, hk⟩ := holds_iff.mp hr
    exact (hring k hk).2 (hx.once k key r (hring k hk).1 hkey)
  have hremoved := hgone (x.pipeline.ring.remove key) fun k hk => mem_remove.mp hk
  cases hfrees with
  | @sorter i hremoves =>
    cases hremoves with
    | @sorter _ nowNs timeout entry status entries e hi hs he hseq =>
      subst hseq
      have hstep : x.pipeline.step (.sorter i) = (x.pipeline.removeEntry e).setSorter i (.scan nowNs timeout entries) := by
        cases status with
        | pending | unaddressed => cases hs
        | addressed | finallyHandled => simp only [Pipeline.step, hi, Pipeline.stepSorter, he]
      rw [DualPipeline.step, DualPipeline.engines, hstep, discard_eq]
      exact ⟨hremoved, h.notTerminal⟩
  | @worker i nowNs hremoves =>
    cases hremoves with
    | @worker _ _ w entry e hi hpc he hseq =>
      subst hseq
      have hstep : x.pipeline.step (.worker i nowNs) = (x.pipeline.removeEntry e).setWorker i { w with pc := .recv } := by
        simp only [Pipeline.step, hi, Pipeline.stepWorker, hpc, he]
      rw [DualPipeline.step, DualPipeline.engines, hstep, discard_eq]
      exact ⟨hremoved, h.notTerminal⟩
  | gc hi =>
    simp only [DualPipeline.step, hi, DualPipeline.stepGc]
    exact ⟨hremoved, h.notTerminal⟩
  | @write tsNs term cmd hA hB =>
    obtain ⟨-, -, hp⟩ := (write_pipeline codec crc32 x tsNs term key cmd).resolve_right fun hn => hn.1 ⟨hA, hB⟩
    have hne : r ≠ x.pipeline.entries.length := fun heq => by
      rw [heq, Pipeline.seqOf, List.getElem?_eq_none (Nat.le_refl _)] at hknown
      cases hknown
    rw [DualPipeline.step, hp]
    refine ⟨hgone _ fun k hk => ?_, ?_⟩
    · exact (mem_push.mp hk).resolve_left fun heq => hne (Prod.mk.inj heq).2
    · rw [Pipeline.terminal, Pipeline.step, status_append, if_neg hne]
      exact h.notTerminal

/-- If nothing is evicted, what is accepted stays in the ring until it is terminal. -/
theorem accepted_kept (hx : Tracked x) (hacc : ∀ r ∈ x.accepted, x.pipeline.terminal r ∨ x.pipeline.ring.holds r)
    (hevicts : ∀ r, ¬ x.Evicts codec r a) :
    ∀ r ∈ (x.step codec crc32 a).accepted,
      (x.step codec crc32 a).pipeline.terminal r ∨ (x.step codec crc32 a).pipeline.ring.holds r := by
  intro r hr
  have ht : Turns x a (x.step codec crc32 a) := step_turns x a
  rcases accepted_turns ht hr with hold | hring
  · cases hterm : x.pipeline.terminal r with
    | true => exact .inl (terminal_turns ht hterm)
    | false =>
      have hring := (hacc r hold).resolve_left (by rw [hterm]; exact Bool.false_ne_true)
      refine .inr (by_contra fun hlost => hevicts r ⟨?_, hterm⟩)
      rw [Bool.not_eq_true] at hlost
      exact hx.freed hring hlost
  · exact .inr hring

/-- A step loses an entry if and only if it orphans or evicts one. -/
theorem noneLost_step (hx : Tracked x) (hn : x.NoneLost) (a : DualPipeline.Action) : (x.step codec crc32 a).NoneLost ↔
    (∀ r, ¬ x.Orphans codec crc32 r a) ∧ ∀ r, ¬ x.Evicts codec r a := by
  have ht : Turns x a (x.step codec crc32 a) := step_turns x a
  have hx' := hx.turns ht
  constructor
  · intro hn'
    refine ⟨fun r horphans => ?_, fun r hevicts => ?_⟩
    · -- it was in its one place, so that it was `Unaddressed`, and still is
      obtain ⟨hstatus, hlt⟩ := orphans_lose hx.held horphans
      have hle := hx.held.places_le r
      have hst : x.pipeline.status r = some .unaddressed := by
        by_contra hne
        rw [if_neg hne] at hle
        omega
      rw [if_pos hst] at hle
      have hst' := hstatus.trans hst
      have hpos := (onItsWay_iff hx'.held hst').mp (hn'.unaddressed r hst')
      omega
    · obtain ⟨key, hkey, -⟩ := hevicts.freed
      obtain ⟨hring, hterm⟩ := hx.evicts crc32 hevicts
      rcases hn'.accepted r (accepted_mono ht (hx.accepted r (holds_iff.mpr ⟨key, hkey⟩))) with h | h
      · exact Bool.false_ne_true (hterm.symm.trans h)
      · exact Bool.false_ne_true (hring.symm.trans h)
  · rintro ⟨horphans, hevicts⟩
    refine ⟨accepted_kept hx hn.accepted hevicts, fun r hst' => (onItsWay_iff hx'.held hst').mpr ?_⟩
    cases kept_custody hx.held (horphans r) with
    | stay hst hplaces =>
      have hst := hst.symm.trans hst'
      have hpos := (onItsWay_iff hx.held hst).mp (hn.unaddressed r hst)
      exact Nat.lt_of_lt_of_eq hpos hplaces.symm
    | escalate _ _ hplaces =>
      dsimp only [Pipeline.custody] at hplaces
      omega
    | create _ hst | address _ hst | claim _ hst => cases hst.symm.trans hst'

/-! ## Sequence numbers -/

/-- Every number is that of one entry, in the ring too, and of a terminal one
where a collection is going to remove it. -/
structure Keyed (x : DualPipeline M K X) : Prop where
  inj : ∀ r r' k, x.pipeline.seqOf r = some k → x.pipeline.seqOf r' = some k → r = r'
  below : ∀ r k, x.pipeline.seqOf r = some k → k ≤ x.lastAssignedSeq
  ring : ∀ k r, (k, r) ∈ x.pipeline.ring.toList → x.pipeline.seqOf r = some k
  keys : ∀ (i : Nat) (pc : GcPc), x.gcs[i]? = some pc → ∀ k ∈ pc.keys, TerminalKey x.pipeline k
  reads : ∀ (i : Nat) (pc : GcPc), x.gcs[i]? = some pc → ∀ y ∈ pc.reads, x.pipeline.seqOf y.2 = some y.1

omit [DecidableEq K] [Arena M K] in
theorem Keyed.of_seqOf (hk : Keyed x) (hseq : ∀ r, x'.pipeline.seqOf r = x.pipeline.seqOf r)
    (hlast : x.lastAssignedSeq ≤ x'.lastAssignedSeq) (hring : ∀ y ∈ x'.pipeline.ring.toList, y ∈ x.pipeline.ring.toList)
    (hterm : ∀ r, x.pipeline.terminal r → x'.pipeline.terminal r)
    (hgcs : ∀ (i : Nat) (pc : GcPc), x'.gcs[i]? = some pc →
      (∀ k ∈ pc.keys, TerminalKey x.pipeline k) ∧ ∀ y ∈ pc.reads, x.pipeline.seqOf y.2 = some y.1) : Keyed x' := by
  refine ⟨fun r r' k h h' => ?_, fun r k h => ?_, fun k r h => ?_, fun i pc hi k hmem => ?_, fun i pc hi y hy => ?_⟩
  · exact hk.inj r r' k (hseq r ▸ h) (hseq r' ▸ h')
  · exact UInt64.le_trans (hk.below r k (hseq r ▸ h)) hlast
  · exact (hseq r).trans (hk.ring k r (hring _ h))
  · obtain ⟨r, hr, ht⟩ := (hgcs i pc hi).1 k hmem
    exact ⟨r, (hseq r).trans hr, hterm r ht⟩
  · exact (hseq _).trans ((hgcs i pc hi).2 y hy)

theorem Keyed.push (hk : Keyed x) {tsNs term seq : UInt64} {cmd : InboundCommand} (hm : x.lastAssignedSeq < seq)
    (hp : x'.pipeline = x.pipeline.step (.push seq term tsNs cmd)) (hgcs : x'.gcs = x.gcs)
    (hlast : x'.lastAssignedSeq = seq) : Keyed x' := by
  have hseq : ∀ r, x'.pipeline.seqOf r = if r = x.pipeline.entries.length then some seq else x.pipeline.seqOf r :=
    fun r => hp ▸ seqOf_append x.pipeline (LogEntry.new seq term tsNs cmd) _ r
  have hold : ∀ r k, x.pipeline.seqOf r = some k → x'.pipeline.seqOf r = some k := fun r k h => by
    rw [hseq, if_neg, h]
    rintro rfl
    rw [Pipeline.seqOf, List.getElem?_eq_none (Nat.le_refl _)] at h
    cases h
  have hnew : ∀ r k, x'.pipeline.seqOf r = some k →
      (r = x.pipeline.entries.length ∧ k = seq) ∨ (x.pipeline.seqOf r = some k ∧ k < seq) := fun r k h => by
    rw [hseq] at h
    split at h
    · rename_i hr
      exact .inl ⟨hr, (Option.some.inj h).symm⟩
    · exact .inr ⟨h, UInt64.lt_of_le_of_lt (hk.below r k h) hm⟩
  refine ⟨fun r r' k h h' => ?_, fun r k h => ?_, fun k r h => ?_, fun i pc hi k hmem => ?_, fun i pc hi y hy => ?_⟩
  · rcases hnew r k h with ⟨hr, hkseq⟩ | ⟨hr, hlt⟩ <;> rcases hnew r' k h' with ⟨hr', hkseq'⟩ | ⟨hr', hlt'⟩
    · exact hr.trans hr'.symm
    · exact absurd hkseq (UInt64.ne_of_lt hlt')
    · exact absurd hkseq' (UInt64.ne_of_lt hlt)
    · exact hk.inj r r' k hr hr'
  · rw [hlast]
    rcases hnew r k h with ⟨-, hkseq⟩ | ⟨-, hlt⟩
    · exact UInt64.le_of_eq hkseq
    · exact UInt64.le_of_lt hlt
  · rw [hp] at h
    rcases mem_push.mp h with heq | ⟨hmem, -⟩
    · cases heq
      rw [hseq, if_pos rfl]
    · exact hold r k (hk.ring k r hmem)
  · rw [hgcs] at hi
    obtain ⟨r, hr, ht⟩ := hk.keys i pc hi k hmem
    exact ⟨r, hold r k hr, hp ▸ terminal_moves (step_moves x.pipeline _) ht⟩
  · rw [hgcs] at hi
    exact hold _ _ (hk.reads i pc hi y hy)

omit [DecidableEq K] [Arena M K] in
theorem Keyed.not_evicts (hx : Tracked x) (hk : Keyed x) (hm : x.Monotonic a) : ¬ x.Evicts codec r a := by
  rintro ⟨⟨key, hkey, hfrees⟩, hnot⟩
  have hseq := hk.ring key r hkey
  -- a key that is removed is that of a terminal entry, which is this one
  have hremoved : ¬ TerminalKey x.pipeline key := by
    rintro ⟨r', hseq', hterm⟩
    rw [← hk.inj r r' key hseq hseq', hnot] at hterm
    cases hterm
  cases hfrees with
  | sorter hremoves =>
    cases hremoves with
    | sorter hi hs he hkey' =>
      have hst := hx.read _ _ hi _ rfl hs
      exact hremoved ⟨_, by rw [Pipeline.seqOf, he, ← hkey']; rfl, terminal_iff.mpr ⟨_, hst, hs⟩⟩
  | worker hremoves =>
    cases hremoves with
    | worker hi hpc he hkey' =>
      have hst := hx.held.workers _ _ hi
      rw [hpc] at hst
      exact hremoved ⟨_, by rw [Pipeline.seqOf, he, ← hkey']; rfl, terminal_iff.mpr ⟨_, hst, rfl⟩⟩
  | gc hi => exact hremoved (hk.keys _ _ hi key List.mem_cons_self)
  | write => exact UInt64.not_lt.mpr (hk.below r key hseq) hm

theorem Keyed.turns (hx : Tracked x) (hk : Keyed x) (hm : x.Monotonic a) (ht : Turns x a x') : Keyed x' := by
  have hterm : ∀ r, x.pipeline.terminal r → x'.pipeline.terminal r := fun r => terminal_turns ht
  cases ht with
  | @engines a' ha hx' =>
    subst hx'
    have hseq : ∀ r, (x.engines a').pipeline.seqOf r = x.pipeline.seqOf r := fun r => by
      rw [DualPipeline.engines, discard_eq]
      exact moves_seqOf (step_moves x.pipeline a') (engine_not_push ha) r
    refine hk.of_seqOf hseq (UInt64.le_refl _) (fun y hy => ?_) hterm fun i pc hi => ⟨hk.keys i pc hi, hk.reads i pc hi⟩
    rcases hx.engines_ring ha with hsame | ⟨k, -, -, hrem⟩
    · rwa [hsame] at hy
    · rw [hrem] at hy
      exact (mem_remove.mp hy).1
  | @accept tsNs term seq cmd ha hp _ hgcs hlast =>
    rw [ha] at hm
    exact hk.push hm hp hgcs hlast
  | @reject tsNs term seq cmd ha hp _ hgcs hlast =>
    rw [ha] at hm
    refine hk.of_seqOf (fun r => by rw [hp]) (hlast ▸ UInt64.le_of_lt hm) (fun y hy => hp ▸ hy) hterm fun i pc hi => ?_
    rw [hgcs] at hi
    exact ⟨hk.keys i pc hi, hk.reads i pc hi⟩
  | @collect i pc pc' _ hi hx' hgc =>
    subst hx'
    refine hk.of_seqOf (fun r => rfl) (UInt64.le_refl _) (fun y hy => hy) hterm ?_
    refine List.forall_getElem?_set (P := fun (_ : Nat) (pc : GcPc) => (∀ k ∈ pc.keys, TerminalKey x.pipeline k) ∧
      ∀ y ∈ pc.reads, x.pipeline.seqOf y.2 = some y.1) ⟨fun k hmem => ?_, fun y hy => hk.ring _ _ (hgc.reads y hy)⟩
      fun j c _ hj => ⟨hk.keys j c hj, hk.reads j c hj⟩
    rcases hgc.keys k hmem with hmem | ⟨entry, e, hreads, he, hs⟩
    · exact hk.keys i pc hi k hmem
    · exact ⟨entry, hk.reads i pc hi _ hreads, terminal_iff.mpr ⟨_, status_of_load he hs, hs⟩⟩
  | @remove i key terminalKeys _ hi hx' =>
    subst hx'
    refine hk.of_seqOf (fun r => rfl) (UInt64.le_refl _) (fun y hy => (mem_remove.mp hy).1) hterm ?_
    exact List.forall_getElem?_set (P := fun (_ : Nat) (pc : GcPc) => (∀ k ∈ pc.keys, TerminalKey x.pipeline k) ∧
      ∀ y ∈ pc.reads, x.pipeline.seqOf y.2 = some y.1)
      ⟨fun k hmem => hk.keys i _ hi k (List.mem_cons_of_mem _ hmem), fun y hy => nomatch hy⟩
      fun j c _ hj => ⟨hk.keys j c hj, hk.reads j c hj⟩
  | stay _ hx' => exact hx' ▸ hk

/-! ## Runs -/

omit [DecidableEq K] [Arena M K] in
theorem places_init (sorters : Nat) (books : List (SecondEngine.Books M K)) (r : EntryRef) :
    (Pipeline.init [] .new sorters books : Pipeline M K X).places r = 0 := by
  have hsorters : (List.replicate sorters SorterPc.idle).countP (·.escalates r) = 0 :=
    List.countP_eq_zero.mpr fun pc hpc => by rw [List.eq_of_mem_replicate hpc]; exact Bool.false_ne_true
  have hworkers : (books.map fun books => (⟨.recv, books⟩ : Worker M K)).countP (fun w => w.pc.awaits r) = 0 :=
    List.countP_eq_zero.mpr fun w hw => by
      obtain ⟨b, -, rfl⟩ := List.mem_map.mp hw
      exact Bool.false_ne_true
  simp only [Pipeline.places, Pipeline.queued, Pipeline.init, X.queued_new, hsorters, hworkers, List.count_nil]

variable (X) (logA logB : Wal.FileWalWriter) (lastAssignedSeq : UInt64) (sorters gcs : Nat)
  (books : List (SecondEngine.Books M K))

omit [DecidableEq K] [Arena M K] in
theorem tracked_init : Tracked (DualPipeline.init X logA logB lastAssignedSeq sorters gcs books) := by
  have hring : ∀ y : UInt64 × EntryRef, y ∉ (PendingRing.new : PendingRing X).toList := fun y hy => by
    rw [PendingRing.toList_new] at hy
    cases hy
  have hholds : ∀ r, ¬ (PendingRing.new : PendingRing X).holds r = true := fun r hr => by
    obtain ⟨k, hk⟩ := holds_iff.mp hr
    exact hring _ hk
  refine ⟨⟨fun r => ?_, fun i w hi => ?_, fun _ => X.queued_new⟩, fun i pc hi => ?_, fun r hr => absurd hr (hholds r),
    fun r hr => absurd hr (hholds r), fun k k' r hk => absurd hk (hring _)⟩
  · exact (places_init sorters books r).symm ▸ Nat.zero_le _
  · obtain ⟨b, -, rfl⟩ := List.mem_map.mp (List.mem_of_getElem? hi)
    trivial
  · cases List.eq_of_mem_replicate (List.mem_of_getElem? hi)
    exact read_of_none rfl

omit [DecidableEq K] [Arena M K] in
theorem keyed_init : Keyed (DualPipeline.init X logA logB lastAssignedSeq sorters gcs books) := by
  have hring : ∀ y : UInt64 × EntryRef, y ∉ (PendingRing.new : PendingRing X).toList := fun y hy => by
    rw [PendingRing.toList_new] at hy
    cases hy
  refine ⟨fun r r' k h => (nomatch h), fun r k h => (nomatch h), fun k r h => absurd h (hring _), fun i pc hi k hk => ?_,
    fun i pc hi y hy => ?_⟩
  · cases List.eq_of_mem_replicate (List.mem_of_getElem? hi)
    cases hk
  · cases List.eq_of_mem_replicate (List.mem_of_getElem? hi)
    cases hy

omit [DecidableEq K] [Arena M K] in
theorem noneLost_init : (DualPipeline.init X logA logB lastAssignedSeq sorters gcs books).NoneLost :=
  ⟨fun _ hr => (nomatch hr), fun _ hr => nomatch hr⟩

/-- Along an interleaving no accepted order is lost if and only if no step
orphans or evicts an entry; and no step evicts one as long as the sequence
numbers increase. -/
theorem noneLost_iff (codec : Codec) (crc32 : Checksum) (actions : List DualPipeline.Action) :
    ((∀ done, done <+: actions →
        ((DualPipeline.init X logA logB lastAssignedSeq sorters gcs books).run codec crc32 done).NoneLost) ↔
      AllSteps (DualPipeline.step codec crc32)
        (fun x a => (∀ r, ¬ x.Orphans codec crc32 r a) ∧ ∀ r, ¬ x.Evicts codec r a)
        (DualPipeline.init X logA logB lastAssignedSeq sorters gcs books) actions) ∧
    (AllSteps (DualPipeline.step codec crc32) Monotonic
        (DualPipeline.init X logA logB lastAssignedSeq sorters gcs books) actions →
      AllSteps (DualPipeline.step codec crc32) (fun x a => ∀ r, ¬ x.Evicts codec r a)
        (DualPipeline.init X logA logB lastAssignedSeq sorters gcs books) actions) := by
  have hinit := tracked_init X logA logB lastAssignedSeq sorters gcs books
  constructor
  · exact AllSteps.iff_forall_prefix (I := Tracked) (P := NoneLost) (fun x a hx => hx.turns (step_turns x a))
      (fun x a hx hn => noneLost_step hx hn a) hinit (noneLost_init X logA logB lastAssignedSeq sorters gcs books) actions
  · intro hmono
    refine AllSteps.imp (I := fun x => Tracked x ∧ Keyed x) (fun x a hx hm => ?_)
      (fun x a hx hm r => hx.2.not_evicts hx.1 hm) hmono ⟨hinit, keyed_init X logA logB lastAssignedSeq sorters gcs books⟩
    exact ⟨hx.1.turns (step_turns x a), hx.2.turns hx.1 hm (step_turns x a)⟩

end

/-! ## A worker that has ended -/

open Wal.Proof (byteSum)

/-- One sorter and one worker, in front of new logs. -/
def demoPipeline : DualPipeline SlotArena SlotKey (.lists _) :=
  .init _ Mirror.equalLogs.logA Mirror.equalLogs.logB Mirror.equalLogs.lastAssignedSeq 1 1 [∅]

/-- A scan finds the entry overdue, and claims and sends it. -/
def demoScan : List DualPipeline.Action := .startScan 0 1000000 0 :: List.replicate 6 (.sorter 0)

def demoWrite : DualPipeline.Action := .write 0 1 1 (.freezeAccount ⟨1⟩)

set_option maxRecDepth 2000

-- while the worker lives it handles the entry, which is then collected
example :
    let x := demoPipeline.run Bincode.codec byteSum (demoWrite :: demoScan ++
      List.replicate 4 (.worker 0 0) ++ .startGc 0 :: List.replicate 4 (.gc 0))
    (x.accepted, x.pipeline.status 0, x.pipeline.ring.toList) = ([0], some .finallyHandled, []) := by
  decide

/-- The worker has ended when the entry is written. It is accepted, a sorter claims
it and the send fails: it stays `Unaddressed`, and nobody has it. -/
theorem order_lost :
    AllSteps (DualPipeline.step Bincode.codec byteSum) Monotonic demoPipeline (.stop 0 :: demoWrite :: demoScan) ∧
    (demoPipeline.run Bincode.codec byteSum (.stop 0 :: demoWrite :: demoScan)).accepted = [0] ∧
    (demoPipeline.run Bincode.codec byteSum (.stop 0 :: demoWrite :: demoScan)).pipeline.status 0 = some .unaddressed ∧
    ¬ (demoPipeline.run Bincode.codec byteSum (.stop 0 :: demoWrite :: demoScan)).NoneLost := by
  have hst : (demoPipeline.run Bincode.codec byteSum (.stop 0 :: demoWrite :: demoScan)).pipeline.status 0 =
    some .unaddressed := by decide
  have hway : (demoPipeline.run Bincode.codec byteSum (.stop 0 :: demoWrite :: demoScan)).pipeline.onItsWay 0 = false := by
    decide
  refine ⟨by decide, by decide, hst, fun h => ?_⟩
  exact Bool.false_ne_true (hway.symm.trans (h.unaddressed 0 hst))

end Proof.DualEngine

end MRE
