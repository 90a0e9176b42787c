import MatchRiskEngine.Proof.DualEngine.NoneLost

/-!
# A scan escalates by the clocks' difference

While an entry is `Pending`, a scan that has come to it in the ring has it before
it (`SorterPc.due`), until it looks at it: then the entry is escalated, if the
difference of the clocks is over the timeout, or left. From one step
(`stepSorter_watched`) follows the whole scan, by induction on what happens while
it runs (`escalates_iff`). With sequence numbers that increase the entry does not
leave the ring, and the snapshot comes to it (`lists_of_monotonic`).
-/

namespace MRE

namespace SorterPc

/-- The entries that a scan is still to look at. -/
def due : SorterPc → List EntryRef
  | .idle => []
  | .snapshot _ _ _ entries | .scan _ _ entries | .send _ _ _ entries => entries
  | .loaded _ _ entry _ entries => entry :: entries

/-- A scan from the instant `nowNs` with that timeout, to which the entry is
`Pending`. -/
def At (nowNs timeout : UInt64) (r : EntryRef) : SorterPc → Prop
  | .idle => True
  | .snapshot n t _ _ | .scan n t _ | .send n t _ _ => n = nowNs ∧ t = timeout
  | .loaded n t entry status _ => (n = nowNs ∧ t = timeout) ∧ (entry = r → status = .pending)

end SorterPc

/-- A snapshot comes to the entry next. -/
def Pipeline.ListsAt {M K : Type} {X : Crossbeam EntryRef} (p : Pipeline M K X) (r : EntryRef) : SorterPc → Prop
  | .snapshot _ _ last _ => ∃ key, p.ring.next last = some (key, r)
  | _ => False

namespace Proof.DualEngine

open DualPipeline

variable {M K : Type} {X : Crossbeam EntryRef} {p p' : Pipeline M K X} {x x' : DualPipeline M K X}
  {entry r : EntryRef} {i j : Nat}
  {nowNs timeout ts : UInt64} {pc : SorterPc}

/-! ## Entries -/

theorem tryClaim_entry {source target : OrderStatus} {e : LogEntry} (h : p.tryClaim entry source target = some p')
    (he : p.entries[r]? = some e) : ∃ e', p'.entries[r]? = some e' ∧ e'.seq = e.seq ∧ e'.timestampIn = e.timestampIn := by
  obtain ⟨e₁, he₁, h⟩ := Option.bind_eq_some_iff.mp h
  obtain ⟨e₂, he₂, h⟩ := Option.bind_eq_some_iff.mp h
  unfold LogEntry.tryClaim at he₂
  split at he₂
  · cases he₂
    cases h
    by_cases hr : entry = r
    · subst hr
      cases he₁.symm.trans he
      exact ⟨_, List.getElem?_set_self (List.getElem?_eq_some_iff.mp he).1, rfl, rfl⟩
    · exact ⟨e, (List.getElem?_set_ne hr).trans he, rfl, rfl⟩
  · cases he₂

theorem moves_entry {a : MRE.Action} (hm : Moves p a p') {e : LogEntry} (he : p.entries[r]? = some e) :
    ∃ e', p'.entries[r]? = some e' ∧ e'.seq = e.seq ∧ e'.timestampIn = e.timestampIn := by
  cases hm with
  | stay | look | clear | receive | load | skip | apply | finish | stop => exact ⟨e, he, rfl, rfl⟩
  | address hclaim | escalate _ _ _ _ _ hclaim | claim _ _ hclaim =>
    have hclaimed := tryClaim_entry hclaim he
    exact hclaimed
  | push =>
    have hlt := (List.getElem?_eq_some_iff.mp he).1
    exact ⟨e, (List.getElem?_append_left hlt).trans he, rfl, rfl⟩
  | send =>
    refine ⟨e, ?_, rfl, rfl⟩
    unfold Pipeline.sendEntry
    split <;> exact he
  | @record i _ now price qty w entry =>
    have hmodify : (p.entries.modify entry (·.recordFill 2 now price qty))[r]? =
        some (if entry = r then e.recordFill 2 now price qty else e) := by
      rw [List.getElem?_modify, he]
      rfl
    refine ⟨_, hmodify, ?_, ?_⟩ <;> split <;> rfl

/-! ## One step of the sorter -/

/-- The entry is `Pending`, and the sorter is at a scan with that clock. -/
structure Watched (p : Pipeline M K X) (i : Nat) (r : EntryRef) (nowNs timeout ts : UInt64) (pc : SorterPc) : Prop where
  status : p.status r = some .pending
  entry : ∃ e, p.entries[r]? = some e ∧ e.timestampIn = ts
  sorter : p.sorters[i]? = some pc
  scan : pc.At nowNs timeout r

theorem sorter_setSorter (h : p.sorters[i]? = some pc) (hp' : p'.sorters = p.sorters) (pc' : SorterPc) :
    (p'.setSorter i pc').sorters[i]? = some pc' := by
  rw [Pipeline.setSorter, hp']
  exact List.getElem?_set_self (List.getElem?_eq_some_iff.mp h).1

/-- A sorter with an entry in its hands that it has found `Pending` goes by the
difference of the clocks. -/
theorem loaded_watched {entries : List EntryRef}
    (h : Watched p i r nowNs timeout ts (.loaded nowNs timeout r .pending entries)) :
    (timeout < nowNs.saturatingSub ts →
      (p.stepSorter i (.loaded nowNs timeout r .pending entries)).status r = some .unaddressed) ∧
    (¬ timeout < nowNs.saturatingSub ts →
      p.stepSorter i (.loaded nowNs timeout r .pending entries) = p.setSorter i (.scan nowNs timeout entries)) := by
  obtain ⟨e, he, rfl⟩ := h.entry
  obtain ⟨p', hclaim⟩ := tryClaim_of_status h.status .unaddressed
  obtain ⟨-, es, -, hstatus⟩ := tryClaim_ok hclaim
  simp only [Pipeline.stepSorter, he, hclaim, LogEntry.ageNs]
  refine ⟨fun hold => ?_, fun hyoung => if_neg hyoung⟩
  rw [if_pos hold]
  exact (hstatus r).trans (if_pos rfl)

/-- The sorter's step leaves the entry `Pending`, and the scan goes on. Before it is
what was, and what the step lists. -/
def GoesOn (p : Pipeline M K X) (i : Nat) (r : EntryRef) (nowNs timeout ts : UInt64) (pc : SorterPc) : Prop :=
  (p.stepSorter i pc).status r = some .pending ∧ ∃ pc', (p.stepSorter i pc).sorters[i]? = some pc' ∧
    pc'.At nowNs timeout r ∧ (timeout < nowNs.saturatingSub ts → (r ∈ pc'.due ↔ r ∈ pc.due ∨ p.ListsAt r pc))

theorem snapshot_goesOn {n t : UInt64} {last : Option UInt64} {entries : List EntryRef}
    (h : Watched p i r nowNs timeout ts (.snapshot n t last entries)) :
    GoesOn p i r nowNs timeout ts (.snapshot n t last entries) := by
  have hset := sorter_setSorter h.sorter (rfl : p.sorters = p.sorters)
  simp only [GoesOn, Pipeline.stepSorter]
  cases hnext : p.ring.next last with
  | none =>
    refine ⟨h.status, _, hset _, h.scan, fun _ => ⟨.inl, ?_⟩⟩
    rintro (hmem | ⟨key, hkey⟩)
    · exact hmem
    · cases hnext.symm.trans hkey
  | some found =>
    obtain ⟨seq, entry⟩ := found
    refine ⟨h.status, _, hset _, h.scan, fun _ => List.mem_append.trans (or_congr_right ?_)⟩
    rw [List.mem_singleton]
    constructor
    · rintro rfl
      exact ⟨seq, hnext⟩
    · rintro ⟨key, hkey⟩
      cases hnext.symm.trans hkey
      rfl

theorem scan_goesOn {n t : UInt64} {entries : List EntryRef} (h : Watched p i r nowNs timeout ts (.scan n t entries)) :
    GoesOn p i r nowNs timeout ts (.scan n t entries) := by
  have hset := sorter_setSorter h.sorter (rfl : p.sorters = p.sorters)
  cases entries with
  | nil => exact ⟨h.status, _, hset _, trivial, fun _ => (or_false _).symm ▸ Iff.rfl⟩
  | cons entry entries =>
    simp only [GoesOn, Pipeline.stepSorter]
    cases he : p.entries[entry]? with
    | none => exact ⟨h.status, _, h.sorter, h.scan, fun _ => (or_false _).symm ▸ Iff.rfl⟩
    | some e =>
      refine ⟨h.status, _, hset _, ⟨h.scan, ?_⟩, fun _ => (or_false _).symm ▸ Iff.rfl⟩
      rintro rfl
      exact loadStatus_eq he h.status

/-- Whatever becomes of another entry, this one is as it was. -/
theorem loaded_goesOn {n t : UInt64} {status : OrderStatus} {entries : List EntryRef}
    (h : Watched p i r nowNs timeout ts (.loaded n t entry status entries)) (hr : entry ≠ r) :
    GoesOn p i r nowNs timeout ts (.loaded n t entry status entries) := by
  have hset := sorter_setSorter h.sorter (rfl : p.sorters = p.sorters)
  have hscan := h.scan.1
  have hdue : r ∈ entries ↔ r ∈ entry :: entries ∨ False := by
    rw [or_false, List.mem_cons]
    exact ⟨.inr, fun hmem => hmem.resolve_left (Ne.symm hr)⟩
  simp only [GoesOn, Pipeline.stepSorter]
  cases he : p.entries[entry]? with
  | none => exact ⟨h.status, _, h.sorter, h.scan, fun _ => (or_false _).symm ▸ Iff.rfl⟩
  | some e =>
    cases status with
    | pending =>
      dsimp only
      split
      · split
        · rename_i hclaim
          obtain ⟨-, es, rfl, hstatus⟩ := tryClaim_ok hclaim
          have hkept := ((hstatus r).trans (if_neg (Ne.symm hr))).trans h.status
          exact ⟨hkept, _, sorter_setSorter h.sorter rfl _, hscan, fun _ => hdue⟩
        · exact ⟨h.status, _, hset _, hscan, fun _ => hdue⟩
      · exact ⟨h.status, _, hset _, hscan, fun _ => hdue⟩
    | addressed | finallyHandled => exact ⟨h.status, _, sorter_setSorter h.sorter rfl _, hscan, fun _ => hdue⟩
    | unaddressed => exact ⟨h.status, _, hset _, hscan, fun _ => hdue⟩

/-- A step of the sorter escalates an entry that is before it and overdue, or the
scan goes on. -/
theorem stepSorter_watched (h : Watched p i r nowNs timeout ts pc) :
    ((p.stepSorter i pc).status r = some .unaddressed ∧ timeout < nowNs.saturatingSub ts ∧ r ∈ pc.due) ∨
      GoesOn p i r nowNs timeout ts pc := by
  cases pc with
  | idle => exact .inr ⟨h.status, _, h.sorter, h.scan, fun _ => (or_false _).symm ▸ Iff.rfl⟩
  | snapshot n t last entries => exact .inr (snapshot_goesOn h)
  | scan n t entries => exact .inr (scan_goesOn h)
  | loaded n t entry status entries =>
    by_cases hr : entry = r
    · obtain ⟨⟨rfl, rfl⟩, hpending⟩ := h.scan
      obtain rfl := hpending hr
      subst hr
      obtain ⟨hescalated, hleft⟩ := loaded_watched h
      by_cases hold : t < n.saturatingSub ts
      · exact .inl ⟨hescalated hold, hold, List.mem_cons_self⟩
      · refine .inr ?_
        rw [GoesOn, hleft hold]
        exact ⟨h.status, _, sorter_setSorter h.sorter rfl _, ⟨rfl, rfl⟩, fun h => absurd h hold⟩
    · exact .inr (loaded_goesOn h hr)
  | send n t entry entries =>
    have hsent : (p.sendEntry entry).status r = p.status r ∧ (p.sendEntry entry).sorters = p.sorters := by
      unfold Pipeline.sendEntry
      split <;> exact ⟨rfl, rfl⟩
    exact .inr ⟨hsent.1.trans h.status, _, sorter_setSorter h.sorter hsent.2 _, h.scan,
      fun _ => (or_false _).symm ▸ Iff.rfl⟩

theorem lists_sorter (h : x.pipeline.sorters[i]? = some pc) : Lists i r x (.sorter i) ↔ x.pipeline.ListsAt r pc := by
  constructor
  · rintro ⟨-, n, t, last, entries, key, hpc, hnext⟩
    cases h.symm.trans hpc
    exact ⟨key, hnext⟩
  · intro hlists
    cases pc with
    | snapshot n t last entries =>
      obtain ⟨key, hnext⟩ := hlists
      exact ⟨rfl, n, t, last, entries, key, h, hnext⟩
    | idle | scan | loaded | send => exact hlists.elim

/-! ## Steps of the others -/

theorem stepSorter_sorters (p : Pipeline M K X) (pc : SorterPc) (hij : i ≠ j) :
    (p.stepSorter j pc).sorters[i]? = p.sorters[i]? := by
  have hset (p' : Pipeline M K X) (pc' : SorterPc) : (p'.setSorter j pc').sorters[i]? = p'.sorters[i]? :=
    List.getElem?_set_ne (Ne.symm hij)
  unfold Pipeline.stepSorter
  split
  · rfl
  · split <;> exact hset _ _
  · exact hset _ _
  · split
    · exact hset _ _
    · rfl
  · split
    · split
      · split
        · rename_i hclaim
          obtain ⟨-, es, rfl, -⟩ := tryClaim_ok hclaim
          exact hset _ _
        · exact hset _ _
      · exact hset _ _
    · exact hset _ _
    · exact hset _ _
    · exact hset _ _
    · rfl
  · rw [hset]
    unfold Pipeline.sendEntry
    split <;> rfl

section

variable [DecidableEq K] [Arena M K]

theorem stepWorker_sorters (p : Pipeline M K X) (w : Worker M K) : (p.stepWorker j nowNs w).sorters = p.sorters := by
  unfold Pipeline.stepWorker
  split
  · split <;> rfl
  · split <;> rfl
  · split
    · rfl
    · split
      · rename_i hclaim
        obtain ⟨-, es, rfl, -⟩ := tryClaim_ok hclaim
        rfl
      · rfl
  · split
    · dsimp only
      split <;> rfl
    · rfl
  · rfl
  · split <;> rfl
  · rfl

theorem step_sorters (p : Pipeline M K X) {a : MRE.Action} (hsorter : a ≠ .sorter i)
    (hstart : ∀ nowNs load, a ≠ .startScan i nowNs load) : (p.step a).sorters[i]? = p.sorters[i]? := by
  cases a with
  | push => rfl
  | primary entry =>
    simp only [Pipeline.step]
    split
    · rename_i hclaim
      obtain ⟨-, es, rfl, -⟩ := tryClaim_ok hclaim
      rfl
    · rfl
  | startScan j nowNs load =>
    have hij : j ≠ i := fun h => hstart nowNs load (h ▸ rfl)
    simp only [Pipeline.step]
    split
    · exact List.getElem?_set_ne hij
    · rfl
  | sorter j =>
    have hij : i ≠ j := fun h => hsorter (h ▸ rfl)
    simp only [Pipeline.step]
    split
    · exact stepSorter_sorters p _ hij
    · rfl
  | worker j nowNs =>
    simp only [Pipeline.step]
    split
    · rw [stepWorker_sorters]
    · rfl
  | stop j =>
    simp only [Pipeline.step]
    split <;> rfl

variable {a : DualPipeline.Action}

theorem turns_entry (ht : Turns x a x') {e : LogEntry} (he : x.pipeline.entries[r]? = some e) :
    ∃ e', x'.pipeline.entries[r]? = some e' ∧ e'.seq = e.seq ∧ e'.timestampIn = e.timestampIn := by
  rcases ht.pipeline with ⟨a', -, heq⟩ | ⟨seq, term, tsNs, cmd, heq⟩ | ⟨ring, heq⟩ <;> rw [heq]
  · rw [discard_eq]
    exact moves_entry (step_moves x.pipeline a') he
  · exact moves_entry (step_moves x.pipeline _) he
  · exact ⟨e, he, rfl, rfl⟩

theorem turns_sorters (ht : Turns x a x') (hsorter : a ≠ .sorter i)
    (hstart : ∀ nowNs load, a ≠ .startScan i nowNs load) : x'.pipeline.sorters[i]? = x.pipeline.sorters[i]? := by
  rcases ht.pipeline with ⟨a', ha, heq⟩ | ⟨seq, term, tsNs, cmd, heq⟩ | ⟨ring, heq⟩ <;> rw [heq]
  · rw [discard_eq]
    refine step_sorters x.pipeline ?_ ?_
    · rintro rfl
      cases a <;> cases ha
      exact hsorter rfl
    · rintro nowNs load rfl
      cases a <;> cases ha
      exact hstart _ _ rfl
  · rfl

/-! ## The scan -/

variable {codec : Codec} {crc32 : Checksum} {actions : List DualPipeline.Action}

theorem sorter_step (h : x.pipeline.sorters[i]? = some pc) :
    (x.step codec crc32 (.sorter i)).pipeline = (x.pipeline.stepSorter i pc).discard := by
  have hstep : x.pipeline.step (.sorter i) = x.pipeline.stepSorter i pc := by simp only [Pipeline.step, h]
  exact congrArg Pipeline.discard hstep

theorem watched_turns (h : Watched x.pipeline i r nowNs timeout ts pc) (ht : Turns x a x')
    (hstatus : x'.pipeline.status r = some .pending) {pc' : SorterPc} (hsorter : x'.pipeline.sorters[i]? = some pc')
    (hscan : pc'.At nowNs timeout r) : Watched x'.pipeline i r nowNs timeout ts pc' := by
  obtain ⟨e, he, hts⟩ := h.entry
  obtain ⟨e', he', -, hts'⟩ := turns_entry ht he
  exact ⟨hstatus, ⟨e', he', hts'.trans hts⟩, hsorter, hscan⟩

theorem run_entry {e : LogEntry} (he : x.pipeline.entries[r]? = some e) (actions : List DualPipeline.Action) :
    ∃ e', (x.run codec crc32 actions).pipeline.entries[r]? = some e' ∧ e'.seq = e.seq ∧
      e'.timestampIn = e.timestampIn := by
  induction actions generalizing x e with
  | nil => exact ⟨e, he, rfl, rfl⟩
  | cons a actions ih =>
    obtain ⟨e₁, he₁, hseq₁, hts₁⟩ := turns_entry (step_turns x a) he
    obtain ⟨e₂, he₂, hseq₂, hts₂⟩ := ih he₁
    exact ⟨e₂, he₂, hseq₂.trans hseq₁, hts₂.trans hts₁⟩

theorem sorter_watched (h : Watched x.pipeline i r nowNs timeout ts pc) :
    (Escalates codec crc32 i r x (.sorter i) ∧ timeout < nowNs.saturatingSub ts ∧ r ∈ pc.due) ∨
    (¬ Escalates codec crc32 i r x (.sorter i) ∧ ∃ pc',
      Watched (x.step codec crc32 (.sorter i)).pipeline i r nowNs timeout ts pc' ∧
      (timeout < nowNs.saturatingSub ts → (r ∈ pc'.due ↔ r ∈ pc.due ∨ x.pipeline.ListsAt r pc))) := by
  have hstep : (x.step codec crc32 (.sorter i)).pipeline = (x.pipeline.stepSorter i pc).discard := sorter_step h.sorter
  rcases stepSorter_watched h with ⟨hstatus, hold, hdue⟩ | ⟨hstatus, pc', hpc', hscan, hdue⟩
  · refine .inl ⟨⟨rfl, h.status, ?_⟩, hold, hdue⟩
    rw [hstep, discard_status]
    exact hstatus
  · have hstatus' : (x.step codec crc32 (.sorter i)).pipeline.status r = some .pending := by
      rw [hstep, discard_status]
      exact hstatus
    refine .inr ⟨fun hesc => ?_, pc', watched_turns h (step_turns x _) hstatus' ?_ hscan, hdue⟩
    · cases hstatus'.symm.trans hesc.2.2
    · rw [hstep, discard_eq]
      exact hpc'

/-- The scan escalates the entry if and only if the clocks' difference is over the
timeout and the entry is before it or its snapshot comes to it. -/
theorem escalates_iff (h : Watched x.pipeline i r nowNs timeout ts pc)
    (hleaves : AllSteps (DualPipeline.step codec crc32) (LeavesPending codec crc32 i r) x actions)
    (hended : (x.run codec crc32 actions).pipeline.sorters[i]? = some .idle) :
    SomeStep (DualPipeline.step codec crc32) (Escalates codec crc32 i r) x actions ↔
      timeout < nowNs.saturatingSub ts ∧ (r ∈ pc.due ∨ SomeStep (DualPipeline.step codec crc32) (Lists i r) x actions) := by
  induction actions generalizing x pc with
  | nil =>
    cases h.sorter.symm.trans hended
    refine ⟨fun hno => hno.elim, ?_⟩
    rintro ⟨-, hmem | hno⟩
    · cases hmem
    · exact hno
  | cons a actions ih =>
    obtain ⟨hleave, hleaves⟩ := hleaves
    by_cases ha : a = .sorter i
    · subst ha
      rcases sorter_watched h with ⟨hesc, hold, hdue⟩ | ⟨hkept, pc', hwatched, hdue⟩
      · exact ⟨fun _ => ⟨hold, .inl hdue⟩, fun _ => .inl hesc⟩
      · have hrest := ih hwatched hleaves hended
        rw [SomeStep, SomeStep, or_iff_right hkept, hrest, lists_sorter h.sorter, ← or_assoc]
        exact and_congr_right fun hold => or_congr_left (hdue hold)
    · obtain ⟨hstart, hpending⟩ := hleave.resolve_left ha
      have ht : Turns x a (x.step codec crc32 a) := step_turns x a
      have hsorter := (turns_sorters ht ha hstart).trans h.sorter
      have hrest := ih (watched_turns h ht (hpending h.status) hsorter h.scan) hleaves hended
      have hesc : ¬ Escalates codec crc32 i r x a := fun h => ha h.1
      have hlists : ¬ Lists i r x a := fun h => ha h.1
      rw [SomeStep, SomeStep, or_iff_right hesc, or_iff_right hlists]
      exact hrest

/-! ## Sequence numbers that increase -/

/-- What holds along runs with numbers that increase. -/
structure Kept (x : DualPipeline M K X) : Prop where
  tracked : Tracked x
  keyed : Keyed x
  accepted : ∀ r ∈ x.accepted, x.pipeline.terminal r ∨ x.pipeline.ring.holds r

theorem Kept.step (h : Kept x) (hm : x.Monotonic a) : Kept (x.step codec crc32 a) :=
  ⟨h.tracked.turns (step_turns x a), h.keyed.turns h.tracked hm (step_turns x a),
    accepted_kept h.tracked h.accepted fun _ => h.keyed.not_evicts h.tracked hm⟩

theorem Kept.run (h : Kept x) (hmono : AllSteps (DualPipeline.step codec crc32) Monotonic x actions) :
    Kept (x.run codec crc32 actions) :=
  hmono.foldl_inv (I := Kept) (fun _ _ hx hm => hx.step hm) h

omit [DecidableEq K] [Arena M K] in
/-- An accepted entry that is `Pending` is in the ring, under its number. -/
theorem Kept.mem_ring (h : Kept x) (hr : r ∈ x.accepted) (hstatus : x.pipeline.status r = some .pending) {e : LogEntry}
    (he : x.pipeline.entries[r]? = some e) : (e.seq, r) ∈ x.pipeline.ring.toList := by
  have hnot : ¬ x.pipeline.terminal r := by
    rw [Pipeline.terminal, hstatus]
    exact Bool.false_ne_true
  obtain ⟨k, hk⟩ := holds_iff.mp ((h.accepted r hr).resolve_left hnot)
  have hseq := h.keyed.ring k r hk
  rw [Pipeline.seqOf, he] at hseq
  cases hseq
  exact hk

/-- A snapshot that has not come as far as the entry comes to it. -/
theorem lists_of_monotonic {last : Option UInt64} {entries : List EntryRef} {e : LogEntry} (hx : Kept x)
    (hr : r ∈ x.accepted) (hstatus : x.pipeline.status r = some .pending) (he : x.pipeline.entries[r]? = some e)
    (hpc : x.pipeline.sorters[i]? = some (.snapshot nowNs timeout last entries)) (hlast : last.all (· < e.seq))
    (hleaves : AllSteps (DualPipeline.step codec crc32) (LeavesPending codec crc32 i r) x actions)
    (hmono : AllSteps (DualPipeline.step codec crc32) Monotonic x actions)
    (hended : (x.run codec crc32 actions).pipeline.sorters[i]? = some .idle) :
    SomeStep (DualPipeline.step codec crc32) (Lists i r) x actions := by
  induction actions generalizing x last entries e with
  | nil => cases hpc.symm.trans hended
  | cons a actions ih =>
    have ht : Turns x a (x.step codec crc32 a) := step_turns x a
    obtain ⟨e', he', hseq, -⟩ := turns_entry ht he
    have hx' : Kept (x.step codec crc32 a) := hx.step hmono.1
    have hr' := accepted_mono ht hr
    by_cases ha : a = .sorter i
    · subst ha
      obtain ⟨k, found, hnext, hfound⟩ := Crossbeam.next_of_mem (hx.mem_ring hr hstatus he) hlast
      rcases hfound with rfl | hlt
      · exact .inl ((lists_sorter hpc).mpr ⟨k, hnext⟩)
      · have hstep : (x.step codec crc32 (.sorter i)).pipeline =
            (x.pipeline.setSorter i (.snapshot nowNs timeout (some k) (entries ++ [found]))).discard := by
          rw [sorter_step hpc]
          simp only [Pipeline.stepSorter, PendingRing.next, hnext]
        have hlast' : (some k).all (· < e'.seq) := by
          rw [hseq]
          exact decide_eq_true hlt
        have hstatus' : (x.step codec crc32 (.sorter i)).pipeline.status r = some .pending := by
          rw [hstep, discard_status]
          exact hstatus
        have hpc' : (x.step codec crc32 (.sorter i)).pipeline.sorters[i]? =
            some (.snapshot nowNs timeout (some k) (entries ++ [found])) := by
          rw [hstep, discard_eq]
          exact sorter_setSorter hpc rfl _
        exact .inr (ih hx' hr' hstatus' he' hpc' hlast' hleaves.2 hmono.2 hended)
    · obtain ⟨hstart, hpending⟩ := hleaves.1.resolve_left ha
      have hpc' := (turns_sorters ht ha hstart).trans hpc
      exact .inr (ih hx' hr' (hpending hstatus) he' hpc' (hseq ▸ hlast) hleaves.2 hmono.2 hended)

/-! ## Ages -/

omit [DecidableEq K] [Arena M K] in
theorem kept_init (logA logB : Wal.FileWalWriter) (lastAssignedSeq : UInt64) (sorters gcs : Nat)
    (books : List (SecondEngine.Books M K)) : Kept (DualPipeline.init X logA logB lastAssignedSeq sorters gcs books) :=
  ⟨tracked_init .., keyed_init .., (noneLost_init X logA logB lastAssignedSeq sorters gcs books).accepted⟩

variable {s : AgedScan M K X}

omit [DecidableEq K] [Arena M K] in
theorem timeout_lt_iff (s : AgedScan M K X) :
    adaptiveTimeout s.load <
        (elapsedNs s.origins.sorter s.scanned).saturatingSub (elapsedNs s.origins.dualLog s.written) ↔
      (s.timeout : Int) < s.age + s.clockError := by
  rw [UInt64.lt_iff_toNat_lt, UInt64.toNat_saturatingSub, AgedScan.clockError, AgedScan.timeout]
  omega

theorem afterWrite_entry (h : s.Valid) :
    s.afterWrite.pipeline.entries[s.entry]? =
      some (LogEntry.new s.seq s.term (elapsedNs s.origins.dualLog s.written) s.cmd) := by
  have ht : Turns s.atWrite s.write s.afterWrite := step_turns s.atWrite s.write
  have hgrown : s.afterWrite.accepted ≠ s.atWrite.accepted := fun hsame => by
    have hlen := congrArg List.length (h.accepted.symm.trans hsame)
    rw [List.length_append, List.length_singleton] at hlen
    omega
  cases ht with
  | engines ha => cases ha
  | accept hw hp =>
    cases hw
    rw [hp]
    exact List.getElem?_concat_length
  | reject _ _ hsame => exact absurd hsame hgrown
  | collect _ _ hx | remove _ _ hx | stay _ hx => exact absurd (hx ▸ rfl) hgrown

theorem scanning_entry (h : s.Valid) : ∃ e, s.scanning.pipeline.entries[s.entry]? = some e ∧ e.seq = s.seq ∧
    e.timestampIn = elapsedNs s.origins.dualLog s.written := by
  obtain ⟨e, he, hseq, hts⟩ := run_entry (afterWrite_entry h) s.between
  obtain ⟨e', he', hseq', hts'⟩ := turns_entry (step_turns s.atScan s.startScan) he
  exact ⟨e', he', hseq'.trans hseq, hts'.trans hts⟩

theorem scanning_pipeline (h : s.Valid) : s.scanning.pipeline = (s.atScan.pipeline.setSorter s.sorter
    (.snapshot (elapsedNs s.origins.sorter s.scanned) (adaptiveTimeout s.load) none [])).discard := by
  have hstep : s.atScan.pipeline.step (.startScan s.sorter (elapsedNs s.origins.sorter s.scanned) s.load) =
      s.atScan.pipeline.setSorter s.sorter
        (.snapshot (elapsedNs s.origins.sorter s.scanned) (adaptiveTimeout s.load) none []) := by
    simp only [Pipeline.step, h.idle]
  exact congrArg Pipeline.discard hstep

theorem scanning_watched (h : s.Valid) :
    Watched s.scanning.pipeline s.sorter s.entry (elapsedNs s.origins.sorter s.scanned) (adaptiveTimeout s.load)
      (elapsedNs s.origins.dualLog s.written)
      (.snapshot (elapsedNs s.origins.sorter s.scanned) (adaptiveTimeout s.load) none []) := by
  obtain ⟨e, he, -, hts⟩ := scanning_entry h
  refine ⟨?_, ⟨e, he, hts⟩, ?_, ⟨rfl, rfl⟩⟩
  · rw [scanning_pipeline h, discard_status]
    exact h.pending
  · rw [scanning_pipeline h, discard_eq]
    exact sorter_setSorter h.idle rfl _

theorem escalated_iff_listed (h : s.Valid) : s.Escalated ↔ (s.timeout : Int) < s.age + s.clockError ∧ s.Listed := by
  have hiff := escalates_iff (scanning_watched h) h.leaves h.ended
  have hnone : s.entry ∉ (SorterPc.snapshot (elapsedNs s.origins.sorter s.scanned) (adaptiveTimeout s.load) none []).due :=
    List.not_mem_nil
  rw [timeout_lt_iff, or_iff_right hnone] at hiff
  exact hiff

/-- The clocks' difference is off by the time between the creations, as long as
both have run for less than `2 ^ 64` nanoseconds. -/
theorem clockError_eq (h : s.Valid) (hscan : s.scanned - s.origins.sorter < 2 ^ 64)
    (hwrite : s.written - s.origins.dualLog < 2 ^ 64) :
    s.clockError = (s.origins.dualLog : Int) - s.origins.sorter := by
  have hcreated := h.created
  have horder := h.order
  rw [AgedScan.clockError, AgedScan.age, elapsedNs, elapsedNs, UInt64.toNat_ofNat_of_lt' hscan,
    UInt64.toNat_ofNat_of_lt' hwrite]
  omega

theorem listed_of_monotonic (h : s.Valid)
    (hmono : AllSteps (DualPipeline.step s.codec s.crc32) Monotonic s.opened s.actions) : s.Listed := by
  obtain ⟨logA, logB, lastAssignedSeq, sorters, gcs, books, hopened⟩ := h.opened
  have hinit : Kept s.opened := hopened ▸ kept_init logA logB lastAssignedSeq sorters gcs books
  obtain ⟨e, he, -, -⟩ := scanning_entry h
  -- the run, in its parts
  obtain ⟨hbefore, hstart, hduring⟩ := AllSteps.append.mp hmono
  have hatScan : (s.earlier ++ s.write :: s.between).foldl (DualPipeline.step s.codec s.crc32) s.opened = s.atScan := by
    rw [List.foldl_append]
    rfl
  have hkept : Kept s.atScan := hatScan ▸ hinit.run hbefore
  rw [hatScan] at hstart hduring
  have hmem : s.entry ∈ s.scanning.accepted := by
    have hwritten : s.entry ∈ s.afterWrite.accepted := by
      rw [h.accepted]
      exact List.mem_append_right _ (List.mem_singleton.mpr rfl)
    have hmono' : ∀ (x : DualPipeline M K X) (a : DualPipeline.Action), s.entry ∈ x.accepted →
        s.entry ∈ (x.step s.codec s.crc32 a).accepted :=
      fun x a => accepted_mono (step_turns x a)
    exact hmono' _ _ (foldl_inv hmono' hwritten s.between)
  have hwatched := scanning_watched h
  exact lists_of_monotonic (hkept.step hstart) hmem hwatched.status he hwatched.sorter rfl h.leaves hduring h.ended

/-- A scan escalates the entries that are older than the timeout, and only those,
exactly as long as the clocks' error does not bring one to the other side of it;
and, if the snapshot does not come to the entry, as long as that is not older. -/
theorem escalated_by_age (s : AgedScan M K X) (h : s.Valid) :
    ((s.Escalated ↔ s.timeout < s.age) ↔ (s.Listed → ¬ s.Misjudged) ∧ (¬ s.Listed → s.age ≤ s.timeout)) ∧
    (AllSteps (DualPipeline.step s.codec s.crc32) Monotonic s.opened s.actions → s.Listed) ∧
    (s.scanned - s.origins.sorter < 2 ^ 64 → s.written - s.origins.dualLog < 2 ^ 64 →
      s.clockError = (s.origins.dualLog : Int) - s.origins.sorter) := by
  refine ⟨?_, listed_of_monotonic h, clockError_eq h⟩
  rw [escalated_iff_listed h, AgedScan.Misjudged]
  by_cases hlisted : s.Listed
  · simp only [hlisted, and_true, forall_const, not_true, IsEmpty.forall_iff]
    omega
  · simp only [hlisted, and_false, IsEmpty.forall_iff, not_false_eq_true, forall_const, true_and, false_iff, Nat.not_lt]

end

/-! ## Sorters that were started with the log, and later -/

open Wal.Proof (byteSum)

/-- The sorter is created at `origin`, an entry is written an hour after the log was
created, and the scan, of so many steps, is ten milliseconds later. -/
def agedScan (origin steps : Nat) : AgedScan SlotArena SlotKey (.lists _) :=
  { codec := Bincode.codec, crc32 := byteSum, opened := demoPipeline, origins := ⟨0, origin⟩, earlier := []
    written := 3600000000000, term := 1, seq := 1, cmd := .freezeAccount ⟨1⟩, between := []
    sorter := 0, scanned := 3600010000000, load := 0, during := List.replicate steps (.sorter 0) }

/-- The sorter is created with the log. -/
abbrev promptSorter : AgedScan SlotArena SlotKey (.lists _) := agedScan 0 6

/-- The sorter is created an hour later. -/
abbrev lateSorter : AgedScan SlotArena SlotKey (.lists _) := agedScan 3600000000000 5

set_option maxRecDepth 2000

theorem agedScan_run : ∀ c ∈ [(0, 6), (3600000000000, 5)],
    ((agedScan c.1 c.2).afterWrite.accepted = [0] ∧ (agedScan c.1 c.2).atScan.pipeline.status 0 = some .pending ∧
      (agedScan c.1 c.2).atScan.pipeline.sorters = [.idle] ∧
      ((agedScan c.1 c.2).scanning.run Bincode.codec byteSum (agedScan c.1 c.2).during).pipeline.sorters = [.idle]) ∧
    AllSteps (DualPipeline.step Bincode.codec byteSum) Monotonic demoPipeline (agedScan c.1 c.2).actions ∧
    (SomeStep (DualPipeline.step Bincode.codec byteSum) (Escalates Bincode.codec byteSum 0 0) (agedScan c.1 c.2).scanning
      (agedScan c.1 c.2).during ↔ c.1 = 0) := by
  decide

theorem leavesPending_replicate {x : DualPipeline M K X} [DecidableEq K] [Arena M K] (codec : Codec)
    (crc32 : Checksum) (n : Nat) : AllSteps (DualPipeline.step codec crc32) (LeavesPending codec crc32 i r) x
      (List.replicate n (.sorter i)) := by
  induction n generalizing x with
  | zero => trivial
  | succ n ih => exact ⟨.inl rfl, ih⟩

theorem agedScan_valid {c : Nat × Nat} (hc : c ∈ [(0, 6), (3600000000000, 5)]) : (agedScan c.1 c.2).Valid := by
  obtain ⟨⟨haccepted, hpending, hidle, hended⟩, -⟩ := agedScan_run c hc
  exact
    { opened := ⟨_, _, _, _, _, _, rfl⟩
      created := ⟨Nat.zero_le _, (by decide : ∀ c ∈ [(0, 6), (3600000000000, 5)], c.1 ≤ 3600000000000) c hc⟩
      order := (by decide : 3600000000000 ≤ 3600010000000)
      accepted := haccepted
      pending := hpending
      idle := congrArg (·[0]?) hidle
      leaves := leavesPending_replicate _ _ c.2
      ended := congrArg (·[0]?) hended }

/-- With one origin of the clocks, the overdue entry is escalated. -/
theorem escalated_by_age_prompt :
    promptSorter.Valid ∧ promptSorter.timeout < promptSorter.age ∧ promptSorter.Escalated := by
  have hvalid : promptSorter.Valid := agedScan_valid (c := (0, 6)) (by decide)
  obtain ⟨hiff, hlisted, herror⟩ := escalated_by_age promptSorter hvalid
  have hlisted := hlisted (agedScan_run (0, 6) (by decide)).2.1
  have hnot : ¬ promptSorter.Misjudged := by
    rw [AgedScan.Misjudged, herror (by decide) (by decide)]
    decide
  exact ⟨hvalid, by decide, (hiff.mpr ⟨fun _ => hnot, fun h => absurd hlisted h⟩).mpr (by decide)⟩

/-- The entry is ten milliseconds old, and the timeout is 200 microseconds. To a
sorter that was created later the entry is of no age at all, and it leaves it. -/
theorem overdue_left : lateSorter.Valid ∧ lateSorter.timeout < lateSorter.age ∧ ¬ lateSorter.Escalated :=
  ⟨agedScan_valid (c := (3600000000000, 5)) (by decide), by decide,
    fun h => absurd ((agedScan_run (3600000000000, 5) (by decide)).2.2.mp h) (by decide)⟩

end Proof.DualEngine

end MRE
