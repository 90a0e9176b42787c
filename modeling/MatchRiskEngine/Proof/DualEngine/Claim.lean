import MatchRiskEngine.Spec.DualEngine

/-!
# One engine for each entry

The moves of the threads, with what is known when one is made, are `Moves`: every
step is one of them (`step_moves`), and what holds along runs is proved from them.

Whatever a thread does in one move is a `Ticket.Step` of each entry
(`moves_ticket`), and those keep a ticket sound (`Ticket.Sound`): an entry's
status leaves `Pending` once, so one sorter at most is to send it, and it leaves
`Unaddressed` once, so one worker at most is to apply it. Hence what holds
after any interleaving (`run_claims`).
-/

namespace MRE

/-- The entry whose status a sorter has loaded, and the status. -/
def SorterPc.reads : SorterPc → Option (EntryRef × OrderStatus)
  | .loaded _ _ entry status _ => some (entry, status)
  | _ => none

namespace Proof.DualEngine

variable {M K : Type} {X : Crossbeam EntryRef}

/-- The moves that an action can lead to. -/
inductive Moves (p : Pipeline M K X) : MRE.Action → Pipeline M K X → Prop where
  /-- The thread cannot go on. -/
  | stay {a : MRE.Action} : Moves p a p
  | push {seq term timestampIn : UInt64} {cmd : InboundCommand} : Moves p (.push seq term timestampIn cmd)
      { p with
        entries := p.entries ++ [LogEntry.new seq term timestampIn cmd]
        ring := p.ring.push seq p.entries.length }
  | address {entry : EntryRef} {p' : Pipeline M K X} : p.tryClaim entry .pending .addressed = some p' →
      Moves p (.primary entry) { p' with addressed := p'.addressed ++ [entry] }
  /-- A sorter goes on without touching anything. -/
  | look {a : MRE.Action} {i : Nat} {pc pc' : SorterPc} : p.sorters[i]? = some pc → (∀ r, pc.escalates r = false) →
      (∀ r, pc'.escalates r = false) →
      (∀ x ∈ pc'.reads, ∃ e, p.entries[x.1]? = some e ∧ e.loadStatus = x.2) → Moves p a (p.setSorter i pc')
  | escalate {i : Nat} {pc : SorterPc} {p' : Pipeline M K X} {entry : EntryRef} (nowNs timeout : UInt64)
      (entries : List EntryRef) : p.sorters[i]? = some pc → (∀ r, pc.escalates r = false) →
      p.tryClaim entry .pending .unaddressed = some p' →
      Moves p (.sorter i) (p'.setSorter i (.send nowNs timeout entry entries))
  /-- A sorter removes an entry that it has found terminal. -/
  | clear {i : Nat} {nowNs timeout : UInt64} {entry : EntryRef} {status : OrderStatus} {entries : List EntryRef}
      {e : LogEntry} : p.sorters[i]? = some (.loaded nowNs timeout entry status entries) → status.isTerminal →
      p.entries[entry]? = some e → Moves p (.sorter i) ((p.removeEntry e).setSorter i (.scan nowNs timeout entries))
  | send {i : Nat} {nowNs timeout : UInt64} {entry : EntryRef} {entries : List EntryRef} :
      p.sorters[i]? = some (.send nowNs timeout entry entries) →
      Moves p (.sorter i) ((p.sendEntry entry).setSorter i (.scan nowNs timeout entries))
  | receive {i : Nat} {nowNs : UInt64} {w : Worker M K} {entry : EntryRef} {channel : X.Channel} :
      p.workers[i]? = some w → w.pc = .recv → X.recv p.channel = some (entry, channel) →
      Moves p (.worker i nowNs) ({ p with channel }.setWorker i { w with pc := .received entry })
  | load {i : Nat} {nowNs : UInt64} {w : Worker M K} {entry : EntryRef} {e : LogEntry} : p.workers[i]? = some w →
      w.pc = .received entry → p.entries[entry]? = some e →
      Moves p (.worker i nowNs) (p.setWorker i { w with pc := .loaded entry e.loadStatus })
  /-- A worker drops an entry that is not `Unaddressed`. -/
  | skip {i : Nat} {nowNs : UInt64} {w : Worker M K} {entry : EntryRef} {status : OrderStatus} : p.workers[i]? = some w →
      w.pc = .loaded entry status →
      (status = .unaddressed → p.tryClaim entry .unaddressed .finallyHandled = none) →
      Moves p (.worker i nowNs) (p.setWorker i { w with pc := .recv })
  | claim {i : Nat} {nowNs : UInt64} {w : Worker M K} {entry : EntryRef} {status : OrderStatus} {p' : Pipeline M K X} :
      p.workers[i]? = some w → w.pc = .loaded entry status →
      p.tryClaim entry .unaddressed .finallyHandled = some p' →
      Moves p (.worker i nowNs) (p'.setWorker i { w with pc := .claimed entry })
  /-- A worker applies its entry, or panics. -/
  | apply {i : Nat} {nowNs : UInt64} {w w' : Worker M K} {entry : EntryRef} : p.workers[i]? = some w →
      w.pc = .claimed entry → (w'.pc = .stopped ∨ ∃ now price qty, w'.pc = .applied entry now price qty) →
      Moves p (.worker i nowNs) ({ p with applied := p.applied ++ [entry] }.setWorker i w')
  | record {i : Nat} {nowNs now price qty : UInt64} {w : Worker M K} {entry : EntryRef} : p.workers[i]? = some w →
      w.pc = .applied entry now price qty →
      Moves p (.worker i nowNs) ({ p with entries := p.entries.modify entry (·.recordFill 2 now price qty) }.setWorker i
        { w with pc := .recorded entry })
  | finish {i : Nat} {nowNs : UInt64} {w : Worker M K} {entry : EntryRef} {e : LogEntry} : p.workers[i]? = some w →
      w.pc = .recorded entry → p.entries[entry]? = some e →
      Moves p (.worker i nowNs) ((p.removeEntry e).setWorker i { w with pc := .recv })
  | stop {i : Nat} {w : Worker M K} : p.workers[i]? = some w →
      Moves p (.stop i) (p.setWorker i { w with pc := .stopped })

variable {p : Pipeline M K X} {i : Nat}

theorem stepSorter_moves {pc : SorterPc} (h : p.sorters[i]? = some pc) : Moves p (.sorter i) (p.stepSorter i pc) := by
  cases pc with
  | idle => exact .stay
  | snapshot nowNs timeout last entries =>
    simp only [Pipeline.stepSorter]
    split <;> exact .look h (fun _ => rfl) (fun _ => rfl) nofun
  | scan nowNs timeout entries =>
    cases entries with
    | nil => exact .look h (fun _ => rfl) (fun _ => rfl) nofun
    | cons entry entries =>
      simp only [Pipeline.stepSorter]
      split
      · rename_i e he
        refine .look h (fun _ => rfl) (fun _ => rfl) fun x hx => ?_
        cases hx
        exact ⟨e, he, rfl⟩
      · exact .stay
  | loaded nowNs timeout entry status entries =>
    have hscan : Moves p (.sorter i) (p.setSorter i (.scan nowNs timeout entries)) :=
      .look h (fun _ => rfl) (fun _ => rfl) nofun
    simp only [Pipeline.stepSorter]
    split
    · split
      · split
        · rename_i hclaim
          exact .escalate nowNs timeout entries h (fun _ => rfl) hclaim
        · exact hscan
      · exact hscan
    · rename_i he
      exact .clear h rfl he
    · rename_i he
      exact .clear h rfl he
    · exact hscan
    · exact .stay
  | send nowNs timeout entry entries => exact .send h

variable [DecidableEq K] [Arena M K]

theorem stepWorker_moves {w : Worker M K} (h : p.workers[i]? = some w) (nowNs : UInt64) :
    Moves p (.worker i nowNs) (p.stepWorker i nowNs w) := by
  unfold Pipeline.stepWorker
  split
  · rename_i hpc
    split
    · exact .stay
    · rename_i hch
      exact .receive h hpc hch
  · rename_i hpc
    split
    · rename_i he
      exact .load h hpc he
    · exact .stay
  · rename_i hpc
    split
    · rename_i hst
      exact .skip h hpc fun heq => absurd heq hst
    · split
      · rename_i hclaim
        exact .claim h hpc hclaim
      · rename_i hclaim
        exact .skip h hpc fun _ => hclaim
  · rename_i hpc
    split
    · dsimp only
      split
      · exact .apply h hpc (.inr ⟨_, _, _, rfl⟩)
      · exact .apply h hpc (.inl rfl)
    · exact .stay
  · rename_i hpc
    exact .record h hpc
  · rename_i hpc
    split
    · rename_i he
      exact .finish h hpc he
    · exact .stay
  · exact .stay

theorem step_moves (p : Pipeline M K X) (a : MRE.Action) : Moves p a (p.step a) := by
  cases a with
  | push seq term timestampIn cmd => exact .push
  | primary entry =>
    simp only [Pipeline.step]
    split
    · rename_i hclaim
      exact .address hclaim
    · exact .stay
  | startScan i nowNs load =>
    simp only [Pipeline.step]
    split
    · rename_i h
      exact .look h (fun _ => rfl) (fun _ => rfl) nofun
    · exact .stay
  | sorter i =>
    simp only [Pipeline.step]
    split
    · rename_i h
      exact stepSorter_moves h
    · exact .stay
  | worker i nowNs =>
    simp only [Pipeline.step]
    split
    · rename_i h
      exact stepWorker_moves h nowNs
    · exact .stay
  | stop i =>
    simp only [Pipeline.step]
    split
    · rename_i h
      exact .stop h
    · exact .stay

end Proof.DualEngine

/-! ## Tickets -/

/-- Sends, applications and the primary's claims are covered by the status. -/
structure Ticket.Sound (t : Ticket) : Prop where
  escalated : t.escalating + t.sent ≤
    if t.status = some .unaddressed ∨ t.status = some .finallyHandled then 1 else 0
  handled : t.claims + t.applied ≤ if t.status = some .finallyHandled then 1 else 0
  addressed : t.addressed ≤ if t.status = some .addressed then 1 else 0

namespace Proof.DualEngine

variable {t t' : Ticket}

theorem Sound.step (h : t.Sound) (hs : t.Step t') : t'.Sound := by
  obtain ⟨h₁, h₂, h₃⟩ := h
  cases hs with
  | stay => exact ⟨h₁, h₂, h₃⟩
  | create hst | address hst | escalate hst | claim hst =>
    simp only [hst, reduceCtorEq, Option.some.injEq, or_false, if_true, if_false] at h₁ h₂ h₃
    constructor <;> simp <;> omega
  | send hn | drop hn | apply hn | die hn => exact ⟨by dsimp only; omega, by dsimp only; omega, h₃⟩

theorem Sound.sent_le (h : t.Sound) : t.sent ≤ 1 := by
  have := h.escalated
  split at this <;> omega

theorem Sound.applied_le (h : t.Sound) : t.applied ≤ 1 := by
  have := h.handled
  split at this <;> omega

/-- The primary's claim and a worker's exclude each other. -/
theorem Sound.addressed_or_applied (h : t.Sound) : t.addressed = 0 ∨ t.applied = 0 := by
  have h₁ := h.handled
  have h₂ := h.addressed
  by_cases hst : t.status = some .addressed
  · rw [hst] at h₁
    simp at h₁
    omega
  · rw [if_neg hst] at h₂
    omega

variable {M K : Type} {X : Crossbeam EntryRef} {p p' : Pipeline M K X} {entry r : EntryRef}
  {source target : OrderStatus} {i : Nat}

/-! ## Steps of the threads -/

theorem fromU8_toU8 (s : OrderStatus) : OrderStatus.fromU8 s.toU8 = some s := by
  cases s <;> rfl

/-- A claim that succeeds changes the one status, from the one it expects. -/
theorem tryClaim_ok (h : p.tryClaim entry source target = some p') :
    p.status entry = some source ∧ ∃ entries, p' = { p with entries } ∧
      ∀ r, p'.status r = if r = entry then some target else p.status r := by
  obtain ⟨e, he, h⟩ := Option.bind_eq_some_iff.mp h
  obtain ⟨e', he', h⟩ := Option.bind_eq_some_iff.mp h
  unfold LogEntry.tryClaim at he'
  split at he'
  · rename_i hst
    cases he'
    cases h
    refine ⟨by rw [Pipeline.status, he, Option.bind_some, hst, fromU8_toU8], _, rfl, fun r => ?_⟩
    have hlt := (List.getElem?_eq_some_iff.mp he).1
    simp only [Pipeline.status]
    by_cases hr : r = entry
    · rw [if_pos hr, hr, List.getElem?_set_self hlt, Option.bind_some, fromU8_toU8]
    · rw [if_neg hr, List.getElem?_set_ne (Ne.symm hr)]
  · cases he'

theorem count_log (log : List EntryRef) (entry r : EntryRef) :
    (log ++ [entry]).count r = if r = entry then log.count r + 1 else log.count r := by
  rw [List.count_append, List.count_singleton]
  by_cases hr : r = entry
  · simp [hr]
  · simp [hr, Ne.symm hr]

theorem step_of_eq (h : t' = t) : t.Step t' := h ▸ .stay t'

/-- A sorter moves between points where it is not to send, or is to send the
same entry. -/
theorem ticket_setSorter {pc pc' : SorterPc} (h : p.sorters[i]? = some pc) (hpc : pc.escalates r = pc'.escalates r) :
    (p.setSorter i pc').ticket r = p.ticket r := by
  simp only [Pipeline.ticket, Pipeline.setSorter, List.countP_set_same h hpc]
  rfl

theorem ticket_setWorker {w w' : Worker M K} (h : p.workers[i]? = some w) (hpc : w.pc.claims r = w'.pc.claims r) :
    (p.setWorker i w').ticket r = p.ticket r := by
  simp only [Pipeline.ticket, Pipeline.setWorker, List.countP_set_same (p := fun w : Worker M K => w.pc.claims r) h hpc]
  rfl

theorem escalate_ticket {pc : SorterPc} (h : p.sorters[i]? = some pc) (hpc : ∀ r, pc.escalates r = false)
    (hclaim : p.tryClaim entry .pending .unaddressed = some p') (nowNs timeout : UInt64) (entries : List EntryRef)
    (r : EntryRef) : (p.ticket r).Step ((p'.setSorter i (.send nowNs timeout entry entries)).ticket r) := by
  obtain ⟨hst, es, rfl, hstatus⟩ := tryClaim_ok hclaim
  by_cases hr : r = entry
  · subst hr
    have heq : ({ p with entries := es }.setSorter i (.send nowNs timeout r entries)).ticket r =
        { p.ticket r with status := some .unaddressed, escalating := (p.ticket r).escalating + 1 } :=
      Ticket.ext ((hstatus r).trans (if_pos rfl)) (List.countP_set_enter h (hpc r) (decide_eq_true rfl)) rfl rfl rfl rfl
    rw [heq]
    exact .escalate hst
  · have hsend : SorterPc.escalates r (.send nowNs timeout entry entries) = false := decide_eq_false (Ne.symm hr)
    exact step_of_eq (Ticket.ext ((hstatus r).trans (if_neg hr)) (List.countP_set_same h ((hpc r).trans hsend.symm))
      rfl rfl rfl rfl)

theorem send_ticket {nowNs timeout : UInt64} {entries : List EntryRef}
    (h : p.sorters[i]? = some (.send nowNs timeout entry entries)) (r : EntryRef) :
    (p.ticket r).Step (((p.sendEntry entry).setSorter i (.scan nowNs timeout entries)).ticket r) := by
  have hlog := count_log p.sent entry r
  unfold Pipeline.sendEntry
  by_cases hr : r = entry
  · subst hr
    have hleave := List.countP_set_leave (p := (·.escalates r)) (b := SorterPc.scan nowNs timeout entries) h
      (decide_eq_true rfl) rfl
    rw [if_pos rfl] at hlog
    split
    · have heq : ({ p with channel := X.send p.channel r, sent := p.sent ++ [r] }.setSorter i
          (.scan nowNs timeout entries)).ticket r = { p.ticket r with
            escalating := (p.sorters.set i (.scan nowNs timeout entries)).countP (·.escalates r)
            sent := (p.ticket r).sent + 1 } :=
        Ticket.ext rfl rfl hlog rfl rfl rfl
      rw [heq]
      exact .send hleave
    · exact .drop hleave
  · have hsame : SorterPc.escalates r (.send nowNs timeout entry entries) = false := decide_eq_false (Ne.symm hr)
    rw [if_neg hr] at hlog
    split
    · exact step_of_eq (Ticket.ext rfl (List.countP_set_same h hsame) hlog rfl rfl rfl)
    · exact step_of_eq (ticket_setSorter h hsame)

theorem claim_ticket {w : Worker M K} (h : p.workers[i]? = some w) (hpc : ∀ r, w.pc.claims r = false)
    (hclaim : p.tryClaim entry .unaddressed .finallyHandled = some p') (r : EntryRef) :
    (p.ticket r).Step ((p'.setWorker i { w with pc := .claimed entry }).ticket r) := by
  obtain ⟨hst, es, rfl, hstatus⟩ := tryClaim_ok hclaim
  by_cases hr : r = entry
  · subst hr
    have heq : ({ p with entries := es }.setWorker i { w with pc := .claimed r }).ticket r =
        { p.ticket r with status := some .finallyHandled, claims := (p.ticket r).claims + 1 } :=
      Ticket.ext ((hstatus r).trans (if_pos rfl)) rfl rfl (List.countP_set_enter h (hpc r) (decide_eq_true rfl)) rfl rfl
    rw [heq]
    exact .claim hst
  · have hclaimed : WorkerPc.claims r (.claimed entry) = false := decide_eq_false (Ne.symm hr)
    exact step_of_eq (Ticket.ext ((hstatus r).trans (if_neg hr)) rfl rfl
      (List.countP_set_same h ((hpc r).trans hclaimed.symm)) rfl rfl)

/-- A worker applies the entry it has claimed, and then is somewhere else. -/
theorem apply_ticket {w w' : Worker M K} (h : p.workers[i]? = some w) (hpc : w.pc = .claimed entry)
    (hpc' : ∀ r, w'.pc.claims r = false) (r : EntryRef) :
    (p.ticket r).Step (({ p with applied := p.applied ++ [entry] }.setWorker i w').ticket r) := by
  have hlog := count_log p.applied entry r
  by_cases hr : r = entry
  · subst hr
    have hleave := List.countP_set_leave (p := fun w : Worker M K => w.pc.claims r) (b := w') h
      (by rw [hpc]; exact decide_eq_true rfl) (hpc' r)
    rw [if_pos rfl] at hlog
    have heq : ({ p with applied := p.applied ++ [r] }.setWorker i w').ticket r = { p.ticket r with
        claims := (p.workers.set i w').countP fun w => w.pc.claims r
        applied := (p.ticket r).applied + 1 } :=
      Ticket.ext rfl rfl rfl rfl hlog rfl
    rw [heq]
    exact .apply hleave
  · have hsame : w.pc.claims r = w'.pc.claims r := by
      rw [hpc, hpc']
      exact decide_eq_false (Ne.symm hr)
    rw [if_neg hr] at hlog
    exact step_of_eq (Ticket.ext rfl rfl rfl (List.countP_set_same h hsame) hlog rfl)

theorem stop_ticket {w : Worker M K} (h : p.workers[i]? = some w) (r : EntryRef) :
    (p.ticket r).Step ((p.setWorker i { w with pc := .stopped }).ticket r) := by
  cases hw : w.pc.claims r with
  | true => exact .die (List.countP_set_leave h hw rfl)
  | false => exact step_of_eq (ticket_setWorker h hw)

theorem status_recordFill (p : Pipeline M K X) (entry r : EntryRef) (nowNs fillPrice filledQty : UInt64) :
    { p with entries := p.entries.modify entry (·.recordFill 2 nowNs fillPrice filledQty) }.status r = p.status r := by
  simp only [Pipeline.status, List.getElem?_modify]
  cases p.entries[r]? with
  | none => rfl
  | some e => by_cases h : entry = r <;> simp [h, LogEntry.recordFill]

theorem address_ticket (hclaim : p.tryClaim entry .pending .addressed = some p') (r : EntryRef) :
    (p.ticket r).Step ({ p' with addressed := p'.addressed ++ [entry] }.ticket r) := by
  obtain ⟨hst, es, rfl, hstatus⟩ := tryClaim_ok hclaim
  have hlog := count_log p.addressed entry r
  by_cases hr : r = entry
  · subst hr
    rw [if_pos rfl] at hlog
    have heq : { p with entries := es, addressed := p.addressed ++ [r] }.ticket r =
        { p.ticket r with status := some .addressed, addressed := (p.ticket r).addressed + 1 } :=
      Ticket.ext ((hstatus r).trans (if_pos rfl)) rfl rfl rfl rfl hlog
    rw [heq]
    exact .address hst
  · rw [if_neg hr] at hlog
    exact step_of_eq (Ticket.ext ((hstatus r).trans (if_neg hr)) rfl rfl rfl rfl hlog)

/-- A new entry has its own status, and the others keep theirs. -/
theorem status_append (p : Pipeline M K X) (e : LogEntry) (ring : PendingRing X) (r : EntryRef) :
    { p with entries := p.entries ++ [e], ring }.status r =
      if r = p.entries.length then OrderStatus.fromU8 e.status else p.status r := by
  simp only [Pipeline.status, getElem?_concat]
  split <;> rfl

theorem push_ticket (p : Pipeline M K X) (e : LogEntry) (he : e.status = OrderStatus.pending.toU8) (ring : PendingRing X)
    (r : EntryRef) : (p.ticket r).Step ({ p with entries := p.entries ++ [e], ring }.ticket r) := by
  have hstatus := status_append p e ring r
  by_cases hr : r = p.entries.length
  · have hnone : p.status r = none := by
      rw [Pipeline.status, hr, List.getElem?_eq_none (Nat.le_refl _)]
      rfl
    rw [if_pos hr, he] at hstatus
    have heq : { p with entries := p.entries ++ [e], ring }.ticket r = { p.ticket r with status := some .pending } :=
      Ticket.ext hstatus rfl rfl rfl rfl rfl
    rw [heq]
    exact .create hnone
  · exact step_of_eq (Ticket.ext (hstatus.trans (if_neg hr)) rfl rfl rfl rfl rfl)

theorem moves_ticket {a : MRE.Action} (h : Moves p a p') (r : EntryRef) : (p.ticket r).Step (p'.ticket r) := by
  cases h with
  | stay => exact .stay _
  | push => exact push_ticket p _ rfl _ r
  | address hclaim => exact address_ticket hclaim r
  | look h hpc hpc' => exact step_of_eq (ticket_setSorter h ((hpc r).trans (hpc' r).symm))
  | escalate nowNs timeout entries h hpc hclaim => exact escalate_ticket h hpc hclaim nowNs timeout entries r
  | clear h => exact step_of_eq (ticket_setSorter (p := p.removeEntry _) h rfl)
  | send h => exact send_ticket h r
  | receive h hpc => exact step_of_eq (ticket_setWorker (p := { p with channel := _ }) h (by rw [hpc]; rfl))
  | load h hpc | skip h hpc => exact step_of_eq (ticket_setWorker h (by rw [hpc]; rfl))
  | claim h hpc hclaim => exact claim_ticket h (fun r => by rw [hpc]; rfl) hclaim r
  | apply h hpc hpc' =>
    refine apply_ticket h hpc (fun r => ?_) r
    rcases hpc' with hpc' | ⟨now, price, qty, hpc'⟩ <;> (rw [hpc']; rfl)
  | @record i _ now price qty w entry h hpc =>
    have hsame : w.pc.claims r = WorkerPc.claims r (.recorded entry) := by rw [hpc]; rfl
    exact step_of_eq (Ticket.ext (status_recordFill p entry r now price qty) rfl rfl (List.countP_set_same h hsame) rfl rfl)
  | finish h hpc => exact step_of_eq (ticket_setWorker (p := p.removeEntry _) h (by rw [hpc]; rfl))
  | stop h => exact stop_ticket h r

theorem sound_init (entries : List LogEntry) (ring : PendingRing X) (sorters : Nat)
    (books : List (SecondEngine.Books M K)) (r : EntryRef) :
    ((Pipeline.init entries ring sorters books).ticket r).Sound := by
  have hsorters : (List.replicate sorters SorterPc.idle).countP (·.escalates r) = 0 :=
    List.countP_eq_zero.mpr fun pc hpc => by rw [List.eq_of_mem_replicate hpc]; exact Bool.false_ne_true
  have hworkers : (books.map fun books => (⟨.recv, books⟩ : Worker M K)).countP (fun w => w.pc.claims r) = 0 :=
    List.countP_eq_zero.mpr fun w hw => by
      obtain ⟨b, -, rfl⟩ := List.mem_map.mp hw
      exact Bool.false_ne_true
  simp only [Pipeline.ticket, Pipeline.init, hsorters, hworkers]
  exact ⟨Nat.zero_le _, Nat.zero_le _, Nat.zero_le _⟩

variable [DecidableEq K] [Arena M K]

theorem step_ticket (p : Pipeline M K X) (a : MRE.Action) (r : EntryRef) : (p.ticket r).Step ((p.step a).ticket r) :=
  moves_ticket (step_moves p a) r

/-! ## Interleavings -/

theorem sound_run (hp : ∀ r, (p.ticket r).Sound) (actions : List Action) (r : EntryRef) :
    ((p.run actions).ticket r).Sound :=
  foldl_inv (I := fun p : Pipeline M K X => ∀ r, (p.ticket r).Sound)
    (fun p a h r => Sound.step (h r) (step_ticket p a r)) hp actions r

/-- However the threads interleave, an entry is sent at most once, is applied
at most once, and is not both claimed by the primary and applied. -/
theorem run_claims (entries : List LogEntry) (ring : PendingRing X) (sorters : Nat)
    (books : List (SecondEngine.Books M K)) (actions : List Action) (r : EntryRef) :
    ((Pipeline.init entries ring sorters books).run actions).sent.count r ≤ 1 ∧
      ((Pipeline.init entries ring sorters books).run actions).applied.count r ≤ 1 ∧
      ¬ (r ∈ ((Pipeline.init entries ring sorters books).run actions).addressed ∧
        r ∈ ((Pipeline.init entries ring sorters books).run actions).applied) := by
  have h := sound_run (sound_init entries ring sorters books) actions r
  refine ⟨Sound.sent_le h, Sound.applied_le h, fun ⟨haddressed, happlied⟩ => ?_⟩
  rcases Sound.addressed_or_applied h with h | h
  · exact List.count_eq_zero.mp h haddressed
  · exact List.count_eq_zero.mp h happlied

-- two sorters find the same entry overdue; one claims it, and one worker applies it
example :
    let p : Pipeline SlotArena SlotKey (.lists _) := (Pipeline.init [] .new 2 [∅, ∅]).run
      ([.push 1 1 0 (.freezeAccount ⟨1⟩), .startScan 0 1000000 0, .startScan 1 1000000 0] ++
        [0, 1, 0, 1, 0, 1, 0, 1, 0].map .sorter ++ [0, 0, 0, 0].map (.worker · 0))
    (p.sent, p.applied) = ([0], [0]) := by
  rfl

end Proof.DualEngine

end MRE
