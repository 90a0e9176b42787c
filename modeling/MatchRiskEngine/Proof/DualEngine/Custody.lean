import MatchRiskEngine.Proof.DualEngine.Claim

/-!
# Where an escalated entry is

An entry is on its way in one place at most, and only while it is `Unaddressed`
(`Held`): a sorter's exchange puts it there, the send and the receipt move it on,
and a worker's exchange takes it out. A step that does not drop an entry is a
`Custody.Step` of it (`moves_custody`), and one that does leaves it one place less
(`drop_custody`).

It is removed from the ring after a terminal status was read or by the worker that
has handled it, so that it is terminal when it is removed (`moves_ring`).
-/

namespace MRE.Proof.DualEngine

variable {M K : Type} {X : Crossbeam EntryRef} {p p' : Pipeline M K X} {entry r : EntryRef}
  {source target : OrderStatus} {i : Nat}

theorem eq_toU8 {v : UInt8} {s : OrderStatus} (h : OrderStatus.fromU8 v = some s) : v = s.toU8 := by
  unfold OrderStatus.fromU8 at h
  split at h <;> cases h <;> rfl

/-- An entry that is there has been read with its status. -/
theorem loadStatus_eq {e : LogEntry} (he : p.entries[r]? = some e) {s : OrderStatus} (h : p.status r = some s) :
    e.loadStatus = s := by
  rw [Pipeline.status, he, Option.bind_some] at h
  rw [LogEntry.loadStatus, h, Option.getD_some]

/-- The exchange succeeds from the status that it expects. -/
theorem tryClaim_of_status (h : p.status entry = some source) (target : OrderStatus) :
    ∃ p', p.tryClaim entry source target = some p' := by
  obtain ⟨e, he, hst⟩ := Option.bind_eq_some_iff.mp h
  rw [Pipeline.tryClaim, he, Option.bind_eq_bind, Option.bind_some, LogEntry.tryClaim, if_pos (eq_toU8 hst)]
  exact ⟨_, rfl⟩

/-! ## Places -/

theorem places_setSorter {pc : SorterPc} (h : p.sorters[i]? = some pc) (pc' : SorterPc) (r : EntryRef) :
    (p.setSorter i pc').places r + (if pc.escalates r then 1 else 0) =
      p.places r + (if pc'.escalates r then 1 else 0) := by
  have := List.countP_set_add h pc' (·.escalates r)
  simp only [Pipeline.places, Pipeline.queued, Pipeline.setSorter]
  omega

theorem places_setWorker {w : Worker M K} (h : p.workers[i]? = some w) (w' : Worker M K) (r : EntryRef) :
    (p.setWorker i w').places r + (if w.pc.awaits r then 1 else 0) =
      p.places r + (if w'.pc.awaits r then 1 else 0) := by
  have := List.countP_set_add h w' (·.pc.awaits r)
  simp only [Pipeline.places, Pipeline.queued, Pipeline.setWorker]
  omega

theorem places_pos {w : Worker M K} (h : p.workers[i]? = some w) (hw : w.pc.awaits r) : 0 < p.places r := by
  have hpos : 0 < p.workers.countP fun w => w.pc.awaits r := List.countP_pos_iff.mpr ⟨w, List.mem_of_getElem? h, hw⟩
  unfold Pipeline.places
  omega

theorem stay_setSorter {pc pc' : SorterPc} (h : p.sorters[i]? = some pc) (hpc : pc.escalates r = pc'.escalates r) :
    (p.custody r).Step ((p.setSorter i pc').custody r) := by
  have := places_setSorter h pc' r
  rw [hpc] at this
  exact .stay rfl (by dsimp only [Pipeline.custody]; omega)

theorem stay_setWorker {w w' : Worker M K} (h : p.workers[i]? = some w) (hpc : w.pc.awaits r = w'.pc.awaits r) :
    (p.custody r).Step ((p.setWorker i w').custody r) := by
  have := places_setWorker h w' r
  rw [hpc] at this
  exact .stay rfl (by dsimp only [Pipeline.custody]; omega)

/-! ## Steps -/

/-- What the point that a worker is at says of the entry. -/
def Follows (p : Pipeline M K X) : WorkerPc → Prop
  | .loaded _ status => status = .unaddressed
  | .claimed entry | .applied entry _ _ _ | .recorded entry => p.status entry = some .finallyHandled
  | .recv | .received _ | .stopped => True

/-- An entry is in one place at most, and there while it is `Unaddressed`. -/
structure Held (p : Pipeline M K X) : Prop where
  places_le : ∀ r, p.places r ≤ if p.status r = some .unaddressed then 1 else 0
  workers : ∀ (i : Nat) (w : Worker M K), p.workers[i]? = some w → Follows p w.pc
  closed : p.connected = false → p.queued = []

theorem Held.awaited {w : Worker M K} (hp : Held p) (h : p.workers[i]? = some w) (hw : w.pc.awaits r) :
    p.status r = some .unaddressed := by
  have hpos := places_pos h hw
  have hle := hp.places_le r
  by_contra hne
  rw [if_neg hne] at hle
  omega

/-- Steps of the engines that drop an entry: a send without a receiver, and the
end of a worker that has received it. -/
inductive Drops (p : Pipeline M K X) (r : EntryRef) : MRE.Action → Prop where
  | send {i : Nat} {pc : SorterPc} : p.sorters[i]? = some pc → pc.escalates r → p.connected = false →
      Drops p r (.sorter i)
  | stop {i : Nat} {w : Worker M K} : p.workers[i]? = some w → w.pc.awaits r → Drops p r (.stop i)

theorem escalate_custody {pc : SorterPc} (h : p.sorters[i]? = some pc) (hpc : pc.escalates r = false)
    (hclaim : p.tryClaim entry .pending .unaddressed = some p') (nowNs timeout : UInt64) (entries : List EntryRef) :
    (p.custody r).Step ((p'.setSorter i (.send nowNs timeout entry entries)).custody r) := by
  obtain ⟨hst, es, rfl, hstatus⟩ := tryClaim_ok hclaim
  have hplaces := places_setSorter (p := { p with entries := es }) h (.send nowNs timeout entry entries) r
  rw [hpc, if_neg Bool.false_ne_true] at hplaces
  simp only [SorterPc.escalates, decide_eq_true_eq] at hplaces
  by_cases hr : r = entry
  · subst hr
    rw [if_pos rfl] at hplaces
    exact .escalate hst ((hstatus r).trans (if_pos rfl)) hplaces
  · rw [if_neg (Ne.symm hr)] at hplaces
    exact .stay ((hstatus r).trans (if_neg hr)) hplaces

theorem send_custody {nowNs timeout : UInt64} {entries : List EntryRef}
    (h : p.sorters[i]? = some (.send nowNs timeout entry entries)) (hc : p.connected) (r : EntryRef) :
    (p.custody r).Step (((p.sendEntry entry).setSorter i (.scan nowNs timeout entries)).custody r) := by
  rw [Pipeline.sendEntry, if_pos hc]
  have hplaces := places_setSorter (p := { p with channel := X.send p.channel entry, sent := p.sent ++ [entry] }) h
    (.scan nowNs timeout entries) r
  have hcount : (X.queued (X.send p.channel entry)).count r = (X.queued p.channel).count r + if entry = r then 1 else 0 := by
    rw [X.queued_send, List.count_append, List.count_singleton]
    simp
  refine .stay rfl ?_
  simp only [Pipeline.custody, Pipeline.places, Pipeline.queued, SorterPc.escalates, decide_eq_true_eq,
    Bool.false_eq_true, if_false]
    at hplaces ⊢
  omega

theorem recv_custody {w : Worker M K} {channel : X.Channel} (h : p.workers[i]? = some w) (hpc : w.pc = .recv)
    (hch : X.recv p.channel = some (entry, channel)) (r : EntryRef) :
    (p.custody r).Step (({ p with channel }.setWorker i { w with pc := .received entry }).custody r) := by
  have hplaces := places_setWorker (p := { p with channel }) h { w with pc := .received entry } r
  have hcount : (X.queued p.channel).count r = (X.queued channel).count r + if entry = r then 1 else 0 := by
    rw [X.recv_some hch, List.count_cons]
    simp
  refine .stay rfl ?_
  simp only [Pipeline.custody, Pipeline.places, Pipeline.queued, hpc, WorkerPc.awaits, decide_eq_true_eq,
    Bool.false_eq_true, if_false]
    at hplaces ⊢
  omega

theorem handle_custody {w : Worker M K} {status : OrderStatus} (h : p.workers[i]? = some w)
    (hpc : w.pc = .loaded entry status) (hclaim : p.tryClaim entry .unaddressed .finallyHandled = some p') (r : EntryRef) :
    (p.custody r).Step ((p'.setWorker i { w with pc := .claimed entry }).custody r) := by
  obtain ⟨hst, es, rfl, hstatus⟩ := tryClaim_ok hclaim
  have hplaces := places_setWorker (p := { p with entries := es }) h { w with pc := .claimed entry } r
  simp only [hpc, WorkerPc.awaits, decide_eq_true_eq, Bool.false_eq_true, if_false] at hplaces
  by_cases hr : r = entry
  · subst hr
    rw [if_pos rfl] at hplaces
    exact .claim hst ((hstatus r).trans (if_pos rfl)) hplaces.symm
  · rw [if_neg (Ne.symm hr)] at hplaces
    exact .stay ((hstatus r).trans (if_neg hr)) hplaces

theorem connected_setWorker {w w' : Worker M K} (h : p.workers[i]? = some w) (hw : w'.pc ≠ .stopped) :
    (p.setWorker i w').connected := by
  obtain ⟨hlt, -⟩ := List.getElem?_eq_some_iff.mp h
  exact List.any_eq_true.mpr ⟨w', List.mem_set hlt w', decide_eq_true hw⟩

theorem moves_custody (hp : Held p) {a : MRE.Action} (hm : Moves p a p') (hdrop : ¬ Drops p r a) :
    (p.custody r).Step (p'.custody r) := by
  cases hm with
  | stay => exact .stay rfl rfl
  | @push seq term timestampIn cmd =>
    have hstatus := status_append p (LogEntry.new seq term timestampIn cmd) (p.ring.push seq p.entries.length) r
    by_cases hr : r = p.entries.length
    · have hnone : p.status r = none := by
        rw [Pipeline.status, hr, List.getElem?_eq_none (Nat.le_refl _)]
        rfl
      exact .create hnone (hstatus.trans (if_pos hr)) rfl
    · exact .stay (hstatus.trans (if_neg hr)) rfl
  | @address entry _ hclaim =>
    obtain ⟨hst, es, rfl, hstatus⟩ := tryClaim_ok hclaim
    by_cases hr : r = entry
    · exact .address (hr ▸ hst) ((hstatus r).trans (if_pos hr)) rfl
    · exact .stay ((hstatus r).trans (if_neg hr)) rfl
  | look h hpc hpc' => exact stay_setSorter h ((hpc r).trans (hpc' r).symm)
  | escalate nowNs timeout entries h hpc hclaim => exact escalate_custody h (hpc r) hclaim nowNs timeout entries
  | clear h => exact stay_setSorter (p := p.removeEntry _) h rfl
  | @send i nowNs timeout entry entries h =>
    by_cases hc : p.connected = true
    · exact send_custody h hc r
    · have hr : SorterPc.escalates r (.send nowNs timeout entry entries) = false :=
        Bool.eq_false_iff.mpr fun hr => hdrop (.send h hr (Bool.eq_false_iff.mpr hc))
      rw [Pipeline.sendEntry, if_neg hc]
      exact stay_setSorter h hr
  | receive h hpc hch => exact recv_custody h hpc hch r
  | load h hpc => exact stay_setWorker h (by rw [hpc]; rfl)
  | @skip i _ w entry status h hpc hskip =>
    -- what a worker has received it finds `Unaddressed`, so that it claims it
    have hfollows := hp.workers i w h
    rw [hpc] at hfollows
    have hst := hp.awaited (r := entry) h (by rw [hpc]; exact decide_eq_true rfl)
    obtain ⟨p', hclaim⟩ := tryClaim_of_status hst .finallyHandled
    rw [hskip hfollows] at hclaim
    cases hclaim
  | claim h hpc hclaim => exact handle_custody h hpc hclaim r
  | apply h hpc hpc' =>
    refine stay_setWorker (p := { p with applied := _ }) h ?_
    rcases hpc' with hpc' | ⟨now, price, qty, hpc'⟩ <;> (rw [hpc, hpc']; rfl)
  | @record i _ now price qty w entry h hpc =>
    have hplaces := places_setWorker h { w with pc := .recorded entry } r
    rw [hpc] at hplaces
    exact .stay (status_recordFill p entry r now price qty) hplaces
  | finish h hpc => exact stay_setWorker (p := p.removeEntry _) h (by rw [hpc]; rfl)
  | stop h => exact stay_setWorker h (Bool.eq_false_iff.mpr fun hw => hdrop (.stop h hw))

/-! ## Workers -/

theorem moves_terminal {a : MRE.Action} (hm : Moves p a p') {s : OrderStatus} (h : p.status r = some s) (hs : s.isTerminal) :
    p'.status r = some s := by
  have hstep := moves_ticket hm r
  have hst : (p.ticket r).status = some s := h
  show (p'.ticket r).status = some s
  generalize p'.ticket r = t at hstep ⊢
  cases hstep with
  | stay | send | drop | apply | die => exact hst
  | create hnot | address hnot | escalate hnot | claim hnot =>
    rw [hst] at hnot
    cases hnot <;> cases hs

theorem Follows.moves {pc : WorkerPc} (h : Follows p pc) {a : MRE.Action} (hm : Moves p a p') : Follows p' pc := by
  cases pc with
  | recv | received | stopped => trivial
  | loaded => exact h
  | claimed | applied | recorded => exact moves_terminal hm h rfl

theorem follows_set {w' : Worker M K} (h : ∀ (j : Nat) (w : Worker M K), p.workers[j]? = some w → Follows p' w.pc)
    (hw' : Follows p' w'.pc) (j : Nat) (w : Worker M K) (hw : (p.workers.set i w')[j]? = some w) : Follows p' w.pc :=
  List.forall_getElem?_set (P := fun (_ : Nat) (w : Worker M K) => Follows p' w.pc) hw' (fun k c _ hk => h k c hk) j w hw

theorem moves_follows (hp : Held p) {a : MRE.Action} (hm : Moves p a p') :
    ∀ (j : Nat) (w : Worker M K), p'.workers[j]? = some w → Follows p' w.pc := by
  have hkeep : ∀ (j : Nat) (w : Worker M K), p.workers[j]? = some w → Follows p' w.pc :=
    fun j w hj => (hp.workers j w hj).moves hm
  cases hm with
  | stay | push | look | clear => exact hkeep
  | address hclaim | escalate _ _ _ _ _ hclaim =>
    obtain ⟨-, es, rfl, -⟩ := tryClaim_ok hclaim
    exact hkeep
  | send =>
    have hsame : ∀ entry, (p.sendEntry entry).workers = p.workers := fun entry => by
      unfold Pipeline.sendEntry
      split <;> rfl
    simp only [Pipeline.setSorter, hsame]
    exact hkeep
  | receive | skip | finish | stop => exact follows_set hkeep trivial
  | load h hpc he =>
    exact follows_set hkeep (loadStatus_eq he (hp.awaited h (by rw [hpc]; exact decide_eq_true rfl)))
  | claim h hpc hclaim =>
    obtain ⟨-, es, rfl, hstatus⟩ := tryClaim_ok hclaim
    exact follows_set hkeep ((hstatus _).trans (if_pos rfl))
  | @apply i _ w w' entry h hpc hpc' =>
    have hfollows := hp.workers i w h
    rw [hpc] at hfollows
    refine follows_set hkeep ?_
    rcases hpc' with hpc' | ⟨now, price, qty, hpc'⟩ <;> rw [hpc']
    · trivial
    · exact hfollows
  | @record i _ now price qty w entry h hpc =>
    have hfollows := hp.workers i w h
    rw [hpc] at hfollows
    exact follows_set hkeep ((status_recordFill p entry entry now price qty).trans hfollows)

/-- What happens on the channel happens while there is a worker. -/
theorem moves_channel {a : MRE.Action} (hm : Moves p a p') : p'.channel = p.channel ∨ p'.connected := by
  cases hm with
  | stay | push | look | clear | load | skip | apply | record | finish | stop => exact .inl rfl
  | address hclaim | escalate _ _ _ _ _ hclaim | claim _ _ hclaim =>
    obtain ⟨-, es, rfl, -⟩ := tryClaim_ok hclaim
    exact .inl rfl
  | send h =>
    unfold Pipeline.sendEntry
    split
    · rename_i hc
      exact .inr hc
    · exact .inl rfl
  | receive h => exact .inr (connected_setWorker (p := { p with channel := _ }) h nofun)

/-! ## The channel without receivers -/

theorem discard_eq (p : Pipeline M K X) :
    p.discard = { p with channel := if p.connected then p.channel else X.disconnect p.channel } := by
  unfold Pipeline.discard
  split <;> rfl

theorem discard_connected (p : Pipeline M K X) : p.discard.connected = p.connected := by
  rw [discard_eq]
  rfl

theorem discard_status (p : Pipeline M K X) (r : EntryRef) : p.discard.status r = p.status r := by
  rw [discard_eq]
  rfl

theorem discard_places (p : Pipeline M K X) (r : EntryRef) :
    p.discard.places r + (if p.connected then 0 else p.queued.count r) = p.places r := by
  unfold Pipeline.discard
  split
  · rfl
  · simp only [Pipeline.places, Pipeline.queued, X.queued_disconnect, List.count_nil]
    omega

theorem Held.bound {c' : Custody} (hp : Held p) (h : (p.custody r).Step c') :
    c'.places ≤ if c'.status = some .unaddressed then 1 else 0 := by
  have hle := hp.places_le r
  cases h with
  | stay hst hsame =>
    rw [hst, hsame]
    exact hle
  | create hst hst' hn | address hst hst' hn | escalate hst hst' hn | claim hst hst' hn =>
    dsimp only [Pipeline.custody] at hst hn
    simp only [hst, hst', reduceCtorEq, Option.some.injEq, if_true, if_false] at hle ⊢
    omega

variable [DecidableEq K] [Arena M K]

theorem drop_custody {a : MRE.Action} (h : Drops p r a) :
    (p.step a).status r = p.status r ∧ p.places r = (p.step a).places r + 1 := by
  cases h with
  | @send i pc hi hr hc =>
    cases pc with
    | idle | snapshot | scan | loaded => cases hr
    | send nowNs timeout entry entries =>
      have hplaces := places_setSorter hi (.scan nowNs timeout entries) r
      rw [if_pos hr] at hplaces
      have hstep : p.step (.sorter i) = p.setSorter i (.scan nowNs timeout entries) := by
        simp only [Pipeline.step, hi, Pipeline.stepSorter, Pipeline.sendEntry, hc, Bool.false_eq_true, if_false]
      rw [hstep]
      exact ⟨rfl, hplaces.symm⟩
  | @stop i w hi hr =>
    have hplaces := places_setWorker hi { w with pc := .stopped } r
    rw [if_pos hr] at hplaces
    have hstep : p.step (.stop i) = p.setWorker i { w with pc := .stopped } := by simp only [Pipeline.step, hi]
    rw [hstep]
    exact ⟨rfl, hplaces.symm⟩

theorem step_discard_count (hp : Held p) {a : MRE.Action}
    (h : ¬ (p.connected ∧ (p.step a).connected = false ∧ r ∈ p.queued)) (hc : (p.step a).connected = false) :
    (p.step a).queued.count r = 0 := by
  rcases moves_channel (step_moves p a) with hch | hcon
  · rw [Pipeline.queued, hch, List.count_eq_zero]
    intro hmem
    cases hpc : p.connected with
    | true => exact h ⟨hpc, hc, hmem⟩
    | false =>
      rw [← Pipeline.queued, hp.closed hpc] at hmem
      cases hmem
  · rw [hc] at hcon
    cases hcon

/-- What a step does to an entry that it neither drops nor discards. -/
theorem engines_custody (hp : Held p) {a : MRE.Action} (hdrop : ¬ Drops p r a)
    (hdiscard : ¬ (p.connected ∧ (p.step a).connected = false ∧ r ∈ p.queued)) :
    (p.custody r).Step ((p.step a).discard.custody r) := by
  have hplaces := discard_places (p.step a) r
  have heq : (p.step a).discard.custody r = (p.step a).custody r := by
    rw [Pipeline.custody, Pipeline.custody, discard_status]
    congr 1
    cases hc : (p.step a).connected with
    | true => simpa only [hc, if_true, Nat.add_zero] using hplaces
    | false => simpa only [hc, Bool.false_eq_true, if_false, step_discard_count hp hdiscard hc, Nat.add_zero] using hplaces
  rw [heq]
  exact moves_custody hp (step_moves p a) hdrop

theorem engines_lose (hp : Held p) {a : MRE.Action}
    (h : Drops p r a ∨ p.connected ∧ (p.step a).connected = false ∧ r ∈ p.queued) :
    (p.step a).discard.status r = p.status r ∧ (p.step a).discard.places r < p.places r := by
  have hplaces := discard_places (p.step a) r
  rw [discard_status]
  by_cases hdrop : Drops p r a
  · obtain ⟨hstatus, hone⟩ := drop_custody hdrop
    exact ⟨hstatus, by omega⟩
  · obtain ⟨hc, hc', hmem⟩ := h.resolve_left hdrop
    have hch : (p.step a).queued = p.queued :=
      congrArg X.queued ((moves_channel (step_moves p a)).resolve_right (by rw [hc']; exact Bool.false_ne_true))
    have hcount : 0 < p.queued.count r := List.count_pos_iff.mpr hmem
    have hle := hp.places_le r
    have hbefore : p.queued.count r ≤ p.places r := by unfold Pipeline.places; omega
    have hafter : (p.step a).queued.count r ≤ (p.step a).places r := by unfold Pipeline.places; omega
    rw [hc', if_neg Bool.false_ne_true, hch] at hplaces
    rw [hch] at hafter
    -- it is on the channel, before and after, so that nobody else has it
    cases moves_custody hp (step_moves p a) hdrop with
    | stay hstatus hsame =>
      dsimp only [Pipeline.custody] at hstatus hsame
      exact ⟨hstatus, by omega⟩
    | create hst | address hst | escalate hst =>
      dsimp only [Pipeline.custody] at hst
      simp only [hst, reduceCtorEq, Option.some.injEq, if_false] at hle
      omega
    | claim hst hst' hone =>
      dsimp only [Pipeline.custody] at hst hone
      rw [if_pos hst] at hle
      omega

theorem Held.engines (hp : Held p) (a : MRE.Action) : Held (p.step a).discard := by
  refine ⟨fun r => ?_, fun i w h => ?_, fun h => ?_⟩
  · by_cases hlose : Drops p r a ∨ p.connected ∧ (p.step a).connected = false ∧ r ∈ p.queued
    · obtain ⟨hstatus, hlt⟩ := engines_lose hp hlose
      rw [hstatus]
      exact Nat.le_trans (Nat.le_of_lt hlt) (hp.places_le r)
    · rw [not_or] at hlose
      exact hp.bound (engines_custody hp hlose.1 hlose.2)
  · rw [discard_eq] at h ⊢
    exact moves_follows hp (step_moves p a) i w h
  · rw [discard_connected] at h
    rw [Pipeline.discard, if_neg (by rw [h]; exact Bool.false_ne_true)]
    exact X.queued_disconnect _

end MRE.Proof.DualEngine

namespace MRE

/-- The sequence number of an entry. -/
def Pipeline.seqOf {M K : Type} {X : Crossbeam EntryRef} (p : Pipeline M K X) (entry : EntryRef) : Option UInt64 :=
  p.entries[entry]?.map (·.seq)

namespace Proof.DualEngine

/-! ## The ring as a map -/

section PendingRing

variable {ring : PendingRing X} {seq k : UInt64} {entry r : EntryRef}

theorem holds_iff : ring.holds r = true ↔ ∃ k, (k, r) ∈ ring.toList := by
  simp [PendingRing.holds]

theorem mem_push {x : UInt64 × EntryRef} :
    x ∈ (ring.push seq entry).toList ↔ x = (seq, entry) ∨ x ∈ ring.toList ∧ x.1 ≠ seq := X.mem_insert

theorem mem_remove : (k, r) ∈ (ring.remove seq).toList ↔ (k, r) ∈ ring.toList ∧ k ≠ seq := X.mem_remove

/-- An entry leaves the ring with the key that is removed. -/
theorem mem_of_removed (h : ring.holds r) (h' : (ring.remove seq).holds r = false) : (seq, r) ∈ ring.toList := by
  obtain ⟨k, hk⟩ := holds_iff.mp h
  by_cases hks : k = seq
  · exact hks ▸ hk
  · have hstill : (ring.remove seq).holds r = true := holds_iff.mpr ⟨k, mem_remove.mpr ⟨hk, hks⟩⟩
    rw [h'] at hstill
    cases hstill

theorem next_mem {last : Option UInt64} (h : ring.next last = some (k, r)) : (k, r) ∈ ring.toList :=
  List.mem_of_find?_eq_some ((X.next_eq _ _).symm.trans h)

end PendingRing

/-! ## Sequence numbers -/

variable {M K : Type} {X : Crossbeam EntryRef} {p p' : Pipeline M K X} {entry r : EntryRef}
  {source target : OrderStatus} {i : Nat}

theorem tryClaim_seqOf (h : p.tryClaim entry source target = some p') (r : EntryRef) : p'.seqOf r = p.seqOf r := by
  obtain ⟨e, he, h⟩ := Option.bind_eq_some_iff.mp h
  obtain ⟨e', he', h⟩ := Option.bind_eq_some_iff.mp h
  unfold LogEntry.tryClaim at he'
  split at he'
  · cases he'
    cases h
    have hlt := (List.getElem?_eq_some_iff.mp he).1
    simp only [Pipeline.seqOf]
    by_cases hr : entry = r
    · rw [← hr, List.getElem?_set_self hlt, he]
      rfl
    · rw [List.getElem?_set_ne hr]
  · cases he'

theorem seqOf_append (p : Pipeline M K X) (e : LogEntry) (ring : PendingRing X) (r : EntryRef) :
    { p with entries := p.entries ++ [e], ring }.seqOf r = if r = p.entries.length then some e.seq else p.seqOf r := by
  simp only [Pipeline.seqOf, getElem?_concat]
  split <;> rfl

theorem moves_seqOf {a : MRE.Action} (hm : Moves p a p') (ha : ∀ seq term timestampIn cmd, a ≠ .push seq term timestampIn cmd)
    (r : EntryRef) : p'.seqOf r = p.seqOf r := by
  cases hm with
  | push => exact absurd rfl (ha _ _ _ _)
  | stay | look | clear | receive | load | skip | apply | finish | stop => rfl
  | address hclaim | escalate _ _ _ _ _ hclaim | claim _ _ hclaim => exact tryClaim_seqOf hclaim r
  | send =>
    unfold Pipeline.sendEntry
    split <;> rfl
  | @record i _ now price qty w entry =>
    simp only [Pipeline.seqOf, Pipeline.setWorker, List.getElem?_modify]
    cases p.entries[r]? with
    | none => rfl
    | some e => by_cases h : entry = r <;> simp [h, LogEntry.recordFill]

/-! ## Sorters -/

/-- What a sorter has read, if it is terminal, is still so. -/
def Read (p : Pipeline M K X) (pc : SorterPc) : Prop := ∀ x ∈ pc.reads, x.2.isTerminal → p.status x.1 = some x.2

theorem read_of_none {pc : SorterPc} (h : pc.reads = none) : Read p pc := fun x hx => by
  rw [h] at hx
  cases hx

/-- All sorters know what is terminal. -/
def AllRead (p : Pipeline M K X) : Prop := ∀ (i : Nat) (pc : SorterPc), p.sorters[i]? = some pc → Read p pc

theorem status_of_load {e : LogEntry} (he : p.entries[r]? = some e) (h : e.loadStatus.isTerminal) :
    p.status r = some e.loadStatus := by
  rw [Pipeline.status, he, Option.bind_some]
  unfold LogEntry.loadStatus at h ⊢
  cases hst : OrderStatus.fromU8 e.status with
  | none =>
    rw [hst] at h
    cases h
  | some s => rfl

theorem read_set {pc' : SorterPc} (h : ∀ (j : Nat) (pc : SorterPc), p.sorters[j]? = some pc → Read p' pc) (hpc' : Read p' pc')
    (j : Nat) (pc : SorterPc) (hpc : (p.sorters.set i pc')[j]? = some pc) : Read p' pc :=
  List.forall_getElem?_set (P := fun (_ : Nat) (pc : SorterPc) => Read p' pc) hpc' (fun k c _ hk => h k c hk) j pc hpc

theorem AllRead.moves (hp : AllRead p) {a : MRE.Action} (hm : Moves p a p') : AllRead p' := by
  have hkeep : ∀ (j : Nat) (pc : SorterPc), p.sorters[j]? = some pc → Read p' pc :=
    fun j pc hj x hx hs => moves_terminal hm (hp j pc hj x hx hs) hs
  cases hm with
  | stay | push | receive | load | skip | apply | record | finish | stop => exact hkeep
  | address hclaim | claim _ _ hclaim =>
    obtain ⟨-, es, rfl, -⟩ := tryClaim_ok hclaim
    exact hkeep
  | @look _ i pc pc' h hpc hpc' hread =>
    refine read_set hkeep fun x hx hs => ?_
    obtain ⟨e, he, hst⟩ := hread x hx
    exact hst ▸ status_of_load he (hst ▸ hs)
  | escalate _ _ _ _ _ hclaim =>
    obtain ⟨-, es, rfl, -⟩ := tryClaim_ok hclaim
    exact read_set hkeep (read_of_none rfl)
  | clear => exact read_set hkeep (read_of_none rfl)
  | send =>
    have hsame : ∀ entry, (p.sendEntry entry).sorters = p.sorters := fun entry => by
      unfold Pipeline.sendEntry
      split <;> rfl
    intro j pc hj
    rw [Pipeline.setSorter, hsame] at hj
    exact read_set hkeep (read_of_none rfl) j pc hj

/-! ## The ring -/

theorem terminal_iff : p.terminal r = true ↔ ∃ s, p.status r = some s ∧ s.isTerminal := by
  unfold Pipeline.terminal
  cases p.status r <;> simp

theorem terminal_moves {a : MRE.Action} (hm : Moves p a p') (h : p.terminal r) : p'.terminal r := by
  obtain ⟨s, hst, hs⟩ := terminal_iff.mp h
  exact terminal_iff.mpr ⟨s, moves_terminal hm hst hs, hs⟩

/-- An entry with that number is terminal. -/
def TerminalKey (p : Pipeline M K X) (k : UInt64) : Prop := ∃ r, p.seqOf r = some k ∧ p.terminal r

theorem moves_ring (hp : Held p) (hread : AllRead p) {a : MRE.Action} (hm : Moves p a p')
    (ha : ∀ seq term timestampIn cmd, a ≠ .push seq term timestampIn cmd) :
    p'.ring = p.ring ∨ ∃ seq, p.Removes seq a ∧ TerminalKey p seq ∧ p'.ring = p.ring.remove seq := by
  cases hm with
  | push => exact absurd rfl (ha _ _ _ _)
  | stay | look | receive | load | skip | apply | record | stop => exact .inl rfl
  | address hclaim | escalate _ _ _ _ _ hclaim | claim _ _ hclaim =>
    obtain ⟨-, es, rfl, -⟩ := tryClaim_ok hclaim
    exact .inl rfl
  | send =>
    unfold Pipeline.sendEntry
    split <;> exact .inl rfl
  | @clear i _ _ entry status _ e h hs he =>
    have hst := hread i _ h (entry, status) rfl hs
    refine .inr ⟨e.seq, .sorter h hs he rfl, ⟨entry, ?_, terminal_iff.mpr ⟨_, hst, hs⟩⟩, rfl⟩
    rw [Pipeline.seqOf, he, Option.map_some]
  | @finish i _ w entry e h hpc he =>
    have hst := hp.workers i w h
    rw [hpc] at hst
    refine .inr ⟨e.seq, .worker h hpc he rfl, ⟨entry, ?_, terminal_iff.mpr ⟨_, hst, rfl⟩⟩, rfl⟩
    rw [Pipeline.seqOf, he, Option.map_some]

end Proof.DualEngine

end MRE
