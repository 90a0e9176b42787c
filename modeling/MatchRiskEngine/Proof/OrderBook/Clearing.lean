import Mathlib.Data.List.Induction
import MatchRiskEngine.Proof.OrderBook.BestPrices
import MatchRiskEngine.Proof.OrderBook.Ids
import MatchRiskEngine.Proof.OrderBook.Moves
import MatchRiskEngine.Spec.MatchingEngine

/-!
# Cancelling the orders of an account

As long as no two new orders have the same number, the id map finds every
order of the book (`run_idsOk`). So each order of an account can be cancelled
by its id, and cancelling them one after the other takes out of every queue
the orders of the account and no others (`Valid.clears`).
-/

namespace MRE.Proof.Book

open SlotMap

variable {M K : Type} [DecidableEq K] [Arena M K]

variable {c : RefConfig} {cfg : BookConfig} {b b₀ b' : OrderBook M K} {Q : Side → Nat → List K}
  {evs : List EngineEvent}

/-! ## Every order is found -/

/-- The id map goes on finding every order if the new one's id is new. -/
theorem Valid.effect_ids (hb : Valid c b Q) (hids : IdsOk b.idToKey (dataOf b.arena)) {cmd : SequencedCommand}
    (hfresh : ∀ seq ∈ cmd.newOrderSeq, ∀ k x, dataOf b.arena k = some x → x.id ≠ ⟨seq⟩) (h : Effect b cmd b' evs) :
    IdsOk b'.idToKey (dataOf b'.arena) := by
  cases h with
  | newOrder hc h =>
    have hfresh := hfresh cmd.seq (newOrderSeq_of_newOrder hc)
    cases h with
    | refused => exact hids
    | filled hm => exact hb.matched_ids hids hm
    | cancelled hm => exact hb.matched_ids hids hm
    | unmatched hm => exact hb.matched_ids hids hm
    | full hm => exact hb.matched_ids hids hm
    | rested hm hz hrests hroom hidx hrest ht =>
      obtain ⟨Q₁, os, -, -, -, hleft⟩ := hb.of_matched hm
      obtain ⟨k, hk, hd, hi⟩ := hb.of_rested hm hz hroom hidx hrest
      rw [hd, hi]
      refine (hb.matched_ids hids hm).insert (o := InboundNewOrder.resting _ cmd.seq _) hk fun j x hx => ?_
      obtain ⟨y, hy, e⟩ := hleft j x hx
      rw [e]
      exact hfresh j y hy
  | notCancelled => exact hids
  | @cancelled id k ro hc hk hro _ hcancel =>
    obtain ⟨i, as, bs, -, -, -, -, hd, hi⟩ := hb.of_cancelled hk hro hcancel
    obtain ⟨x, hx, rfl⟩ := (hids id k).mp hk
    rw [hd, hi]
    exact hids.erase hx
  | idle => exact hids

/-- After any commands in which no two new orders have the same number, the id
map finds every order. -/
theorem run_idsOk (hnew : OrderBook.new cfg = some b₀) {cmds : List SequencedCommand} {evss : List (List EngineEvent)}
    (hnodup : (cmds.filterMap SequencedCommand.newOrderSeq).Nodup) (hrun : b₀.run cmds = some (b, evss)) :
    ∃ Q, Valid b₀.refConfig b Q ∧ IdsOk b.idToKey (dataOf b.arena) := by
  induction cmds using List.reverseRecOn generalizing b evss with
  | nil =>
    cases hrun
    obtain ⟨Q, hb⟩ := new_valid hnew
    obtain ⟨⟨_, hrep, -⟩, -⟩ := new_ok hnew
    exact ⟨Q, hb, hrep.ids⟩
  | append_singleton cmds cmd ih =>
    rw [List.filterMap_append, List.nodup_append] at hnodup
    rw [run_concat] at hrun
    obtain ⟨⟨b₁, evss₁⟩, hrun₁, hrun⟩ := Option.bind_eq_some_iff.mp hrun
    obtain ⟨⟨b₂, evs⟩, happly, hrun⟩ := Option.map_eq_some_iff.mp hrun
    cases hrun
    obtain ⟨Q₁, hb₁, hids₁⟩ := ih hnodup.1 hrun₁
    obtain ⟨heff, Q', hb'⟩ := hb₁.effect happly
    refine ⟨Q', hb', hb₁.effect_ids hids₁ (fun seq hseq k x hx e => ?_) heff⟩
    obtain ⟨ro, hro, rfl⟩ := get?_of_dataOf hx
    have hold : ro.id.raw ∈ cmds.filterMap SequencedCommand.newOrderSeq := (run_onlyIds hnew hrun₁).arena k ro hro
    have hnew' : seq ∈ [cmd].filterMap SequencedCommand.newOrderSeq :=
      List.mem_filterMap.mpr ⟨cmd, List.mem_singleton_self cmd, hseq⟩
    exact hnodup.2.2 ro.id.raw hold seq hnew' (congrArg OrderId.raw e)

/-! ## The orders of an account -/

theorem mem_values {arena : M} {o : RestingOrder K} : o ∈ values arena ↔ ∃ k, get? arena k = some o := by
  rw [values, List.mem_filterMap]
  refine exists_congr fun k => and_iff_right_of_imp fun h => ?_
  rw [mem_keys, h]
  rfl

theorem mem_openOrderIds {account : AccountId} {id : OrderId} :
    id ∈ b.openOrderIdsForAccount account ↔ ∃ k x, dataOf b.arena k = some x ∧ x.id = id ∧ x.account = account := by
  simp only [OrderBook.openOrderIdsForAccount, List.mem_map, List.mem_filter, mem_values, decide_eq_true_eq]
  constructor
  · rintro ⟨o, ⟨⟨k, ho⟩, hacct⟩, hid⟩
    exact ⟨k, o.data, dataOf_of_get? ho, hid, hacct⟩
  · rintro ⟨k, x, hx, hid, hacct⟩
    obtain ⟨o, ho, rfl⟩ := get?_of_dataOf hx
    exact ⟨o, ⟨⟨k, ho⟩, hacct⟩, hid⟩

theorem nodup_openOrderIds (hids : IdsOk b.idToKey (dataOf b.arena)) (account : AccountId) :
    (b.openOrderIdsForAccount account).Nodup := by
  have hall : ((values b.arena).map RestingOrder.id).Nodup := by
    rw [values, List.map_filterMap]
    refine List.Nodup.filterMap (fun k k' id hk hk' => ?_) (nodup_keys b.arena)
    obtain ⟨o, ho, rfl⟩ := Option.map_eq_some_iff.mp hk
    obtain ⟨o', ho', hid⟩ := Option.map_eq_some_iff.mp hk'
    exact hids.inj (dataOf_of_get? ho) (dataOf_of_get? ho') hid.symm
  exact hall.sublist (List.filter_sublist.map RestingOrder.id)

/-- Among orders with different ids, those with the ids of an account's orders
are its orders. -/
theorem mem_openOrderIds_iff (hids : IdsOk b.idToKey (dataOf b.arena)) {k : K} {x : RefOrder}
    (hx : dataOf b.arena k = some x) (account : AccountId) :
    x.id ∈ b.openOrderIdsForAccount account ↔ x.account = account := by
  rw [mem_openOrderIds]
  refine ⟨fun ⟨j, y, hy, hid, hacct⟩ => ?_, fun hacct => ⟨k, x, hx, rfl, hacct⟩⟩
  rw [hids.inj hy hx hid, hx] at hy
  rw [Option.some.inj hy]
  exact hacct

/-! ## Cancelling them -/

/-- `b'` and its queues `Q'` are what is left without the orders with these
ids. -/
structure Without (ids : List OrderId) (b b' : OrderBook M K) (Q Q' : Side → Nat → List K) : Prop where
  data {k : K} {x : RefOrder} : dataOf b'.arena k = some x ↔ dataOf b.arena k = some x ∧ x.id ∉ ids
  queues (s : Side) (i : Nat) : Q' s i = (Q s i).filter fun k => (dataOf b'.arena k).isSome

theorem Without.nil (hb : Valid c b Q) : Without [] b b Q Q where
  data := ⟨fun h => ⟨h, List.not_mem_nil⟩, And.left⟩
  queues _ _ := (List.filter_eq_self.mpr fun _ hk => hb.seated.isSome hk).symm

theorem Without.cons {b₁ : OrderBook M K} {Q' : Side → Nat → List K} {ids : List OrderId} {k : K} {x : RefOrder}
    {s₀ : Side} {i₀ : Nat} {as bs : List K} (hids : IdsOk b.idToKey (dataOf b.arena)) (hx : dataOf b.arena k = some x)
    (hq : Q s₀ i₀ = as ++ k :: bs) (hd : dataOf b₁.arena = Function.update (dataOf b.arena) k none)
    (h : Without ids b₁ b' (setQueue Q s₀ i₀ (as ++ bs)) Q') : Without (x.id :: ids) b b' Q Q' where
  data {j y} := by
    rw [h.data, hd, update_none_eq_some, List.mem_cons, not_or]
    constructor
    · rintro ⟨⟨hj, hy⟩, hni⟩
      exact ⟨hy, fun e => hj (hids.inj hy hx e), hni⟩
    · rintro ⟨hy, hne, hni⟩
      refine ⟨⟨fun e => hne ?_, hy⟩, hni⟩
      rw [e, hx] at hy
      rw [Option.some.inj hy]
  queues s i := by
    have hk : (dataOf b'.arena k).isSome = false := by
      rw [← Bool.not_eq_true, Option.isSome_iff_exists]
      rintro ⟨y, hy⟩
      have hy := (h.data.mp hy).1
      rw [hd, Function.update_self] at hy
      cases hy
    rw [h.queues]
    unfold setQueue
    split
    · rename_i e
      obtain ⟨rfl, rfl⟩ := e
      rw [hq, List.filter_append, List.filter_append, List.filter_cons_of_neg (by rw [hk]; exact Bool.false_ne_true)]
    · rfl

theorem Valid.cancelOrders (hb : Valid c b Q) (hids : IdsOk b.idToKey (dataOf b.arena)) (cmd : SequencedCommand)
    {account : AccountId} {ids : List OrderId} (hnodup : ids.Nodup)
    (hmine : ∀ id ∈ ids, ∃ k x, dataOf b.arena k = some x ∧ x.id = id ∧ x.account = account) :
    ∃ b' Q', b.cancelOrders cmd account ids = some b' ∧ Valid c b' Q' ∧ Without ids b b' Q Q' := by
  induction ids generalizing b Q with
  | nil => exact ⟨b, Q, rfl, hb, .nil hb⟩
  | cons id ids ih =>
    obtain ⟨hid, hrest⟩ := List.nodup_cons.mp hnodup
    obtain ⟨⟨k, x, hx, rfl, hacct⟩, hothers⟩ := List.forall_mem_cons.mp hmine
    have hk := (hids x.id k).mpr ⟨x, hx, rfl⟩
    obtain ⟨ro, hro, rfl⟩ := get?_of_dataOf hx
    obtain ⟨i, as, bs, b₁, -, hq, e, hb₁, -, hd, hi⟩ := hb.cancel hk hro cmd.seq
    have hids₁ : IdsOk b₁.idToKey (dataOf b₁.arena) := by
      rw [hd, hi]
      exact hids.erase hx
    obtain ⟨b', Q', e', hb', hw⟩ := ih hb₁ hids₁ hrest fun id' hid' => by
      obtain ⟨j, y, hy, rfl, hyacct⟩ := hothers id' hid'
      refine ⟨j, y, ?_, rfl, hyacct⟩
      have hjk : j ≠ k := fun hjk => by
        rw [hjk, hx] at hy
        exact hid (Option.some.inj hy ▸ hid')
      rw [hd, Function.update_of_ne hjk]
      exact hy
    refine ⟨b', Q', ?_, hb', hw.cons hids hx hq hd⟩
    have hstep : b.apply { cmd with cmd := .cancel account ro.data.id } = some (b₁, [.cancelled cmd.seq ro.data.id]) := by
      rw [← hacct]
      exact e
    rw [OrderBook.cancelOrders, List.foldlM_cons, hstep]
    exact e'

/-! ## What is left -/

/-- The best price of a side is the best of its orders' prices. -/
theorem Sound.isBestPrice (hb : Sound c b Q) (s : Side) :
    ∃ p, b.bestPrice s = some p ∧
      s.IsBestPrice (fun q => ∃ k x, dataOf b.arena k = some x ∧ x.side = s ∧ x.price = q) p := by
  refine ⟨_, hb.bestPrice_eq s, ?_⟩
  have hbest := hb.best s
  have hocc : ∀ {k x}, dataOf b.arena k = some x → x.side = s → ∃ j, c.index? x.price = some j ∧ Q s j ≠ [] := by
    rintro k x hx rfl
    obtain ⟨j, hj, hk⟩ := hb.seated.mem_queue hx
    exact ⟨j, hj, List.ne_nil_of_mem hk⟩
  cases hm : b.best s with
  | none =>
    rw [hm] at hbest
    rintro p ⟨k, x, hx, hs, -⟩
    obtain ⟨j, -, hj⟩ := hocc hx hs
    exact hbest j hj
  | some i =>
    rw [hm] at hbest
    obtain ⟨k, hk⟩ := List.exists_mem_of_ne_nil _ hbest.1
    obtain ⟨x, hx, hs, hi⟩ := hb.seated.mem.mp hk
    have hp := hb.idxToPrice hi
    refine ⟨⟨k, x, hx, hs, hp.symm⟩, ?_⟩
    rintro q ⟨j, y, hy, hys, rfl⟩
    obtain ⟨i', hi', hq⟩ := hocc hy hys
    have hbeats := hbest.2 i' hq
    have hx' := (RefConfig.index?_eq_some.mp hi).1
    have hy' := (RefConfig.index?_eq_some.mp hi').1
    rw [hp]
    cases s with
    | buy =>
      have hle : ¬ i < i' := hbeats
      exact Int64.le_iff_toInt_le.mpr (by omega)
    | sell =>
      have hle : ¬ i' < i := hbeats
      exact Int64.le_iff_toInt_le.mpr (by omega)

/-- Cancelling the orders of an account takes them away, and nothing else. -/
theorem Valid.clears (hb : Valid c b Q) (hids : IdsOk b.idToKey (dataOf b.arena)) (cmd : SequencedCommand)
    (account : AccountId) :
    ∃ b', b.cancelOrders cmd account (b.openOrderIdsForAccount account) = some b' ∧ b.Clears account b' := by
  obtain ⟨b', Q', e, hb', hw⟩ := hb.cancelOrders hids cmd (nodup_openOrderIds hids account)
    fun id hid => mem_openOrderIds.mp hid
  have hdata : ∀ {k x}, dataOf b'.arena k = some x ↔ dataOf b.arena k = some x ∧ x.account ≠ account := by
    intro k x
    rw [hw.data]
    exact and_congr_right fun hx => not_congr (mem_openOrderIds_iff hids hx account)
  refine ⟨b', e, fun k o ho => (hdata.mp (dataOf_of_get? ho)).2, fun k o ho hacct => ?_, fun k hk => ?_,
    fun s i => ⟨_, hb.queue_eq s i, ?_⟩, fun s => ?_⟩
  · obtain ⟨o', ho', hsame⟩ := get?_of_dataOf (hdata.mpr ⟨dataOf_of_get? ho, hacct⟩)
    refine ⟨o'.next, o'.prev, ho'.trans (congrArg some ?_)⟩
    cases o
    cases o'
    cases hsame
    rfl
  · rw [← dataOf_isSome] at hk ⊢
    obtain ⟨x, hx⟩ := Option.isSome_iff_exists.mp hk
    rw [(hdata.mp hx).1]
    rfl
  · -- an order is in the new queue if it is in the old one and not of the account
    rw [hb'.queue_eq, hw.queues, idQtys, idQtys, List.filterMap_filter, List.filter_filterMap]
    refine congrArg some (List.filterMap_congr fun k hk => ?_)
    obtain ⟨x, hx⟩ := Option.isSome_iff_exists.mp (hb.seated.isSome hk)
    have hmem := mem_openOrderIds_iff hids hx account
    by_cases hacct : x.account = account
    · have hnone : dataOf b'.arena k = none := by
        rw [Option.eq_none_iff_forall_ne_some]
        intro y hy
        obtain ⟨hy, hne⟩ := hdata.mp hy
        rw [hx] at hy
        exact hne (Option.some.inj hy ▸ hacct)
      simp [hx, hnone, Option.filter_some, hmem.mpr hacct]
    · have hsome : dataOf b'.arena k = some x := hdata.mpr ⟨hx, hacct⟩
      simp [hx, hsome, Option.filter_some, mt hmem.mp hacct]
  · obtain ⟨p, hp, hbest⟩ := hb'.toSound.isBestPrice s
    refine ⟨p, hp, ?_⟩
    have hprices : (fun q => ∃ k x, dataOf b'.arena k = some x ∧ x.side = s ∧ x.price = q) = b.OthersAt account s := by
      funext q
      refine propext ⟨?_, ?_⟩
      · rintro ⟨k, x, hx, hs, hq⟩
        obtain ⟨hx, hacct⟩ := hdata.mp hx
        obtain ⟨o, ho, rfl⟩ := get?_of_dataOf hx
        exact ⟨k, o, ho, hacct, hs, hq⟩
      · rintro ⟨k, o, ho, hacct, hs, hq⟩
        exact ⟨k, o.data, hdata.mpr ⟨dataOf_of_get? ho, hacct⟩, hs, hq⟩
    rw [← hprices]
    exact hbest

end MRE.Proof.Book
