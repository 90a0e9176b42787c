import MatchRiskEngine.Spec.RefBook

/-!
# The ids in a book

Every id in a book, of an order in the arena or in the map, is the sequence
number of a new order that the book was given (`run_onlyIds`). This needs no
more of the book than what its functions write, and so no order of the
sequence numbers.
-/

namespace MRE.Proof.Book

open SlotMap OrderBook

variable {M K : Type} [DecidableEq K] [Arena M K]

variable {S : OrderId → Prop} {b b' : OrderBook M K} {arena arena' : M} {l l' : PriceLevel K}

/-- The orders of an arena have ids in `S`. -/
abbrev ArenaIds (S : OrderId → Prop) (arena : M) : Prop := All (fun o : RestingOrder K => S o.id) arena

/-- The ids in the book are in `S`. -/
structure OnlyIds (S : OrderId → Prop) (b : OrderBook M K) : Prop where
  map : ∀ id, (b.idToKey id).isSome → S id
  arena : ArenaIds S b.arena

/-! ## Levels -/

theorem pushBack_ids (h : ArenaIds S arena) {key : K} (e : l.pushBack key arena = some (l', arena')) :
    ArenaIds S arena' := by
  simp only [PriceLevel.pushBack, Option.bind_eq_bind, Option.bind_eq_some_iff] at e
  obtain ⟨order, -, e⟩ := e
  split at e
  · cases e
    exact h
  · obtain ⟨arena₁, e₁, e⟩ := Option.bind_eq_some_iff.mp e
    obtain ⟨arena₂, e₂, e⟩ := Option.bind_eq_some_iff.mp e
    cases e
    have h₁ : ArenaIds S arena₁ := All.modify h e₁ fun _ ho => ho
    exact All.modify h₁ e₂ fun _ ho => ho

theorem remove_ids (h : ArenaIds S arena) {key : K} {removed : Option (RestingOrder K)}
    (e : l.remove key arena = some (removed, l', arena')) : ArenaIds S arena' := by
  rw [PriceLevel.remove] at e
  split at e
  · cases e
    exact h
  · obtain ⟨arena₁, e₁, e⟩ := Option.bind_eq_some_iff.mp e
    obtain ⟨arena₂, e₂, e⟩ := Option.bind_eq_some_iff.mp e
    cases e
    have h₁ : ArenaIds S arena₁ := All.modifyOpt h e₁ fun _ ho => ho
    have h₂ : ArenaIds S arena₂ := All.modifyOpt h₁ e₂ fun _ ho => ho
    exact All.remove h₂ key

theorem fillHead_ids (h : ArenaIds S arena) {fillQty : Qty} {full : Bool}
    (e : l.fillHead fillQty arena = some (full, l', arena')) : ArenaIds S arena' := by
  rw [PriceLevel.fillHead] at e
  split at e
  · cases e
    exact h
  · rename_i headKey _
    obtain ⟨order, horder, e⟩ := Option.bind_eq_some_iff.mp e
    have hset : ArenaIds S (SlotMap.set arena headKey
        { order with qtyRemaining := ⟨order.qtyRemaining.raw - fillQty.raw⟩ }) :=
      All.set h (by rw [horder]; rfl) (h headKey order horder)
    dsimp only at e
    split at e
    · obtain ⟨arena₁, e₁, e⟩ := Option.bind_eq_some_iff.mp e
      cases e
      have h₁ : ArenaIds S arena₁ := All.modifyOpt hset e₁ fun _ ho => ho
      exact All.remove h₁ headKey
    · cases e
      exact hset

/-! ## Frames -/

theorem setLevel_ids (h : OnlyIds S b) (s : Side) (idx : Nat) (l : PriceLevel K) : OnlyIds S (b.setLevel s idx l) := by
  cases s <;> exact ⟨h.map, h.arena⟩

theorem refreshBestBidUp_ids (h : OnlyIds S b) (hint : Nat) : OnlyIds S (b.refreshBestBidUp hint) := by
  rw [refreshBestBidUp]
  repeat' split
  all_goals exact ⟨h.map, h.arena⟩

theorem refreshBestAskDown_ids (h : OnlyIds S b) (hint : Nat) : OnlyIds S (b.refreshBestAskDown hint) := by
  rw [refreshBestAskDown]
  repeat' split
  all_goals exact ⟨h.map, h.arena⟩

theorem clearEmptyBest_ids (h : OnlyIds S b) {s : Side} {idx : Nat} (e : b.clearEmptyBest s idx = some b') :
    OnlyIds S b' := by
  cases s with
  | buy =>
    simp only [clearEmptyBest, scanBestBidDown] at e
    repeat' split at e
    · cases e
      exact h
    · obtain ⟨best, -, rfl⟩ := Option.map_eq_some_iff.mp e
      exact ⟨h.map, h.arena⟩
    · cases e
      exact h
  | sell =>
    simp only [clearEmptyBest, scanBestAskUp] at e
    repeat' split at e
    · cases e
      exact h
    · obtain ⟨best, -, rfl⟩ := Option.map_eq_some_iff.mp e
      exact ⟨h.map, h.arena⟩
    · cases e
      exact h

theorem update_ids (h : OnlyIds S b) {id : OrderId} (key : Option K) (hid : key.isSome → S id) :
    OnlyIds S { b with idToKey := Function.update b.idToKey id key } := by
  refine ⟨fun id' (hid' : (Function.update b.idToKey id key id').isSome) => ?_, h.arena⟩
  by_cases heq : id' = id
  · rw [heq, Function.update_self] at hid'
    rw [heq]
    exact hid hid'
  · rw [Function.update_of_ne heq] at hid'
    exact h.map id' hid'

theorem forget_ids (h : OnlyIds S b) (id : OrderId) :
    OnlyIds S { b with idToKey := Function.update b.idToKey id none } :=
  update_ids h none fun hnone => (by cases hnone)

theorem afterRemoval_ids (h : OnlyIds S b) {s : Side} {idx : Nat} {id : Option OrderId}
    (e : b.afterRemoval s idx id = some b') : OnlyIds S b' := by
  have hempty : ∀ b₁ : OrderBook M K, OnlyIds S b₁ →
      ((b₁.isLevelEmpty s idx).bind fun empty => if empty then b₁.clearEmptyBest s idx else some b₁) = some b' →
        OnlyIds S b' := by
    intro b₁ h₁ e
    obtain ⟨empty, -, e⟩ := Option.bind_eq_some_iff.mp e
    split at e
    · exact clearEmptyBest_ids h₁ e
    · cases e
      exact h₁
  cases id with
  | none => exact hempty b h e
  | some id => exact hempty _ (forget_ids h id) e

theorem fillLevelHead_ids (h : OnlyIds S b) {s : Side} {idx : Nat} {fillQty : Qty} {full : Bool}
    (e : b.fillLevelHead s idx fillQty = some (full, b')) : OnlyIds S b' := by
  obtain ⟨slot, -, e⟩ := Option.bind_eq_some_iff.mp e
  split at e
  · cases e
    exact h
  · obtain ⟨⟨full', l', arena'⟩, e₁, e⟩ := Option.bind_eq_some_iff.mp e
    cases e
    have h' : OnlyIds S { b with arena := arena' } := ⟨h.map, fillHead_ids h.arena e₁⟩
    exact setLevel_ids h' s idx l'

theorem cancelRestingHead_ids (h : OnlyIds S b) {s : Side} {idx : Nat} {id : Option OrderId}
    (e : b.cancelRestingHead s idx = some (id, b')) : OnlyIds S b' := by
  obtain ⟨slot, -, e⟩ := Option.bind_eq_some_iff.mp e
  split at e
  · cases e
    exact h
  · split at e
    · cases e
      exact h
    · obtain ⟨⟨removed, l', arena'⟩, e₁, e⟩ := Option.bind_eq_some_iff.mp e
      cases e
      have h' : OnlyIds S { b with arena := arena' } := ⟨h.map, remove_ids h.arena e₁⟩
      exact setLevel_ids h' s idx l'

/-! ## Matching -/

variable {events events' : List EngineEvent}

theorem matchStep_ids {a : Aggressor} {qty qty' : Qty} {goOn : Bool}
    (h : OnlyIds S b) (e : matchStep a (b, qty, events) = some (goOn, b', qty', events')) : OnlyIds S b' := by
  rw [matchStep] at e
  split at e
  · cases e
    exact h
  split at e
  · cases e
    exact h
  · cases e
    exact h
  obtain ⟨slot, -, e⟩ := Option.bind_eq_some_iff.mp e
  split at e
  · cases e
    exact h
  split at e
  · obtain ⟨b₁, e₁, e⟩ := Option.map_eq_some_iff.mp e
    cases e
    exact clearEmptyBest_ids h e₁
  obtain ⟨maker, -, e⟩ := Option.bind_eq_some_iff.mp e
  split at e
  · obtain ⟨⟨id, b₁⟩, e₁, e⟩ := Option.bind_eq_some_iff.mp e
    obtain ⟨b₂, e₂, e⟩ := Option.bind_eq_some_iff.mp e
    cases e
    exact afterRemoval_ids (cancelRestingHead_ids h e₁) e₂
  · obtain ⟨⟨full, b₁⟩, e₁, e⟩ := Option.bind_eq_some_iff.mp e
    have h₁ := fillLevelHead_ids h e₁
    dsimp only at e
    split at e
    · obtain ⟨b₂, e₂, e⟩ := Option.bind_eq_some_iff.mp e
      cases e
      exact afterRemoval_ids h₁ e₂
    · cases e
      exact h₁

theorem matchLoop_ids {a : Aggressor} {n : Nat} {qty qty' : Qty} (h : OnlyIds S b)
    (e : matchLoop a n (b, qty, events) = some (b', qty', events')) : OnlyIds S b' := by
  induction n generalizing b qty events with
  | zero => cases e
  | succ n ih =>
    obtain ⟨⟨goOn, b₁, qty₁, events₁⟩, e₁, e⟩ := Option.bind_eq_some_iff.mp e
    have h₁ := matchStep_ids h e₁
    cases goOn with
    | false =>
      cases e
      exact h₁
    | true => exact ih h₁ e

/-! ## Commands -/

theorem restRemainder_ids {seq tsNs : UInt64} {o : InboundNewOrder} {priceIdx : Nat} {qty : Qty}
    (h : OnlyIds S b) (hseq : S ⟨seq⟩)
    (e : b.restRemainder seq tsNs o priceIdx qty events = some (b', events')) : OnlyIds S b' := by
  rw [restRemainder] at e
  split at e
  · cases e
    exact h
  obtain ⟨slot, -, e⟩ := Option.bind_eq_some_iff.mp e
  obtain ⟨⟨pl, arena'⟩, e₁, e⟩ := Option.bind_eq_some_iff.mp e
  obtain ⟨top, -, e⟩ := Option.bind_eq_some_iff.mp e
  cases e
  have harena : ArenaIds S arena' := pushBack_ids (All.insert h.arena hseq) e₁
  have h₁ : OnlyIds S { b with arena := arena' } := ⟨h.map, harena⟩
  have h₂ := update_ids h₁
    (some (SlotMap.insert b.arena (RestingOrder.new ⟨seq⟩ o.account qty o.side o.price seq)).1) fun _ => hseq
  have h₃ := setLevel_ids h₂ o.side priceIdx pl
  split
  · exact refreshBestBidUp_ids h₃ priceIdx
  · exact refreshBestAskDown_ids h₃ priceIdx

theorem applyNewOrder_ids {seq tsNs : UInt64} {o : InboundNewOrder} {events : List EngineEvent} (h : OnlyIds S b)
    (hseq : S ⟨seq⟩) (e : b.applyNewOrder seq tsNs o = some (b', events)) : OnlyIds S b' := by
  rw [applyNewOrder] at e
  split at e
  · cases e
    exact h
  split at e
  · cases e
    exact h
  split at e
  · cases e
  · cases e
    exact h
  obtain ⟨⟨b₁, qty₁, events₁⟩, e₁, e⟩ := Option.bind_eq_some_iff.mp e
  have h₁ := matchLoop_ids h e₁
  dsimp only at e
  split at e
  · obtain ⟨top, -, e⟩ := Option.bind_eq_some_iff.mp e
    cases e
    exact h₁
  split at e
  · obtain ⟨top, -, e⟩ := Option.bind_eq_some_iff.mp e
    cases e
    exact h₁
  · exact restRemainder_ids h₁ hseq e

theorem applyCancel_ids {seq : UInt64} {account : AccountId} {id : OrderId} {events : List EngineEvent}
    (h : OnlyIds S b) (e : b.applyCancel seq account id = some (b', events)) : OnlyIds S b' := by
  rw [applyCancel] at e
  split at e
  · cases e
    exact h
  rename_i key hkey
  have hid : S id := h.map id (by rw [hkey]; rfl)
  have h₁ := forget_ids h id
  obtain ⟨order, -, e⟩ := Option.bind_eq_some_iff.mp e
  split at e
  · cases e
    exact update_ids h₁ (some key) fun _ => hid
  dsimp only at e
  split at e
  · cases e
    exact h₁
  rename_i priceIdx _
  obtain ⟨slot, -, e⟩ := Option.bind_eq_some_iff.mp e
  split at e
  · cases e
    exact h₁
  obtain ⟨⟨removed, l', arena'⟩, e₂, e⟩ := Option.bind_eq_some_iff.mp e
  have h₂ : OnlyIds S { b with arena := arena', idToKey := Function.update b.idToKey id none } :=
    ⟨h₁.map, remove_ids h.arena e₂⟩
  have h₃ := setLevel_ids h₂ order.side priceIdx l'
  dsimp only at e
  split at e
  · obtain ⟨b₄, e₄, e⟩ := Option.bind_eq_some_iff.mp e
    cases e
    exact clearEmptyBest_ids h₃ e₄
  · cases e
    exact h₃

/-- The ids after a command were there before, or are that of the command. -/
theorem apply_ids {cmd : SequencedCommand} {events : List EngineEvent} (h : OnlyIds S b)
    (hseq : ∀ seq ∈ cmd.newOrderSeq, S ⟨seq⟩) (e : b.apply cmd = some (b', events)) : OnlyIds S b' := by
  obtain ⟨term, seq, tsNs, cmd⟩ := cmd
  cases cmd with
  | newOrder o => exact applyNewOrder_ids h (hseq seq rfl) e
  | cancel account id => exact applyCancel_ids h e
  | liquidate symbol account =>
    cases e
    exact h
  | freezeAccount account =>
    cases e
    exact h

theorem run_ids {cmds : List SequencedCommand} {evss : List (List EngineEvent)} (h : OnlyIds S b)
    (hseq : ∀ seq ∈ cmds.filterMap SequencedCommand.newOrderSeq, S ⟨seq⟩) (e : b.run cmds = some (b', evss)) :
    OnlyIds S b' := by
  induction cmds generalizing b evss with
  | nil =>
    cases e
    exact h
  | cons cmd cmds ih =>
    obtain ⟨⟨b₁, evs⟩, e₁, e⟩ := Option.bind_eq_some_iff.mp e
    obtain ⟨⟨b₂, rest⟩, e₂, e⟩ := Option.bind_eq_some_iff.mp e
    cases e
    have hmem : ∀ c ∈ cmd :: cmds, ∀ seq ∈ c.newOrderSeq, S ⟨seq⟩ := fun c hc seq hc' =>
      hseq seq (List.mem_filterMap.mpr ⟨c, hc, hc'⟩)
    have h₁ := apply_ids h (hmem cmd List.mem_cons_self) e₁
    refine ih h₁ (fun seq hseq' => ?_) e₂
    obtain ⟨c, hc, hc'⟩ := List.mem_filterMap.mp hseq'
    exact hmem c (List.mem_cons_of_mem cmd hc) seq hc'

theorem new_ids {cfg : BookConfig} (h : OrderBook.new cfg = some b) : OnlyIds S b := by
  rw [OrderBook.new] at h
  split at h
  · cases h
  cases h
  refine ⟨fun id hid => (by cases hid), fun k o ho => ?_⟩
  rw [get?_remove] at ho
  split at ho
  · cases ho
  · rename_i hk
    rw [get?_insert, if_neg hk, get?_withCapacity] at ho
    cases ho

/-- Every id in a book is the sequence number of a new order it was given. -/
theorem run_onlyIds {cfg : BookConfig} {cmds : List SequencedCommand} {evss : List (List EngineEvent)}
    (hnew : OrderBook.new cfg = some b) (e : b.run cmds = some (b', evss)) :
    OnlyIds (fun id => id.raw ∈ cmds.filterMap SequencedCommand.newOrderSeq) b' :=
  run_ids (new_ids hnew) (fun _ hseq => hseq) e

end MRE.Proof.Book
