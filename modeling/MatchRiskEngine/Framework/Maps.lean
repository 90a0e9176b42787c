import Mathlib.Data.List.AList

/-!
# Updating the values of a map

Lookups after `AList.replace`, and updating the values at some keys, one after
the other, by a function that may fail (`AList.updateAll`): it is defined if the
function is at each key (`updateAll_isSome`), and then each of the values is
updated on its own (`lookup_updateAll`).
-/

namespace List

variable {α β : Type} [DecidableEq α] {a a' : α}

theorem kreplace_cons (a : α) (b : β) (e : Sigma fun _ : α => β) (es : List (Sigma fun _ : α => β)) :
    kreplace a b (e :: es) = if a = e.1 then ⟨a, b⟩ :: es else e :: kreplace a b es := by
  split
  · rename_i h
    exact lookmap_cons_some _ _ (if_pos h)
  · rename_i h
    exact lookmap_cons_none _ _ (if_neg h)

theorem dlookup_kreplace_ne (h : a' ≠ a) (b : β) (es : List (Sigma fun _ : α => β)) :
    dlookup a' (kreplace a b es) = dlookup a' es := by
  induction es with
  | nil => rfl
  | cons e es ih =>
    rw [kreplace_cons]
    split
    · rename_i ha
      rw [dlookup_cons_ne es (⟨a, b⟩ : Sigma fun _ : α => β) h, dlookup_cons_ne es e (ha ▸ h)]
    · by_cases he : a' = e.1
      · obtain ⟨k, v⟩ := e
        obtain rfl : a' = k := he
        rw [dlookup_cons_eq, dlookup_cons_eq]
      · rw [dlookup_cons_ne _ e he, dlookup_cons_ne _ e he, ih]

theorem dlookup_kreplace_self (b : β) {es : List (Sigma fun _ : α => β)} (h : (dlookup a es).isSome) :
    dlookup a (kreplace a b es) = some b := by
  induction es with
  | nil => cases h
  | cons e es ih =>
    rw [kreplace_cons]
    split
    · exact dlookup_cons_eq es a b
    · rename_i hne
      rw [dlookup_cons_ne _ e hne] at h ⊢
      exact ih h

end List

namespace AList

variable {α β : Type} [DecidableEq α] {m m' : AList fun _ : α => β} {a a' : α}

theorem lookup_replace_ne (h : a' ≠ a) (b : β) (m : AList fun _ : α => β) :
    (m.replace a b).lookup a' = m.lookup a' := List.dlookup_kreplace_ne h b m.entries

theorem lookup_replace_self {v : β} (h : m.lookup a = some v) (b : β) : (m.replace a b).lookup a = some b :=
  List.dlookup_kreplace_self b (Option.isSome_of_eq_some h)

def update (f : β → Option β) (m : AList fun _ : α => β) (a : α) : Option (AList fun _ : α => β) := do
  let v ← m.lookup a
  let v ← f v
  some (m.replace a v)

def updateAll (f : β → Option β) (m : AList fun _ : α => β) (ks : List α) : Option (AList fun _ : α => β) :=
  ks.foldlM (update f) m

variable {f : β → Option β} {ks : List α}

theorem update_eq_some (h : m.update f a = some m') :
    ∃ v v', m.lookup a = some v ∧ f v = some v' ∧ m' = m.replace a v' := by
  obtain ⟨v, hv, h⟩ := Option.bind_eq_some_iff.mp h
  obtain ⟨v', hv', h⟩ := Option.bind_eq_some_iff.mp h
  exact ⟨v, v', hv, hv', (Option.some.inj h).symm⟩

theorem lookup_update_ne (h : m.update f a = some m') (hne : a' ≠ a) : m'.lookup a' = m.lookup a' := by
  obtain ⟨v, v', -, -, rfl⟩ := update_eq_some h
  exact lookup_replace_ne hne v' m

theorem lookup_update_self (h : m.update f a = some m') : m'.lookup a = (m.lookup a).bind f := by
  obtain ⟨v, v', hv, hv', rfl⟩ := update_eq_some h
  rw [lookup_replace_self hv, hv, Option.bind_some, hv']

theorem update_isSome (h : ((m.lookup a).bind f).isSome) : ∃ m', m.update f a = some m' := by
  obtain ⟨v', hv'⟩ := Option.isSome_iff_exists.mp h
  obtain ⟨v, hv, hf⟩ := Option.bind_eq_some_iff.mp hv'
  exact ⟨m.replace a v', by rw [update, hv]; show (f v).bind _ = _; rw [hf]; rfl⟩

theorem lookup_updateAll_notMem (h : m.updateAll f ks = some m') (ha : a ∉ ks) : m'.lookup a = m.lookup a := by
  induction ks generalizing m with
  | nil =>
    cases h
    rfl
  | cons k ks ih =>
    obtain ⟨m₁, h₁, h⟩ := Option.bind_eq_some_iff.mp h
    rw [ih h (fun hm => ha (List.mem_cons_of_mem k hm)), lookup_update_ne h₁ (fun he => ha (he ▸ List.mem_cons_self))]

theorem lookup_updateAll (h : m.updateAll f ks = some m') (hks : ks.Nodup) (ha : a ∈ ks) :
    m'.lookup a = (m.lookup a).bind f := by
  induction ks generalizing m with
  | nil => exact absurd ha List.not_mem_nil
  | cons k ks ih =>
    obtain ⟨hk, hks⟩ := List.nodup_cons.mp hks
    obtain ⟨m₁, h₁, hrest⟩ := Option.bind_eq_some_iff.mp h
    have hrest : m₁.updateAll f ks = some m' := hrest
    rcases List.mem_cons.mp ha with rfl | ha
    · rw [lookup_updateAll_notMem hrest hk, lookup_update_self h₁]
    · rw [ih hrest hks ha, lookup_update_ne h₁ (fun he => hk (he ▸ ha))]

theorem updateAll_isSome (hks : ks.Nodup) (h : ∀ k ∈ ks, ((m.lookup k).bind f).isSome) :
    ∃ m', m.updateAll f ks = some m' := by
  induction ks generalizing m with
  | nil => exact ⟨m, rfl⟩
  | cons k ks ih =>
    obtain ⟨hk, hks⟩ := List.nodup_cons.mp hks
    obtain ⟨hsome, hrest⟩ := List.forall_mem_cons.mp h
    obtain ⟨m₁, h₁⟩ := update_isSome hsome
    have hstill : ∀ k' ∈ ks, ((m₁.lookup k').bind f).isSome := fun k' hk' => by
      rw [lookup_update_ne h₁ (fun he => hk (he ▸ hk'))]
      exact hrest k' hk'
    obtain ⟨m', h'⟩ := ih hks hstill
    exact ⟨m', by rw [updateAll, List.foldlM_cons, h₁]; exact h'⟩

end AList
