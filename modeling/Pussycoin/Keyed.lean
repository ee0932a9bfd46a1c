import Mathlib

/-! Values under distinct keys. A cache keeps a running total of what its entries hold:
inserting at a key replaces what the key held, and erasing it takes that away. A loop over
a list of entries with distinct keys that writes each entry's key once leaves every key
with what the list holds for it, and the others as they were. -/
namespace Keyed

variable {α β : Type} (f : β → ℕ)

def total (s : AList fun _ : α => β) : ℕ := (s.entries.map fun entry => f entry.2).sum

@[simp] theorem total_empty : total f (∅ : AList fun _ : α => β) = 0 := rfl

variable [DecidableEq α]

/-- What a key adds to the total: nothing where it is absent. -/
def held (s : AList fun _ : α => β) (a : α) : ℕ := ((s.lookup a).map f).getD 0

theorem total_insert (a : α) (b : β) (s : AList fun _ : α => β) :
    total f (s.insert a b) = total f (s.erase a) + f b := by
  simp only [total, AList.entries_insert, List.map_cons, List.sum_cons, AList.erase]
  omega

theorem total_eq_erase_add (a : α) (s : AList fun _ : α => β) :
    total f s = total f (s.erase a) + held f s a := by
  by_cases mem : a ∈ s
  · obtain ⟨b, front, back, notFront, split, erased⟩ := List.exists_of_kerase (AList.mem_keys.mp mem)
    have found : s.lookup a = some b := by
      rw [AList.lookup, split, List.dlookup_append, List.dlookup_eq_none.mpr notFront, Option.none_or,
        List.dlookup_cons_eq]
    simp only [total, held, AList.erase, erased, found, Option.map_some, Option.getD_some]
    rw [split, List.map_append, List.map_append, List.sum_append, List.sum_append, List.map_cons,
      List.sum_cons]
    dsimp only
    omega
  · have absent : s.lookup a = none := AList.lookup_eq_none.mpr mem
    simp only [total, held, AList.erase, List.kerase_of_notMem_keys (mt AList.mem_keys.mpr mem), absent,
      Option.map_none, Option.getD_none, add_zero]

section Writes

variable {α E σ W : Type} [DecidableEq α] (obs : σ → α → W) (value : E → W)

/-- A fallible loop whose body, from a state of the invariant and an entry the condition
admits at what its key shows, succeeds and writes that key alone. -/
theorem foldlM_writes (Inv : σ → Prop) (cond : W → E → Prop) (body : σ → (Σ _ : α, E) → Option σ)
    (step : ∀ s x, Inv s → cond (obs s x.1) x.2 →
      ∃ s', body s x = some s' ∧ Inv s' ∧ obs s' = Function.update (obs s) x.1 (value x.2)) :
    ∀ {es : List (Σ _ : α, E)} {s : σ}, es.NodupKeys → Inv s → (∀ x ∈ es, cond (obs s x.1) x.2) →
      ∃ s', es.foldlM body s = some s' ∧ Inv s' ∧ ∀ a, obs s' a = ((es.dlookup a).map value).getD (obs s a)
  | [], s, _, inv, _ => ⟨s, rfl, inv, fun _ => rfl⟩
  | ⟨b, e⟩ :: rest, s, nodup, inv, admitted => by
    obtain ⟨fresh, nodupRest⟩ := List.nodupKeys_cons.mp nodup
    obtain ⟨s₁, first, inv₁, written⟩ := step s ⟨b, e⟩ inv (admitted _ List.mem_cons_self)
    dsimp only at fresh written
    -- the later entries have other keys, so the first write leaves what they see
    have others : ∀ x ∈ rest, obs s₁ x.1 = obs s x.1 := fun x mem => by
      have other : x.1 ≠ b := fun same => fresh (same ▸ List.mem_keys_of_mem mem)
      rw [written, Function.update_of_ne other]
    obtain ⟨s₂, loop, inv₂, final⟩ := foldlM_writes Inv cond body step nodupRest inv₁
      fun x mem => others x mem ▸ admitted x (List.mem_cons_of_mem _ mem)
    refine ⟨s₂, by rw [List.foldlM_cons, first]; exact loop, inv₂, fun a => ?_⟩
    rw [final, written]
    by_cases same : a = b
    · subst same
      rw [List.dlookup_eq_none.mpr fresh, List.dlookup_cons_eq]
      simp
    · rw [List.dlookup_cons_ne _ _ same, Function.update_of_ne same]

end Writes

end Keyed
