import Mathlib.Logic.Relation

/-!
# Runs of a transition system

`Step s a s'` is one step with label `a`.  `Reach Step C` relates a state to the states that
steps lead to when every one of them satisfies the side condition `C`.

A loop over a list that may give up is `List.foldlM` in `Option`: `foldlM_keeps` for the loops that
end, `foldlM_ends` to show that one does, `foldlM_idle` for a loop that changes nothing.
-/

namespace OsZ
variable {σ α : Type*}

def Reach (Step : σ → α → σ → Prop) (C : σ → α → Prop) : σ → σ → Prop :=
  Relation.ReflTransGen (fun s s' => ∃ a, C s a ∧ Step s a s')

namespace Reach
variable {Step : σ → α → σ → Prop} {C : σ → α → Prop} {s s' s'' : σ}

theorem refl : Reach Step C s s := Relation.ReflTransGen.refl

theorem tail {a : α} (h : Reach Step C s s') (hc : C s' a) (hs : Step s' a s'') :
    Reach Step C s s'' := Relation.ReflTransGen.tail h ⟨a, hc, hs⟩

/-- an invariant kept by every admitted step holds wherever such steps lead -/
theorem keeps {I : σ → Prop} (h : Reach Step C s s') (h0 : I s)
    (hstep : ∀ u a u', I u → C u a → Step u a u' → I u') : I s' := by
  induction h with
  | refl => exact h0
  | tail _ h1 ih =>
    obtain ⟨a, hc, hs⟩ := h1
    exact hstep _ a _ ih hc hs

end Reach

theorem foldlM_keeps {I : σ → Prop} {f : σ → α → Option σ} {l : List α}
    (hf : ∀ s, I s → ∀ a ∈ l, ∀ s', f s a = some s' → I s') {s s' : σ} (h0 : I s)
    (h : l.foldlM f s = some s') : I s' := by
  induction l generalizing s with
  | nil =>
    cases h
    exact h0
  | cons a l ih =>
    rw [List.foldlM_cons] at h
    obtain ⟨t, ht, h⟩ := Option.bind_eq_some_iff.mp h
    exact ih (fun s hs b hb => hf s hs b (List.mem_cons_of_mem _ hb))
      (hf s h0 a (List.mem_cons_self ..) t ht) h

theorem foldlM_ends {I : σ → Prop} {f : σ → α → Option σ} {l : List α}
    (hf : ∀ s, I s → ∀ a ∈ l, ∃ s', f s a = some s' ∧ I s') {s : σ} (h0 : I s) :
    ∃ s', l.foldlM f s = some s' ∧ I s' := by
  induction l generalizing s with
  | nil => exact ⟨s, rfl, h0⟩
  | cons a l ih =>
    obtain ⟨t, ht, h1⟩ := hf s h0 a (List.mem_cons_self ..)
    obtain ⟨s', hs', h2⟩ := ih (fun s hs b hb => hf s hs b (List.mem_cons_of_mem _ hb)) h1
    refine ⟨s', ?_, h2⟩
    rw [List.foldlM_cons, ht]
    exact hs'

theorem foldlM_idle {f : σ → α → Option σ} {l : List α} {s s' : σ} (hf : ∀ a ∈ l, ∀ t, f s a = some t → t = s) :
    l.foldlM f s = some s' ↔ s' = s ∧ ∀ a ∈ l, f s a = some s := by
  induction l with
  | nil => simp [eq_comm]
  | cons a l ih =>
    have ih' := ih (fun b hb => hf b (List.mem_cons_of_mem _ hb))
    rw [List.foldlM_cons]
    constructor
    · intro h
      obtain ⟨t, ht, h'⟩ := Option.bind_eq_some_iff.mp h
      have e := hf a (List.mem_cons_self ..) t ht
      subst e
      obtain ⟨e, hall⟩ := ih'.mp h'
      exact ⟨e, List.forall_mem_cons.mpr ⟨ht, hall⟩⟩
    · rintro ⟨e, hall⟩
      obtain ⟨ha, hall⟩ := List.forall_mem_cons.mp hall
      rw [ha]
      exact ih'.mpr ⟨e, hall⟩

end OsZ
