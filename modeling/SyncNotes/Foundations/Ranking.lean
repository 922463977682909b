import SyncNotes.Foundations.Transition

/-!
# Runs that end

A ranking is a natural number that certain steps lower. With one, a trace of such steps is no longer
than the rank it starts from (`Ranks.length_le`), and every state leads by such steps to one from
which none is left (`Ranks.exists_stuck`), so that what holds of every stuck state is reached. The
steps that are counted (`ok'`) may be fewer than those of the runs that lead to the start (`ok`).
-/

namespace SyncNotes

namespace System

variable {σ ι : Type*} (S : System σ ι) (ok ok' : σ → ι → Prop)

/-- No admitted label is enabled. -/
def Stuck (s : σ) : Prop := ∀ l, ok s l → S.next s l = none

/-- The steps that `ok'` admits are steps of runs and lower the rank. -/
structure Ranks (μ : σ → ℕ) : Prop where
  admitted : ∀ s l, ok' s l → ok s l
  lower : ∀ s l s', S.Reach ok s → ok' s l → S.next s l = some s' → μ s' < μ s

variable {S ok ok'} {μ : σ → ℕ}

/-- A trace of fewer steps goes on with the run. -/
theorem Reach.run_mono [∀ s l, Decidable (ok' s l)] {s₀ s : σ} {ls : List ι}
    (h : ∀ s l, ok' s l → ok s l) (h₀ : S.Reach ok s₀) (hs : S.run ok' s₀ ls = some s) :
    S.Reach ok s := h₀.trans ((path_of_run hs).mono h)

/-- **A trace has no more steps than the rank it spends.** -/
theorem Ranks.length_le [∀ s l, Decidable (ok' s l)] (h : S.Ranks ok ok' μ) {s₀ s : σ}
    {ls : List ι} (h₀ : S.Reach ok s₀) (hs : S.run ok' s₀ ls = some s) :
    ls.length + μ s ≤ μ s₀ := by
  refine run_induction (I := fun ls s => ls.length + μ s ≤ μ s₀) (by simp)
    (fun ls a l b ha hi hok hb => ?_) hs
  have hlt := h.lower a l b (h₀.run_mono h.admitted ha) hok hb
  rw [List.length_append, List.length_singleton]
  omega

/-- **Every run can be prolonged until it is stuck.** -/
theorem Ranks.exists_stuck (h : S.Ranks ok ok' μ) {s : σ} (hs : S.Reach ok s) :
    ∃ s', S.Path ok' s s' ∧ S.Stuck ok' s' := by
  induction hn : μ s using Nat.strong_induction_on generalizing s with
  | _ n ih =>
    by_cases hstuck : S.Stuck ok' s
    · exact ⟨s, .refl s, hstuck⟩
    · simp only [Stuck, not_forall] at hstuck
      obtain ⟨l, hok, hne⟩ := hstuck
      obtain ⟨a, ha⟩ := Option.ne_none_iff_exists'.mp hne
      obtain ⟨s', hp, hs'⟩ :=
        ih (μ a) (hn ▸ h.lower s l a hs hok ha) (hs.step (h.admitted s l hok) ha) rfl
      exact ⟨s', .trans (.tail (.refl s) hok ha) hp, hs'⟩

end System

end SyncNotes
