import SyncNotes.Foundations.Transition

/-!
# Forward simulation

A system `S` is simulated by a system `T` when related states stay related: each admitted step of
`S` is matched by a run of `T`, of no step, one or several. Both states may be taken as reached by
runs with admitted steps. The runs of `S` are then matched by runs of `T`, from the initial states
(`Simulation.reach`) and from any related states on the way (`Simulation.path`).
-/

namespace SyncNotes

namespace System

variable {σ ι σ' ι' : Type*}

/-- `R` is a forward simulation of the runs of `S` admitted by `ok` by the runs of `T` admitted by
`ok'`. -/
structure Simulation (S : System σ ι) (T : System σ' ι') (ok : σ → ι → Prop)
    (ok' : σ' → ι' → Prop) (R : σ → σ' → Prop) : Prop where
  init : ∀ s, S.init s → ∃ a, T.init a ∧ R s a
  step : ∀ s a l s', S.Reach ok s → T.Reach ok' a → R s a → ok s l → S.next s l = some s' →
    ∃ a', T.Path ok' a a' ∧ R s' a'

variable {S : System σ ι} {T : System σ' ι'} {ok : σ → ι → Prop} {ok' : σ' → ι' → Prop}
  {R : σ → σ' → Prop}

/-- From related states, a run of `S` is matched by a run of `T`. -/
theorem Simulation.path (h : Simulation S T ok ok' R) {s s' : σ} {a : σ'} (hs : S.Reach ok s)
    (ha : T.Reach ok' a) (hr : R s a) (hp : S.Path ok s s') : ∃ a', T.Path ok' a a' ∧ R s' a' := by
  refine hp.invariant (I := fun s => ∃ a', T.Path ok' a a' ∧ R s a') ⟨a, .refl a, hr⟩ ?_
  rintro x l y hx ⟨b, hb, hxb⟩ hok hnext
  obtain ⟨b', hb', hyb⟩ := h.step x b l y (hs.trans hx) (ha.trans hb) hxb hok hnext
  exact ⟨b', hb.trans hb', hyb⟩

/-- **A run of `S` is matched by a run of `T`.** -/
theorem Simulation.reach (h : Simulation S T ok ok' R) {s : σ} (hs : S.Reach ok s) :
    ∃ a, T.Reach ok' a ∧ R s a := by
  obtain ⟨s₀, h₀, hp⟩ := hs
  obtain ⟨a, ha, hr⟩ := h.init s₀ h₀
  obtain ⟨a', hp', hr'⟩ := h.path (.init h₀) (.init ha) hr hp
  exact ⟨a', .trans (.init ha) hp', hr'⟩

end System

end SyncNotes
