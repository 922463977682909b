import SyncNotes.Cond.Broadcast

/-!
# What a broadcast answers

A broadcast answers the waits that it finds counted. While it is under way it is heading for each of
them, and when it has returned each is settled: over, or at a position that needs no further signal
(`Answers`). Each step of the condition variable keeps this, so that a program that runs the
condition variable as a part of its own can follow it through its steps.
-/

namespace SyncNotes.Cond

open Pool

variable {τ : Type*} [Fintype τ] {s s' : State τ} {B W : τ} {seq : ℕ} {g : Bool}

/-- The wait of `W` at the position is settled, or the broadcast of `B` is on its way to settle
it. -/
structure Answers (s : State τ) (B W : τ) (seq : ℕ) (g : Bool) : Prop where
  handed : (seq, g) ∈ s.mem.handed
  answered : Settled s W seq ∨ (s.pc W).countedAt seq ∧ Heading seq s.mem (s.pc B)

omit [Fintype τ] in
/-- A thread that is on its last steps in `pthread_cond_wait` is no longer counted. -/
theorem past_of_not_counted {p : WaitPc} (hW : s.pc W = .wait seq g p) (hp : p ≠ .incWrefs)
    (hc : p.counted = false) : (s.pc W).past seq := by
  intro x q hq
  rw [hW] at hq
  cases hq
  cases p <;> first | exact .inl rfl | exact .inr rfl | exact absurd rfl hp | cases hc

/-- The call of a broadcast answers every wait that has done its increment of `wrefs`. -/
theorem answers_of_call (hb : Basics s) (hB : s.pc B = .notify .broadcast .loadWrefs) {p : WaitPc}
    (hW : s.pc W = .wait seq g p) (hp : p ≠ .incWrefs) : Answers s B W seq g where
  handed := hb.member W _ _ _ hW
  answered := by
    by_cases hc : p.counted = true
    · exact .inr ⟨⟨g, p, hW, hc⟩, by rw [hB]; exact True.intro⟩
    · exact .inl (.inl (past_of_not_counted hW hp (Bool.eq_false_iff.mpr hc)))

/-- **Every step keeps what a broadcast answers.** -/
theorem Answers.next [DecidableEq τ] {l : Label τ} (h : Answers s B W seq g) (hb : Basics s)
    (hl : Limits s) (hs : (system τ).next s l = some s') : Answers s' B W seq g where
  handed := handed_next hs h.handed
  answered := by
    rcases h.answered with hset | ⟨hc, hh⟩
    · exact .inl (hset.next hb hl.bounded hs h.handed)
    · rcases countedAt_next hs hc with hc' | hp
      · exact (heading_next hb hl hs h.handed hc hh).imp .inr fun hh' => ⟨hc', hh'⟩
      · exact .inl (.inl hp)

/-- Where a thread in `pthread_cond_wait` was before a step. -/
theorem wait_of_next [DecidableEq τ] {l : Label τ} {p : WaitPc} (hs : (system τ).next s l = some s')
    (h : s'.pc W = .wait seq g p) : (∃ q, s.pc W = .wait seq g q) ∨ s.pc W = .fetchSeq := by
  rcases next_cases hs with ⟨m, p', -, he, rfl⟩ | ⟨w, n, p', hw, -, rfl⟩
  · rcases eq_or_ne W l.thread with rfl | hne
    · rw [State.set_pc_self] at h
      subst h
      rcases exec_wait he with ⟨q, hq, -⟩ | ⟨hf, -⟩
      · exact .inl ⟨q, hq⟩
      · exact .inr hf
    · rw [State.set_pc_other s hne] at h
      exact .inl ⟨p, h⟩
  · left
    rcases eq_or_ne W l.thread with rfl | hne
    · rw [wakeUp_pc_self] at h
      subst h
      exact wait_of_wake hw
    · rw [wakeUp_pc_other s hne] at h
      split_ifs at h
      · exact wait_of_resume h
      · exact ⟨p, h⟩

omit [Fintype τ] in
/-- When the broadcast has returned, what it answers is settled. -/
theorem Answers.settled (h : Answers s B W seq g) (hret : s.pc B = .idle) : Settled s W seq := by
  refine h.answered.resolve_right fun hh => ?_
  have := hh.2
  rw [hret] at this
  exact this

/-- A settled wait does not sleep without its wakeup under way. -/
theorem wakeup_of_settled (hb : Basics s) (ha : Accounts s) (hset : Settled s W seq)
    (hW : s.pc W = .wait seq g .asleep) :
    ∃ v, v ≠ W ∧ (0 < (s.pc v).pending g 1 ∨ (s.pc v).checksIn g) := by
  rcases hset with hp | hr
  · rcases hp g _ hW with h | h <;> cases h
  · exact wakeup_of_released hb ha hW hr

end SyncNotes.Cond
