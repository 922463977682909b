import SyncNotes.Coroutine.Safety
import SyncNotes.Coroutine.Solo

/-!
# The builds run the same program

Control goes different ways, and the bodies do the same: in every build the log of a complete run is
`program count`, and no two single tasks have a frame at a time. The builds of one thread have one
run, which ends; the build of two threads has many.
-/

namespace SyncNotes.Coroutine

/-- No two single tasks have a frame. -/
def Memory.OneAlive (m : Memory) : Prop :=
  ∀ i j, (m.single i).Alive → (m.single j).Alive → i = j

theorem oneAlive_of_only {m : Memory} {i : ℕ} (h : ∀ j ≠ i, ¬ (m.single j).Alive) :
    m.OneAlive := by
  intro j k hj hk
  have h₁ : j = i := by_contra fun hc => h j hc hj
  have h₂ : k = i := by_contra fun hc => h k hc hk
  omega

namespace HandOff

variable {n : ℕ} {m : Memory} {M W : List Act} {jobs : List Job}

theorem Joint.oneAlive (h : Joint n m M W jobs) : m.OneAlive := by
  rcases h.position with h | ⟨i, g, ex, co, hp, -⟩ | h
  · exact oneAlive_of_only (i := 0) fun j _ => h.only j
  · exact oneAlive_of_only hp.only
  · exact oneAlive_of_only h.closed.only

/-- When `main` has returned the task has run. -/
theorem Joint.ended (h : Joint n m [.main .returned] W jobs) : Ended n m := by
  cases h with
  | start hp => rcases hp with hp | hp <;> cases hp
  | runs _ hs => cases hs
  | parted hM | meets hM => cases hM
  | endsWorker _ hq => cases hq
  | closed h => exact h

end HandOff

/-- `main` has returned. -/
def Extra.State.Returned (s : Extra.State) : Prop :=
  (s.code Extra.mainThread).stack = [.main .returned]

instance : DecidablePred Extra.State.Returned := fun s =>
  inferInstanceAs (Decidable ((s.code Extra.mainThread).stack = [.main .returned]))

theorem Extra.log_of_returned {count : ℤ} {s : Extra.State}
    (h : (Extra.system count).Reach System.anyStep s) (hr : s.Returned) :
    s.mem.log = program count := by
  have hJ := (Extra.reach_joint h).2
  rw [hr] at hJ
  exact hJ.ended.closed.log

/-- **The builds run the same program.** The events of the program are different from each other.
The run of a build of one thread ends, and every complete run of any build has the program as its
log, with one single task alive at a time. In the `SYMMETRIC` build the final awaiter never resumes
the task. -/
theorem same_program (count : ℤ) :
    (program count).Nodup ∧
      (∀ b, b ≠ .extra →
        (∃ s, (Solo.system b count).Reach System.anyStep s ∧ s.Returned) ∧
          ∀ s, (Solo.system b count).Reach System.anyStep s →
            (s.Returned → s.mem.log = program count) ∧ s.mem.OneAlive) ∧
      (∀ s, (Extra.system count).Reach System.anyStep s →
        (s.Returned → s.mem.log = program count) ∧ s.mem.OneAlive) ∧
      ∀ s, (Solo.system .symmetric count).Reach System.anyStep s →
        ∀ i h, .single i (.final (.resume h)) ∉ s.code.stack := by
  refine ⟨program_nodup count, fun b hb => ⟨Solo.completes hb count, fun s hs => ?_⟩,
    fun s hs => ⟨Extra.log_of_returned hs, (Extra.reach_joint hs).2.oneAlive⟩, fun s hs i h => ?_⟩
  · obtain ⟨r, hp⟩ := Solo.reach_place hb hs
    obtain ⟨i, hi⟩ := hp.only
    exact ⟨hp.log_of_returned, oneAlive_of_only hi⟩
  · obtain ⟨r, hp⟩ := Solo.reach_place (by decide) hs
    exact hp.not_resume i h

/-- The final awaiter exchanges `done_` first, `main` goes on with the task, stops the worker and
joins it. -/
def inlineTrace : List Extra.Label :=
  Extra.submitTrace ++ Extra.inside Extra.workerThread 9 ++ Extra.own Extra.workerThread 9 ++
    Extra.own Extra.mainThread 13 ++ Extra.inside Extra.mainThread 4 ++
    Extra.own Extra.mainThread 1 ++ Extra.inside Extra.workerThread 1 ++
    Extra.inside Extra.mainThread 2 ++ Extra.own Extra.mainThread 1

/-- A complete run of the build of two threads. -/
theorem same_program_inline : ∃ s, (Extra.system 1).Reach System.anyStep s ∧
    s.mem.continued 1 = [.inline] ∧ s.Returned ∧ s.mem.log = program 1 := by
  obtain ⟨s, hs, hc, hr⟩ := System.exists_reach_of_run System.anyStep (S := Extra.system 1)
    (s := Extra.start) rfl inlineTrace
    (P := fun s => s.mem.continued 1 = [.inline] ∧ s.Returned) (by decide +kernel)
  exact ⟨s, hs, hc, hr, ((same_program 1).2.2.1 s hs).1 hr⟩

end SyncNotes.Coroutine
