import SyncNotes.Generator.Order

/-!
# The generator is resumed often enough and never too often

The consumers call `resume()` `consumers * rounds` times and `main` once more, and the coroutine can
be resumed `count + 1` times, so that every call finds it suspended, in every interleaving, exactly
when `consumers * rounds ≤ count` (`resume_valid_iff`). Then no run gets stuck before `main` has
returned, and since every step lowers a rank no run goes on forever (`generator_completes`).
-/

namespace SyncNotes.Generator

variable {p : Params} {s s' : State}

/-! ## One thread at a time -/

/-- A thread is at a call of `resume()`, inside it, at `promise().val` or at the destruction of the
frame. -/
def State.Uses (s : State) : Thread → Prop
  | .main =>
    match s.main with
    | .resume | .body _ | .destroy => True
    | _ => False
  | .consumer k =>
    match s.consumer k with
    | .resume _ | .body _ _ | .lookup _ => True
    | _ => False

theorem State.Uses.holds {k : ℕ} (h : s.Uses (.consumer k)) : (s.consumer k).Holds := by
  simp only [State.Uses] at h
  cases hc : s.consumer k <;> simp only [hc] at h <;> trivial

/-- When `main` uses the frame it has joined all consumers. -/
theorem State.Uses.joined (h : s.Uses .main) : s.main.spawned p = s.main.joined p := by
  simp only [State.Uses] at h
  cases hm : s.main <;> simp only [hm] at h <;> rfl

theorem Inv.exclusive (h : Inv p s) {t u : Thread} (ht : s.Uses t) (hu : s.Uses u) : t = u := by
  have hmain : ∀ {k}, s.Uses .main → ¬ s.Uses (.consumer k) := fun hm hk => by
    have ho := h.owner_none hm.joined
    rw [(h.owner _).mpr hk.holds] at ho
    cases ho
  cases t with
  | main =>
    cases u with
    | main => rfl
    | consumer k => exact absurd hu (hmain ht)
  | consumer k =>
    cases u with
    | main => exact absurd ht (hmain hu)
    | consumer j =>
      have h₁ := (h.owner k).mpr ht.holds
      rw [(h.owner j).mpr hu.holds] at h₁
      rw [Option.some.inj h₁]

/-- **The frame is used by one thread at a time, and the values are looked up in order**: the `n`-th
lookup, whichever consumer makes it, reads `10 * n`, or the last value once the loop has ended. -/
theorem values_in_order (h : (system p).Reach System.anyStep s) :
    (∀ t u, s.Uses t → s.Uses u → t = u) ∧
      ∀ n (hn : n < s.lookedUp.length),
        (s.lookedUp.get ⟨n, hn⟩).2 = ((10 * min (n + 1) p.count : ℕ) : ℤ) := by
  have hi := reach_inv h
  refine ⟨fun t u => hi.exclusive, fun n hn => ?_⟩
  have hv := congrArg (·[n]?) hi.values
  simp only [List.getElem?_map, List.getElem?_range' hn, List.getElem?_eq_getElem hn,
    Option.map_some, Option.some.injEq] at hv
  rw [List.get_eq_getElem, hv, latest]
  congr 3
  omega

/-! ## Calls of `resume()` -/

/-- The coroutine is suspended and not at its end. -/
def Frame.Resumable (f : Frame) : Prop := f.status = .initial ∨ f.status = .yielded

/-- Every thread that is at a call of `resume()` finds a coroutine that can be resumed. -/
def State.ResumeValid (s : State) : Prop :=
  (s.main = .resume → s.frame.Resumable) ∧ ∀ k i, s.consumer k = .resume i → s.frame.Resumable

/-- Some thread is at a call of `resume()`. -/
def State.Resumes (s : State) : Prop := s.main = .resume ∨ ∃ k i, s.consumer k = .resume i

theorem State.resumeValid_iff : s.ResumeValid ↔ (s.Resumes → s.frame.Resumable) := by
  simp only [ResumeValid, Resumes, or_imp, forall_exists_index]

theorem Frame.Resumable.resume {f : Frame} (h : f.Resumable) :
    ∃ r, Generator.resume f = some r := by
  rcases h with h | h <;> simp [Generator.resume, h]

/-- A suspended coroutine can be resumed, or it has run to its end. -/
theorem Suspended.resumable_or_final {f : Frame} {n : ℕ} (h : Suspended p f n) :
    f.Resumable ∨ f.status = .final ∧ n = p.count + 1 := by
  obtain ⟨hs, -⟩ | ⟨hs, -⟩ | hs := h.place
  · exact .inl (.inl hs)
  · exact .inl (.inr hs)
  · exact .inr hs

/-- A thread that holds the mutex can step. -/
theorem State.enabled_holds (hv : s.ResumeValid) {k : ℕ} (hk : (s.consumer k).Holds) :
    ∃ s', next p s (.consumer k) = some s' := by
  change ∃ s', Generator.consumerStep p s k (s.consumer k) = some s'
  cases hc : s.consumer k with
  | unborn | test | sleep | lock | done =>
    rw [hc] at hk
    exact hk.elim
  | resume i =>
    obtain ⟨r, hr⟩ := (hv.2 k i hc).resume
    simp [Generator.consumerStep, hr]
  | body i b =>
    simp only [Generator.consumerStep]
    split <;> simp
  | lookup i | unlock i => simp [Generator.consumerStep]

namespace Inv

/-- The values looked up are at most those that all consumers take. -/
theorem length_le (h : Inv p s) : s.lookedUp.length ≤ p.consumers * p.rounds := by
  rw [h.total, ← smul_eq_mul, ← Finset.card_range p.consumers]
  simpa using Finset.sum_le_card_nsmul (Finset.range p.consumers) _ p.rounds
    fun k _ => (h.inLoop k).taken_le

/-- The values looked up once `main` has joined the consumers. -/
theorem length_eq (h : Inv p s) (hj : s.main.joined p = p.consumers) :
    s.lookedUp.length = p.consumers * p.rounds := by
  rw [h.total, Finset.sum_congr rfl fun k hk => ?_, Finset.sum_const, Finset.card_range,
    smul_eq_mul]
  rw [h.joined k (hj ▸ Finset.mem_range.mp hk)]
  rfl

/-- At a call of `resume()` the coroutine is suspended. -/
theorem suspended (h : Inv p s) (hr : s.Resumes) : Suspended p s.frame s.lookedUp.length := by
  obtain hm | ⟨k, i, hc⟩ := hr
  · have hf := h.frame_main (by rw [hm]; rfl) (by simp [hm]) (by simp [hm])
    rwa [hm] at hf
  · have hw := h.main_waits (k := k) (by simp [hc]) (by simp [hc])
    have hf := h.frame hw.2.2.1 hw.2.2.2
    simp only [State.use, (h.owner k).mpr (by simp [hc, ConsumerPc.Holds]), hc] at hf
    exact hf

/-- **Enough values make every call of `resume()` valid.** -/
theorem resumeValid (h : Inv p s) (hp : p.consumers * p.rounds ≤ p.count) : s.ResumeValid := by
  refine State.resumeValid_iff.mpr fun hr => ?_
  rcases (h.suspended hr).resumable_or_final with hf | ⟨-, hn⟩
  · exact hf
  · have hle := h.length_le
    omega

/-! ## Some thread can step -/

/-- **No run is stuck before `main` has returned**, as long as the calls of `resume()` are valid. -/
theorem progress (h : Inv p s) (hv : s.ResumeValid) (hm : s.main ≠ .returned) :
    ∃ l s', next p s l = some s' := by
  have hj := h.unborn
  cases ha : s.main with
  | returned => exact absurd ha hm
  | make | destroy => exact ⟨.main, by simp [next, ha, Generator.mainStep]⟩
  | spawn k =>
    refine ⟨.main, ?_⟩
    simp only [next, ha, Generator.mainStep]
    split_ifs <;> simp
  | resume =>
    obtain ⟨r, hr⟩ := (hv.1 ha).resume
    exact ⟨.main, by simp [next, ha, Generator.mainStep, hr]⟩
  | body b =>
    refine ⟨.main, ?_⟩
    simp only [next, ha, Generator.mainStep]
    split <;> simp
  | join k =>
    by_cases hk : k < p.consumers
    · by_cases hd : s.consumer k = .done
      · exact ⟨.main, by simp [next, ha, Generator.mainStep, hk, hd]⟩
      · -- the consumer that `main` waits for steps, or the holder of the mutex it wants
        cases hc : s.consumer k with
        | done => exact absurd hc hd
        | unborn =>
          have hle := (hj k).mp hc
          rw [ha] at hle
          exact absurd hk (not_lt.mpr hle)
        | test i | sleep i => exact ⟨.consumer k, by simp [next, hc, Generator.consumerStep]⟩
        | lock i =>
          cases ho : s.owner with
          | none => exact ⟨.consumer k, by simp [next, hc, Generator.consumerStep, ho]⟩
          | some u => exact ⟨.consumer u, State.enabled_holds hv ((h.owner u).mp ho)⟩
        | resume i | body i b | lookup i | unlock i =>
          exact ⟨.consumer k, State.enabled_holds hv (by simp [hc, ConsumerPc.Holds])⟩
    · exact ⟨.main, by simp [next, ha, Generator.mainStep, hk]⟩

end Inv

/-! ## The rank -/

/-- The steps of the body up to the return of `resume()`, at most. -/
def BodyPc.rank : BodyPc → ℕ
  | .init | .next => 4
  | .test => 3
  | .value => 2
  | .coYield | .returnVoid => 1

/-- The steps that a consumer has before it, at most. -/
def ConsumerPc.rank (p : Params) : ConsumerPc → ℕ
  | .unborn => 12 * p.rounds + 1
  | .test i => 12 * (p.rounds - i) + 1
  | .sleep i => 12 * (p.rounds - i)
  | .lock i => 12 * (p.rounds - i) - 1
  | .resume i => 12 * (p.rounds - i) - 2
  | .body i b => 12 * (p.rounds - i) - 7 + b.rank
  | .lookup i => 12 * (p.rounds - i) - 8
  | .unlock i => 12 * (p.rounds - i) - 9
  | .done => 0

/-- The steps that `main` has before it, at most. -/
def MainPc.rank (p : Params) : MainPc → ℕ
  | .make => 2 * p.consumers + 9
  | .spawn k => p.consumers - k + p.consumers + 8
  | .join k => p.consumers - k + 7
  | .resume => 6
  | .body b => b.rank + 1
  | .destroy => 1
  | .returned => 0

def State.rank (p : Params) (s : State) : ℕ :=
  s.main.rank p + ∑ k ∈ Finset.range p.consumers, (s.consumer k).rank p

theorem rank_makeGenerator {f f' : Frame} {b b' : BodyPc}
    (h : makeGenerator p f b = (f', some b')) : b'.rank < b.rank := by
  cases b <;> simp only [makeGenerator, Prod.mk.injEq, Option.some.injEq, reduceCtorEq,
    and_false] at h
  case test =>
    obtain ⟨-, rfl⟩ := h
    split_ifs <;> simp [BodyPc.rank]
  all_goals
    obtain ⟨-, rfl⟩ := h
    simp [BodyPc.rank]

theorem rank_body (b : BodyPc) : 1 ≤ b.rank ∧ b.rank ≤ 4 := by
  cases b <;> simp [BodyPc.rank]

/-- A consumer that moves spends a step. -/
theorem rank_consumerStep {k : ℕ} (hl : (s.consumer k).InLoop p)
    (h : consumerStep p s k (s.consumer k) = some s') :
    ∃ c, s'.main = s.main ∧ s'.consumer = Function.update s.consumer k c ∧
      c.rank p < (s.consumer k).rank p := by
  cases hc : s.consumer k <;> rw [hc] at h hl <;>
    simp only [consumerStep, Option.some.injEq, reduceCtorEq, ConsumerPc.InLoop] at h hl
  case test i =>
    subst h
    refine ⟨_, rfl, rfl, ?_⟩
    split_ifs <;> simp only [ConsumerPc.rank] <;> omega
  case lock i =>
    split_ifs at h
    obtain rfl := Option.some.inj h
    refine ⟨_, rfl, rfl, ?_⟩
    simp only [ConsumerPc.rank]
    omega
  case resume i =>
    obtain ⟨⟨f, b⟩, -, rfl⟩ := Option.map_eq_some_iff.mp h
    refine ⟨_, rfl, rfl, ?_⟩
    have := rank_body b
    simp only [ConsumerPc.rank]
    omega
  case body i b =>
    have := rank_body b
    split at h
    · rename_i f b' hb
      obtain rfl := Option.some.inj h
      have := rank_makeGenerator hb
      refine ⟨_, rfl, rfl, ?_⟩
      simp only [ConsumerPc.rank]
      omega
    · obtain rfl := Option.some.inj h
      refine ⟨_, rfl, rfl, ?_⟩
      simp only [ConsumerPc.rank]
      omega
  all_goals
    subst h
    refine ⟨_, rfl, rfl, ?_⟩
    simp only [ConsumerPc.rank]
    omega

/-- `main` spends a step, also when it starts a consumer. -/
theorem rank_mainStep (hi : Inv p s) (h : mainStep p s s.main = some s') :
    s'.rank p < s.rank p := by
  have hle := hi.spawned_le
  unfold State.rank
  cases hm : s.main <;> rw [hm] at h hle <;>
    simp only [mainStep, Option.some.injEq, reduceCtorEq, MainPc.spawned] at h hle
  case spawn k =>
    split_ifs at h with hk <;> obtain rfl := Option.some.inj h
    · have hu : s.consumer k = .unborn := (hi.unborn k).mpr (by rw [hm]; exact le_rfl)
      have hsum := sum_update (ConsumerPc.rank p) (f := s.consumer) hk (.test 0)
      rw [hu] at hsum
      simp only [ConsumerPc.rank, Nat.sub_zero, Nat.add_right_cancel_iff] at hsum
      have hsum' : ∑ j ∈ Finset.range p.consumers,
          (Function.update s.consumer k (.test 0) j).rank p =
            ∑ j ∈ Finset.range p.consumers, (s.consumer j).rank p := hsum
      simp only [setConsumer_consumer, hsum', MainPc.rank]
      omega
    · simp only [MainPc.rank]
      omega
  case join k =>
    split_ifs at h <;> cases h <;> simp only [MainPc.rank] <;> omega
  case resume =>
    obtain ⟨⟨f, b⟩, -, rfl⟩ := Option.map_eq_some_iff.mp h
    have := rank_body b
    simp only [MainPc.rank]
    omega
  case body b =>
    have := rank_body b
    split at h
    · rename_i f b' hb
      obtain rfl := Option.some.inj h
      have := rank_makeGenerator hb
      simp only [MainPc.rank]
      omega
    · obtain rfl := Option.some.inj h
      simp only [MainPc.rank]
      omega
  all_goals
    subst h
    simp only [MainPc.rank]
    omega

/-- **Every step of the program spends one.** -/
theorem ranks : (system p).Ranks System.anyStep System.anyStep (State.rank p) := by
  refine ⟨fun _ _ => id, fun s l s' hr _ hs => ?_⟩
  have hi := reach_inv hr
  cases l with
  | main => exact rank_mainStep hi hs
  | consumer k =>
    have hu : s.consumer k ≠ .unborn := fun e => by
      simp [system, next, e, consumerStep] at hs
    have hd : s.consumer k ≠ .done := fun e => by
      simp [system, next, e, consumerStep] at hs
    obtain ⟨c, hm, hc, hlt⟩ := rank_consumerStep (hi.inLoop k) hs
    have hsum := sum_update (ConsumerPc.rank p) (f := s.consumer) (hi.main_waits hu hd).1 c
    simp only [State.rank, hm, hc]
    omega

/-! ## The runs as a whole -/

/-- The frame is destroyed when `main` has returned, and no more values were looked up than the
coroutine yields. -/
theorem reach_returned {ok : State → Thread → Prop} (h : (system p).Reach ok s) :
    s.main = .returned → s.frame.status = .destroyed ∧ s.lookedUp.length ≤ p.count := by
  refine h.invariant (I := fun s => s.main = .returned →
      s.frame.status = .destroyed ∧ s.lookedUp.length ≤ p.count)
    (fun s hs hm => ?_) fun s l s' hr hi _ hs hm => ?_
  · obtain rfl : s = start := hs
    cases hm
  · have hinv := reach_inv hr
    cases l with
    | consumer k =>
      -- no consumer steps once `main` has joined it
      have hu : s.consumer k ≠ .unborn := fun e => by simp [system, next, e, consumerStep] at hs
      have hd : s.consumer k ≠ .done := fun e => by simp [system, next, e, consumerStep] at hs
      obtain ⟨c, hmain, -⟩ := rank_consumerStep (hinv.inLoop k) hs
      exact absurd (hmain ▸ hm) (hinv.main_waits hu hd).2.2.2
    | main =>
      change mainStep p s s.main = some s' at hs
      cases ha : s.main <;> rw [ha] at hs <;>
        simp only [mainStep, Option.some.injEq, reduceCtorEq] at hs
      case destroy =>
        subst hs
        have hf := hinv.frame_main (by rw [ha]; rfl) (by simp [ha]) (by simp [ha])
        rw [ha] at hf
        refine ⟨rfl, ?_⟩
        obtain ⟨-, hc⟩ | ⟨-, -, hc, -⟩ | ⟨-, hc⟩ := Suspended.place hf <;>
          simp only at hc ⊢ <;> omega
      case resume =>
        obtain ⟨r, -, rfl⟩ := Option.map_eq_some_iff.mp hs
        cases hm
      case spawn | join =>
        split_ifs at hs <;> cases hs <;> cases hm
      case body =>
        split at hs <;> cases hs <;> cases hm
      all_goals
        subst hs
        cases hm

/-- **`resume()` is called on a suspended coroutine only, whatever the interleaving, exactly when
the consumers together take no more values than the generator yields**; otherwise some run resumes a
coroutine that has run to its end. -/
theorem resume_valid_iff (p : Params) :
    ((∀ s, (system p).Reach System.anyStep s → s.ResumeValid) ↔
      p.consumers * p.rounds ≤ p.count) ∧
    (p.count < p.consumers * p.rounds → ∃ s, (system p).Reach System.anyStep s ∧ s.Resumes ∧
      s.frame.status = .final) := by
  have hiff : (∀ s, (system p).Reach System.anyStep s → s.ResumeValid) ↔
      p.consumers * p.rounds ≤ p.count := by
    refine ⟨fun h => ?_, fun hp s hs => (reach_inv hs).resumeValid hp⟩
    -- a run that cannot be prolonged has come to the end of `main`, which all values precede
    obtain ⟨s, hpath, hstuck⟩ := ranks.exists_stuck (.init (s := start) rfl)
    have hs : (system p).Reach System.anyStep s := ⟨start, rfl, hpath⟩
    have hi := reach_inv hs
    have hm : s.main = .returned := by
      by_contra hm
      obtain ⟨l, s', hl⟩ := hi.progress (h s hs) hm
      have hnone := hstuck l trivial
      change next p s l = none at hnone
      rw [hl] at hnone
      cases hnone
    have hlen := hi.length_eq (by rw [hm]; rfl)
    exact hlen ▸ (reach_returned hs hm).2
  refine ⟨hiff, fun hlt => ?_⟩
  have hbad := hiff.not.mpr hlt.not_ge
  push Not at hbad
  obtain ⟨s, hs, hv⟩ := hbad
  rw [State.resumeValid_iff, Classical.not_imp] at hv
  obtain ⟨hr, hf⟩ := hv
  exact ⟨s, hs, hr, (((reach_inv hs).suspended hr).resumable_or_final.resolve_left hf).1⟩

/-- With the loop of the source cut to three values its consumers or its `main` resume a coroutine
that has run to its end. -/
theorem resume_valid_iff_three : ∃ s, (system ⟨3, 2, 2⟩).Reach System.anyStep s ∧ s.Resumes ∧
    s.frame.status = .final := (resume_valid_iff ⟨3, 2, 2⟩).2 (by decide)

/-- **Every run ends, with all values looked up in order.** With enough values a trace of `n` steps
leaves at most `rank start - n`; some thread can step until `main` has returned; and then the frame
is destroyed, the values are `10`, `20`, …, and every consumer has its share. -/
theorem generator_completes (hp : p.consumers * p.rounds ≤ p.count) {ls : List Thread}
    (hs : (system p).run System.anyStep start ls = some s) :
    ls.length ≤ State.rank p start ∧
    (s.main ≠ .returned → ∃ l s', next p s l = some s') ∧
    (s.main = .returned → s.frame.status = .destroyed ∧
      s.lookedUp.map Prod.snd =
        (List.range' 1 (p.consumers * p.rounds)).map (fun n : ℕ => 10 * (n : ℤ)) ∧
      ∀ k < p.consumers, (s.lookedUp.map Prod.fst).count k = p.rounds) := by
  have hr : (system p).Reach System.anyStep s := ⟨start, rfl, System.path_of_run hs⟩
  have hi := reach_inv hr
  have hlen := ranks.length_le (.init rfl) hs
  refine ⟨by omega, hi.progress (hi.resumeValid hp), fun hm => ⟨(reach_returned hr hm).1, ?_, ?_⟩⟩
  · rw [hi.values, hi.length_eq (by rw [hm]; rfl)]
    refine List.map_congr_left fun n hn => ?_
    rw [List.mem_range'_1] at hn
    rw [latest, min_eq_left (by omega)]
    push_cast
    rfl
  · intro k hk
    rw [hi.count k, hi.joined k (by rw [hm]; exact hk)]
    rfl

/-- `k` steps of a thread. -/
def Thread.steps (t : Thread) (k : ℕ) : List Thread := List.replicate k t

/-- A run of the source in which the two consumers take turns. -/
def turns : List Thread :=
  Thread.main.steps 4 ++ (Thread.consumer 0).steps 10 ++ (Thread.consumer 1).steps 10 ++
    (Thread.consumer 0).steps 11 ++ (Thread.consumer 1).steps 11 ++ Thread.main.steps 8

/-- In the source itself all runs end after at most 63 steps, this one with `10`, `20`, `30`, `40`.
-/
theorem generator_completes_source :
    ∃ s, (system source).Reach System.anyStep s ∧ turns.length ≤ 63 ∧
      s.lookedUp.map Prod.snd = [10, 20, 30, 40] := by
  have hrun : ((system source).run System.anyStep start turns).any
      (fun s => decide (s.main = .returned)) = true := by decide +kernel
  obtain ⟨s, hs, hm⟩ := (Option.any_eq_true _ _).mp hrun
  obtain ⟨hl, -, h⟩ := generator_completes (p := source) (by decide) hs
  exact ⟨s, ⟨start, rfl, System.path_of_run hs⟩, hl, (h (of_decide_eq_true hm)).2.1⟩

/-- After three values, looked up in turn by the two consumers of the source. -/
theorem values_in_order_turns :
    ∃ s, (system source).Reach System.anyStep s ∧ s.lookedUp.map Prod.fst = [1, 0, 1] ∧
      (∀ t u, s.Uses t → s.Uses u → t = u) ∧ ∀ n (hn : n < s.lookedUp.length),
        (s.lookedUp.get ⟨n, hn⟩).2 = ((10 * min (n + 1) 4 : ℕ) : ℤ) := by
  obtain ⟨s, hs, hm⟩ := System.exists_reach_of_run (S := system source) System.anyStep
    (s := start) rfl (Thread.main.steps 4 ++ (Thread.consumer 1).steps 10 ++
      (Thread.consumer 0).steps 10 ++ (Thread.consumer 1).steps 9)
    (P := fun s => s.lookedUp.map Prod.fst = [1, 0, 1]) (by decide +kernel)
  exact ⟨s, hs, hm, values_in_order hs⟩

end SyncNotes.Generator
