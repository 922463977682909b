import SyncNotes.Generator.Model

/-!
# The values come in order

One thread at a time uses the frame: the consumer that holds the mutex or, once all of them are
joined, `main` (`State.use`). With `n` values looked up, the coroutine is suspended after `n` calls
of `resume()`, or the thread that uses it is inside the next one or about to look its value up
(`FrameOk`). From this the values are read off: the `n`-th is `10 * n` up to the end of the loop,
and the last value again afterwards.
-/

namespace SyncNotes.Generator

variable {p : Params}

/-! ## The frame through a call of `resume()` -/

/-- `promise().val` after `n` calls of `resume()`. -/
def latest (p : Params) (n : ℕ) : ℤ := ((10 * min n p.count : ℕ) : ℤ)

/-- Suspended after `n` calls of `resume()`. -/
structure Suspended (p : Params) (f : Frame) (n : ℕ) : Prop where
  value : f.promiseVal = latest p n
  place : f.status = .initial ∧ n = 0 ∨
    f.status = .yielded ∧ 1 ≤ n ∧ n ≤ p.count ∧ f.i = n ∨
    f.status = .final ∧ n = p.count + 1

/-- What the locals of the body are at a place of the call after the `n`-th. -/
def BodyPc.Holds (p : Params) (f : Frame) (n : ℕ) : BodyPc → Prop
  | .init => n = 0
  | .next => f.i = n ∧ 1 ≤ n ∧ n ≤ p.count
  | .test => f.i = n + 1 ∧ n ≤ p.count
  | .value => f.i = n + 1 ∧ n < p.count
  | .coYield => f.i = n + 1 ∧ n < p.count ∧ f.val = 10 * (n + 1)
  | .returnVoid => n = p.count

/-- Inside the call of `resume()` after the `n`-th. -/
structure Running (p : Params) (f : Frame) (n : ℕ) (b : BodyPc) : Prop where
  status : f.status = .running
  value : f.promiseVal = latest p n
  place : b.Holds p f n

theorem Suspended.running {f f' : Frame} {n : ℕ} {b : BodyPc} (h : Suspended p f n)
    (hr : Generator.resume f = some (f', b)) : Running p f' n b := by
  obtain ⟨hs, hc⟩ | ⟨hs, hc, hle, hi⟩ | ⟨hs, -⟩ := h.place
  · simp only [Generator.resume, hs, Option.some.injEq, Prod.mk.injEq] at hr
    obtain ⟨rfl, rfl⟩ := hr
    exact ⟨rfl, h.value, hc⟩
  · simp only [Generator.resume, hs, Option.some.injEq, Prod.mk.injEq] at hr
    obtain ⟨rfl, rfl⟩ := hr
    exact ⟨rfl, h.value, hi, hc, hle⟩
  · simp [Generator.resume, hs] at hr

/-- **The body goes on inside the call.** -/
theorem Running.step {f f' : Frame} {n : ℕ} {b b' : BodyPc} (h : Running p f n b)
    (hm : makeGenerator p f b = (f', some b')) : Running p f' n b' := by
  have hp := h.place
  cases b <;> simp only [makeGenerator, Prod.mk.injEq, Option.some.injEq, reduceCtorEq, and_false,
    BodyPc.Holds] at hm hp
  case init =>
    obtain ⟨rfl, rfl⟩ := hm
    exact ⟨h.status, h.value, by simp [BodyPc.Holds, hp]⟩
  case test =>
    obtain ⟨rfl, rfl⟩ := hm
    refine ⟨h.status, h.value, ?_⟩
    split_ifs with hi
    · exact ⟨hp.1, by omega⟩
    · change n = p.count
      omega
  case value =>
    obtain ⟨rfl, rfl⟩ := hm
    refine ⟨h.status, h.value, hp.1, hp.2, ?_⟩
    change f.i * 10 = _
    rw [hp.1, mul_comm]
  case next =>
    obtain ⟨rfl, rfl⟩ := hm
    exact ⟨h.status, h.value, congrArg (· + 1) hp.1, hp.2.2⟩

/-- **The call returns with the next value in the promise**, or at the end of the body. -/
theorem Running.suspend {f f' : Frame} {n : ℕ} {b : BodyPc} (h : Running p f n b)
    (hm : makeGenerator p f b = (f', none)) : Suspended p f' (n + 1) := by
  have hp := h.place
  cases b <;> simp only [makeGenerator, Prod.mk.injEq, reduceCtorEq, and_false, and_true,
    BodyPc.Holds] at hm hp
  case coYield =>
    obtain rfl := hm
    refine ⟨?_, .inr (.inl ⟨rfl, by omega, hp.2.1, by simp [hp.1]⟩)⟩
    change f.val = _
    rw [hp.2.2, latest, min_eq_left hp.2.1]
    push_cast
    rfl
  case returnVoid =>
    obtain rfl := hm
    refine ⟨?_, .inr (.inr ⟨rfl, by rw [hp]⟩)⟩
    change f.promiseVal = _
    rw [h.value, latest, latest]
    congr 1
    omega

/-! ## Who uses the frame -/

/-- What a thread does with the frame. -/
inductive Use
  | idle
  | body (b : BodyPc)
  /-- `resume()` has returned. -/
  | back

def ConsumerPc.use : ConsumerPc → Use
  | .body _ b => .body b
  | .lookup _ => .back
  | _ => .idle

def MainPc.use : MainPc → Use
  | .body b => .body b
  | .destroy => .back
  | _ => .idle

/-- What is done with the frame, by the holder of the mutex or else by `main`. -/
def State.use (s : State) : Use :=
  match s.owner with
  | some k => (s.consumer k).use
  | none => s.main.use

/-- The frame, with `n` values looked up. -/
def FrameOk (p : Params) (f : Frame) (n : ℕ) : Use → Prop
  | .idle => Suspended p f n
  | .body b => Running p f n b
  | .back => Suspended p f (n + 1)

/-! ## The phases of the threads -/

/-- How many consumers `main` has started. -/
def MainPc.spawned (p : Params) : MainPc → ℕ
  | .make => 0
  | .spawn k => k
  | _ => p.consumers

/-- How many consumers `main` has joined. -/
def MainPc.joined (p : Params) : MainPc → ℕ
  | .make | .spawn _ => 0
  | .join k => k
  | _ => p.consumers

/-- Between the lock and the unlock of the mutex. -/
def ConsumerPc.Holds : ConsumerPc → Prop
  | .resume _ | .body _ _ | .lookup _ | .unlock _ => True
  | _ => False

/-- The values that a consumer has looked up. -/
def ConsumerPc.taken (p : Params) : ConsumerPc → ℕ
  | .unborn => 0
  | .test i | .sleep i | .lock i | .resume i | .body i _ | .lookup i => i
  | .unlock i => i + 1
  | .done => p.rounds

/-- The round of a consumer is one of its loop. -/
def ConsumerPc.InLoop (p : Params) : ConsumerPc → Prop
  | .unborn | .done => True
  | .test i => i ≤ p.rounds
  | .sleep i | .lock i | .resume i | .body i _ | .lookup i | .unlock i => i < p.rounds

/-- A consumer that has not returned has taken values of a round it is in or before. -/
theorem ConsumerPc.InLoop.taken_le {c : ConsumerPc} (h : c.InLoop p) : c.taken p ≤ p.rounds := by
  cases c <;> simp only [InLoop, taken] at h ⊢ <;> omega

/-- Where `main` and the consumers are to each other, and what has been looked up. -/
structure Inv (p : Params) (s : State) : Prop where
  spawned_le : s.main.spawned p ≤ p.consumers
  joined_le : s.main.joined p ≤ p.consumers
  unborn : ∀ k, s.consumer k = .unborn ↔ s.main.spawned p ≤ k
  joined : ∀ k < s.main.joined p, s.consumer k = .done
  inLoop : ∀ k, (s.consumer k).InLoop p
  owner : ∀ k, s.owner = some k ↔ (s.consumer k).Holds
  count : ∀ k, (s.lookedUp.map Prod.fst).count k = (s.consumer k).taken p
  total : s.lookedUp.length = ∑ k ∈ Finset.range p.consumers, (s.consumer k).taken p
  values : s.lookedUp.map Prod.snd = (List.range' 1 s.lookedUp.length).map (latest p)
  frame : s.main ≠ .make → s.main ≠ .returned → FrameOk p s.frame s.lookedUp.length s.use

/-! ## The sums over the consumers -/

/-- The sum of a weight of the consumers when one of them moves. -/
theorem sum_update (w : ConsumerPc → ℕ) {f : ℕ → ConsumerPc} {n k : ℕ} (hk : k < n)
    (c : ConsumerPc) : ∑ j ∈ Finset.range n, w (Function.update f k c j) + w (f k) =
      ∑ j ∈ Finset.range n, w (f j) + w c := by
  have hm : k ∈ Finset.range n := Finset.mem_range.mpr hk
  have hu : (fun j => w (Function.update f k c j)) = Function.update (fun j => w (f j)) k (w c) :=
    funext fun j => Function.apply_update (fun _ => w) f k c j
  rw [hu, Finset.sum_update_of_mem hm, add_comm (w c), add_right_comm, ← Finset.erase_eq,
    Finset.sum_erase_add _ _ hm]

namespace Inv

variable {s s' : State} {k : ℕ} {c' : ConsumerPc}

/-! ## A consumer moves -/

/-- While a consumer is in its loop `main` waits for it and leaves the frame alone. -/
theorem main_waits (h : Inv p s) (hu : s.consumer k ≠ .unborn) (hd : s.consumer k ≠ .done) :
    k < p.consumers ∧ s.main.use = .idle ∧ s.main ≠ .make ∧ s.main ≠ .returned := by
  have hk : k < s.main.spawned p := by
    by_contra hc
    exact hu ((h.unborn k).mpr (not_lt.mp hc))
  have hj : s.main.joined p ≤ k := by
    by_contra hc
    exact hd (h.joined k (not_le.mp hc))
  have hle := h.spawned_le
  generalize s.main = a at hk hj hle ⊢
  cases a <;> simp only [MainPc.spawned, MainPc.joined, MainPc.use] at hk hj hle ⊢ <;>
    first | omega | simp [hk.trans_le hle]

/-- A consumer in its loop moves on, and `main` stays. -/
theorem move (h : Inv p s) (hu : s.consumer k ≠ .unborn) (hd : s.consumer k ≠ .done)
    (hm : s'.main = s.main) (hc : s'.consumer = Function.update s.consumer k c')
    (hu' : c' ≠ .unborn) (hl : c'.InLoop p)
    (ho : ∀ u, s'.owner = some u ↔ (s'.consumer u).Holds)
    (ht : s'.lookedUp = s.lookedUp ∧ c'.taken p = (s.consumer k).taken p ∨
      s'.lookedUp = s.lookedUp ++ [(k, latest p (s.lookedUp.length + 1))] ∧
        c'.taken p = (s.consumer k).taken p + 1)
    (hf : FrameOk p s'.frame s'.lookedUp.length s'.use) : Inv p s' where
  spawned_le := hm ▸ h.spawned_le
  joined_le := hm ▸ h.joined_le
  unborn u := by
    rw [hm, ← h.unborn u, hc]
    rcases eq_or_ne u k with rfl | hne
    · simp [hu, hu']
    · rw [Function.update_of_ne hne]
  joined u hj := by
    rw [hm] at hj
    rw [hc, Function.update_of_ne (fun e : u = k => hd (e ▸ h.joined u hj))]
    exact h.joined u hj
  inLoop u := by
    rw [hc]
    rcases eq_or_ne u k with rfl | hne
    · rwa [Function.update_self]
    · rw [Function.update_of_ne hne]
      exact h.inLoop u
  owner := ho
  count u := by
    have hcount := h.count u
    rw [hc]
    rcases eq_or_ne u k with rfl | hne
    · rw [Function.update_self]
      rcases ht with ⟨hl, ht⟩ | ⟨hl, ht⟩ <;> rw [hl, ht, ← hcount]
      simp
    · rw [Function.update_of_ne hne, ← hcount]
      rcases ht with ⟨hl, -⟩ | ⟨hl, -⟩ <;> rw [hl]
      simp [hne.symm]
  total := by
    have hsum := sum_update (ConsumerPc.taken p) (f := s.consumer) (h.main_waits hu hd).1 c'
    have htotal := h.total
    rw [hc]
    rcases ht with ⟨hl, ht⟩ | ⟨hl, ht⟩ <;> rw [hl]
    · omega
    · rw [List.length_append, List.length_singleton]
      omega
  values := by
    rcases ht with ⟨hl, -⟩ | ⟨hl, -⟩ <;> rw [hl]
    · exact h.values
    · rw [List.map_append, h.values, List.length_append, List.length_singleton,
        List.range'_concat, List.map_append]
      simp [Nat.add_comm]
  frame _ _ := hf

/-- The owner when a consumer keeps holding or not holding the mutex. -/
theorem owner_keep (h : Inv p s) (hc : s'.consumer = Function.update s.consumer k c')
    (ho : s'.owner = s.owner) (hh : c'.Holds ↔ (s.consumer k).Holds) (u : ℕ) :
    s'.owner = some u ↔ (s'.consumer u).Holds := by
  rw [ho, h.owner u, hc]
  rcases eq_or_ne u k with rfl | hne
  · rw [Function.update_self, hh]
  · rw [Function.update_of_ne hne]

/-- A step of a consumer outside the mutex. -/
theorem outside (h : Inv p s) (hu : s.consumer k ≠ .unborn) (hd : s.consumer k ≠ .done)
    (hh : ¬ (s.consumer k).Holds) (hu' : c' ≠ .unborn) (hl : c'.InLoop p) (hh' : ¬ c'.Holds)
    (ht : c'.taken p = (s.consumer k).taken p) : Inv p (s.setConsumer k c') := by
  refine h.move hu hd rfl rfl hu' hl (h.owner_keep rfl rfl (by simp [hh, hh'])) (.inl ⟨rfl, ht⟩) ?_
  have hw := h.main_waits hu hd
  have hs : (s.setConsumer k c').use = s.use := by
    unfold State.use
    simp only [setConsumer_owner, setConsumer_consumer, setConsumer_main]
    cases ho : s.owner with
    | none => rfl
    | some u =>
      have hne : u ≠ k := by
        rintro rfl
        exact hh ((h.owner u).mp ho)
      simp [Function.update_of_ne hne]
  rw [hs]
  exact h.frame hw.2.2.1 hw.2.2.2

/-- A step of the consumer that holds the mutex. -/
theorem inside (h : Inv p s) (hh : (s.consumer k).Holds) (hm : s'.main = s.main)
    (ho : s'.owner = s.owner) (hc : s'.consumer = Function.update s.consumer k c')
    (hl : c'.InLoop p) (hh' : c'.Holds)
    (ht : s'.lookedUp = s.lookedUp ∧ c'.taken p = (s.consumer k).taken p ∨
      s'.lookedUp = s.lookedUp ++ [(k, latest p (s.lookedUp.length + 1))] ∧
        c'.taken p = (s.consumer k).taken p + 1)
    (hf : FrameOk p s.frame s.lookedUp.length (s.consumer k).use →
      FrameOk p s'.frame s'.lookedUp.length c'.use) : Inv p s' := by
  have hown := (h.owner k).mpr hh
  have hu : s.consumer k ≠ .unborn := fun e => by rw [e] at hh; exact hh
  have hd : s.consumer k ≠ .done := fun e => by rw [e] at hh; exact hh
  have hw := h.main_waits hu hd
  refine h.move hu hd hm hc (fun e => by rw [e] at hh'; exact hh') hl
    (h.owner_keep hc ho (by simp [hh, hh'])) ht ?_
  have hfr := h.frame hw.2.2.1 hw.2.2.2
  simp only [State.use, hown] at hfr
  simp only [State.use, ho, hown, hc, Function.update_self]
  exact hf hfr

theorem consumerStep (h : Inv p s) (hs : Generator.consumerStep p s k (s.consumer k) = some s') :
    Inv p s' := by
  have hl := h.inLoop k
  cases hc : s.consumer k with
  | unborn | done =>
    rw [hc] at hs
    cases hs
  | test i =>
    rw [hc] at hs hl
    obtain rfl := Option.some.inj hs
    have hle : i ≤ p.rounds := hl
    refine h.outside (by simp [hc]) (by simp [hc]) (by simp [hc, ConsumerPc.Holds]) ?_ ?_ ?_ ?_ <;>
      split_ifs with hi <;>
      simp only [hc, ConsumerPc.InLoop, ConsumerPc.Holds, ConsumerPc.taken, ne_eq, reduceCtorEq,
        not_false_eq_true, hi]
    omega
  | sleep i =>
    rw [hc] at hs hl
    obtain rfl := Option.some.inj hs
    refine h.outside ?_ ?_ ?_ nofun hl id ?_ <;> simp [hc, ConsumerPc.Holds, ConsumerPc.taken]
  | lock i =>
    rw [hc] at hs hl
    simp only [Generator.consumerStep, Option.ite_none_right_eq_some, Option.some.injEq] at hs
    obtain ⟨ho, rfl⟩ := hs
    have hw := h.main_waits (k := k) (by simp [hc]) (by simp [hc])
    refine h.move (by simp [hc]) (by simp [hc]) rfl rfl nofun hl (fun u => ?_)
      (.inl ⟨rfl, by rw [hc]; rfl⟩) ?_
    · rcases eq_or_ne u k with rfl | hne
      · simp [ConsumerPc.Holds]
      · have hu := h.owner u
        rw [ho] at hu
        simp only [setConsumer_owner, setConsumer_consumer, Function.update_of_ne hne]
        simpa [hne.symm] using hu
    · have hf := h.frame hw.2.2.1 hw.2.2.2
      simp only [State.use, ho, hw.2.1] at hf
      simpa [State.use, ConsumerPc.use] using hf
  | resume i =>
    rw [hc] at hs hl
    obtain ⟨⟨f, b⟩, hr, rfl⟩ := Option.map_eq_some_iff.mp hs
    refine h.inside (by simp [hc, ConsumerPc.Holds]) rfl rfl rfl hl trivial
      (.inl ⟨rfl, by rw [hc]; rfl⟩) fun hf => ?_
    rw [hc] at hf
    exact Suspended.running hf hr
  | body i b =>
    rw [hc] at hs hl
    simp only [Generator.consumerStep] at hs
    split at hs
    · rename_i f b' hm
      obtain rfl := Option.some.inj hs
      refine h.inside (by simp [hc, ConsumerPc.Holds]) rfl rfl rfl hl trivial
        (.inl ⟨rfl, by rw [hc]; rfl⟩) fun hf => ?_
      rw [hc] at hf
      exact Running.step hf hm
    · rename_i f hm
      obtain rfl := Option.some.inj hs
      refine h.inside (by simp [hc, ConsumerPc.Holds]) rfl rfl rfl hl trivial
        (.inl ⟨rfl, by rw [hc]; rfl⟩) fun hf => ?_
      rw [hc] at hf
      exact Running.suspend hf hm
  | lookup i =>
    rw [hc] at hs hl
    obtain rfl := Option.some.inj hs
    have hh : (s.consumer k).Holds := by simp [hc, ConsumerPc.Holds]
    have hw := h.main_waits (k := k) (by simp [hc]) (by simp [hc])
    have hf := h.frame hw.2.2.1 hw.2.2.2
    simp only [State.use, (h.owner k).mpr hh, hc] at hf
    refine h.inside hh rfl rfl rfl hl trivial (.inr ⟨?_, by rw [hc]; rfl⟩) fun _ => ?_
    · rw [← Suspended.value hf]
      rfl
    · simpa [FrameOk, ConsumerPc.use] using hf
  | unlock i =>
    rw [hc] at hs hl
    obtain rfl := Option.some.inj hs
    have hh : (s.consumer k).Holds := by simp [hc, ConsumerPc.Holds]
    have hw := h.main_waits (k := k) (by simp [hc]) (by simp [hc])
    refine h.move (by simp [hc]) (by simp [hc]) rfl rfl nofun (Nat.succ_le_of_lt hl) (fun u => ?_)
      (.inl ⟨rfl, by rw [hc]; rfl⟩) ?_
    · rcases eq_or_ne u k with rfl | hne
      · simp [ConsumerPc.Holds]
      · have hu := h.owner u
        rw [(h.owner k).mpr hh] at hu
        simp only [setConsumer_owner, setConsumer_consumer, Function.update_of_ne hne]
        simpa [hne.symm] using hu
    · have hf := h.frame hw.2.2.1 hw.2.2.2
      simp only [State.use, (h.owner k).mpr hh, hc] at hf
      simpa [State.use, ConsumerPc.use, hw.2.1] using hf

/-! ## `main` moves -/

/-- A step of `main` that starts no consumer. -/
theorem mainMove (h : Inv p s) (f : Frame) {a : MainPc}
    (hs : a.spawned p = s.main.spawned p) (hle : a.joined p ≤ p.consumers)
    (hj : ∀ k < a.joined p, s.consumer k = .done)
    (hf : a ≠ .returned →
      FrameOk p f s.lookedUp.length { s with frame := f, main := a }.use) :
    Inv p { s with frame := f, main := a } where
  spawned_le := hs.trans_le h.spawned_le
  joined_le := hle
  unborn k := (h.unborn k).trans (by rw [hs])
  joined := hj
  inLoop := h.inLoop
  owner := h.owner
  count := h.count
  total := h.total
  values := h.values
  frame _ := hf

/-- `main` goes on without the frame. -/
theorem mainIdle (h : Inv p s) {a : MainPc} (hm : s.main.use = .idle) (hmake : s.main ≠ .make)
    (hret : s.main ≠ .returned) (ha : a.use = .idle) (hs : a.spawned p = s.main.spawned p)
    (hle : a.joined p ≤ p.consumers) (hj : ∀ k < a.joined p, s.consumer k = .done) :
    Inv p { s with main := a } := by
  refine h.mainMove s.frame hs hle hj fun _ => ?_
  have hu : ({ s with main := a } : State).use = s.use := by simp only [State.use, ha, hm]
  rw [hu]
  exact h.frame hmake hret

/-- Nobody holds the mutex before the first consumer is started and after the last is joined. -/
theorem owner_none (h : Inv p s) (hm : s.main.spawned p = s.main.joined p) : s.owner = none := by
  cases ho : s.owner with
  | none => rfl
  | some k =>
    have hh := (h.owner k).mp ho
    rcases lt_or_ge k (s.main.spawned p) with hk | hk
    · rw [h.joined k (hm ▸ hk)] at hh
      exact hh.elim
    · rw [(h.unborn k).mpr hk] at hh
      exact hh.elim

/-- `main` uses the frame when all consumers are joined. -/
theorem mainUse (h : Inv p s) {f : Frame} {a : MainPc} (hm : s.main.spawned p = s.main.joined p)
    (hs : a.spawned p = s.main.spawned p) (hj : a.joined p = s.main.joined p)
    (hf : a ≠ .returned → FrameOk p f s.lookedUp.length a.use) :
    Inv p { s with frame := f, main := a } := by
  refine h.mainMove f hs (hj.trans_le h.joined_le) (by rw [hj]; exact h.joined) fun ha => ?_
  have hu : ({ s with frame := f, main := a } : State).use = a.use := by
    simp only [State.use, h.owner_none hm]
  rw [hu]
  exact hf ha

/-- What `main` finds when it uses the frame. -/
theorem frame_main (h : Inv p s) (hm : s.main.spawned p = s.main.joined p)
    (hmake : s.main ≠ .make) (hret : s.main ≠ .returned) :
    FrameOk p s.frame s.lookedUp.length s.main.use := by
  have hf := h.frame hmake hret
  simpa only [State.use, h.owner_none hm] using hf

/-- The next consumer starts. -/
theorem spawn (h : Inv p s) (hm : s.main = .spawn k) (hk : k < p.consumers) :
    Inv p { s.setConsumer k (.test 0) with main := .spawn (k + 1) } := by
  have hu : s.consumer k = .unborn := (h.unborn k).mpr (by rw [hm]; exact le_rfl)
  have hother : ∀ u ≠ k, (s.setConsumer k (.test 0)).consumer u = s.consumer u := fun u hne =>
    Function.update_of_ne hne ..
  have hself : (s.setConsumer k (.test 0)).consumer k = .test 0 := Function.update_self ..
  refine ⟨hk, Nat.zero_le _, fun u => ?_, fun u hu => absurd hu (Nat.not_lt_zero u), fun u => ?_,
    h.owner_keep (k := k) rfl rfl (by simp [hu, ConsumerPc.Holds]), fun u => ?_, ?_, h.values,
    fun _ _ => ?_⟩
  · have hub := h.unborn u
    simp only [hm, MainPc.spawned] at hub
    rcases eq_or_ne u k with rfl | hne
    · simp [MainPc.spawned]
    · change (s.setConsumer k (.test 0)).consumer u = _ ↔ k + 1 ≤ u
      rw [hother u hne, hub]
      omega
  · change ((s.setConsumer k (.test 0)).consumer u).InLoop p
    rcases eq_or_ne u k with rfl | hne
    · rw [hself]
      exact Nat.zero_le _
    · rw [hother u hne]
      exact h.inLoop u
  · change _ = ((s.setConsumer k (.test 0)).consumer u).taken p
    have hcount := h.count u
    rcases eq_or_ne u k with rfl | hne
    · rw [hself]
      rwa [hu] at hcount
    · rwa [hother u hne]
  · have hsum := sum_update (ConsumerPc.taken p) (f := s.consumer) hk (.test 0)
    rw [hu] at hsum
    exact h.total.trans hsum.symm
  · have hs : ({ s.setConsumer k (.test 0) with main := .spawn (k + 1) } : State).use = s.use := by
      simp only [State.use, setConsumer_owner, setConsumer_consumer, hm]
      cases ho : s.owner with
      | none => rfl
      | some u =>
        have hne : u ≠ k := by
          rintro rfl
          have hh := (h.owner u).mp ho
          rw [hu] at hh
          exact hh
        simp [Function.update_of_ne hne]
    rw [hs]
    exact h.frame (by simp [hm]) (by simp [hm])

theorem mainStep (h : Inv p s) (hs : Generator.mainStep p s s.main = some s') : Inv p s' := by
  have hj := h.joined
  have hsle := h.spawned_le
  have hjle := h.joined_le
  cases hm : s.main with
  | returned =>
    rw [hm] at hs
    cases hs
  | make =>
    rw [hm] at hs
    obtain rfl := Option.some.inj hs
    have hn : s.lookedUp.length = 0 := by
      have hunborn : ∀ k, s.consumer k = .unborn := fun k =>
        (h.unborn k).mpr (by rw [hm]; exact Nat.zero_le k)
      have htotal := h.total
      simpa only [hunborn, ConsumerPc.taken, Finset.sum_const_zero] using htotal
    refine h.mainUse (by rw [hm]; rfl) (by rw [hm]; rfl) (by rw [hm]; rfl) fun _ => ?_
    exact ⟨by simp [latest, hn], .inl ⟨rfl, hn⟩⟩
  | spawn k =>
    rw [hm] at hs hsle
    simp only [Generator.mainStep] at hs
    split_ifs at hs with hk <;> obtain rfl := Option.some.inj hs
    · exact h.spawn hm hk
    · refine h.mainIdle (by rw [hm]; rfl) (by simp [hm]) (by simp [hm]) rfl ?_ (Nat.zero_le _)
        fun u hu => absurd hu (Nat.not_lt_zero u)
      rw [hm]
      exact le_antisymm (not_lt.mp hk) hsle
  | join k =>
    rw [hm] at hs hj hjle
    simp only [Generator.mainStep] at hs
    split_ifs at hs with hk hd <;> cases hs
    · refine h.mainIdle (by rw [hm]; rfl) (by simp [hm]) (by simp [hm]) rfl (by rw [hm]; rfl) hk
        fun u hu => ?_
      rcases Nat.lt_succ_iff_lt_or_eq.mp hu with hu | rfl
      · exact hj u hu
      · exact hd
    · have hk' : k = p.consumers := le_antisymm hjle (not_lt.mp hk)
      exact h.mainIdle (by rw [hm]; rfl) (by simp [hm]) (by simp [hm]) rfl (by rw [hm]; rfl) le_rfl
        fun u hu => hj u (hk' ▸ hu)
  | resume =>
    have hf := h.frame_main (by rw [hm]; rfl) (by simp [hm]) (by simp [hm])
    rw [hm] at hs hf
    obtain ⟨⟨f, b⟩, hr, rfl⟩ := Option.map_eq_some_iff.mp hs
    exact h.mainUse (by rw [hm]; rfl) (by rw [hm]; rfl) (by rw [hm]; rfl) fun _ =>
      Suspended.running hf hr
  | body b =>
    have hf := h.frame_main (by rw [hm]; rfl) (by simp [hm]) (by simp [hm])
    rw [hm] at hs hf
    simp only [Generator.mainStep] at hs
    split at hs
    · rename_i f b' hb
      obtain rfl := Option.some.inj hs
      exact h.mainUse (by rw [hm]; rfl) (by rw [hm]; rfl) (by rw [hm]; rfl) fun _ =>
        Running.step hf hb
    · rename_i f hb
      obtain rfl := Option.some.inj hs
      exact h.mainUse (by rw [hm]; rfl) (by rw [hm]; rfl) (by rw [hm]; rfl) fun _ =>
        Running.suspend hf hb
  | destroy =>
    rw [hm] at hs
    obtain rfl := Option.some.inj hs
    exact h.mainUse (by rw [hm]; rfl) (by rw [hm]; rfl) (by rw [hm]; rfl) fun hr => absurd rfl hr

end Inv

/-- **The places of the threads, the values and the frame in every reachable state.** -/
theorem reach_inv {ok : State → Thread → Prop} {s : State} (h : (system p).Reach ok s) :
    Inv p s := by
  refine h.invariant (fun s hs => ?_) fun s l s' _ hi _ hs => ?_
  · obtain rfl : s = start := hs
    exact ⟨Nat.zero_le _, Nat.zero_le _, fun k => iff_of_true rfl (Nat.zero_le k),
      fun _ _ => by simp_all [start, MainPc.joined], fun _ => trivial,
      fun k => iff_of_false nofun id, fun _ => rfl, by simp [start, ConsumerPc.taken], rfl,
      fun h => absurd rfl h⟩
  · cases l with
    | main => exact hi.mainStep hs
    | consumer k => exact hi.consumerStep hs

end SyncNotes.Generator
