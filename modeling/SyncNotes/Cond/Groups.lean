import SyncNotes.Cond.Model

/-!
# Groups

Positions are handed out in order, those in `[g1_start >> 1, mid)` form G1 and those from `mid` on
form G2. `Base` holds in every state. The rest is what the inner lock protects: `Free` between two
critical sections, and inside one, for each control state of the holder, `Held`. The holder keeps it
(`notifyStep_held`), the other threads do not disturb it (`Held.frame`).
-/

namespace SyncNotes.Cond

open Threads Pool

/-! ## Bits of words -/

theorem xor_one_div (w : ℕ) : (w ^^^ 1) / 2 = w / 2 := by
  have h := Nat.shiftRight_xor_distrib (a := w) (b := 1) (i := 1)
  simpa [Nat.shiftRight_succ] using h

theorem g2Of_xor_one (w : ℕ) : g2Of (w ^^^ 1) = !g2Of w := by
  have h : (w ^^^ 1) % 2 = 1 ↔ ¬ w % 2 = 1 := by
    rw [Nat.xor_mod_two_eq_one]
    simp
  unfold g2Of
  rcases Nat.mod_two_eq_zero_or_one w with hw | hw <;> simp_all

theorem or_one_div (w : ℕ) : (w ||| 1) / 2 = w / 2 := by
  have h := Nat.shiftRight_or_distrib (a := w) (b := 1) (i := 1)
  simpa [Nat.shiftRight_succ] using h

theorem or_one_mod (w : ℕ) : (w ||| 1) % 2 = 1 := by
  rw [Nat.or_mod_two_eq_one]
  exact .inr rfl

theorem or_payload (n s : ℕ) : (n * 4 ||| s % 4) / 4 = n ∧ (n * 4 ||| s % 4) % 4 = s % 4 := by
  constructor
  · have h := Nat.shiftRight_or_distrib (a := n * 4) (b := s % 4) (i := 2)
    have hs : s % 4 / 2 ^ 2 = 0 := by omega
    rw [Nat.shiftRight_eq_div_pow, Nat.shiftRight_eq_div_pow, Nat.shiftRight_eq_div_pow, hs,
      Nat.or_zero] at h
    exact h.trans (Nat.mul_div_cancel n (by decide))
  · have h := Nat.or_mod_two_pow (a := n * 4) (b := s % 4) (n := 2)
    simp only [Nat.reducePow, Nat.mul_mod_left, Nat.zero_or, Nat.mod_mod] at h
    exact h

theorem g2Of_eq_true {w : ℕ} : g2Of w = true ↔ w % 2 = 1 := by simp [g2Of]

theorem g2Of_eq_false {w : ℕ} : g2Of w = false ↔ w % 2 = 0 := by simp [g2Of]

theorem g2Of_congr {v w : ℕ} (h : v % 2 = w % 2) : g2Of v = g2Of w := by
  unfold g2Of; rw [h]

/-! ## The bounds -/

/-- Every group is smaller than `2^30` and `wseq` is below `2^63`. -/
structure Bounded (m : PthreadCond) : Prop where
  wseq : m.wseq < 2 ^ 63
  g1 : m.mid - m.g1Start / 2 < 2 ^ 30
  g2 : m.wseq / 2 - m.mid < 2 ^ 30

instance (m : PthreadCond) : Decidable (Bounded m) :=
  decidable_of_iff (m.wseq < 2 ^ 63 ∧ m.mid - m.g1Start / 2 < 2 ^ 30 ∧ m.wseq / 2 - m.mid < 2 ^ 30)
    ⟨fun h => ⟨h.1, h.2.1, h.2.2⟩, fun h => ⟨h.wseq, h.g1, h.g2⟩⟩

/-! ## The invariant -/

/-- What holds of the positions in every state. -/
structure Base (m : PthreadCond) : Prop where
  positions : m.handed.map Prod.fst = List.range (m.wseq / 2)
  slots : ∀ p g, (p, g) ∈ m.handed → (m.mid ≤ p → g = g2Of m.wseq) ∧
    (m.g1Start / 2 ≤ p → p < m.mid → g = !g2Of m.wseq)
  start_le : m.g1Start / 2 ≤ m.mid
  mid_le : m.mid ≤ m.wseq / 2
  quota_le : m.quota ≤ m.mid - m.g1Start / 2

/-- Outside the switch, with the slot whose closed flag is set. -/
structure Regular (m : PthreadCond) (closed : Option Bool) : Prop where
  parity : g2Of m.g1Start = g2Of m.wseq
  orig : m.g1OrigSize / 4 = m.mid - m.g1Start / 2
  g2Size : m.gSize (g2Of m.wseq) = 0
  flags : ∀ g, m.gSignals g % 2 = if closed = some g then 1 else 0
  /-- The adjustment of `g1_start` by -1 needs it. -/
  nonempty : g2Of m.wseq = true → m.g1Start / 2 < m.mid

/-- Between two critical sections. -/
structure Free (m : PthreadCond) : Prop extends Regular m none where
  g1Size : m.gSize (!g2Of m.wseq) = m.quota

/-- The locals of a holder that has loaded `wseq`. -/
structure Seen (m : PthreadCond) (seq : ℕ) (g1 : Bool) : Prop where
  slot : g1 = !g2Of m.wseq
  mid_le : m.mid ≤ seq
  le : seq ≤ m.wseq / 2

/-- From the decision to switch to the change of `g1_start`. -/
structure Switch (m : PthreadCond) (q : Quiesce) (closed : Option Bool) : Prop
    extends Regular m closed where
  g : q.g = !g2Of m.wseq
  oldOrig : q.oldOrigSize = m.mid - m.g1Start / 2
  oldStart : q.oldG1Start = m.g1Start / 2
  g1Size : m.gSize q.g = 0
  quota : m.quota = 0
  new : m.mid < m.wseq / 2

/-- From the change of `g1_start` to the flip of the index bit: G1 is empty. -/
structure Advanced (m : PthreadCond) (q : Quiesce) (closed : Option Bool) : Prop where
  g : q.g = !g2Of m.wseq
  parity : g2Of m.g1Start = q.g
  start : m.g1Start / 2 = m.mid
  old : q.oldG1Start + q.oldOrigSize = m.mid
  size : ∀ g, m.gSize g = 0
  flags : ∀ g, m.gSignals g % 2 = if closed = some g then 1 else 0
  quota : m.quota = 0
  new : m.mid < m.wseq / 2

/-- From the flip to the store of the new group size. -/
structure Flipped (m : PthreadCond) (g1 : Bool) (n size : ℕ) : Prop where
  slot : g1 = !g2Of m.wseq
  parity : g2Of m.g1Start = g2Of m.wseq
  n_eq : n = m.mid - m.g1Start / 2
  pos : 0 < n
  lt : n < 2 ^ 30
  quota : m.quota = n
  flags : ∀ g, m.gSignals g % 2 = 0
  g2Size : m.gSize (g2Of m.wseq) = 0
  g1Size : m.gSize g1 = size

def NotifyPc.critical : NotifyPc → Bool
  | .loadWrefs | .innerLock | .wake _ => false
  | _ => true

/-- The thread holds the inner lock. -/
def Pc.critical : Pc → Bool
  | .notify _ p => p.critical
  | _ => false

/-- What the holder of the inner lock knows. -/
def Held (m : PthreadCond) (op : Op) : NotifyPc → Prop
  | .loadWrefs | .innerLock | .wake _ => True
  | .loadWseq => Free m
  | .testG1 seq g1 => Free m ∧ Seen m seq g1
  | .postG1 seq g1 => Free m ∧ Seen m seq g1
  | .sizeG1 seq g1 => Regular m none ∧ m.quota = 0 ∧ Seen m seq g1
  | .wakeG1 seq g1 | .loadOrigSize seq g1 => Free m ∧ m.quota = 0 ∧ Seen m seq g1
  | .loadG1Start seq g1 o => Free m ∧ m.quota = 0 ∧ Seen m seq g1 ∧ o = m.mid - m.g1Start / 2
  | .testG2 seq q => Free m ∧ m.quota = 0 ∧ Seen m seq q.g ∧
      q.oldOrigSize = m.mid - m.g1Start / 2 ∧ q.oldG1Start = m.g1Start / 2
  | .close q => Switch m q none
  | .loadRefs q | .requestWake q | .waitRefs q _ | .asleepRefs q | .reloadRefs q | .advance q =>
    Switch m q (some q.g)
  | .reopen q => Advanced m q (some q.g)
  | .flip q => Advanced m q none
  | .addSize g1 n => Flipped m g1 n 0
  | .loadSize g1 n => Flipped m g1 n n
  | .casSize g1 s _ => Flipped m g1 (m.mid - m.g1Start / 2) (m.mid - m.g1Start / 2) ∧
      s = (m.mid - m.g1Start / 2) * 4
  | .testNew g1 => Free m ∧ g1 = !g2Of m.wseq ∧ m.gSize g1 ≠ 0
  | .post g1 => Free m ∧ g1 = !g2Of m.wseq ∧ m.gSize g1 ≠ 0
  | .size g1 => Regular m none ∧ g1 = !g2Of m.wseq ∧ m.gSize g1 = m.quota + op.posts (m.gSize g1) ∧
      m.gSize g1 ≤ m.mid - m.g1Start / 2
  | .innerUnlock _ => Free m

def HeldAt (m : PthreadCond) : Pc → Prop
  | .notify op p => Held m op p
  | _ => True

/-! ## The steps of the other threads -/

/-- What a thread outside the critical section leaves alone. -/
structure Frame (m m' : PthreadCond) : Prop where
  g1Start : m'.g1Start = m.g1Start
  mid : m'.mid = m.mid
  quota : m'.quota = m.quota
  gSize : m'.gSize = m.gSize
  orig : m'.g1OrigSize / 4 = m.g1OrigSize / 4
  g2 : g2Of m'.wseq = g2Of m.wseq
  le : m.wseq / 2 ≤ m'.wseq / 2
  flags : ∀ g, m'.gSignals g % 2 = m.gSignals g % 2

theorem Frame.refl (m : PthreadCond) : Frame m m :=
  ⟨rfl, rfl, rfl, rfl, rfl, rfl, le_rfl, fun _ => rfl⟩

variable {m m' : PthreadCond}

theorem Regular.frame {c : Option Bool} (h : Regular m c) (hf : Frame m m') : Regular m' c := by
  refine ⟨?_, ?_, ?_, fun g => ?_, ?_⟩
  · rw [hf.g1Start, hf.g2]; exact h.parity
  · rw [hf.orig, hf.mid, hf.g1Start]; exact h.orig
  · rw [hf.gSize, hf.g2]; exact h.g2Size
  · rw [hf.flags]; exact h.flags g
  · rw [hf.g2, hf.g1Start, hf.mid]; exact h.nonempty

theorem Free.frame (h : Free m) (hf : Frame m m') : Free m' where
  toRegular := h.toRegular.frame hf
  g1Size := by rw [hf.gSize, hf.g2, hf.quota]; exact h.g1Size

theorem Seen.frame {seq : ℕ} {g1 : Bool} (h : Seen m seq g1) (hf : Frame m m') :
    Seen m' seq g1 := by
  refine ⟨?_, ?_, h.le.trans hf.le⟩
  · rw [hf.g2]; exact h.slot
  · rw [hf.mid]; exact h.mid_le

theorem Switch.frame {q : Quiesce} {c : Option Bool} (h : Switch m q c) (hf : Frame m m') :
    Switch m' q c where
  toRegular := h.toRegular.frame hf
  g := by rw [hf.g2]; exact h.g
  oldOrig := by rw [hf.mid, hf.g1Start]; exact h.oldOrig
  oldStart := by rw [hf.g1Start]; exact h.oldStart
  g1Size := by rw [hf.gSize]; exact h.g1Size
  quota := by rw [hf.quota]; exact h.quota
  new := by rw [hf.mid]; exact h.new.trans_le hf.le

theorem Advanced.frame {q : Quiesce} {c : Option Bool} (h : Advanced m q c) (hf : Frame m m') :
    Advanced m' q c where
  g := by rw [hf.g2]; exact h.g
  parity := by rw [hf.g1Start]; exact h.parity
  start := by rw [hf.g1Start, hf.mid]; exact h.start
  old := by rw [hf.mid]; exact h.old
  size g := by rw [hf.gSize]; exact h.size g
  flags g := by rw [hf.flags]; exact h.flags g
  quota := by rw [hf.quota]; exact h.quota
  new := by rw [hf.mid]; exact h.new.trans_le hf.le

theorem Flipped.frame {g1 : Bool} {n size : ℕ} (h : Flipped m g1 n size) (hf : Frame m m') :
    Flipped m' g1 n size where
  slot := by rw [hf.g2]; exact h.slot
  parity := by rw [hf.g1Start, hf.g2]; exact h.parity
  n_eq := by rw [hf.mid, hf.g1Start]; exact h.n_eq
  pos := h.pos
  lt := h.lt
  quota := by rw [hf.quota]; exact h.quota
  flags g := by rw [hf.flags]; exact h.flags g
  g2Size := by rw [hf.gSize, hf.g2]; exact h.g2Size
  g1Size := by rw [hf.gSize]; exact h.g1Size

/-- What the holder knows is not disturbed. -/
theorem Held.frame {op : Op} {p : NotifyPc} (h : Held m op p) (hf : Frame m m') :
    Held m' op p := by
  cases p <;> simp only [Held, hf.mid, hf.g1Start, hf.quota, hf.gSize, hf.g2] at h ⊢
  case loadWseq | innerUnlock => exact h.frame hf
  case testG1 | postG1 => exact ⟨h.1.frame hf, h.2.frame hf⟩
  case sizeG1 | wakeG1 | loadOrigSize => exact ⟨h.1.frame hf, h.2.1, h.2.2.frame hf⟩
  case loadG1Start | testG2 => exact ⟨h.1.frame hf, h.2.1, h.2.2.1.frame hf, h.2.2.2⟩
  case close | loadRefs | requestWake | waitRefs | asleepRefs | reloadRefs | advance | reopen |
      flip | addSize | loadSize => exact h.frame hf
  all_goals exact ⟨h.1.frame hf, h.2⟩

@[simp] theorem setSignals_self (m : PthreadCond) (g : Bool) (v : ℕ) :
    (m.setSignals g v).gSignals g = v := Function.update_self ..

@[simp] theorem setSignals_other (m : PthreadCond) {g x : Bool} (h : x ≠ g) (v : ℕ) :
    (m.setSignals g v).gSignals x = m.gSignals x := Function.update_of_ne h ..

/-- A store to `g_signals` that keeps the closed flag. -/
theorem frame_setSignals {g : Bool} {v : ℕ} (h : v % 2 = m.gSignals g % 2) :
    Frame m (m.setSignals g v) := by
  refine ⟨rfl, rfl, rfl, rfl, rfl, rfl, le_rfl, fun x => ?_⟩
  rcases eq_or_ne x g with rfl | hx
  · rw [setSignals_self, h]
  · rw [setSignals_other m hx]

theorem add32_two_mod (a : ℕ) : add32 a 2 % 2 = a % 2 := by unfold add32; omega

theorem sub32_two_mod (a : ℕ) : sub32 a 2 % 2 = a % 2 := by unfold sub32; omega

theorem waitStep_frame {seq : ℕ} {g : Bool} {p : WaitPc} {p' : Pc}
    (h : waitStep m seq g p = some (m', p')) : Frame m m' := by
  cases p <;> dsimp only [waitStep] at h
  case casSignals signals =>
    split_ifs at h with hs <;> cases h
    · exact frame_setSignals (by rw [sub32_two_mod, hs])
    · exact .refl m
  case casBack taken g1Start s =>
    split_ifs at h with hs <;> cases h
    · exact frame_setSignals (by rw [add32_two_mod, hs])
    · exact .refl m
  case checkClosed | checkStart | futexWait | decRefs | loadStart | decWrefs =>
    split_ifs at h <;> cases h <;> exact ⟨rfl, rfl, rfl, rfl, rfl, rfl, le_rfl, fun _ => rfl⟩
  case recheckStart =>
    split_ifs at h <;> cases h <;> exact .refl m
  case asleep | wakeRefs | wakeBack | wakeWrefs => cases h
  all_goals cases h; exact ⟨rfl, rfl, rfl, rfl, rfl, rfl, le_rfl, fun _ => rfl⟩

theorem waitFail_frame {seq : ℕ} {g : Bool} {p : WaitPc} {p' : Pc}
    (h : waitFail m seq g p = some (m', p')) : m' = m := by
  cases p <;> cases h <;> rfl

/-- The position is taken from `wseq` without a wrap. -/
theorem add64_two (hB : Bounded m) : add64 m.wseq 2 = m.wseq + 2 := by
  have := hB.wseq
  unfold add64
  omega

theorem fetchSeq_frame (hB : Bounded m) : Frame m { m with
    wseq := add64 m.wseq 2
    handed := m.handed ++ [(m.wseq / 2, g2Of m.wseq)] } := by
  refine ⟨rfl, rfl, rfl, rfl, rfl, ?_, ?_, fun _ => rfl⟩
  · refine g2Of_congr ?_
    change add64 m.wseq 2 % 2 = m.wseq % 2
    rw [add64_two hB]
    omega
  · change _ ≤ add64 m.wseq 2 / 2
    rw [add64_two hB]
    omega

/-! ## The steps of the holder -/

section Holder

variable {op : Op}

theorem seen_loadWseq (hb : Base m) : Seen m (m.wseq / 2) (!g2Of m.wseq) :=
  ⟨rfl, hb.mid_le, le_rfl⟩

/-- The test of G2: nothing to switch to, or G2 has waiters. -/
theorem newSize_eq {seq : ℕ} {q : Quiesce} (ho : q.oldG1Start + q.oldOrigSize = m.mid)
    (hm : m.mid ≤ seq) (hs : seq < 2 ^ 63) (hd : seq - m.mid < 2 ^ 30) :
    newSize seq q = seq - m.mid := by
  unfold newSize sub64
  omega

/-- The 32-bit adjustment of `g1_start` is the integer `2 * old_orig_size + 1` or
`2 * old_orig_size - 1`. -/
theorem startStep_eq {q : Quiesce} (ho : q.oldOrigSize < 2 ^ 30)
    (hne : q.g = false → 0 < q.oldOrigSize) :
    (startStep q : ℤ) = 2 * q.oldOrigSize + if q.g then 1 else -1 := by
  unfold startStep add32 sub32
  cases hg : q.g with
  | true =>
    simp only [if_true]
    omega
  | false =>
    have := hne hg
    simp only [Bool.false_eq_true, if_false]
    omega

theorem Switch.startStep_eq {q : Quiesce} {c : Option Bool} (h : Switch m q c) (hB : Bounded m) :
    (startStep q : ℤ) = 2 * q.oldOrigSize + if q.g then 1 else -1 := by
  have h₁ := hB.g1
  have h₂ := h.oldOrig
  refine Cond.startStep_eq (by omega) fun hg => ?_
  have hg2 : g2Of m.wseq = true := by
    have := h.g
    rw [hg] at this
    simpa using this.symm
  have := h.nonempty hg2
  omega

/-- `g1_start` moves to the end of G1 and its index bit to the slot of G1. -/
theorem advance_eq {q : Quiesce} {c : Option Bool} (hb : Base m) (hB : Bounded m)
    (h : Switch m q c) :
    add64 m.g1Start (startStep q) / 2 = m.mid ∧ g2Of (add64 m.g1Start (startStep q)) = q.g := by
  have h₁ := h.startStep_eq hB
  have h₂ := h.oldOrig
  have h₃ := hb.start_le
  have h₄ := hb.mid_le
  have h₅ := hB.wseq
  have hp := h.parity
  have hg := h.g
  unfold add64
  cases hq : q.g with
  | true =>
    rw [hq] at hg h₁
    have h0 : m.g1Start % 2 = 0 := g2Of_eq_false.mp (by rw [hp]; simpa using hg.symm)
    simp only [if_true] at h₁
    rw [g2Of_eq_true]
    omega
  | false =>
    rw [hq] at hg h₁
    have hg2 : g2Of m.wseq = true := by simpa using hg.symm
    have h1 : m.g1Start % 2 = 1 := g2Of_eq_true.mp (by rw [hp, hg2])
    have hne := h.nonempty hg2
    simp only [Bool.false_eq_true, if_false] at h₁
    rw [g2Of_eq_false]
    omega

/-- The part of the memory that `Base` speaks of, and the counter does not grow. -/
theorem Base.congr (hb : Base m) (hh : m'.handed = m.handed) (hw : m'.wseq = m.wseq)
    (hs : m'.g1Start = m.g1Start) (hm : m'.mid = m.mid) (hq : m'.quota ≤ m.quota) : Base m' := by
  refine ⟨?_, ?_, ?_, ?_, ?_⟩
  · rw [hh, hw]; exact hb.positions
  · rw [hh, hm, hw, hs]; exact hb.slots
  · rw [hs, hm]; exact hb.start_le
  · rw [hm, hw]; exact hb.mid_le
  · rw [hm, hs]; exact hq.trans hb.quota_le

/-- A position that has been handed out is below `wseq >> 1`. -/
theorem Base.lt {p : ℕ} {g : Bool} (hb : Base m) (h : (p, g) ∈ m.handed) : p < m.wseq / 2 := by
  have := List.mem_map_of_mem (f := Prod.fst) h
  rw [hb.positions] at this
  exact List.mem_range.mp this

theorem Base.fetchSeq (hb : Base m) (hB : Bounded m) : Base { m with
    wseq := add64 m.wseq 2
    handed := m.handed ++ [(m.wseq / 2, g2Of m.wseq)] } := by
  have hw := add64_two hB
  have hf := fetchSeq_frame hB
  have hg2 : g2Of (add64 m.wseq 2) = g2Of m.wseq := hf.g2
  have hdiv : (m.wseq + 2) / 2 = m.wseq / 2 + 1 := by omega
  refine ⟨?_, fun p g hpg => ?_, hb.start_le, hb.mid_le.trans hf.le, hb.quota_le⟩
  · simp only [List.map_append, List.map_cons, List.map_nil, hb.positions, hw, hdiv,
      List.range_succ]
  · simp only [hg2]
    rcases List.mem_append.mp hpg with hpg | hpg
    · exact hb.slots p g hpg
    · cases List.mem_singleton.mp hpg
      exact ⟨fun _ => rfl, fun _ h => (h.not_ge hb.mid_le).elim⟩

theorem Base.advance {q : Quiesce} {c : Option Bool} (hb : Base m) (hB : Bounded m)
    (h : Switch m q c) : Base { m with g1Start := add64 m.g1Start (startStep q) } := by
  obtain ⟨hs, -⟩ := advance_eq hb hB h
  refine ⟨hb.positions, fun p g hpg => ⟨(hb.slots p g hpg).1, fun h₁ h₂ => ?_⟩, hs.le, hb.mid_le,
    ?_⟩
  · exact (h₂.not_ge (hs ▸ h₁)).elim
  · change m.quota ≤ _
    rw [h.quota]
    exact Nat.zero_le _

theorem Base.flip {q : Quiesce} {c : Option Bool} (hb : Base m) (h : Advanced m q c) :
    Base { m with wseq := m.wseq ^^^ 1, mid := m.wseq / 2, quota := m.wseq / 2 - m.mid } := by
  refine ⟨?_, fun p g hpg => ⟨fun h₁ => ?_, fun h₁ _ => ?_⟩, ?_, ?_, ?_⟩
  · rw [hb.positions, xor_one_div]
  · exact ((hb.lt hpg).not_ge h₁).elim
  · change g = !g2Of (m.wseq ^^^ 1)
    rw [g2Of_xor_one, Bool.not_not]
    exact (hb.slots p g hpg).1 (h.start ▸ h₁)
  · exact hb.start_le.trans hb.mid_le
  · change m.wseq / 2 ≤ (m.wseq ^^^ 1) / 2
    rw [xor_one_div]
  · change m.wseq / 2 - m.mid ≤ m.wseq / 2 - m.g1Start / 2
    rw [h.start]

theorem notifyStep_base {p : NotifyPc} {p' : Pc} (hb : Base m) (hB : Bounded m)
    (hh : Held m op p) (h : notifyStep m op p = some (m', p')) : Base m' := by
  cases p <;> dsimp only [notifyStep] at h
  case loadWrefs | innerLock | testG2 | requestWake | waitRefs | casSize | testNew =>
    split_ifs at h <;> cases h <;> exact hb.congr rfl rfl rfl rfl le_rfl
  case testG1 =>
    split_ifs at h
    · cases op <;> cases h <;> exact hb
    · cases h; exact hb
  case postG1 => cases h; exact hb.congr rfl rfl rfl rfl (Nat.zero_le _)
  case advance => cases h; exact hb.advance hB hh
  case flip => cases h; exact hb.flip hh
  case post => cases h; exact hb.congr rfl rfl rfl rfl (Nat.sub_le _ _)
  case wakeG1 | asleepRefs | wake => cases h
  all_goals cases h; exact hb.congr rfl rfl rfl rfl le_rfl

/-- **Every step keeps the positions.** -/
theorem exec_base {p p' : Pc} {c : Choice} (hb : Base m) (hB : Bounded m) (hh : HeldAt m p)
    (h : exec m p c = some (m', p')) : Base m' := by
  rcases p with _ | _ | ⟨seq, g, p⟩ | ⟨op, p⟩ | p
  · cases c <;> cases h
    exact hb
  · cases c <;> cases h
    exact hb.fetchSeq hB
  · cases c
    case go =>
      cases p <;> dsimp only [exec, waitStep] at h
      case checkClosed | checkStart | futexWait | decRefs | casSignals | loadStart | casBack |
          decWrefs =>
        split_ifs at h <;> cases h <;> exact hb.congr rfl rfl rfl rfl le_rfl
      case recheckStart => split_ifs at h <;> cases h <;> exact hb
      case asleep | wakeRefs | wakeBack | wakeWrefs => cases h
      all_goals cases h; exact hb.congr rfl rfl rfl rfl le_rfl
    case fail => rw [waitFail_frame h]; exact hb
    all_goals cases h
  · cases c
    case go => exact notifyStep_base hb hB hh h
    case fail => cases p <;> cases h <;> exact hb
    case contend =>
      cases p <;> dsimp only [exec, contend] at h <;> try cases h
      split_ifs at h <;> cases h <;> exact hb.congr rfl rfl rfl rfl le_rfl
    all_goals cases h
  · cases c
    case go =>
      cases p <;> dsimp only [exec, destroyStep] at h
      case futexWait => split_ifs at h <;> cases h <;> exact hb
      case asleep => cases h
      all_goals cases h; exact hb.congr rfl rfl rfl rfl le_rfl
    case fail => cases p <;> cases h <;> exact hb
    all_goals cases h

@[simp] theorem setSize_self (m : PthreadCond) (g : Bool) (v : ℕ) : (m.setSize g v).gSize g = v :=
  Function.update_self ..

@[simp] theorem setSize_other (m : PthreadCond) {g x : Bool} (h : x ≠ g) (v : ℕ) :
    (m.setSize g v).gSize x = m.gSize x := Function.update_of_ne h ..

theorem Regular.congr {c c' : Option Bool} (h : Regular m c) (hw : m'.wseq = m.wseq)
    (hs : m'.g1Start = m.g1Start) (hm : m'.mid = m.mid)
    (ho : m'.g1OrigSize / 4 = m.g1OrigSize / 4)
    (hg : m'.gSize (g2Of m.wseq) = m.gSize (g2Of m.wseq))
    (hf : ∀ g, m'.gSignals g % 2 = if c' = some g then 1 else 0) : Regular m' c' := by
  refine ⟨?_, ?_, ?_, hf, ?_⟩
  · rw [hs, hw]; exact h.parity
  · rw [ho, hm, hs]; exact h.orig
  · rw [hw, hg]; exact h.g2Size
  · rw [hw, hs, hm]; exact h.nonempty

/-- Signals do not touch the closed flag. -/
theorem flags_add {c : Option Bool} {g : Bool} {n : ℕ}
    (hf : ∀ x, m.gSignals x % 2 = if c = some x then 1 else 0) (x : Bool) :
    (m.setSignals g (add32 (m.gSignals g) (n * 2))).gSignals x % 2 =
      if c = some x then 1 else 0 := by
  rw [← hf x]
  rcases eq_or_ne x g with rfl | hx
  · rw [setSignals_self]; unfold add32; omega
  · rw [setSignals_other m hx]

theorem flags_close {g : Bool}
    (hf : ∀ x, m.gSignals x % 2 = if (none : Option Bool) = some x then 1 else 0) (x : Bool) :
    (m.setSignals g (m.gSignals g ||| 1)).gSignals x % 2 =
      if some g = some x then 1 else 0 := by
  rcases eq_or_ne x g with rfl | hx
  · rw [setSignals_self, or_one_mod, if_pos rfl]
  · rw [setSignals_other m hx, hf x, if_neg fun e => hx (Option.some.inj e).symm, if_neg nofun]

theorem flags_reopen {g : Bool} (hf : ∀ x, m.gSignals x % 2 = if some g = some x then 1 else 0)
    (x : Bool) : (m.setSignals g 0).gSignals x % 2 =
      if (none : Option Bool) = some x then 1 else 0 := by
  rcases eq_or_ne x g with rfl | hx
  · rw [setSignals_self, if_neg nofun]
  · rw [setSignals_other m hx, hf x, if_neg fun e => hx (Option.some.inj e).symm, if_neg nofun]

/-- **The holder keeps its knowledge up to date** and leaves the lock with the state in order. -/
theorem notifyStep_held {p : NotifyPc} {p' : Pc} (hb : Base m) (hB : Bounded m)
    (hc : p.critical = true) (hh : Held m op p) (h : notifyStep m op p = some (m', p')) :
    HeldAt m' p' ∧ (p'.critical = false → Free m') := by
  have h₁ := hB.g1
  have h₂ := hB.g2
  have h₃ := hB.wseq
  cases p <;> dsimp only [notifyStep] at h
  case loadWrefs | innerLock | wake => cases hc
  case wakeG1 | asleepRefs => cases h
  case loadWseq => cases h; exact ⟨⟨hh, seen_loadWseq hb⟩, nofun⟩
  case testG1 seq g1 =>
    obtain ⟨hf, hs⟩ := hh
    split_ifs at h with hne
    · cases op <;> cases h
      · exact ⟨⟨hf, hs.slot, hne⟩, nofun⟩
      · exact ⟨⟨hf, hs⟩, nofun⟩
    · cases h
      refine ⟨⟨hf, ?_, hs⟩, nofun⟩
      rw [← hf.g1Size, ← hs.slot]
      exact not_not.mp hne
  case postG1 seq g1 =>
    obtain ⟨hf, hs⟩ := hh
    cases h
    exact ⟨⟨hf.toRegular.congr rfl rfl rfl rfl rfl (flags_add hf.flags), rfl,
      ⟨hs.slot, hs.mid_le, hs.le⟩⟩, nofun⟩
  case sizeG1 seq g1 =>
    obtain ⟨hf, hq, hs⟩ := hh
    cases h
    refine ⟨⟨⟨hf.congr rfl rfl rfl rfl (setSize_other m ?_ 0) hf.flags, ?_⟩, hq,
      ⟨hs.slot, hs.mid_le, hs.le⟩⟩, nofun⟩
    · rw [hs.slot]; exact (Bool.not_ne_self _).symm
    · change (m.setSize g1 0).gSize (!g2Of m.wseq) = m.quota
      rw [hs.slot, setSize_self, hq]
  case loadOrigSize seq g1 =>
    obtain ⟨hf, hq, hs⟩ := hh
    cases h
    exact ⟨⟨hf, hq, hs, hf.orig⟩, nofun⟩
  case loadG1Start seq g1 o =>
    obtain ⟨hf, hq, hs, ho⟩ := hh
    cases h
    exact ⟨⟨hf, hq, hs, ho, rfl⟩, nofun⟩
  case testG2 seq q =>
    obtain ⟨hf, hq, hs, ho, hst⟩ := hh
    have h₄ := hb.start_le
    have h₅ := hs.le
    have h₆ := hs.mid_le
    have hn : newSize seq q = seq - m.mid := newSize_eq (by omega) h₆ (by omega) (by omega)
    have hg2 : m.gSize (!q.g) = 0 := by rw [hs.slot, Bool.not_not]; exact hf.g2Size
    have hg1 : m.gSize q.g = 0 := by rw [hs.slot, hf.g1Size, hq]
    rw [hn, hg2] at h
    split_ifs at h with hz <;> cases h
    · exact ⟨hf, nofun⟩
    · refine ⟨⟨hf.toRegular, hs.slot, ho, hst, hg1, hq, ?_⟩, nofun⟩
      unfold add32 at hz
      omega
  case close q =>
    cases h
    exact ⟨⟨hh.toRegular.congr rfl rfl rfl rfl rfl (flags_close hh.flags), hh.g, hh.oldOrig,
      hh.oldStart, hh.g1Size, hh.quota, hh.new⟩, nofun⟩
  case loadRefs q | reloadRefs q =>
    cases h
    unfold quiesceHead
    split_ifs <;> exact ⟨hh, nofun⟩
  case requestWake q =>
    split_ifs at h <;> cases h <;>
      exact ⟨⟨⟨hh.parity, hh.orig, hh.g2Size, hh.flags, hh.nonempty⟩, hh.g, hh.oldOrig, hh.oldStart,
        hh.g1Size, hh.quota, hh.new⟩, nofun⟩
  case waitRefs q r => split_ifs at h <;> cases h <;> exact ⟨hh, nofun⟩
  case advance q =>
    cases h
    obtain ⟨hs, hp⟩ := advance_eq hb hB hh
    have h₄ := hh.oldOrig
    have h₅ := hh.oldStart
    have h₆ := hb.start_le
    refine ⟨⟨hh.g, hp, hs, by change _ = m.mid; omega, fun g => ?_, hh.flags, hh.quota, hh.new⟩,
      nofun⟩
    rcases eq_or_ne g q.g with rfl | hg
    · exact hh.g1Size
    · rw [hh.g, Bool.ne_not] at hg
      rw [hg]
      exact hh.g2Size
  case reopen q =>
    cases h
    exact ⟨⟨hh.g, hh.parity, hh.start, hh.old, hh.size, flags_reopen hh.flags, hh.quota, hh.new⟩,
      nofun⟩
  case flip q =>
    cases h
    have h₄ := hh.new
    have hg2 : g2Of (m.wseq ^^^ 1) = q.g := by rw [g2Of_xor_one, hh.g]
    have hn : newSize (m.wseq / 2) q = m.wseq / 2 - m.mid :=
      newSize_eq hh.old hb.mid_le (by omega) (by omega)
    refine ⟨⟨?_, ?_, ?_, ?_, ?_, ?_, ?_, hh.size _, hh.size _⟩, nofun⟩
    · rw [hg2]
    · rw [hg2]; exact hh.parity
    · rw [hn, ← hh.start]
    · rw [hn]; omega
    · rw [hn]; exact h₂
    · exact hn.symm
    · exact fun g => (hh.flags g).trans (if_neg nofun)
  case addSize g1 n =>
    cases h
    have hn := hh.lt
    refine ⟨⟨hh.slot, hh.parity, hh.n_eq, hh.pos, hh.lt, hh.quota, hh.flags, ?_, ?_⟩, nofun⟩
    · change (m.setSize g1 _).gSize (g2Of m.wseq) = 0
      rw [setSize_other m (by rw [hh.slot]; exact (Bool.not_ne_self _).symm)]
      exact hh.g2Size
    · rw [setSize_self, hh.g1Size]
      unfold add32
      omega
  case loadSize g1 n =>
    cases h
    have hn := hh.lt
    refine ⟨⟨hh.n_eq ▸ hh, ?_⟩, nofun⟩
    rw [← hh.n_eq]
    omega
  case casSize g1 o old =>
    obtain ⟨hf, rfl⟩ := hh
    split_ifs at h with heq <;> cases h
    · refine ⟨⟨⟨⟨hf.parity, (or_payload _ old).1, hf.g2Size, fun g => ?_, fun _ => ?_⟩, ?_⟩,
        hf.slot, ?_⟩, nofun⟩
      · rw [if_neg nofun]; exact hf.flags g
      · have := hf.pos
        change m.g1Start / 2 < m.mid
        omega
      · change m.gSize (!g2Of m.wseq) = m.quota
        rw [← hf.slot, hf.g1Size, hf.quota]
      · change m.gSize g1 ≠ 0
        rw [hf.g1Size]
        exact hf.pos.ne'
    · exact ⟨⟨hf, rfl⟩, nofun⟩
  case testNew g1 =>
    obtain ⟨hf, hs, hne⟩ := hh
    rw [if_pos hne] at h
    cases h
    exact ⟨⟨hf, hs, hne⟩, nofun⟩
  case post g1 =>
    obtain ⟨hf, hs, hne⟩ := hh
    cases h
    have hq : m.gSize g1 = m.quota := by rw [hs]; exact hf.g1Size
    have hql := hb.quota_le
    refine ⟨⟨hf.toRegular.congr rfl rfl rfl rfl rfl (flags_add hf.flags), hs, ?_, ?_⟩, nofun⟩
    · change m.gSize g1 = m.quota - op.posts (m.gSize g1) + op.posts (m.gSize g1)
      cases op <;> simp only [Op.posts] <;> omega
    · change m.gSize g1 ≤ m.mid - m.g1Start / 2
      omega
  case size g1 =>
    obtain ⟨hf, hs, hq, hle⟩ := hh
    cases h
    refine ⟨⟨hf.congr rfl rfl rfl rfl (setSize_other m ?_ _) hf.flags, ?_⟩, nofun⟩
    · rw [hs]; exact (Bool.not_ne_self _).symm
    · change (m.setSize g1 _).gSize (!g2Of m.wseq) = m.quota
      rw [← hs, setSize_self]
      cases op <;> simp only [Op.posts, Op.left, sub32] at hq ⊢ <;> omega
  case innerUnlock w =>
    cases h
    have hf : Free { m with g1OrigSize := m.g1OrigSize - m.g1OrigSize % 4 } :=
      hh.frame ⟨rfl, rfl, rfl, rfl, by simp only; omega, rfl, le_rfl, fun _ => rfl⟩
    cases w <;> exact ⟨True.intro, fun _ => hf⟩

end Holder

end SyncNotes.Cond
