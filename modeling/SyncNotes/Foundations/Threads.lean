import Mathlib

/-!
# Counting threads by their control state

A concurrent program keeps one control state for each thread, `pc : τ → P`. Many of its invariants
compare a shared counter with the number of threads that stand somewhere, or more generally with
the sum `total w pc` of a weight over the threads. A step moves one thread (`total_update`), a
wakeup moves a set of them (`total_move`).
-/

namespace SyncNotes

namespace Threads

variable {τ P : Type*}

section Total

variable [Fintype τ]

/-- The sum over the threads of a weight of their control states. -/
def total (w : P → ℕ) (pc : τ → P) : ℕ := ∑ u, w (pc u)

/-- **One thread moves**: the sum changes by the difference of its two weights. -/
theorem total_update [DecidableEq τ] (w : P → ℕ) (pc : τ → P) (t : τ) (p : P) :
    total w (Function.update pc t p) + w (pc t) = total w pc + w p := by
  have h : (fun u => w (Function.update pc t p u)) =
      Function.update (fun u => w (pc u)) t (w p) := by
    funext u
    rcases eq_or_ne u t with rfl | hu
    · simp
    · simp [hu]
  simp only [total, h]
  rw [Finset.sum_update_of_mem (Finset.mem_univ t), add_comm (w p), add_right_comm,
    ← Finset.erase_eq, Finset.sum_erase_add _ _ (Finset.mem_univ t)]

theorem le_total (w : P → ℕ) (pc : τ → P) (t : τ) : w (pc t) ≤ total w pc :=
  Finset.single_le_sum (f := fun u => w (pc u)) (fun _ _ => Nat.zero_le _) (Finset.mem_univ t)

/-- Two different threads together weigh at most the sum. -/
theorem add_le_total [DecidableEq τ] (w : P → ℕ) (pc : τ → P) {t u : τ} (h : t ≠ u) :
    w (pc t) + w (pc u) ≤ total w pc := by
  rw [total, ← Finset.sum_erase_add _ _ (Finset.mem_univ u)]
  have hm : t ∈ Finset.univ.erase u := Finset.mem_erase.mpr ⟨h, Finset.mem_univ t⟩
  exact Nat.add_le_add_right
    (Finset.single_le_sum (f := fun v => w (pc v)) (fun _ _ => Nat.zero_le _) hm) _

theorem total_eq_zero {w : P → ℕ} {pc : τ → P} : total w pc = 0 ↔ ∀ u, w (pc u) = 0 := by
  simp [total]

theorem exists_of_total_pos {w : P → ℕ} {pc : τ → P} (h : 0 < total w pc) :
    ∃ u, 0 < w (pc u) := by
  by_contra hc
  simp only [not_exists, Nat.not_lt, Nat.le_zero_eq] at hc
  exact h.ne' (total_eq_zero.mpr hc)

theorem total_congr {w w' : P → ℕ} {pc pc' : τ → P} (h : ∀ u, w (pc u) = w' (pc' u)) :
    total w pc = total w' pc' := Finset.sum_congr rfl fun u _ => h u

theorem total_mono {w w' : P → ℕ} {pc pc' : τ → P} (h : ∀ u, w (pc u) ≤ w' (pc' u)) :
    total w pc ≤ total w' pc' := Finset.sum_le_sum fun u _ => h u

theorem total_const (n : ℕ) (pc : τ → P) : total (fun _ => n) pc = Fintype.card τ * n := by
  simp [total]

/-- A weight of at most one counts at most all threads. -/
theorem total_le_card {w : P → ℕ} {pc : τ → P} (h : ∀ p, w p ≤ 1) :
    total w pc ≤ Fintype.card τ := by
  have h₁ : total w pc ≤ total (fun _ => 1) pc := total_mono fun u => h (pc u)
  rwa [total_const, mul_one] at h₁

/-- Threads that weigh one each and are told apart by a key count at most the keys. -/
theorem total_le_card_keys {κ : Type*} {w : P → ℕ} {pc : τ → P} {S : Finset κ} (key : P → κ)
    (hw : ∀ p, w p ≤ 1) (hmem : ∀ u, w (pc u) = 1 → key (pc u) ∈ S)
    (hinj : ∀ u v, w (pc u) = 1 → w (pc v) = 1 → key (pc u) = key (pc v) → u = v) :
    total w pc ≤ S.card := by
  have h : total w pc = (Finset.univ.filter fun u => w (pc u) = 1).card := by
    rw [Finset.card_filter]
    refine Finset.sum_congr rfl fun u _ => ?_
    have := hw (pc u)
    split_ifs <;> omega
  rw [h]
  refine Finset.card_le_card_of_injOn (fun u => key (pc u)) ?_ ?_
  · intro u hu
    exact hmem u (Finset.mem_filter.mp hu).2
  · intro u hu v hv huv
    exact hinj u v (Finset.mem_filter.mp hu).2 (Finset.mem_filter.mp hv).2 huv

end Total

/-! ## Sets of threads that move together -/

section Move

variable [DecidableEq τ]

/-- The threads of `W` go on to `f` of their control states. -/
def move (f : P → P) (W : Finset τ) (pc : τ → P) : τ → P :=
  fun u => if u ∈ W then f (pc u) else pc u

theorem move_of_mem {f : P → P} {W : Finset τ} {pc : τ → P} {u : τ} (h : u ∈ W) :
    move f W pc u = f (pc u) := if_pos h

theorem move_of_notMem {f : P → P} {W : Finset τ} {pc : τ → P} {u : τ} (h : u ∉ W) :
    move f W pc u = pc u := if_neg h

/-- **A set of threads moves**: when each of them loses the same weight, the sum loses it once for
each of them. -/
theorem total_move [Fintype τ] {w : P → ℕ} {f : P → P} {W : Finset τ} {pc : τ → P} {d : ℕ}
    (h : ∀ u ∈ W, w (f (pc u)) + d = w (pc u)) :
    total w (move f W pc) + d * W.card = total w pc := by
  have hd : d * W.card = ∑ u, if u ∈ W then d else 0 := by
    rw [Finset.sum_ite_mem, Finset.univ_inter, Finset.sum_const, nsmul_eq_mul, mul_comm,
      Nat.cast_id]
  rw [total, total, hd, ← Finset.sum_add_distrib]
  refine Finset.sum_congr rfl fun u _ => ?_
  by_cases hu : u ∈ W
  · simpa only [move_of_mem hu, hu, if_true] using h u hu
  · simp only [move_of_notMem hu, hu, if_false, Nat.add_zero]

end Move

/-! ## Waking at most `n` sleepers -/

section Wake

variable [Fintype τ] (asleep : P → Prop) [DecidablePred asleep]

/-- The threads in a control state that `asleep` describes. -/
def sleepers (pc : τ → P) : Finset τ := Finset.univ.filter fun u => asleep (pc u)

@[simp] theorem mem_sleepers {pc : τ → P} {u : τ} : u ∈ sleepers asleep pc ↔ asleep (pc u) := by
  simp [sleepers]

/-- The number of sleepers as a sum. -/
theorem total_asleep (pc : τ → P) :
    total (fun p => if asleep p then 1 else 0) pc = (sleepers asleep pc).card :=
  (Finset.card_filter _ _).symm

/-- `W` is a set of sleepers that a wakeup of at most `n` may wake: `n` of them, or all when there
are fewer. Which ones is left open. -/
def IsWake (n : ℕ) (pc : τ → P) (W : Finset τ) : Prop :=
  W ⊆ sleepers asleep pc ∧ W.card = min n (sleepers asleep pc).card

instance [DecidableEq τ] (n : ℕ) (pc : τ → P) (W : Finset τ) : Decidable (IsWake asleep n pc W) :=
  inferInstanceAs (Decidable (_ ∧ _))

variable {asleep}

theorem IsWake.sleeping {n : ℕ} {pc : τ → P} {W : Finset τ} (h : IsWake asleep n pc W) {u : τ}
    (hu : u ∈ W) : asleep (pc u) := (mem_sleepers asleep).mp (h.1 hu)

/-- A wakeup with room for every sleeper wakes all of them. -/
theorem IsWake.all {n : ℕ} {pc : τ → P} {W : Finset τ} (h : IsWake asleep n pc W)
    (hn : (sleepers asleep pc).card ≤ n) : W = sleepers asleep pc := by
  refine Finset.eq_of_subset_of_card_le h.1 ?_
  rw [h.2, min_eq_right hn]

/-- A wakeup of at least one wakes somebody when somebody sleeps. -/
theorem IsWake.nonempty {n : ℕ} {pc : τ → P} {W : Finset τ} (h : IsWake asleep n pc W)
    (hn : 0 < n) {u : τ} (hu : asleep (pc u)) : W.Nonempty := by
  rw [← Finset.card_pos, h.2]
  exact lt_min hn (Finset.card_pos.mpr ⟨u, (mem_sleepers asleep).mpr hu⟩)

/-- There is always a set to wake. -/
theorem exists_isWake (asleep : P → Prop) [DecidablePred asleep] (n : ℕ) (pc : τ → P) :
    ∃ W, IsWake asleep n pc W := by
  obtain ⟨W, hW, hc⟩ := Finset.exists_subset_card_eq (min_le_right n (sleepers asleep pc).card)
  exact ⟨W, hW, hc⟩

end Wake

end Threads

end SyncNotes
