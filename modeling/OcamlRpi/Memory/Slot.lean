import Mathlib.Data.Nat.Log
import Mathlib.Tactic.Ring
import Mathlib.Tactic.SplitIfs
import OcamlRpi.Memory.Chunk

namespace OcamlRpi.Memory

theorem slotLoop_eq (n : ℤ) {size : ℕ} (h : 0 < size) :
    slotLoop n size = n + 1 + Nat.log 2 size := by
  induction size using Nat.strong_induction_on generalizing n with
  | _ size ih =>
    rw [slotLoop, if_pos h]
    rcases Nat.lt_or_ge size 2 with h₂ | h₂
    · obtain rfl : size = 1 := by omega
      rw [slotLoop]
      simp
    · rw [ih (size / 2) (by omega) (n + 1) (by omega), Nat.log_of_one_lt_of_le Nat.one_lt_two h₂]
      push_cast
      ring

theorem memoryChunkSlot_eq {size : ℕ} (h : 0 < size) :
    memoryChunkSlot size = Nat.log 2 size := by
  rw [memoryChunkSlot, slotLoop_eq _ h]
  omega

theorem roundRequest_eq (size : ℕ) : roundRequest size = max 8 (alignDown (wrap (size + 3))) := by
  unfold roundRequest MIN_SIZE ALIGN
  dsimp only
  split_ifs with h
  · exact (max_eq_left h.le).symm
  · exact (max_eq_right (not_lt.mp h)).symm

theorem roundRequest_ge (size : ℕ) : 8 ≤ roundRequest size := by
  rw [roundRequest_eq]
  exact le_max_left _ _

theorem roundRequest_dvd (size : ℕ) : 4 ∣ roundRequest size := by
  rw [roundRequest_eq]
  simp only [alignDown, ALIGN]
  omega

theorem le_roundRequest {size : ℕ} (h : size ≤ 0xFFFFFFFC) : size ≤ roundRequest size := by
  rw [roundRequest_eq]
  simp only [alignDown, ALIGN, wrap]
  omega

theorem roundRequest_le {size n : ℕ} (h : size ≤ n) (h₈ : 8 ≤ n) (h₄ : 4 ∣ n) : roundRequest size ≤ n := by
  rw [roundRequest_eq]
  simp only [alignDown, ALIGN, wrap]
  omega

/-- The search starts at the first slot all of whose chunks are large
enough: the logarithm of the request is rounded up. -/
theorem searchStart_eq (size : ℕ) :
    memoryChunkSlot (roundRequest size - 1) + 1 = Nat.clog 2 (roundRequest size) := by
  have h := roundRequest_ge size
  set s := roundRequest size
  have hlog := Nat.lt_pow_succ_log_self Nat.one_lt_two (s - 1)
  have hpow := Nat.pow_log_le_self 2 (show s - 1 ≠ 0 by omega)
  have hle : Nat.clog 2 s ≤ Nat.log 2 (s - 1) + 1 := Nat.clog_le_of_le_pow (by omega)
  have hlt : Nat.log 2 (s - 1) < Nat.clog 2 s :=
    (Nat.lt_clog_iff_pow_lt Nat.one_lt_two).mpr (by omega)
  rw [memoryChunkSlot_eq (by omega)]
  omega

theorem findSlot_eq_none {f : ℤ → ℕ} {n : ℤ} (h : findSlot f n = none) :
    ∀ k, n ≤ k → k < NUM_SIZES → f k = 0 := by
  induction n using findSlot.induct f with
  | case1 n hn hlt =>
    intro k hk hk'
    obtain rfl : k = n := by omega
    exact hn
  | case2 n hn hlt ih =>
    intro k hk hk'
    rw [findSlot, if_pos hn, if_neg hlt] at h
    rcases hk.eq_or_lt with rfl | hk
    · exact hn
    · exact ih h k (by omega) hk'
  | case3 n hn => rw [findSlot, if_neg hn] at h; cases h

theorem findSlot_eq_some {f : ℤ → ℕ} {n k : ℤ} (hn : n < NUM_SIZES) (h : findSlot f n = some k) :
    n ≤ k ∧ k < NUM_SIZES ∧ f k ≠ 0 ∧ ∀ j, n ≤ j → j < k → f j = 0 := by
  induction n using findSlot.induct f with
  | case1 n hz hlt => rw [findSlot, if_pos hz, if_pos hlt] at h; cases h
  | case2 n hz hlt ih =>
    rw [findSlot, if_pos hz, if_neg hlt] at h
    obtain ⟨h₁, h₂, h₃, h₄⟩ := ih (by omega) h
    refine ⟨by omega, h₂, h₃, fun j hj hjk ↦ ?_⟩
    rcases hj.eq_or_lt with rfl | hj
    · exact hz
    · exact h₄ j (by omega) hjk
  | case3 n hz =>
    rw [findSlot, if_neg hz] at h
    obtain rfl : n = k := Option.some.inj h
    exact ⟨le_rfl, hn, hz, fun j hj hjk ↦ absurd hjk (by omega)⟩

end OcamlRpi.Memory
