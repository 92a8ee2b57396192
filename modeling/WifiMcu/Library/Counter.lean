import Mathlib.Algebra.Group.Nat.Defs
import Mathlib.Data.Nat.Notation
import Mathlib.Logic.Function.Iterate
import Mathlib.Tactic.Common

/-!
# Counters that wrap

A counter of `w` bits that is incremented again and again, with a second counter for the
times that it has wrapped to 0. As long as fewer than `2 ^ w` increments lie between two
readings, their difference is exact, and a counter that has wrapped is smaller than before.
-/

namespace Counter

/-- A counter and the number of times that it has wrapped. -/
structure State (w : ℕ) where
  count : BitVec w
  wraps : BitVec w
  deriving DecidableEq

variable {w : ℕ}

/-- Increment the counter. -/
def increment (s : State w) : State w :=
  { count := s.count + 1#w
    wraps := if s.count + 1#w = 0#w then s.wraps + 1#w else s.wraps }

/-- The counter after a number of increments from 0. -/
def after (w n : ℕ) : State w := increment^[n] ⟨0#w, 0#w⟩

/-- The increments are divided into those since the counter has wrapped the last time and
the full turns. -/
theorem after_eq (n : ℕ) : after w n = ⟨BitVec.ofNat w n, BitVec.ofNat w (n / 2 ^ w)⟩ := by
  induction n with
  | zero => simp [after]
  | succ n ih =>
    have hcount : BitVec.ofNat w n + 1#w = BitVec.ofNat w (n + 1) :=
      BitVec.ofNat_add_ofNat n 1
    have hzero : BitVec.ofNat w (n + 1) = 0#w ↔ 2 ^ w ∣ n + 1 := by
      rw [← BitVec.toNat_inj, BitVec.toNat_ofNat, BitVec.toNat_ofNat, Nat.zero_mod,
        Nat.dvd_iff_mod_eq_zero]
    rw [after, Function.iterate_succ_apply', ← after, ih, increment, hcount]
    by_cases hdvd : 2 ^ w ∣ n + 1
    · rw [if_pos (hzero.mpr hdvd), BitVec.ofNat_add_ofNat, Nat.succ_div_of_dvd hdvd]
    · rw [if_neg (fun h => hdvd (hzero.mp h)), Nat.succ_div_of_not_dvd hdvd]

/-- The difference of two readings is the number of increments between them. -/
theorem toNat_count_sub {m n : ℕ} (hle : m ≤ n) (hlt : n - m < 2 ^ w) :
    ((after w n).count - (after w m).count).toNat = n - m := by
  obtain ⟨d, rfl⟩ := Nat.exists_eq_add_of_le hle
  have hsum : BitVec.ofNat w (m + d) = BitVec.ofNat w d + BitVec.ofNat w m := by
    rw [BitVec.ofNat_add_ofNat, Nat.add_comm]
  rw [Nat.add_sub_cancel_left] at hlt ⊢
  rw [after_eq, after_eq]
  dsimp only
  rw [hsum, BitVec.add_sub_cancel, BitVec.toNat_ofNat, Nat.mod_eq_of_lt hlt]

/-- A counter that has wrapped since a reading has not reached that reading again. -/
theorem count_lt_of_wraps_ne {m n : ℕ} (hle : m ≤ n) (hlt : n - m < 2 ^ w)
    (hwraps : (after w n).wraps ≠ (after w m).wraps) :
    (after w n).count < (after w m).count := by
  rw [after_eq, after_eq] at hwraps ⊢
  have hquotient : n / 2 ^ w ≠ m / 2 ^ w := fun heq => hwraps (by rw [heq])
  have hmono : m / 2 ^ w ≤ n / 2 ^ w := Nat.div_le_div_right hle
  have hm := Nat.div_add_mod m (2 ^ w)
  have hn := Nat.div_add_mod n (2 ^ w)
  have hturn : 2 ^ w * (m / 2 ^ w + 1) ≤ 2 ^ w * (n / 2 ^ w) :=
    Nat.mul_le_mul_left _ (by omega)
  rw [Nat.mul_succ] at hturn
  rw [BitVec.lt_def, BitVec.toNat_ofNat, BitVec.toNat_ofNat]
  omega

end Counter
