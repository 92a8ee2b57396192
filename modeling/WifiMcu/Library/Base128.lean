import Mathlib.Algebra.Group.Nat.Defs
import Mathlib.Tactic.Common

/-!
# Numbers in base 128 with continuation bits

A number is a sequence of bytes, the lowest seven bits first. Every byte but the
last has its highest bit set. What a reader has seen of an encoded number after a
few of its bytes is the remainder modulo a power of 128.
-/

namespace Base128

/-- The bytes of a number. -/
def encode (n : ℕ) : List UInt8 :=
  if n < 128 then [UInt8.ofNat n] else UInt8.ofNat (n % 128 + 128) :: encode (n / 128)
termination_by n
decreasing_by omega

/-- The number that a sequence of bytes denotes. -/
def value (bs : List UInt8) : ℕ := bs.foldr (fun b v => b.toNat % 128 + 128 * v) 0

/-- Every byte but the last one has its highest bit set. -/
def Terminated : List UInt8 → Prop
  | [] => False
  | [b] => b.toNat < 128
  | b :: bs => 128 ≤ b.toNat ∧ Terminated bs

/-- A small number is one byte. -/
theorem encode_of_lt {n : ℕ} (h : n < 128) : encode n = [UInt8.ofNat n] := by
  rw [encode, if_pos h]

/-- A larger number continues with its higher bits. -/
theorem encode_of_ge {n : ℕ} (h : ¬ n < 128) :
    encode n = UInt8.ofNat (n % 128 + 128) :: encode (n / 128) := by
  rw [encode, if_neg h]

/-- A number has at least one byte. -/
theorem length_encode_pos (n : ℕ) : 0 < (encode n).length := by
  rw [encode]
  split_ifs <;> simp

/-- Four bytes suffice for a number of 28 bits, and so on. -/
theorem length_encode_le {n k : ℕ} (hn : n < 128 ^ (k + 1)) : (encode n).length ≤ k + 1 := by
  induction k generalizing n with
  | zero =>
    have hlength : (encode n).length = 1 := by
      rw [encode_of_lt (by omega), List.length_singleton]
    omega
  | succ k ih =>
    by_cases hsmall : n < 128
    · have hlength : (encode n).length = 1 := by rw [encode_of_lt hsmall, List.length_singleton]
      omega
    · have hdiv : n / 128 < 128 ^ (k + 1) := by
        rw [Nat.pow_succ'] at hn
        exact Nat.div_lt_of_lt_mul hn
      have := ih hdiv
      rw [encode_of_ge hsmall, List.length_cons]
      omega

/-- An encoded number ends with its only byte without continuation bit. -/
theorem terminated_encode (n : ℕ) : Terminated (encode n) := by
  induction n using Nat.strongRecOn with
  | _ n ih =>
    by_cases hsmall : n < 128
    · rw [encode_of_lt hsmall]
      show (UInt8.ofNat n).toNat < 128
      rw [UInt8.toNat_ofNat']
      omega
    · rw [encode_of_ge hsmall]
      have hnext := ih (n / 128) (by omega)
      have hbyte : 128 ≤ (UInt8.ofNat (n % 128 + 128)).toNat := by
        rw [UInt8.toNat_ofNat']
        omega
      cases htail : encode (n / 128) with
      | nil =>
        have := length_encode_pos (n / 128)
        rw [htail] at this
        cases this
      | cons b bs =>
        rw [htail] at hnext
        exact ⟨hbyte, hnext⟩

/-- The value of one more byte. -/
theorem value_cons (b : UInt8) (bs : List UInt8) :
    value (b :: bs) = b.toNat % 128 + 128 * value bs :=
  rfl

/-- A number is bounded by its number of bytes. -/
theorem value_lt (bs : List UInt8) : value bs < 128 ^ bs.length := by
  induction bs with
  | nil => exact Nat.one_pos
  | cons b bs ih =>
    rw [value_cons, List.length_cons, Nat.pow_succ']
    omega

/-- What has been seen of a number after its first bytes. -/
theorem value_take_encode (n j : ℕ) : value ((encode n).take j) = n % 128 ^ j := by
  induction j generalizing n with
  | zero => simp [value, Nat.mod_one]
  | succ j ih =>
    by_cases hsmall : n < 128
    · have hpow : 128 ≤ 128 ^ (j + 1) := by
        rw [Nat.pow_succ']
        exact Nat.le_mul_of_pos_right 128 (Nat.pow_pos (by decide))
      rw [encode_of_lt hsmall, List.take_of_length_le (by simp), value_cons,
        Nat.mod_eq_of_lt (show n < 128 ^ (j + 1) by omega), UInt8.toNat_ofNat']
      simp only [value, List.foldr_nil]
      omega
    · have hbyte : (n % 128 + 128) % 2 ^ 8 % 128 = n % 128 := by omega
      rw [encode_of_ge hsmall, List.take_succ_cons, value_cons, ih, UInt8.toNat_ofNat', hbyte,
        Nat.pow_succ', Nat.mod_mul]

/-- An encoded number denotes the number. -/
theorem value_encode (n : ℕ) : value (encode n) = n := by
  induction n using Nat.strongRecOn with
  | _ n ih =>
    by_cases hsmall : n < 128
    · rw [encode_of_lt hsmall, value_cons, UInt8.toNat_ofNat']
      simp only [value, List.foldr_nil]
      omega
    · rw [encode_of_ge hsmall, value_cons, ih _ (by omega), UInt8.toNat_ofNat']
      omega

end Base128
