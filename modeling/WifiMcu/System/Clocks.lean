import WifiMcu.Library.Bits
import Mathlib.Tactic.IntervalCases

/-!
# The clock queries

`RCC.h` computes the frequencies of the clocks from the contents of `RCC->CFGR` and
`RCC->PLLCFGR`. They are compared with the clock tree: the system clock is divided for the
AHB, and the clock of the AHB is divided again for each of the two APBs. The frequency of
the external oscillator is a constant of the build.
-/

namespace WifiMcu.System

open Bits

/-- `HSIFrequency`. -/
def hsiFrequency : BitVec 32 := 16000000

/-- The fields of `RCC->CFGR` that the queries look at. -/
def rccCfgrSws : BitVec 32 := 0x0000000C

@[inherit_doc rccCfgrSws] def rccCfgrHpre : BitVec 32 := 0x000000F0

@[inherit_doc rccCfgrSws] def rccCfgrPpre1 : BitVec 32 := 0x00001C00

@[inherit_doc rccCfgrSws] def rccCfgrPpre2 : BitVec 32 := 0x0000E000

/-- The fields of `RCC->PLLCFGR` that the queries look at. -/
def rccPllcfgrPllm : BitVec 32 := 0x0000003F

@[inherit_doc rccPllcfgrPllm] def rccPllcfgrPlln : BitVec 32 := 0x00007FC0

@[inherit_doc rccPllcfgrPllm] def rccPllcfgrPllp : BitVec 32 := 0x00030000

@[inherit_doc rccPllcfgrPllm] def rccPllcfgrPllsrc : BitVec 32 := 0x00400000

/-- `APBAHBPrescalerTable`. -/
def apbAhbPrescalerTable : List ℕ := [0, 0, 0, 0, 1, 2, 3, 4, 1, 2, 3, 4, 6, 7, 8, 9]

/-- The constant that a build supplies, `HSEFrequency`. It is not slower than the largest
prescaler of an APB. -/
structure Build where
  hseFrequency : BitVec 32
  hse_ge : 16 ≤ hseFrequency.toNat

section

variable (build : Build) (cfgr pllcfgr : BitVec 32)

/-- The source clock of the PLL, `srcclock`. -/
def pllSource : BitVec 32 :=
  if pllcfgr &&& rccPllcfgrPllsrc ≠ 0 then build.hseFrequency else hsiFrequency

/-- `SYSCLKFrequency`. -/
def sysclkFrequency : BitVec 32 :=
  if cfgr &&& rccCfgrSws = 0x00 then hsiFrequency
  else if cfgr &&& rccCfgrSws = 0x08 then
    let srcclock := pllSource build pllcfgr
    let pllm := pllcfgr &&& rccPllcfgrPllm
    let pllvco := srcclock / pllm * ((pllcfgr &&& rccPllcfgrPlln) >>> 6)
    let pllp := (((pllcfgr &&& rccPllcfgrPllp) >>> 16) + 1) * 2
    pllvco / pllp
  else build.hseFrequency

/-- `HCLKFrequency`. -/
def hclkFrequency : BitVec 32 :=
  let shift := apbAhbPrescalerTable.getD ((cfgr &&& rccCfgrHpre) >>> 4).toNat 0
  sysclkFrequency build cfgr pllcfgr >>> shift

/-- `PCLK1Frequency`. -/
def pclk1Frequency : BitVec 32 :=
  let shift := apbAhbPrescalerTable.getD ((cfgr &&& rccCfgrPpre1) >>> 10).toNat 0
  sysclkFrequency build cfgr pllcfgr >>> shift

/-- `PCLK2Frequency`. -/
def pclk2Frequency : BitVec 32 :=
  let shift := apbAhbPrescalerTable.getD ((cfgr &&& rccCfgrPpre2) >>> 13).toNat 0
  sysclkFrequency build cfgr pllcfgr >>> shift

/-! ### The clock tree -/

/-- The division factor that `HPRE` codes. -/
def ahbPrescaler : ℕ → ℕ
  | 8 => 2
  | 9 => 4
  | 10 => 8
  | 11 => 16
  | 12 => 64
  | 13 => 128
  | 14 => 256
  | 15 => 512
  | _ => 1

/-- The division factor that `PPRE1` and `PPRE2` code. -/
def apbPrescaler : ℕ → ℕ
  | 4 => 2
  | 5 => 4
  | 6 => 8
  | 7 => 16
  | _ => 1

/-- The fields of the registers as numbers. -/
def sws : ℕ := field cfgr 2 2

@[inherit_doc sws] def hpre : ℕ := field cfgr 4 4

@[inherit_doc sws] def ppre1 : ℕ := field cfgr 10 3

@[inherit_doc sws] def ppre2 : ℕ := field cfgr 13 3

@[inherit_doc sws] def pllM : ℕ := field pllcfgr 0 6

@[inherit_doc sws] def pllN : ℕ := field pllcfgr 6 9

@[inherit_doc sws] def pllP : ℕ := (field pllcfgr 16 2 + 1) * 2

/-- The frequency of the system clock: of the internal oscillator, the PLL or the external
oscillator. -/
def systemClock : ℕ :=
  match sws cfgr with
  | 0 => hsiFrequency.toNat
  | 2 => (pllSource build pllcfgr).toNat / pllM pllcfgr * pllN pllcfgr / pllP pllcfgr
  | _ => build.hseFrequency.toNat

/-- The ranges of the fields of the PLL that `System.c` states. -/
structure PllRanges : Prop where
  m_ge : 2 ≤ pllM pllcfgr
  m_le : pllM pllcfgr ≤ 63
  n_ge : 192 ≤ pllN pllcfgr
  n_le : pllN pllcfgr ≤ 432
  input_ge : 1000000 * pllM pllcfgr ≤ (pllSource build pllcfgr).toNat
  input_le : (pllSource build pllcfgr).toNat ≤ 2000000 * pllM pllcfgr

/-- The queries follow the clock tree. -/
structure FollowsClockTree : Prop where
  divisor : sws cfgr = 2 → pllcfgr &&& rccPllcfgrPllm ≠ 0
  sysclk : (sysclkFrequency build cfgr pllcfgr).toNat = systemClock build cfgr pllcfgr
  hclk : (hclkFrequency build cfgr pllcfgr).toNat =
    (sysclkFrequency build cfgr pllcfgr).toNat / ahbPrescaler (hpre cfgr)
  pclk1 : (pclk1Frequency build cfgr pllcfgr).toNat =
    (hclkFrequency build cfgr pllcfgr).toNat / apbPrescaler (ppre1 cfgr)
  pclk2 : (pclk2Frequency build cfgr pllcfgr).toNat =
    (hclkFrequency build cfgr pllcfgr).toNat / apbPrescaler (ppre2 cfgr)

end

/-! ### Fields and prescalers -/

/-- The masks of `RCC->CFGR` and `RCC->PLLCFGR` select their fields. -/
theorem toNat_sws (cfgr : BitVec 32) : (cfgr &&& rccCfgrSws).toNat = sws cfgr * 4 :=
  toNat_and (by decide)

@[inherit_doc toNat_sws] theorem toNat_hpre (cfgr : BitVec 32) :
    ((cfgr &&& rccCfgrHpre) >>> 4).toNat = hpre cfgr :=
  toNat_and_ushiftRight (by decide)

@[inherit_doc toNat_sws] theorem toNat_ppre1 (cfgr : BitVec 32) :
    ((cfgr &&& rccCfgrPpre1) >>> 10).toNat = ppre1 cfgr :=
  toNat_and_ushiftRight (by decide)

@[inherit_doc toNat_sws] theorem toNat_ppre2 (cfgr : BitVec 32) :
    ((cfgr &&& rccCfgrPpre2) >>> 13).toNat = ppre2 cfgr :=
  toNat_and_ushiftRight (by decide)

@[inherit_doc toNat_sws] theorem toNat_pllM (pllcfgr : BitVec 32) :
    (pllcfgr &&& rccPllcfgrPllm).toNat = pllM pllcfgr := by
  have h := @toNat_and 32 pllcfgr rccPllcfgrPllm 0 6 (by decide)
  rwa [Nat.pow_zero, Nat.mul_one] at h

@[inherit_doc toNat_sws] theorem toNat_pllN (pllcfgr : BitVec 32) :
    ((pllcfgr &&& rccPllcfgrPlln) >>> 6).toNat = pllN pllcfgr :=
  toNat_and_ushiftRight (by decide)

/-- The factor of the PLL is computed without wrap-around. -/
theorem toNat_pllP (pllcfgr : BitVec 32) :
    ((((pllcfgr &&& rccPllcfgrPllp) >>> 16) + 1) * 2).toNat = pllP pllcfgr := by
  have hfield : ((pllcfgr &&& rccPllcfgrPllp) >>> 16).toNat = field pllcfgr 16 2 :=
    toNat_and_ushiftRight (by decide)
  have hlt := field_lt pllcfgr 16 2
  have hone : (1 : BitVec 32).toNat = 1 := rfl
  have htwo : (2 : BitVec 32).toNat = 2 := rfl
  rw [BitVec.toNat_mul, BitVec.toNat_add, hfield, hone, htwo, pllP]
  omega

/-- The table holds the exponents of the APB prescalers. -/
theorem two_pow_shift_ppre {n : ℕ} (h : n < 2 ^ 3) :
    2 ^ apbAhbPrescalerTable.getD n 0 = apbPrescaler n := by
  have hall : ∀ n < 2 ^ 3, 2 ^ apbAhbPrescalerTable.getD n 0 = apbPrescaler n := by decide
  exact hall n h

/-- The table divides the AHB, but for the codes below 4. These stand for an AHB that is not
divided, and so do those from 4 to 7. -/
theorem two_pow_shift_hpre_eq_one_iff (cfgr : BitVec 32) :
    2 ^ apbAhbPrescalerTable.getD (hpre cfgr) 0 = 1 ↔ hpre cfgr < 4 := by
  have hall : ∀ n < 2 ^ 4, 2 ^ apbAhbPrescalerTable.getD n 0 = 1 ↔ n < 4 := by decide
  exact hall _ (field_lt cfgr 4 4)

/-- A code below 4 is one of those for an AHB that is not divided. -/
theorem ahbPrescaler_eq_one {n : ℕ} (h : n < 4) : ahbPrescaler n = 1 := by
  have hall : ∀ n < 4, ahbPrescaler n = 1 := by decide
  exact hall n h

section

variable {build : Build} {cfgr pllcfgr : BitVec 32}

/-! ### The frequencies -/

/-- The clock of the AHB is the system clock divided as the table says. -/
theorem toNat_hclkFrequency : (hclkFrequency build cfgr pllcfgr).toNat =
    (sysclkFrequency build cfgr pllcfgr).toNat /
      2 ^ apbAhbPrescalerTable.getD (hpre cfgr) 0 := by
  rw [hclkFrequency, toNat_hpre, BitVec.toNat_ushiftRight, Nat.shiftRight_eq_div_pow]

/-- The clocks of the APBs are the system clock divided by their own prescaler. -/
theorem toNat_pclk1Frequency : (pclk1Frequency build cfgr pllcfgr).toNat =
    (sysclkFrequency build cfgr pllcfgr).toNat / apbPrescaler (ppre1 cfgr) := by
  rw [pclk1Frequency, toNat_ppre1, BitVec.toNat_ushiftRight, Nat.shiftRight_eq_div_pow, ppre1,
    two_pow_shift_ppre (field_lt cfgr 10 3)]

@[inherit_doc toNat_pclk1Frequency] theorem toNat_pclk2Frequency :
    (pclk2Frequency build cfgr pllcfgr).toNat =
      (sysclkFrequency build cfgr pllcfgr).toNat / apbPrescaler (ppre2 cfgr) := by
  rw [pclk2Frequency, toNat_ppre2, BitVec.toNat_ushiftRight, Nat.shiftRight_eq_div_pow, ppre2,
    two_pow_shift_ppre (field_lt cfgr 13 3)]

/-- Within the ranges the PLL is computed exactly. -/
theorem PllRanges.toNat_pll (h : PllRanges build pllcfgr) :
    (pllSource build pllcfgr / (pllcfgr &&& rccPllcfgrPllm) *
        ((pllcfgr &&& rccPllcfgrPlln) >>> 6) /
          ((((pllcfgr &&& rccPllcfgrPllp) >>> 16) + 1) * 2)).toNat =
      (pllSource build pllcfgr).toNat / pllM pllcfgr * pllN pllcfgr / pllP pllcfgr := by
  have hinput : (pllSource build pllcfgr).toNat / pllM pllcfgr ≤ 2000000 :=
    Nat.div_le_of_le_mul (by rw [Nat.mul_comm]; exact h.input_le)
  have hvco := Nat.mul_le_mul hinput h.n_le
  rw [BitVec.toNat_udiv, BitVec.toNat_mul, BitVec.toNat_udiv, toNat_pllM, toNat_pllN, toNat_pllP,
    Nat.mod_eq_of_lt (by omega)]

/-- Within the ranges the system clock is computed exactly. -/
theorem PllRanges.toNat_sysclkFrequency (h : PllRanges build pllcfgr) :
    (sysclkFrequency build cfgr pllcfgr).toNat = systemClock build cfgr pllcfgr := by
  have hsws := toNat_sws cfgr
  have hlt : sws cfgr < 4 := field_lt cfgr 2 2
  have hzero : cfgr &&& rccCfgrSws = 0x00 ↔ sws cfgr = 0 := by
    rw [← BitVec.toNat_inj, hsws]
    simp
  have htwo : cfgr &&& rccCfgrSws = 0x08 ↔ sws cfgr = 2 := by
    rw [← BitVec.toNat_inj, hsws]
    constructor
    · intro heq
      have : sws cfgr * 4 = 8 := heq
      omega
    · intro heq
      rw [heq]
      rfl
  simp only [sysclkFrequency, hzero, htwo, systemClock]
  interval_cases hcode : sws cfgr
  · rfl
  · rfl
  · exact h.toNat_pll
  · rfl

/-- Within the ranges the system clock is not slower than the APB prescalers are large. -/
theorem PllRanges.le_systemClock (h : PllRanges build pllcfgr) :
    16 ≤ systemClock build cfgr pllcfgr := by
  unfold systemClock
  split
  · decide
  · have hm : 0 < pllM pllcfgr := by have := h.m_ge; omega
    have hinput : 1000000 ≤ (pllSource build pllcfgr).toNat / pllM pllcfgr :=
      (Nat.le_div_iff_mul_le hm).mpr h.input_ge
    have hvco := Nat.mul_le_mul hinput h.n_ge
    have hp : pllP pllcfgr ≤ 8 := by
      have := field_lt pllcfgr 16 2
      unfold pllP
      omega
    have hpos : 0 < pllP pllcfgr := by
      unfold pllP
      omega
    refine (Nat.le_div_iff_mul_le hpos).mpr ?_
    omega
  · exact build.hse_ge

/-- Dividing a clock once more makes a difference. -/
theorem div_div_eq_div_iff {clock a p : ℕ} (ha : 0 < a) (hp : 0 < p) (hclock : p ≤ clock) :
    clock / a / p = clock / p ↔ a = 1 := by
  constructor
  · intro heq
    by_contra hne
    have hpos : 0 < clock / p := Nat.div_pos hclock hp
    rw [Nat.div_div_eq_div_mul, Nat.mul_comm, ← Nat.div_div_eq_div_mul] at heq
    have hlt := Nat.div_lt_self hpos (show 1 < a by omega)
    omega
  · rintro rfl
    rw [Nat.div_one]

/-- **The clock queries.** They follow the clock tree exactly for the codes of `HPRE` below 4.
For the codes from 4 to 7 the table, which the APBs share, divides an AHB that is not
divided. For those from 8 on the APB clocks are computed from the system clock, not from
the one of the AHB. -/
theorem followsClockTree_iff (h : PllRanges build pllcfgr) :
    FollowsClockTree build cfgr pllcfgr ↔ hpre cfgr < 4 := by
  have hsysclk : (sysclkFrequency build cfgr pllcfgr).toNat = systemClock build cfgr pllcfgr :=
    h.toNat_sysclkFrequency
  constructor
  · intro htree
    have hapb : ∀ n < 2 ^ 3, 0 < apbPrescaler n ∧ apbPrescaler n ≤ 16 := by decide
    obtain ⟨hpos, hle⟩ := hapb _ (field_lt cfgr 10 3)
    have hclock : 16 ≤ systemClock build cfgr pllcfgr := h.le_systemClock
    have hpclk1 := htree.pclk1
    rw [toNat_pclk1Frequency, toNat_hclkFrequency, hsysclk] at hpclk1
    rw [← two_pow_shift_hpre_eq_one_iff]
    exact (div_div_eq_div_iff (Nat.two_pow_pos _) hpos (hle.trans hclock)).mp hpclk1.symm
  · intro hcode
    have hshift := (two_pow_shift_hpre_eq_one_iff cfgr).mpr hcode
    have hhclk : (hclkFrequency build cfgr pllcfgr).toNat = systemClock build cfgr pllcfgr := by
      rw [toNat_hclkFrequency, hshift, Nat.div_one, hsysclk]
    refine ⟨fun _ hzero => ?_, hsysclk, ?_, ?_, ?_⟩
    · have hm := toNat_pllM pllcfgr
      have hge := h.m_ge
      rw [hzero] at hm
      have : (0 : BitVec 32).toNat = 0 := rfl
      omega
    · rw [hhclk, hsysclk, ahbPrescaler_eq_one hcode, Nat.div_one]
    · rw [toNat_pclk1Frequency, hhclk, hsysclk]
    · rw [toNat_pclk2Frequency, hhclk, hsysclk]

/-- The configuration of the board, with an oscillator of 26 MHz: M = 13, N = 300, P = 6. -/
theorem pllRanges_board : PllRanges ⟨26000000, by decide⟩ 0x00424B0D := by
  constructor <;> decide

/-- The board divides both APBs, but not the AHB. -/
theorem followsClockTree_iff_board :
    FollowsClockTree ⟨26000000, by decide⟩ 0x0000940A 0x00424B0D ∧
      (FollowsClockTree ⟨26000000, by decide⟩ 0x0000940A 0x00424B0D ↔ hpre 0x0000940A < 4) := by
  have hiff : FollowsClockTree ⟨26000000, by decide⟩ 0x0000940A 0x00424B0D ↔
      hpre 0x0000940A < 4 := followsClockTree_iff pllRanges_board
  exact ⟨hiff.mpr (by decide), hiff⟩

/-- With the internal oscillator and the AHB divided by two, `PCLK1Frequency` is twice the
frequency of the APB. -/
theorem not_followsClockTree :
    ¬ ∀ (build : Build) (cfgr pllcfgr : BitVec 32), PllRanges build pllcfgr →
      FollowsClockTree build cfgr pllcfgr := by
  intro hall
  have htree := hall ⟨26000000, by decide⟩ 0x00000080 0x00424B0D pllRanges_board
  have hpclk1 := htree.pclk1
  revert hpclk1
  decide

end

end WifiMcu.System
