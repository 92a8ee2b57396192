import Mathlib.Logic.Function.Basic
import WifiMcu.Library.Bits
import WifiMcu.Library.LastWrite

/-!
# Enabling interrupts

Interrupts are enabled and disabled through `NVIC->ISER`. A 1 that is written to a bit
enables its interrupt, a 0 does nothing, and what is read are the interrupts that are
enabled.
-/

namespace WifiMcu.System

open Bits LastWrite

/-- The interrupts that are enabled, by the words of `ISER`. -/
structure Nvic where
  enabled : ℕ → BitVec 32

/-- Reading a word of `ISER`. -/
def Nvic.readIser (n : Nvic) (regindex : ℕ) : BitVec 32 := n.enabled regindex

/-- Writing a word of `ISER`. -/
def Nvic.writeIser (n : Nvic) (regindex : ℕ) (value : BitVec 32) : Nvic :=
  ⟨Function.update n.enabled regindex (n.enabled regindex ||| value)⟩

/-- `EnableInterrupt`. -/
def enableInterrupt (interrupt : ℕ) (n : Nvic) : Nvic :=
  let regindex := interrupt >>> 5
  let shift := interrupt &&& 0x1f
  n.writeIser regindex (n.readIser regindex ||| 1#32 <<< shift)

/-- `DisableInterrupt`. -/
def disableInterrupt (interrupt : ℕ) (n : Nvic) : Nvic :=
  let regindex := interrupt >>> 5
  let shift := interrupt &&& 0x1f
  n.writeIser regindex (n.readIser regindex &&& ~~~(1#32 <<< shift))

/-- `IsInterruptEnabled`. -/
def isInterruptEnabled (interrupt : ℕ) (n : Nvic) : Bool :=
  let regindex := interrupt >>> 5
  let shift := interrupt &&& 0x1f
  n.readIser regindex &&& 1#32 <<< shift ≠ 0

/-- A call of `EnableInterrupt` or `DisableInterrupt`. -/
inductive InterruptCall
  | enable (interrupt : ℕ)
  | disable (interrupt : ℕ)
  deriving DecidableEq

/-- The interrupt of a call. -/
def InterruptCall.interrupt : InterruptCall → ℕ
  | .enable interrupt => interrupt
  | .disable interrupt => interrupt

/-- What a call does. -/
def Nvic.call (n : Nvic) : InterruptCall → Nvic
  | .enable interrupt => enableInterrupt interrupt n
  | .disable interrupt => disableInterrupt interrupt n

/-- What a call means for an interrupt: whether it is enabled afterwards, if the call is
for this interrupt. -/
def InterruptCall.means : InterruptCall → ℕ → Option Bool
  | .enable interrupt, k => if interrupt = k then some true else none
  | .disable interrupt, k => if interrupt = k then some false else none

/-- Calls are faithful to the set of enabled interrupts: an interrupt is enabled after
them if the last call for it enables it, or if there is none and it was enabled
before; and no call changes the state of another interrupt. -/
structure Faithful (n : Nvic) (calls : List InterruptCall) : Prop where
  last : ∀ k, isInterruptEnabled k (calls.foldl Nvic.call n) =
    (lastWrite InterruptCall.means k calls).getD (isInterruptEnabled k n)
  frame : ∀ before call after, calls = before ++ call :: after → ∀ k, k ≠ call.interrupt →
    isInterruptEnabled k ((before ++ [call]).foldl Nvic.call n) =
      isInterruptEnabled k (before.foldl Nvic.call n)

/-- The word of an interrupt. -/
theorem regindex_eq (interrupt : ℕ) : interrupt >>> 5 = interrupt / 32 :=
  Nat.shiftRight_eq_div_pow interrupt 5

/-- The bit of an interrupt in its word. -/
theorem shift_eq (interrupt : ℕ) : interrupt &&& 0x1f = interrupt % 32 :=
  Nat.and_two_pow_sub_one_eq_mod interrupt 5

/-- The state of an interrupt is one bit of the words. -/
theorem isInterruptEnabled_iff (k : ℕ) (n : Nvic) :
    isInterruptEnabled k n = true ↔ (n.enabled (k / 32)).getLsbD (k % 32) = true := by
  unfold isInterruptEnabled Nvic.readIser
  rw [shift_eq, regindex_eq, decide_eq_true_eq]
  exact and_bit_ne_zero_iff (Nat.mod_lt k (by decide)) _

/-- Writing to `ISER` enables the interrupts whose bits are 1, and no other ones. -/
theorem isInterruptEnabled_writeIser (k r : ℕ) (n : Nvic) (value : BitVec 32) :
    isInterruptEnabled k (n.writeIser r value) = true ↔
      isInterruptEnabled k n = true ∨ (k / 32 = r ∧ value.getLsbD (k % 32) = true) := by
  rw [isInterruptEnabled_iff, isInterruptEnabled_iff, Nvic.writeIser]
  by_cases heq : k / 32 = r
  · subst heq
    simp
  · simp [heq]

/-- **EnableInterrupt.** It enables its interrupt. -/
theorem isInterruptEnabled_enableInterrupt (k i : ℕ) (n : Nvic) :
    isInterruptEnabled k (enableInterrupt i n) = true ↔
      isInterruptEnabled k n = true ∨ i = k := by
  unfold enableInterrupt Nvic.readIser
  dsimp only
  rw [isInterruptEnabled_writeIser, shift_eq, regindex_eq, BitVec.getLsbD_or, getLsbD_bit,
    isInterruptEnabled_iff]
  have hbit : i % 32 < 32 := Nat.mod_lt i (by decide)
  constructor
  · rintro (henabled | ⟨hword, hvalue⟩)
    · exact Or.inl henabled
    · rcases (Bool.or_eq_true _ _).mp hvalue with hold | hnew
      · rw [hword]
        exact Or.inl hold
      · simp only [hbit, decide_true, Bool.true_and, decide_eq_true_eq] at hnew
        exact Or.inr (by omega)
  · rintro (henabled | rfl)
    · exact Or.inl henabled
    · simp [hbit]

/-- **DisableInterrupt.** It changes nothing. -/
theorem isInterruptEnabled_disableInterrupt (k i : ℕ) (n : Nvic) :
    isInterruptEnabled k (disableInterrupt i n) = true ↔ isInterruptEnabled k n = true := by
  unfold disableInterrupt Nvic.readIser
  dsimp only
  rw [isInterruptEnabled_writeIser, shift_eq, regindex_eq, BitVec.getLsbD_and,
    isInterruptEnabled_iff]
  constructor
  · rintro (henabled | ⟨hword, hvalue⟩)
    · exact henabled
    · rw [hword]
      exact ((Bool.and_eq_true _ _).mp hvalue).1
  · intro henabled
    exact Or.inl henabled

/-- What a call does to the set of enabled interrupts. -/
theorem isInterruptEnabled_call (k : ℕ) (n : Nvic) (call : InterruptCall) :
    isInterruptEnabled k (n.call call) = true ↔
      isInterruptEnabled k n = true ∨ call = .enable k := by
  cases call with
  | enable i =>
    rw [Nvic.call, isInterruptEnabled_enableInterrupt, InterruptCall.enable.injEq]
  | disable i =>
    rw [Nvic.call, isInterruptEnabled_disableInterrupt]
    simp

/-- **Run lemma.** After calls those interrupts are enabled that were so before, and those
that a call has enabled. -/
theorem isInterruptEnabled_foldl (k : ℕ) (n : Nvic) (calls : List InterruptCall) :
    isInterruptEnabled k (calls.foldl Nvic.call n) = true ↔
      isInterruptEnabled k n = true ∨ .enable k ∈ calls := by
  induction calls generalizing n with
  | nil => simp
  | cons call calls ih =>
    rw [List.foldl_cons, ih, isInterruptEnabled_call, List.mem_cons, or_assoc,
      eq_comm (a := call)]

/-- A call does not change the state of another interrupt. -/
theorem isInterruptEnabled_other {k : ℕ} {call : InterruptCall} (h : k ≠ call.interrupt)
    (n : Nvic) : isInterruptEnabled k (n.call call) = isInterruptEnabled k n := by
  rw [Bool.eq_iff_iff, isInterruptEnabled_call]
  refine or_iff_left fun heq => h ?_
  rw [heq]
  rfl

/-- An interrupt that the last call for it enables has been enabled by a call. -/
theorem enable_mem_of_lastWrite {k : ℕ} {calls : List InterruptCall}
    (h : lastWrite InterruptCall.means k calls = some true) : .enable k ∈ calls := by
  obtain ⟨before, call, after, rfl, hcall, -⟩ := (lastWrite_eq_some_iff _).mp h
  rcases call with i | i
  · rw [InterruptCall.means] at hcall
    split_ifs at hcall with heq
    subst heq
    exact List.mem_append_right _ List.mem_cons_self
  · rw [InterruptCall.means] at hcall
    split_ifs at hcall
    cases hcall

/-- An interrupt that no call is for has not been enabled by a call. -/
theorem enable_notMem_of_lastWrite {k : ℕ} {calls : List InterruptCall}
    (h : lastWrite InterruptCall.means k calls = none) : .enable k ∉ calls := by
  intro hmem
  have hnone := (lastWrite_eq_none_iff _).mp h _ hmem
  rw [InterruptCall.means, if_pos rfl] at hnone
  cases hnone

/-- **When the enabled interrupts are a faithful set.** Calls are faithful if and only if
every interrupt whose last call disables it was not enabled before, and no call has
enabled it. -/
theorem faithful_iff (n : Nvic) (calls : List InterruptCall) :
    Faithful n calls ↔ ∀ k, lastWrite InterruptCall.means k calls = some false →
      isInterruptEnabled k n = false ∧ .enable k ∉ calls := by
  have hlast (k : ℕ) : (isInterruptEnabled k (calls.foldl Nvic.call n) =
      (lastWrite InterruptCall.means k calls).getD (isInterruptEnabled k n)) ↔
        (lastWrite InterruptCall.means k calls = some false →
          isInterruptEnabled k n = false ∧ .enable k ∉ calls) := by
    rw [Bool.eq_iff_iff, isInterruptEnabled_foldl]
    rcases hmeans : lastWrite InterruptCall.means k calls with _ | _ | _
    · have hnever := enable_notMem_of_lastWrite hmeans
      exact iff_of_true (or_iff_left hnever) fun h => nomatch h
    · simp
    · have henabled := enable_mem_of_lastWrite hmeans
      exact iff_of_true (iff_of_true (Or.inr henabled) rfl) fun h => nomatch h
  constructor
  · intro h k
    exact (hlast k).mp (h.last k)
  · intro h
    refine ⟨fun k => (hlast k).mpr (h k), ?_⟩
    rintro before call after - k hk
    rw [List.foldl_append]
    exact isInterruptEnabled_other hk _

/-- The interrupt of the SDIO interface is enabled and then disabled, and it is enabled all
the same. -/
theorem not_faithful : ¬ ∀ n calls, Faithful n calls := by
  intro hall
  have hlast := (hall ⟨fun _ => 0⟩ [.enable 49, .disable 49]).last 49
  revert hlast
  decide +kernel

end WifiMcu.System
