import WifiMcu.Sdio.Returns
import WifiMcu.Library.Bits
import WifiMcu.Library.Rounding
import Mathlib.Tactic.IntervalCases

/-!
# The sizes of a transfer

The card gets the length of a transfer with the argument of the command, the SDIO
controller gets it as a number of bytes and as the exponent of the block size. All of them
are computed from the parameters of the call, some of which byte mode replaces. An attempt
that finds them replaced already programs the same values again.
-/

namespace WifiMcu.Sdio

open Transition Bits Rounding

/-! ### What is programmed for a request -/

/-- The value that `SetupDMATransfer` writes to `DLEN`. -/
def Request.dlen (r : Request) : BitVec 32 :=
  (setupStep { State.init with request := r }).dlen

/-- The value that `SetupDMATransfer` writes to `DCTRL`. -/
def Request.dctrl (r : Request) : BitVec 32 :=
  (setupStep { State.init with request := r }).dctrl

/-- The sizes of a call of CMD53: those of byte mode, and the block sizes of block mode. -/
structure ValidSize (r : Request) : Prop where
  byte : r.mode = .byte → 1 ≤ r.dataSize ∧ r.dataSize ≤ 512
  block : r.mode = .block → (∃ k ≤ 11, r.blockSize = 2 ^ k) ∧ r.dataSize < 65536

/-- The block size, the length, the data control register and the argument agree on the
size of a request. -/
structure TransferSizes (r : Request) (blockSize : ℕ) (dlen dctrl arg : BitVec 32) : Prop where
  byte_blockSize : r.mode = .byte →
    IsLeast {b | (∃ k, b = 2 ^ k) ∧ max 4 r.dataSize ≤ b} blockSize
  block_blockSize : r.mode = .block → blockSize = r.blockSize
  length : IsLeast {d | blockSize ∣ d ∧ r.dataSize ≤ d} dlen.toNat
  byte_length : r.mode = .byte → dlen.toNat = blockSize
  exponent : 2 ^ field dctrl 4 4 = blockSize
  byte_argument : r.mode = .byte →
    (if field arg 0 9 = 0 then 512 else field arg 0 9) = blockSize ∧
      ∀ i, 9 ≤ i → arg.getLsbD i = r.argument.getLsbD i
  block_argument : r.mode = .block → arg = r.argument

/-- The comparisons choose the least power of two that is large enough. -/
theorem isLeast_byteModeBlockSize {n : ℕ} (hn : n ≤ 512) :
    IsLeast {b | (∃ k, b = 2 ^ k) ∧ max 4 n ≤ b} (byteModeBlockSize n) := by
  unfold byteModeBlockSize
  split_ifs
  · exact isLeast_two_pow (k := 8) (by omega) (by omega)
  · exact isLeast_two_pow (k := 7) (by omega) (by omega)
  · exact isLeast_two_pow (k := 6) (by omega) (by omega)
  · exact isLeast_two_pow (k := 5) (by omega) (by omega)
  · exact isLeast_two_pow (k := 4) (by omega) (by omega)
  · exact isLeast_two_pow (k := 3) (by omega) (by omega)
  · exact isLeast_two_pow (k := 2) (by omega) (by omega)
  · exact isLeast_two_pow (k := 1) (by omega) (by omega)

/-- The block sizes of byte mode are powers of two up to 512. -/
theorem byteModeBlockSize_eq (n : ℕ) : ∃ k, 2 ≤ k ∧ k ≤ 9 ∧ byteModeBlockSize n = 2 ^ k := by
  unfold byteModeBlockSize
  split_ifs
  · exact ⟨9, by decide, by decide, rfl⟩
  · exact ⟨8, by decide, by decide, rfl⟩
  · exact ⟨7, by decide, by decide, rfl⟩
  · exact ⟨6, by decide, by decide, rfl⟩
  · exact ⟨5, by decide, by decide, rfl⟩
  · exact ⟨4, by decide, by decide, rfl⟩
  · exact ⟨3, by decide, by decide, rfl⟩
  · exact ⟨2, by decide, by decide, rfl⟩

/-- The `switch` of `SetupDMATransfer` writes the exponent of a power of two. -/
theorem field_dctrl {r : Request} {k : ℕ} (hk : k ≤ 11) (hblock : r.blockSize = 2 ^ k) :
    field r.dctrl 4 4 = k := by
  have hfield : ∀ read : Bool, field
      ((if read then (dctrlDten ||| dctrlDmaen ||| dctrlSdioen ||| dctrlDtdir)
        else dctrlDten ||| dctrlDmaen ||| dctrlSdioen) |||
          dctrlDblocksize0 * dblocksize (2 ^ k)) 4 4 = k := by
    interval_cases k <;> decide
  have hcase := hfield (decide (r.direction = .read))
  rw [← hblock] at hcase
  cases hdirection : r.direction <;> rw [hdirection] at hcase <;>
    simpa [Request.dctrl, setupStep, setupDmaTransfer, hdirection] using hcase

/-- The length is the number of bytes, rounded up to blocks. -/
theorem toNat_dlen {r : Request} {k : ℕ} (hk : k ≤ 11) (hblock : r.blockSize = 2 ^ k)
    (hsize : r.dataSize < 65536) :
    r.dlen.toNat = (r.dataSize + r.blockSize - 1) / r.blockSize * r.blockSize := by
  have hle : r.blockSize ≤ 2 ^ 11 := hblock ▸ Nat.pow_le_pow_right (by decide) hk
  have hmul := Nat.div_mul_le_self (r.dataSize + r.blockSize - 1) r.blockSize
  have hvalue : r.dlen =
      BitVec.ofNat 32 ((r.dataSize + r.blockSize - 1) / r.blockSize * r.blockSize) := rfl
  rw [hvalue, BitVec.toNat_ofNat, Nat.mod_eq_of_lt (by omega)]

/-- Byte mode only replaces the low nine bits of the argument. -/
theorem getLsbD_convertByteMode {r : Request} (hbyte : r.mode = .byte) (i : ℕ) :
    (convertByteMode r).argument.getLsbD i =
      if i < 9 then (byteModeBlockSize r.dataSize).testBit i else r.argument.getLsbD i := by
  have hmask : (0x1ff : BitVec 32) = BitVec.ofNat 32 (2 ^ 9 - 1) := rfl
  rw [convertByteMode, if_pos hbyte]
  by_cases hi : i < 32
  · rw [BitVec.getLsbD_or, getLsbD_and_not, BitVec.getLsbD_and, hmask, BitVec.getLsbD_ofNat,
      BitVec.getLsbD_ofNat, Nat.testBit_two_pow_sub_one, decide_eq_true hi, Bool.true_and,
      Bool.true_and]
    split_ifs with hlow <;> simp [hlow]
  · have hlow : ¬ i < 9 := by omega
    rw [if_neg hlow, BitVec.getLsbD_of_ge _ i (by omega), BitVec.getLsbD_of_ge _ i (by omega)]

/-- The low nine bits of the argument encode the block size, 512 as 0. -/
theorem field_argument {r : Request} (hbyte : r.mode = .byte) :
    (if field (convertByteMode r).argument 0 9 = 0 then 512
      else field (convertByteMode r).argument 0 9) = byteModeBlockSize r.dataSize := by
  have hfield : field (convertByteMode r).argument 0 9 = byteModeBlockSize r.dataSize % 2 ^ 9 := by
    refine field_eq (Nat.mod_lt _ (by decide)) fun i hi => ?_
    rw [Nat.zero_add, getLsbD_convertByteMode hbyte, if_pos hi, Nat.testBit_mod_two_pow,
      decide_eq_true hi, Bool.true_and]
  obtain ⟨k, hk, hk', heq⟩ := byteModeBlockSize_eq r.dataSize
  rw [hfield, heq]
  interval_cases k <;> decide

/-- **Sizes of a request.** The values that are programmed for it agree. -/
theorem transferSizes_convertByteMode {r : Request} (h : ValidSize r) :
    TransferSizes r (convertByteMode r).blockSize (convertByteMode r).dlen
      (convertByteMode r).dctrl (convertByteMode r).argument := by
  have hsame := sameRequest_convertByteMode r
  cases hmode : r.mode with
  | byte =>
    obtain ⟨hpos, hle⟩ := h.byte hmode
    obtain ⟨k, -, hk, heq⟩ := byteModeBlockSize_eq r.dataSize
    have hblock : (convertByteMode r).blockSize = byteModeBlockSize r.dataSize := by
      rw [convertByteMode, if_pos hmode]
    have hleast := isLeast_byteModeBlockSize hle
    have hdlen := toNat_dlen (Nat.le_trans hk (by decide)) (hblock.trans heq)
      (by rw [hsame.dataSize]; omega)
    rw [hsame.dataSize] at hdlen
    have hle' : r.dataSize ≤ (convertByteMode r).blockSize :=
      hblock ▸ (Nat.le_max_right _ _).trans hleast.1.2
    have hnot : r.mode ≠ .block := by
      rw [hmode]
      decide
    refine ⟨fun _ => hblock ▸ hleast, fun hother => absurd hother hnot, ?_, ?_, ?_, ?_,
      fun hother => absurd hother hnot⟩
    · rw [hdlen]
      exact isLeast_multiple (Nat.lt_of_lt_of_le hpos hle') _
    · intro _
      rw [hdlen, multiple_eq_self hpos hle']
    · rw [field_dctrl (Nat.le_trans hk (by decide)) (hblock.trans heq), hblock, heq]
    · intro _
      refine ⟨hblock ▸ field_argument hmode, fun i hi => ?_⟩
      rw [getLsbD_convertByteMode hmode, if_neg (by omega)]
  | block =>
    obtain ⟨⟨k, hk, hblock⟩, hsize⟩ := h.block hmode
    have hnot : r.mode ≠ .byte := by
      rw [hmode]
      decide
    have hkeep : convertByteMode r = r := by
      rw [convertByteMode, if_neg hnot]
    rw [hkeep]
    have hpos : 0 < r.blockSize := hblock ▸ Nat.two_pow_pos k
    refine ⟨fun hother => absurd hother hnot, fun _ => rfl, ?_, fun hother => absurd hother hnot, ?_,
      fun hother => absurd hother hnot, fun _ => rfl⟩
    · rw [toNat_dlen hk hblock hsize]
      exact isLeast_multiple hpos _
    · rw [field_dctrl hk hblock, hblock]

/-- Parameters that byte mode has replaced already are not changed again. -/
theorem convertByteMode_idem (r : Request) :
    convertByteMode (convertByteMode r) = convertByteMode r := by
  by_cases hbyte : r.mode = .byte
  · have hbyte' : (convertByteMode r).mode = .byte := by
      rw [convertByteMode, if_pos hbyte]
      exact hbyte
    have hsize := (sameRequest_convertByteMode r).dataSize
    have hargument : (convertByteMode (convertByteMode r)).argument =
        (convertByteMode r).argument := by
      refine BitVec.eq_of_getLsbD_eq fun i _ => ?_
      rw [getLsbD_convertByteMode hbyte', getLsbD_convertByteMode hbyte, hsize]
      split_ifs <;> rfl
    simp only [convertByteMode, hbyte, if_true] at hargument ⊢
    rw [hargument]
  · rw [convertByteMode, if_neg (by rw [convertByteMode, if_neg hbyte]; exact hbyte)]

/-! ### Attempts -/

/-- How much of an attempt of CMD53 has been programmed at a place of the caller: nothing,
the parameters, the data path, or the command as well. -/
def Pc.phase : Pc → ℕ
  | .setup => 1
  | .send => 2
  | .wait | .check | .status | .poll | .finish => 3
  | _ => 0

/-- What has been programmed for a request. -/
structure Programmed (r : Request) (s : State) : Prop where
  converted : convertByteMode s.request = convertByteMode r
  request : 1 ≤ s.pc.phase → s.request = convertByteMode r
  registers : 2 ≤ s.pc.phase → s.dlen = (convertByteMode r).dlen ∧
    s.dctrl = (convertByteMode r).dctrl
  arg : 3 ≤ s.pc.phase → s.arg = (convertByteMode r).argument

/-- What no interrupt changes of the data path. -/
structure DataPath where
  request : Request
  dlen : BitVec 32
  dctrl : BitVec 32
  arg : BitVec 32
  pc : Pc

/-- What no interrupt changes of the data path in a state. -/
def State.dataPath (s : State) : DataPath := ⟨s.request, s.dlen, s.dctrl, s.arg, s.pc⟩

/-- A token in the semaphore leaves the data path alone. -/
@[simp] theorem dataPath_give (token : Token) (s : State) :
    (give token s).dataPath = s.dataPath := by
  unfold give
  split_ifs <;> rfl

/-- The signal of an error leaves the data path alone. -/
@[simp] theorem dataPath_signalError (s : State) : (signalError s).dataPath = s.dataPath :=
  dataPath_give _ _

/-- `SDIO_IRQHandler` leaves the data path alone. -/
theorem dataPath_sdioIrqHandler (intstatus resp1 : BitVec 32) (s : State) :
    (sdioIrqHandler intstatus resp1 s).dataPath = s.dataPath := by
  have hstart (u : State) : (startStream u).dataPath = u.dataPath := by
    unfold startStream
    split_ifs <;> rfl
  unfold sdioIrqHandler
  dsimp only
  split_ifs <;> simp [hstart]

/-- What has been programmed only depends on the data path. -/
theorem Programmed.congr {r : Request} {s s' : State} (h : Programmed r s)
    (heq : s'.dataPath = s.dataPath) : Programmed r s' := by
  have hrequest : s'.request = s.request := congrArg DataPath.request heq
  have hdlen : s'.dlen = s.dlen := congrArg DataPath.dlen heq
  have hdctrl : s'.dctrl = s.dctrl := congrArg DataPath.dctrl heq
  have harg : s'.arg = s.arg := congrArg DataPath.arg heq
  have hpc : s'.pc = s.pc := congrArg DataPath.pc heq
  constructor
  · rw [hrequest]
    exact h.converted
  · rw [hpc, hrequest]
    exact h.request
  · rw [hpc, hdlen, hdctrl]
    exact h.registers
  · rw [hpc, harg]
    exact h.arg

/-- A step behind the command of the attempt keeps what has been programmed, or leaves the
attempt. -/
theorem Programmed.goOn {r : Request} {s s' : State} (h : Programmed r s)
    (hkeep : s'.request = s.request ∧ s'.dlen = s.dlen ∧ s'.dctrl = s.dctrl ∧ s'.arg = s.arg)
    (hphase : s'.pc.phase ≤ s.pc.phase) : Programmed r s' := by
  obtain ⟨hrequest, hdlen, hdctrl, harg⟩ := hkeep
  constructor
  · rw [hrequest]
    exact h.converted
  · intro hle
    rw [hrequest]
    exact h.request (hle.trans hphase)
  · intro hle
    rw [hdlen, hdctrl]
    exact h.registers (hle.trans hphase)
  · intro hle
    rw [harg]
    exact h.arg (hle.trans hphase)

/-- Outside of an attempt it only matters that the parameters are as before. -/
theorem Programmed.outside {r : Request} {s s' : State} (h : Programmed r s)
    (hrequest : s'.request = s.request) (hphase : s'.pc.phase = 0) : Programmed r s' := by
  refine ⟨hrequest ▸ h.converted, fun hle => ?_, fun hle => ?_, fun hle => ?_⟩
  · omega
  · omega
  · omega

/-- **Step lemma.** A step of the caller programs what the request asks for, in whatever
attempt it is. -/
theorem Programmed.callerStep {r : Request} {s s' : State} {sta resp1 : BitVec 32}
    (h : Programmed r s) (hstep : callerStep sta resp1 s = some s') : Programmed r s' := by
  unfold Sdio.callerStep at hstep
  cases hpc : s.pc
  all_goals rw [hpc] at hstep; dsimp only at hstep
  case returned => cases hstep
  case wait =>
    unfold takeStep at hstep
    split at hstep
    · cases hstep
    · obtain rfl := Option.some.inj hstep
      exact h.goOn ⟨rfl, rfl, rfl, rfl⟩ (by rw [hpc]; exact Nat.le_refl 3)
  all_goals obtain rfl := Option.some.inj hstep
  case retry =>
    unfold retryStep
    dsimp only
    split_ifs
    · exact h.outside rfl rfl
    · exact h.outside rfl rfl
    · exact h.outside rfl rfl
  case attempt => exact h.outside rfl rfl
  case enable =>
    refine ⟨?_, fun _ => h.converted, fun hle => ?_, fun hle => ?_⟩
    · exact (convertByteMode_idem s.request).trans h.converted
    · exact absurd (show 2 ≤ 1 from hle) (by decide)
    · exact absurd (show 3 ≤ 1 from hle) (by decide)
  case setup =>
    have hrequest := h.request (by rw [hpc]; exact Nat.le_refl 1)
    refine ⟨h.converted, fun _ => hrequest, fun _ => ?_, fun hle => ?_⟩
    · rw [← hrequest]
      exact ⟨rfl, rfl⟩
    · exact absurd (show 3 ≤ 2 from hle) (by decide)
  case send =>
    have hrequest := h.request (by rw [hpc]; decide)
    have hregisters := h.registers (by rw [hpc]; decide)
    exact ⟨h.converted, fun _ => hrequest, fun _ => hregisters,
      fun _ => congrArg Request.argument hrequest⟩
  case check =>
    split_ifs
    · exact h.outside rfl rfl
    · exact h.goOn ⟨rfl, rfl, rfl, rfl⟩ (by rw [hpc]; exact Nat.le_refl 3)
  case status =>
    split_ifs
    · exact h.outside rfl rfl
    · exact h.goOn ⟨rfl, rfl, rfl, rfl⟩ (by rw [hpc]; exact Nat.le_refl 3)
  case poll =>
    unfold pollStep
    dsimp only
    split_ifs
    · exact h.outside rfl rfl
    · exact h.goOn ⟨rfl, rfl, rfl, rfl⟩ (by rw [hpc]; exact Nat.le_refl 3)
    · exact h.outside rfl rfl
    · exact h.goOn ⟨rfl, rfl, rfl, rfl⟩ (by rw [hpc])
  case finish => exact h.outside rfl rfl
  case sendOther => exact h.outside rfl rfl
  case pollOther =>
    unfold pollOtherStep
    dsimp only
    split_ifs
    · exact h.outside rfl rfl
    · exact h.outside rfl rfl
    · exact h.outside rfl rfl
    · exact h.outside rfl rfl
  case respond => exact h.outside rfl rfl

/-- **Step lemma.** Every step during a call keeps what has been programmed. -/
theorem Programmed.step {r : Request} {s s' : State} {a : Action} (h : Programmed r s)
    (hcall : a.isCall = false) (hstep : step s a = some s') : Programmed r s' := by
  cases a with
  | call request data => cases hcall
  | caller sta resp1 => exact h.callerStep hstep
  | timeout =>
    rw [Sdio.step, timeoutStep] at hstep
    split_ifs at hstep
    obtain rfl := Option.some.inj hstep
    exact h.outside rfl rfl
  | sdioIrq sta resp1 =>
    rw [Sdio.step] at hstep
    split_ifs at hstep
    obtain rfl := Option.some.inj hstep
    exact h.congr (dataPath_sdioIrqHandler sta resp1 s)
  | dmaIrq =>
    rw [Sdio.step, dmaIrqHandler] at hstep
    split at hstep
    · cases hstep
    · obtain rfl := Option.some.inj hstep
      exact h.congr (dataPath_give _ _)
  | receive receiveBuffer =>
    rw [Sdio.step] at hstep
    split_ifs at hstep
    obtain rfl := Option.some.inj hstep
    exact h.congr rfl

/-- At the beginning of a call nothing has been programmed. -/
theorem programmed_call {s t : State} {request : Request} {data : ℕ → UInt8}
    (hcall : step s (.call request data) = some t) : Programmed request t := by
  obtain ⟨-, hrequest, hretry, -⟩ := at_call hcall
  have hphase : t.pc.phase = 0 := by rw [hretry]; rfl
  refine ⟨by rw [hrequest], fun hle => ?_, fun hle => ?_, fun hle => ?_⟩
  · omega
  · omega
  · omega

/-- **Sizes of a transfer.** The block size, the length, the data control register and the
argument that belong to the size of a request are programmed with every attempt, whatever
happens in between: the registers of the data path when the caller goes on to send the
command, and the argument when it has sent it. -/
theorem transfer_sizes {s t : State} {request : Request} {data : ℕ → UInt8}
    (hcall : step s (.call request data) = some t) (hsize : ValidSize request) :
    ∃ blockSize dlen dctrl arg, TransferSizes request blockSize dlen dctrl arg ∧
      ∀ (as : List Action) (s' : State), (∀ a ∈ as, a.isCall = false) → run step t as = some s' →
        (2 ≤ s'.pc.phase → s'.dlen = dlen ∧ s'.dctrl = dctrl) ∧
          (3 ≤ s'.pc.phase → s'.arg = arg) := by
  refine ⟨_, _, _, _, transferSizes_convertByteMode hsize, fun as s' hduring hrun => ?_⟩
  have hguard : Along step (fun _ a => a.isCall = false) t as :=
    along_of_forall (fun a ha _ => hduring a ha) t
  have hprogrammed : Programmed request s' :=
    hguard.invariant (fun _ _ _ h hcall hstep => h.step hcall hstep) (programmed_call hcall) hrun
  exact ⟨hprogrammed.registers, hprogrammed.arg⟩

/-- The beginning of a read of four bytes, up to the wait of its second attempt. -/
def secondAttempt : List Action := retriedRead.take 13

/-- A read of four bytes programs the same sizes again with its second attempt. -/
theorem transfer_sizes_retried : ∃ t s' blockSize dlen dctrl arg,
    step State.init (.call readRequest fun _ => 0) = some t ∧
      run step t secondAttempt = some s' ∧ s'.pc = .wait ∧ s'.outertries = 2 ∧
      TransferSizes readRequest blockSize dlen dctrl arg ∧
      s'.dlen = dlen ∧ s'.dctrl = dctrl ∧ s'.arg = arg := by
  have hwait : ((step State.init (.call readRequest fun _ => 0)).bind fun t =>
      (run step t secondAttempt).map fun s' => (s'.pc, s'.outertries)) = some (.wait, 2) := by
    decide +kernel
  obtain ⟨t, hcall, hmap⟩ := Option.bind_eq_some_iff.mp hwait
  obtain ⟨s', hrun, hpair⟩ := Option.map_eq_some_iff.mp hmap
  obtain ⟨hpc, htries⟩ := Prod.mk.inj hpair
  have hsize : ValidSize readRequest := ⟨fun _ => by decide, fun hblock => by cases hblock⟩
  obtain ⟨blockSize, dlen, dctrl, arg, hsizes, hall⟩ := transfer_sizes hcall hsize
  have hduring : ∀ a ∈ secondAttempt, a.isCall = false := by
    simp [secondAttempt, retriedRead, Action.isCall]
  obtain ⟨hregisters, harg⟩ := hall secondAttempt s' hduring hrun
  have hphase : s'.pc.phase = 3 := by rw [hpc]; rfl
  obtain ⟨hdlen, hdctrl⟩ := hregisters (by omega)
  exact ⟨t, s', blockSize, dlen, dctrl, arg, hcall, hrun, hpc, htries, hsizes, hdlen, hdctrl,
    harg (by omega)⟩

end WifiMcu.Sdio
