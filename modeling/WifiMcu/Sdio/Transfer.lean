import WifiMcu.Library.Memory
import WifiMcu.Library.Transition

/-!
# SDIO transfers

A transfer runs in the task of its caller, interleaved with two interrupt handlers.
The SDIO handler starts the DMA stream when the command has been answered, or posts
to a semaphore when something went wrong; the DMA handler posts to the semaphore when
the data has been moved. What the hardware puts into `STA` and `RESP1` is up to it.
The steps of the caller are the ones between which an interrupt makes a difference.
-/

namespace WifiMcu.Sdio

open Memory

/-- The flags of `SDIO->STA` that the code looks at. -/
def staCcrcfail : BitVec 32 := 0x00000001

@[inherit_doc staCcrcfail] def staDcrcfail : BitVec 32 := 0x00000002

@[inherit_doc staCcrcfail] def staCtimeout : BitVec 32 := 0x00000004

@[inherit_doc staCcrcfail] def staDtimeout : BitVec 32 := 0x00000008

@[inherit_doc staCcrcfail] def staTxunderr : BitVec 32 := 0x00000010

@[inherit_doc staCcrcfail] def staRxoverr : BitVec 32 := 0x00000020

@[inherit_doc staCcrcfail] def staCmdrend : BitVec 32 := 0x00000040

@[inherit_doc staCcrcfail] def staCmdsent : BitVec 32 := 0x00000080

@[inherit_doc staCcrcfail] def staStbiterr : BitVec 32 := 0x00000200

@[inherit_doc staCcrcfail] def staCmdact : BitVec 32 := 0x00000800

@[inherit_doc staCcrcfail] def staTxact : BitVec 32 := 0x00001000

@[inherit_doc staCcrcfail] def staRxact : BitVec 32 := 0x00002000

@[inherit_doc staCcrcfail] def staSdioit : BitVec 32 := 0x00400000

/-- `SDIOAllErrorsMask`. -/
def sdioAllErrorsMask : BitVec 32 :=
  staCcrcfail ||| staDcrcfail ||| staCtimeout ||| staDtimeout ||| staTxunderr ||| staRxoverr |||
    staStbiterr

/-- The errors that `SDIO_IRQHandler` checks. -/
def irqErrorsMask : BitVec 32 :=
  staCcrcfail ||| staDcrcfail ||| staTxunderr ||| staRxoverr ||| staStbiterr

/-- The interrupt enable bits of `SDIO->MASK`. They are where the flags are in `STA`. -/
def maskCmdrendie : BitVec 32 := staCmdrend

@[inherit_doc maskCmdrendie] def maskCmdsentie : BitVec 32 := staCmdsent

@[inherit_doc maskCmdrendie] def maskSdioitie : BitVec 32 := staSdioit

/-- The bits of `SDIO->CMD` besides the command: `WAITRESP_0` and `CPSMEN`. -/
def cmdWaitresp0 : BitVec 32 := 0x0040

@[inherit_doc cmdWaitresp0] def cmdCpsmen : BitVec 32 := 0x0400

/-- The bits of `SDIO->DCTRL`. -/
def dctrlDten : BitVec 32 := 0x0001

@[inherit_doc dctrlDten] def dctrlDtdir : BitVec 32 := 0x0002

@[inherit_doc dctrlDten] def dctrlDmaen : BitVec 32 := 0x0008

@[inherit_doc dctrlDten] def dctrlDblocksize0 : BitVec 32 := 0x0010

@[inherit_doc dctrlDten] def dctrlRwmod : BitVec 32 := 0x0400

@[inherit_doc dctrlDten] def dctrlSdioen : BitVec 32 := 0x0800

/-- The enable bit of `DMA2_Stream3->CR`. -/
def dmaSxcrEn : BitVec 32 := 0x00000001

@[inherit_doc dmaSxcrEn] def dmaSxcrTcie : BitVec 32 := 0x00000010

/-- The bits of `DMA2_Stream3->CR` that `SetupDMATransfer` sets for both directions, but
for `TCIE`: channel 4, memory increment, word size on both sides, priority 3, bursts
of four on both sides and peripheral flow control. -/
def dmaSxcrMode : BitVec 32 :=
  0x02000000 * 4 ||| 0x00000400 ||| 0x00000800 * 2 ||| 0x00002000 * 2 ||| 0x00010000 * 3 |||
    0x00200000 ||| 0x00800000 ||| 0x00000020

@[inherit_doc dmaSxcrEn] def dmaSxcrDir0 : BitVec 32 := 0x00000040

/-- `MaxNormalCommandWaitLoops`. -/
def maxNormalCommandWaitLoops : ℕ := 100000

/-- `MaxDMACommandWaitLoops`. -/
def maxDmaCommandWaitLoops : ℕ := 100000

/-- `MaxTransferRetries`. -/
def maxTransferRetries : ℕ := 5

/-- `SDIO_CMD_53`. -/
def sdioCmd53 : ℕ := 53

/-- `wwd_bus_transfer_direction_t`. -/
inductive Direction
  | read | write
  deriving DecidableEq

/-- `sdio_transfer_mode_t`. -/
inductive Mode
  | byte | block
  deriving DecidableEq

/-- The results of `host_platform_sdio_transfer`. -/
inductive Result
  | success | timeout | retriesExceeded
  deriving DecidableEq

/-- The parameters of `host_platform_sdio_transfer`. Of the pointer `response` it matters
whether it is given. -/
structure Request where
  direction : Direction
  command : ℕ
  mode : Mode
  blockSize : ℕ
  argument : BitVec 32
  dataSize : ℕ
  responseNeeded : Bool
  hasResponse : Bool

/-- Where the caller is. -/
inductive Pc
  /-- Before the first call, or after a call with its result. -/
  | returned (result : Option Result)
  /-- At the label `retry`. -/
  | retry
  /-- At the start of an attempt of CMD53. -/
  | attempt
  /-- About to enable the interrupts. -/
  | enable
  /-- About to set up the DMA controller. -/
  | setup
  /-- About to send CMD53. -/
  | send
  /-- Waiting for the semaphore. -/
  | wait
  /-- About to look at `SDIOTransferFailed`. -/
  | check
  /-- About to look at the timeout flags. -/
  | status
  /-- In the loop that waits for the hardware to finish. -/
  | poll
  /-- About to copy the data. -/
  | finish
  /-- About to send another command. -/
  | sendOther
  /-- In the loop that waits for another command. -/
  | pollOther
  /-- About to return the response. -/
  | respond
  deriving DecidableEq

/-- Where a token in the semaphore comes from: an error or the completion of a run of the
DMA stream. -/
inductive Source
  | error | dma
  deriving DecidableEq

/-- A token in the semaphore, with the attempt whose command it answers. -/
structure Token where
  source : Source
  attempt : ℕ
  deriving DecidableEq

/-- The buffers that the DMA stream may be set up for. -/
inductive Buffer
  | receiveBuffer | data
  deriving DecidableEq

/-- The hardware, the static variables and the caller. `attempt` numbers the attempts of
CMD53, and `commanded` is its value at the last write of `SDIO->CMD`: the signals of the
hardware answer the command written there, and are numbered by it. `runs` are the runs of
the DMA stream whose interrupt is still to come, and `taken` is the token that the attempt
has taken from the semaphore. -/
structure State where
  mask : BitVec 32
  arg : BitVec 32
  cmd : BitVec 32
  dtimer : BitVec 32
  dlen : BitVec 32
  dctrl : BitVec 32
  cr : BitVec 32
  m0ar : Buffer
  runs : List ℕ
  tokens : List Token
  failed : Bool
  receiveBuffer : ℕ → UInt8
  data : ℕ → UInt8
  response : BitVec 32
  request : Request
  outertries : ℕ
  tries : ℕ
  attempt : ℕ
  commanded : ℕ
  taken : Option Token
  pc : Pc

/-- The state after `host_platform_bus_init`. -/
def State.init : State where
  mask := 0
  arg := 0
  cmd := 0
  dtimer := 0
  dlen := 0
  dctrl := dctrlRwmod
  cr := 0
  m0ar := .data
  runs := []
  tokens := []
  failed := false
  receiveBuffer _ := 0
  data _ := 0
  response := 0
  request := ⟨.write, 0, .byte, 1, 0, 0, false, false⟩
  outertries := 0
  tries := 0
  attempt := 0
  commanded := 0
  taken := none
  pc := .returned none

/-- Some of the given bits are set. -/
def hasBits (x bits : BitVec 32) : Bool := x &&& bits ≠ 0

/-- `DMA2_Stream3` is enabled. -/
def State.enabled (s : State) : Bool := hasBits s.cr dmaSxcrEn

/-- `xSemaphoreGiveFromISR`. The semaphore counts up to `0xffffffff`. -/
def give (token : Token) (s : State) : State :=
  if s.tokens.length < 0xffffffff then { s with tokens := s.tokens ++ [token] } else s

/-- Set the enable bit of the stream. A stream that is enabled already just goes on. -/
def startStream (s : State) : State :=
  if s.enabled then s else { s with cr := s.cr ||| dmaSxcrEn, runs := s.runs ++ [s.commanded] }

/-- The handling of an error in `SDIO_IRQHandler`. -/
def signalError (s : State) : State := give ⟨.error, s.commanded⟩ { s with failed := true }

/-- `SDIO_IRQHandler`. An interrupt of the card is passed on to another task. -/
def sdioIrqHandler (intstatus resp1 : BitVec 32) (s : State) : State :=
  let s := if hasBits intstatus irqErrorsMask then signalError s else s
  if hasBits intstatus (staCmdrend ||| staCmdsent) then
    if hasBits resp1 0x800 then signalError s else startStream s
  else s

/-- `DMA2_Stream3_IRQHandler`, for the oldest run. It ends the stream unless another run
has been started. -/
def dmaIrqHandler (s : State) : Option State :=
  match s.runs with
  | [] => none
  | attempt :: runs =>
    let cr := if runs = [] then s.cr &&& ~~~dmaSxcrEn else s.cr
    some (give ⟨.dma, attempt⟩ { s with runs, cr })

/-- The exponent that the `switch` in `SetupDMATransfer` puts into `DBLOCKSIZE`. -/
def dblocksize : ℕ → BitVec 32
  | 1 => 0
  | 2 => 1
  | 4 => 2
  | 8 => 3
  | 16 => 4
  | 32 => 5
  | 64 => 6
  | 128 => 7
  | 256 => 8
  | 512 => 9
  | 1024 => 10
  | 2048 => 11
  | _ => 0

/-- `SetupDMATransfer`. The stream is not enabled. The registers for the FIFO and for the
address of the peripheral, which get constants, are left out. -/
def setupDmaTransfer (direction : Direction) (blocksize : ℕ) (bytes : Buffer) (length : ℕ)
    (s : State) : State :=
  let dmasize := (length + blocksize - 1) / blocksize * blocksize
  let dctrl := dctrlDten ||| dctrlDmaen ||| dctrlSdioen
  let dctrl := if direction = .read then dctrl ||| dctrlDtdir else dctrl
  let dir := if direction = .write then dmaSxcrDir0 else 0
  { s with
    dtimer := 0xffffffff
    dlen := BitVec.ofNat 32 dmasize
    dctrl := dctrl ||| dctrlDblocksize0 * dblocksize blocksize
    cr := dir ||| dmaSxcrMode ||| dmaSxcrTcie
    m0ar := bytes }

/-- The block size that byte mode is converted to. -/
def byteModeBlockSize (dataSize : ℕ) : ℕ :=
  if dataSize > 256 then 512
  else if dataSize > 128 then 256
  else if dataSize > 64 then 128
  else if dataSize > 32 then 64
  else if dataSize > 16 then 32
  else if dataSize > 8 then 16
  else if dataSize > 4 then 8
  else 4

/-- Convert byte mode to blocks. The variables are changed in place. -/
def convertByteMode (r : Request) : Request :=
  if r.mode = .byte then
    let blockSize := byteModeBlockSize r.dataSize
    let argument := r.argument &&& ~~~0x1ff ||| BitVec.ofNat 32 blockSize &&& 0x1ff
    { r with blockSize, argument }
  else r

/-- The beginning of `host_platform_sdio_transfer`. -/
def enter (request : Request) (data : ℕ → UInt8) (s : State) : State :=
  let response := if request.hasResponse then 0 else s.response
  { s with request, data, response, outertries := 0, cr := 0, pc := .retry }

/-- From the label `retry` to the test of the command. -/
def retryStep (s : State) : State :=
  let s := { s with outertries := s.outertries + 1 }
  if s.outertries > maxTransferRetries then
    { s with mask := maskSdioitie, pc := .returned (some .retriesExceeded) }
  else if s.request.command = sdioCmd53 then
    { s with attempt := s.attempt + 1, taken := none, pc := .attempt }
  else { s with pc := .sendOther }

/-- Enable the interrupts, and convert byte mode to blocks. -/
def enableStep (s : State) : State :=
  { s with
    mask := maskSdioitie ||| maskCmdrendie ||| maskCmdsentie
    request := convertByteMode s.request
    pc := .setup }

/-- Set up the DMA controller for the transfer. -/
def setupStep (s : State) : State :=
  let r := s.request
  let bytes := if r.direction = .read then .receiveBuffer else .data
  { setupDmaTransfer r.direction r.blockSize bytes r.dataSize s with pc := .send }

/-- Write a command to the card, and go on somewhere. -/
def sendCommand (pc : Pc) (s : State) : State :=
  let cmd := BitVec.ofNat 32 s.request.command ||| cmdWaitresp0 ||| cmdCpsmen
  { s with arg := s.request.argument, cmd, commanded := s.attempt, tries := 0, pc }

/-- The wait for the semaphore, if there is a token. -/
def takeStep (s : State) : Option State :=
  match s.tokens with
  | [] => none
  | token :: tokens => some { s with tokens, taken := some token, pc := .check }

/-- One round of the loop that waits for the hardware to finish. -/
def pollStep (sta : BitVec 32) (s : State) : State :=
  if hasBits sta sdioAllErrorsMask then { s with pc := .retry }
  else if !hasBits sta (staTxact ||| staRxact) then { s with pc := .finish }
  else
    let tries := s.tries + 1
    { s with tries, pc := if tries ≥ maxDmaCommandWaitLoops then .retry else .poll }

/-- Copy the data that has been read, and disable the interrupts. -/
def finishStep (s : State) : State :=
  let received := readBlock s.receiveBuffer 0 s.request.dataSize
  let data := if s.request.direction = .read then writeBlock s.data 0 received else s.data
  { s with data, mask := maskSdioitie, pc := .respond }

/-- One round of the loop that waits for another command. -/
def pollOtherStep (sta : BitVec 32) (s : State) : State :=
  if s.request.responseNeeded && hasBits sta sdioAllErrorsMask then { s with pc := .retry }
  else if !hasBits sta staCmdact then { s with pc := .respond }
  else
    let tries := s.tries + 1
    { s with tries, pc := if tries ≥ maxNormalCommandWaitLoops then .retry else .pollOther }

/-- Return the response. -/
def respondStep (resp1 : BitVec 32) (s : State) : State :=
  let response := if s.request.hasResponse then resp1 else s.response
  { s with response, pc := .returned (some .success) }

/-- One step of the caller, with what it reads from `STA` or `RESP1` in this step. -/
def callerStep (sta resp1 : BitVec 32) (s : State) : Option State :=
  match s.pc with
  | .returned _ => none
  | .retry => some (retryStep s)
  | .attempt => some { s with failed := false, pc := .enable }
  | .enable => some (enableStep s)
  | .setup => some (setupStep s)
  | .send => some (sendCommand .wait s)
  | .wait => takeStep s
  | .check => some { s with pc := if s.failed then .retry else .status }
  | .status =>
    let pc := if hasBits sta (staDtimeout ||| staCtimeout) then .retry else .poll
    some { s with tries := 0, pc }
  | .poll => some (pollStep sta s)
  | .finish => some (finishStep s)
  | .sendOther => some (sendCommand .pollOther s)
  | .pollOther => some (pollOtherStep sta s)
  | .respond => some (respondStep resp1 s)

/-- The wait for the semaphore times out. -/
def timeoutStep (s : State) : Option State :=
  if s.pc = .wait ∧ s.tokens = [] then
    some { s with mask := maskSdioitie, pc := .returned (some .timeout) }
  else none

/-- What happens: a call of `host_platform_sdio_transfer`, a step of the caller, the end
of its wait, one of the two interrupts, or the DMA writes to the receive buffer. -/
inductive Action
  | call (request : Request) (data : ℕ → UInt8)
  | caller (sta resp1 : BitVec 32)
  | timeout
  | sdioIrq (sta resp1 : BitVec 32)
  | dmaIrq
  | receive (receiveBuffer : ℕ → UInt8)

/-- One step. The SDIO interrupt comes whenever a flag that `MASK` enables is set. -/
def step (s : State) : Action → Option State
  | .call request data =>
    match s.pc with
    | .returned _ => some (enter request data s)
    | _ => none
  | .caller sta resp1 => callerStep sta resp1 s
  | .timeout => timeoutStep s
  | .sdioIrq sta resp1 =>
    if hasBits (sta &&& s.mask) (staCmdrend ||| staCmdsent ||| staSdioit) then
      some (sdioIrqHandler sta resp1 s)
    else none
  | .dmaIrq => dmaIrqHandler s
  | .receive receiveBuffer =>
    if s.enabled ∧ s.m0ar = .receiveBuffer then some { s with receiveBuffer } else none

end WifiMcu.Sdio
