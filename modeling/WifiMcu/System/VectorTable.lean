import Mathlib.Logic.Function.Basic
import Mathlib.Data.Int.Notation
import WifiMcu.Library.LastWrite
import WifiMcu.Library.Transition

/-!
# The interrupt vector table

The first call that installs or removes an interrupt handler copies the table from flash
to SRAM and makes `VTOR` point to the copy. Nothing keeps an interrupt from coming in
between, whose handler may call the same functions. A call that has been interrupted
while it copies goes on to copy entries over those that have been installed meanwhile.
This is the only way in which the table can go wrong.
-/

namespace WifiMcu.System

open LastWrite Transition

/-- The microcontrollers that are supported. -/
inductive Mcu
  | stm32f407xx | stm32f411xE | stm32f429xx | stm32f446xx
  deriving DecidableEq

/-- `NumberOfInterruptTableEntries`. -/
def Mcu.numberOfInterruptTableEntries : Mcu → ℕ
  | .stm32f407xx => 98
  | .stm32f411xE => 102
  | .stm32f429xx => 107
  | .stm32f446xx => 113

variable {H : Type}

/-- A call of `InstallInterruptHandler` or `RemoveInterruptHandler`, with its arguments. -/
inductive Request (H : Type)
  | install (interrupt : ℤ) (handler : H)
  | remove (interrupt : ℤ) (handler : H)

/-- The interrupt of a call. -/
def Request.interrupt : Request H → ℤ
  | .install interrupt _ => interrupt
  | .remove interrupt _ => interrupt

/-- The index of the entry of the interrupt. -/
def Request.entry (r : Request H) : ℕ := (r.interrupt + 16).toNat

/-- The handler that a call writes to the entry. -/
def Request.written (defaultHandler : H) : Request H → H
  | .install _ handler => handler
  | .remove _ _ => defaultHandler

/-- The table that `VTOR` points to. -/
inductive Table
  | flash | sram
  deriving DecidableEq

/-- Where a call is. -/
inductive Pc
  /-- About to read `VTOR`. -/
  | read
  /-- In the loop of `WritableInterruptTable`, about to copy an entry or to leave the loop. -/
  | copy (i : ℕ)
  /-- About to write the entry of its interrupt to the table in SRAM. -/
  | write
  deriving DecidableEq

/-- A call that has not returned yet. -/
structure Call (H : Type) where
  request : Request H
  pc : Pc

/-- The register, the table in SRAM, in which nothing has been written at first, and the
calls that have not returned, each of which has interrupted the one behind it. The
calls that have returned are kept in order. -/
structure Vectors (H : Type) where
  vtor : Table
  sram : ℕ → Option H
  calls : List (Call H)
  returned : List (Request H)

/-- The state after `InitialiseSystem`. -/
def Vectors.init : Vectors H := ⟨.flash, fun _ => none, [], []⟩

/-- What happens: a call interrupts what is running, or what is running takes a step. -/
inductive VectorAction (H : Type)
  | call (request : Request H)
  | step

section

variable (mcu : Mcu) (flash : ℕ → H) (defaultHandler : H)

/-- One step of the running call. -/
def callStep (call : Call H) (calls : List (Call H)) (s : Vectors H) : Vectors H :=
  match call.pc with
  | .read =>
    let pc := if s.vtor = .flash then .copy 0 else .write
    { s with calls := { call with pc } :: calls }
  | .copy i =>
    if i < mcu.numberOfInterruptTableEntries then
      { s with
        sram := Function.update s.sram i (some (flash i))
        calls := { call with pc := .copy (i + 1) } :: calls }
    else { s with vtor := .sram, calls := { call with pc := .write } :: calls }
  | .write =>
    let handler := call.request.written defaultHandler
    { s with
      sram := Function.update s.sram call.request.entry (some handler)
      calls
      returned := s.returned ++ [call.request] }

/-- One step. A call is for an interrupt that has an entry. -/
def vectorStep (s : Vectors H) : VectorAction H → Option (Vectors H)
  | .call request =>
    if 0 ≤ request.interrupt + 16 ∧
        request.interrupt + 16 < mcu.numberOfInterruptTableEntries then
      some { s with calls := ⟨request, .read⟩ :: s.calls }
    else none
  | .step =>
    match s.calls with
    | [] => none
    | call :: calls => some (callStep mcu flash defaultHandler call calls s)

end

/-- An entry of the table that `VTOR` points to. -/
def Vectors.entry (flash : ℕ → H) (s : Vectors H) (e : ℕ) : Option H :=
  match s.vtor with
  | .flash => some (flash e)
  | .sram => s.sram e

/-- The handler that a call writes to an entry, if it is the one of its interrupt. -/
def Request.writes (defaultHandler : H) (r : Request H) (e : ℕ) : Option H :=
  if r.entry = e then some (r.written defaultHandler) else none

/-- The handler that should be in an entry: that of the last call for it that has
returned, or the one in flash. -/
def Vectors.installed (flash : ℕ → H) (defaultHandler : H) (s : Vectors H) (e : ℕ) : H :=
  (lastWrite (Request.writes defaultHandler) e s.returned).getD (flash e)

/-- What should hold in a state: the table that `VTOR` points to is initialised, and every
entry of it is the one that should be there. -/
def Intact (mcu : Mcu) (flash : ℕ → H) (defaultHandler : H) (s : Vectors H) : Prop :=
  ∀ e < mcu.numberOfInterruptTableEntries, s.entry flash e = some (s.installed flash defaultHandler e)

/-- A step that copies an entry comes before any other handler has been installed there: the
last call for it that has returned, if there is one, has written the handler that is in
flash. -/
def CopiesBefore (mcu : Mcu) (flash : ℕ → H) (defaultHandler : H) (s : Vectors H) :
    VectorAction H → Prop
  | .call _ => True
  | .step => ∀ call ∈ s.calls.head?, ∀ i, call.pc = .copy i → i < mcu.numberOfInterruptTableEntries →
    s.installed flash defaultHandler i = flash i

section

variable {mcu : Mcu} {flash : ℕ → H} {defaultHandler : H}

/-- The invariant. As long as `VTOR` points to flash, what has been copied is as it is in
flash, and no call has got further. After that the table in SRAM is as it should be. -/
structure VectorInv (mcu : Mcu) (flash : ℕ → H) (defaultHandler : H) (s : Vectors H) : Prop where
  copied : s.vtor = .flash → ∀ call ∈ s.calls, ∀ i, call.pc = .copy i →
    ∀ e < i, s.sram e = some (flash e)
  returned : s.vtor = .flash → s.returned = []
  waiting : s.vtor = .flash → ∀ call ∈ s.calls, call.pc ≠ .write
  intact : s.vtor = .sram → ∀ e < mcu.numberOfInterruptTableEntries,
    s.sram e = some (s.installed flash defaultHandler e)

/-- Nothing has been done at first. -/
theorem vectorInv_init : VectorInv mcu flash defaultHandler Vectors.init where
  copied _ _ hcall := nomatch hcall
  returned _ := rfl
  waiting _ _ hcall := nomatch hcall
  intact h := nomatch h

/-- The invariant gives what should hold in a state. -/
theorem VectorInv.intact_entries {s : Vectors H} (h : VectorInv mcu flash defaultHandler s) :
    Intact mcu flash defaultHandler s := by
  intro e he
  unfold Vectors.entry
  cases hvtor : s.vtor with
  | flash =>
    rw [Vectors.installed, h.returned hvtor]
    rfl
  | sram => exact h.intact hvtor e he

/-- Where nothing has returned, every handler is the one in flash. -/
theorem installed_of_nil {s : Vectors H} (h : s.returned = []) (e : ℕ) :
    s.installed flash defaultHandler e = flash e := by
  rw [Vectors.installed, h]
  rfl

/-- The handler of a call that has returned is the one of its entry. -/
theorem lastWrite_returned (returned : List (Request H)) (r : Request H) (e : ℕ) :
    (lastWrite (Request.writes defaultHandler) e (returned ++ [r])).getD (flash e) =
      if r.entry = e then r.written defaultHandler
      else (lastWrite (Request.writes defaultHandler) e returned).getD (flash e) := by
  rw [lastWrite_concat, Request.writes]
  split_ifs <;> rfl

/-- **Calls.** A new call does no harm. -/
theorem VectorInv.call {s : Vectors H} (h : VectorInv mcu flash defaultHandler s)
    (request : Request H) :
    VectorInv mcu flash defaultHandler { s with calls := ⟨request, .read⟩ :: s.calls } := by
  refine ⟨fun hvtor => ?_, h.returned, fun hvtor => ?_, h.intact⟩
  · exact List.forall_mem_cons.mpr ⟨fun i hpc => (nomatch hpc), h.copied hvtor⟩
  · exact List.forall_mem_cons.mpr ⟨fun hpc => (nomatch hpc), h.waiting hvtor⟩

/-- **Reading `VTOR`.** A call begins to copy where nothing has been copied for good, and
otherwise it uses the table in SRAM. -/
theorem VectorInv.read {s : Vectors H} {call : Call H} {calls : List (Call H)}
    (h : VectorInv mcu flash defaultHandler s) (hcalls : s.calls = call :: calls) :
    VectorInv mcu flash defaultHandler { s with
      calls := { call with pc := if s.vtor = .flash then .copy 0 else .write } :: calls } := by
  refine ⟨fun hvtor => ?_, h.returned, fun hvtor => ?_, h.intact⟩
  · have hcopied := h.copied hvtor
    rw [hcalls, List.forall_mem_cons] at hcopied
    refine List.forall_mem_cons.mpr ⟨fun i hpc e he => ?_, hcopied.2⟩
    dsimp only at hpc
    rw [if_pos hvtor] at hpc
    cases hpc
    exact absurd he (Nat.not_lt_zero e)
  · have hwaiting := h.waiting hvtor
    rw [hcalls, List.forall_mem_cons] at hwaiting
    refine List.forall_mem_cons.mpr ⟨fun hpc => ?_, hwaiting.2⟩
    dsimp only at hpc
    rw [if_pos hvtor] at hpc
    cases hpc

/-- **Copying.** A call copies an entry where no other handler has been installed. -/
theorem VectorInv.copy {s : Vectors H} {call : Call H} {calls : List (Call H)} {i : ℕ}
    (h : VectorInv mcu flash defaultHandler s) (hcalls : s.calls = call :: calls)
    (hpc : call.pc = .copy i) (hbefore : s.installed flash defaultHandler i = flash i) :
    VectorInv mcu flash defaultHandler { s with
      sram := Function.update s.sram i (some (flash i))
      calls := { call with pc := .copy (i + 1) } :: calls } := by
  have hupdate (e : ℕ) (hsram : s.sram e = some (flash e)) :
      Function.update s.sram i (some (flash i)) e = some (flash e) := by
    by_cases heq : e = i
    · subst heq
      rw [Function.update_self]
    · rw [Function.update_of_ne heq, hsram]
  refine ⟨fun hvtor => ?_, h.returned, fun hvtor => ?_, fun hvtor => ?_⟩
  · have hcopied := h.copied hvtor
    rw [hcalls, List.forall_mem_cons] at hcopied
    refine List.forall_mem_cons.mpr ⟨fun j hj e he => ?_, fun other hother j hj e he => ?_⟩
    · cases hj
      by_cases heq : e = i
      · subst heq
        exact Function.update_self ..
      · exact hupdate e (hcopied.1 i hpc e (by omega))
    · exact hupdate e (hcopied.2 other hother j hj e he)
  · have hwaiting := h.waiting hvtor
    rw [hcalls, List.forall_mem_cons] at hwaiting
    exact List.forall_mem_cons.mpr ⟨fun hwrite => (nomatch hwrite), hwaiting.2⟩
  · intro e he
    show Function.update s.sram i (some (flash i)) e = some (s.installed flash defaultHandler e)
    by_cases heq : e = i
    · subst heq
      rw [Function.update_self, hbefore]
    · rw [Function.update_of_ne heq, h.intact hvtor e he]

/-- A copy that leaves the table as it should be has copied an entry where no other handler
has been installed. -/
theorem VectorInv.installed_of_copy {s : Vectors H} {i : ℕ} {calls : List (Call H)}
    (h : VectorInv mcu flash defaultHandler s) (hi : i < mcu.numberOfInterruptTableEntries)
    (hintact : Intact mcu flash defaultHandler { s with
      sram := Function.update s.sram i (some (flash i))
      calls }) : s.installed flash defaultHandler i = flash i := by
  cases hvtor : s.vtor with
  | flash => exact installed_of_nil (h.returned hvtor) i
  | sram =>
    have hentry := hintact i hi
    simp only [Vectors.entry, hvtor, Function.update_self] at hentry
    exact (Option.some.inj hentry).symm

/-- **Setting `VTOR`.** A call that has copied all entries makes `VTOR` point to a table
that is as the one in flash, or leaves `VTOR` as it is. -/
theorem VectorInv.setVtor {s : Vectors H} {call : Call H} {calls : List (Call H)} {i : ℕ}
    (h : VectorInv mcu flash defaultHandler s) (hcalls : s.calls = call :: calls)
    (hpc : call.pc = .copy i) (hi : mcu.numberOfInterruptTableEntries ≤ i) :
    VectorInv mcu flash defaultHandler { s with
      vtor := .sram
      calls := { call with pc := .write } :: calls } := by
  have hmem : call ∈ s.calls := by rw [hcalls]; exact List.mem_cons_self
  refine ⟨fun hvtor => (nomatch hvtor), fun hvtor => (nomatch hvtor), fun hvtor => (nomatch hvtor),
    fun _ e he => ?_⟩
  show s.sram e = some (s.installed flash defaultHandler e)
  cases hvtor : s.vtor with
  | flash =>
    rw [installed_of_nil (h.returned hvtor)]
    exact h.copied hvtor call hmem i hpc e (by omega)
  | sram => exact h.intact hvtor e he

/-- **Writing the entry.** A call that has come this far writes its handler to the table in
SRAM. -/
theorem VectorInv.write {s : Vectors H} {call : Call H} {calls : List (Call H)}
    (h : VectorInv mcu flash defaultHandler s) (hcalls : s.calls = call :: calls)
    (hpc : call.pc = .write) :
    VectorInv mcu flash defaultHandler { s with
      sram := Function.update s.sram call.request.entry (some (call.request.written defaultHandler))
      calls
      returned := s.returned ++ [call.request] } := by
  have hvtor : s.vtor = .sram := by
    cases hvtor : s.vtor with
    | flash =>
      exact absurd hpc (h.waiting hvtor call (by rw [hcalls]; exact List.mem_cons_self))
    | sram => rfl
  have hnever (hflash : s.vtor = .flash) : False := by
    rw [hvtor] at hflash
    cases hflash
  refine ⟨fun hflash => (hnever hflash).elim, fun hflash => (hnever hflash).elim,
    fun hflash => (hnever hflash).elim, fun _ e he => ?_⟩
  rw [Vectors.installed, lastWrite_returned]
  split_ifs with heq
  · subst heq
    exact Function.update_self ..
  · exact (Function.update_of_ne (Ne.symm heq) _ _).trans (h.intact hvtor e he)

/-- **Step lemma.** Every step that does not copy where another handler has been installed
keeps the invariant. -/
theorem VectorInv.step {s s' : Vectors H} {a : VectorAction H}
    (h : VectorInv mcu flash defaultHandler s) (hguard : CopiesBefore mcu flash defaultHandler s a)
    (hstep : vectorStep mcu flash defaultHandler s a = some s') :
    VectorInv mcu flash defaultHandler s' := by
  cases a with
  | call request =>
    rw [vectorStep] at hstep
    split_ifs at hstep
    obtain rfl := Option.some.inj hstep
    exact h.call request
  | step =>
    unfold vectorStep at hstep
    unfold CopiesBefore at hguard
    rcases hcalls : s.calls with _ | ⟨call, calls⟩
    · rw [hcalls] at hstep
      cases hstep
    · rw [hcalls] at hstep hguard
      have hbefore := hguard call rfl
      obtain rfl := Option.some.inj hstep
      unfold callStep
      cases hpc : call.pc with
      | read => exact h.read hcalls
      | copy i =>
        dsimp only
        split_ifs with hi
        · exact h.copy hcalls hpc (hbefore i hpc hi)
        · exact h.setVtor hcalls hpc (Nat.not_lt.mp hi)
      | write => exact h.write hcalls hpc

/-- A step that leaves the table as it should be does not copy where another handler has been
installed. -/
theorem VectorInv.copiesBefore {s : Vectors H} {a : VectorAction H}
    (h : VectorInv mcu flash defaultHandler s)
    (hintact : ∀ s', vectorStep mcu flash defaultHandler s a = some s' →
      Intact mcu flash defaultHandler s') : CopiesBefore mcu flash defaultHandler s a := by
  cases a with
  | call request => trivial
  | step =>
    intro call hcall i hpc hi
    obtain ⟨calls, hcalls⟩ := List.head?_eq_some_iff.mp hcall
    apply h.installed_of_copy hi (hintact _ ?_)
    · exact { call with pc := .copy (i + 1) } :: calls
    · rw [vectorStep, hcalls]
      dsimp only
      rw [callStep, hpc]
      dsimp only
      rw [if_pos hi]

/-- **When no handler is lost.** The table that `VTOR` points to is initialised, and every
entry of it is that of the last call for it, in every state that a run reaches, exactly
if every copy of the run comes before any other handler has been installed there. -/
theorem run_intact_iff (as : List (VectorAction H)) :
    (∀ bs, bs <+: as → ∀ s, run (vectorStep mcu flash defaultHandler) Vectors.init bs = some s →
      Intact mcu flash defaultHandler s) ↔
      Along (vectorStep mcu flash defaultHandler) (CopiesBefore mcu flash defaultHandler)
        Vectors.init as := by
  have hinit : VectorInv mcu flash defaultHandler Vectors.init := vectorInv_init
  rw [← along_reached_iff, and_iff_right hinit.intact_entries]
  refine along_iff (fun s a h => ?_) (fun s a s' h hintact hstep => ?_) hinit as
  · exact ⟨h.copiesBefore, fun hguard s' hstep => (h.step hguard hstep).intact_entries⟩
  · exact h.step (h.copiesBefore hintact) hstep

end

/-- The steps of a call up to its return, if it finds that nothing has been copied. -/
def wholeCall (mcu : Mcu) (request : Request H) : List (VectorAction H) :=
  .call request :: List.replicate (mcu.numberOfInterruptTableEntries + 3) .step

/-- A call that is about to copy is interrupted by another one, and copies the entry of
flash over the handler that has been installed. -/
theorem not_run_intact : ¬ ∀ as s,
    run (vectorStep .stm32f411xE (fun _ => 0) 9) Vectors.init as = some s →
      Intact .stm32f411xE (fun _ => 0) 9 s := by
  intro hall
  have hlost : (run (vectorStep .stm32f411xE (fun _ => 0) 9) Vectors.init
      ([.call (.install 23 5), .step] ++ wholeCall .stm32f411xE (.install (-14) 7) ++
        List.replicate 3 .step)).map
          (fun s => (s.entry (fun _ => 0) 2, s.installed (fun _ => 0) 9 2)) =
            some (some 0, 7) := by
    decide +kernel
  obtain ⟨s, hrun, hstate⟩ := Option.map_eq_some_iff.mp hlost
  obtain ⟨hentry, hinstalled⟩ := Prod.mk.inj hstate
  have hintact := hall _ s hrun 2 (by decide)
  rw [hentry, hinstalled] at hintact
  cases hintact

end WifiMcu.System
