import Mathlib.Algebra.Order.Group.Int
import WifiMcu.Library.RefCount

/-!
# Packet buffers

A packet is a chain of pbufs. A pbuf counts the pointers to it, and has a part of a block
of memory as its payload. `pbuf_header` moves the beginning of the payload, and
`pbuf_copy` copies one packet to another one.

The count is an `u16_t` that does not wrap around: there is no memory for as many pointers to
one pbuf.
-/

namespace WifiMcu.Lwip

open RefCount

/-- `ERR_OK`. -/
def errOk : ℤ := 0

/-- `ERR_MEM`. -/
def errMem : ℤ := -1

/-- `ERR_VAL`. -/
def errVal : ℤ := -6

/-- `ERR_ARG`. -/
def errArg : ℤ := -14

/-- `pbuf_type`. -/
inductive PbufType
  | ram | rom | ref | pool
  deriving DecidableEq

/-- The fields of a `struct pbuf` besides its pointer and its count. `memory` is the block
that `payload` is an offset into: it is behind the struct for `PBUF_RAM` and `PBUF_POOL`,
and somewhere else for the other types. -/
structure Pbuf where
  memory : List UInt8
  payload : ℕ
  totLen : ℕ
  len : ℕ
  type : PbufType
  flags : ℕ
  deriving DecidableEq

/-! ## Memory -/

/-- Replace bytes of a block, if there are that many. -/
def overwrite (memory : List UInt8) (start : ℕ) (bytes : List UInt8) : Option (List UInt8) :=
  if start + bytes.length ≤ memory.length then
    some (memory.take start ++ bytes ++ memory.drop (start + bytes.length))
  else none

/-- Bytes that fit into a block replace those that are there. -/
theorem overwrite_eq {memory bytes : List UInt8} {start : ℕ}
    (h : start + bytes.length ≤ memory.length) :
    overwrite memory start bytes =
      some (memory.take start ++ bytes ++ memory.drop (start + bytes.length)) := if_pos h

/-- Replacing bytes does not change the length of a block. -/
theorem length_overwrite {memory bytes memory' : List UInt8} {start : ℕ}
    (h : overwrite memory start bytes = some memory') : memory'.length = memory.length := by
  rw [overwrite] at h
  split_ifs at h with hle
  rw [← Option.some_inj.mp h]
  simp only [List.length_append, List.length_take, List.length_drop]
  omega

/-- Bytes that are written one behind the other are written as a whole. -/
theorem overwrite_append {memory bytes memory' : List UInt8} {start : ℕ}
    (h : overwrite memory start bytes = some memory') (bytes' : List UInt8) :
    overwrite memory' (start + bytes.length) bytes' = overwrite memory start (bytes ++ bytes') := by
  have hlength := length_overwrite h
  rw [overwrite] at h
  split_ifs at h with hle
  rw [overwrite, overwrite, hlength, List.length_append, ← Nat.add_assoc]
  by_cases hle' : start + bytes.length + bytes'.length ≤ memory.length
  · rw [if_pos hle', if_pos hle', ← Option.some_inj.mp h]
    have htake : (memory.take start ++ bytes).length = start + bytes.length := by
      rw [List.length_append, List.length_take, Nat.min_eq_left (by omega)]
    congr 1
    rw [List.take_append_of_le_length (Nat.le_of_eq htake.symm),
      List.take_of_length_le (Nat.le_of_eq htake), List.drop_append, htake,
      List.drop_eq_nil_of_le (by omega), List.nil_append, List.drop_drop, Nat.add_sub_cancel_left,
      List.append_assoc, List.append_assoc, List.append_assoc, List.append_assoc]
  · rw [if_neg hle', if_neg hle']

/-- What has been written can be read. -/
theorem read_overwrite {memory bytes memory' : List UInt8} {start : ℕ}
    (h : overwrite memory start bytes = some memory') :
    (memory'.drop start).take bytes.length = bytes := by
  rw [overwrite] at h
  split_ifs at h with hle
  have htake : (memory.take start).length = start := by
    rw [List.length_take, Nat.min_eq_left (by omega)]
  rw [← Option.some_inj.mp h, List.append_assoc, List.drop_append, htake, Nat.sub_self,
    List.drop_eq_nil_of_le (Nat.le_of_eq htake), List.nil_append, List.drop_zero,
    List.take_left]

/-- Bytes of the payload, if they are in the block. -/
def Pbuf.bytes (p : Pbuf) (offset n : ℕ) : Option (List UInt8) :=
  if p.payload + offset + n ≤ p.memory.length then
    some ((p.memory.drop (p.payload + offset)).take n)
  else none

/-- The pbuf with other bytes in its block. -/
def Pbuf.setMemory (p : Pbuf) (memory : List UInt8) : Pbuf := { p with memory := memory }

/-- Write to the payload. Nobody can write to a ROM. -/
def Pbuf.put (p : Pbuf) (offset : ℕ) (bytes : List UInt8) : Option Pbuf :=
  if p.type = .rom then none
  else (overwrite p.memory (p.payload + offset) bytes).map p.setMemory

/-- The bytes that a pbuf has in its payload. -/
def Pbuf.content (p : Pbuf) : List UInt8 := (p.memory.drop p.payload).take p.len

/-- The payload lies in the block. -/
def Pbuf.Within (p : Pbuf) : Prop := p.payload + p.len ≤ p.memory.length

instance (p : Pbuf) : Decidable p.Within := inferInstanceAs (Decidable (_ ≤ _))

/-- A pbuf contains as many bytes as its length says. -/
theorem Pbuf.length_content {p : Pbuf} (h : p.Within) : p.content.length = p.len := by
  rw [Within] at h
  rw [content, List.length_take, List.length_drop]
  omega

/-! ## The functions of `pbuf.c` -/

/-- `LWIP_MEM_ALIGN_SIZE`, with `MEM_ALIGNMENT` as 4. -/
def memAlignSize (size : ℕ) : ℕ := (size + 3) / 4 * 4

/-- A pbuf as `pbuf_alloc` sets it up for `PBUF_RAW` and `PBUF_RAM`, by what is in the new
memory. The length is an `u16_t`. -/
def Pbuf.allocated (length : ℕ) (garbage : ℕ → UInt8) : Pbuf where
  memory := (List.range (memAlignSize (length % 65536))).map garbage
  payload := 0
  totLen := length % 65536
  len := length % 65536
  type := .ram
  flags := 0

/-- `pbuf_alloc` for `PBUF_RAW` and `PBUF_RAM`: `mem_malloc` either fails, or gives memory
that has something in it. -/
def pbufAlloc (s : Store Pbuf) (length : ℕ) (mem : Option (ℕ → UInt8)) :
    Store Pbuf × Option ℕ :=
  match mem with
  | none => (s, none)
  | some garbage => (alloc s (.allocated length garbage), some s.length)

/-- The cast to `s16_t`. -/
def s16 (n : ℤ) : ℤ := n.bmod 65536

/-- Move the payload pointer. The lengths are of type `u16_t`. -/
def Pbuf.move (p : Pbuf) (increment : ℤ) : Pbuf :=
  { p with
    payload := (p.payload - increment).toNat
    len := ((p.len + increment) % 65536).toNat
    totLen := ((p.totLen + increment) % 65536).toNat }

/-- `pbuf_header`: the pbuf afterwards, or nothing if it returns 1 and leaves the pbuf
alone. -/
def Pbuf.header (p : Pbuf) (increment : ℤ) : Option Pbuf :=
  if increment = 0 then some p
  else if increment < 0 ∧ p.len < -increment then none
  else
    match p.type with
    | .ram | .pool => if p.payload - increment < 0 then none else some (p.move increment)
    | .ref | .rom => if increment < 0 then some (p.move increment) else none

/-- `pbuf_free`. It asserts that there is a pbuf, and that it has a reference. -/
def pbufFree (s : Store Pbuf) : Option ℕ → Option (Store Pbuf)
  | none => none
  | some p => release s p

/-- `pbuf_ref`. -/
def pbufRef (s : Store Pbuf) (p : ℕ) : Store Pbuf := retain s p 1

/-- A pbuf ends a packet, but not the chain. -/
def isQueue (s : Store Pbuf) (p : Option ℕ) : Bool :=
  match p.bind (read s) with
  | none => false
  | some n => n.data.len = n.data.totLen && n.next.isSome

/-- The part that `pbuf_copy` copies next: what is left of one of the pbufs. -/
def copyLength (dst src : Pbuf) (offsetTo offsetFrom : ℕ) : ℕ :=
  if (src.len : ℤ) - offsetFrom ≤ dst.len - offsetTo then src.len - offsetFrom
  else dst.len - offsetTo

/-- The pbuf that `pbuf_copy` goes on with, and the offset into it. -/
def onward (n : Node Pbuf) (p offset : ℕ) (ended : Bool) : Option ℕ × ℕ :=
  if ended then (n.next, 0) else (some p, offset)

/-- What `pbuf_copy` returns between two parts, if it does: there is no room for the rest, there
is more than one packet, or nothing is left. -/
def copyResult (s : Store Pbuf) (pTo pFrom : Option ℕ) : Option ℤ :=
  if pTo = none ∧ pFrom ≠ none then some errArg
  else if isQueue s pFrom || isQueue s pTo then some errVal
  else if pFrom = none then some errOk
  else none

/-- The loop of `pbuf_copy`. -/
def copyLoop : ℕ → Store Pbuf → ℕ → ℕ → ℕ → ℕ → Option (ℤ × Store Pbuf)
  | 0, _, _, _, _, _ => none
  | fuel + 1, s, pTo, pFrom, offsetTo, offsetFrom =>
    match read s pTo, read s pFrom with
    | some nTo, some nFrom =>
      let len := copyLength nTo.data nFrom.data offsetTo offsetFrom
      match (nFrom.data.bytes offsetFrom len).bind (nTo.data.put offsetTo) with
      | none => none
      | some data =>
        let s' := setData s pTo data
        let nextFrom := onward nFrom pFrom (offsetFrom + len) (nFrom.data.len ≤ offsetFrom + len)
        let nextTo := onward nTo pTo (offsetTo + len) (offsetTo + len = nTo.data.len)
        match copyResult s' nextTo.1 nextFrom.1, nextTo.1, nextFrom.1 with
        | some e, _, _ => some (e, s')
        | none, some pTo', some pFrom' => copyLoop fuel s' pTo' pFrom' nextTo.2 nextFrom.2
        | none, _, _ => none
    | _, _ => none

/-- `pbuf_copy`: the error code, and the pbufs afterwards. Every round of the loop ends one
of the pbufs. -/
def pbufCopy (s : Store Pbuf) (pTo pFrom : Option ℕ) : Option (ℤ × Store Pbuf) :=
  match pTo, pFrom with
  | some pTo, some pFrom =>
    match read s pTo, read s pFrom with
    | some nTo, some nFrom =>
      if nTo.data.totLen < nFrom.data.totLen then some (errArg, s)
      else copyLoop (2 * s.length) s pTo pFrom 0 0
    | _, _ => none
  | _, _ => some (errArg, s)

/-! ## Moving the beginning of the payload -/

/-- A small increment is what it is. -/
theorem s16_eq {n : ℤ} (hlow : -32768 ≤ n) (hhigh : n ≤ 32767) : s16 n = n := by
  rw [s16, Int.bmod_def]
  omega

/-- Hiding a header that is no longer than the payload does not fail. -/
theorem header_neg {p : Pbuf} {n : ℕ} (hn : n ≤ p.len) (hlen : p.len ≤ p.totLen)
    (hmax : p.totLen < 65536) :
    p.header (-n) = some { p with
      payload := p.payload + n, len := p.len - n, totLen := p.totLen - n } := by
  rw [Pbuf.header]
  by_cases h0 : n = 0
  · subst h0
    rw [if_pos (by simp)]
    rfl
  · have hmove : p.move (-n) = { p with
        payload := p.payload + n, len := p.len - n, totLen := p.totLen - n } := by
      have hlen' : ((p.len + -(n : ℤ)) % 65536).toNat = p.len - n := by omega
      have htot' : ((p.totLen + -(n : ℤ)) % 65536).toNat = p.totLen - n := by omega
      have hpayload : (p.payload - -(n : ℤ)).toNat = p.payload + n := by omega
      rw [Pbuf.move, hlen', htot', hpayload]
    have hneg : -(n : ℤ) < 0 := by omega
    rw [if_neg (by omega), if_neg (by omega), hmove]
    split
    · rw [if_neg (by omega)]
    · rw [if_neg (by omega)]
    · rw [if_pos hneg]
    · rw [if_pos hneg]

/-- The payload of a pbuf of this type is in the block behind the struct. -/
def PbufType.inBlock : PbufType → Bool
  | .ram | .pool => true
  | .ref | .rom => false

/-- A header is revealed in front of a payload in the block if there is room for it. -/
theorem header_reveal {p : Pbuf} {n : ℕ} (htype : p.type.inBlock = true) (hn : n ≤ p.payload)
    (hlen : p.len + n < 65536) (htot : p.totLen + n < 65536) :
    p.header n = some { p with
      payload := p.payload - n, len := p.len + n, totLen := p.totLen + n } := by
  rw [Pbuf.header]
  by_cases h0 : n = 0
  · subst h0
    rw [if_pos (by simp)]
    rfl
  · have hmove : p.move n = { p with
        payload := p.payload - n, len := p.len + n, totLen := p.totLen + n } := by
      have hlen' : ((p.len + (n : ℤ)) % 65536).toNat = p.len + n := by omega
      have htot' : ((p.totLen + (n : ℤ)) % 65536).toNat = p.totLen + n := by omega
      have hpayload : (p.payload - (n : ℤ)).toNat = p.payload - n := by omega
      rw [Pbuf.move, hlen', htot', hpayload]
    rw [if_neg (by omega), if_neg (by omega), hmove]
    cases hcase : p.type with
    | ram => rw [if_neg (by omega)]
    | pool => rw [if_neg (by omega)]
    | ref => rw [hcase] at htype; cases htype
    | rom => rw [hcase] at htype; cases htype

/-- No header is revealed where there is no room for it. -/
theorem header_eq_none {p : Pbuf} {n : ℕ} (hn : p.payload < n) : p.header n = none := by
  rw [Pbuf.header, if_neg (by omega), if_neg (by omega)]
  split
  · rw [if_pos (by omega)]
  · rw [if_pos (by omega)]
  · rw [if_neg (by omega)]
  · rw [if_neg (by omega)]

/-- There is room for a header in front of a payload that does not start its block. -/
theorem header_pos {p : Pbuf} {n : ℕ} (htype : p.type = .ram) (hn : n ≤ p.payload) :
    (p.header n).isSome := by
  rw [Pbuf.header]
  by_cases h0 : n = 0
  · subst h0
    rw [if_pos (by simp), Option.isSome_some]
  · rw [if_neg (by omega), if_neg (by omega), htype]
    simp only
    rw [if_neg (by omega), Option.isSome_some]

/-! ## Copying a packet -/

/-- How many bytes there are in the pbufs of a chain. -/
def total : List Pbuf → ℕ
  | [] => 0
  | p :: ps => p.len + total ps

/-- The bytes in the pbufs of a chain. -/
def contents (ps : List Pbuf) : List UInt8 := ps.flatMap Pbuf.content

/-- The packet does not end before the chain does. -/
def NotQueue : List Pbuf → Prop
  | p :: p' :: ps => p.len ≠ p.totLen ∧ NotQueue (p' :: ps)
  | _ => True

/-- The pbufs of a chain contain as many bytes as their lengths say. -/
theorem length_contents {ps : List Pbuf} (h : ∀ p ∈ ps, p.Within) :
    (contents ps).length = total ps := by
  induction ps with
  | nil => rfl
  | cons p ps ih =>
    rw [List.forall_mem_cons] at h
    rw [contents, List.flatMap_cons, List.length_append, Pbuf.length_content h.1, total, ← ih h.2,
      contents]

/-- What is behind the first pbuf of a packet does not end before the chain does either. -/
theorem NotQueue.tail {p : Pbuf} {ps : List Pbuf} (h : NotQueue (p :: ps)) : NotQueue ps := by
  cases ps with
  | nil => trivial
  | cons => exact h.2

/-- The chain does not end in an empty pbuf. -/
def EndsFilled (ps : List Pbuf) : Prop := ∀ p ∈ ps.getLast?, 0 < p.len

/-- Whether a chain ends in an empty pbuf can be decided. -/
instance (ps : List Pbuf) : Decidable (EndsFilled ps) :=
  decidable_of_iff (∀ p ∈ ps.getLast?.toList, 0 < p.len) (by simp [EndsFilled])

/-- A chain without pbufs does not end in any. -/
theorem endsFilled_nil : EndsFilled [] := by simp [EndsFilled]

/-- The end of a chain is the end of what is behind its first pbuf. -/
theorem endsFilled_cons_cons {p p' : Pbuf} {ps : List Pbuf} :
    EndsFilled (p :: p' :: ps) ↔ EndsFilled (p' :: ps) := by
  rw [EndsFilled, EndsFilled, List.getLast?_cons_cons]

/-- A chain that does not end in an empty pbuf is not empty. -/
theorem EndsFilled.total_pos {p : Pbuf} {ps : List Pbuf} (h : EndsFilled (p :: ps)) :
    0 < total (p :: ps) := by
  induction ps generalizing p with
  | nil => exact h p rfl
  | cons p' ps ih => exact Nat.add_pos_right _ (ih (endsFilled_cons_cons.mp h))

/-- The check for more than one packet passes a chain that is one. -/
theorem isQueue_eq_false {s : Store Pbuf} {p : Option ℕ} {cs : List (ℕ × Pbuf)}
    (h : Chain s p cs) (hqueue : NotQueue (cs.map Prod.snd)) : isQueue s p = false := by
  cases h with
  | nil => rfl
  | @cons i n cs hread htail =>
    rw [isQueue, Option.bind_some, hread]
    simp only
    cases hnext : n.next with
    | none => simp
    | some j =>
      rw [hnext] at htail
      cases htail with
      | cons _ _ => simp [hqueue.1]

/-- A part of the payload of one pbuf is put into another one. -/
theorem put_bytes {p q : Pbuf} {offset n : ℕ} (htype : q.type ≠ .rom) (hp : p.Within)
    (hq : q.Within) (hn : n ≤ p.len) (hoffset : offset + n ≤ q.len) :
    ∃ memory, (p.bytes 0 n).bind (q.put offset) = some (q.setMemory memory) ∧
      overwrite q.memory (q.payload + offset) (p.content.take n) = some memory := by
  rw [Pbuf.Within] at hp hq
  have hcontent : (p.memory.drop p.payload).take n = p.content.take n := by
    rw [Pbuf.content, List.take_take, Nat.min_eq_left hn]
  have hlength : (p.content.take n).length = n := by
    rw [List.length_take, Pbuf.length_content hp, Nat.min_eq_left hn]
  have hwrite : overwrite q.memory (q.payload + offset) (p.content.take n) = _ :=
    overwrite_eq (by omega)
  refine ⟨_, ?_, hwrite⟩
  rw [Pbuf.bytes, Nat.add_zero, if_pos (by omega), hcontent, Option.bind_some, Pbuf.put,
    if_neg htype, hwrite, Option.map_some]

/-- A pbuf without another one behind it is one packet. -/
theorem isQueue_single {s : Store Pbuf} {p : ℕ} {n : Node Pbuf} (hn : read s p = some n)
    (hnext : n.next = none) : isQueue s (some p) = false := by
  rw [isQueue, Option.bind_some, hn]
  simp [hnext]

section CopyResult

variable {s : Store Pbuf} {i j : ℕ}

/-- Without room for the rest the copy fails. -/
theorem copyResult_full : copyResult s none (some j) = some errArg := by
  simp [copyResult]

/-- At the end of the chain the copy has succeeded. -/
theorem copyResult_end {p : Option ℕ} (hp : isQueue s p = false) :
    copyResult s p none = some errOk := by
  simp [copyResult, hp, show isQueue s none = false from rfl]

/-- A second packet in the chain makes the copy fail. -/
theorem copyResult_queue (hj : isQueue s (some j) = true) :
    copyResult s (some i) (some j) = some errVal := by
  simp [copyResult, hj]

/-- Else the copy goes on. -/
theorem copyResult_onward (hi : isQueue s (some i) = false) (hj : isQueue s (some j) = false) :
    copyResult s (some i) (some j) = none := by
  simp [copyResult, hi, hj]

end CopyResult

section CopyLoop

variable {s : Store Pbuf} {pTo pFrom offset fuel : ℕ} {n nFrom : Node Pbuf}

/-- A round that fills the other pbuf before the end of the payload is the last one. -/
theorem copyLoop_full (fuel : ℕ) (hn : read s pTo = some n) (hnext : n.next = none)
    (htype : n.data.type ≠ .rom) (hto : n.data.Within) (hoffset : offset ≤ n.data.len)
    (hread : read s pFrom = some nFrom) (hwithin : nFrom.data.Within)
    (hfull : n.data.len < offset + nFrom.data.len) :
    ∃ memory, memory.length = n.data.memory.length ∧
      copyLoop (fuel + 1) s pTo pFrom offset 0 =
        some (errArg, setData s pTo (n.data.setMemory memory)) := by
  have hlen : copyLength n.data nFrom.data offset 0 = n.data.len - offset := by
    rw [copyLength, if_neg (by omega)]
  obtain ⟨memory, hput, hover⟩ := put_bytes htype hwithin hto
    (show n.data.len - offset ≤ nFrom.data.len by omega)
    (show offset + (n.data.len - offset) ≤ n.data.len by omega)
  have hfrom : onward nFrom pFrom (n.data.len - offset)
      (nFrom.data.len ≤ n.data.len - offset) = (some pFrom, n.data.len - offset) := by
    rw [onward, if_neg (by simp; omega)]
  have hend : onward n pTo (offset + (n.data.len - offset))
      (offset + (n.data.len - offset) = n.data.len) = (none, 0) := by
    rw [onward, if_pos (by simp; omega), hnext]
  refine ⟨memory, length_overwrite hover, ?_⟩
  rw [copyLoop, hn, hread]
  simp only [Nat.zero_add, hlen, hput, hfrom, hend]
  rw [copyResult_full]

/-- A round for a payload that fits ends the loop with the chain, or with the other pbuf. Else
it goes on behind the payload, unless there is more than one packet. -/
theorem copyLoop_part (fuel : ℕ) (hn : read s pTo = some n) (hnext : n.next = none)
    (htype : n.data.type ≠ .rom) (hto : n.data.Within) (hread : read s pFrom = some nFrom)
    (hwithin : nFrom.data.Within) (hfit : offset + nFrom.data.len ≤ n.data.len) :
    ∃ memory, overwrite n.data.memory (n.data.payload + offset) nFrom.data.content =
        some memory ∧
      copyLoop (fuel + 1) s pTo pFrom offset 0 =
        (let s' := setData s pTo (n.data.setMemory memory)
        match nFrom.next with
        | none => some (errOk, s')
        | some j =>
          if offset + nFrom.data.len = n.data.len then some (errArg, s')
          else if isQueue s' (some j) then some (errVal, s')
          else copyLoop fuel s' pTo j (offset + nFrom.data.len) 0) := by
  have hlen : copyLength n.data nFrom.data offset 0 = nFrom.data.len := by
    rw [copyLength, if_pos (by omega), Nat.sub_zero]
  obtain ⟨memory, hput, hover⟩ := put_bytes htype hwithin hto (Nat.le_refl _) hfit
  rw [← Pbuf.length_content hwithin, List.take_length] at hover
  have hfrom : onward nFrom pFrom nFrom.data.len (nFrom.data.len ≤ nFrom.data.len) =
      (nFrom.next, 0) := by
    rw [onward, if_pos (by simp)]
  have hsingle : isQueue (setData s pTo (n.data.setMemory memory)) (some pTo) = false :=
    isQueue_single (read_setData_self hn _) hnext
  refine ⟨memory, hover, ?_⟩
  rw [copyLoop, hn, hread]
  simp only [Nat.zero_add, hlen, hput, hfrom]
  simp only [onward, decide_eq_true_eq]
  by_cases hend : offset + nFrom.data.len = n.data.len
  · -- the other pbuf is full
    simp only [if_pos hend, hnext]
    cases nFrom.next with
    | none => rw [copyResult_end rfl]
    | some j => rw [copyResult_full]
  · simp only [if_neg hend]
    cases nFrom.next with
    | none => rw [copyResult_end hsingle]
    | some j =>
      by_cases hqueue : isQueue (setData s pTo (n.data.setMemory memory)) (some j) = true
      · simp only [copyResult_queue hqueue, if_pos hqueue]
      · rw [copyResult_onward hsingle (Bool.eq_false_of_not_eq_true hqueue)]
        simp only [if_neg hqueue]

/-- Copying a chain to one pbuf ends, and changes nothing but the bytes in this pbuf. If the
chain is one packet that fits exactly and does not end in an empty pbuf, then its bytes are
there afterwards. Behind an empty pbuf at the end there is nothing left of the other one. -/
theorem copyLoop_single {cs : List (ℕ × Pbuf)} (hn : read s pTo = some n)
    (hnext : n.next = none) (htype : n.data.type ≠ .rom) (hto : n.data.Within)
    (hoffset : offset ≤ n.data.len) (hchain : Chain s (some pFrom) cs)
    (hne : pTo ∉ cs.map Prod.fst) (hwithin : ∀ p ∈ cs.map Prod.snd, p.Within)
    (hfuel : cs.length ≤ fuel) :
    ∃ e memory, copyLoop fuel s pTo pFrom offset 0 =
        some (e, setData s pTo (n.data.setMemory memory)) ∧
      memory.length = n.data.memory.length ∧
      (NotQueue (cs.map Prod.snd) → EndsFilled (cs.map Prod.snd) →
        offset + total (cs.map Prod.snd) = n.data.len → e = errOk ∧
          overwrite n.data.memory (n.data.payload + offset) (contents (cs.map Prod.snd)) =
            some memory) ∧
      (¬ EndsFilled (cs.map Prod.snd) → offset < n.data.len →
        offset + total (cs.map Prod.snd) = n.data.len → e ≠ errOk) := by
  -- the chain gets shorter with every round, since the other pbuf is the last one
  induction fuel generalizing s pFrom offset n cs with
  | zero =>
    cases hchain with
    | cons => simp at hfuel
  | succ fuel ih =>
    cases hchain with
    | @cons i nFrom cs hread htail =>
      rw [List.map_cons, List.mem_cons, not_or] at hne
      simp only [List.map_cons, List.forall_mem_cons, List.length_cons, Nat.add_le_add_iff_right,
        total, contents, List.flatMap_cons] at hwithin hfuel ⊢
      rcases Nat.lt_or_ge n.data.len (offset + nFrom.data.len) with hfull | hfit
      · obtain ⟨memory, hmem, hloop⟩ := copyLoop_full fuel hn hnext htype hto hoffset
          hread hwithin.1 hfull
        refine ⟨errArg, memory, hloop, hmem, fun _ _ htotal => ?_, fun _ _ _ => by decide⟩
        omega
      · obtain ⟨memory, hover, hloop⟩ := copyLoop_part fuel hn hnext htype hto hread
          hwithin.1 hfit
        have hmem := length_overwrite hover
        rw [hloop]
        have hchain' : Chain (setData s pTo (n.data.setMemory memory)) nFrom.next cs := by
          refine htail.congr fun k hk => read_setData_ne (fun heq => hne.2 ?_) _
          rw [heq]
          exact hk
        cases hj : nFrom.next with
        | none =>
          rw [hj] at htail
          cases htail
          refine ⟨errOk, memory, rfl, hmem, fun _ _ _ => ⟨rfl, ?_⟩, fun hempty hlt htotal => ?_⟩
          · simpa using hover
          · refine absurd (fun p hp => ?_) hempty
            obtain rfl : nFrom.data = p := Option.some_inj.mp hp
            simp only [List.map_nil, total] at htotal
            omega
        | some j =>
          rw [hj] at hchain'
          simp only
          split_ifs with hend hqueue
          · -- there is no room for a chain that goes on
            refine ⟨errArg, memory, rfl, hmem, fun _ hends htotal => ?_, fun _ _ _ => by decide⟩
            cases hchain' with
            | cons =>
              have hpos := (endsFilled_cons_cons.mp hends).total_pos
              rw [List.map_cons] at htotal
              omega
          · refine ⟨errVal, memory, rfl, hmem, fun hone _ _ => ?_, fun _ _ _ => by decide⟩
            rw [isQueue_eq_false hchain' hone.tail] at hqueue
            cases hqueue
          · -- the rest of the chain is copied behind the first payload
            have hwithin' : (n.data.setMemory memory).Within := by
              rw [Pbuf.Within, Pbuf.setMemory, hmem]
              exact hto
            have hn' := read_setData_self hn (n.data.setMemory memory)
            obtain ⟨e, memory', hloop', hmem', hcopied, hfailed⟩ := ih hn' hnext htype hwithin' hfit
              hchain' hne.2 hwithin.2 hfuel
            have hends : EndsFilled (nFrom.data :: cs.map Prod.snd) ↔
                EndsFilled (cs.map Prod.snd) := by
              cases hchain' with
              | cons => exact endsFilled_cons_cons
            rw [hloop', setData_setData hn, hends]
            refine ⟨e, memory', rfl, hmem'.trans hmem, fun hone hends htotal => ?_,
              fun hempty _ htotal => ?_⟩
            · obtain ⟨he, hover'⟩ := hcopied hone.tail hends ((Nat.add_assoc _ _ _).trans htotal)
              refine ⟨he, ?_⟩
              rw [← overwrite_append hover, Pbuf.length_content hwithin.1, Nat.add_assoc]
              exact hover'
            · exact hfailed hempty (Nat.lt_of_le_of_ne hfit hend)
                ((Nat.add_assoc _ _ _).trans htotal)

end CopyLoop

/-- `pbuf_copy` to one pbuf, which may be too small. -/
theorem pbufCopy_single {s : Store Pbuf} {pTo pFrom : ℕ} {n : Node Pbuf}
    {cs : List (ℕ × Pbuf)} (hn : read s pTo = some n) (hnext : n.next = none)
    (htype : n.data.type ≠ .rom) (hto : n.data.Within) (hchain : Chain s (some pFrom) cs)
    (hne : pTo ∉ cs.map Prod.fst) (hwithin : ∀ p ∈ cs.map Prod.snd, p.Within) :
    ∃ e memory, pbufCopy s (some pTo) (some pFrom) =
        some (e, setData s pTo (n.data.setMemory memory)) ∧
      memory.length = n.data.memory.length ∧
      (NotQueue (cs.map Prod.snd) → EndsFilled (cs.map Prod.snd) →
        (∀ p ∈ (cs.map Prod.snd).head?, p.totLen = n.data.totLen) →
        total (cs.map Prod.snd) = n.data.len → e = errOk ∧
          overwrite n.data.memory n.data.payload (contents (cs.map Prod.snd)) =
            some memory) ∧
      (¬ EndsFilled (cs.map Prod.snd) → 0 < n.data.len → total (cs.map Prod.snd) = n.data.len →
        e ≠ errOk) := by
  have hlength := hchain.length_le
  obtain ⟨e, memory, hloop, hmem, hcopied, hfailed⟩ := copyLoop_single hn hnext htype hto
    (Nat.zero_le _) hchain hne hwithin (show cs.length ≤ 2 * s.length by omega)
  rw [Nat.zero_add] at hcopied hfailed
  cases hchain with
  | @cons i nFrom cs hread htail =>
    rw [pbufCopy]
    simp only [hn, hread]
    by_cases hsmall : n.data.totLen < nFrom.data.totLen
    · rw [if_pos hsmall]
      refine ⟨errArg, n.data.memory, ?_, rfl, fun _ _ htot => ?_, fun _ _ _ => by decide⟩
      · rw [Pbuf.setMemory, setData_same hn]
      · have := htot nFrom.data rfl
        omega
    · rw [if_neg hsmall]
      exact ⟨e, memory, hloop, hmem, fun hone hends _ => hcopied hone hends, hfailed⟩

end WifiMcu.Lwip
