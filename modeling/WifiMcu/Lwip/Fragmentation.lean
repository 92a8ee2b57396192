import WifiMcu.Lwip.InOrder

/-!
# Fragmentation

`ip_frag` cuts a packet that is longer than the MTU into fragments, each of them a copy in a new
pbuf. What it sends are the pieces of a datagram, and a receiver that gets them in this order puts
the datagram together if there are not too many pbufs.
-/

namespace WifiMcu.Lwip

open WifiMcu.System Pieces

/-! ## The loops -/

/-- `pbuf_copy_partial`, by the bytes that it copies. Their number is its result. -/
def pbufCopyPartial : List (List UInt8) → ℕ → ℕ → List UInt8
  | [], _, _ => []
  | p :: ps, len, offset =>
    if len = 0 then []
    else if offset ≠ 0 ∧ offset ≥ p.length then pbufCopyPartial ps len (offset - p.length)
    else
      let bufCopyLen := min (p.length - offset) len
      (p.drop offset).take bufCopyLen ++ pbufCopyPartial ps (len - bufCopyLen) 0

/-- `nfb`. -/
def fragBlocks (mtu : ℕ) : ℕ := (((mtu : ℤ) - ipHlen).tdiv 8 % 65536).toNat

/-- The header of a fragment. -/
def IpHdr.fragment (h : IpHdr) (tmp : BitVec 16) (cop : ℕ) : IpHdr :=
  { h with offset := tmp, len := BitVec.ofNat 16 (cop + ipHlen) }.withChksum

/-- The loop of `ip_frag`, for at most a number of rounds: whether it returns `ERR_OK`, and the
headers and the bytes of the fragments that have been sent. In each round there is memory for the
pbuf or not; `PBUF_IP` leaves room for the header in it. -/
def ipFragLoop (mtu : ℕ) (h : IpHdr) (p : List (List UInt8)) (omf : BitVec 16) :
    ℕ → ℕ → BitVec 16 → ℕ → List Bool → Option (Bool × List (IpHdr × List UInt8))
  | 0, _, _, _, _ => none
  | rounds + 1, left, ofo, poff, mem =>
    if left = 0 then some (true, [])
    else
      let last : Bool := (left : ℤ) ≤ (mtu : ℤ) - ipHlen
      let tmp := (omf ||| (ipOffmask &&& ofo)) ||| if last then 0 else ipMf
      let cop := if last then left else fragBlocks mtu * 8 % 65536
      if mem.headD false = false then some (false, [])
      else
        let data := pbufCopyPartial p cop poff
        (ipFragLoop mtu h p omf rounds (left - cop) (ofo + BitVec.ofNat 16 (fragBlocks mtu))
          (poff + data.length) mem.tail).map fun r => (r.1, (h.fragment tmp cop, data) :: r.2)

/-- `ip_frag` of a packet with its header, its pbufs (the header is in the first one) and the
memory. Every fragment has a byte at least, so there are not more of them than bytes. -/
def ipFrag (mtu : ℕ) (h : IpHdr) (p : List (List UInt8)) (mem : List Bool) :
    Option (Bool × List (IpHdr × List UInt8)) :=
  let left := p.flatten.length - ipHlen
  ipFragLoop mtu h p (h.offset &&& ipMf) (left + 1) left (h.offset &&& ipOffmask) ipHlen mem

/-! ## What is sent -/

/-- What is copied are the bytes at the offset, whatever pbufs they are in. -/
theorem pbufCopyPartial_eq (ps : List (List UInt8)) (len offset : ℕ) :
    pbufCopyPartial ps len offset = (ps.flatten.drop offset).take len := by
  induction ps generalizing len offset with
  | nil => simp [pbufCopyPartial]
  | cons p ps ih =>
    rw [pbufCopyPartial, List.flatten_cons, List.drop_append]
    split_ifs with hlen hskip
    · rw [hlen, List.take_zero]
    · rw [ih, List.drop_of_length_le hskip.2, List.nil_append]
    · have hoffset : offset ≤ p.length := by omega
      simp only [ih]
      rw [Nat.sub_eq_zero_of_le hoffset, List.drop_zero, List.take_append, List.length_drop]
      obtain hle | hle := Nat.le_total (p.length - offset) len
      · have hwhole : ∀ n, p.length - offset ≤ n → (p.drop offset).take n = p.drop offset :=
          fun n hn => List.take_of_length_le (by rwa [List.length_drop])
        rw [Nat.min_eq_left hle, hwhole _ le_rfl, hwhole _ hle]
      · rw [Nat.min_eq_right hle, Nat.sub_self, Nat.sub_eq_zero_of_le hle]

/-- The number of the last fragment. -/
def lastPiece (mtu total : ℕ) : ℕ :=
  (total - (mtu - ipHlen) + (fragBlocks mtu * 8 - 1)) / (fragBlocks mtu * 8)

/-- Where the fragments begin, and where the last one ends. -/
def cutOffs (mtu total k : ℕ) : ℕ :=
  if k ≤ lastPiece mtu total then k * (fragBlocks mtu * 8) else total

/-- The fragments with their headers. -/
def sentFragment (mtu : ℕ) (h : IpHdr) (data : List UInt8) (k : ℕ) : IpHdr × List UInt8 :=
  (h.fragment ((ipOffmask &&& BitVec.ofNat 16 (fragBlocks mtu * k)) |||
      if k < lastPiece mtu data.length then ipMf else 0)
    (cutOffs mtu data.length (k + 1) - cutOffs mtu data.length k),
    piece data (cutOffs mtu data.length) k)

/-- An MTU that is long enough for the header and a block of data. -/
structure FitMtu (mtu : ℕ) : Prop where
  le : 28 ≤ mtu
  lt : mtu < 65536

/-- The blocks of a fragment. -/
theorem FitMtu.blocks {mtu : ℕ} (h : FitMtu mtu) :
    1 ≤ fragBlocks mtu ∧ fragBlocks mtu * 8 ≤ mtu - ipHlen := by
  have hle := h.le
  have hlt := h.lt
  have hhlen : ipHlen = 20 := rfl
  rw [fragBlocks, hhlen, Int.tdiv_eq_ediv_of_nonneg (by omega)]
  omega

/-- A fragment is not the last one if what is left does not fit in one. -/
theorem FitMtu.lt_lastPiece_iff {mtu : ℕ} (h : FitMtu mtu) (total k : ℕ) :
    k < lastPiece mtu total ↔ k * (fragBlocks mtu * 8) + (mtu - ipHlen) < total := by
  obtain ⟨hpos, hle⟩ := h.blocks
  rw [lastPiece, Nat.lt_iff_add_one_le, Nat.le_div_iff_mul_le (by omega), Nat.add_mul,
    Nat.one_mul]
  omega

/-- The last fragment begins inside of the data. -/
theorem FitMtu.lastPiece_mul_lt {mtu : ℕ} (h : FitMtu mtu) {total : ℕ} (htotal : 0 < total) :
    lastPiece mtu total * (fragBlocks mtu * 8) < total ∧ lastPiece mtu total < total := by
  obtain ⟨hpos, hle⟩ := h.blocks
  have hiff := h.lt_lastPiece_iff total
  cases hlast : lastPiece mtu total with
  | zero => omega
  | succ j =>
    have hlt := (hiff j).mp (by omega)
    have hge : j ≤ j * (fragBlocks mtu * 8) := Nat.le_mul_of_pos_right j (by omega)
    rw [Nat.add_mul, Nat.one_mul]
    omega

/-- A fragment that is not the last one is full. -/
theorem sentFragment_of_lt {mtu : ℕ} (h : IpHdr) {data : List UInt8} {k : ℕ}
    (hk : k < lastPiece mtu data.length) : sentFragment mtu h data k =
      (h.fragment (0 ||| ipOffmask &&& BitVec.ofNat 16 (fragBlocks mtu * k) ||| ipMf)
        (fragBlocks mtu * 8),
      (data.drop (k * (fragBlocks mtu * 8))).take (fragBlocks mtu * 8)) := by
  have hzero : ∀ x : BitVec 16, 0 ||| x = x := fun x => BitVec.zero_or
  have hcut : cutOffs mtu data.length (k + 1) - cutOffs mtu data.length k =
      fragBlocks mtu * 8 := by
    rw [cutOffs, cutOffs, if_pos (by omega), if_pos hk.le, Nat.add_mul, Nat.one_mul,
      Nat.add_sub_cancel_left]
  rw [sentFragment, piece, hcut, if_pos hk, hzero, cutOffs, if_pos hk.le]

/-- The last fragment has the rest. -/
theorem sentFragment_last (mtu : ℕ) (h : IpHdr) (data : List UInt8) :
    sentFragment mtu h data (lastPiece mtu data.length) =
      (h.fragment (0 ||| ipOffmask &&&
          BitVec.ofNat 16 (fragBlocks mtu * lastPiece mtu data.length) ||| 0)
        (data.length - lastPiece mtu data.length * (fragBlocks mtu * 8)),
      (data.drop (lastPiece mtu data.length * (fragBlocks mtu * 8))).take
        (data.length - lastPiece mtu data.length * (fragBlocks mtu * 8))) := by
  have hzero : ∀ x : BitVec 16, 0 ||| x = x := fun x => BitVec.zero_or
  have hcut : cutOffs mtu data.length (lastPiece mtu data.length + 1) -
      cutOffs mtu data.length (lastPiece mtu data.length) =
      data.length - lastPiece mtu data.length * (fragBlocks mtu * 8) := by
    rw [cutOffs, cutOffs, if_neg (by omega), if_pos le_rfl]
  rw [sentFragment, piece, hcut, if_neg (lt_irrefl _), hzero, cutOffs, if_pos le_rfl]

/-- The next fragments are sent if there is memory for them. -/
theorem granted_cons {mem : List Bool} {n : ℕ} : mem.take (n + 1) = List.replicate (n + 1) true ↔
    mem.headD false = true ∧ mem.tail.take n = List.replicate n true := by
  cases mem with
  | nil => simp [List.replicate_succ]
  | cons b mem => simp [List.replicate_succ]

/-- **Loop.** The fragments from one on are sent, up to the last one or to one for which there is
no memory. -/
theorem ipFragLoop_sends {mtu : ℕ} (hmtu : FitMtu mtu) (h : IpHdr) {p : List (List UInt8)}
    {data : List UInt8} (hp : p.flatten.drop ipHlen = data) (hdata : 0 < data.length)
    (hshort : data.length < 65536) {rounds k : ℕ} (mem : List Bool)
    (hk : k ≤ lastPiece mtu data.length) (hrounds : lastPiece mtu data.length - k + 2 ≤ rounds) :
    ∃ ok n, ipFragLoop mtu h p 0 rounds (data.length - k * (fragBlocks mtu * 8))
        (BitVec.ofNat 16 (fragBlocks mtu * k)) (ipHlen + k * (fragBlocks mtu * 8)) mem =
          some (ok, (List.range' k n).map (sentFragment mtu h data)) ∧
      k + n ≤ lastPiece mtu data.length + 1 ∧
      (ok = true ↔ k + n = lastPiece mtu data.length + 1) ∧
      (ok = true ↔ mem.take (lastPiece mtu data.length + 1 - k) =
        List.replicate (lastPiece mtu data.length + 1 - k) true) := by
  have hhlen : ipHlen = 20 := rfl
  obtain ⟨hblocks, hblocksLe⟩ := hmtu.blocks
  have hend := hmtu.lastPiece_mul_lt hdata
  have hmtuLe := hmtu.le
  have hmtuLt := hmtu.lt
  induction rounds generalizing k mem with
  | zero => omega
  | succ rounds ih =>
    have hiff := hmtu.lt_lastPiece_iff data.length k
    have hmul : k * (fragBlocks mtu * 8) ≤
        lastPiece mtu data.length * (fragBlocks mtu * 8) := Nat.mul_le_mul_right _ hk
    have hleft : data.length - k * (fragBlocks mtu * 8) ≠ 0 := by omega
    have hneed : lastPiece mtu data.length + 1 - k = lastPiece mtu data.length - k + 1 := by
      omega
    have hcopy : ∀ cop, pbufCopyPartial p cop (ipHlen + k * (fragBlocks mtu * 8)) =
        (data.drop (k * (fragBlocks mtu * 8))).take cop := by
      intro cop
      rw [pbufCopyPartial_eq, ← hp, List.drop_drop]
    rw [ipFragLoop, if_neg hleft, hneed, granted_cons]
    simp only [hcopy]
    by_cases hmem : mem.headD false = false
    · simp only [hmem, if_true, Bool.false_eq_true, false_and]
      refine ⟨false, 0, rfl, by omega, iff_of_false Bool.false_ne_true (by omega), ?_⟩
      exact iff_of_false Bool.false_ne_true id
    · rw [Bool.not_eq_false] at hmem
      simp only [hmem, Bool.true_eq_false, if_false, true_and]
      by_cases hlast : k < lastPiece mtu data.length
      · have hroom := hiff.mp hlast
        have hnot : ¬((data.length - k * (fragBlocks mtu * 8) : ℕ) : ℤ) ≤ (mtu : ℤ) - ipHlen := by
          omega
        have hcop : fragBlocks mtu * 8 % 65536 = fragBlocks mtu * 8 :=
          Nat.mod_eq_of_lt (by omega)
        have hnext : (k + 1) * (fragBlocks mtu * 8) =
            k * (fragBlocks mtu * 8) + fragBlocks mtu * 8 := by
          rw [Nat.add_mul, Nat.one_mul]
        have hfull : ((data.drop (k * (fragBlocks mtu * 8))).take (fragBlocks mtu * 8)).length =
            fragBlocks mtu * 8 := by
          rw [List.length_take, List.length_drop]
          omega
        obtain ⟨ok, n, hrun, hle, hok, hgranted⟩ := ih (k := k + 1) mem.tail hlast (by omega)
        have hofo : BitVec.ofNat 16 (fragBlocks mtu * k) + BitVec.ofNat 16 (fragBlocks mtu) =
            BitVec.ofNat 16 (fragBlocks mtu * (k + 1)) := by
          rw [Nat.mul_succ, BitVec.ofNat_add]
        have hsub : data.length - k * (fragBlocks mtu * 8) - fragBlocks mtu * 8 =
            data.length - (k + 1) * (fragBlocks mtu * 8) := by
          omega
        have hpoff : ipHlen + k * (fragBlocks mtu * 8) + fragBlocks mtu * 8 =
            ipHlen + (k + 1) * (fragBlocks mtu * 8) := by
          omega
        simp only [hnot, decide_false, Bool.false_eq_true, if_false, hcop, hfull, hofo, hsub, hpoff,
          hrun, Option.map_some]
        rw [← sentFragment_of_lt h hlast, ← List.map_cons, ← List.range'_succ]
        refine ⟨ok, n + 1, rfl, by omega, hok.trans (by omega), ?_⟩
        rwa [Nat.add_sub_add_right] at hgranted
      · obtain rfl : k = lastPiece mtu data.length := by omega
        have hyes : ((data.length - lastPiece mtu data.length * (fragBlocks mtu * 8) : ℕ) : ℤ) ≤
            (mtu : ℤ) - ipHlen := by
          omega
        obtain ⟨rounds, rfl⟩ := Nat.exists_eq_succ_of_ne_zero (show rounds ≠ 0 by omega)
        simp only [hyes, decide_true, if_true, Nat.sub_self]
        rw [Nat.succ_eq_add_one, ipFragLoop, if_pos rfl, Option.map_some, ← sentFragment_last]
        exact ⟨true, 1, rfl, le_rfl, iff_of_true rfl rfl, iff_of_true rfl rfl⟩

/-! ## The receiver -/

/-- The fragments begin one after the other. -/
theorem FitMtu.cutOffs_lt {mtu : ℕ} (h : FitMtu mtu) {total k : ℕ} (htotal : 0 < total)
    (hk : k ≤ lastPiece mtu total) : cutOffs mtu total k < cutOffs mtu total (k + 1) := by
  obtain ⟨hpos, -⟩ := h.blocks
  have hend := (h.lastPiece_mul_lt htotal).1
  rw [cutOffs, cutOffs, if_pos hk]
  split_ifs with hnext
  · rw [Nat.add_mul, Nat.one_mul]
    omega
  · obtain rfl : k = lastPiece mtu total := by omega
    exact hend

/-- The data of a packet, as it is cut into fragments. -/
def IpHdr.cut (h : IpHdr) {mtu : ℕ} (hmtu : FitMtu mtu) (data : List UInt8)
    (hlong : mtu - ipHlen < data.length) : Cut where
  key := h.key
  data := data
  offs := cutOffs mtu data.length
  last := lastPiece mtu data.length
  two := (hmtu.lt_lastPiece_iff data.length 0).mpr (by omega)
  first := by rw [cutOffs, if_pos (Nat.zero_le _), Nat.zero_mul]
  ascending _ hk := hmtu.cutOffs_lt (by omega) hk
  total := by rw [cutOffs, if_neg (by omega)]

/-- The offset in the header of a fragment. -/
theorem offset_fragment {blocks : ℕ} (hblocks : blocks < 8192) (more : Prop) [Decidable more] :
    ((ipOffmask &&& BitVec.ofNat 16 blocks ||| if more then ipMf else 0) &&& ipOffmask).toNat =
        blocks ∧
      ((ipOffmask &&& BitVec.ofNat 16 blocks ||| if more then ipMf else 0) &&& ipMf = 0 ↔
        ¬ more) := by
  have hmask : (ipOffmask &&& BitVec.ofNat 16 blocks).toNat = blocks := by
    rw [BitVec.toNat_and, BitVec.toNat_ofNat, Nat.mod_eq_of_lt (by omega), Nat.and_comm]
    exact (Nat.and_two_pow_sub_one_eq_mod blocks 13).trans (Nat.mod_eq_of_lt hblocks)
  have hapart : ipOffmask &&& BitVec.ofNat 16 blocks &&& ipMf = 0 := by
    have hnone : ipOffmask &&& ipMf = 0 := by decide
    rw [BitVec.and_assoc, BitVec.and_comm _ ipMf, ← BitVec.and_assoc, hnone]
    exact BitVec.zero_and
  have hsame : ipOffmask &&& BitVec.ofNat 16 blocks &&& ipOffmask =
      ipOffmask &&& BitVec.ofNat 16 blocks := by
    rw [BitVec.and_comm, ← BitVec.and_assoc, BitVec.and_self]
  rw [BitVec.and_or_distrib_right, BitVec.and_or_distrib_right, hsame, hapart]
  have hor : ∀ x : BitVec 16, x ||| 0 = x := fun x => BitVec.or_zero
  split_ifs with hmore
  · have hflag : ipMf &&& ipOffmask = 0 := by decide
    rw [hflag, hor, hmask]
    exact ⟨rfl, iff_of_false (by decide) (not_not.mpr hmore)⟩
  · have hflag : 0 &&& ipOffmask = 0 := by decide
    rw [hflag, hor, hmask]
    exact ⟨rfl, iff_of_true (by decide) hmore⟩

/-- A fragment with its header is a piece of the data. -/
theorem IpHdr.cut_isPiece {h : IpHdr} {mtu : ℕ} (hmtu : FitMtu mtu) {data : List UInt8}
    (hlong : mtu - ipHlen < data.length) (hl : h.hl * 4 = ipHlen)
    (hshort : data.length + ipHlen < 65536) {k : ℕ} (hk : k ≤ lastPiece mtu data.length)
    {p : Datagram} (hp : (p.hdr, p.data) = sentFragment mtu h data k) :
    (h.cut hmtu data hlong).IsPiece k p := by
  obtain ⟨hhdr, hdata⟩ := Prod.mk.inj hp
  have hhlen : ipHlen = 20 := rfl
  have hlt := @FitMtu.cutOffs_lt _ hmtu data.length k (by omega) hk
  have hle : cutOffs mtu data.length (k + 1) ≤ data.length :=
    ((h.cut hmtu data hlong).offs_le (Nat.succ_le_succ hk) le_rfl).trans_eq
      (h.cut hmtu data hlong).total
  have hmul : cutOffs mtu data.length k = k * (fragBlocks mtu * 8) := if_pos hk
  have hblocks : fragBlocks mtu * k * 8 = k * (fragBlocks mtu * 8) := by
    rw [Nat.mul_comm _ k, Nat.mul_assoc]
  obtain ⟨hoff, hmf⟩ := @offset_fragment (fragBlocks mtu * k) (by omega)
    (k < lastPiece mtu data.length) _
  have hstart : p.start = cutOffs mtu data.length k := by
    rw [Datagram.start, hhdr]
    rw [hmul, ← hblocks]
    exact congrArg (· * 8) hoff
  have hlen : p.fragLen = cutOffs mtu data.length (k + 1) - cutOffs mtu data.length k := by
    have hhl : p.hdr.hl * 4 = 20 := by
      rw [hhdr]
      exact hl
    rw [Datagram.fragLen, hhl, hhdr]
    change (BitVec.ofNat 16 (_ + ipHlen) - BitVec.ofNat 16 20).toNat = _
    rw [BitVec.ofNat_add, hhlen, BitVec.add_sub_cancel, BitVec.toNat_ofNat]
    omega
  refine ⟨hk, ?_, ?_, hstart, ?_, ?_, hdata⟩
  · rw [hhdr]
    exact hl
  · rw [hhdr]
    rfl
  · change _ = cutOffs mtu data.length (k + 1)
    rw [Datagram.stop, hstart, hlen]
    omega
  · change _ ↔ k = lastPiece mtu data.length
    rw [Datagram.isLast, decide_eq_true_eq, hhdr]
    refine hmf.trans ?_
    omega

/-- A packet that is to be fragmented: it is longer than the MTU, there are no options in its
header, and it is not a fragment itself. -/
structure Fragmentable (mtu : ℕ) (h : IpHdr) (p : List (List UInt8)) : Prop where
  fit : FitMtu mtu
  hl : h.hl * 4 = ipHlen
  offset : h.offset &&& (ipMf ||| ipOffmask) = 0
  long : mtu < p.flatten.length
  short : p.flatten.length < 65536

/-- The number of the last fragment of a packet. -/
def lastFragment (mtu : ℕ) (p : List (List UInt8)) : ℕ :=
  lastPiece mtu (p.flatten.drop ipHlen).length

/-- The first fragments of a packet with their headers. -/
def sentFragments (mtu : ℕ) (h : IpHdr) (p : List (List UInt8)) (n : ℕ) :
    List (IpHdr × List UInt8) :=
  (List.range' 0 n).map (sentFragment mtu h (p.flatten.drop ipHlen))

/-- The flags and the offset of a packet that is not a fragment. -/
theorem Fragmentable.flags {mtu : ℕ} {h : IpHdr} {p : List (List UInt8)}
    (hp : Fragmentable mtu h p) : h.offset &&& ipMf = 0 ∧ h.offset &&& ipOffmask = 0 := by
  have hoffset := hp.offset
  rw [BitVec.and_or_distrib_left] at hoffset
  exact BitVec.or_eq_zero_iff.mp hoffset

/-- **What `ip_frag` sends**: the fragments from the first one on, and all of them exactly if it
returns `ERR_OK`, which it does if there is memory for them. -/
theorem Fragmentable.ipFrag_sends {mtu : ℕ} {h : IpHdr} {p : List (List UInt8)}
    (hp : Fragmentable mtu h p) (mem : List Bool) :
    ∃ ok n, ipFrag mtu h p mem = some (ok, sentFragments mtu h p n) ∧
      n ≤ lastFragment mtu p + 1 ∧ (ok = true ↔ n = lastFragment mtu p + 1) ∧
      (ok = true ↔ mem.take (lastFragment mtu p + 1) =
        List.replicate (lastFragment mtu p + 1) true) := by
  have hlong := hp.long
  have hshort := hp.short
  have hmtu := hp.fit.le
  have hhlen : ipHlen = 20 := rfl
  have hdata : (p.flatten.drop ipHlen).length = p.flatten.length - ipHlen := List.length_drop
  have hlast := (@FitMtu.lastPiece_mul_lt _ hp.fit (p.flatten.drop ipHlen).length (by omega)).2
  have hsends := @ipFragLoop_sends _ hp.fit h p _ rfl (by omega) (by omega)
    ((p.flatten.drop ipHlen).length + 1) 0 mem (Nat.zero_le _) (by omega)
  rw [Nat.zero_mul, Nat.sub_zero, Nat.mul_zero] at hsends
  obtain ⟨ok, n, hrun, hle, hok, hgranted⟩ := hsends
  rw [Nat.zero_add] at hle hok
  refine ⟨ok, n, ?_, hle, hok, hgranted⟩
  rw [ipFrag, hp.flags.1, hp.flags.2, ← hdata]
  exact hrun

/-- Two lists with the same image are related one by one. -/
theorem forall₂_of_map_eq {α β γ : Type*} {f : α → γ} {g : β → γ} {R : α → β → Prop}
    {is : List α} {ps : List β} (h : ps.map g = is.map f)
    (hrel : ∀ i ∈ is, ∀ p, g p = f i → R i p) : List.Forall₂ R is ps := by
  induction is generalizing ps with
  | nil =>
    obtain rfl := List.map_eq_nil_iff.mp h
    exact .nil
  | cons i is ih =>
    obtain ⟨p, ps, rfl, hp, hps⟩ := List.map_eq_cons_iff.mp h
    exact .cons (hrel i List.mem_cons_self p hp)
      (ih hps fun j hj => hrel j (List.mem_cons_of_mem _ hj))

/-- The header and the data of a packet that has arrived. -/
def Datagram.content (d : Datagram) : IpHdr × List UInt8 := (d.hdr, d.data)

/-- What a receiver does with the first fragments of a packet, in their order and in any pbufs. -/
theorem Fragmentable.received {mtu : ℕ} {h : IpHdr} {p : List (List UInt8)}
    (hp : Fragmentable mtu h p) {n : ℕ} (hn : n ≤ lastFragment mtu p + 1) {ps : List Datagram}
    (hps : ps.map Datagram.content = sentFragments mtu h p n) :
    ∃ s ds, Transition.run reassStep (Reass.empty, []) (ps.map .fragment) = some (s, ds) ∧
      (ds.map Datagram.content =
          [({ h with len := BitVec.ofNat 16 p.flatten.length, offset := 0 }.withChksum,
            p.flatten.drop ipHlen)] ↔
        n = lastFragment mtu p + 1 ∧ pbufClen ps ≤ ipReassMaxPbufs) ∧
      (¬ (n = lastFragment mtu p + 1 ∧ pbufClen ps ≤ ipReassMaxPbufs) → ds = []) := by
  have hlong := hp.long
  have hshort := hp.short
  have hmtu := hp.fit.le
  have hhlen : ipHlen = 20 := rfl
  have hdata : (p.flatten.drop ipHlen).length = p.flatten.length - ipHlen := List.length_drop
  let c := h.cut hp.fit (p.flatten.drop ipHlen) (by omega)
  have hpieces : List.Forall₂ c.IsPiece (List.range' 0 n) ps := by
    refine forall₂_of_map_eq hps fun k hk q hq => ?_
    rw [List.mem_range'_1] at hk
    exact IpHdr.cut_isPiece hp.fit _ hp.hl (by omega) (by rw [lastFragment] at hn; omega) hq
  have halone : c.Alone ps (List.range' 0 0) Reass.empty :=
    ⟨⟨Reass.empty_wf, Or.inl ⟨rfl, rfl⟩⟩, fun _ _ => rfl⟩
  obtain ⟨s, ds, hrun, hgood, hbad⟩ := halone.run [] (Nat.zero_le _) hpieces fun _ hq => hq
  have hcond : (0 + n = c.last + 1 ∧ Reass.empty.pbufcount + pbufClen ps ≤ ipReassMaxPbufs) ↔
      n = lastFragment mtu p + 1 ∧ pbufClen ps ≤ ipReassMaxPbufs := by
    have hzero : Reass.empty.pbufcount = 0 := rfl
    rw [hzero, Nat.zero_add, Nat.zero_add]
    rfl
  rw [hcond] at hgood hbad
  refine ⟨s, ds, hrun, ⟨fun hwhole => ?_, fun hall => ?_⟩, hbad⟩
  · by_contra hnot
    rw [hbad hnot] at hwhole
    simp at hwhole
  · obtain ⟨f, hf, -, d, rfl, hhdr, hdata'⟩ := hgood hall
    obtain ⟨k, -, hk⟩ := List.mem_map.mp (hps ▸ List.mem_map_of_mem hf)
    obtain ⟨hfhdr, -⟩ := Prod.mk.inj hk
    have htotal : c.data.length + ipHlen = p.flatten.length := by
      change (p.flatten.drop ipHlen).length + ipHlen = _
      omega
    rw [List.nil_append, List.map_singleton, Datagram.content, hhdr, hdata', Cut.header, htotal,
      ← hfhdr]
    rfl

/-- **Fragmentation and reassembly.** A receiver that gets what is sent of a packet, in this order
and in any pbufs, puts the whole packet together exactly if the sender has had memory for all
fragments and the receiver has room for all the pbufs; otherwise it delivers nothing. -/
theorem ipFrag_ipReass {mtu : ℕ} {h : IpHdr} {p : List (List UInt8)}
    (hp : Fragmentable mtu h p) (mem : List Bool) :
    ∃ ok fs, ipFrag mtu h p mem = some (ok, fs) ∧
      (ok = true ↔ mem.take (lastFragment mtu p + 1) =
        List.replicate (lastFragment mtu p + 1) true) ∧
      ∀ ps : List Datagram, ps.map Datagram.content = fs →
        ∃ s ds, Transition.run reassStep (Reass.empty, []) (ps.map .fragment) = some (s, ds) ∧
          (ds.map Datagram.content =
              [({ h with len := BitVec.ofNat 16 p.flatten.length, offset := 0 }.withChksum,
                p.flatten.drop ipHlen)] ↔ ok = true ∧ pbufClen ps ≤ ipReassMaxPbufs) ∧
          (¬ (ok = true ∧ pbufClen ps ≤ ipReassMaxPbufs) → ds = []) := by
  obtain ⟨ok, n, hsent, hle, hok, hgranted⟩ := hp.ipFrag_sends mem
  refine ⟨ok, _, hsent, hgranted, fun ps hps => ?_⟩
  rw [hok]
  exact hp.received hle hps

/-- A packet of 80 bytes in two pbufs. -/
def twoPbufs : List (List UInt8) := [List.replicate 40 1, List.replicate 40 2]

/-- The packet in three fragments, the first one of which has bytes of both pbufs. -/
theorem ipFrag_ipReass_three : ∃ fs, ipFrag 44 (someFragment 1 0 [] 1).hdr twoPbufs
    [true, true, true, false] = some (true, fs) ∧ fs.map (fun f => f.2.length) = [24, 24, 12] ∧
    ∀ ps : List Datagram, ps.map Datagram.content = fs → pbufClen ps = 4 →
      ∃ s ds, Transition.run reassStep (Reass.empty, []) (ps.map .fragment) = some (s, ds) ∧
        ds.map Datagram.content =
          [({ (someFragment 1 0 [] 1).hdr with len := 80, offset := 0 }.withChksum,
            twoPbufs.flatten.drop ipHlen)] := by
  have hp : Fragmentable 44 (someFragment 1 0 [] 1).hdr twoPbufs :=
    ⟨⟨by decide, by decide⟩, by decide, by decide, by decide, by decide⟩
  obtain ⟨ok, fs, hsent, hgranted, hreceived⟩ := ipFrag_ipReass hp [true, true, true, false]
  obtain rfl := hgranted.mpr (by decide)
  have hlengths : (ipFrag 44 (someFragment 1 0 [] 1).hdr twoPbufs [true, true, true, false]).map
      (fun r => r.2.map fun f => f.2.length) = some [24, 24, 12] := by decide +kernel
  rw [hsent] at hlengths
  refine ⟨fs, hsent, Option.some.inj hlengths, fun ps hps hclen => ?_⟩
  obtain ⟨s, ds, hrun, hwhole, -⟩ := hreceived ps hps
  exact ⟨s, ds, hrun, hwhole.mpr ⟨rfl, by rw [hclen]; decide⟩⟩

end WifiMcu.Lwip
