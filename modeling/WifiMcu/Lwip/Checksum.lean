import Mathlib.Algebra.Group.Nat.Even
import WifiMcu.Library.OnesComplement
import WifiMcu.Lwip.Etharp
import WifiMcu.System.Ping

/-!
# The Internet checksum

The ones' complement sum of the 16-bit words of some data. The machine is little-endian, so
that the data are a number to the base 256 with the first byte as the last digit, and the
sum is this number modulo 65535.
-/

namespace WifiMcu.Lwip

open OnesComplement WifiMcu.System

/-- `IP_HLEN`. -/
def ipHlen : ℕ := 20

/-! ## The algorithms -/

/-- `FOLD_U32T`. -/
def foldU32 (u : BitVec 32) : BitVec 32 := (u >>> 16) + (u &&& 0xffff)

/-- `SWAP_BYTES_IN_WORD`. -/
def swapBytesInWord (w : BitVec 32) : BitVec 32 := (w &&& 0xff) <<< 8 ||| (w &&& 0xff00) >>> 8

/-- A word in memory, and a double word. -/
def word (low high : UInt8) : BitVec 16 := high.toBitVec ++ low.toBitVec

@[inherit_doc word] def doubleWord (b₀ b₁ b₂ b₃ : UInt8) : BitVec 32 := word b₂ b₃ ++ word b₀ b₁

/-- The loop of `lwip_standard_chksum` over words, and the byte that is left over. -/
def addWords (sum : BitVec 32) : List UInt8 → BitVec 32 × List UInt8
  | low :: high :: data => addWords (sum + (word low high).setWidth 32) data
  | last => (sum, last)

/-- The end of `lwip_standard_chksum`: the bytes at the ends are added, and the bytes of the
sum are exchanged if the address was odd. -/
def finishChksum (odd : ℕ) (first last : List UInt8) (sum : BitVec 32) : BitVec 16 :=
  let t := word (last.headD 0) (first.headD 0)
  let sum := foldU32 (foldU32 (sum + t.setWidth 32))
  (if odd = 0 then sum else swapBytesInWord sum).setWidth 16

/-- `lwip_standard_chksum`, the version that is chosen, for data at an address. -/
def lwipStandardChksum (dataptr : ℕ) (data : List UInt8) : BitVec 16 :=
  let odd := dataptr % 2
  let (sum, last) := addWords 0#32 (data.drop odd)
  finishChksum odd (data.take odd) last sum

/-- The loop of the first version, which takes the first byte of a word as the high one. -/
def addNetworkWords (acc : BitVec 32) : List UInt8 → BitVec 32
  | high :: low :: data => addNetworkWords (acc + (word low high).setWidth 32) data
  | [high] => acc + (word 0 high).setWidth 32
  | [] => acc

/-- `lwip_standard_chksum`, version 1. -/
def lwipStandardChksum1 (data : List UInt8) : BitVec 16 :=
  let acc := addNetworkWords 0#32 data
  let acc := (acc >>> 16) + (acc &&& 0xffff)
  let acc := if acc &&& 0xffff0000 ≠ 0 then (acc >>> 16) + (acc &&& 0xffff) else acc
  htons (acc.setWidth 16)

/-- Add a double word, and the carry as well. -/
def addWithCarry (sum word : BitVec 32) : BitVec 32 :=
  if sum + word < sum then sum + word + 1#32 else sum + word

/-- The loop of the third version over eight bytes, and the bytes that are left over. -/
def addDoubleWords (sum : BitVec 32) : List UInt8 → BitVec 32 × List UInt8
  | b₀ :: b₁ :: b₂ :: b₃ :: b₄ :: b₅ :: b₆ :: b₇ :: data =>
    addDoubleWords
      (addWithCarry (addWithCarry sum (doubleWord b₀ b₁ b₂ b₃)) (doubleWord b₄ b₅ b₆ b₇)) data
  | data => (sum, data)

/-- The word in front of the first double word in the third version, and the rest. -/
def alignWords (ps : ℕ) : List UInt8 → BitVec 32 × List UInt8
  | low :: high :: data =>
    if ps % 4 ≠ 0 then (0#32 + (word low high).setWidth 32, data) else (0#32, low :: high :: data)
  | data => (0#32, data)

/-- `lwip_standard_chksum`, version 3, for data at an address. -/
def lwipStandardChksum3 (dataptr : ℕ) (data : List UInt8) : BitVec 16 :=
  let odd := dataptr % 2
  let (sum, pl) := alignWords (dataptr + odd) (data.drop odd)
  let (sum, ps) := addDoubleWords sum pl
  let (sum, last) := addWords (foldU32 sum) ps
  finishChksum odd (data.take odd) last sum

/-- `inet_chksum`. -/
def inetChksum (dataptr : ℕ) (data : List UInt8) : BitVec 16 := ~~~lwipStandardChksum dataptr data

/-- A pbuf of a chain, as far as it is summed: the address and the bytes of its payload. -/
structure Segment where
  payload : ℕ
  bytes : List UInt8
  length_lt : bytes.length < 65536

/-- What a chain of pbufs contains. -/
def content (chain : List Segment) : List UInt8 := chain.flatMap Segment.bytes

/-- The loop over a chain in `inet_chksum_pbuf` and `inet_chksum_pseudo`. -/
def chksumLoop (acc : BitVec 32) (swapped : Bool) : List Segment → BitVec 32
  | [] => if swapped then swapBytesInWord acc else acc
  | q :: chain =>
    let acc := foldU32 (acc + (lwipStandardChksum q.payload q.bytes).setWidth 32)
    if q.bytes.length % 2 ≠ 0 then chksumLoop (swapBytesInWord acc) (!swapped) chain
    else chksumLoop acc swapped chain

/-- `inet_chksum_pbuf`. -/
def inetChksumPbuf (p : List Segment) : BitVec 16 := ~~~(chksumLoop 0#32 false p).setWidth 16

/-- The sum with the two halves of an address. -/
def addAddress (acc addr : BitVec 32) : BitVec 32 :=
  acc + (addr &&& 0xffff#32) + (addr >>> 16 &&& 0xffff#32)

/-- `inet_chksum_pseudo`. The addresses are in network byte order. -/
def inetChksumPseudo (p : List Segment) (src dest : BitVec 32) (proto : BitVec 8)
    (protoLen : BitVec 16) : BitVec 16 :=
  let acc := chksumLoop 0#32 false p
  let acc := addAddress (addAddress acc src) dest
  let acc := acc + (htons (proto.setWidth 16)).setWidth 32 + (htons protoLen).setWidth 32
  ~~~(foldU32 (foldU32 acc)).setWidth 16

/-! ## The sum that they compute -/

/-- Data as a number. -/
def value (data : List UInt8) : ℕ := Nat.ofDigits 256 (data.map UInt8.toNat)

/-- Without data the number is zero. -/
@[simp] theorem value_nil : value [] = 0 := rfl

/-- The first byte is the last digit. -/
@[simp] theorem value_cons (b : UInt8) (data : List UInt8) :
    value (b :: data) = b.toNat + 256 * value data := by
  rw [value, List.map_cons, Nat.ofDigits_cons, ← value]

/-- The second part of the data is shifted by the length of the first one. -/
theorem value_append (data data' : List UInt8) :
    value (data ++ data') = value data + 256 ^ data.length * value data' := by
  rw [value, List.map_append, Nat.ofDigits_append, List.length_map, ← value, ← value]

/-- The first word is added to the sum of the other ones. -/
theorem same_value_cons_cons (b b' : UInt8) (data : List UInt8) :
    Same 65535 (value (b :: b' :: data)) (b.toNat + 256 * b'.toNat + value data) := by
  rw [value, List.map_cons, List.map_cons]
  exact same_ofDigits_cons_cons (b := 256) (by decide) _ _ _

/-- The bytes of a word are its digits. -/
theorem toNat_word (low high : UInt8) : (word low high).toNat = low.toNat + 256 * high.toNat := by
  have hlow := low.toNat_lt
  rw [word, BitVec.toNat_append, UInt8.toNat_toBitVec, UInt8.toNat_toBitVec,
    ← Nat.shiftLeft_add_eq_or_of_lt hlow, Nat.shiftLeft_eq, Nat.mul_comm, Nat.add_comm]

/-- Folding adds the halves. -/
theorem toNat_foldU32 (u : BitVec 32) :
    (foldU32 u).toNat = u.toNat / 65536 + u.toNat % 65536 := by
  have hu := u.isLt
  have hmask : (u &&& 0xffff).toNat = u.toNat % 65536 := by
    rw [BitVec.toNat_and]
    exact Nat.and_two_pow_sub_one_eq_mod u.toNat 16
  rw [foldU32, BitVec.toNat_add, BitVec.toNat_ushiftRight, hmask, Nat.shiftRight_eq_div_pow]
  omega

/-- Folding does not change the sum. -/
theorem same_foldU32 (u : BitVec 32) : Same 65535 (foldU32 u).toNat u.toNat := by
  rw [toNat_foldU32]
  exact same_fold (b := 65536) (by decide) u.toNat

/-- Two folds are enough for every sum. -/
theorem foldU32_foldU32_le (u : BitVec 32) : (foldU32 (foldU32 u)).toNat ≤ 65535 := by
  have hu := u.isLt
  rw [toNat_foldU32, toNat_foldU32]
  omega

/-- Swapping the bytes exchanges the digits. -/
theorem toNat_swapBytesInWord {w : BitVec 32} (hw : w.toNat ≤ 65535) :
    (swapBytesInWord w).toNat = w.toNat % 256 * 256 + w.toNat / 256 := by
  have hlow : (w &&& 0xff).toNat = w.toNat % 256 := by
    rw [BitVec.toNat_and]
    exact Nat.and_two_pow_sub_one_eq_mod w.toNat 8
  have hhigh : ((w &&& 0xff00) >>> 8).toNat = w.toNat / 256 := by
    rw [BitVec.toNat_ushiftRight, BitVec.toNat_and, Nat.shiftRight_and_distrib,
      Nat.shiftRight_eq_div_pow]
    have hmask : (0xff00 : BitVec 32).toNat >>> 8 = 2 ^ 8 - 1 := by decide
    rw [hmask, Nat.and_two_pow_sub_one_eq_mod]
    omega
  have hshift : ((w &&& 0xff) <<< 8).toNat = w.toNat % 256 * 256 := by
    rw [BitVec.toNat_shiftLeft, hlow, Nat.shiftLeft_eq]
    omega
  rw [swapBytesInWord, BitVec.toNat_or, hshift, hhigh]
  have hlt : w.toNat / 256 < 2 ^ 8 := by omega
  have hor := Nat.shiftLeft_add_eq_or_of_lt hlt (w.toNat % 256)
  rw [Nat.shiftLeft_eq] at hor
  exact hor.symm

/-- Swapping the bytes shifts by a digit. -/
theorem same_swapBytesInWord {w : BitVec 32} (hw : w.toNat ≤ 65535) :
    Same 65535 (swapBytesInWord w).toNat (256 * w.toNat) := by
  rw [toNat_swapBytesInWord hw]
  exact same_swap (b := 256) (by decide) w.toNat

/-- A word stays a word with its bytes swapped. -/
theorem swapBytesInWord_le {w : BitVec 32} (hw : w.toNat ≤ 65535) :
    (swapBytesInWord w).toNat ≤ 65535 := by
  rw [toNat_swapBytesInWord hw]
  omega

/-- **Step lemma.** What is added to a sum is added to the number. -/
theorem toNat_add_setWidth {sum : BitVec 32} (w : BitVec 16) (h : sum.toNat + 65535 < 2 ^ 32) :
    (sum + w.setWidth 32).toNat = sum.toNat + w.toNat := by
  have hw := w.isLt
  rw [BitVec.toNat_add, BitVec.toNat_setWidth, Nat.mod_eq_of_lt (b := 2 ^ 32) (by omega),
    Nat.mod_eq_of_lt (by omega)]

/-- **Loop.** The words are added up to the byte that is left over. -/
theorem addWords_same (data : List UInt8) {sum : BitVec 32}
    (h : sum.toNat + data.length / 2 * 65535 < 2 ^ 32) :
    Same 65535 ((addWords sum data).1.toNat + value (addWords sum data).2)
        (sum.toNat + value data) ∧
      (addWords sum data).1.toNat ≤ sum.toNat + data.length / 2 * 65535 ∧
      (addWords sum data).2.length ≤ 1 := by
  induction sum, data using addWords.induct with
  | case1 sum low high data ih =>
    have hlength : (low :: high :: data).length / 2 = data.length / 2 + 1 := by
      rw [List.length_cons, List.length_cons]
      omega
    rw [hlength] at h ⊢
    have hroom : sum.toNat + 65535 < 2 ^ 32 := by omega
    have hword := toNat_word low high
    have hlt := (word low high).isLt
    have hsum := toNat_add_setWidth (word low high) hroom
    obtain ⟨hsame, hle, hlast⟩ := ih (by omega)
    rw [addWords]
    refine ⟨hsame.trans ?_, by omega, hlast⟩
    rw [hsum, hword, Nat.add_assoc]
    exact (Same.refl _).add (same_value_cons_cons low high data).symm
  | case2 sum last hlast =>
    rw [addWords]
    · refine ⟨Same.refl _, Nat.le_add_right _ _, ?_⟩
      rcases last with _ | ⟨a, _ | ⟨b, data⟩⟩
      · exact Nat.zero_le 1
      · exact Nat.le_refl 1
      · exact absurd rfl (hlast a b data)
    · exact hlast

/-- The end of a sum that has room for another word. -/
theorem finishChksum_same {odd : ℕ} {first last : List UInt8} {sum : BitVec 32}
    (hroom : sum.toNat + 65535 < 2 ^ 32) (hfirst : first.length ≤ odd) (hodd : odd ≤ 1)
    (hlast : last.length ≤ 1) :
    Same 65535 (finishChksum odd first last sum).toNat
      (value first + 256 ^ odd * (sum.toNat + value last)) := by
  let t := word (last.headD 0) (first.headD 0)
  have hone (data : List UInt8) (h : data.length ≤ 1) : (data.headD 0).toNat = value data := by
    rcases data with _ | ⟨b, _ | ⟨b', data⟩⟩
    · rfl
    · rw [value_cons, value_nil]
      rfl
    · rw [List.length_cons, List.length_cons] at h
      omega
  have ht : t.toNat = value last + 256 * value first := by
    rw [toNat_word, hone last hlast, hone first (by omega)]
  let folded := foldU32 (foldU32 (sum + t.setWidth 32))
  have hle : folded.toNat ≤ 65535 := foldU32_foldU32_le _
  have hfolded : Same 65535 folded.toNat (sum.toNat + value last + 256 * value first) := by
    have h := (same_foldU32 _).trans (same_foldU32 (sum + t.setWidth 32))
    rwa [toNat_add_setWidth t hroom, ht, ← Nat.add_assoc] at h
  have hwidth (u : BitVec 32) (h : u.toNat ≤ 65535) : (u.setWidth 16).toNat = u.toNat := by
    rw [BitVec.toNat_setWidth, Nat.mod_eq_of_lt (by omega)]
  change Same 65535 ((if odd = 0 then folded else swapBytesInWord folded).setWidth 16).toNat _
  by_cases hzero : odd = 0
  · have hnil : first = [] := List.eq_nil_of_length_eq_zero (by omega)
    rw [hnil, value_nil, Nat.mul_zero, Nat.add_zero] at hfolded
    rw [if_pos hzero, hwidth _ hle, hnil, value_nil, hzero, Nat.zero_add, Nat.pow_zero, Nat.one_mul]
    exact hfolded
  · have hone : odd = 1 := by omega
    rw [if_neg hzero, hwidth _ (swapBytesInWord_le hle), hone, Nat.pow_one, Nat.add_comm]
    apply (same_swapBytesInWord hle).trans
    apply (hfolded.mul_left 256).trans
    rw [Nat.mul_add]
    exact (Same.refl _).add (same_mul_mul (b := 256) (by decide) _)

/-- The sum of no word is too large. -/
theorem toNat_le_word (sum : BitVec 16) : sum.toNat ≤ 65535 := Nat.le_of_lt_succ sum.isLt

/-- The first bytes of some data, and the rest. -/
theorem value_take_drop (n : ℕ) (data : List UInt8) :
    value data = value (data.take n) + 256 ^ (data.take n).length * value (data.drop n) := by
  rw [← value_append, List.take_append_drop]

/-- Data in front of which there is a byte of its own, if the address is odd. -/
theorem same_value_take_drop {odd : ℕ} (hodd : odd ≤ 1) (data : List UInt8) {n : ℕ}
    (h : Same 65535 n (value (data.drop odd))) :
    Same 65535 (value (data.take odd) + 256 ^ odd * n) (value data) := by
  have hsame : Same 65535 (value (data.take odd) + 256 ^ odd * n)
      (value (data.take odd) + 256 ^ odd * value (data.drop odd)) :=
    (Same.refl _).add (h.mul_left _)
  by_cases hlength : odd ≤ data.length
  · have htake : (data.take odd).length = odd := by rw [List.length_take, Nat.min_eq_left hlength]
    rw [value_take_drop odd data, htake]
    exact hsame
  · have hnil : data = [] := List.eq_nil_of_length_eq_zero (by omega)
    rw [hnil, List.drop_nil, value_nil] at h
    rw [hnil, List.take_nil, value_nil, Nat.zero_add]
    have hmul := h.mul_left (256 ^ odd)
    rwa [Nat.mul_zero] at hmul

/-- **Standard checksum.** The sum of the data is the data as a number. -/
theorem lwipStandardChksum_same (dataptr : ℕ) {data : List UInt8} (h : data.length < 65536) :
    Same 65535 (lwipStandardChksum dataptr data).toNat (value data) := by
  have hodd : dataptr % 2 ≤ 1 := by omega
  have hdrop : (data.drop (dataptr % 2)).length / 2 ≤ 32767 := by
    rw [List.length_drop]
    omega
  obtain ⟨hwords, hle, hlast⟩ := @addWords_same (data.drop (dataptr % 2)) 0#32 (by
    rw [BitVec.toNat_zero]
    omega)
  rw [BitVec.toNat_zero, Nat.zero_add] at hwords hle
  have hfinish := @finishChksum_same (dataptr % 2) (data.take (dataptr % 2)) _
    (addWords 0#32 (data.drop (dataptr % 2))).1 (by omega) (List.length_take_le _ _) hodd hlast
  exact hfinish.trans (same_value_take_drop hodd data hwords)

/-! ### The other versions -/

/-- `htons` exchanges the digits. -/
theorem toNat_htons (n : BitVec 16) : (htons n).toNat = n.toNat % 256 * 256 + n.toNat / 256 := by
  have hn := n.isLt
  have hlow : (n &&& 0xff).toNat = n.toNat % 256 := by
    rw [BitVec.toNat_and]
    exact Nat.and_two_pow_sub_one_eq_mod n.toNat 8
  have hhigh : ((n &&& 0xff00) >>> 8).toNat = n.toNat / 256 := by
    rw [BitVec.toNat_ushiftRight, BitVec.toNat_and, Nat.shiftRight_and_distrib,
      Nat.shiftRight_eq_div_pow]
    have hmask : (0xff00 : BitVec 16).toNat >>> 8 = 2 ^ 8 - 1 := by decide
    rw [hmask, Nat.and_two_pow_sub_one_eq_mod]
    omega
  have hshift : ((n &&& 0xff) <<< 8).toNat = n.toNat % 256 * 256 := by
    rw [BitVec.toNat_shiftLeft, hlow, Nat.shiftLeft_eq]
    omega
  rw [htons, BitVec.toNat_or, hshift, hhigh]
  have hlt : n.toNat / 256 < 2 ^ 8 := by omega
  have hor := Nat.shiftLeft_add_eq_or_of_lt hlt (n.toNat % 256)
  rw [Nat.shiftLeft_eq] at hor
  exact hor.symm

/-- `htons` shifts by a digit. -/
theorem same_htons (n : BitVec 16) : Same 65535 (htons n).toNat (256 * n.toNat) := by
  rw [toNat_htons]
  exact same_swap (b := 256) (by decide) n.toNat

/-- **Loop.** The first version adds up the words with their bytes exchanged. -/
theorem addNetworkWords_same (data : List UInt8) {acc : BitVec 32}
    (h : acc.toNat + (data.length + 1) / 2 * 65535 < 2 ^ 32) :
    Same 65535 (addNetworkWords acc data).toNat (acc.toNat + 256 * value data) := by
  induction acc, data using addNetworkWords.induct with
  | case1 acc high low data ih =>
    have hlength : ((high :: low :: data).length + 1) / 2 = (data.length + 1) / 2 + 1 := by
      rw [List.length_cons, List.length_cons]
      omega
    rw [hlength] at h
    have hroom : acc.toNat + 65535 < 2 ^ 32 := by omega
    have hsum := toNat_add_setWidth (word low high) hroom
    have hlt := (word low high).isLt
    have hswapped : Same 65535 (256 * (high.toNat + 256 * low.toNat)) (word low high).toNat := by
      rw [toNat_word, Nat.mul_add, Nat.add_comm]
      exact (same_mul_mul (b := 256) (by decide) _).add (Same.refl _)
    rw [addNetworkWords]
    apply (ih (by omega)).trans
    rw [hsum, Nat.add_assoc]
    apply (Same.refl _).add
    apply Same.trans _ ((same_value_cons_cons high low data).mul_left 256).symm
    rw [Nat.mul_add]
    exact hswapped.symm.add (Same.refl _)
  | case2 acc high =>
    have hroom : acc.toNat + 65535 < 2 ^ 32 := by
      rwa [List.length_singleton, Nat.one_mul] at h
    have hzero : (0 : UInt8).toNat = 0 := rfl
    rw [addNetworkWords, toNat_add_setWidth _ hroom, toNat_word, value_cons, value_nil, hzero,
      Nat.zero_add, Nat.mul_zero, Nat.add_zero]
    exact Same.refl _
  | case3 acc =>
    rw [addNetworkWords, value_nil]
    exact Same.refl _

/-- A number without bits above the lower half is one of 16 bits. -/
theorem toNat_le_of_and_eq_zero {u : BitVec 32} (h : u &&& 0xffff0000 = 0) : u.toNat ≤ 65535 := by
  by_contra hle
  have hge : u.toNat ≥ 2 ^ 16 := by omega
  obtain ⟨i, hi, hbit⟩ := Nat.exists_ge_and_testBit_of_ge_two_pow hge
  have hlt : i < 32 := by
    by_contra hi'
    have hsmall := Nat.testBit_lt_two_pow (Nat.lt_of_lt_of_le u.isLt
      (Nat.pow_le_pow_right Nat.zero_lt_two (Nat.le_of_not_lt hi')))
    rw [hbit] at hsmall
    cases hsmall
  have hmask : ∀ j : Fin 32, 16 ≤ j.val → (0xffff0000 : BitVec 32).getLsbD j.val = true := by decide
  have hand : (u &&& 0xffff0000).getLsbD i = true := by
    rw [BitVec.getLsbD_and, hmask ⟨i, hlt⟩ hi, Bool.and_true]
    exact hbit
  rw [h] at hand
  cases hand.symm.trans BitVec.getLsbD_zero

/-- The first version. -/
theorem lwipStandardChksum1_same {data : List UInt8} (h : data.length < 65536) :
    Same 65535 (lwipStandardChksum1 data).toNat (value data) := by
  have hroom : (0#32).toNat + (data.length + 1) / 2 * 65535 < 2 ^ 32 := by
    rw [BitVec.toNat_zero]
    omega
  have hloop := addNetworkWords_same data hroom
  rw [BitVec.toNat_zero, Nat.zero_add] at hloop
  let acc := foldU32 (addNetworkWords 0#32 data)
  let folded := if acc &&& 0xffff0000 ≠ 0 then foldU32 acc else acc
  have hacc : Same 65535 acc.toNat (256 * value data) := (same_foldU32 _).trans hloop
  have hfolded : Same 65535 folded.toNat (256 * value data) ∧ folded.toNat ≤ 65535 := by
    by_cases hcarry : acc &&& 0xffff0000 ≠ 0
    · have hfold : folded = foldU32 acc := if_pos hcarry
      rw [hfold]
      exact ⟨(same_foldU32 acc).trans hacc, foldU32_foldU32_le _⟩
    · have hfold : folded = acc := if_neg hcarry
      rw [hfold]
      exact ⟨hacc, toNat_le_of_and_eq_zero (not_not.mp hcarry)⟩
  change Same 65535 (htons (folded.setWidth 16)).toNat _
  apply (same_htons _).trans
  rw [BitVec.toNat_setWidth, Nat.mod_eq_of_lt (by omega)]
  exact (hfolded.1.mul_left 256).trans (same_mul_mul (b := 256) (by decide) _)

/-- Adding with the carry is a fold of the whole sum. -/
theorem toNat_addWithCarry (sum word : BitVec 32) :
    (addWithCarry sum word).toNat =
      (sum.toNat + word.toNat) / 2 ^ 32 + (sum.toNat + word.toNat) % 2 ^ 32 := by
  have hsum := sum.isLt
  have hword := word.isLt
  rw [addWithCarry]
  by_cases hcarry : sum + word < sum
  · rw [if_pos hcarry]
    rw [BitVec.lt_def, BitVec.toNat_add] at hcarry
    rw [BitVec.toNat_add, BitVec.toNat_add, BitVec.toNat_ofNat]
    omega
  · rw [if_neg hcarry]
    rw [BitVec.lt_def, BitVec.toNat_add] at hcarry
    rw [BitVec.toNat_add]
    omega

/-- Adding with the carry is adding. -/
theorem same_addWithCarry (sum word : BitVec 32) :
    Same 65535 (addWithCarry sum word).toNat (sum.toNat + word.toNat) := by
  rw [toNat_addWithCarry]
  exact (same_fold (b := 2 ^ 32) (by decide) _).of_dvd (by decide)

/-- A double word has its bytes as digits. -/
theorem toNat_doubleWord (b₀ b₁ b₂ b₃ : UInt8) :
    (doubleWord b₀ b₁ b₂ b₃).toNat = value [b₀, b₁, b₂, b₃] := by
  have hlow := (word b₀ b₁).isLt
  rw [doubleWord, BitVec.toNat_append, ← Nat.shiftLeft_add_eq_or_of_lt hlow, Nat.shiftLeft_eq,
    toNat_word, toNat_word, value_cons, value_cons, value_cons, value_cons, value_nil]
  omega

/-- **Loop.** The double words are added up to the bytes that are left over. -/
theorem addDoubleWords_same (sum : BitVec 32) (data : List UInt8) :
    Same 65535 ((addDoubleWords sum data).1.toNat + value (addDoubleWords sum data).2)
        (sum.toNat + value data) ∧
      (addDoubleWords sum data).2.length ≤ 7 := by
  induction sum, data using addDoubleWords.induct with
  | case1 sum b₀ b₁ b₂ b₃ b₄ b₅ b₆ b₇ data ih =>
    obtain ⟨hsame, hlast⟩ := ih
    rw [addDoubleWords]
    refine ⟨hsame.trans ?_, hlast⟩
    have hpow (n : ℕ) : Same 65535 (256 ^ 4 * n) n := by
      have h := same_pow_mul (b := 256) (by decide) 4 n
      rwa [Nat.pow_zero, Nat.one_mul] at h
    have hfirst : value (b₀ :: b₁ :: b₂ :: b₃ :: b₄ :: b₅ :: b₆ :: b₇ :: data) =
        value [b₀, b₁, b₂, b₃] + 256 ^ 4 * (value [b₄, b₅, b₆, b₇] + 256 ^ 4 * value data) := by
      have hbehind := value_append [b₄, b₅, b₆, b₇] data
      have hfront := value_append [b₀, b₁, b₂, b₃] ([b₄, b₅, b₆, b₇] ++ data)
      rw [hbehind] at hfront
      exact hfront
    have hdata : Same 65535 (value [b₀, b₁, b₂, b₃] + (value [b₄, b₅, b₆, b₇] + value data))
        (value (b₀ :: b₁ :: b₂ :: b₃ :: b₄ :: b₅ :: b₆ :: b₇ :: data)) := by
      rw [hfirst]
      apply (Same.refl _).add
      exact ((Same.refl _).add (hpow _).symm).trans (hpow _).symm
    have hsum := (same_addWithCarry _ (doubleWord b₄ b₅ b₆ b₇)).trans
      ((same_addWithCarry sum (doubleWord b₀ b₁ b₂ b₃)).add (Same.refl _))
    rw [toNat_doubleWord, toNat_doubleWord] at hsum
    apply (hsum.add (Same.refl (value data))).trans
    rw [Nat.add_assoc, Nat.add_assoc]
    exact (Same.refl _).add hdata
  | case2 sum data hshort =>
    rw [addDoubleWords]
    · refine ⟨Same.refl _, ?_⟩
      by_contra hlong
      rcases data with _ | ⟨b₀, _ | ⟨b₁, _ | ⟨b₂, _ | ⟨b₃, _ | ⟨b₄, _ | ⟨b₅, _ | ⟨b₆, _ | ⟨b₇, data⟩⟩⟩⟩⟩⟩⟩⟩
      on_goal 9 => exact hshort _ _ _ _ _ _ _ _ _ rfl
      all_goals exact hlong (Nat.le_of_ble_eq_true rfl)
    · exact hshort

/-- The word in front. -/
theorem alignWords_same (ps : ℕ) (data : List UInt8) :
    Same 65535 ((alignWords ps data).1.toNat + value (alignWords ps data).2) (value data) := by
  have hnone : Same 65535 ((0#32).toNat + value data) (value data) := by
    rw [BitVec.toNat_zero, Nat.zero_add]
    exact Same.refl _
  rcases data with _ | ⟨low, _ | ⟨high, data⟩⟩
  · exact hnone
  · exact hnone
  · rw [alignWords]
    split_ifs
    · rw [toNat_add_setWidth _ (by decide), toNat_word, BitVec.toNat_zero, Nat.zero_add]
      exact (same_value_cons_cons low high data).symm
    · exact hnone

/-- The third version. -/
theorem lwipStandardChksum3_same (dataptr : ℕ) (data : List UInt8) :
    Same 65535 (lwipStandardChksum3 dataptr data).toNat (value data) := by
  have hodd : dataptr % 2 ≤ 1 := by omega
  have halign := alignWords_same (dataptr + dataptr % 2) (data.drop (dataptr % 2))
  let aligned := alignWords (dataptr + dataptr % 2) (data.drop (dataptr % 2))
  obtain ⟨hdouble, hseven⟩ := addDoubleWords_same aligned.1 aligned.2
  let added := addDoubleWords aligned.1 aligned.2
  have hfold : (foldU32 added.1).toNat ≤ 131070 := by
    have hlt := added.1.isLt
    rw [toNat_foldU32]
    omega
  have hlength : added.2.length / 2 ≤ 3 := by
    have hle : added.2.length ≤ 7 := hseven
    omega
  have hroom : (foldU32 added.1).toNat + added.2.length / 2 * 65535 < 2 ^ 32 := by omega
  obtain ⟨hwords, hle, hlast⟩ := addWords_same added.2 hroom
  have hsum : Same 65535 ((addWords (foldU32 added.1) added.2).1.toNat +
      value (addWords (foldU32 added.1) added.2).2) (value (data.drop (dataptr % 2))) :=
    ((hwords.trans ((same_foldU32 _).add (Same.refl _))).trans hdouble).trans halign
  have hfinish := @finishChksum_same (dataptr % 2) (data.take (dataptr % 2)) _
    (addWords (foldU32 added.1) added.2).1 (by omega) (List.length_take_le _ _) hodd hlast
  exact hfinish.trans (same_value_take_drop hodd data hsum)

/-- Sums of 16 bits that are the same number are equal. -/
theorem eq_of_same {c c' : BitVec 16} {n : ℕ} (h : Same 65535 c.toNat n)
    (h' : Same 65535 c'.toNat n) : c = c' :=
  BitVec.eq_of_toNat_eq ((h.trans h'.symm).eq (toNat_le_word c) (toNat_le_word c'))

/-- **Versions.** Whatever the data are and wherever they lie, each of the three versions of
`lwip_standard_chksum` computes the same sum. -/
theorem lwipStandardChksum_versions (dataptr dataptr' : ℕ) {data : List UInt8}
    (h : data.length < 65536) :
    lwipStandardChksum dataptr data = lwipStandardChksum1 data ∧
      lwipStandardChksum3 dataptr' data = lwipStandardChksum1 data :=
  ⟨eq_of_same (lwipStandardChksum_same dataptr h) (lwipStandardChksum1_same h),
    eq_of_same (lwipStandardChksum3_same dataptr' data) (lwipStandardChksum1_same h)⟩

/-- Three bytes at an odd address. -/
theorem lwipStandardChksum_versions_three :
    lwipStandardChksum 1 [0x12, 0x34, 0x56] = lwipStandardChksum1 [0x12, 0x34, 0x56] ∧
      lwipStandardChksum3 3 [0x12, 0x34, 0x56] = lwipStandardChksum1 [0x12, 0x34, 0x56] :=
  lwipStandardChksum_versions 1 3 (by decide)

/-! ## Chains -/

/-- **Loop.** However the data lie in the pbufs of a chain, the loop computes their sum. -/
theorem chksumLoop_same {acc : BitVec 32} (hacc : acc.toNat ≤ 65535) (swapped : Bool)
    (chain : List Segment) :
    Same 65535 (chksumLoop acc swapped chain).toNat
        (256 ^ swapped.toNat * (acc.toNat + value (content chain))) ∧
      (chksumLoop acc swapped chain).toNat ≤ 65535 := by
  have hsquare (n : ℕ) : Same 65535 (256 * (256 * n)) n := same_mul_mul (b := 256) (by decide) n
  induction chain generalizing acc swapped with
  | nil =>
    rw [chksumLoop, content, List.flatMap_nil, value_nil, Nat.add_zero]
    cases swapped with
    | true => exact ⟨same_swapBytesInWord hacc, swapBytesInWord_le hacc⟩
    | false =>
      rw [Bool.toNat_false, Nat.pow_zero, Nat.one_mul]
      exact ⟨Same.refl _, hacc⟩
  | cons q chain ih =>
    let acc' := foldU32 (acc + (lwipStandardChksum q.payload q.bytes).setWidth 32)
    have hword := toNat_le_word (lwipStandardChksum q.payload q.bytes)
    have hsum := @toNat_add_setWidth acc (lwipStandardChksum q.payload q.bytes) (by omega)
    have hle : acc'.toNat ≤ 65535 := by
      rw [toNat_foldU32, hsum]
      omega
    have hsame : Same 65535 acc'.toNat (acc.toNat + value q.bytes) := by
      apply (same_foldU32 _).trans
      rw [hsum]
      exact (Same.refl _).add (lwipStandardChksum_same q.payload q.length_lt)
    have hvalue : value (content (q :: chain)) =
        value q.bytes + 256 ^ q.bytes.length * value (content chain) := value_append _ _
    have hpow : Same 65535 (256 ^ q.bytes.length * value (content chain))
        (256 ^ (q.bytes.length % 2) * value (content chain)) :=
      same_pow_mul (b := 256) (by decide) _ _
    rw [chksumLoop, hvalue, ← Nat.add_assoc]
    by_cases hodd : q.bytes.length % 2 ≠ 0
    · have hone : q.bytes.length % 2 = 1 := by omega
      rw [hone, Nat.pow_one] at hpow
      rw [if_pos hodd]
      obtain ⟨hrest, hbound⟩ := ih (swapBytesInWord_le hle) (!swapped)
      refine ⟨hrest.trans ?_, hbound⟩
      have hswapped : Same 65535 ((swapBytesInWord acc').toNat + value (content chain))
          (256 * (acc.toNat + value q.bytes + 256 ^ q.bytes.length * value (content chain))) := by
        rw [Nat.mul_add]
        apply Same.add
        · exact (same_swapBytesInWord hle).trans (hsame.mul_left 256)
        · exact (hsquare _).symm.trans (hpow.symm.mul_left 256)
      cases swapped with
      | true =>
        rw [Bool.not_true, Bool.toNat_false, Bool.toNat_true, Nat.pow_zero, Nat.one_mul, Nat.pow_one]
        exact hswapped
      | false =>
        rw [Bool.not_false, Bool.toNat_false, Bool.toNat_true, Nat.pow_zero, Nat.one_mul, Nat.pow_one]
        exact (hswapped.mul_left 256).trans (hsquare _)
    · have hzero : q.bytes.length % 2 = 0 := by omega
      rw [hzero, Nat.pow_zero, Nat.one_mul] at hpow
      rw [if_neg hodd]
      obtain ⟨hrest, hbound⟩ := ih hle swapped
      exact ⟨hrest.trans ((hsame.add hpow.symm).mul_left _), hbound⟩

/-- The complement of a checksum is the sum of the data. -/
def IsChecksum (c : BitVec 16) (data : List UInt8) : Prop := Same 65535 (~~~c).toNat (value data)

/-- There is one checksum. -/
theorem IsChecksum.unique {c c' : BitVec 16} {data : List UInt8} (h : IsChecksum c data)
    (h' : IsChecksum c' data) : c = c' :=
  BitVec.not_inj.mp (eq_of_same h h')

/-- `inet_chksum` makes the checksum of its data. -/
theorem inetChksum_isChecksum (dataptr : ℕ) {data : List UInt8} (h : data.length < 65536) :
    IsChecksum (inetChksum dataptr data) data := by
  rw [IsChecksum, inetChksum, BitVec.not_not]
  exact lwipStandardChksum_same dataptr h

/-- `inet_chksum_pbuf` makes the checksum of what the chain contains. -/
theorem inetChksumPbuf_isChecksum (p : List Segment) : IsChecksum (inetChksumPbuf p) (content p) := by
  obtain ⟨hsame, hle⟩ := @chksumLoop_same 0#32 (Nat.zero_le _) false p
  rw [Bool.toNat_false, Nat.pow_zero, Nat.one_mul, BitVec.toNat_zero, Nat.zero_add] at hsame
  rw [IsChecksum, inetChksumPbuf, BitVec.not_not, BitVec.toNat_setWidth,
    Nat.mod_eq_of_lt (by omega)]
  exact hsame

/-! ## The pseudo header -/

/-- The pseudo header in front of the data of UDP and TCP, in network byte order. -/
def pseudoHeader (src dest : BitVec 32) (proto : BitVec 8) (protoLen : BitVec 16) : List UInt8 :=
  ipBytes src ++ ipBytes dest ++ [0, UInt8.ofBitVec proto] ++ fieldBytes (htons protoLen)

/-- The bytes of an address as a number. -/
theorem value_ipBytes (addr : BitVec 32) : value (ipBytes addr) = addr.toNat := by
  have hlt := addr.isLt
  have hbyte (n : ℕ) : (UInt8.ofNat n).toNat = n % 256 := UInt8.toNat_ofNat'
  rw [ipBytes, List.range_succ, List.range_succ, List.range_succ, List.range_succ]
  simp only [List.range_zero, List.nil_append, List.cons_append, List.map_cons, List.map_nil,
    value_cons, value_nil, hbyte]
  omega

/-- A field has two bytes. -/
@[simp] theorem length_fieldBytes (x : BitVec 16) : (fieldBytes x).length = 2 := rfl

/-- The bytes of a field as a number. -/
theorem value_fieldBytes (x : BitVec 16) : value (fieldBytes x) = x.toNat := by
  have hlt := x.isLt
  rw [fieldBytes, value_cons, value_cons, value_nil, UInt8.toNat_ofBitVec, UInt8.toNat_ofBitVec,
    BitVec.toNat_setWidth, BitVec.toNat_setWidth, BitVec.toNat_ushiftRight,
    Nat.shiftRight_eq_div_pow]
  omega

/-- The halves of an address are its words. -/
theorem addAddress_same {acc : BitVec 32} (hroom : acc.toNat + 131070 < 2 ^ 32)
    (addr : BitVec 32) :
    Same 65535 (addAddress acc addr).toNat (acc.toNat + value (ipBytes addr)) ∧
      (addAddress acc addr).toNat ≤ acc.toNat + 131070 := by
  have hlt := addr.isLt
  have hlow : (addr &&& 0xffff#32).toNat = addr.toNat % 65536 := by
    rw [BitVec.toNat_and]
    exact Nat.and_two_pow_sub_one_eq_mod addr.toNat 16
  have hhigh : (addr >>> 16 &&& 0xffff#32).toNat = addr.toNat / 65536 := by
    rw [BitVec.toNat_and, BitVec.toNat_ushiftRight, Nat.shiftRight_eq_div_pow]
    apply (Nat.and_two_pow_sub_one_eq_mod (addr.toNat / 2 ^ 16) 16).trans
    omega
  have hsum : (addAddress acc addr).toNat =
      acc.toNat + (addr.toNat / 65536 + addr.toNat % 65536) := by
    rw [addAddress, BitVec.toNat_add, BitVec.toNat_add, hlow, hhigh]
    omega
  rw [hsum, value_ipBytes]
  refine ⟨(Same.refl _).add (same_fold (b := 65536) (by decide) addr.toNat), by omega⟩

/-- Data behind whole words are added to their sum. -/
theorem same_value_append {data : List UInt8} (h : Even data.length) (data' : List UInt8) :
    Same 65535 (value (data ++ data')) (value data + value data') := by
  have hpow := same_pow_mul (b := 256) (by decide) data.length (value data')
  rw [Nat.even_iff.mp h, Nat.pow_zero, Nat.one_mul] at hpow
  rw [value_append]
  exact (Same.refl _).add hpow

/-- The protocol in network byte order. -/
theorem toNat_htons_proto (proto : BitVec 8) :
    (htons (proto.setWidth 16)).toNat = value [0, UInt8.ofBitVec proto] := by
  have hproto := proto.isLt
  have hbytes : value [0, UInt8.ofBitVec proto] = 0 + 256 * (proto.toNat + 256 * 0) := rfl
  rw [toNat_htons, hbytes, BitVec.toNat_setWidth]
  omega

/-- The pseudo header and the data are added up word by word. -/
theorem value_pseudoHeader (src dest : BitVec 32) (proto : BitVec 8) (protoLen : BitVec 16)
    (data : List UInt8) :
    Same 65535 (value (pseudoHeader src dest proto protoLen ++ data))
      (value data + value (ipBytes src) + value (ipBytes dest) +
        (htons (proto.setWidth 16)).toNat + (htons protoLen).toNat) := by
  have hip (addr : BitVec 32) : Even (ipBytes addr).length := by
    rw [ipBytes, List.length_map, List.length_range]
    exact even_two_mul 2
  have hassoc : pseudoHeader src dest proto protoLen ++ data =
      ipBytes src ++ (ipBytes dest ++ ([0, UInt8.ofBitVec proto] ++
        (fieldBytes (htons protoLen) ++ data))) := by
    rw [pseudoHeader, List.append_assoc, List.append_assoc, List.append_assoc]
  have htwo (b b' : UInt8) : Even [b, b'].length := even_two
  have hlen := @same_value_append (fieldBytes (htons protoLen)) (htwo _ _) data
  have hproto := (same_value_append (htwo 0 (UInt8.ofBitVec proto))
    (fieldBytes (htons protoLen) ++ data)).trans ((Same.refl _).add hlen)
  have hdest := (same_value_append (hip dest) _).trans ((Same.refl _).add hproto)
  have hsrc := (same_value_append (hip src) _).trans ((Same.refl _).add hdest)
  rw [value_fieldBytes, ← toNat_htons_proto] at hsrc
  have hsum : value data + value (ipBytes src) + value (ipBytes dest) +
      (htons (proto.setWidth 16)).toNat + (htons protoLen).toNat =
      value (ipBytes src) + (value (ipBytes dest) +
        ((htons (proto.setWidth 16)).toNat + ((htons protoLen).toNat + value data))) := by
    omega
  rw [hassoc, hsum]
  exact hsrc

/-- The checksum with a pseudo header is the one of the pseudo header in front of the data. -/
theorem inetChksumPseudo_isChecksum (p : List Segment) (src dest : BitVec 32) (proto : BitVec 8)
    (protoLen : BitVec 16) :
    IsChecksum (inetChksumPseudo p src dest proto protoLen)
      (pseudoHeader src dest proto protoLen ++ content p) := by
  obtain ⟨hdata, hle⟩ := @chksumLoop_same 0#32 (Nat.zero_le _) false p
  rw [Bool.toNat_false, Nat.pow_zero, Nat.one_mul, BitVec.toNat_zero, Nat.zero_add] at hdata
  rw [IsChecksum, inetChksumPseudo, BitVec.not_not]
  generalize chksumLoop 0#32 false p = acc at hdata hle ⊢
  obtain ⟨hsrc, hsrcLe⟩ := @addAddress_same acc (by omega) src
  generalize addAddress acc src = acc' at hsrc hsrcLe ⊢
  obtain ⟨hdest, hdestLe⟩ := @addAddress_same acc' (by omega) dest
  generalize addAddress acc' dest = acc'' at hdest hdestLe ⊢
  have hproto := @toNat_add_setWidth acc'' (htons (proto.setWidth 16)) (by omega)
  have hprotoLe := toNat_le_word (htons (proto.setWidth 16))
  generalize acc'' + (htons (proto.setWidth 16)).setWidth 32 = sum at hproto ⊢
  have hlen := @toNat_add_setWidth sum (htons protoLen) (by omega)
  have hfold := (same_foldU32 _).trans (same_foldU32 (sum + (htons protoLen).setWidth 32))
  have hbound := foldU32_foldU32_le (sum + (htons protoLen).setWidth 32)
  rw [BitVec.toNat_setWidth, Nat.mod_eq_of_lt (by omega)]
  rw [hlen, hproto] at hfold
  have hsame := hdest.trans ((hsrc.trans (hdata.add (Same.refl _))).add (Same.refl _))
  exact (hfold.trans ((hsame.add (Same.refl _)).add (Same.refl _))).trans
    (value_pseudoHeader src dest proto protoLen (content p)).symm

/-- **Splitting.** However a packet is cut into pbufs, and wherever these lie, its checksum is
the one of its bytes in one piece, with the pseudo header in front of them if there is one. -/
theorem chksum_eq_content (dataptr : ℕ) (p : List Segment) (src dest : BitVec 32)
    (proto : BitVec 8) (protoLen : BitVec 16)
    (h : (pseudoHeader src dest proto protoLen ++ content p).length < 65536) :
    inetChksumPbuf p = inetChksum dataptr (content p) ∧
      inetChksumPseudo p src dest proto protoLen =
        inetChksum dataptr (pseudoHeader src dest proto protoLen ++ content p) := by
  have hcontent : (content p).length < 65536 := by
    rw [List.length_append] at h
    omega
  constructor
  · exact (inetChksumPbuf_isChecksum p).unique (inetChksum_isChecksum dataptr hcontent)
  · exact (inetChksumPseudo_isChecksum p src dest proto protoLen).unique
      (inetChksum_isChecksum dataptr h)

/-- Three bytes in two pbufs. -/
theorem chksum_eq_content_three :
    inetChksumPbuf [⟨1, [0x12], by decide⟩, ⟨3, [0x34, 0x56], by decide⟩] =
        inetChksum 0 [0x12, 0x34, 0x56] ∧
      inetChksumPseudo [⟨1, [0x12], by decide⟩, ⟨3, [0x34, 0x56], by decide⟩] 0x0100007f
          0x0100007f 17 3 =
        inetChksum 0 (pseudoHeader 0x0100007f 0x0100007f 17 3 ++ [0x12, 0x34, 0x56]) :=
  chksum_eq_content 0 [⟨1, [0x12], by decide⟩, ⟨3, [0x34, 0x56], by decide⟩] _ _ _ _ (by decide)

/-! ## The check of the receiver -/

/-- The checksum is 0 for the zeros that are not nothing but zeros. -/
theorem IsChecksum.eq_zero_iff {c : BitVec 16} {data : List UInt8} (h : IsChecksum c data) :
    c = 0 ↔ 65535 ∣ value data ∧ value data ≠ 0 := by
  have hlt := c.isLt
  have hzero : (0 : BitVec 16).toNat = 0 := rfl
  rw [← Same.eq_modulus_iff h (toNat_le_word _) (by decide), BitVec.toNat_not, ← BitVec.toNat_inj,
    hzero]
  omega

/-- The word of a field is added to the sum of the other ones. -/
theorem same_value_field {before : List UInt8} (h : Even before.length) (c : BitVec 16)
    (after : List UInt8) :
    Same 65535 (value (before ++ fieldBytes c ++ after)) (value before + value after + c.toNat) := by
  have hfield : Even (fieldBytes c).length := even_two
  rw [List.append_assoc, Nat.add_assoc, Nat.add_comm (value after), ← value_fieldBytes c]
  exact (same_value_append h _).trans ((Same.refl _).add (same_value_append hfield after))

/-- A checksum over a field is 0 exactly if the field holds the checksum that there is with
zeros in the field, where all ones will do for the checksum 0. -/
theorem isChecksum_field_iff {before after : List UInt8} {c chksum zeroed : BitVec 16}
    (heven : Even before.length) (h : IsChecksum chksum (before ++ fieldBytes c ++ after))
    (hzeroed : IsChecksum zeroed (before ++ fieldBytes 0 ++ after)) :
    chksum = 0 ↔ c = zeroed ∨ c = 0xffff ∧ zeroed = 0 := by
  have hsum := ((hzeroed.trans (same_value_field heven 0 after)).add (Same.refl c.toNat)).trans
    (same_value_field heven c after).symm
  have hc := c.isLt
  have hlt := zeroed.isLt
  have hones : (0xffff : BitVec 16).toNat = 65535 := rfl
  have hnil : (0 : BitVec 16).toNat = 0 := rfl
  rw [h.eq_zero_iff, ← hsum.dvd_iff, BitVec.toNat_not, ← BitVec.toNat_inj, ← BitVec.toNat_inj,
    ← BitVec.toNat_inj, hones, hnil]
  omega

/-- **Accepting.** However a packet has been cut, it passes the check, with or without a
pseudo header, exactly if its field holds the checksum that the packet has in one piece
with zeros in the field, where all ones will do for the checksum 0. -/
theorem chksum_accepts_iff {p : List Segment} {before after : List UInt8} {c : BitVec 16}
    (dataptr : ℕ) (src dest : BitVec 32) (proto : BitVec 8) (protoLen : BitVec 16)
    (hp : content p = before ++ fieldBytes c ++ after) (heven : Even before.length)
    (hshort : (pseudoHeader src dest proto protoLen ++ content p).length < 65536) :
    let zeroed := inetChksum dataptr (before ++ fieldBytes 0 ++ after)
    let zeroed' := inetChksum dataptr
      (pseudoHeader src dest proto protoLen ++ (before ++ fieldBytes 0 ++ after))
    (inetChksumPbuf p = 0 ↔ c = zeroed ∨ c = 0xffff ∧ zeroed = 0) ∧
      (inetChksumPseudo p src dest proto protoLen = 0 ↔ c = zeroed' ∨ c = 0xffff ∧ zeroed' = 0) := by
  intro zeroed zeroed'
  have hlength : (pseudoHeader src dest proto protoLen ++
      (before ++ fieldBytes 0 ++ after)).length < 65536 := by
    rw [hp] at hshort
    simp only [List.length_append, length_fieldBytes] at hshort ⊢
    exact hshort
  have hlength' : (before ++ fieldBytes 0 ++ after).length < 65536 := by
    rw [List.length_append] at hlength
    omega
  have heven' : Even (pseudoHeader src dest proto protoLen ++ before).length := by
    have hheader : Even (pseudoHeader src dest proto protoLen).length := even_two_mul 6
    rw [List.length_append]
    exact hheader.add heven
  have hpbuf := inetChksumPbuf_isChecksum p
  have hpseudo := inetChksumPseudo_isChecksum p src dest proto protoLen
  rw [hp] at hpbuf hpseudo
  constructor
  · exact isChecksum_field_iff heven hpbuf (inetChksum_isChecksum dataptr hlength')
  · have hzeroed := inetChksum_isChecksum dataptr hlength
    rw [List.append_assoc before, ← List.append_assoc _ before, ← List.append_assoc] at hpseudo hzeroed
    exact isChecksum_field_iff heven' hpseudo hzeroed

/-- A packet with one word of data, and a checksum without a pseudo header. -/
theorem chksum_accepts_iff_word :
    let p : List Segment := [⟨0, [0x12, 0x34, 0xed, 0xcb], by decide⟩]
    let zeroed := inetChksum 0 ([0x12, 0x34] ++ fieldBytes 0 ++ [])
    let zeroed' := inetChksum 0
      (pseudoHeader 0x0100007f 0x0100007f 17 4 ++ ([0x12, 0x34] ++ fieldBytes 0 ++ []))
    (inetChksumPbuf p = 0 ↔ (0xcbed : BitVec 16) = zeroed ∨ (0xcbed : BitVec 16) = 0xffff ∧
        zeroed = 0) ∧
      (inetChksumPseudo p 0x0100007f 0x0100007f 17 4 = 0 ↔ (0xcbed : BitVec 16) = zeroed' ∨
        (0xcbed : BitVec 16) = 0xffff ∧ zeroed' = 0) :=
  chksum_accepts_iff (p := [⟨0, [0x12, 0x34, 0xed, 0xcb], by decide⟩]) 0 _ _ _ _ rfl even_two
    (by decide)

/-- Data are 0 if they are nothing but zeros. -/
theorem value_eq_zero_iff (data : List UInt8) : value data = 0 ↔ ∀ b ∈ data, b = 0 := by
  induction data with
  | nil => exact iff_of_true rfl (fun b hb => nomatch hb)
  | cons b data ih =>
    have hb : b.toNat = 0 ↔ b = 0 := UInt8.toNat_inj (b := 0)
    rw [value_cons, List.forall_mem_cons, ← ih, ← hb]
    omega

/-- Two bytes as a number. -/
theorem value_pair (b b' : UInt8) : value [b, b'] = (word b b').toNat := by
  rw [toNat_word, value_cons, value_cons, value_nil, Nat.mul_zero, Nat.add_zero]

/-- Other bytes in the place of two bytes do not change the sum if they are the same, or the
other zero. -/
theorem value_change_iff (before after : List UInt8) (b₀ b₁ b₀' b₁' : UInt8) :
    value (before ++ [b₀', b₁'] ++ after) ≡ value (before ++ [b₀, b₁] ++ after) [MOD 65535] ↔
      word b₀' b₁' = word b₀ b₁ ∨ word b₀' b₁' = 0 ∧ word b₀ b₁ = 0xffff ∨
        word b₀' b₁' = 0xffff ∧ word b₀ b₁ = 0 := by
  have hchange := @ofDigits_change_iff 256 (by decide) (before.map UInt8.toNat)
    (after.map UInt8.toNat) ([b₀', b₁'].map UInt8.toNat) ([b₀, b₁].map UInt8.toNat) rfl
  rw [← List.map_append, ← List.map_append, ← List.map_append, ← List.map_append] at hchange
  apply hchange.trans
  change value [b₀', b₁'] ≡ value [b₀, b₁] [MOD 65535] ↔ _
  have hones : (0xffff : BitVec 16).toNat = 65535 := rfl
  have hzero : (0 : BitVec 16).toNat = 0 := rfl
  rw [value_pair, value_pair, modEq_iff_of_le (toNat_le_word _) (toNat_le_word _),
    ← BitVec.toNat_inj, ← BitVec.toNat_inj, ← BitVec.toNat_inj, ← BitVec.toNat_inj,
    ← BitVec.toNat_inj, hones, hzero]

/-- What is left of a packet where two bytes are 0. -/
theorem value_zeros_ne_zero_iff (before after : List UInt8) :
    value (before ++ [0, 0] ++ after) ≠ 0 ↔ ∃ b ∈ before ++ after, b ≠ 0 := by
  rw [Ne, value_eq_zero_iff]
  simp only [List.mem_append, List.mem_cons, List.not_mem_nil, or_false]
  push Not
  constructor
  · rintro ⟨b, (hb | hb | hb) | hb, hne⟩
    · exact ⟨b, Or.inl hb, hne⟩
    · exact absurd hb hne
    · exact absurd hb hne
    · exact ⟨b, Or.inr hb, hne⟩
  · rintro ⟨b, hb | hb, hne⟩
    · exact ⟨b, Or.inl (Or.inl hb), hne⟩
    · exact ⟨b, Or.inr hb, hne⟩

/-- A word is 0 if its bytes are. -/
theorem word_eq_zero_iff (b b' : UInt8) : word b b' = 0 ↔ b = 0 ∧ b' = 0 := by
  have hb : b.toNat = 0 ↔ b = 0 := UInt8.toNat_inj (b := 0)
  have hb' : b'.toNat = 0 ↔ b' = 0 := UInt8.toNat_inj (b := 0)
  have hzero : (0 : BitVec 16).toNat = 0 := rfl
  rw [← BitVec.toNat_inj, hzero, toNat_word, ← hb, ← hb']
  omega

/-- **Damage.** Where two neighbouring bytes of a packet that passes the check are damaged,
the packet still passes exactly if they are the same as before, or if zeros and ones have
been exchanged in all of their bits, unless nothing but zeros is left. -/
theorem inetChksumPbuf_damaged_iff {p p' : List Segment} {before after : List UInt8}
    {b₀ b₁ b₀' b₁' : UInt8} (hp : content p = before ++ [b₀, b₁] ++ after)
    (hp' : content p' = before ++ [b₀', b₁'] ++ after) (h : inetChksumPbuf p = 0) :
    inetChksumPbuf p' = 0 ↔
      word b₀' b₁' = word b₀ b₁ ∨ word b₀ b₁ = 0 ∧ word b₀' b₁' = 0xffff ∨
        word b₀ b₁ = 0xffff ∧ word b₀' b₁' = 0 ∧ ∃ b ∈ before ++ after, b ≠ 0 := by
  rw [(inetChksumPbuf_isChecksum p).eq_zero_iff, hp] at h
  rw [(inetChksumPbuf_isChecksum p').eq_zero_iff, hp']
  obtain ⟨hdvd, hne⟩ := h
  have hmod : value (before ++ [b₀, b₁] ++ after) ≡ 0 [MOD 65535] := Nat.modEq_zero_iff_dvd.mpr hdvd
  have hchange := value_change_iff before after b₀ b₁ b₀' b₁'
  constructor
  · rintro ⟨hdvd', hne'⟩
    rcases hchange.mp ((Nat.modEq_zero_iff_dvd.mpr hdvd').trans hmod.symm) with
      heq | ⟨hzero, hones⟩ | ⟨hones, hzero⟩
    · exact Or.inl heq
    · obtain ⟨rfl, rfl⟩ := (word_eq_zero_iff _ _).mp hzero
      exact Or.inr (Or.inr ⟨hones, hzero, (value_zeros_ne_zero_iff before after).mp hne'⟩)
    · exact Or.inr (Or.inl ⟨hzero, hones⟩)
  · intro hcases
    have hsame : value (before ++ [b₀', b₁'] ++ after) ≡ 0 [MOD 65535] := by
      apply (hchange.mpr _).trans hmod
      rcases hcases with heq | ⟨hzero, hones⟩ | ⟨hones, hzero, -⟩
      · exact Or.inl heq
      · exact Or.inr (Or.inr ⟨hones, hzero⟩)
      · exact Or.inr (Or.inl ⟨hzero, hones⟩)
    refine ⟨Nat.modEq_zero_iff_dvd.mp hsame, fun hzero => ?_⟩
    have hall := (value_eq_zero_iff _).mp hzero
    have hzero' : word b₀' b₁' = 0 := by
      apply (word_eq_zero_iff b₀' b₁').mpr
      exact ⟨hall b₀' (by simp), hall b₁' (by simp)⟩
    rcases hcases with heq | ⟨-, hones⟩ | ⟨-, -, hleft⟩
    · obtain ⟨rfl, rfl⟩ := (word_eq_zero_iff _ _).mp hzero'
      obtain ⟨rfl, rfl⟩ := (word_eq_zero_iff _ _).mp (heq.symm.trans hzero')
      exact hne hzero
    · exact absurd (hzero'.symm.trans hones) (by decide)
    · obtain ⟨rfl, rfl⟩ := (word_eq_zero_iff _ _).mp hzero'
      exact (value_zeros_ne_zero_iff before after).mpr hleft hzero

/-- One bit of the packet with one word of data. -/
theorem inetChksumPbuf_damaged_iff_bit :
    inetChksumPbuf [⟨0, [0x13, 0x34, 0xed, 0xcb], by decide⟩] = 0 ↔
      word 0x13 0x34 = word 0x12 0x34 ∨ word 0x12 0x34 = 0 ∧ word 0x13 0x34 = 0xffff ∨
        word 0x12 0x34 = 0xffff ∧ word 0x13 0x34 = 0 ∧ ∃ b ∈ ([] ++ [0xed, 0xcb] : List UInt8), b ≠ 0 :=
  @inetChksumPbuf_damaged_iff [⟨0, [0x12, 0x34, 0xed, 0xcb], by decide⟩]
    [⟨0, [0x13, 0x34, 0xed, 0xcb], by decide⟩] _ _ _ _ _ _ rfl rfl (by decide)

end WifiMcu.Lwip
