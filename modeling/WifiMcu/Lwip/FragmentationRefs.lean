import WifiMcu.Lwip.Fragmentation

/-!
# Fragmentation by reference

If `LWIP_NETIF_TX_SINGLE_PBUF` is not set, `ip_frag` does not copy the packet: a fragment is a new
header and some pbufs that refer to parts of the pbufs of the packet. It sends the same fragments.
-/

namespace WifiMcu.Lwip

open WifiMcu.System Pieces

/-! ## The loops -/

/-- What the inner loop of `ip_frag` has made: the bytes that the new pbufs refer to, the pbuf
that it has come to with the ones behind it, how much of that one is in use, and the memory. -/
structure Mirrored where
  data : List UInt8
  chain : List (List UInt8)
  poff : ℕ
  mem : List Bool

/-- The inner loop of `ip_frag`, by the bytes that are left to copy and the length of the last new
pbuf. Each new pbuf needs memory, and there is no result in it if there is none. There is no
result at all if the packet is too short. -/
def mirrorPbufs (leftToCopy newpbuflen : ℕ) (mem : List Bool) :
    List (List UInt8) → Option (Option Mirrored)
  | [] => if leftToCopy = 0 then some (some ⟨[], [], newpbuflen, mem⟩) else none
  | q :: chain =>
    if leftToCopy = 0 then some (some ⟨[], q :: chain, newpbuflen, mem⟩)
    else if q.length = 0 then mirrorPbufs leftToCopy 0 mem chain
    else if mem.headD false = false then some none
    else if leftToCopy ≤ q.length then
      some (some ⟨q.take leftToCopy, q :: chain, leftToCopy, mem.tail⟩)
    else (mirrorPbufs (leftToCopy - q.length) q.length mem.tail chain).map fun m =>
      m.map fun m => { m with data := q ++ m.data }

/-- The payload pointer of the first pbuf is moved. -/
def advance (poff : ℕ) : List (List UInt8) → List (List UInt8)
  | [] => []
  | q :: chain => q.drop poff :: chain

/-- The outer loop of `ip_frag`, for at most a number of rounds: whether it returns `ERR_OK`, and
the headers and the bytes of the fragments that have been sent. There is no result where the
assertion fails that the pbuf is as long as a header, before the part that is in use is left. -/
def ipFragRefsLoop (mtu : ℕ) (h : IpHdr) (omf : BitVec 16) :
    ℕ → ℕ → BitVec 16 → ℕ → ℕ → List (List UInt8) → List Bool →
      Option (Bool × List (IpHdr × List UInt8))
  | 0, _, _, _, _, _, _ => none
  | rounds + 1, left, ofo, poff, newpbuflen, chain, mem =>
    if left = 0 then some (true, [])
    else
      let last : Bool := (left : ℤ) ≤ (mtu : ℤ) - ipHlen
      let tmp := (omf ||| (ipOffmask &&& ofo)) ||| if last then 0 else ipMf
      let cop := if last then left else fragBlocks mtu * 8 % 65536
      if mem.headD false = false then some (false, [])
      else if chain.head?.any fun q => ipHlen ≤ q.length then
        match mirrorPbufs cop newpbuflen mem.tail (advance poff chain) with
        | none => none
        | some none => some (false, [])
        | some (some m) =>
          (ipFragRefsLoop mtu h omf rounds (left - cop) (ofo + BitVec.ofNat 16 (fragBlocks mtu))
            m.poff m.poff m.chain m.mem).map fun r => (r.1, (h.fragment tmp cop, m.data) :: r.2)
      else none

/-- `ip_frag` without copies. -/
def ipFragRefs (mtu : ℕ) (h : IpHdr) (p : List (List UInt8)) (mem : List Bool) :
    Option (Bool × List (IpHdr × List UInt8)) :=
  let left := p.flatten.length - ipHlen
  ipFragRefsLoop mtu h (h.offset &&& ipMf) (left + 1) left (h.offset &&& ipOffmask) ipHlen 0 p mem

/-! ## What is sent -/

/-- There is memory for some pbufs. -/
structure Ample (mem : List Bool) (n : ℕ) : Prop where
  length : n ≤ mem.length
  granted : ∀ b ∈ mem, b = true

/-- Memory for fewer pbufs. -/
theorem Ample.mono {mem : List Bool} {m n : ℕ} (h : Ample mem n) (hle : m ≤ n) : Ample mem m :=
  ⟨hle.trans h.length, h.granted⟩

/-- Each of the pbufs gets its memory. -/
theorem Ample.take {mem : List Bool} {n : ℕ} (h : Ample mem n) :
    mem.take n = List.replicate n true := by
  refine List.eq_replicate_iff.mpr ⟨List.length_take_of_le h.length, fun b hb => ?_⟩
  exact h.granted b (List.mem_of_mem_take hb)

/-- Memory for one pbuf more. -/
theorem Ample.tail {mem : List Bool} {n : ℕ} (h : Ample mem (n + 1)) :
    mem.headD false = true ∧ Ample mem.tail n := by
  cases mem with
  | nil => simpa using h.length
  | cons b mem =>
    refine ⟨h.granted b List.mem_cons_self, Nat.le_of_succ_le_succ h.length, ?_⟩
    exact fun b' hb' => h.granted b' (List.mem_cons_of_mem _ hb')

/-- What the inner loop has made of the next bytes of the packet: it refers to all of them, it has
come to another pbuf, or all of them are in the first one, and it has used memory for one pbuf and
for those that it has left behind. -/
structure Mirrored.Covers (m : Mirrored) (left : ℕ) (chain : List (List UInt8)) (mem : List Bool) :
    Prop where
  data : m.data = chain.flatten.take left
  rest : (advance m.poff m.chain).flatten = chain.flatten.drop left
  place : ∃ q behind, m.chain = q :: behind ∧ (∀ r ∈ behind, r ∈ chain.tail) ∧
    (q ∈ chain.tail ∨ q ∈ chain ∧ left ≤ q.length)
  ample : ∀ n, Ample mem (chain.length + n) → Ample m.mem (m.chain.length + n - 1)

/-- The inner loop refers to the next bytes of the packet, whatever pbufs they are in. -/
theorem mirrorPbufs_spec {left : ℕ} (newpbuflen : ℕ) (mem : List Bool)
    {chain : List (List UInt8)} (hleft : 0 < left) (hfits : left ≤ chain.flatten.length) :
    (mirrorPbufs left newpbuflen mem chain = some none ∧ ¬ Ample mem chain.length) ∨
      ∃ m, mirrorPbufs left newpbuflen mem chain = some (some m) ∧ m.Covers left chain mem := by
  induction chain generalizing left newpbuflen mem with
  | nil =>
    rw [List.flatten_nil, List.length_nil] at hfits
    omega
  | cons q chain ih =>
    rw [List.flatten_cons, List.length_append] at hfits
    by_cases hempty : q.length = 0
    · rw [mirrorPbufs, if_neg hleft.ne', if_pos hempty]
      obtain ⟨hnone, hscarce⟩ | ⟨m, hm, hdata, hrest, ⟨r, behind, hchain, hbehind, hr⟩, hample⟩ :=
        ih 0 mem hleft (by omega)
      · exact Or.inl ⟨hnone, fun hample => hscarce (hample.mono (Nat.le_succ _))⟩
      · obtain rfl := List.length_eq_zero_iff.mp hempty
        refine Or.inr ⟨m, hm, hdata, hrest, ⟨r, behind, hchain, ?_, ?_⟩, fun n hmem => ?_⟩
        · exact fun r hr => List.mem_of_mem_tail (hbehind r hr)
        · exact Or.inl (hr.elim List.mem_of_mem_tail And.left)
        · rw [List.length_cons] at hmem
          exact hample n (hmem.mono (by omega))
    · rw [mirrorPbufs, if_neg hleft.ne', if_neg hempty]
      split_ifs with hmem hlast
      · exact Or.inl ⟨rfl, fun hample => Bool.false_ne_true (hmem.symm.trans hample.tail.1)⟩
      · refine Or.inr ⟨_, rfl, ?_, ?_, ⟨q, chain, rfl, fun r hr => hr, ?_⟩, fun n hample => ?_⟩
        · rw [List.flatten_cons, List.take_append_of_le_length hlast]
        · rw [advance, List.flatten_cons, List.flatten_cons, List.drop_append_of_le_length hlast]
        · exact Or.inr ⟨List.mem_cons_self, hlast⟩
        · rw [List.length_cons, Nat.add_right_comm] at hample ⊢
          exact hample.tail.2
      · obtain ⟨hnone, hscarce⟩ | ⟨m, hm, hdata, hrest, ⟨r, behind, hchain, hbehind, hr⟩, hample⟩ :=
          ih q.length mem.tail (show 0 < left - q.length by omega) (by omega)
        · left
          rw [hnone]
          exact ⟨rfl, fun hample => hscarce hample.tail.2⟩
        · right
          rw [hm]
          refine ⟨_, rfl, ?_, ?_, ⟨r, behind, hchain, ?_, ?_⟩, fun n hmore => ?_⟩
          · rw [List.flatten_cons, List.take_append, List.take_of_length_le (by omega), ← hdata]
          · rw [List.flatten_cons, List.drop_append, List.drop_of_length_le (by omega),
              List.nil_append]
            exact hrest
          · exact fun r hr => List.mem_of_mem_tail (hbehind r hr)
          · exact Or.inl (hr.elim List.mem_of_mem_tail And.left)
          · rw [List.length_cons, Nat.add_right_comm] at hmore
            exact hample n hmore.tail.2

/-- The blocks of a fragment are as long as a header if the MTU is long enough. -/
theorem FitMtu.three_le_fragBlocks {mtu : ℕ} (h : FitMtu mtu) (hlarge : 44 ≤ mtu) :
    3 ≤ fragBlocks mtu := by
  have hlt := h.lt
  have hhlen : ipHlen = 20 := rfl
  rw [fragBlocks, hhlen, Int.tdiv_eq_ediv_of_nonneg (by omega)]
  omega

/-- The loop comes to a pbuf that is as long as a header, if all of them are and it has left as much
behind. -/
theorem Mirrored.Covers.long {m : Mirrored} {left poff : ℕ} {q : List UInt8}
    {behind : List (List UInt8)} {mem : List Bool}
    (h : m.Covers left (advance poff (q :: behind)) mem) (hleft : ipHlen ≤ left)
    (hlong : ∀ r ∈ behind, ipHlen ≤ r.length) :
    ∃ q behind, m.chain = q :: behind ∧ ∀ r ∈ m.chain, ipHlen ≤ r.length := by
  obtain ⟨q', behind', hplace, hbehind, hq'⟩ := h.place
  refine ⟨q', behind', hplace, ?_⟩
  rw [hplace]
  intro r hr
  obtain rfl | hr := List.mem_cons.mp hr
  · obtain hq' | ⟨-, hq'⟩ := hq'
    · exact hlong _ hq'
    · exact hleft.trans hq'
  · exact hlong _ (hbehind r hr)

/-- **Loop.** The fragments from one on are sent, up to the last one or to one for which there is
no memory. -/
theorem ipFragRefsLoop_sends {mtu : ℕ} (hmtu : FitMtu mtu) (hlarge : 44 ≤ mtu) (h : IpHdr)
    {data : List UInt8}
    (hdata : 0 < data.length) (hshort : data.length < 65536) {rounds k : ℕ} {chain}
    {poff : ℕ} (newpbuflen : ℕ) (mem : List Bool) (hk : k ≤ lastPiece mtu data.length)
    (hrounds : lastPiece mtu data.length - k + 2 ≤ rounds)
    (hchain : (advance poff chain).flatten = data.drop (k * (fragBlocks mtu * 8)))
    (hlong : ∃ q behind, chain = q :: behind ∧ ∀ r ∈ chain, ipHlen ≤ r.length) :
    ∃ ok n, ipFragRefsLoop mtu h 0 rounds (data.length - k * (fragBlocks mtu * 8))
        (BitVec.ofNat 16 (fragBlocks mtu * k)) poff newpbuflen chain mem =
          some (ok, (List.range' k n).map (sentFragment mtu h data)) ∧
      k + n ≤ lastPiece mtu data.length + 1 ∧
      (ok = true ↔ k + n = lastPiece mtu data.length + 1) ∧
      (Ample mem (2 * (lastPiece mtu data.length + 1 - k) + chain.length) → ok = true) := by
  have hhlen : ipHlen = 20 := rfl
  obtain ⟨-, hblocksLe⟩ := hmtu.blocks
  have hblocks := hmtu.three_le_fragBlocks hlarge
  have hend := hmtu.lastPiece_mul_lt hdata
  have hmtuLt := hmtu.lt
  induction rounds generalizing k poff newpbuflen mem chain with
  | zero => omega
  | succ rounds ih =>
    obtain ⟨q, behind, rfl, hlong⟩ := hlong
    have hiff := hmtu.lt_lastPiece_iff data.length k
    have hmul : k * (fragBlocks mtu * 8) ≤
        lastPiece mtu data.length * (fragBlocks mtu * 8) := Nat.mul_le_mul_right _ hk
    have hleft : data.length - k * (fragBlocks mtu * 8) ≠ 0 := by omega
    have hhead : ((q :: behind).head?.any fun q => ipHlen ≤ q.length) = true := by
      simpa using hlong q List.mem_cons_self
    have hflat : (advance poff (q :: behind)).flatten.length =
        data.length - k * (fragBlocks mtu * 8) := by
      rw [hchain, List.length_drop]
    have hadvance : (advance poff (q :: behind)).length = (q :: behind).length := rfl
    have hneed : 2 * (lastPiece mtu data.length + 1 - k) + (q :: behind).length =
        2 * (lastPiece mtu data.length + 1 - (k + 1)) + (q :: behind).length + 1 + 1 := by
      omega
    rw [ipFragRefsLoop, if_neg hleft, hneed]
    by_cases hmem : mem.headD false = false
    · simp only [hmem, if_true]
      refine ⟨false, 0, rfl, by omega, iff_of_false Bool.false_ne_true (by omega), fun hample => ?_⟩
      exact hmem.symm.trans hample.tail.1
    · simp only [hmem, hhead, if_true]
      by_cases hlast : k < lastPiece mtu data.length
      · have hnot : ¬((data.length - k * (fragBlocks mtu * 8) : ℕ) : ℤ) ≤ (mtu : ℤ) - ipHlen := by
          have := hiff.mp hlast
          omega
        have hcop : fragBlocks mtu * 8 % 65536 = fragBlocks mtu * 8 :=
          Nat.mod_eq_of_lt (by omega)
        have hnext : (k + 1) * (fragBlocks mtu * 8) =
            k * (fragBlocks mtu * 8) + fragBlocks mtu * 8 := by
          rw [Nat.add_mul, Nat.one_mul]
        have hroom := hiff.mp hlast
        simp only [hnot, decide_false, Bool.false_eq_true, if_false, hcop]
        obtain ⟨hnone, hscarce⟩ | ⟨m, hm, hcovers⟩ := @mirrorPbufs_spec (fragBlocks mtu * 8)
          newpbuflen mem.tail (advance poff (q :: behind)) (by omega) (by omega)
        · rw [hnone]
          refine ⟨false, 0, rfl, by omega, iff_of_false Bool.false_ne_true (by omega),
            fun hample => absurd (hample.tail.2.mono ?_) hscarce⟩
          omega
        · have hrest : (advance m.poff m.chain).flatten =
              data.drop ((k + 1) * (fragBlocks mtu * 8)) := by
            rw [hcovers.rest, hchain, List.drop_drop, hnext]
          obtain ⟨ok, n, hrun, hle, hok, hmore⟩ := ih (k := k + 1) m.poff m.mem hlast
            (by omega) hrest
            (hcovers.long (by omega) fun r hr => hlong r (List.mem_cons_of_mem _ hr))
          have hofo : BitVec.ofNat 16 (fragBlocks mtu * k) + BitVec.ofNat 16 (fragBlocks mtu) =
              BitVec.ofNat 16 (fragBlocks mtu * (k + 1)) := by
            rw [Nat.mul_succ, BitVec.ofNat_add]
          have hsub : data.length - k * (fragBlocks mtu * 8) - fragBlocks mtu * 8 =
              data.length - (k + 1) * (fragBlocks mtu * 8) := by
            omega
          have hfragment := sentFragment_of_lt h hlast
          rw [← hchain, ← hcovers.data] at hfragment
          rw [hm]
          simp only [hofo, hsub, hrun, Option.map_some]
          rw [← hfragment, ← List.map_cons, ← List.range'_succ]
          refine ⟨ok, n + 1, rfl, by omega, hok.trans (by omega), fun hample => hmore ?_⟩
          have hspare := hcovers.ample (2 * (lastPiece mtu data.length + 1 - (k + 1)) + 1)
            (hample.tail.2.mono (by omega))
          exact hspare.mono (by omega)
      · obtain rfl : k = lastPiece mtu data.length := by omega
        have hyes : ((data.length - lastPiece mtu data.length * (fragBlocks mtu * 8) : ℕ) : ℤ) ≤
            (mtu : ℤ) - ipHlen := by
          omega
        simp only [hyes, decide_true, if_true]
        obtain ⟨hnone, hscarce⟩ | ⟨m, hm, hcovers⟩ := @mirrorPbufs_spec _ newpbuflen mem.tail
          (advance poff (q :: behind)) (by omega) hflat.ge
        · rw [hnone]
          refine ⟨false, 0, rfl, by omega, iff_of_false Bool.false_ne_true (by omega),
            fun hample => absurd (hample.tail.2.mono ?_) hscarce⟩
          omega
        · have hfragment := sentFragment_last mtu h data
          rw [← hchain, ← hcovers.data] at hfragment
          obtain ⟨rounds, rfl⟩ := Nat.exists_eq_succ_of_ne_zero (show rounds ≠ 0 by omega)
          rw [hm]
          simp only [Nat.sub_self]
          rw [Nat.succ_eq_add_one, ipFragRefsLoop, if_pos rfl, Option.map_some, ← hfragment]
          exact ⟨true, 1, rfl, le_rfl, iff_of_true rfl rfl, fun _ => rfl⟩

/-- **What is sent without copies**: the fragments from the first one on, and all of them exactly if
`ERR_OK` is returned, which is so if there is memory for all pbufs. -/
theorem Fragmentable.ipFragRefs_sends {mtu : ℕ} {h : IpHdr} {p : List (List UInt8)}
    (hp : Fragmentable mtu h p) (hlarge : 44 ≤ mtu) (hpbufs : ∀ q ∈ p, ipHlen ≤ q.length)
    (mem : List Bool) :
    ∃ ok n, ipFragRefs mtu h p mem = some (ok, sentFragments mtu h p n) ∧
      n ≤ lastFragment mtu p + 1 ∧ (ok = true ↔ n = lastFragment mtu p + 1) ∧
      (Ample mem (2 * (lastFragment mtu p + 1) + p.length) → ok = true) := by
  have hlong := hp.long
  have hshort := hp.short
  have hhlen : ipHlen = 20 := rfl
  obtain ⟨q, behind, rfl⟩ : ∃ q behind, p = q :: behind := by
    cases p with
    | nil => simp at hlong
    | cons q behind => exact ⟨q, behind, rfl⟩
  have hq := hpbufs q List.mem_cons_self
  have hdata : ((q :: behind).flatten.drop ipHlen).length =
      (q :: behind).flatten.length - ipHlen := List.length_drop
  have hlast := (@FitMtu.lastPiece_mul_lt _ hp.fit ((q :: behind).flatten.drop ipHlen).length
    (by omega)).2
  have hchain : (advance ipHlen (q :: behind)).flatten =
      ((q :: behind).flatten.drop ipHlen).drop (0 * (fragBlocks mtu * 8)) := by
    rw [Nat.zero_mul, List.drop_zero, advance, List.flatten_cons, List.flatten_cons,
      List.drop_append_of_le_length hq]
  have hsends := @ipFragRefsLoop_sends _ hp.fit hlarge h _ (by omega) (by omega)
    (((q :: behind).flatten.drop ipHlen).length + 1) 0 (q :: behind) ipHlen 0 mem
    (Nat.zero_le _) (by omega) hchain ⟨q, behind, rfl, hpbufs⟩
  rw [Nat.zero_mul, Nat.sub_zero, Nat.mul_zero] at hsends
  obtain ⟨ok, n, hrun, hle, hok, hample⟩ := hsends
  rw [Nat.zero_add] at hle hok
  refine ⟨ok, n, ?_, hle, hok, hample⟩
  rw [ipFragRefs, hp.flags.1, hp.flags.2, ← hdata]
  exact hrun

/-- **Both variants.** Where there is memory, the two variants of `ip_frag` send the same. -/
theorem ipFragRefs_eq_ipFrag {mtu : ℕ} {h : IpHdr} {p : List (List UInt8)}
    (hp : Fragmentable mtu h p) (hlarge : 44 ≤ mtu) (hpbufs : ∀ q ∈ p, ipHlen ≤ q.length)
    {mem mem' : List Bool} (hmem : Ample mem (2 * (lastFragment mtu p + 1) + p.length))
    (hmem' : Ample mem' (lastFragment mtu p + 1)) :
    ipFragRefs mtu h p mem = ipFrag mtu h p mem' := by
  obtain ⟨ok, n, hrefs, -, hok, hample⟩ := hp.ipFragRefs_sends hlarge hpbufs mem
  obtain ⟨ok', n', hcopied, -, hok', hgranted⟩ := hp.ipFrag_sends mem'
  obtain rfl := hample hmem
  obtain rfl := hgranted.mpr hmem'.take
  obtain rfl := hok.mp rfl
  obtain rfl := hok'.mp rfl
  rw [hrefs, hcopied]

/-- The packet in two pbufs, in both variants. -/
theorem ipFragRefs_eq_ipFrag_three : ipFragRefs 44 (someFragment 1 0 [] 1).hdr twoPbufs
    (List.replicate 8 true) = ipFrag 44 (someFragment 1 0 [] 1).hdr twoPbufs
      (List.replicate 3 true) := by
  refine ipFragRefs_eq_ipFrag ⟨⟨by decide, by decide⟩, by decide, by decide, by decide, by decide⟩
    le_rfl (by decide) ⟨by decide, by decide⟩ ⟨by decide, by decide⟩

end WifiMcu.Lwip
