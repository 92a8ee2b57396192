import WifiMcu.Lwip.Checksum

/-!
# Reassembly

`ip_reass` collects the fragments of datagrams. Each datagram has an entry with its
fragments in the order of their offsets, and there are limits on the entries, on the pbufs of
all fragments together, and on the time. The helper that the code writes over the header of
a fragment is in the order of the list and in the functions of the header.
-/

namespace WifiMcu.Lwip

open WifiMcu.System

/-! ## Packets -/

/-- `IP_MF`. -/
def ipMf : BitVec 16 := 0x2000

/-- `IP_OFFMASK`. -/
def ipOffmask : BitVec 16 := 0x1fff

/-- `struct ip_hdr`. The length, the identification and the offset are in host order. -/
structure IpHdr where
  vhl : UInt8
  tos : UInt8
  len : BitVec 16
  id : BitVec 16
  offset : BitVec 16
  ttl : UInt8
  proto : UInt8
  chksum : BitVec 16
  src : BitVec 32
  dest : BitVec 32
  deriving DecidableEq

/-- The header in memory. -/
def IpHdr.bytes (h : IpHdr) : List UInt8 :=
  [h.vhl, h.tos] ++ fieldBytes (htons h.len) ++ fieldBytes (htons h.id) ++
    fieldBytes (htons h.offset) ++ [h.ttl, h.proto] ++ fieldBytes h.chksum ++ ipBytes h.src ++
    ipBytes h.dest

/-- `IPH_HL`. -/
def IpHdr.hl (h : IpHdr) : ℕ := (h.vhl &&& 0x0f).toNat

/-- The header with the checksum set to 0 and then to the checksum of the header. -/
def IpHdr.withChksum (h : IpHdr) : IpHdr :=
  { h with chksum := inetChksum 0 { h with chksum := 0 }.bytes }

/-- What `IP_ADDRESSES_AND_ID_MATCH` compares. -/
def IpHdr.key (h : IpHdr) : BitVec 32 × BitVec 32 × BitVec 16 := (h.src, h.dest, h.id)

/-- A packet, by its header, the bytes behind the header and the number of its pbufs, which
`pbuf_clen` counts in an `u8_t`. -/
structure Datagram where
  hdr : IpHdr
  data : List UInt8
  clen : ℕ
  clen_lt : clen < 256
  deriving DecidableEq

/-- `len` and `offset`, as `ip_reass` computes them, and the `end` of the helper. -/
def Datagram.fragLen (p : Datagram) : ℕ := (p.hdr.len - BitVec.ofNat 16 (p.hdr.hl * 4)).toNat

@[inherit_doc Datagram.fragLen] def Datagram.start (p : Datagram) : ℕ :=
  (p.hdr.offset &&& ipOffmask).toNat * 8

@[inherit_doc Datagram.fragLen] def Datagram.stop (p : Datagram) : ℕ :=
  (p.start + p.fragLen) % 65536

/-- Whether a packet is the last fragment. -/
def Datagram.isLast (p : Datagram) : Bool := p.hdr.offset &&& ipMf = 0

/-- The pbufs of some packets. -/
def pbufClen (ps : List Datagram) : ℕ := (ps.map Datagram.clen).sum

/-! ## The entry of a datagram -/

/-- `struct ip_reassdata`. -/
structure IpReassdata where
  p : List Datagram
  iphdr : IpHdr
  datagramLen : ℕ
  lastfrag : Bool
  timer : ℕ
  deriving DecidableEq

/-- Where a fragment goes: behind some fragments and in front of some others. -/
inductive Place
  | drop
  | between (before after : List Datagram) (valid : Bool)
  deriving DecidableEq

/-- Whether a fragment ends where the next one begins, if there are both of them. -/
def meets (prev : Option Datagram) (next : Datagram) : Bool :=
  prev.elim true fun prev => prev.stop = next.start

/-- The loop of `ip_reass_chain_frag_into_datagram_and_validate`, by the fragments that it has
passed. The assertion behind it holds by the test for an overlap. -/
def findPlace (p : Datagram) (before : List Datagram) (valid : Bool) : List Datagram → Place
  | [] => .between before [] (valid && meets before.getLast? p)
  | q :: after =>
    if p.start < q.start then
      match before.getLast? with
      | some prev =>
        if p.start < prev.stop ∨ p.stop > q.start then .drop
        else .between before (q :: after) valid
      | none => .between before (q :: after) valid
    else if p.start = q.start then .drop
    else if p.start < q.stop then .drop
    else findPlace p (before ++ [q]) (valid && meets before.getLast? q) after

/-- There is no gap between some fragments. -/
def gapless : List Datagram → Bool
  | p :: q :: ps => p.stop = q.start && gapless (q :: ps)
  | _ => true

/-- The entry with what a fragment tells about the datagram. -/
def IpReassdata.note (ipr : IpReassdata) (p : Datagram) : IpReassdata :=
  { ipr with
    lastfrag := ipr.lastfrag || p.isLast
    datagramLen := if p.isLast then p.stop else ipr.datagramLen }

/-- The whole datagram, with the header that the entry has kept. Its pbufs are counted by
`pbuf_clen` like those of the fragments. -/
def IpReassdata.datagram (ipr : IpReassdata) (ps : List Datagram) : Datagram where
  hdr := { ipr.iphdr with len := BitVec.ofNat 16 (ipr.datagramLen + ipHlen), offset := 0 }.withChksum
  data := ps.flatMap Datagram.data
  clen := pbufClen ps % 256
  clen_lt := Nat.mod_lt _ (by decide)

/-- What becomes of an entry and a fragment. -/
inductive Accepted
  | dropped (ipr : IpReassdata)
  | queued (ipr : IpReassdata)
  | complete (d : Datagram)
  deriving DecidableEq

/-- An entry gets a fragment. There is no result where an assertion fails. -/
def IpReassdata.accept (ipr : IpReassdata) (p : Datagram) : Option Accepted :=
  let ipr := ipr.note p
  match findPlace p [] true ipr.p with
  | .drop => some (.dropped ipr)
  | .between before after valid =>
    let ps := before ++ p :: after
    if ipr.lastfrag && valid && (ps.head?.map Datagram.start = some 0) && gapless (p :: after) then
      if ps.length ≠ 1 ∧ (p :: after).getLast?.map Datagram.stop = some ipr.datagramLen then
        some (.complete (ipr.datagram ps))
      else none
    else some (.queued { ipr with p := ps })

/-! ## All datagrams -/

/-- `IP_REASS_MAX_PBUFS`. -/
def ipReassMaxPbufs : ℕ := 5

/-- `MEMP_NUM_REASSDATA`. -/
def mempNumReassdata : ℕ := 4

/-- `IP_REASS_MAXAGE`. -/
def ipReassMaxage : ℕ := 3

/-- `reassdatagrams` and `ip_reass_pbufcount`. -/
@[ext] structure Reass where
  reassdatagrams : List IpReassdata
  pbufcount : ℕ
  deriving DecidableEq

/-- `ip_reass_free_complete_datagram`, by the positions of the entry and of the one that is
taken for the previous one, with the number of pbufs that are freed. There is no result where
an assertion fails. -/
def freeCompleteDatagram (s : Reass) (i : ℕ) (prev : Option ℕ) : Option (ℕ × Reass) :=
  match s.reassdatagrams[i]? with
  | none => none
  | some ipr =>
    if (prev = none ∧ i = 0 ∨ prev.map (· + 1) = some i) ∧ ipr.p ≠ [] ∧
        pbufClen ipr.p ≤ s.pbufcount then
      some (pbufClen ipr.p, ⟨s.reassdatagrams.eraseIdx i, s.pbufcount - pbufClen ipr.p⟩)
    else none

/-- What `ip_reass_remove_oldest_datagram` finds in the list: the oldest one of the other
datagrams, with its timer, the position before the last one, and how many others there are. -/
structure Oldest where
  oldest : Option (ℕ × ℕ)
  prev : Option ℕ
  others : ℕ
  deriving DecidableEq

/-- The entry at a position is looked at. -/
def Oldest.see (c : Oldest) (key : BitVec 32 × BitVec 32 × BitVec 16) (i : ℕ) (r : IpReassdata)
    (hasNext : Bool) : Oldest :=
  let c := if r.iphdr.key = key then c else
    { c with
      others := c.others + 1
      oldest := match c.oldest with
        | none => some (i, r.timer)
        | some (j, timer) => if r.timer ≤ timer then some (i, r.timer) else some (j, timer) }
  if hasNext then { c with prev := some i } else c

/-- The loop over the list. -/
def findOldest (key : BitVec 32 × BitVec 32 × BitVec 16) : List IpReassdata → ℕ → Oldest → Oldest
  | [], _, c => c
  | r :: rs, i, c => findOldest key rs (i + 1) (c.see key i r (rs ≠ []))

/-- `ip_reass_remove_oldest_datagram`, for at most a number of rounds. -/
def removeOldestDatagram (key : BitVec 32 × BitVec 32 × BitVec 16) (needed : ℕ) :
    ℕ → ℕ → Reass → Option (ℕ × Reass)
  | 0, _, _ => none
  | rounds + 1, freed, s =>
    let c := findOldest key s.reassdatagrams 0 ⟨none, none, 0⟩
    match c.oldest with
    | none => some (freed, s)
    | some (i, _) => do
      let (current, s) ← freeCompleteDatagram s i c.prev
      if freed + current < needed ∧ c.others > 1 then
        removeOldestDatagram key needed rounds (freed + current) s
      else return (freed + current, s)

/-- The datagrams with as many rounds as there are datagrams. -/
def Reass.removeOldest (s : Reass) (p : Datagram) : Option (ℕ × Reass) :=
  removeOldestDatagram p.hdr.key p.clen (s.reassdatagrams.length + 1) 0 s

/-- Whether there is room for the pbufs of a fragment, after datagrams have been removed if
there was none. -/
def Reass.makeRoom (s : Reass) (p : Datagram) : Option (Bool × Reass) :=
  if s.pbufcount + p.clen > ipReassMaxPbufs then do
    let (freed, s) ← s.removeOldest p
    return (freed ≠ 0 && s.pbufcount + p.clen ≤ ipReassMaxPbufs, s)
  else some (true, s)

/-- `memp_malloc(MEMP_REASSDATA)`: every entry in the list is one of the pool. -/
def Reass.canEnqueue (s : Reass) : Bool := s.reassdatagrams.length < mempNumReassdata

/-- A new entry. -/
def IpReassdata.started (p : Datagram) : IpReassdata := ⟨[], p.hdr, 0, false, ipReassMaxage⟩

/-- The state with a new entry at the front. -/
def Reass.enqueue (s : Reass) (p : Datagram) : Reass :=
  { s with reassdatagrams := .started p :: s.reassdatagrams }

/-- `ip_reass_enqueue_new_datagram`. -/
def enqueueNewDatagram (s : Reass) (p : Datagram) : Option (Bool × Reass) :=
  if s.canEnqueue then some (true, s.enqueue p)
  else do
    let (freed, s) ← s.removeOldest p
    if freed ≥ p.clen ∧ s.canEnqueue then return (true, s.enqueue p) else return (false, s)

/-- The entry at a position gets a fragment. -/
def acceptAt (s : Reass) (i : ℕ) (ipr : IpReassdata) (p : Datagram) :
    Option (Option Datagram × Reass) :=
  (ipr.accept p).map fun
    | .dropped ipr => (none, { s with reassdatagrams := s.reassdatagrams.set i ipr })
    | .queued ipr =>
      (none, ⟨s.reassdatagrams.set i ipr, s.pbufcount + p.clen⟩)
    | .complete d =>
      (some d, ⟨s.reassdatagrams.eraseIdx i, s.pbufcount + p.clen - d.clen⟩)

/-- The entry with the header of the first fragment, if this is the one that has come. -/
def IpReassdata.keepHeader (ipr : IpReassdata) (p : Datagram) : IpReassdata :=
  if p.hdr.offset &&& ipOffmask = 0 ∧ ipr.iphdr.offset &&& ipOffmask ≠ 0 then
    { ipr with iphdr := p.hdr }
  else ipr

/-- `ip_reass`, with the datagram that is complete then. -/
def ipReass (s : Reass) (p : Datagram) : Option (Option Datagram × Reass) :=
  if p.hdr.hl * 4 ≠ ipHlen then some (none, s)
  else do
    let (room, s) ← s.makeRoom p
    if room = false then return (none, s)
    else
      match s.reassdatagrams.findIdx? (fun r => r.iphdr.key = p.hdr.key) with
      | some i =>
        match s.reassdatagrams[i]? with
        | some ipr => acceptAt s i (ipr.keepHeader p) p
        | none => none
      | none =>
        let (enqueued, s) ← enqueueNewDatagram s p
        if enqueued = false then return (none, s)
        else
          match s.reassdatagrams with
          | ipr :: _ => acceptAt s 0 ipr p
          | [] => none

/-- The loop of `ip_reass_tmr`, by the entries that it has kept. -/
def ipReassTmrLoop (kept : List IpReassdata) (pbufcount : ℕ) : List IpReassdata → Option Reass
  | [] => some ⟨kept, pbufcount⟩
  | r :: rs =>
    if r.timer > 0 then ipReassTmrLoop (kept ++ [{ r with timer := r.timer - 1 }]) pbufcount rs
    else do
      let prev := if kept = [] then none else some (kept.length - 1)
      let (_, s) ← freeCompleteDatagram ⟨kept ++ r :: rs, pbufcount⟩ kept.length prev
      ipReassTmrLoop kept s.pbufcount rs

/-- `ip_reass_tmr`. -/
def ipReassTmr (s : Reass) : Option Reass := ipReassTmrLoop [] s.pbufcount s.reassdatagrams

/-! ## The place of a fragment -/

/-- The fragments of a queue, in the order of their offsets. -/
def Ascending (ps : List Datagram) : Prop := ps.Pairwise fun p q => p.start < q.start

/-- A fragment more at the end. -/
theorem gapless_concat (ps : List Datagram) (q : Datagram) :
    gapless (ps ++ [q]) = (gapless ps && meets ps.getLast? q) := by
  induction ps with
  | nil => simp [gapless, meets]
  | cons p ps ih =>
    cases ps with
    | nil => simp [gapless, meets]
    | cons p' ps =>
      rw [List.cons_append, List.cons_append, gapless, gapless, ← List.cons_append, ih,
        Bool.and_assoc, List.getLast?_cons_cons]

/-- The place between two groups of fragments, the first of them in front and the others
behind. -/
theorem findPlace_between {p : Datagram} {rest before₀ before after : List Datagram}
    {valid : Bool} (h : findPlace p before₀ (gapless before₀) rest = .between before after valid) :
    before ++ after = before₀ ++ rest ∧
      (∀ q ∈ before, q ∈ before₀ ∨ q.start < p.start ∧ q.stop ≤ p.start) ∧
      (∀ q ∈ after.head?, p.start < q.start) ∧
      valid = (gapless before && (after ≠ [] || meets before.getLast? p)) := by
  induction rest generalizing before₀ with
  | nil =>
    simp only [findPlace, Place.between.injEq] at h
    obtain ⟨rfl, rfl, rfl⟩ := h
    exact ⟨rfl, fun q hq => Or.inl hq, by simp, by simp⟩
  | cons q rest ih =>
    rw [findPlace] at h
    split_ifs at h with hlt heq hover
    · have hplace : before₀ = before ∧ q :: rest = after ∧ gapless before₀ = valid := by
        split at h
        · split_ifs at h
          simpa using h
        · simpa using h
      obtain ⟨rfl, rfl, rfl⟩ := hplace
      exact ⟨rfl, fun q hq => Or.inl hq, by simpa using hlt, by simp⟩
    · rw [← gapless_concat] at h
      obtain ⟨happend, hbefore, hafter, hvalid⟩ := ih h
      refine ⟨by simpa using happend, ?_, hafter, hvalid⟩
      intro r hr
      obtain hr | hr := hbefore r hr
      · obtain hr | hr := List.mem_append.mp hr
        · exact Or.inl hr
        · obtain rfl := List.mem_singleton.mp hr
          exact Or.inr (by omega)
      · exact Or.inr hr

/-- A fragment that is dropped does not begin in front of all the others. -/
theorem findPlace_drop {p : Datagram} {rest before : List Datagram} {valid : Bool}
    (hbefore : ∀ q ∈ before, q.start ≤ p.start) (h : findPlace p before valid rest = .drop) :
    ∃ q ∈ before ++ rest, q.start ≤ p.start := by
  induction rest generalizing before valid with
  | nil => cases h
  | cons q rest ih =>
    rw [findPlace] at h
    by_cases hlt : p.start < q.start
    · rw [if_pos hlt] at h
      cases hlast : before.getLast? with
      | none =>
        rw [hlast] at h
        cases h
      | some prev =>
        have hprev := List.mem_of_getLast? hlast
        exact ⟨prev, List.mem_append_left _ hprev, hbefore prev hprev⟩
    · exact ⟨q, List.mem_append_right _ List.mem_cons_self, Nat.not_lt.mp hlt⟩

/-- The queue stays in order. -/
theorem Ascending.between {p : Datagram} {before after : List Datagram}
    (h : Ascending (before ++ after)) (hbefore : ∀ q ∈ before, q.start < p.start)
    (hafter : ∀ q ∈ after.head?, p.start < q.start) : Ascending (before ++ p :: after) := by
  obtain ⟨hfirst, hsecond, hcross⟩ := List.pairwise_append.mp h
  have hall : ∀ q ∈ after, p.start < q.start := by
    cases after with
    | nil => simp
    | cons r after =>
      have hr := hafter r (by simp)
      intro q hq
      obtain rfl | hq := List.mem_cons.mp hq
      · exact hr
      · exact hr.trans (List.rel_of_pairwise_cons hsecond hq)
  refine List.pairwise_append.mpr ⟨hfirst, List.pairwise_cons.mpr ⟨hall, hsecond⟩, ?_⟩
  intro q hq r hr
  obtain rfl | hr := List.mem_cons.mp hr
  · exact hbefore q hq
  · exact hcross q hq r hr

/-- Fragments of a queue that begin at the same offset are the same. -/
theorem Ascending.eq_of_start {ps : List Datagram} (h : Ascending ps) {p q : Datagram}
    (hp : p ∈ ps) (hq : q ∈ ps) (heq : p.start = q.start) : p = q := by
  have hnodup : (ps.map Datagram.start).Nodup :=
    List.pairwise_map.mpr (h.imp fun hlt => Nat.ne_of_lt hlt)
  exact List.inj_on_of_nodup_map hnodup hp hq heq

/-- The whole datagram of a queue is complete: the first fragment is there, and the last one,
which ends where it should. -/
structure IpReassdata.Full (ipr : IpReassdata) (ps : List Datagram) : Prop where
  lastfrag : ipr.lastfrag = true
  first : ps.head?.map Datagram.start = some 0
  two : 2 ≤ ps.length
  last : ps.getLast?.map Datagram.stop = some ipr.datagramLen

/-- The entry that remains. -/
def Accepted.entry : Accepted → Option IpReassdata
  | .dropped ipr => some ipr
  | .queued ipr => some ipr
  | .complete _ => none

/-- The datagram that is complete. -/
def Accepted.delivered : Accepted → Option Datagram
  | .complete d => some d
  | _ => none

/-- What an entry does with a fragment. -/
theorem IpReassdata.accept_cases {ipr : IpReassdata} {p : Datagram} {a : Accepted}
    (h : ipr.accept p = some a) :
    (a = .dropped (ipr.note p) ∧ ∃ q ∈ ipr.p, q.start ≤ p.start) ∨
      ∃ before after, before ++ after = ipr.p ∧ (∀ q ∈ before, q.start < p.start) ∧
        (∀ q ∈ after.head?, p.start < q.start) ∧
        (a = .queued { ipr.note p with p := before ++ p :: after } ∨
          a = .complete ((ipr.note p).datagram (before ++ p :: after)) ∧
            (ipr.note p).Full (before ++ p :: after)) := by
  have hqueue : (ipr.note p).p = ipr.p := rfl
  rw [IpReassdata.accept] at h
  simp only [hqueue] at h
  cases hplace : findPlace p [] true ipr.p with
  | drop =>
    left
    rw [hplace] at h
    exact ⟨by simpa using h.symm, findPlace_drop (by simp) hplace⟩
  | between before after valid =>
    right
    rw [hplace] at h
    have hspec := @findPlace_between p ipr.p [] _ _ _ (by simpa [gapless] using hplace)
    obtain ⟨happend, hbefore, hafter, hvalid⟩ := hspec
    refine ⟨before, after, by simpa using happend, fun q hq => ?_, hafter, ?_⟩
    · obtain hq | hq := hbefore q hq
      · simp at hq
      · exact hq.1
    · dsimp only at h
      split_ifs at h with hcomplete hsane
      · right
        simp only [Bool.and_eq_true, decide_eq_true_eq] at hcomplete
        refine ⟨by simpa using h.symm, hcomplete.1.1.1, hcomplete.1.2, ?_, ?_⟩
        · have hlen : (before ++ p :: after).length ≠ 0 := by simp
          omega
        · rw [List.getLast?_append_of_ne_nil _ (by simp)]
          exact hsane.2
      · left
        simpa using h.symm

end WifiMcu.Lwip
