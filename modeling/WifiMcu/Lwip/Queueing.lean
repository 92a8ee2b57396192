import WifiMcu.Lwip.Ownership

/-!
# Packets that wait for an address

`etharp_query` copies a packet that may change before the address is known, and leaves room
for the headers in front of the copy. Whatever it runs into, it hands every pbuf on or frees
it, and it leaves the packet of the caller alone.
-/

namespace WifiMcu.Lwip

open RefCount

section TakeOver

variable {s : Store Pbuf} {cs : List (ℕ × Pbuf)}

/-- The search for a pbuf that has to be copied ends with one of the packet, or with none if
they are all in ROM. -/
theorem firstToCopy_chain {p : Option ℕ} {fuel : ℕ} (h : Chain s p cs)
    (hsingle : NotQueue (cs.map Prod.snd)) (hfuel : cs.length ≤ fuel) :
    firstToCopy fuel s p = some none ∨
      ∃ i n, firstToCopy fuel s p = some (some i) ∧ read s i = some n ∧
        n.data ∈ cs.map Prod.snd := by
  induction h generalizing fuel with
  | nil => exact .inl (by cases fuel <;> rfl)
  | @cons i n cs hread htail ih =>
    cases fuel with
    | zero => simp at hfuel
    | succ fuel =>
      rw [firstToCopy, hread, isQueue_eq_false (.cons hread htail) hsingle]
      simp only [Bool.false_eq_true, if_false]
      by_cases hrom : n.data.type ≠ .rom
      · rw [if_pos hrom]
        exact .inr ⟨i, n, rfl, hread, List.mem_cons_self⟩
      · rw [if_neg hrom]
        rcases ih hsingle.tail (by simpa using hfuel) with hnone | ⟨j, m, hj, hm, hmem⟩
        · exact .inl hnone
        · exact .inr ⟨j, m, hj, hm, List.mem_cons_of_mem _ hmem⟩

/-- A packet that starts outside of ROM is copied by the length that its first pbuf has for
the whole packet. -/
theorem firstToCopy_head {q : ℕ} {n : Node Pbuf} (h : Chain s (some q) cs)
    (hsingle : NotQueue (cs.map Prod.snd)) (hn : read s q = some n) (hrom : n.data.type ≠ .rom) :
    firstToCopy s.length s (some q) = some (some q) := by
  obtain ⟨fuel, hfuel⟩ : ∃ fuel, s.length = fuel + 1 :=
    ⟨s.length - 1, by have := lt_length_of_read hn; omega⟩
  rw [hfuel, firstToCopy, hn, isQueue_eq_false h hsingle]
  simp only [Bool.false_eq_true, if_false]
  rw [if_pos hrom]

/-- The pbuf that a packet is copied to. -/
def Pbuf.copied (length space : ℕ) (garbage : ℕ → UInt8) (memory : List UInt8) : Pbuf :=
  (Pbuf.shifted length space garbage).setMemory memory

/-- With memory for a copy, what happens is up to `pbuf_copy`. -/
theorem takeOver_copy {cfg : Config} {q first : ℕ} {n : Node Pbuf}
    (hspace : cfg.subEthernetHeaderSpace ≤ 32767) (hchain : Chain s (some q) cs)
    (hwithin : ∀ p ∈ cs.map Prod.snd, p.Within)
    (hfirst : firstToCopy s.length s (some q) = some (some first)) (hn : read s first = some n)
    (hroom : n.data.totLen + cfg.subEthernetHeaderSpace < 65536) (garbage : ℕ → UInt8) :
    ∃ e memory, takeOver cfg s q (some garbage) =
        (let s' := alloc s (.copied n.data.totLen cfg.subEthernetHeaderSpace garbage memory)
        if e ≠ errOk then (pbufFree s' (some s.length)).map fun s => (none, s)
        else some (some s.length, s')) ∧
      (NotQueue (cs.map Prod.snd) → (∀ p ∈ cs.map Prod.snd, 0 < p.len) →
        (∀ p ∈ (cs.map Prod.snd).head?, p.totLen = n.data.totLen) →
        total (cs.map Prod.snd) = n.data.totLen → e = errOk ∧
          (Pbuf.copied n.data.totLen cfg.subEthernetHeaderSpace garbage memory).content =
            contents (cs.map Prod.snd)) := by
  obtain ⟨e, memory, hcopy, -, hcopied, -⟩ := pbufCopy_single (n := ⟨none, 1, _⟩)
    (read_alloc_self s (.shifted n.data.totLen cfg.subEthernetHeaderSpace garbage)) rfl
    (by simp [Pbuf.shifted, Pbuf.allocated]) (Pbuf.within_shifted garbage hroom)
    (hchain.alloc _) (fun hmem => absurd (hchain.lt_length _ hmem) (Nat.lt_irrefl _))
    hwithin
  rw [setData_alloc] at hcopy
  refine ⟨e, memory, ?_, fun hsingle hfilled hhead htotal => ?_⟩
  · rw [takeOver, hfirst]
    simp only [Option.bind_eq_bind, Option.bind_some, hn, pbufAlloc]
    rw [pbufHeader_allocated garbage hspace hroom]
    simp only [Option.bind_some, ne_eq, not_true_eq_false, if_false]
    rw [hcopy]
    rfl
  · have hends : EndsFilled (cs.map Prod.snd) := fun p hp => hfilled p (List.mem_of_getLast? hp)
    obtain ⟨he, hover⟩ := hcopied hsingle hends hhead htotal
    refine ⟨he, ?_⟩
    have hread := read_overwrite hover
    rw [length_contents hwithin, htotal] at hread
    exact hread

end TakeOver

section Query

variable {cfg : Config} (netif : Netif) {a : Etharp} {others : List ℕ} {q i : ℕ}
  {e : EtharpEntry} {cs : List (ℕ × Pbuf)} (changed : List ℕ)

/-- Whatever pbuf is going to wait, there is one more pointer to it. -/
theorem Owned.takeOver (hspace : cfg.subEthernetHeaderSpace ≤ 32767)
    (h : Owned a (q :: others)) (hchain : Chain a.pbufs (some q) cs)
    (hwithin : ∀ p ∈ cs.map Prod.snd, p.Within) (hsingle : NotQueue (cs.map Prod.snd))
    (hroom : ∀ p ∈ cs.map Prod.snd, p.totLen + cfg.subEthernetHeaderSpace < 65536)
    (mem : Option (ℕ → UInt8)) :
    ∃ p s, takeOver cfg a.pbufs q mem = some (p, s) ∧
      Owned { a with pbufs := s } (p.toList ++ q :: others) ∧ Extends changed a.pbufs s := by
  rcases firstToCopy_chain hchain hsingle hchain.length_le with
    hfirst | ⟨first, n, hfirst, hn, hmem⟩
  · -- the packet itself is going to wait
    obtain ⟨n, hn⟩ := h.counted.read_root (i := q) (by simp)
    refine ⟨some q, pbufRef a.pbufs q, ?_, ⟨?_, h.quiet⟩, (Extends.refl _).retain hn 1⟩
    · rw [Lwip.takeOver, hfirst]
      rfl
    · refine (h.counted.retain hn 1).of_count fun j => ?_
      simp only [Etharp.queued, List.count_append, List.replicate_one, Option.toList_some]
      omega
  · cases mem with
    | none =>
      refine ⟨none, a.pbufs, ?_, h, .refl _⟩
      rw [Lwip.takeOver, hfirst]
      simp only [Option.bind_eq_bind, Option.bind_some, hn]
      rfl
    | some garbage =>
      obtain ⟨e, memory, heq, -⟩ := takeOver_copy hspace hchain hwithin hfirst hn
        (hroom _ hmem) garbage
      have hnew := h.alloc (.copied n.data.totLen cfg.subEthernetHeaderSpace garbage memory)
      have hext : Extends changed a.pbufs _ := (Extends.refl a.pbufs).alloc
        (.copied n.data.totLen cfg.subEthernetHeaderSpace garbage memory)
      by_cases he : e = errOk
      · refine ⟨some a.pbufs.length, _, ?_, hnew, hext⟩
        rw [heq]
        simp only
        rw [if_neg (not_not_intro he)]
      · obtain ⟨s, hs, howned, hext'⟩ := hnew.pbufFree changed
        refine ⟨none, s, ?_, howned, hext.trans hext'⟩
        rw [heq]
        simp only
        rw [if_pos he, hs]
        rfl

/-- What becomes of the packet that an entry takes: it waits there, alone or behind the other
ones, or there is no entry for the queue and it is freed. -/
theorem Owned.enqueue (cfg : Config) {p : ℕ} (h : Owned a (p :: others))
    (he : a.arpTable[i]? = some e) (hstate : e.state.isStable = false) (queueEntry : Bool) :
    ∃ result a', enqueue cfg a i p queueEntry = some (result, a') ∧ Owned a' others ∧
      Extends changed a.pbufs a'.pbufs ∧ a'.kept = a.kept ∧
      (if cfg.arpQueueing && !queueEntry then result = errMem ∧ a'.arpTable = a.arpTable
      else result = errOk ∧ a'.arpTable = a.arpTable.set i
        { e with q := (if cfg.arpQueueing then e.q else []) ++ [p] }) := by
  have hquiet : ∀ q, (({ e with q := q } : EtharpEntry).state.isStable → q = []) := by
    intro q hstable
    rw [hstate] at hstable
    cases hstable
  rw [Lwip.enqueue, he]
  cases hqueueing : cfg.arpQueueing with
  | true =>
    cases queueEntry with
    | true =>
      refine ⟨errOk, _, rfl, ?_, .refl _, rfl, rfl, rfl⟩
      refine h.set he (fun j => ?_) (hquiet _)
      simp only [List.count_append, List.count_cons, List.count_nil]
      omega
    | false =>
      obtain ⟨s, hs, howned, hext⟩ := h.pbufFree changed
      refine ⟨errMem, _, ?_, howned, hext, rfl, rfl, rfl⟩
      simp only [if_true, Bool.false_eq_true, if_false]
      rw [hs]
      rfl
  | false =>
    have hset : Owned { a with arpTable := a.arpTable.set i { e with q := [p] } }
        (e.q ++ others) := by
      refine h.set he (fun j => ?_) (hquiet _)
      simp only [List.count_append, List.count_cons, List.count_nil]
      omega
    obtain ⟨s, hs, howned, hext⟩ := hset.freeEtharpQ changed e.q
    refine ⟨errOk, _, ?_, howned, hext, rfl, rfl, rfl⟩
    simp only [Bool.false_eq_true, if_false]
    rw [hs]
    rfl

/-- An Ethernet header has 14 bytes. -/
theorem length_ethHdr (dest src : EthAddr) (type : ℕ) : (ethHdr dest src type).length = 14 := by
  simp [ethHdr, htonsBytes]

/-- A packet that is sent stays with its owner. -/
theorem Owned.sendIp {roots : List ℕ} {n : Node Pbuf} (h : Owned a roots)
    (hn : read a.pbufs q = some n) (hrom : n.data.type ≠ .rom) (hwithin : n.data.Within)
    (hlen : 14 ≤ n.data.len) (hq : q ∈ changed) (src dst : EthAddr) :
    ∃ result a', etharpSendIp netif a q src dst = some (result, a') ∧ Owned a' roots ∧
      Extends changed a.pbufs a'.pbufs := by
  obtain ⟨data, hput⟩ := put_of_within (ethHdr dst src ethtypeIp) hrom hwithin
    (by rw [length_ethHdr]; exact hlen)
  obtain ⟨hwritten, howned⟩ := h.put hn hput
  obtain ⟨result, a', hsent, howned', -, hext⟩ := howned.linkoutput changed
    netif (read_setData_self hn data)
  refine ⟨result, a', ?_, howned', hext _ ?_ fun _ => hq⟩
  · rw [etharpSendIp, hwritten]
    exact hsent
  · exact (Extends.refl _).setData hn (fun _ => hq) data

/-- A packet of a caller is still there, unless something was allowed to change it. -/
theorem chain_of_extends {a' : Etharp} {q : Option ℕ} (h : Owned a' (q.toList ++ others))
    (hext : Extends [] a.pbufs a'.pbufs) (hchain : Chain a.pbufs q cs) :
    Chain a'.pbufs q cs :=
  hchain.extends hext h.counted fun j hj => h.counted.read_root (by simp [Option.mem_def.mp hj])

/-- The request does not touch the table, nor the packet of the caller. -/
theorem Owned.request {roots : List ℕ} (hspace : cfg.subEthernetHeaderSpace ≤ 32767)
    (h : Owned a roots) (needed : Prop) [Decidable needed] (ipaddr : BitVec 32)
    (mem : Option (ℕ → UInt8)) :
    ∃ result a', (if needed then etharpRequest cfg netif a ipaddr mem else some (errMem, a)) =
        some (result, a') ∧ Owned a' roots ∧ a'.arpTable = a.arpTable ∧
      Extends changed a.pbufs a'.pbufs := by
  by_cases hneeded : needed
  · rw [if_pos hneeded, etharpRequest]
    exact h.etharpRaw changed netif hspace _ _ _
  · rw [if_neg hneeded]
    exact ⟨errMem, a, rfl, h, rfl, .refl _⟩

/-- A packet that fits and can be written to, where its address is known. -/
def Sendable (ps : List Pbuf) : Prop := ∀ p ∈ ps.head?, p.type ≠ .rom ∧ 14 ≤ p.len

/-- An entry that is neither empty nor stable is pending. -/
theorem EtharpState.eq_pending {state : EtharpState} (hempty : state ≠ .empty)
    (hstable : state.isStable = false) : state = .pending := by
  cases state with
  | empty => exact absurd rfl hempty
  | pending => rfl
  | stable => cases hstable
  | stableRerequesting => cases hstable

/-- What `etharp_query` does with the entry that it has found keeps the pbufs owned. -/
theorem Owned.queryEntry {q : Option ℕ} (hspace : cfg.subEthernetHeaderSpace ≤ 32767)
    (h : Owned a (q.toList ++ others)) (he : a.arpTable[i]? = some e)
    (hempty : e.state ≠ .empty) (hchain : Chain a.pbufs q cs)
    (hwithin : ∀ p ∈ cs.map Prod.snd, p.Within) (hsingle : NotQueue (cs.map Prod.snd))
    (hroom : ∀ p ∈ cs.map Prod.snd, p.totLen + cfg.subEthernetHeaderSpace < 65536)
    (hsend : e.state.isStable → Sendable (cs.map Prod.snd)) (ipaddr : BitVec 32)
    (supply : Supply) :
    ∃ result a', queryEntry cfg netif a ipaddr i e q supply = some (result, a') ∧
      Owned a' (q.toList ++ others) ∧ Extends q.toList a.pbufs a'.pbufs := by
  obtain ⟨result, a₁, hrequest, h₁, htable, hext₁⟩ := h.request netif [] hspace
    (e.state = .pending ∨ q = none) ipaddr supply.request
  have hchain₁ := chain_of_extends h₁ hext₁ hchain
  have hext₁' : Extends q.toList a.pbufs a₁.pbufs := hext₁.mono (List.nil_subset _)
  rw [Lwip.queryEntry, hrequest]
  simp only
  cases hchain₁ with
  | nil => exact ⟨result, a₁, rfl, h₁, hext₁'⟩
  | @cons q n cs hread htail =>
    simp only
    cases hstable : e.state.isStable with
    | true =>
      obtain ⟨hrom, hlen⟩ := hsend hstable n.data rfl
      obtain ⟨result', a', hsent, howned, hext⟩ := Owned.sendIp netif [q]
        (a := { a₁ with etharpCachedEntry := i }) ⟨h₁.counted, h₁.quiet⟩ hread
        hrom (hwithin _ List.mem_cons_self) hlen (List.mem_singleton_self q) netif.hwaddr e.ethaddr
      exact ⟨result', a', hsent, howned, hext₁'.trans hext⟩
    | false =>
      simp only [Bool.false_eq_true, if_false]
      rw [if_pos (EtharpState.eq_pending hempty hstable), queuePacket]
      obtain ⟨p, s, htake, howned, hext⟩ := Owned.takeOver [q] hspace h₁
        (.cons hread htail) hwithin hsingle hroom supply.copy
      rw [htake]
      cases p with
      | none => exact ⟨errMem, _, rfl, howned, hext₁'.trans hext⟩
      | some p =>
        obtain ⟨result', a', henqueue, howned', hext', -⟩ := Owned.enqueue [q] cfg
          howned (by rw [htable]; exact he) hstable supply.queueEntry
        exact ⟨result', a', henqueue, howned', hext₁'.trans (hext.trans hext')⟩

/-- The entry that a call of `etharp_query` works on, and the state after the search. -/
def FindsEntry (a : Etharp) (ipaddr : BitVec 32) (i : ℕ) (e : EtharpEntry) (a₁ : Etharp) : Prop :=
  etharpFindEntry a ipaddr etharpFlagTryHard = some (.ok i, a₁) ∧ a₁.arpTable[i]? = some e

/-- An entry that is marked as pending is not empty. -/
theorem EtharpEntry.markPending_state (e : EtharpEntry) : e.markPending.state ≠ .empty := by
  rw [markPending]
  split_ifs with h
  · simp
  · exact h

/-- Only a fresh entry is marked as pending, so a stable one stays stable. -/
theorem EtharpEntry.isStable_markPending (e : EtharpEntry) :
    e.markPending.state.isStable = e.state.isStable := by
  rw [markPending]
  split_ifs with h
  · rw [h]
    rfl
  · rfl

/-- An entry that is marked as pending keeps its queue. -/
theorem EtharpEntry.q_markPending (e : EtharpEntry) : e.markPending.q = e.q := by
  rw [markPending]
  split_ifs <;> rfl

/-- The entry that has been found becomes a pending one, if it is fresh. -/
theorem Owned.markPending {roots : List ℕ} (h : Owned a roots) (he : a.arpTable[i]? = some e) :
    Owned { a with arpTable := a.arpTable.set i e.markPending } roots := by
  refine h.set he (fun j => by rw [e.q_markPending]) fun hstable => ?_
  rw [e.isStable_markPending] at hstable
  rw [e.q_markPending]
  exact h.quiet e (List.mem_of_getElem? he) hstable

/-- `etharp_query` goes on with the entry that has been found. -/
theorem etharpQuery_of_found {a₁ : Etharp} {ipaddr : BitVec 32}
    (hunicast : isNonUnicast ipaddr netif = false) (hfinds : FindsEntry a ipaddr i e a₁)
    (q : Option ℕ) (supply : Supply) :
    etharpQuery cfg netif a ipaddr q supply =
      queryEntry cfg netif { a₁ with arpTable := a₁.arpTable.set i e.markPending } ipaddr i
        e.markPending q supply := by
  rw [etharpQuery, hunicast, hfinds.1]
  simp only [Bool.false_eq_true, if_false]
  rw [hfinds.2]

/-- Every path of `etharp_query` returns, and whoever has held a pbuf before does so
afterwards. -/
theorem Owned.query {q : Option ℕ} {ipaddr : BitVec 32}
    (hspace : cfg.subEthernetHeaderSpace ≤ 32767) (h : Owned a (q.toList ++ others))
    (hchain : Chain a.pbufs q cs) (hwithin : ∀ p ∈ cs.map Prod.snd, p.Within)
    (hsingle : NotQueue (cs.map Prod.snd))
    (hroom : ∀ p ∈ cs.map Prod.snd, p.totLen + cfg.subEthernetHeaderSpace < 65536)
    (hsend : ∀ i e a₁, FindsEntry a ipaddr i e a₁ → e.state.isStable →
      Sendable (cs.map Prod.snd)) (supply : Supply) :
    ∃ result a', etharpQuery cfg netif a ipaddr q supply = some (result, a') ∧
      Owned a' (q.toList ++ others) ∧ Extends q.toList a.pbufs a'.pbufs := by
  cases hunicast : isNonUnicast ipaddr netif with
  | true =>
    refine ⟨errArg, a, ?_, h, .refl _⟩
    rw [etharpQuery, hunicast, if_pos rfl]
  | false =>
    obtain ⟨⟨found, a₁⟩, hfind, hfound⟩ := h.findEntry [] ipaddr etharpFlagTryHard
    cases found with
    | error err =>
      refine ⟨err, a₁, ?_, hfound.owned, hfound.ext.mono (List.nil_subset _)⟩
      rw [etharpQuery, hunicast, hfind]
      rfl
    | ok i =>
      obtain ⟨e, he⟩ := hfound.entry i rfl
      have hfinds : FindsEntry a ipaddr i e a₁ := ⟨hfind, he⟩
      obtain ⟨hlt, -⟩ := List.getElem?_eq_some_iff.mp he
      have hmarked := hfound.owned.markPending he
      obtain ⟨result, a', hquery, howned, hext⟩ := hmarked.queryEntry netif hspace
        (List.getElem?_set_self hlt) e.markPending_state
        (chain_of_extends hmarked hfound.ext hchain) hwithin hsingle hroom
        (fun hstable => hsend i e a₁ hfinds (by rwa [← e.isStable_markPending])) ipaddr supply
      refine ⟨result, a', ?_, howned, (hfound.ext.mono (List.nil_subset _)).trans hext⟩
      rw [etharpQuery_of_found netif hunicast hfinds]
      exact hquery

end Query

/-! ## What waits -/

/-- One packet: no pbuf of it is empty, and its length is that of its pbufs together. -/
structure Packet (ps : List Pbuf) : Prop where
  within : ∀ p ∈ ps, p.Within
  filled : ∀ p ∈ ps, 0 < p.len
  totLen : ∀ p ∈ ps.head?, p.totLen = total ps
  single : NotQueue ps

/-- A copy of a packet in one pbuf, which only the entry points to. There is room for the
headers in front of it. -/
structure CopyOf (space : ℕ) (ps : List Pbuf) (n : Node Pbuf) : Prop where
  next : n.next = none
  ref : n.ref = 1
  type : n.data.type = .ram
  totLen : n.data.totLen = total ps
  len : n.data.len = total ps
  content : n.data.content = contents ps
  room : (n.data.header space).isSome

/-- The allocators have what a packet that is going to wait needs. -/
def Supply.HasMemory (cfg : Config) (supply : Supply) : Prop :=
  supply.copy.isSome ∧ (cfg.arpQueueing → supply.queueEntry)

/-- What a call of `etharp_query` with a packet for a pending entry does: the copy of the
packet waits at the entry, or nothing does, and the packet itself is left alone. -/
structure Waits (cfg : Config) (a a₁ : Etharp) (i : ℕ) (e : EtharpEntry) (q : ℕ)
    (cs : List (ℕ × Pbuf)) (others : List ℕ) (supply : Supply) (result : ℤ) (a' : Etharp) :
    Prop where
  owned : Owned a' (q :: others)
  packet : Chain a'.pbufs (some q) cs
  failed : ¬ supply.HasMemory cfg →
    result = errMem ∧ a'.arpTable = a₁.arpTable.set i e.markPending
  waits : supply.HasMemory cfg → result = errOk ∧ ∃ p n,
    a'.arpTable = a₁.arpTable.set i
      { e.markPending with q := (if cfg.arpQueueing then e.q else []) ++ [p] } ∧
    a.pbufs.length ≤ p ∧ read a'.pbufs p = some n ∧
    CopyOf cfg.subEthernetHeaderSpace (cs.map Prod.snd) n

section Waits

variable {cfg : Config} {a : Etharp} {others : List ℕ} {q i : ℕ} {e : EtharpEntry}
  {cs : List (ℕ × Pbuf)}

/-- The new packet at an entry is there once. -/
theorem count_queued_new (ps : List ℕ) {roots : List ℕ} {p : ℕ} (h : Owned a roots)
    (hp : a.pbufs.length ≤ p) (he : a.arpTable[i]? = some e) (hps : ∀ x ∈ ps, x ∈ e.q) :
    ((a.arpTable.set i { e with q := ps ++ [p] }).flatMap EtharpEntry.q).count p = 1 ∧
      a.kept.count p = 0 ∧ roots.count p = 0 := by
  have hfresh := (h.counted.fresh hp).1
  simp only [Etharp.queued, List.count_append] at hfresh
  have hnone := count_queued_set he { e with q := [] } p
  have hset := count_queued_set he { e with q := ps ++ [p] } p
  have hps' : ps.count p = 0 := by
    refine List.count_eq_zero.mpr fun hmem => ?_
    have := List.count_pos_iff.mpr (hps p hmem)
    rw [List.count_nil] at hnone
    omega
  rw [List.count_append, hps', List.count_cons_self, List.count_nil] at hset
  rw [List.count_nil] at hnone
  omega

/-- The copy is one pbuf, with all bytes of the packet behind the room for the headers. -/
theorem takeOver_packet {s : Store Pbuf} {n : Node Pbuf}
    (hspace : cfg.subEthernetHeaderSpace ≤ 32767) (hchain : Chain s (some q) cs)
    (hpacket : Packet (cs.map Prod.snd)) (hn : read s q = some n) (hrom : n.data.type ≠ .rom)
    (hroom : n.data.totLen + cfg.subEthernetHeaderSpace < 65536) (garbage : ℕ → UInt8) :
    ∃ data, takeOver cfg s q (some garbage) = some (some s.length, alloc s data) ∧
      ∀ m : Node Pbuf, m.next = none → m.ref = 1 → m.data = data →
        CopyOf cfg.subEthernetHeaderSpace (cs.map Prod.snd) m := by
  have hhead : (cs.map Prod.snd).head? = some n.data := by
    cases hchain with
    | cons hread _ =>
      obtain rfl := Option.some_inj.mp (hread.symm.trans hn)
      rfl
  have htotal := hpacket.totLen n.data hhead
  obtain ⟨err, memory, htake, hcopied⟩ := takeOver_copy hspace hchain hpacket.within
    (firstToCopy_head hchain hpacket.single hn hrom) hn hroom garbage
  obtain ⟨rfl, hcontent⟩ := hcopied hpacket.single hpacket.filled
    (fun p hp => by rw [Option.some_inj.mp (hp.symm.trans hhead)]) htotal.symm
  refine ⟨_, htake, fun m hnext href hdata => ⟨hnext, href, ?_, ?_, ?_, ?_, ?_⟩⟩ <;> rw [hdata]
  · rfl
  · exact htotal
  · exact htotal
  · exact hcontent
  · exact header_pos rfl (Nat.le_refl _)

/-- Without memory for a copy there is nothing to wait. -/
theorem takeOver_none {s : Store Pbuf} {n : Node Pbuf} (hchain : Chain s (some q) cs)
    (hsingle : NotQueue (cs.map Prod.snd)) (hn : read s q = some n) (hrom : n.data.type ≠ .rom) :
    takeOver cfg s q none = some (none, s) := by
  rw [takeOver, firstToCopy_head hchain hsingle hn hrom]
  simp only [Option.bind_eq_bind, Option.bind_some, hn]
  rfl

/-- The entry that a new pbuf is put to has the only pointer to it. -/
theorem Owned.alone {a' : Etharp} {roots ps : List ℕ} {data : Pbuf} (h : Owned a roots)
    (he : a.arpTable[i]? = some e) (hps : ∀ x ∈ ps, x ∈ e.q) (h' : Owned a' roots)
    (hext : Extends [] (RefCount.alloc a.pbufs data) a'.pbufs) (hkept : a'.kept = a.kept)
    (htable : a'.arpTable = a.arpTable.set i { e with q := ps ++ [a.pbufs.length] }) :
    ∃ n, read a'.pbufs a.pbufs.length = some n ∧ n.next = none ∧ n.ref = 1 ∧ n.data = data := by
  obtain ⟨hqueued, hheld, hroots⟩ := count_queued_new ps h (Nat.le_refl _) he hps
  have hcount : (a'.queued ++ a'.kept ++ roots).count a.pbufs.length = 1 := by
    rw [List.count_append, List.count_append, Etharp.queued, htable, hkept, hheld, hroots]
    exact hqueued
  obtain ⟨n, hn⟩ := h'.counted.read_root
    (List.count_pos_iff.mp (by rw [hcount]; exact Nat.one_pos))
  obtain ⟨m, hm, hnext, hdata⟩ := hext.kept a.pbufs.length (by simp) n hn
  obtain rfl := Option.some_inj.mp ((read_alloc_self a.pbufs data).symm.trans hm)
  have href := (((Extends.refl a.pbufs).alloc data).trans hext).refs_new h.counted h'.counted
    (Nat.le_refl _)
  rw [refs_of_read hn, hcount] at href
  exact ⟨n, hn, hnext, href, hdata List.not_mem_nil⟩

/-- With memory for a copy it is only the queue that may lack an entry. -/
theorem Supply.hasMemory_iff {supply : Supply} {garbage : ℕ → UInt8}
    (hcopy : supply.copy = some garbage) :
    supply.HasMemory cfg ↔ (cfg.arpQueueing && !supply.queueEntry) = false := by
  rw [HasMemory, hcopy]
  cases cfg.arpQueueing <;> cases supply.queueEntry <;> simp

/-- A packet for a pending entry is copied, and the copy is put to the entry if there is
memory for both. -/
theorem Owned.queuePacket (hspace : cfg.subEthernetHeaderSpace ≤ 32767)
    (h : Owned a (q :: others)) (hchain : Chain a.pbufs (some q) cs)
    (hpacket : Packet (cs.map Prod.snd))
    (hhead : ∀ p ∈ (cs.map Prod.snd).head?,
      p.type ≠ .rom ∧ p.totLen + cfg.subEthernetHeaderSpace < 65536)
    (he : a.arpTable[i]? = some e) (hstable : e.state.isStable = false) (supply : Supply) :
    ∃ result a', queuePacket cfg a i q supply = some (result, a') ∧ Owned a' (q :: others) ∧
      Extends [] a.pbufs a'.pbufs ∧
      (¬ supply.HasMemory cfg → result = errMem ∧ a'.arpTable = a.arpTable) ∧
      (supply.HasMemory cfg → result = errOk ∧ ∃ n, a'.arpTable = a.arpTable.set i
          { e with q := (if cfg.arpQueueing then e.q else []) ++ [a.pbufs.length] } ∧
        read a'.pbufs a.pbufs.length = some n ∧
        CopyOf cfg.subEthernetHeaderSpace (cs.map Prod.snd) n) := by
  obtain ⟨n, hn, hhead'⟩ : ∃ n, read a.pbufs q = some n ∧
      (cs.map Prod.snd).head? = some n.data := by
    cases hchain with
    | cons hread _ => exact ⟨_, hread, rfl⟩
  obtain ⟨hrom, hroom⟩ := hhead n.data hhead'
  rw [Lwip.queuePacket]
  cases hcopy : supply.copy with
  | none =>
    rw [takeOver_none hchain hpacket.single hn hrom]
    refine ⟨errMem, _, rfl, h, .refl _, fun _ => ⟨rfl, rfl⟩, fun hmem => ?_⟩
    have hsome := hmem.1
    rw [hcopy] at hsome
    cases hsome
  | some garbage =>
    obtain ⟨data, htake, hdata⟩ := takeOver_packet hspace hchain hpacket hn hrom hroom garbage
    obtain ⟨result, a', henqueue, howned, hext, hkept, hresult⟩ := (h.alloc data).enqueue [] cfg
      he hstable supply.queueEntry
    rw [htake, Supply.hasMemory_iff hcopy]
    refine ⟨result, a', henqueue, howned, ((Extends.refl _).alloc data).trans hext,
      fun hmem => ?_, fun hmem => ?_⟩
    · rw [if_pos (by simpa using hmem)] at hresult
      exact hresult
    · rw [if_neg (by simp [hmem])] at hresult
      obtain ⟨hok, htable⟩ := hresult
      have hold : ∀ x ∈ (if cfg.arpQueueing then e.q else []), x ∈ e.q := by
        intro x hx
        split_ifs at hx
        · exact hx
        · cases hx
      obtain ⟨m, hm, hnext, href, hm'⟩ := h.alone he hold howned hext hkept htable
      exact ⟨hok, m, htable, hm, hdata m hnext href hm'⟩

/-- A packet for a pending entry waits there as a copy, or does not wait. -/
theorem Owned.waits (netif : Netif) {ipaddr : BitVec 32} {a₁ : Etharp}
    (hspace : cfg.subEthernetHeaderSpace ≤ 32767) (h : Owned a (q :: others))
    (hchain : Chain a.pbufs (some q) cs) (hpacket : Packet (cs.map Prod.snd))
    (hhead : ∀ p ∈ (cs.map Prod.snd).head?,
      p.type ≠ .rom ∧ p.totLen + cfg.subEthernetHeaderSpace < 65536)
    (hunicast : isNonUnicast ipaddr netif = false) (hfinds : FindsEntry a ipaddr i e a₁)
    (hstable : e.state.isStable = false) (supply : Supply) :
    ∃ result a', etharpQuery cfg netif a ipaddr (some q) supply = some (result, a') ∧
      Waits cfg a a₁ i e q cs others supply result a' := by
  obtain ⟨_, hfind, hfound⟩ := h.findEntry [] ipaddr etharpFlagTryHard
  obtain rfl := Option.some_inj.mp (hfind.symm.trans hfinds.1)
  obtain ⟨hlt, -⟩ := List.getElem?_eq_some_iff.mp hfinds.2
  have h₁ : Owned a₁ (q :: others) := hfound.owned
  -- the request goes out first, and does not change the table
  obtain ⟨_, a₂, hrequest, h₂, htable, hext₂⟩ := (h₁.markPending hfinds.2).request netif [] hspace
    (e.markPending.state = .pending ∨ some q = none) ipaddr supply.request
  have hext := hfound.ext.trans hext₂
  have hchain₂ := chain_of_extends (q := some q) h₂ hext hchain
  have hentry : a₂.arpTable[i]? = some e.markPending := by
    rw [htable]
    exact List.getElem?_set_self hlt
  have hstable' : e.markPending.state.isStable = false := by rwa [e.isStable_markPending]
  obtain ⟨result, a', hqueue, howned, hext', hfailed, hwaits⟩ := h₂.queuePacket hspace hchain₂
    hpacket hhead hentry hstable' supply
  refine ⟨result, a', ?_, howned, chain_of_extends (q := some q) howned hext' hchain₂,
    fun hmem => ?_, fun hmem => ?_⟩
  · rw [etharpQuery_of_found netif hunicast hfinds, Lwip.queryEntry, hrequest]
    simp only [hstable', Bool.false_eq_true, if_false]
    rw [if_pos (EtharpState.eq_pending e.markPending_state hstable')]
    exact hqueue
  · exact ⟨(hfailed hmem).1, (hfailed hmem).2.trans htable⟩
  · obtain ⟨hok, n, htable', hn, hcopy⟩ := hwaits hmem
    refine ⟨hok, a₂.pbufs.length, n, ?_, hext.length_le, hn, hcopy⟩
    rw [htable', htable, List.set_set, e.q_markPending]

end Waits

/-! ## The room for the headers -/

/-- Whoever has held a pbuf before a call does so afterwards, and a pbuf that the call has
allocated and that is left waits at an entry, or the driver holds it. -/
structure Handled (a a' : Etharp) (roots : List ℕ) : Prop where
  owned : Owned a' roots
  handed : ∀ p n, a.pbufs.length ≤ p → read a'.pbufs p = some n → p ∈ a'.queued ∨ p ∈ a'.kept

/-- What is owned afterwards, in a later store, has been handled. -/
theorem Owned.handled {changed : List ℕ} {a a' : Etharp} {roots : List ℕ} (h : Owned a roots)
    (h' : Owned a' roots) (hext : Extends changed a.pbufs a'.pbufs) : Handled a a' roots := by
  refine ⟨h', fun p n hp hn => ?_⟩
  have hmem := hext.mem_roots_of_new h.counted h'.counted hp hn
  rw [List.mem_append, List.mem_append] at hmem
  rcases hmem with hheld | hroot
  · exact hheld
  · -- the callers have held their pbufs before
    obtain ⟨m, hm⟩ := h.counted.read_root (List.mem_append_right _ hroot)
    have := lt_length_of_read hm
    omega

/-- The room for the headers of the radio in front of what `etharp.c` makes. A packet for a
pending entry is copied behind it byte for byte, or nothing waits. On every path of
`etharp_query` and `etharp_raw` the pbufs are in good hands: what waits or what the driver
holds is kept, and everything else that has been allocated is freed. -/
theorem etharp_headerSpace (cfg : Config) (netif : Netif)
    (hspace : cfg.subEthernetHeaderSpace ≤ 32767) :
    (∀ length garbage, length + cfg.subEthernetHeaderSpace ≤ 32767 →
      ((Pbuf.allocated (length + cfg.subEthernetHeaderSpace) garbage).header
        (s16 (-cfg.subEthernetHeaderSpace))).isSome) ∧
    (∀ a a₁ others q cs ipaddr i e supply, Owned a (q :: others) →
      Chain a.pbufs (some q) cs → Packet (cs.map Prod.snd) →
      (∀ p ∈ (cs.map Prod.snd).head?,
        p.type ≠ .rom ∧ p.totLen + cfg.subEthernetHeaderSpace ≤ 32767) →
      isNonUnicast ipaddr netif = false → FindsEntry a ipaddr i e a₁ →
      e.state.isStable = false →
      ∃ result a', etharpQuery cfg netif a ipaddr (some q) supply = some (result, a') ∧
        Waits cfg a a₁ i e q cs others supply result a') ∧
    (∀ a others q cs ipaddr supply, Owned a (q.toList ++ others) → Chain a.pbufs q cs →
      (∀ p ∈ cs.map Prod.snd, p.Within) → NotQueue (cs.map Prod.snd) →
      (∀ p ∈ cs.map Prod.snd, p.totLen + cfg.subEthernetHeaderSpace ≤ 32767) →
      (∀ i e a₁, FindsEntry a ipaddr i e a₁ → e.state.isStable →
        Sendable (cs.map Prod.snd)) →
      ∃ result a', etharpQuery cfg netif a ipaddr q supply = some (result, a') ∧
        Handled a a' (q.toList ++ others)) ∧
    (∀ a roots d opcode mem, Owned a roots →
      ∃ result a', etharpRaw cfg netif a d opcode mem = some (result, a') ∧
        Handled a a' roots ∧ a'.arpTable = a.arpTable) ∧
    (∀ garbage, ∃ p,
      (Pbuf.allocated (sizeofEtharpPacket + cfg.subEthernetHeaderSpace) garbage).header
        (s16 (-cfg.subEthernetHeaderSpace)) = some p ∧
      sizeofEtharpPacket ≤ p.len ∧ p.Within) := by
  refine ⟨fun length garbage h => ?_, ?_, ?_, ?_, fun garbage => ?_⟩
  · rw [header_allocated garbage hspace (by omega), Option.isSome_some]
  · intro a a₁ others q cs ipaddr i e supply h hchain hpacket hhead hunicast hfinds hstable
    refine h.waits netif hspace hchain hpacket (fun p hp => ?_) hunicast hfinds hstable supply
    exact ⟨(hhead p hp).1, by have := (hhead p hp).2; omega⟩
  · intro a others q cs ipaddr supply h hchain hwithin hsingle hroom hsend
    obtain ⟨result, a', hquery, howned, hext⟩ := h.query netif hspace hchain hwithin hsingle
      (fun p hp => by have := hroom p hp; omega) hsend supply
    exact ⟨result, a', hquery, h.handled howned hext⟩
  · intro a roots d opcode mem h
    obtain ⟨result, a', hraw, howned, htable, hext⟩ := h.etharpRaw [] netif hspace d opcode mem
    exact ⟨result, a', hraw, h.handled howned hext, htable⟩
  · have hsum : sizeofEtharpPacket + cfg.subEthernetHeaderSpace < 65536 := by
      rw [sizeofEtharpPacket]
      omega
    exact ⟨_, header_allocated garbage hspace hsum, Nat.le_refl _,
      Pbuf.within_shifted garbage hsum⟩

/-- A packet of two pbufs, for an address that nothing is known of. -/
theorem etharp_headerSpace_two :
    let cfg : Config := ⟨8, false⟩
    let netif : Netif :=
      ⟨0x0101a8c0, 0x00ffffff, 2, ethzero, fun _ _ => ⟨errOk, .allocated 0 fun _ => 0, 0⟩⟩
    let first : Pbuf := ⟨[7, 8], 0, 3, 2, .ram, 0⟩
    let second : Pbuf := ⟨[9], 0, 1, 1, .rom, 0⟩
    let a : Etharp := ⟨[some ⟨some 1, 1, first⟩, some ⟨none, 1, second⟩],
      [⟨[], 0, ethzero, .empty, 0⟩], 0, []⟩
    ∃ result a', etharpQuery cfg netif a 0x0201a8c0 (some 0) ⟨none, some fun _ => 0, true⟩ =
        some (result, a') ∧
      Waits cfg a (a.createEntry 0 0x0201a8c0) 0 ⟨[], 0x0201a8c0, ethzero, .empty, 0⟩ 0
        [(0, first), (1, second)] [] ⟨none, some fun _ => 0, true⟩ result a' := by
  intro cfg netif first second a
  refine (etharp_headerSpace cfg netif (by decide)).2.1 a _ [] 0 _ _ 0 _ _ ⟨⟨fun i => ?_, ?_⟩, ?_⟩
    (.cons (n := ⟨some 1, 1, first⟩) rfl (.cons (n := ⟨none, 1, second⟩) rfl .nil))
    ⟨by decide, by decide, by decide, by decide, trivial⟩ (by decide) (by decide) ⟨rfl, rfl⟩ rfl
  · rcases i with _ | _ | i
    · decide
    · decide
    · simp [a, refs, RefCount.read, Etharp.queued, links, PointsTo]
  · intro i n hn
    rcases i with _ | _ | i <;> cases hn <;> decide
  · decide

end WifiMcu.Lwip
