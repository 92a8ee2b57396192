import WifiMcu.Lwip.Pbuf

/-!
# Address resolution

`etharp.c` with the change for the headers of the radio: every packet that it makes has
`SUB_ETHERNET_HEADER_SPACE` bytes of room in front of the ethernet header. A packet for an
address that is not known yet waits at the entry for this address.
-/

namespace WifiMcu.Lwip

open RefCount

/-- What the build decides. `SUB_ETHERNET_HEADER_SPACE` comes from the headers of the
radio, and `ARP_QUEUEING` is whether more than one packet can wait at an entry. -/
structure Config where
  subEthernetHeaderSpace : ℕ
  arpQueueing : Bool

/-- `struct eth_addr`. -/
abbrev EthAddr := Vector UInt8 6

/-- `ethbroadcast`. -/
def ethbroadcast : EthAddr := .replicate 6 0xff

/-- `ethzero`. -/
def ethzero : EthAddr := .replicate 6 0

/-- What sending a pbuf has come to: the result, the pbuf as the driver leaves it, and how
many references to it the driver keeps. -/
structure Sent where
  result : ℤ
  pbuf : Pbuf
  references : ℕ

/-- The fields of a `struct netif` that are used here. An `ip_addr_t` is the number that the
bytes of the address are in memory. -/
structure Netif where
  ipAddr : BitVec 32
  netmask : BitVec 32
  flags : BitVec 8
  hwaddr : EthAddr
  linkoutput : Store Pbuf → ℕ → Sent

/-- `enum etharp_state`. -/
inductive EtharpState
  | empty | pending | stable | stableRerequesting
  deriving DecidableEq

/-- `state >= ETHARP_STATE_STABLE`. -/
def EtharpState.isStable : EtharpState → Bool
  | .empty | .pending => false
  | .stable | .stableRerequesting => true

/-- `struct etharp_entry`. Without `ARP_QUEUEING`, `q` has at most one packet. -/
structure EtharpEntry where
  q : List ℕ
  ipaddr : BitVec 32
  ethaddr : EthAddr
  state : EtharpState
  ctime : ℕ

/-- The pbufs, the static variables of `etharp.c`, and the references that the driver has
kept. -/
structure Etharp where
  pbufs : Store Pbuf
  arpTable : List EtharpEntry
  etharpCachedEntry : ℕ
  kept : List ℕ

/-! ## Addresses -/

/-- `NETIF_FLAG_BROADCAST`. -/
def netifFlagBroadcast : BitVec 8 := 0x02

/-- `ip4_addr_isbroadcast`. -/
def ip4AddrIsBroadcast (addr : BitVec 32) (netif : Netif) : Bool :=
  if ~~~addr = 0 ∨ addr = 0 then true
  else if netif.flags &&& netifFlagBroadcast = 0 then false
  else if addr = netif.ipAddr then false
  else if addr &&& netif.netmask = netif.ipAddr &&& netif.netmask ∧
      addr &&& ~~~netif.netmask = 0xffffffff &&& ~~~netif.netmask then true
  else false

/-- `ip_addr_ismulticast`: the first byte of the address is the lowest one of the number. -/
def ipAddrIsMulticast (addr : BitVec 32) : Bool := addr &&& 0x000000f0 = 0x000000e0

/-- `ip_addr_isany`. -/
def ipAddrIsAny (addr : BitVec 32) : Bool := addr = 0

/-- The bytes of an `ip_addr_t`. -/
def ipBytes (addr : BitVec 32) : List UInt8 :=
  (List.range 4).map fun k => UInt8.ofNat (addr.toNat / 256 ^ k)

/-- The bytes of an `u16_t` after `htons`. -/
def htonsBytes (n : ℕ) : List UInt8 := [UInt8.ofNat (n / 256), UInt8.ofNat n]

/-! ## The table -/

/-- `free_etharp_q`: all packets of an entry. -/
def freeEtharpQ : Store Pbuf → List ℕ → Option (Store Pbuf)
  | s, [] => some s
  | s, p :: ps => (pbufFree s (some p)).bind fun s => freeEtharpQ s ps

/-- `etharp_free_entry`. -/
def etharpFreeEntry (a : Etharp) (i : ℕ) : Option Etharp :=
  match a.arpTable[i]? with
  | none => none
  | some e => (freeEtharpQ a.pbufs e.q).map fun s =>
    { a with pbufs := s, arpTable := a.arpTable.set i { e with q := [], state := .empty } }

/-- `ETHARP_FLAG_TRY_HARD`. -/
def etharpFlagTryHard : BitVec 8 := 1

/-- `ETHARP_FLAG_FIND_ONLY`. -/
def etharpFlagFindOnly : BitVec 8 := 2

/-- The entries that `etharp_find_entry` remembers, and the ages of three of them. -/
structure Candidates where
  empty : Option ℕ
  oldStable : Option ℕ
  oldPending : Option ℕ
  oldQueue : Option ℕ
  ageStable : ℕ
  agePending : ℕ
  ageQueue : ℕ

/-- Before the first entry has been looked at. -/
def Candidates.init : Candidates := ⟨none, none, none, none, 0, 0, 0⟩

/-- An empty entry is remembered if it is the first one, and another one if none of its kind
is older. -/
def Candidates.see (c : Candidates) (i : ℕ) (e : EtharpEntry) : Candidates :=
  match e.state with
  | .empty => if c.empty = none then { c with empty := some i } else c
  | .pending =>
    if e.q ≠ [] then
      if c.ageQueue ≤ e.ctime then { c with oldQueue := some i, ageQueue := e.ctime } else c
    else if c.agePending ≤ e.ctime then { c with oldPending := some i, agePending := e.ctime }
    else c
  | .stable | .stableRerequesting =>
    if c.ageStable ≤ e.ctime then { c with oldStable := some i, ageStable := e.ctime } else c

/-- The loop of `etharp_find_entry`: the entry for the address, or else the candidates. -/
def sweep (ipaddr : BitVec 32) : List EtharpEntry → ℕ → Candidates → ℕ ⊕ Candidates
  | [], _, c => .inr c
  | e :: es, i, c =>
    if e.state ≠ .empty ∧ ipaddr = e.ipaddr then .inl i else sweep ipaddr es (i + 1) (c.see i e)

/-- The new entry for an address. -/
def Etharp.createEntry (a : Etharp) (i : ℕ) (ipaddr : BitVec 32) : Etharp :=
  { a with arpTable := a.arpTable.modify i fun e => { e with ipaddr := ipaddr, ctime := 0 } }

/-- Free an entry, and create it again for another address. -/
def Etharp.recycle (a : Etharp) (i : ℕ) (ipaddr : BitVec 32) : Option (Except ℤ ℕ × Etharp) :=
  (etharpFreeEntry a i).map fun a => (.ok i, a.createEntry i ipaddr)

/-- `etharp_find_entry`. It asserts that no packets wait at a stable entry. -/
def etharpFindEntry (a : Etharp) (ipaddr : BitVec 32) (flags : BitVec 8) :
    Option (Except ℤ ℕ × Etharp) :=
  match sweep ipaddr a.arpTable 0 .init with
  | .inl i => some (.ok i, a)
  | .inr c =>
    if flags &&& etharpFlagFindOnly ≠ 0 ∨ c.empty = none ∧ flags &&& etharpFlagTryHard = 0 then
      some (.error errMem, a)
    else
      match c.empty, c.oldStable, c.oldPending, c.oldQueue with
      | some i, _, _, _ => some (.ok i, a.createEntry i ipaddr)
      | none, some i, _, _ =>
        if (a.arpTable[i]?.map EtharpEntry.q).getD [] ≠ [] then none else a.recycle i ipaddr
      | none, none, some i, _ => a.recycle i ipaddr
      | none, none, none, some i => a.recycle i ipaddr
      | none, none, none, none => some (.error errMem, a)

/-! ## Sending -/

/-- `netif->linkoutput`. -/
def Etharp.linkoutput (netif : Netif) (a : Etharp) (p : ℕ) : Option (ℤ × Etharp) :=
  match read a.pbufs p with
  | none => none
  | some _ =>
    let sent := netif.linkoutput a.pbufs p
    some (sent.result, { a with
      pbufs := retain (setData a.pbufs p sent.pbuf) p sent.references
      kept := List.replicate sent.references p ++ a.kept })

/-- Write to the payload of a pbuf. -/
def Etharp.put (a : Etharp) (p : ℕ) (bytes : List UInt8) : Option Etharp :=
  (read a.pbufs p).bind fun n => (n.data.put 0 bytes).map fun data =>
    { a with pbufs := setData a.pbufs p data }

/-- A `struct eth_hdr`, with `ETH_PAD_SIZE` as 0. -/
def ethHdr (dest src : EthAddr) (type : ℕ) : List UInt8 :=
  dest.toList ++ src.toList ++ htonsBytes type

/-- `ETHTYPE_ARP`. -/
def ethtypeArp : ℕ := 0x0806

/-- `ETHTYPE_IP`. -/
def ethtypeIp : ℕ := 0x0800

/-- `etharp_send_ip`. -/
def etharpSendIp (netif : Netif) (a : Etharp) (p : ℕ) (src dst : EthAddr) :
    Option (ℤ × Etharp) :=
  (a.put p (ethHdr dst src ethtypeIp)).bind fun a => a.linkoutput netif p

/-- `HWTYPE_ETHERNET`. -/
def hwtypeEthernet : ℕ := 1

/-- `ARP_REQUEST`. -/
def arpRequest : ℕ := 1

/-- `SIZEOF_ETHARP_PACKET`. -/
def sizeofEtharpPacket : ℕ := 14 + 28

/-- The addresses of an ARP packet: those of the ethernet header, and those of the ARP header. -/
structure Addresses where
  ethsrc : EthAddr
  ethdst : EthAddr
  hwsrc : EthAddr
  ipsrc : BitVec 32
  hwdst : EthAddr
  ipdst : BitVec 32

/-- A `struct eth_hdr` and the `struct etharp_hdr` behind it. -/
def etharpPacket (d : Addresses) (opcode : ℕ) : List UInt8 :=
  ethHdr d.ethdst d.ethsrc ethtypeArp ++ htonsBytes hwtypeEthernet ++ htonsBytes ethtypeIp ++
    [6, 4] ++ htonsBytes opcode ++ d.hwsrc.toList ++ ipBytes d.ipsrc ++ d.hwdst.toList ++
    ipBytes d.ipdst

/-- `pbuf_header`: what it returns, and the pbufs afterwards. -/
def pbufHeader (s : Store Pbuf) (p : ℕ) (increment : ℤ) : Option (ℕ × Store Pbuf) :=
  (read s p).map fun n =>
    match n.data.header increment with
    | none => (1, s)
    | some data => (0, setData s p data)

/-- The length of the payload of a pbuf. -/
def pbufLen (s : Store Pbuf) (p : ℕ) : ℕ := ((read s p).map fun n => n.data.len).getD 0

/-- `etharp_raw`. It asserts that the packet fits, and leaves the pbuf where it is if there is
no room for the headers. -/
def etharpRaw (cfg : Config) (netif : Netif) (a : Etharp) (d : Addresses) (opcode : ℕ)
    (mem : Option (ℕ → UInt8)) : Option (ℤ × Etharp) :=
  match pbufAlloc a.pbufs (sizeofEtharpPacket + cfg.subEthernetHeaderSpace) mem with
  | (_, none) => some (errMem, a)
  | (s, some p) =>
    match pbufHeader s p (s16 (-cfg.subEthernetHeaderSpace)) with
    | none => none
    | some (failed, s) =>
      if failed ≠ 0 then some (errMem, { a with pbufs := s })
      else if pbufLen s p < sizeofEtharpPacket then none
      else do
        let a ← Etharp.put { a with pbufs := s } p (etharpPacket d opcode)
        let (result, a) ← a.linkoutput netif p
        let s ← pbufFree a.pbufs (some p)
        return (result, { a with pbufs := s })

/-- `etharp_request`. -/
def etharpRequest (cfg : Config) (netif : Netif) (a : Etharp) (ipaddr : BitVec 32)
    (mem : Option (ℕ → UInt8)) : Option (ℤ × Etharp) :=
  etharpRaw cfg netif a
    ⟨netif.hwaddr, ethbroadcast, netif.hwaddr, netif.ipAddr, ethzero, ipaddr⟩ arpRequest mem

/-! ## Queueing -/

/-- The loop of `etharp_query` that looks for a pbuf that has to be copied. It asserts that
there is only one packet. -/
def firstToCopy : ℕ → Store Pbuf → Option ℕ → Option (Option ℕ)
  | _, _, none => some none
  | 0, _, some _ => none
  | fuel + 1, s, some p =>
    match read s p with
    | none => none
    | some n =>
      if isQueue s (some p) then none
      else if n.data.type ≠ .rom then some (some p)
      else firstToCopy fuel s n.next

/-- The part of `etharp_query` that makes the packet that is going to wait: a copy with room for
the headers, or the packet itself. -/
def takeOver (cfg : Config) (s : Store Pbuf) (q : ℕ) (mem : Option (ℕ → UInt8)) :
    Option (Option ℕ × Store Pbuf) := do
  match ← firstToCopy s.length s (some q) with
  | none => return (some q, pbufRef s q)
  | some first =>
    let n ← read s first
    match pbufAlloc s (n.data.totLen + cfg.subEthernetHeaderSpace) mem with
    | (s, none) => return (none, s)
    | (s, some p) =>
      let (failed, s) ← pbufHeader s p (s16 (-cfg.subEthernetHeaderSpace))
      let (p, s) ←
        if failed ≠ 0 then (pbufFree s (some p)).map fun s => (none, s) else some (some p, s)
      let (result, s) ← pbufCopy s p (some q)
      if result ≠ errOk then (pbufFree s p).map fun s => (none, s) else return (p, s)

/-- The part of `etharp_query` that puts a packet to an entry. Without `ARP_QUEUEING` it takes
the place of the packet before. -/
def enqueue (cfg : Config) (a : Etharp) (i p : ℕ) (queueEntry : Bool) : Option (ℤ × Etharp) :=
  match a.arpTable[i]? with
  | none => none
  | some e =>
    if cfg.arpQueueing then
      if queueEntry then
        some (errOk, { a with arpTable := a.arpTable.set i { e with q := e.q ++ [p] } })
      else (pbufFree a.pbufs (some p)).map fun s => (errMem, { a with pbufs := s })
    else (freeEtharpQ a.pbufs e.q).map fun s =>
      (errOk, { a with pbufs := s, arpTable := a.arpTable.set i { e with q := [p] } })

/-- What the allocators give to a call of `etharp_query`: the memory for the request and for
the copy, and whether `memp_malloc` has an entry for the queue. -/
structure Supply where
  request : Option (ℕ → UInt8)
  copy : Option (ℕ → UInt8)
  queueEntry : Bool

/-- The part of `etharp_query` for a pending entry. -/
def queuePacket (cfg : Config) (a : Etharp) (i q : ℕ) (supply : Supply) :
    Option (ℤ × Etharp) :=
  match takeOver cfg a.pbufs q supply.copy with
  | none => none
  | some (none, s) => some (errMem, { a with pbufs := s })
  | some (some p, s) => enqueue cfg { a with pbufs := s } i p supply.queueEntry

/-- A fresh entry becomes a pending one. -/
def EtharpEntry.markPending (e : EtharpEntry) : EtharpEntry :=
  if e.state = .empty then { e with state := .pending } else e

/-- The part of `etharp_query` that works on an entry. -/
def queryEntry (cfg : Config) (netif : Netif) (a : Etharp) (ipaddr : BitVec 32) (i : ℕ)
    (e : EtharpEntry) (q : Option ℕ) (supply : Supply) : Option (ℤ × Etharp) :=
  match
    if e.state = .pending ∨ q = none then etharpRequest cfg netif a ipaddr supply.request
    else some (errMem, a) with
  | none => none
  | some (result, a) =>
    match q with
    | none => some (result, a)
    | some q =>
      if e.state.isStable then
        etharpSendIp netif { a with etharpCachedEntry := i } q netif.hwaddr e.ethaddr
      else if e.state = .pending then queuePacket cfg a i q supply
      else some (result, a)

/-- The addresses that `etharp_query` refuses. -/
def isNonUnicast (ipaddr : BitVec 32) (netif : Netif) : Bool :=
  ip4AddrIsBroadcast ipaddr netif || ipAddrIsMulticast ipaddr || ipAddrIsAny ipaddr

/-- `etharp_query`. -/
def etharpQuery (cfg : Config) (netif : Netif) (a : Etharp) (ipaddr : BitVec 32)
    (q : Option ℕ) (supply : Supply) : Option (ℤ × Etharp) :=
  if isNonUnicast ipaddr netif then some (errArg, a)
  else
    match etharpFindEntry a ipaddr etharpFlagTryHard with
    | none => none
    | some (.error e, a) => some (e, a)
    | some (.ok i, a) =>
      match a.arpTable[i]? with
      | none => none
      | some e =>
        let e := e.markPending
        queryEntry cfg netif { a with arpTable := a.arpTable.set i e } ipaddr i e q supply

end WifiMcu.Lwip
