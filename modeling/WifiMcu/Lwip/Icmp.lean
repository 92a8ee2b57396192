import WifiMcu.Lwip.Room

/-!
# Echo requests

`icmp_input` makes the reply to an echo request of the request itself: it exchanges the
addresses, changes the type, and corrects the checksum by the difference. A request without
room in front of it for the headers of the lower layers is copied before that.
-/

namespace WifiMcu.Lwip

open OnesComplement WifiMcu.System

/-- `ICMP_TTL`. -/
def icmpTtl : UInt8 := 255

/-- `IPH_HL(iphdr) * 4`. -/
def headerLength (packet : List UInt8) : ℕ := (packet.headD 0 &&& 0x0f).toNat * 4

/-- The checksum of an echo request, corrected for the type of the reply. -/
def adjustChksum (chksum : BitVec 16) : BitVec 16 :=
  if chksum ≥ htons (0xffff - 0x0800) then chksum + (htons 0x0800 + 1) else chksum + htons 0x0800

/-- What `icmp_input` writes to a request of which the first part lies in one pbuf, between
the checks and sending. There is no result where it would write behind the pbuf. -/
def makeReply (hlen : ℕ) (first : List UInt8) : Option (List UInt8) := do
  let src := (first.drop 12).take 4
  let dest := (first.drop 16).take 4
  let reply ← overwrite first 12 dest
  let reply ← overwrite reply 16 src
  let reply ← overwrite reply hlen [icmpEr]
  let chksum := fieldAt (fun i => reply.getD i 0) (hlen + 2)
  let reply ← overwrite reply (hlen + 2) (fieldBytes (adjustChksum chksum))
  let reply ← overwrite reply 8 [icmpTtl]
  let reply ← overwrite reply 10 (fieldBytes 0)
  overwrite reply 10 (fieldBytes (inetChksum 0 (reply.take ipHlen)))

/-- What `icmp_input` does about a packet. -/
inductive IcmpOutcome
  | ignored | lenerr | chkerr | memerr
  | replied (packet : List UInt8)
  deriving DecidableEq

/-- The end of `icmp_input` for an echo request: the reply is made in these pbufs and sent. -/
def sendReply (hlen : ℕ) (p : Pbuf) (chain : List Pbuf) : Option IcmpOutcome := do
  let p ← p.header hlen
  let reply ← makeReply hlen p.content
  return .replied (reply ++ contents chain)

/-- `icmp_input`. `front` is what is in front of the first payload in its block, and `type` is
the type of the first pbuf. The destination of a broadcast or multicast is not `accepted`, and
`mem` is the memory for a copy of the request. There is no result where an assertion fails. -/
def icmpInput (linkHlen : ℕ) (accepted : Bool) (mem : Option (ℕ → UInt8)) (front : List UInt8)
    (type : PbufType) : List Segment → Option IcmpOutcome
  | [] => none
  | q :: chain =>
    let hlen := headerLength q.bytes
    ((q.pbuf front type (content (q :: chain)).length).header (-hlen)).elim (some .lenerr) fun p =>
      if p.totLen < 4 then some .lenerr
      else p.content.head?.bind fun type =>
        if type ≠ icmpEcho ∨ accepted = false then some .ignored
        else if p.totLen < icmpEchoHdrSize then some .lenerr
        else if inetChksumPbuf (q.behind hlen :: chain) ≠ 0 then some .chkerr
        else (replyPbufs linkHlen hlen mem p (pbufsBehind chain)).bind fun room =>
          room.elim (some .memerr) fun (p, chain) => sendReply hlen p chain

/-- The parts of an echo packet: the IP header up to the time to live, its checksum and
addresses and options, and the ICMP header and data. -/
structure Echo where
  front : List UInt8
  ttl : UInt8
  proto : UInt8
  ipChksum : BitVec 16
  src : BitVec 32
  dest : BitVec 32
  options : List UInt8
  type : UInt8
  code : UInt8
  chksum : BitVec 16
  rest : List UInt8
  length_front : front.length = 8
  headerLength_front : headerLength front = ipHlen + options.length
  length_rest : 4 ≤ rest.length

/-- The header up to the checksum, and from there to the options. -/
def Echo.beforeIpChksum (e : Echo) : List UInt8 := e.front ++ [e.ttl, e.proto]

@[inherit_doc Echo.beforeIpChksum] def Echo.afterIpChksum (e : Echo) : List UInt8 :=
  ipBytes e.src ++ ipBytes e.dest ++ e.options

/-- The IP header of the packet. -/
def Echo.ipHeader (e : Echo) : List UInt8 :=
  e.beforeIpChksum ++ fieldBytes e.ipChksum ++ e.afterIpChksum

/-- The ICMP header and the data. -/
def Echo.icmp (e : Echo) : List UInt8 := [e.type, e.code] ++ fieldBytes e.chksum ++ e.rest

/-- The bytes of the packet. -/
def Echo.bytes (e : Echo) : List UInt8 := e.ipHeader ++ e.icmp

/-- The reply to a request. -/
def Echo.reply (e : Echo) : Echo :=
  { e with
    ttl := icmpTtl
    ipChksum := inetChksum 0
      (e.front ++ [icmpTtl, e.proto] ++ fieldBytes 0 ++ ipBytes e.dest ++ ipBytes e.src)
    src := e.dest
    dest := e.src
    type := icmpEr
    chksum := adjustChksum e.chksum }

/-- Bytes in the middle are replaced by as many other ones. -/
theorem overwrite_middle {before bytes bytes' after : List UInt8} {start : ℕ}
    (hstart : before.length = start) (hlength : bytes'.length = bytes.length) :
    overwrite (before ++ bytes ++ after) start bytes' = some (before ++ bytes' ++ after) := by
  have hle : start + bytes'.length ≤ (before ++ bytes ++ after).length := by
    rw [List.length_append, List.length_append, hlength, hstart]
    omega
  rw [overwrite_eq hle, List.append_assoc before bytes, ← hstart, List.take_left, hlength,
    List.drop_append, List.drop_eq_nil_of_le (by omega), List.nil_append, Nat.add_sub_cancel_left,
    List.drop_left]

/-- An address has four bytes. -/
theorem length_ipBytes (addr : BitVec 32) : (ipBytes addr).length = 4 := rfl

section

variable (e : Echo)

/-- The checksum is at offset 10 of the IP header. -/
theorem Echo.length_beforeIpChksum : e.beforeIpChksum.length = 10 := by
  rw [Echo.beforeIpChksum, List.length_append, e.length_front]
  rfl

/-- The IP header is as long as its options make it. -/
theorem Echo.length_ipHeader : e.ipHeader.length = ipHlen + e.options.length := by
  rw [Echo.ipHeader, Echo.afterIpChksum, List.length_append, List.length_append,
    List.length_append, List.length_append, e.length_beforeIpChksum, length_fieldBytes,
    length_ipBytes, length_ipBytes, ipHlen]
  omega

/-! The fields of a packet are written one by one. -/

/-- The packet with another source address. -/
def Echo.setSrc (addr : BitVec 32) : Echo := { e with src := addr }

/-- The packet with another destination address. -/
def Echo.setDest (addr : BitVec 32) : Echo := { e with dest := addr }

/-- The packet with another ICMP type. -/
def Echo.setType (type : UInt8) : Echo := { e with type }

/-- The packet with another ICMP checksum. -/
def Echo.setChksum (chksum : BitVec 16) : Echo := { e with chksum }

/-- The packet with another time to live. -/
def Echo.setTtl (ttl : UInt8) : Echo := { e with ttl }

/-- The packet with another checksum of the IP header. -/
def Echo.setIpChksum (chksum : BitVec 16) : Echo := { e with ipChksum := chksum }

/-- The source address is written at offset 12. -/
theorem Echo.overwrite_src (addr : BitVec 32) :
    overwrite e.bytes 12 (ipBytes addr) = some (e.setSrc addr).bytes := by
  have hbytes (e : Echo) : e.bytes = e.beforeIpChksum ++ fieldBytes e.ipChksum ++ ipBytes e.src ++
      (ipBytes e.dest ++ e.options ++ e.icmp) := by
    simp only [Echo.bytes, Echo.ipHeader, Echo.afterIpChksum, List.append_assoc]
  rw [hbytes, hbytes]
  refine overwrite_middle ?_ ((length_ipBytes addr).trans (length_ipBytes e.src).symm)
  rw [List.length_append, e.length_beforeIpChksum, length_fieldBytes]

/-- The destination address is written at offset 16. -/
theorem Echo.overwrite_dest (addr : BitVec 32) :
    overwrite e.bytes 16 (ipBytes addr) = some (e.setDest addr).bytes := by
  have hbytes (e : Echo) : e.bytes = e.beforeIpChksum ++ fieldBytes e.ipChksum ++ ipBytes e.src ++
      ipBytes e.dest ++ (e.options ++ e.icmp) := by
    simp only [Echo.bytes, Echo.ipHeader, Echo.afterIpChksum, List.append_assoc]
  rw [hbytes, hbytes]
  refine overwrite_middle ?_ ((length_ipBytes addr).trans (length_ipBytes e.dest).symm)
  rw [List.length_append, List.length_append, e.length_beforeIpChksum, length_fieldBytes,
    length_ipBytes]

/-- The ICMP type is written behind the IP header. -/
theorem Echo.overwrite_type (type : UInt8) {hlen : ℕ} (h : ipHlen + e.options.length = hlen) :
    overwrite e.bytes hlen [type] = some (e.setType type).bytes := by
  have hbytes (e : Echo) : e.bytes = e.ipHeader ++ [e.type] ++
      ([e.code] ++ fieldBytes e.chksum ++ e.rest) := by
    rw [Echo.bytes, Echo.icmp]
    simp only [List.append_assoc, List.cons_append, List.nil_append]
  have hlength : [type].length = [e.type].length := rfl
  rw [hbytes, hbytes]
  exact overwrite_middle (e.length_ipHeader.trans h) hlength

/-- The ICMP checksum is written at offset 2 of the ICMP header. -/
theorem Echo.overwrite_chksum (chksum : BitVec 16) {hlen : ℕ}
    (h : ipHlen + e.options.length = hlen) :
    overwrite e.bytes (hlen + 2) (fieldBytes chksum) = some (e.setChksum chksum).bytes := by
  have hbytes (e : Echo) : e.bytes = e.ipHeader ++ [e.type, e.code] ++ fieldBytes e.chksum ++
      e.rest := by
    simp only [Echo.bytes, Echo.icmp, List.append_assoc]
  have hlength : (fieldBytes chksum).length = (fieldBytes e.chksum).length := rfl
  rw [hbytes, hbytes]
  refine overwrite_middle ?_ hlength
  rw [List.length_append, e.length_ipHeader, h]
  rfl

/-- The time to live is written at offset 8. -/
theorem Echo.overwrite_ttl (ttl : UInt8) :
    overwrite e.bytes 8 [ttl] = some (e.setTtl ttl).bytes := by
  have hbytes (e : Echo) : e.bytes = e.front ++ [e.ttl] ++
      ([e.proto] ++ fieldBytes e.ipChksum ++ e.afterIpChksum ++ e.icmp) := by
    simp only [Echo.bytes, Echo.ipHeader, Echo.beforeIpChksum, List.append_assoc]
    rfl
  have hlength : [ttl].length = [e.ttl].length := rfl
  rw [hbytes, hbytes]
  exact overwrite_middle e.length_front hlength

/-- The checksum of the IP header is written at offset 10. -/
theorem Echo.overwrite_ipChksum (chksum : BitVec 16) :
    overwrite e.bytes 10 (fieldBytes chksum) = some (e.setIpChksum chksum).bytes := by
  have hbytes (e : Echo) : e.bytes = e.beforeIpChksum ++ fieldBytes e.ipChksum ++
      (e.afterIpChksum ++ e.icmp) := by
    simp only [Echo.bytes, Echo.ipHeader, List.append_assoc]
  have hlength : (fieldBytes chksum).length = (fieldBytes e.ipChksum).length := rfl
  rw [hbytes, hbytes]
  exact overwrite_middle e.length_beforeIpChksum hlength

/-! They are read where they have been written. -/

/-- Bytes in the middle are read. -/
theorem take_drop_middle {before bytes after : List UInt8} {start n : ℕ}
    (hstart : before.length = start) (hlength : bytes.length = n) :
    ((before ++ bytes ++ after).drop start).take n = bytes := by
  rw [← hstart, List.append_assoc, List.drop_left, ← hlength, List.take_left]

/-- The source address is read at offset 12. -/
theorem Echo.read_src : (e.bytes.drop 12).take 4 = ipBytes e.src := by
  have hbytes : e.bytes = e.beforeIpChksum ++ fieldBytes e.ipChksum ++ ipBytes e.src ++
      (ipBytes e.dest ++ e.options ++ e.icmp) := by
    simp only [Echo.bytes, Echo.ipHeader, Echo.afterIpChksum, List.append_assoc]
  rw [hbytes]
  apply take_drop_middle _ (length_ipBytes _)
  rw [List.length_append, e.length_beforeIpChksum, length_fieldBytes]

/-- The destination address is read at offset 16. -/
theorem Echo.read_dest : (e.bytes.drop 16).take 4 = ipBytes e.dest := by
  have hbytes : e.bytes = e.beforeIpChksum ++ fieldBytes e.ipChksum ++ ipBytes e.src ++
      ipBytes e.dest ++ (e.options ++ e.icmp) := by
    simp only [Echo.bytes, Echo.ipHeader, Echo.afterIpChksum, List.append_assoc]
  rw [hbytes]
  apply take_drop_middle _ (length_ipBytes _)
  rw [List.length_append, List.length_append, e.length_beforeIpChksum, length_fieldBytes,
    length_ipBytes]

/-- A field in the middle is read. -/
theorem fieldAt_middle {before after : List UInt8} (x : BitVec 16) {start : ℕ}
    (hstart : before.length = start) :
    fieldAt (fun i => (before ++ fieldBytes x ++ after).getD i 0) start = x := by
  have hbytes := fieldBytes_fieldAt (fun i => (before ++ fieldBytes x ++ after).getD i 0) start
  have hpair : [(before ++ fieldBytes x ++ after).getD start 0,
      (before ++ fieldBytes x ++ after).getD (start + 1) 0] = fieldBytes x := by
    rw [← hstart, fieldBytes]
    simp
  have hvalue := congrArg value (hbytes.trans hpair)
  rw [value_fieldBytes, value_fieldBytes] at hvalue
  exact BitVec.eq_of_toNat_eq hvalue

/-- The ICMP checksum is read at offset 2 of the ICMP header. -/
theorem Echo.read_chksum {hlen : ℕ} (h : ipHlen + e.options.length = hlen) :
    fieldAt (fun i => e.bytes.getD i 0) (hlen + 2) = e.chksum := by
  have hbytes : e.bytes = e.ipHeader ++ [e.type, e.code] ++ fieldBytes e.chksum ++ e.rest := by
    simp only [Echo.bytes, Echo.icmp, List.append_assoc]
  rw [hbytes]
  apply fieldAt_middle
  rw [List.length_append, e.length_ipHeader, h]
  rfl

/-- The IP header without options, which the checksum is made for. -/
theorem Echo.take_ipHlen :
    e.bytes.take ipHlen =
      e.front ++ [e.ttl, e.proto] ++ fieldBytes e.ipChksum ++ ipBytes e.src ++ ipBytes e.dest := by
  have hbytes : e.bytes = (e.front ++ [e.ttl, e.proto] ++ fieldBytes e.ipChksum ++ ipBytes e.src ++
      ipBytes e.dest) ++ (e.options ++ e.icmp) := by
    simp only [Echo.bytes, Echo.ipHeader, Echo.beforeIpChksum, Echo.afterIpChksum,
      List.append_assoc]
  have hlength : (e.front ++ [e.ttl, e.proto] ++ fieldBytes e.ipChksum ++ ipBytes e.src ++
      ipBytes e.dest).length = ipHlen := by
    simp only [List.length_append, e.length_front, length_fieldBytes, length_ipBytes]
    rfl
  rw [hbytes, ← hlength, List.take_left]

/-- What is written to an echo request makes the reply of it. -/
theorem makeReply_bytes : makeReply (ipHlen + e.options.length) e.bytes = some e.reply.bytes := by
  let e₂ := (e.setSrc e.dest).setDest e.src
  have htype : ipHlen + e₂.options.length = ipHlen + e.options.length := rfl
  have hchksum : ipHlen + (e₂.setType icmpEr).options.length = ipHlen + e.options.length := rfl
  rw [makeReply, e.read_src, e.read_dest, e.overwrite_src, Option.bind_eq_bind, Option.bind_some,
    Echo.overwrite_dest, Option.bind_some, Echo.overwrite_type _ _ htype, Option.bind_some,
    Echo.read_chksum _ hchksum]
  dsimp only
  rw [Echo.overwrite_chksum _ _ hchksum, Option.bind_some, Echo.overwrite_ttl, Option.bind_some,
    Echo.overwrite_ipChksum, Option.bind_some, Echo.take_ipHlen, Echo.overwrite_ipChksum]
  rfl

/-! ## The checksums of the reply -/

/-- The correction is the difference between the types. -/
theorem adjustChksum_modEq (c : BitVec 16) :
    (adjustChksum c).toNat ≡ c.toNat + 8 [MOD 65535] := by
  have hlt := c.isLt
  have hlimit : (htons (0xffff - 0x0800)).toNat = 65527 := by decide
  have hcarry : (htons 0x0800 + 1).toNat = 9 := by decide
  have hadd : (htons 0x0800).toNat = 8 := by decide
  rw [adjustChksum]
  by_cases h : c ≥ htons (0xffff - 0x0800)
  · rw [if_pos h, BitVec.toNat_add, hcarry]
    rw [ge_iff_le, BitVec.le_def, hlimit] at h
    rw [Nat.ModEq]
    omega
  · rw [if_neg h, BitVec.toNat_add, hadd, Nat.mod_eq_of_lt]
    rw [ge_iff_le, BitVec.le_def, hlimit] at h
    omega

/-- The words of the ICMP part. -/
theorem Echo.same_value_icmp :
    Same 65535 (value e.icmp)
      (e.type.toNat + 256 * e.code.toNat + e.chksum.toNat + value e.rest) := by
  have hfield : Even (fieldBytes e.chksum).length := even_two
  have hrest := same_value_append hfield e.rest
  rw [value_fieldBytes] at hrest
  rw [Echo.icmp, List.append_assoc, Nat.add_assoc _ e.chksum.toNat]
  exact (same_value_cons_cons e.type e.code _).trans ((Same.refl _).add hrest)

/-- The sum of the reply is a zero like the one of the request, and it is nothing but zeros if
there is nothing else in the request than the type and the checksum. -/
theorem Echo.reply_icmp_iff (htype : e.type = icmpEcho)
    (hvalid : 65535 ∣ value e.icmp ∧ value e.icmp ≠ 0) :
    65535 ∣ value e.reply.icmp ∧ value e.reply.icmp ≠ 0 ↔ e.code ≠ 0 ∨ ∃ b ∈ e.rest, b ≠ 0 := by
  have hsum := e.same_value_icmp.dvd_iff.mp hvalid
  have hreply := e.reply.same_value_icmp
  have hadjust := adjustChksum_modEq e.chksum
  have htypes : e.type.toNat = 8 ∧ e.reply.type.toNat = 0 := by
    rw [htype]
    exact ⟨rfl, rfl⟩
  have hcode : e.code.toNat = 0 ↔ e.code = 0 := UInt8.toNat_inj (b := 0)
  have hrest : value e.rest = 0 ↔ ¬ ∃ b ∈ e.rest, b ≠ 0 := by
    rw [value_eq_zero_iff]
    push Not
    exact Iff.rfl
  have hchksum : e.reply.chksum = adjustChksum e.chksum := rfl
  have hsame : e.reply.code = e.code ∧ e.reply.rest = e.rest := ⟨rfl, rfl⟩
  rw [htypes.1] at hsum
  rw [htypes.2, hsame.1, hsame.2, hchksum] at hreply
  rw [hreply.dvd_iff]
  have hlt := e.chksum.isLt
  rw [Nat.ModEq] at hadjust
  constructor
  · rintro ⟨-, hne⟩
    by_contra hnone
    obtain ⟨hcodeZero, hrestZero⟩ := not_or.mp hnone
    have hcodeZero := hcode.mpr (not_not.mp hcodeZero)
    have hrestZero := hrest.mpr hrestZero
    have hlast : e.chksum = 0xfff7 := BitVec.eq_of_toNat_eq (by
      have hnat : (0xfff7 : BitVec 16).toNat = 65527 := rfl
      omega)
    have hzero : (adjustChksum e.chksum).toNat = 0 := by
      rw [hlast]
      decide
    omega
  · intro hsome
    refine ⟨by omega, fun hzero => ?_⟩
    rcases hsome with hne | hne
    · exact hne (hcode.mp (by omega))
    · exact hrest.mp (by omega) hne

/-- The sum of the IP header of the reply is the one of its options, since the checksum is made
for the rest of it. -/
theorem Echo.reply_ipHeader_iff :
    65535 ∣ value e.reply.ipHeader ∧ value e.reply.ipHeader ≠ 0 ↔ 65535 ∣ value e.options := by
  let before := e.front ++ [icmpTtl, e.proto]
  let addresses := ipBytes e.dest ++ ipBytes e.src
  let zeroed := before ++ fieldBytes 0 ++ addresses
  have hbefore : Even before.length := by
    rw [List.length_append, e.length_front]
    exact even_two_mul 5
  have haddresses : Even addresses.length := even_two_mul 4
  have hshort : zeroed.length < 65536 := by
    simp only [zeroed, before, addresses, List.length_append, e.length_front, length_fieldBytes,
      length_ipBytes, List.length_cons, List.length_nil]
    decide
  have hchksum : e.reply.ipChksum = inetChksum 0 zeroed := by
    rw [Echo.reply]
    simp only [zeroed, before, addresses, List.append_assoc]
  have hzeroed := (inetChksum_isChecksum 0 hshort).trans (same_value_field hbefore 0 addresses)
  have hfield := same_value_field hbefore e.reply.ipChksum (addresses ++ e.options)
  have hheader : e.reply.ipHeader =
      before ++ fieldBytes e.reply.ipChksum ++ (addresses ++ e.options) := rfl
  have hoptions := same_value_append haddresses e.options
  have hsum : Same 65535 (value before + value (addresses ++ e.options) + e.reply.ipChksum.toNat)
      ((~~~e.reply.ipChksum).toNat + (value e.options + e.reply.ipChksum.toNat)) := by
    have hzero : (0 : BitVec 16).toNat = 0 := rfl
    rw [← hchksum, hzero, Nat.add_zero] at hzeroed
    have hleft := ((Same.refl (value before)).add hoptions).add (Same.refl e.reply.ipChksum.toNat)
    rw [← Nat.add_assoc (value before), Nat.add_assoc _ (value e.options)] at hleft
    exact hleft.trans (hzeroed.symm.add (Same.refl _))
  rw [hheader, hfield.dvd_iff, hsum.dvd_iff, BitVec.toNat_not]
  have hlt := e.reply.ipChksum.isLt
  omega

/-! ## Requests are answered -/

/-- The first pbuf of a request that is large enough has the headers. -/
theorem Echo.first_bytes {first others : List UInt8} (h : first ++ others = e.bytes)
    (hfirst : ipHlen + e.options.length + icmpEchoHdrSize ≤ first.length) :
    ∃ e' : Echo, e'.bytes = first ∧ e'.options = e.options ∧
      e'.reply.bytes ++ others = e.reply.bytes := by
  have hbytes : e.bytes = e.ipHeader ++ [e.type, e.code] ++ fieldBytes e.chksum ++ e.rest := by
    simp only [Echo.bytes, Echo.icmp, List.append_assoc]
  have hlength : (e.ipHeader ++ [e.type, e.code] ++ fieldBytes e.chksum).length =
      ipHlen + e.options.length + 4 := by
    rw [List.length_append, List.length_append, e.length_ipHeader]
    rfl
  have hsize : icmpEchoHdrSize = 8 := rfl
  rw [hbytes] at h
  obtain ⟨rest, rfl, hrest⟩ : ∃ rest, first =
      e.ipHeader ++ [e.type, e.code] ++ fieldBytes e.chksum ++ rest ∧ rest ++ others = e.rest := by
    rcases List.append_eq_append_iff.mp h with ⟨as, hprefix, hothers⟩ | ⟨rest, hrest, hothers⟩
    · have hle := congrArg List.length hprefix
      rw [hlength, List.length_append] at hle
      omega
    · exact ⟨rest, hrest, hothers.symm⟩
  have hrestLength : 4 ≤ rest.length := by
    rw [List.length_append, hlength] at hfirst
    omega
  refine ⟨{ e with rest := rest, length_rest := hrestLength }, ?_, rfl, ?_⟩
  · simp only [Echo.bytes, Echo.icmp, List.append_assoc]
    rfl
  · have hreply : e.reply.bytes = e.reply.ipHeader ++
        ([e.reply.type, e.reply.code] ++ fieldBytes e.reply.chksum ++ (rest ++ others)) := by
      rw [hrest]
      rfl
    rw [hreply, ← List.append_assoc _ rest, ← List.append_assoc e.reply.ipHeader]
    rfl

/-- The first byte tells how long the header is. -/
theorem Echo.headerLength_bytes {first others : List UInt8} (h : first ++ others = e.bytes)
    (hfirst : first ≠ []) : headerLength first = ipHlen + e.options.length := by
  obtain ⟨b, first, rfl⟩ := List.exists_cons_of_ne_nil hfirst
  have hfront := e.length_front
  rw [← e.headerLength_front]
  rcases hcase : e.front with _ | ⟨b', front⟩
  · rw [hcase] at hfront
    cases hfront
  · rw [Echo.bytes, Echo.ipHeader, Echo.beforeIpChksum, hcase] at h
    obtain ⟨rfl, -⟩ := List.cons.inj h
    rfl

/-- What is behind the IP header. -/
theorem Echo.content_behind {q : Segment} {chain : List Segment}
    (h : content (q :: chain) = e.bytes) (hfirst : ipHlen + e.options.length ≤ q.bytes.length) :
    content (q.behind (ipHlen + e.options.length) :: chain) = e.icmp := by
  have hdrop := congrArg (List.drop (ipHlen + e.options.length)) h
  rw [content, List.flatMap_cons, List.drop_append, Nat.sub_eq_zero_of_le hfirst, List.drop_zero,
    Echo.bytes, ← e.length_ipHeader, List.drop_left, e.length_ipHeader] at hdrop
  exact hdrop

/-- The type of a packet is the first byte behind its header. -/
theorem Echo.type_bytes {first others : List UInt8} (h : first ++ others = e.bytes)
    (hfirst : ipHlen + e.options.length < first.length) :
    first[ipHlen + e.options.length]? = some e.type := by
  have hget : e.bytes[ipHlen + e.options.length]? = some e.type := by
    rw [Echo.bytes, ← e.length_ipHeader, List.getElem?_append_right (Nat.le_refl _), Nat.sub_self]
    rfl
  rw [← h, List.getElem?_append_left hfirst] at hget
  exact hget

end

/-- There are pbufs for the reply: those of the request with room in front of them and the
ICMP header in the first one, or a copy, if the request does not end in an empty pbuf. -/
def ReplyRoom (linkHlen hlen : ℕ) (mem : Option (ℕ → UInt8)) (front : List UInt8)
    (type : PbufType) (q : Segment) (chain : List Segment) : Prop :=
  type.inBlock = true ∧
    if pbufIpHlen + linkHlen ≤ front.length + hlen then hlen + icmpEchoHdrSize ≤ q.bytes.length
    else mem.isSome = true ∧ ∀ r ∈ chain.getLast?, r.bytes ≠ []

/-- Whether there are pbufs for a reply can be decided. -/
instance (linkHlen hlen : ℕ) (mem : Option (ℕ → UInt8)) (front : List UInt8) (type : PbufType)
    (q : Segment) (chain : List Segment) :
    Decidable (ReplyRoom linkHlen hlen mem front type q chain) :=
  inferInstanceAs (Decidable (type.inBlock = true ∧
    if pbufIpHlen + linkHlen ≤ front.length + hlen then hlen + icmpEchoHdrSize ≤ q.bytes.length
    else mem.isSome = true ∧ ∀ r ∈ chain.getLast?, r.bytes ≠ []))

section

variable {q : Segment} {chain : List Segment} {e : Echo} {linkHlen : ℕ}
  {mem : Option (ℕ → UInt8)} {front : List UInt8} {type : PbufType}

/-- A request that passes the checks is up to the pbufs for the reply. -/
theorem icmpInput_eq (h : content (q :: chain) = e.bytes) (hlt : e.bytes.length < 65536)
    (htype : e.type = icmpEcho) (hfirst : ipHlen + e.options.length < q.bytes.length)
    (hvalid : inetChksumPbuf (q.behind (ipHlen + e.options.length) :: chain) = 0) :
    icmpInput linkHlen true mem front type (q :: chain) =
      (replyPbufs linkHlen (ipHlen + e.options.length) mem
        ((q.behind (ipHlen + e.options.length)).pbuf
          (front ++ q.bytes.take (ipHlen + e.options.length)) type
          (e.bytes.length - (ipHlen + e.options.length))) (pbufsBehind chain)).bind fun room =>
        room.elim (some .memerr) fun (p, chain) =>
          sendReply (ipHlen + e.options.length) p chain := by
  have hbytes : q.bytes ++ content chain = e.bytes := h
  have hle : q.bytes.length ≤ e.bytes.length := by
    rw [← hbytes, List.length_append]
    exact Nat.le_add_right _ _
  have hne : q.bytes ≠ [] := List.ne_nil_of_length_pos (Nat.zero_lt_of_lt hfirst)
  have hlong : 8 ≤ e.bytes.length - (ipHlen + e.options.length) := by
    have hrest := e.length_rest
    rw [Echo.bytes, List.length_append, e.length_ipHeader, Nat.add_sub_cancel_left, Echo.icmp,
      List.length_append, List.length_append, length_fieldBytes]
    exact Nat.add_le_add_left hrest 4
  have hsize : icmpEchoHdrSize = 8 := rfl
  have htot : ((q.behind (ipHlen + e.options.length)).pbuf
      (front ++ q.bytes.take (ipHlen + e.options.length)) type
      (e.bytes.length - (ipHlen + e.options.length))).totLen =
        e.bytes.length - (ipHlen + e.options.length) := Nat.mod_eq_of_lt (by omega)
  have hhead : (q.bytes.drop (ipHlen + e.options.length)).head? = some e.type := by
    rw [List.head?_drop]
    exact e.type_bytes hbytes hfirst
  have hbytes' : (q.behind (ipHlen + e.options.length)).bytes =
      q.bytes.drop (ipHlen + e.options.length) := rfl
  have hecho : ¬ (e.type ≠ icmpEcho ∨ true = false) := by
    rw [htype]
    decide
  rw [icmpInput, e.headerLength_bytes hbytes hne, h,
    Segment.header_pbuf front type (Nat.le_of_lt hfirst) hle hlt]
  simp only [Option.elim_some]
  rw [htot, if_neg (by omega), Segment.content_pbuf, hbytes', hhead, Option.bind_some, if_neg hecho,
    if_neg (by omega), if_neg (not_not_intro hvalid)]

/-- The segments behind the first one end in an empty one if their pbufs do. -/
theorem endsFilled_pbufsBehind (chain : List Segment) :
    EndsFilled (pbufsBehind chain) ↔ ∀ r ∈ chain.getLast?, r.bytes ≠ [] := by
  induction chain with
  | nil => exact iff_of_true endsFilled_nil (by simp)
  | cons q chain ih =>
    cases chain with
    | nil =>
      constructor
      · intro hends r hr
        rw [← Option.some_inj.mp hr]
        exact List.ne_nil_of_length_pos (hends _ rfl)
      · intro hne p hp
        rw [← Option.some_inj.mp hp]
        exact List.length_pos_iff.mpr (hne q rfl)
    | cons q' chain =>
      rw [List.getLast?_cons_cons, ← ih]
      exact endsFilled_cons_cons

/-- A request that starts in a filled pbuf ends in an empty one only behind it. -/
theorem endsFilled_pbuf (front : List UInt8) (type : PbufType) (chain : List Segment) (length : ℕ)
    (hfirst : 0 < q.bytes.length) :
    EndsFilled (q.pbuf front type length :: pbufsBehind chain) ↔
      ∀ r ∈ chain.getLast?, r.bytes ≠ [] := by
  rw [← endsFilled_pbufsBehind]
  cases chain with
  | nil =>
    refine ⟨fun _ => endsFilled_nil, fun _ p hp => ?_⟩
    rw [← Option.some_inj.mp hp]
    exact hfirst
  | cons q' chain => exact endsFilled_cons_cons

/-- The pbufs of a request contain it. -/
theorem contents_pbuf (h : content (q :: chain) = e.bytes) (length : ℕ) :
    contents (q.pbuf front type length :: pbufsBehind chain) = e.bytes := by
  rw [contents, List.flatMap_cons, Segment.content_pbuf, ← contents, contents_pbufsBehind]
  exact h

/-- A request without room is copied if it does not end in an empty pbuf. -/
theorem copyRequest_pbuf (linkHlen : ℕ) (garbage : ℕ → UInt8) (front : List UInt8)
    (type : PbufType) (h : content (q :: chain) = e.bytes)
    (hlt : e.bytes.length < 65536) (hfirst : ipHlen + e.options.length < q.bytes.length) :
    ((∀ r ∈ chain.getLast?, r.bytes ≠ []) →
      ∃ r r', copyRequest linkHlen (ipHlen + e.options.length) garbage
          (q.pbuf front type e.bytes.length) (pbufsBehind chain) = some r ∧
        r.header (ipHlen + e.options.length : ℕ) = some r' ∧ r'.content = e.bytes) ∧
      ((¬ ∀ r ∈ chain.getLast?, r.bytes ≠ []) →
        copyRequest linkHlen (ipHlen + e.options.length) garbage
          (q.pbuf front type e.bytes.length) (pbufsBehind chain) = none) := by
  have hwithin : ∀ p ∈ q.pbuf front type e.bytes.length :: pbufsBehind chain, p.Within :=
    List.forall_mem_cons.mpr ⟨q.within_pbuf _ _ _, within_pbufsBehind⟩
  have htot : (q.pbuf front type e.bytes.length).totLen = e.bytes.length := Nat.mod_eq_of_lt hlt
  have htotal : total (q.pbuf front type e.bytes.length :: pbufsBehind chain) =
      (q.pbuf front type e.bytes.length).totLen := by
    rw [← length_contents hwithin, contents_pbuf h, htot]
  have hheader : ipHlen + e.options.length + icmpEchoHdrSize ≤
      (q.pbuf front type e.bytes.length).totLen := by
    have hrest := e.length_rest
    rw [htot, Echo.bytes, List.length_append, e.length_ipHeader, Echo.icmp, List.length_append,
      List.length_append, length_fieldBytes]
    exact Nat.add_le_add_left (Nat.add_le_add_left hrest 4) _
  have hends := endsFilled_pbuf front type chain e.bytes.length (Nat.zero_lt_of_lt hfirst)
  constructor
  · intro hlast
    have hone : NotQueue (q.pbuf front type e.bytes.length :: pbufsBehind chain) := by
      rw [← h]
      exact notQueue_pbuf (by rwa [h]) ((endsFilled_pbufsBehind chain).mpr hlast)
    obtain ⟨r, r', hcopy, hback, hcontent⟩ := copyRequest_copies linkHlen garbage hwithin htotal
      (by rwa [htot]) hheader hone (hends.mpr hlast)
    exact ⟨r, r', hcopy, hback, hcontent.trans (contents_pbuf h _)⟩
  · intro hlast
    exact copyRequest_fails linkHlen garbage hwithin htotal (by rwa [htot]) hheader
      (mt hends.mp hlast)

/-- A request that passes the check is answered. -/
theorem icmpInput_replies (hlink : pbufIpHlen + linkHlen ≤ 32767)
    (h : content (q :: chain) = e.bytes)
    (hsize : e.bytes.length + (pbufIpHlen + linkHlen) < 65536) (htype : e.type = icmpEcho)
    (hfirst : ipHlen + e.options.length < q.bytes.length)
    (hroom : ReplyRoom linkHlen (ipHlen + e.options.length) mem front type q chain)
    (hvalid : inetChksumPbuf (q.behind (ipHlen + e.options.length) :: chain) = 0) :
    icmpInput linkHlen true mem front type (q :: chain) = some (.replied e.reply.bytes) := by
  have hbytes : q.bytes ++ content chain = e.bytes := h
  have hle : q.bytes.length ≤ e.bytes.length := by
    rw [← hbytes, List.length_append]
    exact Nat.le_add_right _ _
  have hlt : e.bytes.length < 65536 := by omega
  obtain ⟨hblock, hplace⟩ := hroom
  have hback := Segment.header_behind front hblock (Nat.le_of_lt hfirst) hle hlt
  let p := (q.behind (ipHlen + e.options.length)).pbuf
    (front ++ q.bytes.take (ipHlen + e.options.length)) type
    (e.bytes.length - (ipHlen + e.options.length))
  have hpayload : p.payload = front.length + (ipHlen + e.options.length) := by
    show (front ++ q.bytes.take (ipHlen + e.options.length)).length = _
    rw [List.length_append, List.length_take, Nat.min_eq_left (Nat.le_of_lt hfirst)]
  have hlen : p.len = q.bytes.length - (ipHlen + e.options.length) := List.length_drop
  have htot : p.totLen = e.bytes.length - (ipHlen + e.options.length) :=
    Nat.mod_eq_of_lt (by omega)
  have hwhole : p.len ≤ p.totLen ∧ p.totLen + (pbufIpHlen + linkHlen) < 65536 := by omega
  rw [icmpInput_eq h hlt htype hfirst hvalid]
  by_cases hin : pbufIpHlen + linkHlen ≤ front.length + (ipHlen + e.options.length)
  · -- the reply is made in the pbufs of the request
    rw [if_pos hin] at hplace
    obtain ⟨e', hfirst', hoptions, hreply⟩ := e.first_bytes hbytes hplace
    have hmake := makeReply_bytes e'
    rw [hfirst', hoptions] at hmake
    rw [replyPbufs_room _ _ _ hlink hblock (by rw [hpayload]; exact hin) hwhole.1 hwhole.2,
      Option.bind_some, Option.elim_some]
    dsimp only
    rw [sendReply, hback, Option.bind_eq_bind, Option.bind_some, Segment.content_pbuf, hmake,
      Option.bind_eq_bind, Option.bind_some, contents_pbufsBehind, hreply]
    rfl
  · -- the reply is made in a copy
    rw [if_neg hin] at hplace
    obtain ⟨garbage, rfl⟩ := Option.isSome_iff_exists.mp hplace.1
    obtain ⟨r, r', hcopy, hhide, hcontent⟩ :=
      (copyRequest_pbuf linkHlen garbage front type h hlt hfirst).1 hplace.2
    rw [replyPbufs_copy _ _ hlink (by rw [hpayload]; omega) hback, Option.elim_some, hcopy,
      Option.map_some, Option.bind_some, Option.elim_some]
    dsimp only
    rw [sendReply, hhide, Option.bind_eq_bind, Option.bind_some, hcontent, makeReply_bytes,
      Option.bind_eq_bind, Option.bind_some, contents, List.flatMap_nil, List.append_nil]
    rfl

/-- A request without room fails an assertion if it ends in an empty pbuf, and so does every
request whose payload is not in the block of its pbuf. -/
theorem icmpInput_fails (hlink : pbufIpHlen + linkHlen ≤ 32767)
    (h : content (q :: chain) = e.bytes) (hlt : e.bytes.length < 65536) (htype : e.type = icmpEcho)
    (hfirst : ipHlen + e.options.length < q.bytes.length)
    (hvalid : inetChksumPbuf (q.behind (ipHlen + e.options.length) :: chain) = 0)
    (hfails : type.inBlock = false ∨
      front.length + (ipHlen + e.options.length) < pbufIpHlen + linkHlen ∧ mem.isSome = true ∧
        ¬ ∀ r ∈ chain.getLast?, r.bytes ≠ []) :
    icmpInput linkHlen true mem front type (q :: chain) = none := by
  rw [icmpInput_eq h hlt htype hfirst hvalid]
  cases hblock : type.inBlock with
  | false =>
    rw [replyPbufs_ref _ _ hlink (Nat.add_pos_left (by decide) _) hblock, Option.bind_none]
  | true =>
    rw [hblock] at hfails
    obtain ⟨hroom, hmem, hlast⟩ := hfails.resolve_left (by decide)
    obtain ⟨garbage, rfl⟩ := Option.isSome_iff_exists.mp hmem
    have hle : q.bytes.length ≤ e.bytes.length := by
      rw [← h, content, List.flatMap_cons, List.length_append]
      exact Nat.le_add_right _ _
    have hback := Segment.header_behind front hblock (Nat.le_of_lt hfirst) hle hlt
    have hpayload : (front ++ q.bytes.take (ipHlen + e.options.length)).length <
        pbufIpHlen + linkHlen := by
      rwa [List.length_append, List.length_take, Nat.min_eq_left (Nat.le_of_lt hfirst)]
    rw [replyPbufs_copy _ _ hlink hpayload hback, Option.elim_some,
      (copyRequest_pbuf linkHlen garbage front type h hlt hfirst).2 hlast, Option.map_none,
      Option.bind_none]

/-- **Echo.** An echo request that passes the check is answered whatever pbufs it lies in, if there
are pbufs for the reply. The reply is the request with the addresses exchanged and the type,
time to live and checksums changed. It passes the check exactly if there was something else in
the request than its type and checksum, and its IP header passes exactly if the sum of its
options is a zero. -/
theorem icmpInput_echo (hlink : pbufIpHlen + linkHlen ≤ 32767)
    (h : content (q :: chain) = e.bytes)
    (hsize : e.bytes.length + (pbufIpHlen + linkHlen) < 65536) (htype : e.type = icmpEcho)
    (hfirst : ipHlen + e.options.length < q.bytes.length)
    (hroom : ReplyRoom linkHlen (ipHlen + e.options.length) mem front type q chain)
    (hvalid : inetChksumPbuf (q.behind (ipHlen + e.options.length) :: chain) = 0) :
    icmpInput linkHlen true mem front type (q :: chain) = some (.replied e.reply.bytes) ∧
      (∀ r, content r = e.reply.icmp →
        (inetChksumPbuf r = 0 ↔ e.code ≠ 0 ∨ ∃ b ∈ e.rest, b ≠ 0)) ∧
      ∀ dataptr, inetChksum dataptr e.reply.ipHeader = 0 ↔ 65535 ∣ value e.options := by
  have hbehind := e.content_behind h (Nat.le_of_lt hfirst)
  refine ⟨?_, ?_, ?_⟩
  · exact icmpInput_replies hlink h hsize htype hfirst hroom hvalid
  · intro r hr
    have hsum := (inetChksumPbuf_isChecksum _).eq_zero_iff.mp hvalid
    rw [hbehind] at hsum
    rw [(inetChksumPbuf_isChecksum r).eq_zero_iff, hr]
    exact e.reply_icmp_iff htype hsum
  · intro dataptr
    have hshort : e.reply.ipHeader.length < 65536 := by
      rw [e.reply.length_ipHeader]
      exact Nat.lt_trans hfirst q.length_lt
    rw [(inetChksum_isChecksum dataptr hshort).eq_zero_iff]
    exact e.reply_ipHeader_iff

end

/-- A request without anything else than the type and the checksum. -/
def emptyEcho : Echo :=
  ⟨[0x45, 0, 0, 28, 0, 0, 0, 0], 64, 1, 0, 0x0100000a, 0x0200000a, [], 8, 0, 0xfff7, [0, 0, 0, 0],
    rfl, by decide, by decide⟩

/-- The reply to a request without anything else does not pass the check, here in two pbufs
that are copied. -/
theorem icmpInput_echo_empty :
    icmpInput 14 true (some fun _ => 0) [] .pool
        [⟨0, emptyEcho.bytes.take 21, by decide⟩, ⟨0, emptyEcho.bytes.drop 21, by decide⟩] =
        some (.replied emptyEcho.reply.bytes) ∧
      inetChksumPbuf [⟨0, emptyEcho.reply.icmp, by decide⟩] ≠ 0 := by
  obtain ⟨hreplied, hpasses, -⟩ := @icmpInput_echo ⟨0, emptyEcho.bytes.take 21, by decide⟩
    [⟨0, emptyEcho.bytes.drop 21, by decide⟩] emptyEcho 14 (some fun _ => 0) [] .pool (by decide)
    (by decide) (by decide) rfl (by decide) ⟨rfl, rfl, by decide⟩ (by decide)
  refine ⟨hreplied, fun hzero => ?_⟩
  have hsome := (hpasses _ (List.append_nil _)).mp hzero
  revert hsome
  decide

/-! ## Pings -/

/-- The ICMP part of a packet with a request of `SendPing`. -/
theorem ping_fields {e : Echo} {inetChksum : List UInt8 → BitVec 16} {sequenceNumber : BitVec 16}
    (h : e.icmp = pingRequest inetChksum sequenceNumber) :
    e.type = icmpEcho ∧ e.code = 0 ∧
      e.chksum = inetChksum ([icmpEcho, 0] ++ fieldBytes 0 ++ e.rest) ∧
      e.rest = fieldBytes pingId ++ fieldBytes (htons sequenceNumber) ++
        (List.range pingDataSize).map UInt8.ofNat := by
  let rest := fieldBytes pingId ++ fieldBytes (htons sequenceNumber) ++
    (List.range pingDataSize).map UInt8.ofNat
  have hrequest : pingRequest inetChksum sequenceNumber = [icmpEcho, 0] ++
      fieldBytes (inetChksum ([icmpEcho, 0] ++ fieldBytes 0 ++ rest)) ++ rest := by
    rw [pingRequest]
    simp only [rest, List.append_assoc]
  rw [hrequest, Echo.icmp] at h
  obtain ⟨hheader, hrest⟩ := List.append_inj h rfl
  obtain ⟨hfirst, hchksum⟩ := List.append_inj hheader rfl
  obtain ⟨htype, hcode⟩ := List.cons.inj hfirst
  have hvalue := congrArg value hchksum
  rw [value_fieldBytes, value_fieldBytes] at hvalue
  rw [hrest]
  exact ⟨htype, (List.cons.inj hcode).1, BitVec.eq_of_toNat_eq hvalue, rfl⟩

/-- The reply to a ping is accepted if it fits into the buffer up to its ICMP header. -/
theorem testReply_reply {e : Echo} {inetChksum : List UInt8 → BitVec 16}
    {sequenceNumber : BitVec 16} (h : e.icmp = pingRequest inetChksum sequenceNumber)
    (hoptions : e.options.length ≤ 36) {d : Received}
    (hlen : d.len = min 64 (e.reply.bytes.length : ℤ))
    (hbuf : ∀ i : ℕ, i < d.len → d.buf i = e.reply.bytes.getD i 0) :
    (testReply sequenceNumber d).1 = true := by
  obtain ⟨-, -, -, hrest⟩ := ping_fields h
  let header := e.reply.ipHeader ++ [icmpEr, e.code] ++ fieldBytes e.reply.chksum
  let data := (List.range pingDataSize).map UInt8.ofNat
  have hbytes : e.reply.bytes =
      header ++ fieldBytes pingId ++ (fieldBytes (htons sequenceNumber) ++ data) := by
    have hreply : e.reply.bytes = header ++ e.rest := by
      simp only [header, Echo.bytes, Echo.icmp, List.append_assoc]
      rfl
    rw [hreply, hrest]
    simp only [data, List.append_assoc]
  have hheader : header.length = ipHlen + e.options.length + 4 := by
    rw [List.length_append, List.length_append, e.reply.length_ipHeader]
    rfl
  have hlength : e.reply.bytes.length = ipHlen + e.options.length + 40 := by
    rw [hbytes, List.length_append, List.length_append, hheader]
    rfl
  have hipHlen : ipHlen = 20 := rfl
  have hfield (k : ℕ) (x : BitVec 16) (before after : List UInt8)
      (hk : before.length = k) (hfits : (k + 1 : ℕ) < d.len)
      (heq : e.reply.bytes = before ++ fieldBytes x ++ after) : fieldAt d.buf k = x := by
    have hread := @fieldAt_middle before after x k hk
    rw [← heq] at hread
    rw [fieldAt, hbuf k (by omega), hbuf (k + 1) hfits]
    exact hread
  have hoffset : d.offset = ipHlen + e.options.length := by
    have hfirst := e.reply.headerLength_bytes (List.append_nil _) (by
      apply List.ne_nil_of_length_pos
      omega)
    have hhead (l : List UInt8) : l.getD 0 0 = l.headD 0 := by cases l <;> rfl
    rw [Received.offset, hbuf 0 (by omega), hhead]
    exact hfirst
  have htype : d.buf (ipHlen + e.options.length) = icmpEr := by
    have hoptions' : e.reply.options.length = e.options.length := rfl
    have hget := e.reply.type_bytes (List.append_nil _) (by omega)
    rw [hbuf _ (by omega), List.getD_eq_getElem?_getD]
    exact congrArg (fun b : Option UInt8 => b.getD 0) hget
  have hid := hfield (ipHlen + e.options.length + 4) pingId header
    (fieldBytes (htons sequenceNumber) ++ data) hheader (by omega) hbytes
  have hseq := hfield (ipHlen + e.options.length + 6) (htons sequenceNumber)
    (header ++ fieldBytes pingId) data (by rw [List.length_append, hheader]; rfl) (by omega)
    (by rw [hbytes, List.append_assoc _ _ data])
  have hsizes : ipHdrSize + icmpEchoHdrSize = 28 := rfl
  rw [testReply, if_pos (by omega)]
  dsimp only
  rw [hoffset, if_pos hid, if_pos hseq, htype]
  rfl

/-- **Pings.** A request of `SendPing` is answered by `icmp_input`, whatever pbufs it lies in, if
there are pbufs for the reply. The reply passes the check, and `ReceivePing` succeeds with it if
it gets the ICMP header. -/
theorem ping_answered {dataptr linkHlen : ℕ} {sequenceNumber : BitVec 16} {e : Echo} {q : Segment}
    {chain : List Segment} {mem : Option (ℕ → UInt8)} {front : List UInt8} {type : PbufType}
    (hlink : pbufIpHlen + linkHlen ≤ 32767)
    (he : e.icmp = pingRequest (inetChksum dataptr) sequenceNumber)
    (h : content (q :: chain) = e.bytes)
    (hfirst : ipHlen + e.options.length < q.bytes.length)
    (hroom : ReplyRoom linkHlen (ipHlen + e.options.length) mem front type q chain)
    (hoptions : e.options.length ≤ 36) :
    icmpInput linkHlen true mem front type (q :: chain) = some (.replied e.reply.bytes) ∧
      (∀ r, content r = e.reply.icmp → inetChksumPbuf r = 0) ∧
      ∀ (d : Received) (ds : List Received), d.len = min 64 (e.reply.bytes.length : ℤ) →
        (∀ i : ℕ, i < d.len → d.buf i = e.reply.bytes.getD i 0) →
        (receivePing sequenceNumber (d :: ds)).result = some .ok := by
  obtain ⟨htype, hcode, hchksum, hrest⟩ := ping_fields he
  have hbehind := e.content_behind h (Nat.le_of_lt hfirst)
  have hicmp : e.icmp = [icmpEcho, 0] ++ fieldBytes e.chksum ++ e.rest := by
    rw [Echo.icmp, htype, hcode]
  have hlength : e.rest.length = 36 := by
    rw [hrest]
    rfl
  have hvalid : inetChksumPbuf (q.behind (ipHlen + e.options.length) :: chain) = 0 := by
    have hshort : ([icmpEcho, 0] ++ fieldBytes 0 ++ e.rest).length < 65536 := by
      rw [List.length_append, hlength]
      decide
    have hpbuf := inetChksumPbuf_isChecksum (q.behind (ipHlen + e.options.length) :: chain)
    rw [hbehind, hicmp] at hpbuf
    exact (isChecksum_field_iff even_two hpbuf (inetChksum_isChecksum dataptr hshort)).mpr
      (Or.inl hchksum)
  have hsome : ∃ b ∈ e.rest, b ≠ 0 := by
    refine ⟨0xaf, ?_, by decide⟩
    rw [hrest]
    exact List.mem_append_left _ (List.mem_append_left _ (List.mem_cons_self))
  have hsize : e.bytes.length + (pbufIpHlen + linkHlen) < 65536 := by
    rw [Echo.bytes, List.length_append, e.length_ipHeader, Echo.icmp, List.length_append,
      List.length_append, length_fieldBytes, hlength, ipHlen, List.length_cons, List.length_cons,
      List.length_nil]
    omega
  refine ⟨icmpInput_replies hlink h hsize htype hfirst hroom hvalid, ?_, ?_⟩
  · intro r hr
    have hsum := (inetChksumPbuf_isChecksum _).eq_zero_iff.mp hvalid
    rw [hbehind] at hsum
    rw [(inetChksumPbuf_isChecksum r).eq_zero_iff, hr, e.reply_icmp_iff htype hsum]
    exact Or.inr hsome
  · intro d ds hlen hbuf
    have haccepted := testReply_reply he hoptions hlen hbuf
    have hpos : ¬ d.len ≤ 0 := by
      have hreply : e.reply.bytes.length = ipHlen + e.options.length + 40 := by
        rw [Echo.bytes, List.length_append, e.reply.length_ipHeader, Echo.icmp,
          List.length_append, List.length_append, length_fieldBytes]
        exact congrArg (fun n => ipHlen + e.options.length + (4 + n)) hlength
      omega
    rw [receivePing, if_neg hpos]
    dsimp only
    rw [if_pos haccepted]

/-- The first ping. -/
def firstPing : Echo :=
  ⟨[0x45, 0, 0, 60, 0, 0, 0, 0], 255, 1, 0, 0x0100000a, 0x0200000a, [], 8, 0, 0x4e57,
    fieldBytes pingId ++ fieldBytes (htons 1) ++ (List.range pingDataSize).map UInt8.ofNat,
    rfl, by decide, by decide⟩

/-- The first ping, in one pbuf with room for the headers. -/
theorem ping_answered_first :
    icmpInput 14 true none (List.replicate 14 0) .pool [⟨0, firstPing.bytes, by decide⟩] =
      some (.replied firstPing.reply.bytes) := by
  have hicmp : firstPing.icmp = pingRequest (inetChksum 0) 1 := by decide
  exact (@ping_answered 0 14 1 firstPing ⟨0, firstPing.bytes, by decide⟩ [] none
    (List.replicate 14 0) .pool (by decide) hicmp (List.append_nil _) (by decide)
    ⟨rfl, (by decide :
      ipHlen + firstPing.options.length + icmpEchoHdrSize ≤ firstPing.bytes.length)⟩
    (by decide)).1

end WifiMcu.Lwip
