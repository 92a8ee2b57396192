import WifiMcu.Lwip.Checksum
import WifiMcu.Lwip.Pbuf

/-!
# Room for the headers of a reply

`icmp_input` sends its reply in the pbufs of the request, if there is room in front of it
for the headers of the lower layers. Else the request is copied to a new pbuf that has this
room. The copy fails if the chain ends in an empty pbuf, and then an assertion does.
-/

namespace WifiMcu.Lwip

open RefCount WifiMcu.System

/-- `PBUF_IP_HLEN`. -/
def pbufIpHlen : ℕ := 20

/-! ## The pbufs of a request -/

/-- The pbuf with the payload moved behind a header. -/
def Segment.behind (q : Segment) (hlen : ℕ) : Segment where
  payload := q.payload + hlen
  bytes := q.bytes.drop hlen
  length_lt := Nat.lt_of_le_of_lt (List.drop_sublist hlen q.bytes).length_le q.length_lt

/-- A segment as a pbuf, by what is in front of its payload in the block and by the length of
the packet from there on. -/
def Segment.pbuf (q : Segment) (front : List UInt8) (type : PbufType) (length : ℕ) : Pbuf where
  memory := front ++ q.bytes
  payload := front.length
  totLen := length % 65536
  len := q.bytes.length
  type := type
  flags := 0

/-- The pbufs behind the first one. Only their payload is read. -/
def pbufsBehind : List Segment → List Pbuf
  | [] => []
  | q :: chain => q.pbuf [] .pool (content (q :: chain)).length :: pbufsBehind chain

/-- The payload of a segment is the one of its pbuf. -/
@[simp] theorem Segment.content_pbuf (q : Segment) (front : List UInt8) (type : PbufType)
    (length : ℕ) : (q.pbuf front type length).content = q.bytes := by
  simp [Pbuf.content, Segment.pbuf]

/-- The payload of the pbuf of a segment lies in its block. -/
theorem Segment.within_pbuf (q : Segment) (front : List UInt8) (type : PbufType) (length : ℕ) :
    (q.pbuf front type length).Within := by
  rw [Pbuf.Within, Segment.pbuf, List.length_append]

/-- The pbufs behind the first one contain what their segments do. -/
theorem contents_pbufsBehind (chain : List Segment) :
    contents (pbufsBehind chain) = content chain := by
  induction chain with
  | nil => rfl
  | cons q chain ih =>
    rw [contents] at ih
    rw [pbufsBehind, contents, List.flatMap_cons, ih, Segment.content_pbuf]
    rfl

/-- The payloads of the pbufs behind the first one lie in their blocks. -/
theorem within_pbufsBehind {chain : List Segment} : ∀ p ∈ pbufsBehind chain, p.Within := by
  induction chain with
  | nil => simp [pbufsBehind]
  | cons q chain ih => exact List.forall_mem_cons.mpr ⟨q.within_pbuf _ _ _, ih⟩

/-- A chain that does not end in an empty pbuf is one packet. -/
theorem notQueue_pbuf {q : Segment} {chain : List Segment} {front : List UInt8} {type : PbufType}
    (hlength : (content (q :: chain)).length < 65536) (hends : EndsFilled (pbufsBehind chain)) :
    NotQueue (q.pbuf front type (content (q :: chain)).length :: pbufsBehind chain) := by
  induction chain generalizing q front type with
  | nil => trivial
  | cons q' chain ih =>
    rw [content, List.flatMap_cons, List.length_append, ← content] at hlength
    have hpos : 0 < total (pbufsBehind (q' :: chain)) := hends.total_pos
    rw [← length_contents (@within_pbufsBehind (q' :: chain)), contents_pbufsBehind] at hpos
    refine ⟨?_, ?_⟩
    · show q.bytes.length ≠ (content (q :: q' :: chain)).length % 65536
      rw [content, List.flatMap_cons, List.length_append, ← content, Nat.mod_eq_of_lt hlength]
      omega
    · apply ih (by omega)
      cases chain with
      | nil => exact endsFilled_nil
      | cons => exact endsFilled_cons_cons.mp hends

/-! ## Moving the beginning of the payload -/

/-- The header is hidden. -/
theorem Segment.header_pbuf {q : Segment} {hlen length : ℕ} (front : List UInt8) (type : PbufType)
    (hfirst : hlen ≤ q.bytes.length) (hlength : q.bytes.length ≤ length) (hlt : length < 65536) :
    (q.pbuf front type length).header (-hlen) =
      some ((q.behind hlen).pbuf (front ++ q.bytes.take hlen) type (length - hlen)) := by
  have htot : (q.pbuf front type length).totLen = length := Nat.mod_eq_of_lt hlt
  rw [header_neg hfirst (by rw [htot]; exact hlength) (by rw [htot]; exact hlt), htot]
  have hsub : (length - hlen) % 65536 = length - hlen := Nat.mod_eq_of_lt (by omega)
  simp only [Segment.pbuf, Segment.behind, List.length_append, List.length_take,
    List.length_drop, List.append_assoc, List.take_append_drop, Nat.min_eq_left hfirst, hsub]

/-- The header is revealed again. -/
theorem Segment.header_behind {q : Segment} {hlen length : ℕ} (front : List UInt8)
    {type : PbufType} (htype : type.inBlock = true) (hfirst : hlen ≤ q.bytes.length)
    (hlength : q.bytes.length ≤ length) (hlt : length < 65536) :
    ((q.behind hlen).pbuf (front ++ q.bytes.take hlen) type (length - hlen)).header hlen =
      some (q.pbuf front type length) := by
  have htake : (q.bytes.take hlen).length = hlen := by
    rw [List.length_take, Nat.min_eq_left hfirst]
  have hsub : (length - hlen) % 65536 = length - hlen := Nat.mod_eq_of_lt (by omega)
  have hlen' : q.bytes.length - hlen + hlen = q.bytes.length := Nat.sub_add_cancel hfirst
  have htot' : length - hlen + hlen = length % 65536 := by
    rw [Nat.mod_eq_of_lt hlt]
    omega
  rw [header_reveal htype]
  · simp only [Segment.pbuf, Segment.behind, List.length_append, htake, List.length_drop,
      List.append_assoc, List.take_append_drop, hsub, hlen', htot', Nat.add_sub_cancel]
  · show hlen ≤ (front ++ q.bytes.take hlen).length
    rw [List.length_append, htake]
    exact Nat.le_add_left _ _
  · show (q.bytes.drop hlen).length + hlen < 65536
    rw [List.length_drop]
    omega
  · show (length - hlen) % 65536 + hlen < 65536
    omega

/-! ## Making room -/

/-- A pbuf as `pbuf_alloc` sets it up for `PBUF_LINK` and `PBUF_RAM`, with `PBUF_LINK_HLEN` as
`linkHlen`: as for `PBUF_RAW`, but with room in front of the payload. -/
def Pbuf.allocatedLink (linkHlen length : ℕ) (garbage : ℕ → UInt8) : Pbuf where
  memory := (List.range (memAlignSize linkHlen + memAlignSize (length % 65536))).map garbage
  payload := memAlignSize linkHlen
  totLen := length % 65536
  len := length % 65536
  type := .ram
  flags := 0

/-- The copy that `icmp_input` makes of a request: a new pbuf with the payload behind the IP
header. There is no result where an assertion fails. -/
def copyRequest (linkHlen hlen : ℕ) (garbage : ℕ → UInt8) (p : Pbuf) (chain : List Pbuf) :
    Option Pbuf := do
  let r := Pbuf.allocatedLink linkHlen p.totLen garbage
  let s := linked 0 (p :: chain)
  let (e, s') ← if r.len < hlen + icmpEchoHdrSize then none
    else pbufCopy (alloc s r) (some s.length) (some 0)
  let n ← if e ≠ errOk then none else read s' s.length
  n.data.header (-hlen)

/-- The pbufs that `icmp_input` makes the reply in, with the payload of the first one behind the
IP header, or none if there is no memory for a copy. There is no result where an assertion
fails. -/
def replyPbufs (linkHlen hlen : ℕ) (mem : Option (ℕ → UInt8)) (p : Pbuf) (chain : List Pbuf) :
    Option (Option (Pbuf × List Pbuf)) :=
  (p.header (s16 (pbufIpHlen + linkHlen))).elim
    ((p.header hlen).bind fun p => mem.elim (some none) fun garbage =>
      (copyRequest linkHlen hlen garbage p chain).map fun r => some (r, []))
    fun p => (p.header (-s16 (pbufIpHlen + linkHlen))).map fun p => some (p, chain)

/-- The headers of the lower layers are short. -/
theorem s16_link {linkHlen : ℕ} (h : pbufIpHlen + linkHlen ≤ 32767) :
    s16 (pbufIpHlen + linkHlen) = ((pbufIpHlen + linkHlen : ℕ) : ℤ) := by
  rw [s16_eq (by omega) (by omega), Nat.cast_add]

/-- With room for the headers the request stays where it is. -/
theorem replyPbufs_room {linkHlen : ℕ} (hlen : ℕ) (mem : Option (ℕ → UInt8)) {p : Pbuf}
    (chain : List Pbuf) (hlink : pbufIpHlen + linkHlen ≤ 32767) (htype : p.type.inBlock = true)
    (hroom : pbufIpHlen + linkHlen ≤ p.payload) (hlength : p.len ≤ p.totLen)
    (hlt : p.totLen + (pbufIpHlen + linkHlen) < 65536) :
    replyPbufs linkHlen hlen mem p chain = some (some (p, chain)) := by
  have hback := header_neg (p := { p with
    payload := p.payload - (pbufIpHlen + linkHlen)
    len := p.len + (pbufIpHlen + linkHlen)
    totLen := p.totLen + (pbufIpHlen + linkHlen) }) (n := pbufIpHlen + linkHlen)
    (Nat.le_add_left _ _) (Nat.add_le_add_right hlength _) hlt
  rw [replyPbufs, s16_link hlink, header_reveal htype hroom (by omega) hlt, Option.elim_some, hback]
  simp only [Nat.sub_add_cancel hroom, Nat.add_sub_cancel, Option.map_some]

/-- A pbuf whose payload is not in its block has no room, and does not give the IP header back. -/
theorem replyPbufs_ref {linkHlen hlen : ℕ} (mem : Option (ℕ → UInt8)) {p : Pbuf}
    (chain : List Pbuf) (hlink : pbufIpHlen + linkHlen ≤ 32767) (hhlen : 0 < hlen)
    (htype : p.type.inBlock = false) : replyPbufs linkHlen hlen mem p chain = none := by
  have hnone (n : ℕ) (hn : 0 < n) : p.header n = none := by
    rw [Pbuf.header, if_neg (by omega), if_neg (by omega)]
    cases hcase : p.type with
    | ram => rw [hcase] at htype; cases htype
    | pool => rw [hcase] at htype; cases htype
    | ref => exact if_neg (by omega)
    | rom => exact if_neg (by omega)
  rw [replyPbufs, s16_link hlink, hnone _ (Nat.add_pos_left (by decide) _), Option.elim_none,
    hnone _ hhlen, Option.bind_none]

/-- Without room, what happens is up to the memory and to `pbuf_copy`. -/
theorem replyPbufs_copy {linkHlen hlen : ℕ} (mem : Option (ℕ → UInt8)) {p p' : Pbuf}
    (chain : List Pbuf) (hlink : pbufIpHlen + linkHlen ≤ 32767)
    (hroom : p.payload < pbufIpHlen + linkHlen) (hback : p.header hlen = some p') :
    replyPbufs linkHlen hlen mem p chain = mem.elim (some none) fun garbage =>
      (copyRequest linkHlen hlen garbage p' chain).map fun r => some (r, []) := by
  rw [replyPbufs, s16_link hlink, header_eq_none hroom, Option.elim_none, hback, Option.bind_some]

/-- The payload of a new pbuf lies in its block. -/
theorem Pbuf.within_allocatedLink (linkHlen length : ℕ) (garbage : ℕ → UInt8) :
    (Pbuf.allocatedLink linkHlen length garbage).Within := by
  simp only [Pbuf.Within, Pbuf.allocatedLink, List.length_map, List.length_range, memAlignSize]
  omega

section Copy

variable (linkHlen : ℕ) (garbage : ℕ → UInt8) {hlen : ℕ} {p : Pbuf} {chain : List Pbuf}

/-- The copy is what `pbuf_copy` makes of the new pbuf. -/
theorem copyRequest_eq (hwithin : ∀ p' ∈ p :: chain, p'.Within)
    (htotal : total (p :: chain) = p.totLen) (hlt : p.totLen < 65536)
    (hheader : hlen + icmpEchoHdrSize ≤ p.totLen) :
    ∃ e memory, copyRequest linkHlen hlen garbage p chain =
        (if e ≠ errOk then none
        else ((Pbuf.allocatedLink linkHlen p.totLen garbage).setMemory memory).header (-hlen)) ∧
      (NotQueue (p :: chain) → EndsFilled (p :: chain) → e = errOk ∧
        ((Pbuf.allocatedLink linkHlen p.totLen garbage).setMemory memory).content =
          contents (p :: chain)) ∧
      (¬ EndsFilled (p :: chain) → e ≠ errOk) := by
  have hlen' : (Pbuf.allocatedLink linkHlen p.totLen garbage).len = p.totLen := Nat.mod_eq_of_lt hlt
  have hchain := chain_linked [] (p :: chain)
  simp only [List.nil_append, List.length_nil, List.head?_cons, Option.map_some] at hchain
  have hsnd : ((List.range' 0 (p :: chain).length).zip (p :: chain)).map Prod.snd = p :: chain :=
    List.map_snd_zip (by rw [List.length_range'])
  obtain ⟨e, memory, hcopy, -, hcopied, hfailed⟩ := pbufCopy_single (n := ⟨none, 1, _⟩)
    (read_alloc_self (linked 0 (p :: chain)) (.allocatedLink linkHlen p.totLen garbage)) rfl
    (by simp [Pbuf.allocatedLink]) (Pbuf.within_allocatedLink _ _ _) (hchain.alloc _)
    (fun hmem => absurd (hchain.lt_length _ hmem) (Nat.lt_irrefl _)) (by rwa [hsnd])
  rw [setData_alloc] at hcopy
  rw [hsnd, hlen'] at hcopied hfailed
  refine ⟨e, memory, ?_, fun hone hends => ?_, fun hempty => ?_⟩
  · rw [copyRequest]
    simp only [Option.bind_eq_bind]
    rw [hlen', if_neg (by omega), hcopy, Option.bind_some]
    by_cases he : e ≠ errOk
    · simp only [if_pos he, Option.bind_none]
    · simp only [if_neg he, read_alloc_self, Option.bind_some]
  · have hhead : ∀ p' ∈ (p :: chain).head?, p'.totLen =
        (Pbuf.allocatedLink linkHlen p.totLen garbage).totLen := by
      intro p' hp'
      rw [← Option.some_inj.mp hp']
      exact hlen'.symm
    obtain ⟨he, hover⟩ := hcopied hone hends hhead htotal
    refine ⟨he, ?_⟩
    have hread := read_overwrite hover
    rw [length_contents hwithin, htotal, ← hlen'] at hread
    exact hread
  · have hsize : icmpEchoHdrSize = 8 := rfl
    exact hfailed hempty (by omega) htotal

/-- **Copies.** A request whose chain does not end in an empty pbuf is copied. -/
theorem copyRequest_copies (hwithin : ∀ p' ∈ p :: chain, p'.Within)
    (htotal : total (p :: chain) = p.totLen) (hlt : p.totLen < 65536)
    (hheader : hlen + icmpEchoHdrSize ≤ p.totLen) (hone : NotQueue (p :: chain))
    (hends : EndsFilled (p :: chain)) :
    ∃ r r', copyRequest linkHlen hlen garbage p chain = some r ∧ r.header hlen = some r' ∧
      r'.content = contents (p :: chain) := by
  obtain ⟨e, memory, heq, hcopied, -⟩ := copyRequest_eq linkHlen garbage hwithin htotal hlt
    hheader
  obtain ⟨he, hcontent⟩ := hcopied hone hends
  let r := (Pbuf.allocatedLink linkHlen p.totLen garbage).setMemory memory
  have hlen' : r.len = p.totLen := Nat.mod_eq_of_lt hlt
  have htot' : r.totLen = p.totLen := Nat.mod_eq_of_lt hlt
  have hhide := header_neg (p := r) (n := hlen) (by omega) (by omega) (by omega)
  rw [if_neg (not_not_intro he), hhide] at heq
  refine ⟨_, r, heq, ?_, hcontent⟩
  rw [header_reveal rfl (Nat.le_add_left _ _)]
  · simp only [Nat.add_sub_cancel]
    rw [Nat.sub_add_cancel (show hlen ≤ r.len by omega),
      Nat.sub_add_cancel (show hlen ≤ r.totLen by omega)]
  · show r.len - hlen + hlen < 65536
    omega
  · show r.totLen - hlen + hlen < 65536
    omega

/-- Behind an empty pbuf at the end the copy fails, and so does an assertion. -/
theorem copyRequest_fails (hwithin : ∀ p' ∈ p :: chain, p'.Within)
    (htotal : total (p :: chain) = p.totLen) (hlt : p.totLen < 65536)
    (hheader : hlen + icmpEchoHdrSize ≤ p.totLen) (hempty : ¬ EndsFilled (p :: chain)) :
    copyRequest linkHlen hlen garbage p chain = none := by
  obtain ⟨e, memory, heq, -, hfailed⟩ := copyRequest_eq linkHlen garbage hwithin htotal hlt
    hheader
  rw [heq, if_pos (hfailed hempty)]

end Copy

end WifiMcu.Lwip
