import WifiMcu.Lwip.Etharp

/-!
# Who holds the packets

Every reference to a pbuf belongs to an entry of the table, to the driver or to a caller. The
functions of `etharp.c` keep it so: what they allocate, they free or hand on.
-/

namespace WifiMcu.Lwip

open RefCount

/-- The packets that wait at the entries. -/
def Etharp.queued (a : Etharp) : List ℕ := a.arpTable.flatMap EtharpEntry.q

/-- Every pbuf counts the pointers to it: those of the pbufs in front of it, of the entries and
of the driver, and of the callers, which are the roots here. No packets wait at a stable
entry. -/
structure Owned (a : Etharp) (roots : List ℕ) : Prop where
  counted : Counted a.pbufs (a.queued ++ a.kept ++ roots)
  quiet : ∀ e ∈ a.arpTable, e.state.isStable → e.q = []

/-- An entry that changes leaves the packets at the other ones alone. -/
theorem count_queued_set {t : List EtharpEntry} {i : ℕ} {e : EtharpEntry} (h : t[i]? = some e)
    (e' : EtharpEntry) (j : ℕ) :
    ((t.set i e').flatMap EtharpEntry.q).count j + e.q.count j =
      (t.flatMap EtharpEntry.q).count j + e'.q.count j := by
  obtain ⟨hlt, rfl⟩ := List.getElem?_eq_some_iff.mp h
  have hsplit : t.flatMap EtharpEntry.q = (t.take i).flatMap EtharpEntry.q ++
      (t[i].q ++ (t.drop (i + 1)).flatMap EtharpEntry.q) := by
    nth_rewrite 1 [← List.take_append_drop i t]
    rw [← List.getElem_cons_drop hlt, List.flatMap_append, List.flatMap_cons]
  rw [hsplit, List.set_eq_take_append_cons_drop, if_pos hlt, List.flatMap_append,
    List.flatMap_cons]
  simp only [List.count_append]
  omega

/-- The stable entries stay quiet if the entry that changes is quiet. -/
theorem quiet_set {t : List EtharpEntry} {i : ℕ} {e : EtharpEntry}
    (h : ∀ e ∈ t, e.state.isStable → e.q = []) (he : e.state.isStable → e.q = []) :
    ∀ e' ∈ t.set i e, e'.state.isStable → e'.q = [] := by
  intro e' he'
  rcases List.mem_or_eq_of_mem_set he' with hmem | rfl
  · exact h e' hmem
  · exact he

section Table

variable (changed : List ℕ) {a : Etharp} {roots : List ℕ} {i : ℕ} {e : EtharpEntry}

/-- Another entry in the table, with pointers that move between it and the callers. -/
theorem Owned.set (h : Owned a roots) (he : a.arpTable[i]? = some e) {e' : EtharpEntry}
    {roots' : List ℕ} (hmoved : ∀ j, e'.q.count j + roots'.count j = e.q.count j + roots.count j)
    (hquiet : e'.state.isStable → e'.q = []) :
    Owned { a with arpTable := a.arpTable.set i e' } roots' := by
  refine ⟨h.counted.of_count fun j => ?_, quiet_set h.quiet hquiet⟩
  have hset := count_queued_set he e' j
  have hmove := hmoved j
  simp only [Etharp.queued, List.count_append]
  omega

/-- Freeing packets drops one pointer each. -/
theorem freeEtharpQ_counted {s : Store Pbuf} {ps : List ℕ} (h : Counted s (ps ++ roots)) :
    ∃ s', freeEtharpQ s ps = some s' ∧ Counted s' roots ∧ Extends changed s s' := by
  induction ps generalizing s with
  | nil => exact ⟨s, rfl, h, .refl s⟩
  | cons p ps ih =>
    obtain ⟨s₁, hs₁, hcounted₁, hext₁⟩ := release_counted changed h
    obtain ⟨s₂, hs₂, hcounted₂, hext₂⟩ := ih hcounted₁
    refine ⟨s₂, ?_, hcounted₂, hext₁.trans hext₂⟩
    rw [freeEtharpQ, pbufFree, hs₁]
    exact hs₂

/-- The pbufs of a queue are freed. -/
theorem Owned.freeEtharpQ (ps : List ℕ) (h : Owned a (ps ++ roots)) :
    ∃ s, freeEtharpQ a.pbufs ps = some s ∧ Owned { a with pbufs := s } roots ∧
      Extends changed a.pbufs s := by
  have hcounted : Counted a.pbufs (ps ++ (a.queued ++ a.kept ++ roots)) := by
    refine h.counted.of_count fun j => ?_
    simp only [List.count_append]
    omega
  obtain ⟨s, hs, hcounted', hext⟩ := freeEtharpQ_counted changed hcounted
  exact ⟨s, hs, ⟨hcounted', h.quiet⟩, hext⟩

/-- A pbuf is freed by its owner. -/
theorem Owned.pbufFree {p : ℕ} (h : Owned a (p :: roots)) :
    ∃ s, pbufFree a.pbufs (some p) = some s ∧ Owned { a with pbufs := s } roots ∧
      Extends changed a.pbufs s := by
  obtain ⟨s, hs, howned, hext⟩ := Owned.freeEtharpQ changed [p] h
  refine ⟨s, ?_, howned, hext⟩
  rw [Lwip.freeEtharpQ, Option.bind_eq_some_iff] at hs
  obtain ⟨s', hs', heq⟩ := hs
  rw [hs', ← heq]
  rfl

/-- Freeing an entry drops the pointers to its packets. -/
theorem Owned.freeEntry (h : Owned a roots) (he : a.arpTable[i]? = some e) :
    ∃ a', etharpFreeEntry a i = some a' ∧ Owned a' roots ∧ Extends changed a.pbufs a'.pbufs ∧
      a'.arpTable = a.arpTable.set i { e with q := [], state := .empty } := by
  have hset : Owned { a with arpTable := a.arpTable.set i { e with q := [], state := .empty } }
      (e.q ++ roots) := by
    refine h.set he (fun j => ?_) fun hstable => by cases hstable
    simp only [List.count_nil, List.count_append]
    omega
  obtain ⟨s, hs, howned, hext⟩ := hset.freeEtharpQ changed e.q
  refine ⟨_, ?_, howned, hext, rfl⟩
  rw [etharpFreeEntry, he]
  simp only
  rw [hs]
  rfl

/-- An entry that gets another address keeps its packets. -/
theorem Owned.createEntry (h : Owned a roots) (he : a.arpTable[i]? = some e)
    (ipaddr : BitVec 32) : Owned (a.createEntry i ipaddr) roots ∧
      (a.createEntry i ipaddr).arpTable[i]? = some { e with ipaddr := ipaddr, ctime := 0 } := by
  obtain ⟨hlt, hget⟩ := List.getElem?_eq_some_iff.mp he
  have hmodify : a.arpTable.modify i (fun e => { e with ipaddr := ipaddr, ctime := 0 }) =
      a.arpTable.set i { e with ipaddr := ipaddr, ctime := 0 } := by
    rw [List.modify_eq_set_getElem?, he]
    rfl
  rw [Etharp.createEntry, hmodify]
  refine ⟨h.set he (fun j => rfl) fun hstable => ?_, List.getElem?_set_self hlt⟩
  exact h.quiet e (List.mem_of_getElem? he) hstable

/-- The entry that a search ends with is there, and it and the pbufs are what they have been as
far as they are left. -/
structure Found (changed : List ℕ) (a : Etharp) (roots : List ℕ) (found : Except ℤ ℕ × Etharp) :
    Prop where
  owned : Owned found.2 roots
  ext : Extends changed a.pbufs found.2.pbufs
  entry : ∀ i, found.1 = .ok i → ∃ e, found.2.arpTable[i]? = some e

/-- An entry that is recycled frees its queue. -/
theorem Owned.recycle (h : Owned a roots) (he : a.arpTable[i]? = some e) (ipaddr : BitVec 32) :
    ∃ found, a.recycle i ipaddr = some found ∧ Found changed a roots found := by
  obtain ⟨a', ha', howned, hext, htable⟩ := h.freeEntry changed he
  obtain ⟨hlt, -⟩ := List.getElem?_eq_some_iff.mp he
  have he' : a'.arpTable[i]? = some { e with q := [], state := .empty } := by
    rw [htable, List.getElem?_set_self hlt]
  obtain ⟨hcreated, hentry⟩ := howned.createEntry he' ipaddr
  refine ⟨_, by rw [Etharp.recycle, ha', Option.map_some], hcreated, hext, fun j hj => ?_⟩
  obtain rfl := Except.ok.inj hj
  exact ⟨_, hentry⟩

/-- The entries that the search remembers are there, and the stable one is stable. -/
structure Candidates.Valid (t : List EtharpEntry) (c : Candidates) : Prop where
  empty : ∀ i ∈ c.empty, ∃ e, t[i]? = some e
  oldStable : ∀ i ∈ c.oldStable, ∃ e, t[i]? = some e ∧ e.state.isStable
  oldPending : ∀ i ∈ c.oldPending, ∃ e, t[i]? = some e
  oldQueue : ∀ i ∈ c.oldQueue, ∃ e, t[i]? = some e

/-- There are no candidates at first. -/
theorem Candidates.valid_init (t : List EtharpEntry) : Candidates.init.Valid t := by
  constructor <;> intro i hi <;> cases hi

/-- An entry of the table may become a candidate. -/
theorem Candidates.Valid.see {t : List EtharpEntry} {c : Candidates} (h : c.Valid t)
    (he : t[i]? = some e) : (c.see i e).Valid t := by
  have hself : ∀ j ∈ some i, ∃ e, t[j]? = some e := by
    intro j hj
    obtain rfl := Option.some_inj.mp hj
    exact ⟨e, he⟩
  have hstable : e.state.isStable → ∀ j ∈ some i, ∃ e, t[j]? = some e ∧ e.state.isStable := by
    intro hs j hj
    obtain rfl := Option.some_inj.mp hj
    exact ⟨e, he, hs⟩
  rw [Candidates.see]
  split
  · split_ifs
    · exact ⟨hself, h.oldStable, h.oldPending, h.oldQueue⟩
    · exact h
  · split_ifs
    · exact ⟨h.empty, h.oldStable, h.oldPending, hself⟩
    · exact h
    · exact ⟨h.empty, h.oldStable, hself, h.oldQueue⟩
    · exact h
  all_goals
    rename_i heq
    split_ifs
    · exact ⟨h.empty, hstable (by rw [heq]; rfl), h.oldPending, h.oldQueue⟩
    · exact h

/-- The search finds an entry for the address, or else remembers entries that are there. -/
theorem sweep_valid (ipaddr : BitVec 32) {t es : List EtharpEntry} {c : Candidates}
    (hes : t.drop i = es) (hc : c.Valid t) :
    (∃ j e, sweep ipaddr es i c = .inl j ∧ t[j]? = some e) ∨
      ∃ c', sweep ipaddr es i c = .inr c' ∧ c'.Valid t := by
  induction es generalizing i c with
  | nil => exact .inr ⟨c, rfl, hc⟩
  | cons e es ih =>
    have he : t[i]? = some e := by
      have hhead := congrArg List.head? hes
      rwa [List.head?_drop] at hhead
    rw [sweep]
    split_ifs
    · exact .inl ⟨i, e, rfl, he⟩
    · refine ih ?_ (hc.see he)
      rw [← List.tail_drop, hes, List.tail_cons]

/-- `find_entry` returns an entry of the table or an error. -/
theorem Owned.findEntry (h : Owned a roots) (ipaddr : BitVec 32) (flags : BitVec 8) :
    ∃ found, etharpFindEntry a ipaddr flags = some found ∧ Found changed a roots found := by
  rw [etharpFindEntry]
  rcases sweep_valid ipaddr (i := 0) List.drop_zero (Candidates.valid_init _) with
    ⟨j, e, hsweep, he⟩ | ⟨c, hsweep, hc⟩
  · rw [hsweep]
    refine ⟨_, rfl, h, .refl _, fun i hi => ?_⟩
    obtain rfl := Except.ok.inj hi
    exact ⟨e, he⟩
  · rw [hsweep]
    simp only
    have hnone : Found changed a roots (.error errMem, a) :=
      ⟨h, .refl _, fun i hi => by cases hi⟩
    split_ifs
    · exact ⟨_, rfl, hnone⟩
    · cases hempty : c.empty with
      | some i =>
        obtain ⟨e, he⟩ := hc.empty i hempty
        obtain ⟨hcreated, hentry⟩ := h.createEntry he ipaddr
        refine ⟨_, rfl, hcreated, .refl _, fun j hj => ?_⟩
        obtain rfl := Except.ok.inj hj
        exact ⟨_, hentry⟩
      | none =>
        cases hstable : c.oldStable with
        | some i =>
          obtain ⟨e, he, hs⟩ := hc.oldStable i hstable
          have hquiet := h.quiet e (List.mem_of_getElem? he) hs
          simp only
          rw [if_neg (by simp [he, hquiet])]
          exact h.recycle changed he ipaddr
        | none =>
          cases hpending : c.oldPending with
          | some i =>
            obtain ⟨e, he⟩ := hc.oldPending i hpending
            exact h.recycle changed he ipaddr
          | none =>
            cases hqueue : c.oldQueue with
            | some i =>
              obtain ⟨e, he⟩ := hc.oldQueue i hqueue
              exact h.recycle changed he ipaddr
            | none => exact ⟨_, rfl, hnone⟩

end Table

/-! ## Sending -/

section Sending

variable (changed : List ℕ) (netif : Netif) {a : Etharp} {roots : List ℕ} {p : ℕ}

/-- Bytes are written to a pbuf without changing who owns it. -/
theorem Owned.put {n : Node Pbuf} {data : Pbuf} {bytes : List UInt8} (h : Owned a roots)
    (hn : read a.pbufs p = some n) (hput : n.data.put 0 bytes = some data) :
    a.put p bytes = some { a with pbufs := setData a.pbufs p data } ∧
      Owned { a with pbufs := setData a.pbufs p data } roots := by
  refine ⟨?_, h.counted.setData hn data, h.quiet⟩
  rw [Etharp.put, hn, Option.bind_some, hput]
  rfl

/-- The driver changes the pbuf that it sends, and counts the references that it keeps. -/
theorem Owned.linkoutput {n : Node Pbuf} (h : Owned a roots) (hn : read a.pbufs p = some n) :
    ∃ result a', a.linkoutput netif p = some (result, a') ∧ Owned a' roots ∧
      a'.arpTable = a.arpTable ∧
      ∀ s, Extends changed s a.pbufs → (p < s.length → p ∈ changed) →
        Extends changed s a'.pbufs := by
  have hn' := read_setData_self hn (netif.linkoutput a.pbufs p).pbuf
  refine ⟨(netif.linkoutput a.pbufs p).result, { a with
    pbufs := retain (setData a.pbufs p (netif.linkoutput a.pbufs p).pbuf) p
      (netif.linkoutput a.pbufs p).references
    kept := List.replicate (netif.linkoutput a.pbufs p).references p ++ a.kept },
    by rw [Etharp.linkoutput, hn], ⟨?_, h.quiet⟩, rfl, fun s hext hp => ?_⟩
  · refine ((h.counted.setData hn _).retain hn' _).of_count fun j => ?_
    simp only [Etharp.queued, List.count_append]
    omega
  · exact (hext.setData hn hp _).retain hn' _

/-- A pbuf with a number of bytes of payload, behind the room for the headers. -/
def Pbuf.shifted (length space : ℕ) (garbage : ℕ → UInt8) : Pbuf :=
  { Pbuf.allocated (length + space) garbage with
    payload := space, totLen := length, len := length }

/-- The payload behind the room for the headers lies in the block. -/
theorem Pbuf.within_shifted {length space : ℕ} (garbage : ℕ → UInt8)
    (h : length + space < 65536) : (Pbuf.shifted length space garbage).Within := by
  simp only [Pbuf.Within, Pbuf.shifted, Pbuf.allocated, List.length_map, List.length_range,
    memAlignSize]
  omega

/-- The room for the headers is what `pbuf_header` takes away from a new pbuf. -/
theorem header_allocated {length space : ℕ} (garbage : ℕ → UInt8) (hspace : space ≤ 32767)
    (h : length + space < 65536) :
    (Pbuf.allocated (length + space) garbage).header (s16 (-space)) =
      some (Pbuf.shifted length space garbage) := by
  have hlen : (length + space) % 65536 = length + space := Nat.mod_eq_of_lt h
  have hheader := header_neg (p := Pbuf.allocated (length + space) garbage) (n := space)
    (by rw [Pbuf.allocated, hlen]; exact Nat.le_add_left _ _) (Nat.le_refl _)
    (Nat.mod_lt _ (by decide))
  rw [s16_eq (by omega) (by omega), hheader, Pbuf.shifted]
  simp only [Pbuf.allocated, hlen, Nat.zero_add, Nat.add_sub_cancel]

/-- The room for the headers is taken from the new pbuf in the store. -/
theorem pbufHeader_allocated {s : Store Pbuf} {length space : ℕ} (garbage : ℕ → UInt8)
    (hspace : space ≤ 32767) (h : length + space < 65536) :
    pbufHeader (alloc s (.allocated (length + space) garbage)) s.length (s16 (-space)) =
      some (0, alloc s (.shifted length space garbage)) := by
  rw [pbufHeader, read_alloc_self, Option.map_some, header_allocated garbage hspace h]
  simp only
  rw [setData_alloc]

/-- What is no longer than the payload can be written to it. -/
theorem put_of_within {data : Pbuf} (bytes : List UInt8) (htype : data.type ≠ .rom)
    (h : data.Within) (hlength : bytes.length ≤ data.len) :
    ∃ data', data.put 0 bytes = some data' := by
  rw [Pbuf.Within] at h
  rw [Pbuf.put, if_neg htype, overwrite_eq (by omega)]
  exact ⟨_, rfl⟩

/-- A new pbuf belongs to its creator. -/
theorem Owned.alloc (h : Owned a roots) (data : Pbuf) :
    Owned { a with pbufs := alloc a.pbufs data } (a.pbufs.length :: roots) := by
  refine ⟨(h.counted.alloc data).of_count fun j => ?_, h.quiet⟩
  simp only [Etharp.queued, List.count_append, List.count_cons]
  omega

/-- An ARP packet has the length that is allocated for it. -/
theorem length_etharpPacket (d : Addresses) (opcode : ℕ) :
    (etharpPacket d opcode).length = sizeofEtharpPacket := by
  simp [etharpPacket, ethHdr, htonsBytes, ipBytes, sizeofEtharpPacket]

/-- `etharp_raw` returns, and frees the pbuf that it allocates. -/
theorem Owned.etharpRaw {cfg : Config} (hspace : cfg.subEthernetHeaderSpace ≤ 32767)
    (h : Owned a roots) (d : Addresses) (opcode : ℕ) (mem : Option (ℕ → UInt8)) :
    ∃ result a', etharpRaw cfg netif a d opcode mem = some (result, a') ∧ Owned a' roots ∧
      a'.arpTable = a.arpTable ∧ Extends changed a.pbufs a'.pbufs := by
  rw [Lwip.etharpRaw]
  cases mem with
  | none => exact ⟨errMem, a, rfl, h, rfl, .refl _⟩
  | some garbage =>
    have hsum : sizeofEtharpPacket + cfg.subEthernetHeaderSpace < 65536 := by
      simp only [sizeofEtharpPacket]
      omega
    have hshifted := h.alloc (.shifted sizeofEtharpPacket cfg.subEthernetHeaderSpace garbage)
    have hread := read_alloc_self a.pbufs
      (.shifted sizeofEtharpPacket cfg.subEthernetHeaderSpace garbage)
    rw [pbufAlloc]
    simp only
    rw [pbufHeader_allocated garbage hspace hsum]
    have hlen : pbufLen (RefCount.alloc a.pbufs
        (.shifted sizeofEtharpPacket cfg.subEthernetHeaderSpace garbage)) a.pbufs.length =
          sizeofEtharpPacket := by
      rw [pbufLen, hread]
      rfl
    obtain ⟨data, hput⟩ := put_of_within (etharpPacket d opcode) (by simp [Pbuf.shifted,
      Pbuf.allocated]) (Pbuf.within_shifted garbage hsum)
      (Nat.le_of_eq (length_etharpPacket d opcode))
    obtain ⟨hwritten, howned⟩ := hshifted.put hread hput
    obtain ⟨result, a', hsent, howned', htable, hext⟩ := howned.linkoutput changed
      netif (read_setData_self hread data)
    obtain ⟨s, hs, hfreed, hext'⟩ := howned'.pbufFree changed
    refine ⟨result, _, ?_, hfreed, htable, Extends.trans (hext a.pbufs ?_ ?_) hext'⟩
    · simp only [ne_eq, not_true_eq_false, if_false]
      rw [if_neg (by rw [hlen]; exact Nat.lt_irrefl _), hwritten]
      simp only [Option.bind_eq_bind, Option.bind_some]
      rw [hsent]
      simp only [Option.bind_some]
      rw [hs]
      rfl
    · exact ((Extends.refl _).alloc _).setData hread (fun hlt => absurd hlt (Nat.lt_irrefl _)) _
    · exact fun hlt => absurd hlt (Nat.lt_irrefl _)

end Sending

end WifiMcu.Lwip
