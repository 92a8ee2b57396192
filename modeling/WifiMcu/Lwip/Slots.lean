import WifiMcu.Lwip.Removal

/-!
# The entry of a fragment

A fragment is refused, perhaps after old datagrams have been removed, or it goes to the entry of
its datagram, which is a new one if there is none. Both this and the timer keep the list in
order, within the limits.
-/

namespace WifiMcu.Lwip

open WifiMcu.System

/-! ## One fragment -/

/-- The entry that gets a fragment: the one of its datagram, or a new one in front. -/
inductive Slot (t : Reass) (p : Datagram) (newer older : List IpReassdata) : IpReassdata → Prop
  | found (r : IpReassdata) (hlist : t.reassdatagrams = newer ++ r :: older)
      (hkey : r.iphdr.key = p.hdr.key) : Slot t p newer older (r.keepHeader p)
  | started (hnewer : newer = []) (holder : t.reassdatagrams = older)
      (hfresh : ∀ r ∈ older, r.iphdr.key ≠ p.hdr.key) (hlen : older.length < mempNumReassdata) :
      Slot t p newer older (.started p)

/-- The state after an entry has got a fragment. -/
def Accepted.state (a : Accepted) (newer older : List IpReassdata) (count clen : ℕ) : Reass :=
  ⟨newer ++ a.entry.toList ++ older,
    match a with
    | .dropped _ => count
    | .queued _ => count + clen
    | .complete d => count + clen - d.clen⟩

/-- The entries after an entry has got a fragment. -/
@[simp] theorem Accepted.state_reassdatagrams (a : Accepted) (newer older : List IpReassdata)
    (count clen : ℕ) :
    (a.state newer older count clen).reassdatagrams = newer ++ a.entry.toList ++ older := rfl

/-- The entry at a position gets a fragment. -/
theorem acceptAt_eq {s : Reass} {newer older : List IpReassdata} {r ipr : IpReassdata}
    (hlist : s.reassdatagrams = newer ++ r :: older) (p : Datagram) :
    acceptAt s newer.length ipr p = (ipr.accept p).map fun a =>
      (a.delivered, a.state newer older s.pbufcount p.clen) := by
  rw [acceptAt]
  congr 1
  funext a
  cases a <;> simp [Accepted.delivered, Accepted.state, Accepted.entry, hlist,
    List.eraseIdx_append_of_length_le]

/-- The position of the first entry of a datagram. -/
theorem findIdx?_split {key : BitVec 32 × BitVec 32 × BitVec 16} {rs : List IpReassdata} {i : ℕ}
    (h : rs.findIdx? (fun r => r.iphdr.key = key) = some i) :
    ∃ newer r older, rs = newer ++ r :: older ∧ newer.length = i ∧ r.iphdr.key = key := by
  obtain ⟨hi, hkey, -⟩ := List.findIdx?_eq_some_iff_getElem.mp h
  refine ⟨rs.take i, rs[i], rs.drop (i + 1), ?_, List.length_take_of_le hi.le, by simpa using hkey⟩
  rw [List.getElem_cons_drop, List.take_append_drop]

/-- Room is made by removing entries at the end. -/
theorem Reass.Wf.makeRoom {s t : Reass} {p : Datagram} {room : Bool} (hs : s.Wf)
    (h : s.makeRoom p = some (room, t)) :
    s.Shed t ∧ (room = true → t.pbufcount + p.clen ≤ ipReassMaxPbufs) := by
  rw [Reass.makeRoom] at h
  split_ifs at h with hover
  · obtain ⟨⟨freed, u⟩, hremove, h⟩ := Option.bind_eq_some_iff.mp h
    obtain ⟨rfl, rfl⟩ := Prod.mk.inj (Option.some.inj h)
    refine ⟨(removeOldestDatagram_shed hs hremove).1, ?_⟩
    intro hroom
    simp only [Bool.and_eq_true, decide_eq_true_eq] at hroom
    exact hroom.2
  · obtain ⟨rfl, rfl⟩ := Prod.mk.inj (Option.some.inj h)
    exact ⟨hs.shed, fun _ => by omega⟩

/-- A new entry is put in front, after entries have been removed at the end if there was none
left. -/
theorem Reass.Wf.enqueueNewDatagram {s t : Reass} {p : Datagram} {enqueued : Bool} (hs : s.Wf)
    (h : enqueueNewDatagram s p = some (enqueued, t)) :
    (enqueued = false ∧ s.Shed t) ∨ enqueued = true ∧
      ∃ u, s.Shed u ∧ u.reassdatagrams.length < mempNumReassdata ∧ t = u.enqueue p := by
  rw [WifiMcu.Lwip.enqueueNewDatagram] at h
  split_ifs at h with hcan
  · obtain ⟨rfl, rfl⟩ := Prod.mk.inj (Option.some.inj h)
    exact Or.inr ⟨rfl, s, hs.shed, by simpa [Reass.canEnqueue] using hcan, rfl⟩
  · obtain ⟨⟨freed, u⟩, hremove, h⟩ := Option.bind_eq_some_iff.mp h
    have hshed := (removeOldestDatagram_shed hs hremove).1
    dsimp only at h
    split_ifs at h with hfreed
    · obtain ⟨rfl, rfl⟩ := Prod.mk.inj (Option.some.inj h)
      exact Or.inr ⟨rfl, u, hshed, by simpa [Reass.canEnqueue] using hfreed.2, rfl⟩
    · obtain ⟨rfl, rfl⟩ := Prod.mk.inj (Option.some.inj h)
      exact Or.inl ⟨rfl, hshed⟩

/-- There is room for a fragment, and for an entry if its datagram has none. -/
structure Reass.Fits (s : Reass) (p : Datagram) : Prop where
  pbufs : s.pbufcount + p.clen ≤ ipReassMaxPbufs
  entry : (∀ r ∈ s.reassdatagrams, r.iphdr.key ≠ p.hdr.key) →
    s.reassdatagrams.length < mempNumReassdata

/-- Where there is room, none has to be made. -/
theorem Reass.Fits.makeRoom {s : Reass} {p : Datagram} (h : s.Fits p) :
    s.makeRoom p = some (true, s) := by
  rw [Reass.makeRoom, if_neg (by have := h.pbufs; omega)]

/-- Where there is room, the new entry is put in front of all the others. -/
theorem Reass.Fits.enqueueNewDatagram {s : Reass} {p : Datagram} (h : s.Fits p)
    (hfresh : ∀ r ∈ s.reassdatagrams, r.iphdr.key ≠ p.hdr.key) :
    WifiMcu.Lwip.enqueueNewDatagram s p = some (true, s.enqueue p) := by
  rw [WifiMcu.Lwip.enqueueNewDatagram, if_pos]
  simpa [Reass.canEnqueue] using h.entry hfresh

/-- **What `ip_reass` does.** The fragment is refused, perhaps after entries have been removed at
the end, or the entry of its datagram gets it. Nothing is removed where there is room. -/
theorem ipReass_cases {s s' : Reass} {p : Datagram} {d : Option Datagram} (hs : s.Wf)
    (h : ipReass s p = some (d, s')) :
    (d = none ∧ s.Shed s' ∧ (s.Fits p → p.hdr.hl * 4 ≠ ipHlen ∧ s' = s)) ∨
      ∃ t newer older ipr a, s.Shed t ∧ (s.Fits p → t = s) ∧
        t.pbufcount + p.clen ≤ ipReassMaxPbufs ∧ Slot t p newer older ipr ∧
        ipr.accept p = some a ∧ d = a.delivered ∧ s' = a.state newer older t.pbufcount p.clen := by
  rw [ipReass] at h
  split_ifs at h with hhl
  · obtain ⟨rfl, rfl⟩ := Prod.mk.inj (Option.some.inj h)
    exact Or.inl ⟨rfl, hs.shed, fun _ => ⟨hhl, rfl⟩⟩
  · obtain ⟨⟨room, t⟩, hroom, h⟩ := Option.bind_eq_some_iff.mp h
    obtain ⟨hshed, hmade⟩ := hs.makeRoom hroom
    have hsame : s.Fits p → room = true ∧ t = s := by
      intro hfits
      have hmake := hroom.symm.trans hfits.makeRoom
      exact Prod.mk.inj (Option.some.inj hmake)
    dsimp only at h
    split_ifs at h with hno
    · obtain ⟨rfl, rfl⟩ := Prod.mk.inj (Option.some.inj h)
      exact Or.inl ⟨rfl, hshed, fun hfits => by simp [(hsame hfits).1] at hno⟩
    · have hmade := hmade (by simpa using hno)
      cases hfind : t.reassdatagrams.findIdx? (fun r => r.iphdr.key = p.hdr.key) with
      | some i =>
        obtain ⟨newer, r, older, hlist, rfl, hkey⟩ := findIdx?_split hfind
        have hget : t.reassdatagrams[newer.length]? = some r := by simp [hlist]
        rw [hfind] at h
        simp only [hget] at h
        rw [acceptAt_eq hlist] at h
        obtain ⟨a, ha, h⟩ := Option.map_eq_some_iff.mp h
        obtain ⟨rfl, rfl⟩ := Prod.mk.inj h
        exact Or.inr ⟨t, newer, older, _, a, hshed, fun hfits => (hsame hfits).2, hmade,
          .found r hlist hkey, ha, rfl, rfl⟩
      | none =>
        have hfresh : ∀ r ∈ t.reassdatagrams, r.iphdr.key ≠ p.hdr.key := by
          intro r hr
          simpa using List.findIdx?_eq_none_iff.mp hfind r hr
        rw [hfind] at h
        obtain ⟨⟨enqueued, u⟩, henqueue, h⟩ := Option.bind_eq_some_iff.mp h
        have hfront : s.Fits p → enqueued = true ∧ u = s.enqueue p := by
          intro hfits
          obtain ⟨-, rfl⟩ := hsame hfits
          have hfront := henqueue.symm.trans (hfits.enqueueNewDatagram hfresh)
          exact Prod.mk.inj (Option.some.inj hfront)
        obtain ⟨rfl, hshed'⟩ | ⟨rfl, v, hshed', hlen, rfl⟩ := hshed.wf.enqueueNewDatagram henqueue
        · obtain ⟨rfl, rfl⟩ := Prod.mk.inj (Option.some.inj h)
          exact Or.inl ⟨rfl, hshed.trans hshed', fun hfits => by simpa using (hfront hfits).1⟩
        · have hget : acceptAt (v.enqueue p) ([] : List IpReassdata).length (.started p) p =
              some (d, s') := h
          rw [@acceptAt_eq (v.enqueue p) [] v.reassdatagrams (.started p) _ rfl] at hget
          obtain ⟨a, ha, h⟩ := Option.map_eq_some_iff.mp hget
          obtain ⟨rfl, rfl⟩ := Prod.mk.inj h
          refine Or.inr ⟨v, [], v.reassdatagrams, _, a, hshed.trans hshed', ?_, ?_,
            .started rfl rfl ?_ hlen, ha, rfl, rfl⟩
          · intro hfits
            have hsame := (hfront hfits).2
            simp only [Reass.enqueue, Reass.mk.injEq, List.cons.injEq, true_and] at hsame
            exact Reass.ext hsame.1 hsame.2
          · have hcount := hshed'.count
            omega
          · exact fun r hr => hfresh r (hshed'.kept.subset hr)

/-! ## The invariant -/

/-- The header that is kept has the addresses and the identification of the fragment. -/
theorem IpReassdata.keepHeader_key {r : IpReassdata} {p : Datagram}
    (h : r.iphdr.key = p.hdr.key) : (r.keepHeader p).iphdr.key = p.hdr.key := by
  rw [IpReassdata.keepHeader]
  split_ifs
  · rfl
  · exact h

/-- Only the header changes. -/
theorem IpReassdata.keepHeader_p (r : IpReassdata) (p : Datagram) : (r.keepHeader p).p = r.p := by
  rw [IpReassdata.keepHeader]
  split_ifs <;> rfl

@[inherit_doc IpReassdata.keepHeader_p] theorem IpReassdata.keepHeader_timer (r : IpReassdata)
    (p : Datagram) : (r.keepHeader p).timer = r.timer := by
  rw [IpReassdata.keepHeader]
  split_ifs <;> rfl

/-- The entry of a slot is one of the fragment's datagram. -/
theorem Slot.key {t : Reass} {p : Datagram} {newer older : List IpReassdata} {ipr : IpReassdata}
    (h : Slot t p newer older ipr) : ipr.iphdr.key = p.hdr.key := by
  cases h with
  | found r hlist hkey => exact IpReassdata.keepHeader_key hkey
  | started => rfl

/-- The entry of a slot is in order. -/
theorem Slot.wf {t : Reass} {p : Datagram} {newer older : List IpReassdata} {ipr : IpReassdata}
    (ht : t.Wf) (h : Slot t p newer older ipr) : ipr.Wf := by
  cases h with
  | found r hlist hkey =>
    obtain ⟨hascending, howned, htimer⟩ := ht.entries.wf r (by simp [hlist])
    refine ⟨?_, ?_, ?_⟩
    · rw [IpReassdata.keepHeader_p]
      exact hascending
    · rw [IpReassdata.keepHeader_p, IpReassdata.keepHeader_key hkey, ← hkey]
      exact howned
    · rw [IpReassdata.keepHeader_timer]
      exact htimer
  | started => exact ⟨List.Pairwise.nil, by simp [IpReassdata.started], le_rfl⟩

/-- The pbufs of a slot and of the entries around it. -/
theorem Slot.count {t : Reass} {p : Datagram} {newer older : List IpReassdata} {ipr : IpReassdata}
    (ht : t.Wf) (h : Slot t p newer older ipr) :
    t.pbufcount = pbufs newer + pbufClen ipr.p + pbufs older := by
  rw [ht.count]
  cases h with
  | found r hlist hkey =>
    rw [hlist, IpReassdata.keepHeader_p]
    simp [pbufs, Nat.add_assoc]
  | started hnewer holder => simp [hnewer, holder, pbufs, IpReassdata.started, pbufClen]

/-- The entries around a slot are in order. -/
theorem Slot.rest {t : Reass} {p : Datagram} {newer older : List IpReassdata} {ipr : IpReassdata}
    (ht : t.Wf) (h : Slot t p newer older ipr) : Entries (newer ++ older) := by
  cases h with
  | found r hlist hkey =>
    refine ht.entries.sublist ?_
    rw [hlist]
    exact (List.sublist_cons_self _ _).append_left _
  | started hnewer holder =>
    rw [hnewer, List.nil_append, ← holder]
    exact ht.entries

/-- The entries are in order with any entry of the same datagram and age in the slot. -/
theorem Slot.entries {t : Reass} {p : Datagram} {newer older : List IpReassdata}
    {ipr r : IpReassdata} (ht : t.Wf) (h : Slot t p newer older ipr) (hr : r.Wf)
    (hqueued : r.p ≠ []) (hkey : r.iphdr.key = p.hdr.key) (htimer : r.timer = ipr.timer) :
    Entries (newer ++ r :: older) := by
  have hrest := h.rest ht
  have hmem : ∀ r' ∈ newer ++ r :: older, r' = r ∨ r' ∈ newer ++ older := by
    intro r' hr'
    simpa [or_left_comm] using hr'
  have hwf : ∀ r' ∈ newer ++ r :: older, r'.Wf ∧ r'.p ≠ [] := by
    intro r' hr'
    obtain rfl | hr' := hmem r' hr'
    · exact ⟨hr, hqueued⟩
    · exact ⟨hrest.wf r' hr', hrest.queued r' hr'⟩
  cases h with
  | found r₀ hlist hkey₀ =>
    have hentries := ht.entries
    rw [hlist] at hentries
    obtain ⟨-, -, hkeys, hages, hlength⟩ := hentries
    rw [IpReassdata.keepHeader_timer] at htimer
    refine ⟨fun r' hr' => (hwf r' hr').1, fun r' hr' => (hwf r' hr').2, ?_, ?_, ?_⟩
    · simpa [hkey₀, hkey] using hkeys
    · simpa [htimer] using hages
    · simpa using hlength
  | started hnewer holder hfresh hlen =>
    subst hnewer
    refine ⟨fun r' hr' => (hwf r' hr').1, fun r' hr' => (hwf r' hr').2, ?_, ?_, hlen⟩
    · rw [List.nil_append, List.map_cons, List.nodup_cons]
      refine ⟨?_, hrest.keys⟩
      intro hmem
      obtain ⟨r', hr', hsame⟩ := List.mem_map.mp hmem
      exact hfresh r' hr' (hsame.trans hkey)
    · rw [List.nil_append, List.map_cons, List.pairwise_cons]
      refine ⟨?_, hrest.ages⟩
      intro timer hmem
      obtain ⟨r', hr', rfl⟩ := List.mem_map.mp hmem
      rw [htimer]
      exact (hrest.wf r' hr').timer

/-- The pbufs of a queue with a fragment more. -/
theorem pbufClen_between (before after : List Datagram) (p : Datagram) :
    pbufClen (before ++ p :: after) = pbufClen (before ++ after) + p.clen := by
  simp only [pbufClen, List.map_append, List.map_cons, List.sum_append, List.sum_cons]
  omega

/-- An entry with a fragment more is in order. -/
theorem IpReassdata.Wf.between {ipr : IpReassdata} {p : Datagram} (h : ipr.Wf)
    (hkey : ipr.iphdr.key = p.hdr.key) {before after : List Datagram}
    (happend : before ++ after = ipr.p) (hbefore : ∀ q ∈ before, q.start < p.start)
    (hafter : ∀ q ∈ after.head?, p.start < q.start) :
    ({ ipr.note p with p := before ++ p :: after } : IpReassdata).Wf where
  ascending := Ascending.between (happend ▸ h.ascending) hbefore hafter
  owned q hq := by
    have hq : q = p ∨ q ∈ ipr.p := by
      rw [← happend]
      simpa [or_left_comm] using hq
    obtain rfl | hq := hq
    · exact hkey.symm
    · exact h.owned q hq
  timer := h.timer

/-- The state stays in order when an entry gets a fragment. -/
theorem Slot.state_wf {t : Reass} {p : Datagram} {newer older : List IpReassdata}
    {ipr : IpReassdata} {a : Accepted} (ht : t.Wf) (h : Slot t p newer older ipr)
    (hroom : t.pbufcount + p.clen ≤ ipReassMaxPbufs) (ha : ipr.accept p = some a) :
    (a.state newer older t.pbufcount p.clen).Wf := by
  have hcount := h.count ht
  have hwf := h.wf ht
  obtain ⟨rfl, q, hq, -⟩ | ⟨before, after, happend, hbefore, hafter, rfl | ⟨rfl, hfull⟩⟩ :=
    IpReassdata.accept_cases ha
  · have hqueued : ipr.p ≠ [] := List.ne_nil_of_mem hq
    refine ⟨?_, ?_, by change t.pbufcount ≤ _; omega⟩
    · rw [Accepted.state, Accepted.entry, Option.toList_some, List.append_assoc,
        List.singleton_append]
      exact h.entries ht ⟨hwf.ascending, hwf.owned, hwf.timer⟩ hqueued h.key rfl
    · simp only [Accepted.state, Accepted.entry, Option.toList_some, pbufs_append]
      simp only [hcount, pbufs, List.map_cons, List.map_nil, List.sum_cons, List.sum_nil,
        Nat.add_zero, IpReassdata.note]
  · refine ⟨?_, ?_, hroom⟩
    · rw [Accepted.state, Accepted.entry, Option.toList_some, List.append_assoc,
        List.singleton_append]
      exact h.entries ht (hwf.between h.key happend hbefore hafter) (by simp) h.key rfl
    · simp only [Accepted.state, Accepted.entry, Option.toList_some, pbufs_append]
      rw [pbufs, pbufs, pbufs, List.map_singleton, List.sum_singleton, pbufClen_between, happend,
        hcount, pbufs, pbufs]
      omega
  · have hclen : ((ipr.note p).datagram (before ++ p :: after)).clen = pbufClen ipr.p + p.clen := by
      have hmax : ipReassMaxPbufs = 5 := rfl
      show pbufClen (before ++ p :: after) % 256 = _
      rw [pbufClen_between, happend]
      exact Nat.mod_eq_of_lt (by omega)
    refine ⟨?_, ?_, ?_⟩
    · rw [Accepted.state, Accepted.entry, Option.toList_none, List.append_nil]
      exact h.rest ht
    · simp only [Accepted.state, Accepted.entry, Option.toList_none, List.append_nil, pbufs_append,
        hclen]
      omega
    · simp only [Accepted.state, hclen]
      omega

/-- A fragment keeps the state in order. -/
theorem Reass.Wf.ipReass {s s' : Reass} {p : Datagram} {d : Option Datagram} (hs : s.Wf)
    (h : ipReass s p = some (d, s')) : s'.Wf := by
  obtain ⟨-, hshed, -⟩ | ⟨t, newer, older, ipr, a, hshed, -, hroom, hslot, ha, -, rfl⟩ :=
    ipReass_cases hs h
  · exact hshed.wf
  · exact hslot.state_wf hshed.wf hroom ha

/-! ## The timer -/

/-- The entry a tick later. -/
def IpReassdata.tick (r : IpReassdata) : IpReassdata := { r with timer := r.timer - 1 }

/-- A tick keeps the header. -/
@[simp] theorem IpReassdata.tick_iphdr (r : IpReassdata) : r.tick.iphdr = r.iphdr := rfl

/-- The entries that a tick keeps. -/
def live (rs : List IpReassdata) : List IpReassdata := rs.filter fun r => 0 < r.timer

/-- The entries that a tick frees. -/
def expired (rs : List IpReassdata) : List IpReassdata := rs.filter fun r => r.timer = 0

/-- An entry is live or expired. -/
theorem pbufs_live_add_expired (rs : List IpReassdata) :
    pbufs (live rs) + pbufs (expired rs) = pbufs rs := by
  induction rs with
  | nil => simp [live, expired, pbufs]
  | cons r rs ih =>
    simp only [live, expired, pbufs] at ih ⊢
    obtain htimer | htimer := Nat.eq_zero_or_pos r.timer
    · simp only [List.filter_cons, htimer, lt_irrefl, decide_true, decide_false, if_true, if_false,
        List.map_cons, List.sum_cons, Bool.false_eq_true]
      omega
    · simp only [List.filter_cons, htimer, htimer.ne', decide_true, decide_false, if_true,
        if_false, List.map_cons, List.sum_cons, Bool.false_eq_true]
      omega

/-- The loop of the timer frees the entries whose time is over and never fails. -/
theorem ipReassTmrLoop_eq {rs : List IpReassdata} (kept : List IpReassdata) {count : ℕ}
    (hqueued : ∀ r ∈ rs, r.p ≠ []) (hcount : pbufs rs ≤ count) :
    ipReassTmrLoop kept count rs =
      some ⟨kept ++ (live rs).map .tick, count - pbufs (expired rs)⟩ := by
  induction rs generalizing kept count with
  | nil => simp [ipReassTmrLoop, live, expired, pbufs]
  | cons r rs ih =>
    have hrest : ∀ r ∈ rs, r.p ≠ [] := fun r' hr' => hqueued r' (List.mem_cons_of_mem _ hr')
    have hsum : pbufs (r :: rs) = pbufClen r.p + pbufs rs := by simp [pbufs]
    rw [ipReassTmrLoop]
    by_cases htimer : r.timer > 0
    · rw [if_pos htimer, ih _ hrest (by omega)]
      simp [live, expired, htimer, htimer.ne', IpReassdata.tick]
    · have hfree : freeCompleteDatagram ⟨kept ++ r :: rs, count⟩ kept.length
          (if kept = [] then none else some (kept.length - 1)) =
            some (pbufClen r.p, ⟨kept ++ rs, count - pbufClen r.p⟩) := by
        have hget : (kept ++ r :: rs)[kept.length]? = some r := by simp
        have hprev : (if kept = [] then none else some (kept.length - 1)) = none ∧
            kept.length = 0 ∨
            (if kept = [] then none else some (kept.length - 1)).map (· + 1) =
              some kept.length := by
          by_cases hnil : kept = []
          · exact Or.inl ⟨if_pos hnil, by simp [hnil]⟩
          · have hpos := List.length_pos_iff.mpr hnil
            right
            rw [if_neg hnil, Option.map_some]
            congr 1
            omega
        rw [freeCompleteDatagram, hget]
        change (if _ then _ else _) = _
        rw [if_pos ⟨hprev, hqueued r List.mem_cons_self, by dsimp only; omega⟩,
          List.eraseIdx_append_of_length_le le_rfl]
        simp
      rw [if_neg htimer]
      simp only [hfree, Option.bind_eq_bind, Option.bind_some]
      rw [ih _ hrest (by omega)]
      have hexpired : expired (r :: rs) = r :: expired rs := by
        simp [expired, Nat.eq_zero_of_not_pos htimer]
      have hlive : live (r :: rs) = live rs := by simp [live, htimer]
      rw [hexpired, hlive, Nat.sub_sub]
      simp [pbufs]

/-- The timer frees the entries whose time is over and never fails. -/
theorem ipReassTmr_eq {s : Reass} (hs : s.Wf) :
    ipReassTmr s = some ⟨(live s.reassdatagrams).map .tick, pbufs (live s.reassdatagrams)⟩ := by
  have hsum := pbufs_live_add_expired s.reassdatagrams
  rw [ipReassTmr, ipReassTmrLoop_eq [] hs.entries.queued hs.count.ge, List.nil_append, hs.count,
    ← hsum, Nat.add_sub_cancel_right]

/-- A tick keeps the state in order. -/
theorem Reass.Wf.ipReassTmr {s s' : Reass} (hs : s.Wf) (h : ipReassTmr s = some s') : s'.Wf := by
  rw [ipReassTmr_eq hs] at h
  obtain rfl := Option.some.inj h
  have hlive := hs.entries.sublist (List.filter_sublist (p := fun r => 0 < r.timer))
  have hsum := pbufs_live_add_expired s.reassdatagrams
  have hcount := hs.count
  have hlimit := hs.limit
  refine ⟨⟨?_, ?_, ?_, ?_, ?_⟩, ?_, ?_⟩
  · intro r hr
    obtain ⟨r', hr', rfl⟩ := List.mem_map.mp hr
    obtain ⟨hascending, howned, htimer⟩ := hlive.wf r' hr'
    exact ⟨hascending, howned, (Nat.sub_le _ _).trans htimer⟩
  · intro r hr
    obtain ⟨r', hr', rfl⟩ := List.mem_map.mp hr
    exact hlive.queued r' hr'
  · rw [List.map_map]
    exact hlive.keys
  · rw [List.map_map]
    have hages := hlive.ages
    rw [List.pairwise_map] at hages ⊢
    exact hages.imp fun hle => Nat.sub_le_sub_right hle 1
  · rw [List.length_map]
    exact hlive.length
  · simp only [pbufs, List.map_map]
    rfl
  · dsimp only
    omega

end WifiMcu.Lwip
