import WifiMcu.Lwip.Reassembled

/-!
# Failed assertions of the reassembly

The assertions are compiled in and end the program. Here is what has to arrive for one to fail.
-/

namespace WifiMcu.Lwip

open WifiMcu.System

/-! ## Failed assertions -/

/-- The removal for a fragment fails an assertion if its datagram stands in the way. -/
theorem Reass.Wf.removeOldest_eq_none_iff {s : Reass} {p : Datagram} (hs : s.Wf)
    (hclen : 0 < p.clen) : s.removeOldest p = none ↔ s.Blocked p.hdr.key p.clen :=
  removeOldestDatagram_eq_none_iff hs (Nat.lt_succ_self _) hclen

/-- The removal for a fragment of a new datagram does not fail an assertion. -/
theorem Reass.Wf.removeOldest_ne_none {s : Reass} {p : Datagram} (hs : s.Wf)
    (hfresh : ∀ r ∈ s.reassdatagrams, r.iphdr.key ≠ p.hdr.key) : s.removeOldest p ≠ none := by
  obtain hzero | hclen := Nat.eq_zero_or_pos p.clen
  · obtain hnil | ⟨front, r, hlist⟩ := List.eq_nil_or_concat' s.reassdatagrams
    · rw [Reass.removeOldest, removeOldestDatagram_own (by simp [hnil])]
      simp
    · rw [Reass.removeOldest, removeOldestDatagram_last hs hlist (hfresh r (by simp [hlist])),
        if_neg (by omega)]
      simp
  · rw [ne_eq, hs.removeOldest_eq_none_iff hclen]
    rintro ⟨newer, own, older, hlist, -, hkey, -⟩
    exact hfresh own (by simp [hlist]) hkey

/-- To make room fails an assertion if the fragment's datagram stands in the way. -/
theorem Reass.Wf.makeRoom_eq_none_iff {s : Reass} (hs : s.Wf) (p : Datagram) :
    s.makeRoom p = none ↔
      ipReassMaxPbufs < s.pbufcount + p.clen ∧ s.Blocked p.hdr.key p.clen := by
  have hlimit := hs.limit
  rw [Reass.makeRoom]
  split_ifs with hover
  · rw [← hs.removeOldest_eq_none_iff (by omega)]
    cases hremove : s.removeOldest p with
    | none => simp [hover]
    | some r => simp
  · simp [hover]

/-- A new entry does not fail an assertion. -/
theorem Reass.Wf.enqueueNewDatagram_ne_none {s : Reass} {p : Datagram} (hs : s.Wf)
    (hfresh : ∀ r ∈ s.reassdatagrams, r.iphdr.key ≠ p.hdr.key) :
    WifiMcu.Lwip.enqueueNewDatagram s p ≠ none := by
  have hremove := hs.removeOldest_ne_none hfresh
  rw [WifiMcu.Lwip.enqueueNewDatagram]
  split_ifs with hcan
  · simp
  · obtain ⟨⟨freed, t⟩, hsome⟩ := Option.ne_none_iff_exists'.mp hremove
    simp only [hsome, Option.bind_eq_bind, Option.bind_some]
    split_ifs <;> simp

/-- With a fragment more, an entry has no gap from 0 on and the last fragment has been there, but
it does not end where that one ended. -/
def IpReassdata.Torn (r : IpReassdata) (p : Datagram) : Prop :=
  ∃ before after, findPlace p [] true r.p = .between before after true ∧
    (r.note p).lastfrag = true ∧
    (before ++ p :: after).head?.map Datagram.start = some 0 ∧ gapless (p :: after) = true ∧
    (before ++ p :: after).getLast?.map Datagram.stop ≠ some (r.note p).datagramLen

/-- An entry with fragments fails an assertion if it is torn. -/
theorem IpReassdata.accept_eq_none_iff {r : IpReassdata} {p : Datagram} (hqueued : r.p ≠ []) :
    r.accept p = none ↔ r.Torn p := by
  have hqueue : (r.note p).p = r.p := rfl
  rw [IpReassdata.accept, IpReassdata.Torn]
  simp only [hqueue]
  cases hplace : findPlace p [] true r.p with
  | drop => simp
  | between before after valid =>
    have hspec := @findPlace_between p r.p [] _ _ _ (by simpa [gapless] using hplace)
    have hpos := List.length_pos_iff.mpr hqueued
    rw [← List.nil_append r.p, ← hspec.1, List.length_append] at hpos
    have hlen : (before ++ p :: after).length ≠ 1 := by
      rw [List.length_append, List.length_cons]
      omega
    have hlast : (before ++ p :: after).getLast? = (p :: after).getLast? :=
      List.getLast?_append_of_ne_nil _ (by simp)
    simp only [hlen, ne_eq, not_false_eq_true, true_and, Place.between.injEq]
    constructor
    · intro h
      split_ifs at h with hcomplete hends
      simp only [Bool.and_eq_true, decide_eq_true_eq] at hcomplete
      obtain ⟨⟨⟨hseen, hvalid⟩, hfirst⟩, hgapless⟩ := hcomplete
      exact ⟨before, after, ⟨rfl, rfl, hvalid⟩, hseen, hfirst, hgapless, hlast ▸ hends⟩
    · rintro ⟨_, _, ⟨rfl, rfl, rfl⟩, hseen, hfirst, hgapless, hends⟩
      rw [hlast] at hends
      rw [if_pos (by simp only [hseen, hfirst, hgapless, Bool.and_true, decide_true]), if_neg hends]

/-- A new entry gets its first fragment. -/
theorem IpReassdata.started_accept {p : Datagram}
    (hfragment : p.hdr.offset &&& (ipMf ||| ipOffmask) ≠ 0) :
    (IpReassdata.started p).accept p = some (.queued { (started p).note p with p := [p] }) := by
  have hnot : ¬(p.isLast = true ∧ p.start = 0) := by
    rintro ⟨hlast, hzero⟩
    rw [Datagram.isLast, decide_eq_true_eq] at hlast
    rw [p.start_eq_zero_iff] at hzero
    apply hfragment
    rw [BitVec.and_or_distrib_left, hlast, hzero]
    rfl
  rw [IpReassdata.accept]
  change (if _ then _ else _) = _
  rw [if_neg]
  · rfl
  · simpa [IpReassdata.note, IpReassdata.started, meets, gapless] using hnot

/-- **When an assertion fails.** In every state that is reached, a fragment fails an assertion
exactly if it needs room and its datagram stands in the way of the removal, or if its datagram
has no gap any more but does not end where its last fragment ended. The timer never does. -/
theorem reass_abort_iff {es : List ReassEvent} {s : Reass} {ds : List Datagram}
    (h : Transition.run reassStep (Reass.empty, []) es = some (s, ds)) {p : Datagram}
    (hfragment : p.hdr.offset &&& (ipMf ||| ipOffmask) ≠ 0) :
    (ipReass s p = none ↔ p.hdr.hl * 4 = ipHlen ∧
      (ipReassMaxPbufs < s.pbufcount + p.clen ∧ s.Blocked p.hdr.key p.clen ∨
        ∃ t r, s.makeRoom p = some (true, t) ∧ r ∈ t.reassdatagrams ∧
          r.iphdr.key = p.hdr.key ∧ (r.keepHeader p).Torn p)) ∧ ipReassTmr s ≠ none := by
  have hs := (collected_run h).wf
  dsimp only at hs
  refine ⟨?_, by simp [ipReassTmr_eq hs]⟩
  rw [ipReass, ← hs.makeRoom_eq_none_iff]
  by_cases hhl : p.hdr.hl * 4 ≠ ipHlen
  · simp [hhl]
  rw [if_neg hhl]
  simp only [not_not.mp hhl, true_and]
  cases hroom : s.makeRoom p with
  | none => simp
  | some r =>
    obtain ⟨room, t⟩ := r
    have ht := (hs.makeRoom hroom).1.wf
    simp only [Option.bind_eq_bind, Option.bind_some, Option.some.injEq, Prod.mk.injEq,
      reduceCtorEq, false_or]
    cases room with
    | false => simp
    | true =>
      simp only [Bool.true_eq_false, if_false, true_and]
      cases hfind : t.reassdatagrams.findIdx? (fun r => r.iphdr.key = p.hdr.key) with
      | some i =>
        obtain ⟨newer, r, older, hlist, rfl, hkey⟩ := findIdx?_split hfind
        have hget : t.reassdatagrams[newer.length]? = some r := by simp [hlist]
        have hmem : r ∈ t.reassdatagrams := by simp [hlist]
        have hqueued : (r.keepHeader p).p ≠ [] := by
          rw [IpReassdata.keepHeader_p]
          exact ht.entries.queued r hmem
        simp only [hget]
        rw [acceptAt_eq hlist, Option.map_eq_none_iff, IpReassdata.accept_eq_none_iff hqueued]
        constructor
        · intro htorn
          exact ⟨t, r, rfl, hmem, hkey, htorn⟩
        · rintro ⟨_, r', rfl, hr', hkey', htorn⟩
          have hentries := ht.entries
          rw [hlist] at hentries hr'
          have hr' : r' = r ∨ r' ∈ newer ++ older := by simpa [or_left_comm] using hr'
          obtain rfl | hr' := hr'
          · exact htorn
          · exact absurd (hkey'.trans hkey.symm) (hentries.key_ne r' hr')
      | none =>
        have hfresh : ∀ r ∈ t.reassdatagrams, r.iphdr.key ≠ p.hdr.key := by
          intro r hr
          simpa using List.findIdx?_eq_none_iff.mp hfind r hr
        refine iff_of_false ?_ ?_
        · intro hnone
          obtain ⟨⟨enqueued, u⟩, henqueue⟩ :=
            Option.ne_none_iff_exists'.mp (ht.enqueueNewDatagram_ne_none hfresh)
          simp only [henqueue, Option.bind_some] at hnone
          obtain ⟨rfl, -⟩ | ⟨rfl, v, -, -, rfl⟩ := ht.enqueueNewDatagram henqueue
          · simp at hnone
          · have haccept : acceptAt (v.enqueue p) ([] : List IpReassdata).length (.started p) p =
                none := hnone
            rw [@acceptAt_eq (v.enqueue p) [] v.reassdatagrams (.started p) _ rfl,
              IpReassdata.started_accept hfragment] at haccept
            simp at haccept
        · rintro ⟨_, r, rfl, hr, hkey, -⟩
          exact hfresh r hr hkey

/-- A fragment of the oldest of two datagrams for which there is no room. -/
theorem reass_abort_oldest : ∃ s, Transition.run reassStep (Reass.empty, [])
    [.fragment (someFragment 1 0x2000 [1, 2, 3, 4, 5, 6, 7, 8] 1),
      .fragment (someFragment 2 0x2000 [1, 2, 3, 4, 5, 6, 7, 8] 1)] = some (s, []) ∧
    ipReass s (someFragment 1 0x2001 [1, 2, 3, 4, 5, 6, 7, 8] 4) = none := by
  have hrun : ∃ s, Transition.run reassStep (Reass.empty, [])
      [.fragment (someFragment 1 0x2000 [1, 2, 3, 4, 5, 6, 7, 8] 1),
        .fragment (someFragment 2 0x2000 [1, 2, 3, 4, 5, 6, 7, 8] 1)] = some (s, []) ∧
      s.pbufcount = 2 ∧ ∃ newer own, s.reassdatagrams = [newer, own] ∧ own.iphdr.id = 1 ∧
        own.iphdr.src = 0x0100000a ∧ own.iphdr.dest = 0x0200000a :=
    ⟨_, rfl, rfl, _, _, rfl, rfl, rfl, rfl⟩
  obtain ⟨s, hrun, hcount, newer, own, hlist, hid, hsrc, hdest⟩ := hrun
  refine ⟨s, hrun, ((reass_abort_iff hrun (by decide)).1).mpr ⟨rfl, Or.inl ⟨?_, ?_⟩⟩⟩
  · rw [hcount]
    decide
  · refine ⟨[newer], own, [], hlist, by simp, ?_, by decide⟩
    rw [IpHdr.key, hid, hsrc, hdest]
    rfl

end WifiMcu.Lwip
