import WifiMcu.Library.Transition
import WifiMcu.Lwip.Slots

/-!
# Runs of the reassembly

Fragments of several datagrams arrive in any order, and the timer ticks in between. In every run
the limits hold, and a datagram is put together from fragments of one datagram only.
-/

namespace WifiMcu.Lwip

open WifiMcu.System

/-! ## Runs -/

/-- What happens to the reassembly. -/
inductive ReassEvent
  | fragment (p : Datagram)
  | tick
  deriving DecidableEq

/-- A state and the datagrams that have been delivered. -/
def reassStep (s : Reass × List Datagram) : ReassEvent → Option (Reass × List Datagram)
  | .fragment p => (ipReass s.1 p).map fun r => (r.2, s.2 ++ r.1.toList)
  | .tick => (ipReassTmr s.1).map fun t => (t, s.2)

/-- The state at the start. -/
def Reass.empty : Reass := ⟨[], 0⟩

/-- The fragments that have arrived. -/
def arrived (es : List ReassEvent) : List Datagram := es.filterMap fun
  | .fragment p => some p
  | .tick => none

/-- A fragment of the events has arrived. -/
theorem mem_arrived {es : List ReassEvent} {p : Datagram} :
    p ∈ arrived es ↔ .fragment p ∈ es := by
  rw [arrived, List.mem_filterMap]
  constructor
  · rintro ⟨e, he, hp⟩
    cases e with
    | fragment q => exact Option.some.inj hp ▸ he
    | tick => simp at hp
  · intro hp
    exact ⟨_, hp, rfl⟩

/-- The state at the start is in order. -/
theorem Reass.empty_wf : Reass.empty.Wf where
  entries := ⟨by simp [Reass.empty], by simp [Reass.empty], by simp [Reass.empty],
    by simp [Reass.empty], by decide⟩
  count := rfl
  limit := by decide

/-- The first byte of a fragment is the first one of the datagram if the offset is 0. -/
theorem Datagram.start_eq_zero_iff (p : Datagram) :
    p.start = 0 ↔ p.hdr.offset &&& ipOffmask = 0 := by
  rw [Datagram.start, Nat.mul_eq_zero, ← BitVec.toNat_inj]
  exact or_iff_left (by decide)

/-- What an entry has kept has arrived, and the header is that of the first fragment, once that
has been queued. -/
structure Kept (ps : List Datagram) (r : IpReassdata) : Prop where
  header : ∃ f ∈ ps, f.hdr = r.iphdr
  fragments : ∀ q ∈ r.p, q ∈ ps
  first : ∀ q ∈ r.p, q.start = 0 → q.hdr = r.iphdr
  queued : r.iphdr.offset &&& ipOffmask = 0 → ∃ q ∈ r.p, q.start = 0

/-- The same of the entry that is about to get a fragment, which may be the first one. -/
structure Keeping (ps : List Datagram) (p : Datagram) (r : IpReassdata) : Prop where
  header : ∃ f ∈ ps, f.hdr = r.iphdr
  fragments : ∀ q ∈ r.p, q ∈ ps
  first : ∀ q ∈ r.p, q.start = 0 → q.hdr = r.iphdr
  own : p.start = 0 → p.hdr = r.iphdr ∨ ∃ q ∈ r.p, q.start = 0
  queued : r.iphdr.offset &&& ipOffmask = 0 → p.start = 0 ∨ ∃ q ∈ r.p, q.start = 0

/-- A datagram is made of fragments that have arrived: at least two of them, all with one key, in
the order of their offsets from 0 on, and with the header of the first one. -/
structure Reassembled (ps : List Datagram) (d : Datagram) (f last : Datagram)
    (qs : List Datagram) : Prop where
  arrived : ∀ q ∈ qs, q ∈ ps
  key : ∀ q ∈ qs, q.hdr.key = f.hdr.key
  ascending : Ascending qs
  two : 2 ≤ qs.length
  head : qs.head?.map Datagram.start = some 0
  final : qs.getLast? = some last
  first : qs.head? = some f
  data : d.data = qs.flatMap Datagram.data
  clen : d.clen = pbufClen qs ∧ d.clen ≤ ipReassMaxPbufs
  hdr : d.hdr = { f.hdr with
    len := BitVec.ofNat 16 (last.stop + ipHlen), offset := 0 }.withChksum

/-- What the entry of a slot has kept has arrived, and the fragment itself is taken into
account. -/
theorem Slot.keeping {ps : List Datagram} {t : Reass} {p : Datagram}
    {newer older : List IpReassdata} {ipr : IpReassdata} (h : Slot t p newer older ipr)
    (ht : ∀ r ∈ t.reassdatagrams, Kept ps r) (hp : p ∈ ps) : Keeping ps p ipr := by
  cases h with
  | found r hlist hkey =>
    obtain ⟨hheader, hfragments, hfirst, hqueued⟩ := ht r (by simp [hlist])
    rw [IpReassdata.keepHeader]
    split_ifs with hnew
    · refine ⟨⟨p, hp, rfl⟩, hfragments, fun q hq hzero => ?_, fun _ => Or.inl rfl, fun _ => ?_⟩
      · have hoffset := q.start_eq_zero_iff.mp hzero
        rw [hfirst q hq hzero] at hoffset
        exact absurd hoffset hnew.2
      · exact Or.inl (p.start_eq_zero_iff.mpr hnew.1)
    · refine ⟨hheader, hfragments, hfirst, fun hzero => ?_, fun hoffset => Or.inr (hqueued hoffset)⟩
      refine Or.inr (hqueued ?_)
      by_contra hne
      exact hnew ⟨p.start_eq_zero_iff.mp hzero, hne⟩
  | started =>
    exact ⟨⟨p, hp, rfl⟩, by simp [IpReassdata.started], by simp [IpReassdata.started],
      fun _ => Or.inl rfl, fun hoffset => Or.inl (p.start_eq_zero_iff.mpr hoffset)⟩

/-- With the fragment at its place, the header is that of the first fragment, if it is there. -/
theorem Keeping.first_between {ps : List Datagram} {p : Datagram} {ipr : IpReassdata}
    (h : Keeping ps p ipr) {before after : List Datagram} (happend : before ++ after = ipr.p)
    (hascending : Ascending (before ++ p :: after)) :
    ∀ q ∈ before ++ p :: after, q.start = 0 → q.hdr = ipr.iphdr := by
  have hmem : ∀ q ∈ ipr.p, q ∈ before ++ p :: after := by
    intro q hq
    rw [← happend, List.mem_append] at hq
    exact List.mem_append.mpr (hq.imp_right (List.mem_cons_of_mem _))
  have hp : p ∈ before ++ p :: after := List.mem_append_right _ List.mem_cons_self
  intro q hq hzero
  have hold : (∃ r ∈ ipr.p, r.start = 0) → q.hdr = ipr.iphdr := by
    rintro ⟨r, hr, hrzero⟩
    rw [hascending.eq_of_start hq (hmem r hr) (hzero.trans hrzero.symm)]
    exact h.first r hr hrzero
  rcases List.mem_append.mp hq with hbefore | hcons
  · exact h.first q (happend ▸ List.mem_append_left _ hbefore) hzero
  · rcases List.mem_cons.mp hcons with rfl | hafter
    · exact (h.own hzero).elim id hold
    · exact h.first q (happend ▸ List.mem_append_right _ hafter) hzero

/-- The entries around a slot are among the others. -/
theorem Slot.mem {t : Reass} {p : Datagram} {newer older : List IpReassdata} {ipr r : IpReassdata}
    (h : Slot t p newer older ipr) (hr : r ∈ newer ++ older) : r ∈ t.reassdatagrams := by
  cases h with
  | found r₀ hlist hkey =>
    rw [hlist]
    rw [List.mem_append] at hr ⊢
    exact hr.imp_right (List.mem_cons_of_mem _)
  | started hnewer holder =>
    rw [holder]
    simpa [hnewer] using hr

/-- What the entries have kept has arrived, also after a fragment more. -/
theorem Slot.state_kept {ps : List Datagram} {t : Reass} {p : Datagram}
    {newer older : List IpReassdata} {ipr : IpReassdata} {a : Accepted}
    (hwf : t.Wf) (h : Slot t p newer older ipr) (ht : ∀ r ∈ t.reassdatagrams, Kept ps r)
    (hp : p ∈ ps) (ha : ipr.accept p = some a) :
    ∀ r ∈ (a.state newer older t.pbufcount p.clen).reassdatagrams, Kept ps r := by
  have hkeeping := h.keeping ht hp
  have hrest : ∀ r ∈ newer ++ older, Kept ps r := fun r hr => ht r (h.mem hr)
  have hentry : ∀ r ∈ a.entry, Kept ps r := by
    obtain ⟨rfl, q, hq, hle⟩ | ⟨before, after, happend, hbefore, hafter, rfl | ⟨rfl, -⟩⟩ :=
      IpReassdata.accept_cases ha
    · rintro r ⟨⟩
      refine ⟨hkeeping.header, hkeeping.fragments, hkeeping.first, fun hoffset => ?_⟩
      rcases hkeeping.queued hoffset with hzero | hold
      · exact ⟨q, hq, by omega⟩
      · exact hold
    · rintro r ⟨⟩
      have hascending := ((h.wf hwf).between h.key happend hbefore hafter).ascending
      have hmem : ∀ q ∈ before ++ p :: after, q = p ∨ q ∈ ipr.p := by
        intro q hq
        rw [← happend]
        simpa [or_left_comm] using hq
      refine ⟨hkeeping.header, ?_, hkeeping.first_between happend hascending, fun hoffset => ?_⟩
      · intro q hq
        obtain rfl | hq := hmem q hq
        · exact hp
        · exact hkeeping.fragments q hq
      · rcases hkeeping.queued hoffset with hzero | ⟨q, hq, hzero⟩
        · exact ⟨p, List.mem_append_right _ List.mem_cons_self, hzero⟩
        · rw [← happend, List.mem_append] at hq
          exact ⟨q, List.mem_append.mpr (hq.imp_right (List.mem_cons_of_mem _)), hzero⟩
    · simp [Accepted.entry]
  intro r hr
  rw [Accepted.state_reassdatagrams, List.mem_append, List.mem_append, Option.mem_toList] at hr
  obtain (hr | hr) | hr := hr
  · exact hrest r (List.mem_append_left _ hr)
  · exact hentry r hr
  · exact hrest r (List.mem_append_right _ hr)

/-- A datagram that is delivered is made of fragments that have arrived. -/
theorem Slot.reassembled {ps : List Datagram} {t : Reass} {p d : Datagram}
    {newer older : List IpReassdata} {ipr : IpReassdata} (ht : t.Wf) (h : Slot t p newer older ipr)
    (hkept : ∀ r ∈ t.reassdatagrams, Kept ps r) (hp : p ∈ ps)
    (hroom : t.pbufcount + p.clen ≤ ipReassMaxPbufs) (ha : ipr.accept p = some (.complete d)) :
    ∃ f last qs, Reassembled ps d f last qs := by
  have hkeeping := h.keeping hkept hp
  obtain ⟨hd, -⟩ | ⟨before, after, happend, hbefore, hafter, hd | ⟨hd, hfull⟩⟩ :=
    IpReassdata.accept_cases ha
  · simp at hd
  · simp at hd
  · obtain rfl := Accepted.complete.inj hd
    have hmem : ∀ q ∈ before ++ p :: after, q = p ∨ q ∈ ipr.p := by
      intro q hq
      rw [← happend]
      simpa [or_left_comm] using hq
    have hwf := (h.wf ht).between h.key happend hbefore hafter
    obtain ⟨f, hf, hzero⟩ := Option.map_eq_some_iff.mp hfull.first
    obtain ⟨last, hlast, hstop⟩ := Option.map_eq_some_iff.mp hfull.last
    have hhdr : f.hdr = ipr.iphdr :=
      hkeeping.first_between happend hwf.ascending f (List.mem_of_mem_head? hf) hzero
    have hclen : pbufClen (before ++ p :: after) ≤ ipReassMaxPbufs := by
      have hcount := h.count ht
      rw [pbufClen_between, happend]
      omega
    have hmod : pbufClen (before ++ p :: after) % 256 = pbufClen (before ++ p :: after) :=
      Nat.mod_eq_of_lt (Nat.lt_of_le_of_lt hclen (by decide))
    refine ⟨f, last, before ++ p :: after, ?_, ?_, hwf.ascending, hfull.two, hfull.first, hlast,
      hf, rfl, ⟨hmod, hmod.trans_le hclen⟩, ?_⟩
    · intro q hq
      obtain rfl | hq := hmem q hq
      · exact hp
      · exact hkeeping.fragments q hq
    · intro q hq
      rw [hhdr]
      exact hwf.owned q hq
    · rw [hstop, hhdr]
      rfl

/-- The state is in order, what the entries have kept has arrived, and so have the fragments of
what has been delivered. -/
structure Collected (ps : List Datagram) (s : Reass × List Datagram) : Prop where
  wf : s.1.Wf
  kept : ∀ r ∈ s.1.reassdatagrams, Kept ps r
  delivered : ∀ d ∈ s.2, ∃ f last qs, Reassembled ps d f last qs

/-- A fragment that has arrived, or a tick. -/
theorem Collected.step {ps : List Datagram} {s s' : Reass × List Datagram} {e : ReassEvent}
    (h : Collected ps s) (he : ∀ p, e = .fragment p → p ∈ ps) (hstep : reassStep s e = some s') :
    Collected ps s' := by
  obtain ⟨hs, hkept, hds⟩ := h
  cases e with
  | fragment p =>
    obtain ⟨⟨d, t⟩, hreass, rfl⟩ := Option.map_eq_some_iff.mp hstep
    obtain ⟨rfl, hshed, -⟩ | ⟨u, newer, older, ipr, a, hshed, -, hroom, hslot, ha, rfl, rfl⟩ :=
      ipReass_cases hs hreass
    · refine ⟨hs.ipReass hreass, fun r hr => hkept r (hshed.kept.subset hr), ?_⟩
      simpa using hds
    · have hkept' : ∀ r ∈ u.reassdatagrams, Kept ps r :=
        fun r hr => hkept r (hshed.kept.subset hr)
      refine ⟨hs.ipReass hreass, hslot.state_kept hshed.wf hkept' (he p rfl) ha, ?_⟩
      intro d hd
      obtain hd | hd := List.mem_append.mp hd
      · exact hds d hd
      · cases a with
        | complete d' =>
          obtain rfl : d = d' := by simpa [Accepted.delivered] using hd
          exact hslot.reassembled hshed.wf hkept' (he p rfl) hroom ha
        | dropped => simp [Accepted.delivered] at hd
        | queued => simp [Accepted.delivered] at hd
  | tick =>
    obtain ⟨t, htmr, rfl⟩ := Option.map_eq_some_iff.mp hstep
    refine ⟨hs.ipReassTmr htmr, ?_, hds⟩
    rw [ipReassTmr_eq hs] at htmr
    obtain rfl := Option.some.inj htmr
    intro r hr
    obtain ⟨r', hr', rfl⟩ := List.mem_map.mp hr
    obtain ⟨hheader, hfragments, hfirst, hqueued⟩ := hkept r' (List.mem_filter.mp hr').1
    exact ⟨hheader, hfragments, hfirst, hqueued⟩

/-- What holds at the start. -/
theorem collected_empty (ps : List Datagram) : Collected ps (Reass.empty, []) :=
  ⟨Reass.empty_wf, by simp [Reass.empty], by simp⟩

/-- What holds after a run. -/
theorem collected_run {es : List ReassEvent} {s : Reass × List Datagram}
    (h : Transition.run reassStep (Reass.empty, []) es = some s) : Collected (arrived es) s := by
  have hguard : Transition.Along reassStep (fun _ e => ∀ p, e = .fragment p → p ∈ arrived es)
      (Reass.empty, []) es := by
    apply Transition.along_of_forall
    rintro e he - p rfl
    exact mem_arrived.mpr he
  exact hguard.invariant (fun _ _ _ h he hstep => h.step he hstep) (collected_empty _) h

/-- **Safety of the reassembly.** Whatever arrives, and however it is interleaved, the limits
hold, and every datagram that is delivered is made of fragments of one datagram that have
arrived. -/
theorem reass_safe {es : List ReassEvent} {s : Reass} {ds : List Datagram}
    (h : Transition.run reassStep (Reass.empty, []) es = some (s, ds)) :
    s.Wf ∧ ∀ d ∈ ds, ∃ f last qs, Reassembled (arrived es) d f last qs :=
  ⟨(collected_run h).wf, (collected_run h).delivered⟩

/-- A fragment of a datagram with an identification, by its flags and offset. -/
def someFragment (id offset : BitVec 16) (data : List UInt8) (clen : Fin 256) : Datagram :=
  ⟨⟨0x45, 0, BitVec.ofNat 16 (data.length + 20), id, offset, 64, 17, 0, 0x0100000a, 0x0200000a⟩,
    data, clen, clen.isLt⟩

/-- A datagram of two fragments that come in the wrong order. -/
theorem reass_safe_two : ∃ s d, Transition.run reassStep (Reass.empty, [])
    [.fragment (someFragment 1 1 [9] 1), .tick,
      .fragment (someFragment 1 0x2000 [1, 2, 3, 4, 5, 6, 7, 8] 1)] = some (s, [d]) ∧
    d.data = [1, 2, 3, 4, 5, 6, 7, 8, 9] ∧ s.Wf ∧ ∃ f last qs, Reassembled
      [someFragment 1 1 [9] 1, someFragment 1 0x2000 [1, 2, 3, 4, 5, 6, 7, 8] 1] d f last qs := by
  have hrun : Transition.run reassStep (Reass.empty, [])
      [.fragment (someFragment 1 1 [9] 1), .tick,
        .fragment (someFragment 1 0x2000 [1, 2, 3, 4, 5, 6, 7, 8] 1)] =
      some (⟨[], 0⟩, [⟨{ (someFragment 1 0x2000 [] 1).hdr with len := 29, offset := 0 }.withChksum,
        [1, 2, 3, 4, 5, 6, 7, 8, 9], 2, by decide⟩]) := by decide +kernel
  obtain ⟨hwf, hds⟩ := reass_safe hrun
  exact ⟨_, _, hrun, rfl, hwf, hds _ List.mem_cons_self⟩

end WifiMcu.Lwip
