import WifiMcu.Lwip.Slots

/-!
# The entries by their datagrams

The list of entries is a map from the addresses and the identification to an entry. Where there is
room, a fragment changes the entry of its own datagram only, and a tick makes the entries older.
-/

namespace WifiMcu.Lwip

open WifiMcu.System

/-- The entry of a datagram. -/
def Reass.lookup (s : Reass) (key : BitVec 32 × BitVec 32 × BitVec 16) : Option IpReassdata :=
  s.reassdatagrams.find? fun r => r.iphdr.key = key

/-- The entry for a fragment. -/
def Reass.entryFor (s : Reass) (p : Datagram) : IpReassdata :=
  ((s.lookup p.hdr.key).map fun r => r.keepHeader p).getD (.started p)

/-- An entry keeps its header and its age when it gets a fragment. -/
theorem IpReassdata.accept_entry {ipr r : IpReassdata} {p : Datagram} {a : Accepted}
    (ha : ipr.accept p = some a) (hr : a.entry = some r) :
    r.iphdr = ipr.iphdr ∧ r.timer = ipr.timer := by
  obtain ⟨rfl, -⟩ | ⟨before, after, -, -, -, rfl | ⟨rfl, -⟩⟩ := IpReassdata.accept_cases ha
  · obtain rfl := Option.some.inj hr
    exact ⟨rfl, rfl⟩
  · obtain rfl := Option.some.inj hr
    exact ⟨rfl, rfl⟩
  · simp [Accepted.entry] at hr

/-- A slot is for the entry of the fragment's datagram, and the others are somewhere else. -/
theorem Slot.lookup {s : Reass} {p : Datagram} {newer older : List IpReassdata}
    {ipr : IpReassdata} (hs : s.Wf) (h : Slot s p newer older ipr) :
    s.entryFor p = ipr ∧ (∀ r ∈ newer ++ older, r.iphdr.key ≠ p.hdr.key) ∧
      ∀ key ≠ p.hdr.key, s.lookup key =
        (newer ++ older).find? fun r => decide (r.iphdr.key = key) := by
  cases h with
  | found r hlist hkey =>
    have hentries := hs.entries
    rw [hlist] at hentries
    have hothers : ∀ r' ∈ newer ++ older, r'.iphdr.key ≠ p.hdr.key := by
      intro r' hr'
      rw [← hkey]
      exact hentries.key_ne r' hr'
    have hnewer : newer.find? (fun r => decide (r.iphdr.key = p.hdr.key)) = none := by
      rw [List.find?_eq_none]
      intro r' hr'
      simpa using hothers r' (List.mem_append_left _ hr')
    refine ⟨?_, hothers, ?_⟩
    · rw [Reass.entryFor, Reass.lookup, hlist, List.find?_append, hnewer, Option.none_or,
        List.find?_cons_of_pos (by simpa using hkey)]
      rfl
    · intro key hne
      rw [Reass.lookup, hlist, List.find?_append, List.find?_append,
        List.find?_cons_of_neg (by simpa [hkey] using hne.symm)]
  | started hnewer holder hfresh =>
    subst hnewer
    refine ⟨?_, hfresh, fun key _ => by rw [Reass.lookup, holder, List.nil_append]⟩
    have hnone : s.lookup p.hdr.key = none := by
      rw [Reass.lookup, holder, List.find?_eq_none]
      intro r' hr'
      simpa using hfresh r' hr'
    rw [Reass.entryFor, hnone]
    rfl

/-- Where there is room, the entry of its datagram gets a fragment without options. -/
theorem ipReass_eq {s : Reass} {p : Datagram} (hs : s.Wf) (hfits : s.Fits p)
    (hhl : p.hdr.hl * 4 = ipHlen) :
    ∃ newer older, Slot s p newer older (s.entryFor p) ∧
      ipReass s p = ((s.entryFor p).accept p).map fun a =>
        (a.delivered, a.state newer older s.pbufcount p.clen) := by
  rw [ipReass, if_neg (not_not.mpr hhl), hfits.makeRoom]
  simp only [Option.bind_eq_bind, Option.bind_some, Bool.true_eq_false, if_false]
  cases hfind : s.reassdatagrams.findIdx? (fun r => r.iphdr.key = p.hdr.key) with
  | some i =>
    obtain ⟨newer, r, older, hlist, rfl, hkey⟩ := findIdx?_split hfind
    have hget : s.reassdatagrams[newer.length]? = some r := by simp [hlist]
    have hslot : Slot s p newer older (r.keepHeader p) := .found r hlist hkey
    refine ⟨newer, older, (hslot.lookup hs).1.symm ▸ hslot, ?_⟩
    simp only [hget]
    rw [acceptAt_eq hlist, (hslot.lookup hs).1]
  | none =>
    have hfresh : ∀ r ∈ s.reassdatagrams, r.iphdr.key ≠ p.hdr.key := by
      intro r hr
      simpa using List.findIdx?_eq_none_iff.mp hfind r hr
    have hslot : Slot s p [] s.reassdatagrams (.started p) :=
      .started rfl rfl hfresh (hfits.entry hfresh)
    refine ⟨[], s.reassdatagrams, (hslot.lookup hs).1.symm ▸ hslot, ?_⟩
    rw [hfits.enqueueNewDatagram hfresh, (hslot.lookup hs).1]
    exact @acceptAt_eq (s.enqueue p) [] s.reassdatagrams (.started p) (.started p) rfl p

/-- **One fragment, by the entries.** Where there is room, a fragment without options changes the
entry of its datagram, as this entry takes it, and no other one. -/
theorem ipReass_lookup {s s' : Reass} {p : Datagram} {d : Option Datagram} (hs : s.Wf)
    (hfits : s.Fits p) (hhl : p.hdr.hl * 4 = ipHlen) (h : ipReass s p = some (d, s')) :
    ∃ a, (s.entryFor p).accept p = some a ∧ d = a.delivered ∧ s'.lookup p.hdr.key = a.entry ∧
      ∀ key ≠ p.hdr.key, s'.lookup key = s.lookup key := by
  obtain ⟨-, -, hno⟩ | ⟨t, newer, older, ipr, a, -, hsame, -, hslot, ha, hd, rfl⟩ :=
    ipReass_cases hs h
  · exact absurd hhl (hno hfits).1
  · obtain rfl := hsame hfits
    obtain ⟨hentry, hothers, hlookup⟩ := hslot.lookup hs
    have hkey : ∀ r, a.entry = some r → r.iphdr.key = p.hdr.key := by
      intro r hr
      rw [(IpReassdata.accept_entry ha hr).1]
      exact hslot.key
    have hnone : ∀ rs : List IpReassdata, (∀ r ∈ rs, r ∈ newer ++ older) →
        rs.find? (fun r => decide (r.iphdr.key = p.hdr.key)) = none := by
      intro rs hrs
      rw [List.find?_eq_none]
      intro r hr
      simpa using hothers r (hrs r hr)
    refine ⟨a, hentry ▸ ha, hd, ?_, ?_⟩
    · rw [Reass.lookup, Accepted.state_reassdatagrams, List.find?_append, List.find?_append,
        hnone newer fun r hr => List.mem_append_left _ hr,
        hnone older fun r hr => List.mem_append_right _ hr, Option.none_or, Option.or_none]
      cases hr : a.entry with
      | none => rfl
      | some r => simp [hkey r hr]
    · intro key hne
      rw [hlookup key hne, Reass.lookup, Accepted.state_reassdatagrams, List.find?_append,
        List.find?_append, List.find?_append]
      cases hr : a.entry with
      | none => rw [Option.toList_none, List.find?_nil, Option.or_none]
      | some r =>
        rw [Option.toList_some, List.find?_singleton, if_neg (by simpa [hkey r hr] using hne.symm),
          Option.or_none]

/-- A tick makes every entry older, and takes none whose time is not over. -/
theorem ipReassTmr_lookup {s s' : Reass} (hs : s.Wf) (h : ipReassTmr s = some s')
    (key : BitVec 32 × BitVec 32 × BitVec 16) :
    (s.lookup key = none → s'.lookup key = none) ∧
      ∀ r, s.lookup key = some r → 0 < r.timer → s'.lookup key = some r.tick := by
  rw [ipReassTmr_eq hs] at h
  obtain rfl := Option.some.inj h
  constructor
  · intro hnone
    rw [Reass.lookup, List.find?_eq_none] at hnone ⊢
    intro r hr
    obtain ⟨r', hr', rfl⟩ := List.mem_map.mp hr
    exact hnone r' (List.mem_filter.mp hr').1
  · intro r hr htimer
    rw [Reass.lookup] at hr
    obtain ⟨hkey, newer, older, hlist, hnewer⟩ := List.find?_eq_some_iff_append.mp hr
    have hlive : live s.reassdatagrams = live newer ++ r :: live older := by
      rw [live, hlist, List.filter_append, List.filter_cons_of_pos (by simpa using htimer)]
      rfl
    have hnone : ((live newer).map IpReassdata.tick).find?
        (fun r => decide (r.iphdr.key = key)) = none := by
      rw [List.find?_eq_none]
      intro r' hr'
      obtain ⟨r'', hr'', rfl⟩ := List.mem_map.mp hr'
      have hne : r''.iphdr.key ≠ key := by simpa using hnewer r'' (List.mem_filter.mp hr'').1
      exact fun heq => hne (of_decide_eq_true heq)
    rw [Reass.lookup, hlive, List.map_append, List.find?_append, hnone, Option.none_or,
      List.map_cons]
    exact List.find?_cons_of_pos hkey

end WifiMcu.Lwip
