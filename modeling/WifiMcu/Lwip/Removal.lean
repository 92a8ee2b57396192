import WifiMcu.Lwip.Reassembly

/-!
# Removal of old datagrams

Entries come in at the front of the list with the highest timer, so the oldest one is the last
one. The removal takes the entry before the last one for the previous one of the entry it frees,
which is right unless the fragment that needs the room belongs to the last one itself.
-/

namespace WifiMcu.Lwip

open WifiMcu.System

/-! ## The entries -/

/-- The pbufs of all entries. -/
def pbufs (rs : List IpReassdata) : ℕ := (rs.map fun r => pbufClen r.p).sum

/-- The pbufs of one entry more at the end. -/
theorem pbufs_concat (rs : List IpReassdata) (r : IpReassdata) :
    pbufs (rs ++ [r]) = pbufs rs + pbufClen r.p := by
  simp [pbufs]

/-- The pbufs of two groups of entries. -/
theorem pbufs_append (rs rs' : List IpReassdata) : pbufs (rs ++ rs') = pbufs rs + pbufs rs' := by
  simp [pbufs]

/-- An entry in order: the fragments of one datagram, by their offsets. -/
structure IpReassdata.Wf (r : IpReassdata) : Prop where
  ascending : Ascending r.p
  owned : ∀ q ∈ r.p, q.hdr.key = r.iphdr.key
  timer : r.timer ≤ ipReassMaxage

/-- The list in order: one entry for a datagram, the newer ones in front. -/
structure Entries (rs : List IpReassdata) : Prop where
  wf : ∀ r ∈ rs, r.Wf
  queued : ∀ r ∈ rs, r.p ≠ []
  keys : (rs.map fun r => r.iphdr.key).Nodup
  ages : (rs.map IpReassdata.timer).Pairwise (· ≥ ·)
  length : rs.length ≤ mempNumReassdata

/-- The state in order. -/
structure Reass.Wf (s : Reass) : Prop where
  entries : Entries s.reassdatagrams
  count : s.pbufcount = pbufs s.reassdatagrams
  limit : s.pbufcount ≤ ipReassMaxPbufs

/-- Some of the first entries of a list in order. -/
theorem Entries.sublist {rs rs' : List IpReassdata} (h : Entries rs) (hsub : rs'.Sublist rs) :
    Entries rs' where
  wf r hr := h.wf r (hsub.subset hr)
  queued r hr := h.queued r (hsub.subset hr)
  keys := h.keys.sublist (hsub.map _)
  ages := h.ages.sublist (hsub.map _)
  length := hsub.length_le.trans h.length

/-- The others have other keys. -/
theorem Entries.key_ne {newer older : List IpReassdata} {own : IpReassdata}
    (h : Entries (newer ++ own :: older)) :
    ∀ r ∈ newer ++ older, r.iphdr.key ≠ own.iphdr.key := by
  have hkeys := h.keys
  rw [List.map_append, List.map_cons, List.nodup_middle, ← List.map_append,
    List.nodup_cons] at hkeys
  intro r hr heq
  exact hkeys.1 (heq ▸ List.mem_map_of_mem (f := fun r => r.iphdr.key) hr)

/-! ## The oldest datagram -/

/-- The other datagrams are counted. -/
theorem findOldest_others (key : BitVec 32 × BitVec 32 × BitVec 16) (rs : List IpReassdata)
    (i : ℕ) (c : Oldest) : (findOldest key rs i c).others =
      c.others + rs.countP fun r => decide (r.iphdr.key ≠ key) := by
  induction rs generalizing i c with
  | nil => rfl
  | cons r rs ih =>
    rw [findOldest, ih, List.countP_cons]
    by_cases hown : r.iphdr.key = key
    · by_cases hnext : rs = [] <;> simp [Oldest.see, hown, hnext]
    · by_cases hnext : rs = [] <;> simp [Oldest.see, hown, hnext, Nat.add_assoc, Nat.add_comm 1]

/-- The previous one is the one before the last. -/
theorem findOldest_prev (key : BitVec 32 × BitVec 32 × BitVec 16) (rs : List IpReassdata)
    (i : ℕ) (c : Oldest) : (findOldest key rs i c).prev =
      if rs.length ≤ 1 then c.prev else some (i + rs.length - 2) := by
  induction rs generalizing i c with
  | nil => rfl
  | cons r rs ih =>
    rw [findOldest, ih]
    cases rs with
    | nil =>
      by_cases hown : r.iphdr.key = key <;> simp [Oldest.see, hown]
    | cons r' rs =>
      cases rs with
      | nil => simp [Oldest.see]
      | cons r'' rs =>
        simp only [List.length_cons]
        rw [if_neg (by omega), if_neg (by omega)]
        congr 1
        omega

/-- Entries of the fragment's own datagram are passed over. -/
theorem findOldest_own {key : BitVec 32 × BitVec 32 × BitVec 16} {rs : List IpReassdata}
    (hown : ∀ r ∈ rs, r.iphdr.key = key) (i : ℕ) (c : Oldest) :
    (findOldest key rs i c).oldest = c.oldest := by
  induction rs generalizing i c with
  | nil => rfl
  | cons r rs ih =>
    rw [findOldest, ih fun r hr => hown r (List.mem_cons_of_mem _ hr)]
    by_cases hnext : rs = [] <;> simp [Oldest.see, hown r List.mem_cons_self, hnext]

/-- An entry that is looked at is the oldest one then, or the one from before is. -/
theorem Oldest.see_oldest {c : Oldest} {key : BitVec 32 × BitVec 32 × BitVec 16} {i j timer : ℕ}
    {r : IpReassdata} {hasNext : Bool} (h : (c.see key i r hasNext).oldest = some (j, timer)) :
    c.oldest = some (j, timer) ∨ timer = r.timer := by
  have hsame : (c.see key i r hasNext).oldest = (c.see key i r false).oldest := by
    cases hasNext <;> simp [Oldest.see]
  rw [hsame] at h
  by_cases hown : r.iphdr.key = key
  · exact Or.inl (by simpa [Oldest.see, hown] using h)
  · cases hold : c.oldest with
    | none =>
      have hseen : (i, r.timer) = (j, timer) := by simpa [Oldest.see, hown, hold] using h
      exact Or.inr (Prod.mk.inj hseen).2.symm
    | some best =>
      have hseen : (if r.timer ≤ best.2 then some (i, r.timer) else some best) =
          some (j, timer) := by simpa [Oldest.see, hown, hold] using h
      split_ifs at hseen
      · exact Or.inr (Prod.mk.inj (Option.some.inj hseen)).2.symm
      · exact Or.inl hseen

/-- The last one of the other datagrams is the oldest. -/
theorem findOldest_oldest {key : BitVec 32 × BitVec 32 × BitVec 16} {r : IpReassdata}
    {newer older : List IpReassdata} (hother : r.iphdr.key ≠ key)
    (hown : ∀ r ∈ older, r.iphdr.key = key) (hages : ∀ r' ∈ newer, r.timer ≤ r'.timer)
    (i : ℕ) (c : Oldest) (hc : ∀ j timer, c.oldest = some (j, timer) → r.timer ≤ timer) :
    (findOldest key (newer ++ r :: older) i c).oldest = some (i + newer.length, r.timer) := by
  induction newer generalizing i c with
  | nil =>
    rw [List.nil_append, findOldest, findOldest_own hown]
    cases hold : c.oldest with
    | none => by_cases hnext : older = [] <;> simp [Oldest.see, hother, hold, hnext]
    | some best =>
      have hle := hc best.1 best.2 hold
      by_cases hnext : older = [] <;> simp [Oldest.see, hother, hold, hnext, hle]
  | cons r' newer ih =>
    have hr' := hages r' List.mem_cons_self
    rw [List.cons_append, findOldest, ih fun r hr => hages r (List.mem_cons_of_mem _ hr)]
    · rw [List.length_cons, Nat.add_assoc, Nat.add_comm 1]
    · intro j timer hj
      obtain hj | rfl := Oldest.see_oldest hj
      · exact hc j timer hj
      · exact hr'

/-! ## The removal -/

/-- The state without its last entry. -/
def Reass.removeLast (s : Reass) (r : IpReassdata) : Reass :=
  ⟨s.reassdatagrams.dropLast, s.pbufcount - pbufClen r.p⟩

/-- Without the last entry the state is in order. -/
theorem Reass.Wf.removeLast {s : Reass} (hs : s.Wf) {front : List IpReassdata} {r : IpReassdata}
    (hlist : s.reassdatagrams = front ++ [r]) : (s.removeLast r).Wf := by
  have hcount := hs.count
  have hlimit := hs.limit
  rw [hlist, pbufs_concat] at hcount
  refine ⟨hs.entries.sublist (List.dropLast_sublist _), ?_, ?_⟩
  · rw [Reass.removeLast, hlist, List.dropLast_concat]
    change s.pbufcount - pbufClen r.p = pbufs front
    omega
  · change s.pbufcount - pbufClen r.p ≤ ipReassMaxPbufs
    omega

/-- The last entry is freed with the one before it as the previous one. -/
theorem freeCompleteDatagram_last {s : Reass} (hs : s.Wf) {front : List IpReassdata}
    {r : IpReassdata} (hlist : s.reassdatagrams = front ++ [r]) :
    freeCompleteDatagram s front.length
      (if (front ++ [r]).length ≤ 1 then none else some (0 + (front ++ [r]).length - 2)) =
        some (pbufClen r.p, s.removeLast r) := by
  have hqueued := hs.entries.queued r (by simp [hlist])
  have hcount := hs.count
  rw [hlist, pbufs_concat] at hcount
  have hprev : (if (front ++ [r]).length ≤ 1 then none
      else some (0 + (front ++ [r]).length - 2)) = none ∧ front.length = 0 ∨
      (if (front ++ [r]).length ≤ 1 then none
      else some (0 + (front ++ [r]).length - 2)).map (· + 1) = some front.length := by
    rw [List.length_append, List.length_singleton]
    by_cases hempty : front.length = 0
    · left
      exact ⟨if_pos (by omega), hempty⟩
    · right
      rw [if_neg (by omega), Option.map_some]
      congr 1
      omega
  have hget : s.reassdatagrams[front.length]? = some r := by simp [hlist]
  have herase : s.reassdatagrams.eraseIdx front.length = s.reassdatagrams.dropLast := by
    rw [hlist, List.eraseIdx_append_of_length_le (by omega)]
    simp
  rw [freeCompleteDatagram, hget]
  change (if _ then _ else _) = _
  rw [if_pos ⟨hprev, hqueued, by omega⟩, herase, Reass.removeLast]

/-- A round does nothing if all entries belong to the fragment's own datagram. -/
theorem removeOldestDatagram_own {key : BitVec 32 × BitVec 32 × BitVec 16} {s : Reass}
    (hown : ∀ r ∈ s.reassdatagrams, r.iphdr.key = key) (needed rounds freed : ℕ) :
    removeOldestDatagram key needed (rounds + 1) freed s = some (freed, s) := by
  rw [removeOldestDatagram]
  simp only [findOldest_own hown]

/-- A round removes the last entry if it is one of another datagram. -/
theorem removeOldestDatagram_last {key : BitVec 32 × BitVec 32 × BitVec 16} {s : Reass}
    (hs : s.Wf) {front : List IpReassdata} {r : IpReassdata}
    (hlist : s.reassdatagrams = front ++ [r]) (hother : r.iphdr.key ≠ key)
    (needed rounds freed : ℕ) :
    removeOldestDatagram key needed (rounds + 1) freed s =
      if freed + pbufClen r.p < needed ∧ ∃ r' ∈ front, r'.iphdr.key ≠ key then
        removeOldestDatagram key needed rounds (freed + pbufClen r.p) (s.removeLast r)
      else some (freed + pbufClen r.p, s.removeLast r) := by
  have hages := hs.entries.ages
  rw [hlist, List.map_append, List.pairwise_append] at hages
  have hle : ∀ r' ∈ front, r.timer ≤ r'.timer := by
    intro r' hr'
    exact hages.2.2 _ (List.mem_map_of_mem hr') r.timer (by simp)
  have holdest : (findOldest key s.reassdatagrams 0 ⟨none, none, 0⟩).oldest =
      some (front.length, r.timer) := by
    rw [hlist, findOldest_oldest hother (by simp) hle 0 _ (by simp), Nat.zero_add]
  have hothers : (findOldest key s.reassdatagrams 0 ⟨none, none, 0⟩).others > 1 ↔
      ∃ r' ∈ front, r'.iphdr.key ≠ key := by
    rw [findOldest_others, hlist, List.countP_append, List.countP_singleton,
      if_pos (by simpa using hother)]
    have hpos := List.countP_pos_iff (p := fun r => decide (r.iphdr.key ≠ key)) (l := front)
    simp only [decide_eq_true_eq] at hpos
    rw [← hpos]
    dsimp only
    omega
  have hfree := freeCompleteDatagram_last hs hlist
  rw [← hlist] at hfree
  rw [removeOldestDatagram]
  simp only [holdest, findOldest_prev, hothers, hfree, Option.bind_eq_bind, Option.bind_some]
  rfl

/-- A round fails if the last entry is the fragment's own and there are others. -/
theorem removeOldestDatagram_fails {key : BitVec 32 × BitVec 32 × BitVec 16} {s : Reass}
    (hs : s.Wf) {front : List IpReassdata} {own : IpReassdata}
    (hlist : s.reassdatagrams = front ++ [own]) (hkey : own.iphdr.key = key) (hfront : front ≠ [])
    (needed rounds freed : ℕ) :
    removeOldestDatagram key needed (rounds + 1) freed s = none := by
  obtain ⟨newer, r, rfl⟩ := (List.eq_nil_or_concat' front).resolve_left hfront
  have hlist' : s.reassdatagrams = newer ++ r :: [own] := by simpa using hlist
  have hother : r.iphdr.key ≠ key := by
    have hentries := hs.entries
    rw [hlist] at hentries
    rw [← hkey]
    exact hentries.key_ne r (by simp)
  have hages := hs.entries.ages
  rw [hlist', List.map_append, List.pairwise_append] at hages
  have hle : ∀ r' ∈ newer, r.timer ≤ r'.timer := by
    intro r' hr'
    exact hages.2.2 _ (List.mem_map_of_mem hr') r.timer (by simp)
  have holdest : (findOldest key s.reassdatagrams 0 ⟨none, none, 0⟩).oldest =
      some (newer.length, r.timer) := by
    rw [hlist', findOldest_oldest hother (by simp [hkey]) hle 0 _ (by simp), Nat.zero_add]
  have hprev : (findOldest key s.reassdatagrams 0 ⟨none, none, 0⟩).prev = some newer.length := by
    rw [findOldest_prev, hlist', if_neg (by simp)]
    simp
  have hfree : freeCompleteDatagram s newer.length (some newer.length) = none := by
    rw [freeCompleteDatagram]
    cases s.reassdatagrams[newer.length]? with
    | none => rfl
    | some ipr =>
      change (if _ then _ else _) = _
      rw [if_neg]
      simp
  rw [removeOldestDatagram]
  simp only [holdest, hprev, hfree, Option.bind_eq_bind, Option.bind_none]

/-- What remains of a state when entries are removed at the end of its list. -/
structure Reass.Shed (s t : Reass) : Prop where
  wf : t.Wf
  kept : t.reassdatagrams <+: s.reassdatagrams
  count : t.pbufcount ≤ s.pbufcount

/-- Nothing is removed. -/
theorem Reass.Wf.shed {s : Reass} (hs : s.Wf) : s.Shed s := ⟨hs, List.prefix_rfl, le_rfl⟩

/-- The last entry is removed. -/
theorem Reass.Wf.shed_removeLast {s : Reass} (hs : s.Wf) {front : List IpReassdata}
    {r : IpReassdata} (hlist : s.reassdatagrams = front ++ [r]) : s.Shed (s.removeLast r) where
  wf := hs.removeLast hlist
  kept := List.dropLast_prefix _
  count := Nat.sub_le _ _

/-- Entries are removed after others. -/
theorem Reass.Shed.trans {s t u : Reass} (hst : s.Shed t) (htu : t.Shed u) : s.Shed u where
  wf := htu.wf
  kept := htu.kept.trans hst.kept
  count := htu.count.trans hst.count

/-- The removal of old datagrams takes some of them from the end, and never the fragment's
own. -/
theorem removeOldestDatagram_shed {key : BitVec 32 × BitVec 32 × BitVec 16} {needed rounds : ℕ}
    {freed n : ℕ} {s t : Reass} (hs : s.Wf)
    (h : removeOldestDatagram key needed rounds freed s = some (n, t)) :
    s.Shed t ∧ ∀ r ∈ s.reassdatagrams, r.iphdr.key = key → r ∈ t.reassdatagrams := by
  induction rounds generalizing freed s with
  | zero => simp [removeOldestDatagram] at h
  | succ rounds ih =>
    obtain hnil | ⟨front, r, hlist⟩ := List.eq_nil_or_concat' s.reassdatagrams
    · rw [removeOldestDatagram_own (by simp [hnil])] at h
      obtain ⟨-, rfl⟩ := Prod.mk.inj (Option.some.inj h)
      exact ⟨hs.shed, fun r hr _ => hr⟩
    · by_cases hother : r.iphdr.key ≠ key
      · have hkept : ∀ r' ∈ s.reassdatagrams, r'.iphdr.key = key →
            r' ∈ (s.removeLast r).reassdatagrams := by
          intro r' hr' hkey
          rw [hlist, List.mem_append, List.mem_singleton] at hr'
          obtain hr' | rfl := hr'
          · rw [Reass.removeLast, hlist, List.dropLast_concat]
            exact hr'
          · exact absurd hkey hother
        rw [removeOldestDatagram_last hs hlist hother] at h
        split_ifs at h with hmore
        · obtain ⟨hshed, hown⟩ := ih (hs.removeLast hlist) h
          exact ⟨(hs.shed_removeLast hlist).trans hshed,
            fun r' hr' hkey => hown r' (hkept r' hr' hkey) hkey⟩
        · obtain ⟨-, rfl⟩ := Prod.mk.inj (Option.some.inj h)
          exact ⟨hs.shed_removeLast hlist, hkept⟩
      · rw [ne_eq, not_not] at hother
        by_cases hfront : front = []
        · rw [removeOldestDatagram_own (by simp [hlist, hfront, hother])] at h
          obtain ⟨-, rfl⟩ := Prod.mk.inj (Option.some.inj h)
          exact ⟨hs.shed, fun r hr _ => hr⟩
        · rw [removeOldestDatagram_fails hs hlist hother hfront] at h
          simp at h

/-- The fragment's own datagram comes before some pbufs that are not enough for the fragment,
and behind other datagrams. -/
def Reass.Blocked (s : Reass) (key : BitVec 32 × BitVec 32 × BitVec 16) (needed : ℕ) : Prop :=
  ∃ newer own older, s.reassdatagrams = newer ++ own :: older ∧ newer ≠ [] ∧
    own.iphdr.key = key ∧ pbufs older < needed

/-- A state whose last entry is one of another datagram is blocked if what remains without it is
blocked for the rest. -/
theorem Reass.blocked_last_iff {key : BitVec 32 × BitVec 32 × BitVec 16} {needed : ℕ} {s : Reass}
    {front : List IpReassdata} {r : IpReassdata} (hlist : s.reassdatagrams = front ++ [r])
    (hother : r.iphdr.key ≠ key) :
    s.Blocked key needed ↔ (s.removeLast r).Blocked key (needed - pbufClen r.p) := by
  have hfront : (s.removeLast r).reassdatagrams = front := by
    rw [Reass.removeLast, hlist, List.dropLast_concat]
  constructor
  · rintro ⟨newer, own, older, hlist', hnewer, hkey, hfew⟩
    obtain rfl | ⟨older, r', rfl⟩ := List.eq_nil_or_concat' older
    · rw [hlist] at hlist'
      obtain ⟨-, hlast⟩ := List.append_inj' hlist' (by simp)
      obtain rfl : r = own := by simpa using hlast
      exact absurd hkey hother
    · rw [hlist, ← List.cons_append, ← List.append_assoc] at hlist'
      obtain ⟨hinit, hlast⟩ := List.append_inj' hlist' (by simp)
      obtain rfl : r = r' := by simpa using hlast
      rw [pbufs_concat] at hfew
      exact ⟨newer, own, older, hfront.trans hinit, hnewer, hkey, by omega⟩
  · rintro ⟨newer, own, older, hlist', hnewer, hkey, hfew⟩
    refine ⟨newer, own, older ++ [r], ?_, hnewer, hkey, ?_⟩
    · rw [hlist, ← hfront, hlist']
      simp
    · rw [pbufs_concat]
      omega

/-- **The removal fails an assertion** exactly if the fragment's own datagram stands in the way
before enough pbufs are free. -/
theorem removeOldestDatagram_eq_none_iff {key : BitVec 32 × BitVec 32 × BitVec 16}
    {needed rounds freed : ℕ} {s : Reass} (hs : s.Wf) (hrounds : s.reassdatagrams.length < rounds)
    (hneeded : freed < needed) :
    removeOldestDatagram key needed rounds freed s = none ↔ s.Blocked key (needed - freed) := by
  induction rounds generalizing freed s with
  | zero => omega
  | succ rounds ih =>
    obtain hnil | ⟨front, r, hlist⟩ := List.eq_nil_or_concat' s.reassdatagrams
    · rw [removeOldestDatagram_own (by simp [hnil])]
      simp [Reass.Blocked, hnil]
    · by_cases hother : r.iphdr.key ≠ key
      · have hfront : (s.removeLast r).reassdatagrams = front := by
          rw [Reass.removeLast, hlist, List.dropLast_concat]
        rw [removeOldestDatagram_last hs hlist hother, Reass.blocked_last_iff hlist hother]
        split_ifs with hmore
        · rw [ih (hs.removeLast hlist) _ hmore.1, Nat.sub_sub]
          rw [hfront]
          rw [hlist, List.length_append, List.length_singleton] at hrounds
          omega
        · refine iff_of_false (by simp) ?_
          rintro ⟨newer, own, older, hlist', hnewer, hkey, hfew⟩
          rw [hfront] at hlist'
          obtain ⟨r', newer, rfl⟩ := List.exists_cons_of_ne_nil hnewer
          refine hmore ⟨by omega, r', by simp [hlist'], ?_⟩
          rw [← hkey]
          have hentries := (hs.removeLast hlist).entries
          rw [hfront, hlist'] at hentries
          exact hentries.key_ne r' (by simp)
      · rw [ne_eq, not_not] at hother
        by_cases hempty : front = []
        · rw [removeOldestDatagram_own (by simp [hlist, hempty, hother])]
          refine iff_of_false (by simp) ?_
          rintro ⟨newer, own, older, hlist', hnewer, hkey, hfew⟩
          have hlen := congrArg List.length (hlist.symm.trans hlist')
          have hpos := List.length_pos_iff.mpr hnewer
          simp only [hempty, List.nil_append, List.length_append, List.length_cons,
            List.length_nil] at hlen
          omega
        · rw [removeOldestDatagram_fails hs hlist hother hempty]
          refine iff_of_true (by simp) ⟨front, r, [], hlist, hempty, hother, ?_⟩
          rw [pbufs, List.map_nil, List.sum_nil]
          omega

end WifiMcu.Lwip
