import WifiMcu.Lwip.Arrival

/-!
# Pieces in order

The pieces of one datagram come in order, and nothing else comes. Each of them is taken or lost,
and the datagram is put together if none is lost.
-/

namespace WifiMcu.Lwip

open WifiMcu.System Pieces

/-- The entry of the datagram is the only one. -/
structure Cut.Alone (c : Cut) (fs : List Datagram) (ks : List ℕ) (s : Reass) : Prop where
  tracks : c.Tracks fs ks 0 s
  only : ∀ key ≠ c.key, s.lookup key = none

/-- All entries are those of the datagram. -/
theorem Cut.Alone.own {c : Cut} {fs : List Datagram} {ks : List ℕ} {s : Reass}
    (h : c.Alone fs ks s) : ∀ r ∈ s.reassdatagrams, r.iphdr.key = c.key := by
  intro r hr
  by_contra hne
  have hnone := h.only r.iphdr.key hne
  rw [Reass.lookup, List.find?_eq_none] at hnone
  simpa using hnone r hr

/-- There is an entry to spare. -/
theorem Cut.Alone.fits {c : Cut} {fs : List Datagram} {ks : List ℕ} {s : Reass}
    (h : c.Alone fs ks s) {k : ℕ} {p : Datagram} (hp : c.IsPiece k p)
    (hroom : s.pbufcount + p.clen ≤ ipReassMaxPbufs) : s.Fits p := by
  refine ⟨hroom, fun hfresh => ?_⟩
  cases hlist : s.reassdatagrams with
  | nil => decide
  | cons r rs =>
    have hr : r ∈ s.reassdatagrams := by simp [hlist]
    exact absurd ((h.own r hr).trans hp.key.symm) (hfresh r hr)

/-- A piece for which there is no room is lost, since there is no other entry to remove. -/
theorem Cut.Alone.refused {c : Cut} {fs : List Datagram} {ks : List ℕ} {s : Reass}
    (h : c.Alone fs ks s) {k : ℕ} {p : Datagram} (hp : c.IsPiece k p)
    (hroom : ipReassMaxPbufs < s.pbufcount + p.clen) : ipReass s p = some (none, s) := by
  have hremove : s.removeOldest p = some (0, s) :=
    removeOldestDatagram_own (fun r hr => (h.own r hr).trans hp.key.symm) _ _ _
  have hmake : s.makeRoom p = some (false, s) := by
    rw [Reass.makeRoom, if_pos hroom, hremove]
    rfl
  rw [ipReass, if_neg (not_not.mpr hp.hl), hmake]
  rfl

/-- A new piece for which there is room is taken, and its pbufs are counted if it is queued. -/
theorem Cut.Alone.taken {c : Cut} {fs : List Datagram} {ks : List ℕ} {s : Reass}
    (h : c.Alone fs ks s) {k : ℕ} {p : Datagram} (hp : c.IsPiece k p) (hfs : p ∈ fs)
    (hk : k ∉ ks) (hroom : s.pbufcount + p.clen ≤ ipReassMaxPbufs) :
    ∃ d s', ipReass s p = some (d, s') ∧
      (d = none ∧ c.Alone fs (ks ++ [k]) s' ∧ s'.pbufcount = s.pbufcount + p.clen ∧
          ¬ (∀ j ≤ c.last, j ∈ k :: ks) ∨
        ((∀ j ≤ c.last, j ∈ k :: ks) ∨ Leaky c.last ks k) ∧
          ∃ is d', d = some d' ∧ (∀ j, j ∈ is ↔ j ∈ k :: ks) ∧ c.Gives fs is d') := by
  have hfits := h.fits hp hroom
  obtain ⟨a, newer, older, ha, heq⟩ := h.tracks.accepted hp hfs hfits
  obtain ⟨is, hholds, -, hmem, -⟩ := h.tracks.entryFor hp hfs
  refine ⟨_, _, heq, ?_⟩
  obtain ⟨hnone, htracks, hnot⟩ | ⟨-, hcase, -, is', d', hsome, hgives⟩ :=
    h.tracks.own hp hfs hfits heq
  · obtain ⟨-, -, -, -, hothers⟩ := ipReass_lookup h.tracks.wf hfits hp.hl heq
    refine Or.inl ⟨hnone, ⟨htracks, fun key hne => ?_⟩, ?_, (hnot hk).1⟩
    · rw [hothers key (hp.key ▸ hne)]
      exact h.only key hne
    · obtain ⟨hk', -⟩ | ⟨-, is', ps, -, -, -, ⟨rfl, -⟩ | ⟨rfl, -⟩⟩ := hholds.accept hp ha
      · exact absurd ((hmem k).mp hk') hk
      · simp [Accepted.delivered] at hnone
      · rfl
  · exact Or.inr ⟨hcase, is', d', hsome, hgives⟩

/-- **Run with a piece missing.** If the pieces come in order and one has been lost, nothing is
delivered. -/
theorem Cut.Alone.run_missing {c : Cut} {fs : List Datagram} {n k : ℕ} {ps : List Datagram}
    {ks : List ℕ} {s : Reass} (h : c.Alone fs ks s) (ds : List Datagram)
    (hps : List.Forall₂ c.IsPiece (List.range' k n) ps) (hfs : ∀ p ∈ ps, p ∈ fs)
    (hks : ∀ j ∈ ks, j < k) {m : ℕ} (hm : m < k) (hmissing : m ∉ ks) :
    ∃ s', Transition.run reassStep (s, ds) (ps.map .fragment) = some (s', ds) := by
  induction n generalizing k ps ks s with
  | zero =>
    cases hps
    exact ⟨s, rfl⟩
  | succ n ih =>
    rw [List.range'_succ] at hps
    cases hps with
    | @cons _ p _ ps hp hps =>
      have hfs' : ∀ q ∈ ps, q ∈ fs := fun q hq => hfs q (List.mem_cons_of_mem _ hq)
      have hle := hp.le
      by_cases hroom : s.pbufcount + p.clen ≤ ipReassMaxPbufs
      · have hk : k ∉ ks := fun hk => lt_irrefl k (hks k hk)
        obtain ⟨d, s', hreass, hcase⟩ := h.taken hp (hfs p List.mem_cons_self) hk hroom
        obtain ⟨rfl, halone, -⟩ | ⟨hall | ⟨hlt, _, -, -, hleaky⟩, -⟩ := hcase
        · obtain ⟨s'', hrun⟩ := ih halone hps hfs' (by
            intro j hj
            obtain hj | hj := List.mem_append.mp hj
            · exact (hks j hj).trans (Nat.lt_succ_self k)
            · exact List.mem_singleton.mp hj ▸ Nat.lt_succ_self k) (by omega) (by
            simp only [List.mem_append, List.mem_singleton, not_or]
            exact ⟨hmissing, hm.ne⟩)
          refine ⟨s'', (Transition.run_cons_eq_some reassStep).mpr ⟨(s', ds), ?_, hrun⟩⟩
          simp [reassStep, hreass]
        · have := List.mem_cons.mp (hall m (by omega))
          obtain rfl | hmem := this
          · exact absurd hm (lt_irrefl m)
          · exact absurd hmem hmissing
        · have hlast := (hleaky c.last le_rfl).mpr (Or.inr hle)
          obtain hlast | hlast := List.mem_cons.mp hlast
          · omega
          · have := hks _ hlast
            omega
      · obtain ⟨s'', hrun⟩ := ih h hps hfs' (fun j hj => (hks j hj).trans (Nat.lt_succ_self k))
          (by omega) hmissing
        refine ⟨s'', (Transition.run_cons_eq_some reassStep).mpr ⟨(s, ds), ?_, hrun⟩⟩
        simp [reassStep, h.refused hp (by omega)]

/-- **Run in order.** If the pieces come in order, the datagram is put together exactly if the
last one comes too and there is room for the pbufs of all of them. -/
theorem Cut.Alone.run {c : Cut} {fs : List Datagram} {n k : ℕ} {ps : List Datagram}
    {s : Reass} (h : c.Alone fs (List.range' 0 k) s) (ds : List Datagram) (hk : k ≤ c.last)
    (hps : List.Forall₂ c.IsPiece (List.range' k n) ps) (hfs : ∀ p ∈ ps, p ∈ fs) :
    ∃ s' ds', Transition.run reassStep (s, ds) (ps.map .fragment) = some (s', ds') ∧
      (k + n = c.last + 1 ∧ s.pbufcount + pbufClen ps ≤ ipReassMaxPbufs →
        ∃ f ∈ fs, c.IsPiece 0 f ∧ ∃ d, ds' = ds ++ [d] ∧ d.hdr = c.header f ∧ d.data = c.data) ∧
      (¬ (k + n = c.last + 1 ∧ s.pbufcount + pbufClen ps ≤ ipReassMaxPbufs) → ds' = ds) := by
  induction ps generalizing k n s with
  | nil =>
    have hlength := hps.length_eq
    rw [List.length_range', List.length_nil] at hlength
    exact ⟨s, ds, rfl, fun hall => by omega, fun _ => rfl⟩
  | cons p ps ih =>
    obtain ⟨n, rfl⟩ : ∃ n', n = n' + 1 := by
      have hlength := hps.length_eq
      rw [List.length_range', List.length_cons] at hlength
      exact ⟨_, hlength⟩
    rw [List.range'_succ] at hps
    obtain ⟨hp, hps⟩ := List.forall₂_cons.mp hps
    have hfs' : ∀ q ∈ ps, q ∈ fs := fun q hq => hfs q (List.mem_cons_of_mem _ hq)
    have hnew : k ∉ List.range' 0 k := by simp
    have hclen : pbufClen (p :: ps) = p.clen + pbufClen ps := rfl
    rw [hclen]
    by_cases hroom : s.pbufcount + p.clen ≤ ipReassMaxPbufs
    · obtain ⟨d, s', hreass, hcase⟩ := h.taken hp (hfs p List.mem_cons_self) hnew hroom
      have hstep : reassStep (s, ds) (.fragment p) = some (s', ds ++ d.toList) := by
        simp [reassStep, hreass]
      obtain ⟨rfl, halone, hcount, hnot⟩ | ⟨hfull, is, d', rfl, hmem, hgives⟩ := hcase
      · have hnext : k + 1 ≤ c.last := by
          by_contra hlast
          refine hnot fun j hj => ?_
          rw [List.mem_cons, List.mem_range'_1]
          omega
        have hconcat : List.range' 0 k ++ [k] = List.range' 0 (k + 1) := by
          rw [List.range'_1_concat, Nat.zero_add]
        rw [hconcat] at halone
        obtain ⟨s'', ds'', hrun, hgood⟩ := ih halone hnext hps hfs'
        rw [hcount, Nat.add_assoc, Nat.add_assoc, Nat.add_comm 1 n] at hgood
        rw [Option.toList_none, List.append_nil] at hstep
        exact ⟨s'', ds'', (Transition.run_cons_eq_some reassStep).mpr ⟨_, hstep, hrun⟩, hgood⟩
      · have hlast : c.last ∈ k :: List.range' 0 k := by
          obtain hall | ⟨-, _, -, -, hleaky⟩ := hfull
          · exact hall c.last le_rfl
          · exact (hleaky c.last le_rfl).mpr (Or.inr hp.le)
        rw [List.mem_cons, List.mem_range'_1] at hlast
        obtain rfl : n = 0 := by
          by_contra hmore
          have hle := Cut.Holds.le hps (k + 1) (List.mem_range'_1.mpr (by omega))
          omega
        cases hps
        have hall : ∀ j ≤ c.last, j ∈ is := by
          intro j hj
          rw [hmem, List.mem_cons, List.mem_range'_1]
          omega
        obtain ⟨f, hf, hpiece, hhdr, hdata⟩ := hgives.whole hall
        have hnil : pbufClen [] = 0 := rfl
        refine ⟨s', ds ++ [d'], (Transition.run_cons_eq_some reassStep).mpr ⟨_, hstep, rfl⟩, ?_, ?_⟩
        · exact fun _ => ⟨f, hf, hpiece, d', rfl, hhdr, hdata⟩
        · intro hover
          omega
    · obtain ⟨s', hrun⟩ := h.run_missing ds hps hfs'
        (fun j hj => by rw [List.mem_range'_1] at hj; omega) (Nat.lt_succ_self k) hnew
      have hstep : reassStep (s, ds) (.fragment p) = some (s, ds) := by
        simp [reassStep, h.refused hp (by omega)]
      refine ⟨s', ds, (Transition.run_cons_eq_some reassStep).mpr ⟨_, hstep, hrun⟩, ?_,
        fun _ => rfl⟩
      intro hfits
      omega

end WifiMcu.Lwip
