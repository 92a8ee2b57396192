import WifiMcu.Lwip.Cut
import WifiMcu.Lwip.Lookup

/-!
# Order of arrival

The fragments of a datagram can arrive in any order, and again and again, among those of other
datagrams. If there is room for all of them, the datagram is put together from all its pieces,
unless one arrives that closes a gap behind it while there is still one directly in front of it:
`ip_reass_chain_frag_into_datagram_and_validate` does not look there.
-/

namespace WifiMcu.Lwip

open WifiMcu.System Pieces

/-! ## The entry of the datagram -/

/-- The state after the pieces with some numbers have arrived, and some ticks: there is no entry
if there are none, and otherwise the entry holds them. -/
structure Cut.Tracks (c : Cut) (fs : List Datagram) (ks : List ℕ) (ticks : ℕ) (s : Reass) :
    Prop where
  wf : s.Wf
  entry : ks = [] ∧ s.lookup c.key = none ∨
    ∃ ipr is, s.lookup c.key = some ipr ∧ c.Holds is ipr ∧ c.Headed fs is ipr.iphdr ∧
      (∀ j, j ∈ is ↔ j ∈ ks) ∧ ipReassMaxage ≤ ipr.timer + ticks

/-- The entry for a fragment is one of its datagram. -/
theorem Reass.entryFor_key (s : Reass) (p : Datagram) :
    (s.entryFor p).iphdr.key = p.hdr.key := by
  rw [Reass.entryFor]
  cases hlookup : s.lookup p.hdr.key with
  | none => rfl
  | some r => exact IpReassdata.keepHeader_key (by simpa using List.find?_some hlookup)

/-- A datagram that is delivered is one of the fragment that has completed it. -/
theorem IpReassdata.accept_delivered_key {ipr : IpReassdata} {p d : Datagram} {a : Accepted}
    (ha : ipr.accept p = some a) (hd : a.delivered = some d) : d.hdr.key = ipr.iphdr.key := by
  obtain ⟨rfl, -⟩ | ⟨before, after, -, -, -, rfl | ⟨rfl, -⟩⟩ := IpReassdata.accept_cases ha
  · simp [Accepted.delivered] at hd
  · simp [Accepted.delivered] at hd
  · obtain rfl := Option.some.inj hd
    rfl

/-- A fragment of another datagram changes nothing. -/
theorem Cut.Tracks.other {c : Cut} {fs : List Datagram} {ks : List ℕ} {ticks : ℕ} {s s' : Reass}
    (h : c.Tracks fs ks ticks s) {p : Datagram} (hkey : p.hdr.key ≠ c.key) (hfits : s.Fits p)
    {d : Option Datagram} (hreass : ipReass s p = some (d, s')) :
    c.Tracks fs ks ticks s' ∧ c.delivered d.toList = [] := by
  have hwf := h.wf.ipReass hreass
  by_cases hhl : p.hdr.hl * 4 = ipHlen
  · obtain ⟨a, ha, rfl, -, hothers⟩ := ipReass_lookup h.wf hfits hhl hreass
    refine ⟨⟨hwf, ?_⟩, ?_⟩
    · rw [hothers c.key hkey.symm]
      exact h.entry
    · cases hd : a.delivered with
      | none => rfl
      | some d =>
        have hdkey := (IpReassdata.accept_delivered_key ha hd).trans (s.entryFor_key p)
        simp [Cut.delivered, hdkey, hkey]
  · rw [ipReass, if_pos hhl] at hreass
    obtain ⟨rfl, rfl⟩ := Prod.mk.inj (Option.some.inj hreass)
    exact ⟨h, rfl⟩

/-- A tick changes nothing while the time is not over. -/
theorem Cut.Tracks.tick {c : Cut} {fs : List Datagram} {ks : List ℕ} {ticks : ℕ} {s s' : Reass}
    (h : c.Tracks fs ks ticks s) (hticks : ticks < ipReassMaxage) (htmr : ipReassTmr s = some s') :
    c.Tracks fs ks (ticks + 1) s' := by
  obtain ⟨hnone, hsome⟩ := ipReassTmr_lookup h.wf htmr c.key
  refine ⟨h.wf.ipReassTmr htmr, ?_⟩
  obtain ⟨hks, hlookup⟩ | ⟨ipr, is, hlookup, hholds, hheaded, hmem, htimer⟩ := h.entry
  · exact Or.inl ⟨hks, hnone hlookup⟩
  · refine Or.inr ⟨ipr.tick, is, hsome ipr hlookup (by omega), ?_, hheaded, hmem, ?_⟩
    · exact ⟨hholds.ascending, hholds.pieces, hholds.lastfrag, hholds.length⟩
    · change ipReassMaxage ≤ ipr.timer - 1 + (ticks + 1)
      omega

/-- What a piece makes of the entry that it goes to, before it is queued. -/
theorem Cut.Tracks.entryFor {c : Cut} {fs : List Datagram} {ks : List ℕ} {ticks : ℕ} {s : Reass}
    (h : c.Tracks fs ks ticks s) {k : ℕ} {p : Datagram} (hp : c.IsPiece k p) (hfs : p ∈ fs) :
    ∃ is, c.Holds is (s.entryFor p) ∧ c.Headed fs (k :: is) (s.entryFor p).iphdr ∧
      (∀ j, j ∈ is ↔ j ∈ ks) ∧ ipReassMaxage ≤ (s.entryFor p).timer + ticks := by
  have hself : c.IsPiece k p ∧ p.hdr = p.hdr ∧ (0 ∈ [k] → k = 0) :=
    ⟨hp, rfl, fun hmem => (List.mem_singleton.mp hmem).symm⟩
  rw [Reass.entryFor, hp.key]
  obtain ⟨rfl, hlookup⟩ | ⟨ipr, is, hlookup, hholds, hheaded, hmem, htimer⟩ := h.entry
  · rw [hlookup]
    refine ⟨[], ⟨.nil, .nil, by simp [IpReassdata.started], by simp⟩, ⟨p, hfs, k, hself⟩,
      by simp, Nat.le_add_right _ _⟩
  · rw [hlookup, Option.map_some, Option.getD_some]
    refine ⟨is, ?_, ?_, hmem, ?_⟩
    · rw [IpReassdata.keepHeader]
      split_ifs
      · exact ⟨hholds.ascending, hholds.pieces, hholds.lastfrag, hholds.length⟩
      · exact hholds
    · obtain ⟨f, hf, j, hpiece, hhdr, hzero⟩ := hheaded
      have hstart : ∀ {i q}, c.IsPiece i q → (q.hdr.offset &&& ipOffmask = 0 ↔ i = 0) := by
        intro i q hq
        rw [← q.start_eq_zero_iff, hq.start_eq_zero_iff]
      rw [IpReassdata.keepHeader]
      split_ifs with hnew
      · exact ⟨p, hfs, k, hp, rfl, fun _ => (hstart hp).mp hnew.1⟩
      · refine ⟨f, hf, j, hpiece, hhdr, ?_⟩
        intro hmem'
        obtain rfl | hmem' := List.mem_cons.mp hmem'
        · by_contra hj
          refine hnew ⟨(hstart hp).mpr rfl, fun hzero' => hj ((hstart hpiece).mp ?_)⟩
          rw [hhdr, hzero']
        · exact hzero hmem'
    · rw [IpReassdata.keepHeader_timer]
      exact htimer

/-- What is delivered when a piece arrives: the pieces with some numbers, with the header of one
of them. -/
structure Cut.Gives (c : Cut) (fs : List Datagram) (is : List ℕ) (d : Datagram) : Prop where
  ascending : is.Pairwise (· < ·)
  le : ∀ j ∈ is, j ≤ c.last
  data : d.data = is.flatMap (piece c.data c.offs)
  hdr : ∃ f ∈ fs, ∃ j, c.IsPiece j f ∧ (0 ∈ is → j = 0) ∧ d.hdr = c.header f

/-- A piece for which there is room does not fail an assertion. -/
theorem Cut.Tracks.accepted {c : Cut} {fs : List Datagram} {ks : List ℕ} {ticks : ℕ} {s : Reass}
    (h : c.Tracks fs ks ticks s) {k : ℕ} {p : Datagram} (hp : c.IsPiece k p) (hfs : p ∈ fs)
    (hfits : s.Fits p) : ∃ a newer older, (s.entryFor p).accept p = some a ∧
      ipReass s p = some (a.delivered, a.state newer older s.pbufcount p.clen) := by
  obtain ⟨newer, older, -, heq⟩ := ipReass_eq h.wf hfits hp.hl
  obtain ⟨is, hholds, -⟩ := h.entryFor hp hfs
  obtain ⟨a, ha⟩ := Option.ne_none_iff_exists'.mp (hholds.accept_ne_none hp)
  rw [ha, Option.map_some] at heq
  exact ⟨a, newer, older, ha, heq⟩

/-- **A piece arrives.** Nothing is delivered unless all pieces have arrived now or the piece is
leaky; then what has arrived is delivered, and the entry is gone. -/
theorem Cut.Tracks.own {c : Cut} {fs : List Datagram} {ks : List ℕ} {ticks : ℕ} {s s' : Reass}
    (h : c.Tracks fs ks ticks s) {k : ℕ} {p : Datagram} (hp : c.IsPiece k p) (hfs : p ∈ fs)
    (hfits : s.Fits p) {d : Option Datagram} (hreass : ipReass s p = some (d, s')) :
    (d = none ∧ c.Tracks fs (ks ++ [k]) ticks s' ∧
        (k ∉ ks → ¬ (∀ j ≤ c.last, j ∈ k :: ks) ∧ ¬ Leaky c.last ks k)) ∨
      k ∉ ks ∧ ((∀ j ≤ c.last, j ∈ k :: ks) ∨ Leaky c.last ks k) ∧ c.Tracks fs [] ticks s' ∧
        ∃ is d', d = some d' ∧ (∀ j, j ∈ is ↔ j ∈ k :: ks) ∧ c.Gives fs is d' := by
  obtain ⟨a, ha, rfl, hentry, -⟩ := ipReass_lookup h.wf hfits hp.hl hreass
  obtain ⟨is, hholds, hheaded, hmem, htimer⟩ := h.entryFor hp hfs
  rw [hp.key] at hentry
  have hwf := h.wf.ipReass hreass
  have hcons : ∀ j, j ∈ k :: is ↔ j ∈ k :: ks := by
    intro j
    rw [List.mem_cons, List.mem_cons, hmem]
  have hconcat : ∀ j, j ∈ ks ++ [k] ↔ j ∈ k :: ks := by
    intro j
    simp [or_comm]
  have hleaky := @leaky_congr c.last k _ _ hmem
  obtain ⟨hk, rfl⟩ | ⟨hk, is', ps, hascending, hmem', hpieces, hcase⟩ := hholds.accept hp ha
  · left
    have hks := (hmem k).mp hk
    have hsame : ∀ j, j ∈ is ↔ j ∈ k :: is := by
      intro j
      rw [List.mem_cons]
      exact ⟨Or.inr, fun hj => hj.elim (fun heq => heq ▸ hk) id⟩
    refine ⟨rfl, ⟨hwf, Or.inr ⟨_, is, hentry, ?_, ?_, ?_, htimer⟩⟩, fun hnot => absurd hks hnot⟩
    · obtain ⟨hlast, hlength⟩ := hholds.note hp
      rw [← hsame] at hlast hlength
      exact ⟨hholds.ascending, hholds.pieces, hlast, hlength⟩
    · obtain ⟨f, hf, j, hpiece, hhdr, hzero⟩ := hheaded
      exact ⟨f, hf, j, hpiece, hhdr, fun hmem => hzero (List.mem_cons_of_mem _ hmem)⟩
    · intro j
      rw [hconcat, ← hcons, ← hsame]
  · have hks : k ∉ ks := fun hks => hk ((hmem k).mpr hks)
    obtain ⟨hlast, hlength⟩ := hholds.note hp
    rw [← hmem'] at hlast hlength
    have hall : (∀ j ≤ c.last, j ∈ is') ↔ ∀ j ≤ c.last, j ∈ k :: ks := by
      simp only [hmem', hcons]
    rw [hall, hleaky] at hcase
    obtain ⟨rfl, hlastmem, hpass⟩ | ⟨rfl, hnot, hnotLeaky⟩ := hcase
    · right
      refine ⟨hks, hpass, ⟨hwf, Or.inl ⟨rfl, hentry⟩⟩, is', _, rfl,
        fun j => (hmem' j).trans (hcons j), hascending, Cut.Holds.le hpieces,
        Cut.flatMap_data hpieces, ?_⟩
      obtain ⟨f, hf, j, hpiece, hhdr, hzero⟩ := hheaded
      refine ⟨f, hf, j, hpiece, fun hmem => hzero ((hmem' 0).mp hmem), ?_⟩
      rw [Cut.header, hhdr, IpReassdata.datagram, hlength hlastmem]
      rfl
    · left
      refine ⟨rfl, ⟨hwf, Or.inr ⟨_, is', hentry, ⟨hascending, hpieces, hlast, hlength⟩, ?_, ?_,
        htimer⟩⟩, fun _ => ⟨hnot, hnotLeaky⟩⟩
      · obtain ⟨f, hf, j, hpiece, hhdr, hzero⟩ := hheaded
        exact ⟨f, hf, j, hpiece, hhdr, fun hmem => hzero ((hmem' 0).mp hmem)⟩
      · intro j
        rw [hmem', hcons, hconcat]

/-- There is room for a fragment that arrives. -/
def Roomy (s : Reass × List Datagram) : ReassEvent → Prop
  | .fragment p => s.1.Fits p
  | .tick => True

/-- Whether there is room can be decided. -/
instance Reass.Fits.decidable (s : Reass) (p : Datagram) : Decidable (s.Fits p) :=
  decidable_of_iff (s.pbufcount + p.clen ≤ ipReassMaxPbufs ∧
    ((∀ r ∈ s.reassdatagrams, r.iphdr.key ≠ p.hdr.key) →
      s.reassdatagrams.length < mempNumReassdata)) ⟨fun h => ⟨h.1, h.2⟩, fun h => ⟨h.1, h.2⟩⟩

@[inherit_doc Reass.Fits.decidable] instance Roomy.decidable :
    ∀ s e, Decidable (Roomy s e)
  | s, .fragment p => Reass.Fits.decidable s.1 p
  | _, .tick => isTrue trivial

/-- A datagram with a part of the data, but the length of all of it. -/
structure Cut.Truncated (c : Cut) (d : Datagram) : Prop where
  key : d.hdr.key = c.key
  len : d.hdr.len = BitVec.ofNat 16 (c.data.length + ipHlen)
  short : d.data.length < c.data.length

/-- What is delivered while a piece is missing is truncated. -/
theorem Cut.Gives.truncated {c : Cut} {fs : List Datagram} {is : List ℕ} {d : Datagram}
    (h : c.Gives fs is d) {m : ℕ} (hm : m ≤ c.last) (hmissing : m ∉ is) : c.Truncated d := by
  obtain ⟨f, -, j, hpiece, -, hhdr⟩ := h.hdr
  refine ⟨?_, ?_, ?_⟩
  · rw [hhdr, ← hpiece.key]
    rfl
  · rw [hhdr]
    rfl
  · rw [h.data]
    exact c.flatMap_lt h.ascending h.le hm hmissing

/-- What is delivered when no piece is missing is the whole datagram. -/
theorem Cut.Gives.whole {c : Cut} {fs : List Datagram} {is : List ℕ} {d : Datagram}
    (h : c.Gives fs is d) (hall : ∀ j ≤ c.last, j ∈ is) :
    ∃ f ∈ fs, c.IsPiece 0 f ∧ d.hdr = c.header f ∧ d.data = c.data := by
  obtain ⟨f, hf, j, hpiece, hzero, hhdr⟩ := h.hdr
  obtain rfl := hzero (hall 0 (Nat.zero_le _))
  have hrange : is = List.range' 0 (c.last + 1) := by
    apply eq_range'_of_mem h.ascending
    intro j
    constructor
    · intro hj
      have := h.le j hj
      omega
    · exact fun hj => hall j (by omega)
  refine ⟨f, hf, hpiece, hhdr, ?_⟩
  rw [h.data, hrange, c.flatMap_all]

/-- What has been delivered stays delivered. -/
theorem delivered_kept {es : List ReassEvent} {s s' : Reass × List Datagram}
    (h : Transition.run reassStep s es = some s') : s.2 <+: s'.2 := by
  induction es generalizing s with
  | nil =>
    obtain rfl : s = s' := by simpa using h
    exact List.prefix_rfl
  | cons e es ih =>
    obtain ⟨t, hstep, hrun⟩ := (Transition.run_cons_eq_some reassStep).mp h
    refine List.IsPrefix.trans ?_ (ih hrun)
    cases e with
    | fragment p =>
      obtain ⟨r, -, rfl⟩ := Option.map_eq_some_iff.mp hstep
      exact List.prefix_append _ _
    | tick =>
      obtain ⟨r, -, rfl⟩ := Option.map_eq_some_iff.mp hstep
      exact List.prefix_rfl

/-- The fragments of the datagram, one event after the other. -/
theorem Cut.mine_cons (c : Cut) (e : ReassEvent) (es : List ReassEvent) :
    c.mine (e :: es) = c.mine [e] ++ c.mine es := by
  rw [Cut.mine, Cut.mine, Cut.mine, ← List.filter_append]
  congr 1
  cases e <;> rfl

/-- **Run.** As long as a piece is missing, nothing is delivered of the datagram while its pieces
arrive in order, and a truncated datagram is delivered if they do not. In both cases the entry
holds pieces of the datagram only. -/
theorem Cut.Tracks.run {c : Cut} {fs : List Datagram} {es : List ReassEvent} {ks ks' : List ℕ}
    {ticks : ℕ} {s s' : Reass} {ds ds' : List Datagram} (h : c.Tracks fs ks ticks s)
    (hroom : Transition.Along reassStep Roomy (s, ds) es)
    (hrun : Transition.run reassStep (s, ds) es = some (s', ds'))
    (hticks : ticks + es.count .tick ≤ ipReassMaxage) (hfs : ∀ p ∈ c.mine es, p ∈ fs)
    (hpieces : List.Forall₂ c.IsPiece ks' (c.mine es)) {m : ℕ} (hm : m ≤ c.last)
    (hmissing : m ∉ ks ++ ks') :
    (∃ is, c.Tracks fs is (ticks + es.count .tick) s') ∧
      (OrderlyAfter c.last ks ks' → c.Tracks fs (ks ++ ks') (ticks + es.count .tick) s' ∧
        c.delivered ds' = c.delivered ds) ∧
      (¬ OrderlyAfter c.last ks ks' → ∃ d ∈ ds', c.Truncated d) := by
  induction es generalizing ks ks' ticks s ds with
  | nil =>
    obtain ⟨rfl, rfl⟩ := Prod.mk.inj (Option.some.inj hrun)
    cases hpieces
    refine ⟨⟨ks, h⟩, fun _ => ⟨?_, rfl⟩, fun hnot => absurd trivial hnot⟩
    rw [List.append_nil]
    exact h
  | cons e es ih =>
    obtain ⟨⟨t, ds₁⟩, hstep, hrest⟩ := (Transition.run_cons_eq_some reassStep).mp hrun
    have hroom' := hroom.2 _ hstep
    rw [c.mine_cons] at hfs hpieces
    have hfs' : ∀ p ∈ c.mine es, p ∈ fs := fun p hp => hfs p (List.mem_append_right _ hp)
    cases e with
    | tick =>
      obtain ⟨u, htmr, hu⟩ := Option.map_eq_some_iff.mp hstep
      obtain ⟨rfl, rfl⟩ := Prod.mk.inj hu
      rw [List.count_cons_self] at hticks
      have htick := h.tick (by omega) htmr
      have hnext := ih htick hroom' hrest (by omega) hfs' hpieces hmissing
      rw [Nat.add_right_comm, Nat.add_assoc] at hnext
      rw [List.count_cons_self]
      exact hnext
    | fragment p =>
      obtain ⟨⟨d, u⟩, hreass, hu⟩ := Option.map_eq_some_iff.mp hstep
      obtain ⟨rfl, rfl⟩ := Prod.mk.inj hu
      have hcount : (ReassEvent.fragment p :: es).count .tick = es.count .tick :=
        List.count_cons_of_ne (by simp)
      rw [hcount] at hticks ⊢
      by_cases hkey : p.hdr.key = c.key
      · have hmine : c.mine [.fragment p] = [p] := by simp [Cut.mine, arrived, hkey]
        rw [hmine] at hfs hpieces
        cases hpieces with
        | @cons k _ ks' _ hp hps =>
          have hpfs := hfs p List.mem_cons_self
          have hassoc : ks ++ k :: ks' = ks ++ [k] ++ ks' := by simp
          obtain ⟨rfl, htracks, hnot⟩ | ⟨hk, hcase, htracks, is, d', rfl, hmem, hgives⟩ :=
            h.own hp hpfs hroom.1 hreass
          · rw [hassoc] at hmissing ⊢
            obtain ⟨hholds, hgood, hbad⟩ := ih htracks hroom' hrest hticks hfs' hps hmissing
            refine ⟨hholds, ?_, ?_⟩
            · rintro ⟨-, horderly⟩
              obtain ⟨htracks', hsame⟩ := hgood horderly
              exact ⟨htracks', by simpa using hsame⟩
            · intro hleaky
              exact hbad fun horderly => hleaky ⟨fun hk => (hnot hk).2, horderly⟩
          · have hm' : m ∉ k :: ks := by
              intro hmem'
              apply hmissing
              rw [hassoc, List.mem_append]
              exact Or.inl (by simpa [or_comm] using hmem')
            have hleaky := hcase.resolve_left fun hall => hm' (hall m hm)
            -- Once the entry is gone, the rest of the pieces begins a new one.
            have hmissing' : m ∉ [] ++ ks' := fun hmem' =>
              hmissing (List.mem_append_right _ (List.mem_cons_of_mem _ hmem'))
            obtain ⟨hholds, -⟩ := ih htracks hroom' hrest hticks hfs' hps hmissing'
            refine ⟨hholds, fun horderly => absurd hleaky (horderly.1 hk), fun _ => ⟨d', ?_, ?_⟩⟩
            · apply (delivered_kept hrest).subset
              simp
            · exact hgives.truncated hm fun hmem' => hm' ((hmem m).mp hmem')
      · have hmine : c.mine [.fragment p] = [] := by simp [Cut.mine, arrived, hkey]
        rw [hmine, List.nil_append] at hpieces
        obtain ⟨htracks, hnone⟩ := h.other hkey hroom.1 hreass
        obtain ⟨hholds, hgood, hbad⟩ := ih htracks hroom' hrest hticks hfs' hpieces hmissing
        refine ⟨hholds, fun horderly => ?_, hbad⟩
        obtain ⟨htracks', hsame⟩ := hgood horderly
        refine ⟨htracks', hsame.trans ?_⟩
        rw [Cut.delivered, List.filter_append]
        exact (congrArg _ hnone).trans (List.append_nil _)

/-- **Order of arrival.** Pieces of a datagram arrive in any order and any number of times among
other events, with room for all of them and before the time is over, and then the last piece that
is missing. No assertion fails. The datagram has been delivered then with all its data and nothing
else has exactly if no piece was leaky; otherwise a truncated datagram has been delivered. -/
theorem reass_order_iff {c : Cut} {es₀ es : List ReassEvent} {s₀ s : Reass}
    {ds₀ ds : List Datagram} {ks : List ℕ} {k : ℕ} {p : Datagram}
    (hreach : Transition.run reassStep (Reass.empty, []) es₀ = some (s₀, ds₀))
    (hnew : s₀.lookup c.key = none) (hroom : Transition.Along reassStep Roomy (s₀, []) es)
    (hrun : Transition.run reassStep (s₀, []) es = some (s, ds))
    (hticks : es.count .tick ≤ ipReassMaxage)
    (hpieces : List.Forall₂ c.IsPiece ks (c.mine es)) (hp : c.IsPiece k p) (hfits : s.Fits p)
    (hmissing : k ∉ ks) (hall : ∀ j ≤ c.last, j ∈ k :: ks) :
    ∃ s' ds', reassStep (s, ds) (.fragment p) = some (s', ds') ∧
      ((∃ f, c.IsPiece 0 f ∧ (f ∈ c.mine es ∨ f = p) ∧
          (c.delivered ds').map (fun d => (d.hdr, d.data)) = [(c.header f, c.data)]) ↔
        Orderly c.last ks) ∧ (¬ Orderly c.last ks → ∃ d ∈ ds', c.Truncated d) := by
  have hstart : c.Tracks (c.mine es ++ [p]) [] 0 s₀ :=
    ⟨(collected_run hreach).wf, Or.inl ⟨rfl, hnew⟩⟩
  obtain ⟨⟨is, hholds⟩, hgood, hbad⟩ := hstart.run hroom hrun (by omega)
    (fun q hq => List.mem_append_left _ hq) hpieces hp.le hmissing
  have hpmem : p ∈ c.mine es ++ [p] := List.mem_append_right _ List.mem_cons_self
  obtain ⟨a, newer, older, -, hreass⟩ := hholds.accepted hp hpmem hfits
  generalize a.delivered = d at hreass
  have hstep : reassStep (s, ds) (.fragment p) = some (_, ds ++ d.toList) :=
    Option.map_eq_some_iff.mpr ⟨_, hreass, rfl⟩
  refine ⟨_, _, hstep, ?_⟩
  have hbad' : ¬ Orderly c.last ks → ∃ d' ∈ ds ++ d.toList, c.Truncated d' := by
    intro hnot
    obtain ⟨d', hd', htruncated⟩ := hbad hnot
    exact ⟨d', List.mem_append_left _ hd', htruncated⟩
  refine ⟨⟨?_, ?_⟩, hbad'⟩
  · rintro ⟨f, -, -, hwhole⟩
    by_contra hnot
    obtain ⟨d', hd', htruncated⟩ := hbad' hnot
    have hmem : (d'.hdr, d'.data) ∈ (c.delivered (ds ++ d.toList)).map fun d => (d.hdr, d.data) :=
      List.mem_map_of_mem (List.mem_filter.mpr ⟨hd', by simpa using htruncated.key⟩)
    rw [hwhole, List.mem_singleton, Prod.mk.injEq] at hmem
    have hshort := htruncated.short
    rw [hmem.2] at hshort
    exact lt_irrefl _ hshort
  · intro horderly
    obtain ⟨htracks, hnone⟩ := hgood horderly
    rw [List.nil_append] at htracks
    obtain ⟨-, -, hnot⟩ | ⟨-, -, -, is, d', rfl, hmem, hgives⟩ :=
      htracks.own hp hpmem hfits hreass
    · exact absurd hall (hnot hmissing).1
    · have hkey : d'.hdr.key = c.key := by
        obtain ⟨f, -, j, hpiece, -, hhdr⟩ := hgives.hdr
        rw [hhdr, ← hpiece.key]
        rfl
      obtain ⟨f, hf, hpiece, hhdr, hdata⟩ := hgives.whole fun j hj => (hmem j).mpr (hall j hj)
      refine ⟨f, hpiece, by simpa using hf, ?_⟩
      have hone : c.delivered (ds ++ [d']) = [d'] := by
        rw [Cut.delivered, List.filter_append]
        have hnone' : ds.filter (fun d => d.hdr.key = c.key) = [] := hnone
        rw [hnone', List.nil_append]
        simp [hkey]
      rw [Option.toList_some, hone, List.map_singleton, hhdr, hdata]

/-- A datagram of four pieces. -/
def fourPieces : Cut where
  key := (someFragment 1 0 [] 1).hdr.key
  data := (List.range 25).map UInt8.ofNat
  offs k := min (8 * k) 25
  last := 3
  two := by decide
  first := rfl
  ascending k hk := by omega
  total := by decide

/-- The fragments of the datagram. -/
def fourth (k : ℕ) : Datagram :=
  someFragment 1 (BitVec.ofNat 16 k ||| if k < 3 then ipMf else 0)
    (piece fourPieces.data fourPieces.offs k) 1

/-- The pieces 0, 3 and 2 of four, with the piece 1 too late. -/
theorem reass_order_iff_leaky : ∃ s ds, Transition.run reassStep (Reass.empty, [])
    ([.fragment (fourth 0), .fragment (fourth 3), .tick, .fragment (fourth 2)] ++
      [.fragment (fourth 1)]) = some (s, ds) ∧ ∃ d ∈ ds, fourPieces.Truncated d := by
  let d : Datagram := ⟨fourPieces.header (fourth 0),
    (fourth 0).data ++ (fourth 2).data ++ (fourth 3).data, 3, by decide⟩
  have hrun : Transition.run reassStep (Reass.empty, [])
      [.fragment (fourth 0), .fragment (fourth 3), .tick, .fragment (fourth 2)] =
      some (Reass.empty, [d]) := by decide +kernel
  have hpieces : List.Forall₂ fourPieces.IsPiece [0, 3, 2] (fourPieces.mine
      [.fragment (fourth 0), .fragment (fourth 3), .tick, .fragment (fourth 2)]) := by
    have hmine : fourPieces.mine
        [.fragment (fourth 0), .fragment (fourth 3), .tick, .fragment (fourth 2)] =
        [fourth 0, fourth 3, fourth 2] := by decide
    rw [hmine]
    refine .cons ?_ (.cons ?_ (.cons ?_ .nil)) <;> constructor <;> decide
  have hpiece : fourPieces.IsPiece 1 (fourth 1) := by constructor <;> decide
  obtain ⟨s, ds, hlast, -, hleaky⟩ := @reass_order_iff fourPieces [] _ _ _ [] _ _ _ _ rfl rfl
    (by decide +kernel) hrun (by decide) hpieces hpiece (by decide) (by decide) (by decide)
  exact ⟨s, ds, (Transition.run_concat_eq_some reassStep).mpr ⟨_, hrun, hlast⟩,
    hleaky (by decide)⟩

end WifiMcu.Lwip
