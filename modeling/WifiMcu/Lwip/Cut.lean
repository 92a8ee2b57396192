import WifiMcu.Library.Pieces
import WifiMcu.Lwip.Reassembled

/-!
# The pieces of a datagram

A host cuts a datagram into fragments. The entry of the datagram holds some of them, in the order
of their numbers, and whether it is complete is a question about these numbers.
-/

namespace WifiMcu.Lwip

open WifiMcu.System Pieces

/-! ## The cut -/

/-- A datagram of a host, as it is cut into fragments: the data between each two of the offsets. -/
structure Cut where
  key : BitVec 32 × BitVec 32 × BitVec 16
  data : List UInt8
  offs : ℕ → ℕ
  last : ℕ
  two : 0 < last
  first : offs 0 = 0
  ascending : ∀ k ≤ last, offs k < offs (k + 1)
  total : offs (last + 1) = data.length

/-- A fragment is one of the pieces. -/
structure Cut.IsPiece (c : Cut) (k : ℕ) (p : Datagram) : Prop where
  le : k ≤ c.last
  hl : p.hdr.hl * 4 = ipHlen
  key : p.hdr.key = c.key
  start : p.start = c.offs k
  stop : p.stop = c.offs (k + 1)
  isLast : p.isLast = true ↔ k = c.last
  data : p.data = piece c.data c.offs k

/-- The fragments of the datagram that arrive. -/
def Cut.mine (c : Cut) (es : List ReassEvent) : List Datagram :=
  (arrived es).filter fun p => p.hdr.key = c.key

/-- What is delivered of the datagram. -/
def Cut.delivered (c : Cut) (ds : List Datagram) : List Datagram :=
  ds.filter fun d => d.hdr.key = c.key

/-- The header of the whole datagram, by the header of a fragment. -/
def Cut.header (c : Cut) (f : Datagram) : IpHdr :=
  { f.hdr with len := BitVec.ofNat 16 (c.data.length + ipHlen), offset := 0 }.withChksum

/-- The offsets are in order. -/
theorem Cut.offs_lt (c : Cut) {j k : ℕ} (hjk : j < k) (hk : k ≤ c.last + 1) :
    c.offs j < c.offs k := by
  induction k with
  | zero => omega
  | succ k ih =>
    have hstep := c.ascending k (by omega)
    obtain hjk | rfl := Nat.lt_or_eq_of_le (Nat.le_of_lt_succ hjk)
    · exact (ih hjk (by omega)).trans hstep
    · exact hstep

@[inherit_doc Cut.offs_lt] theorem Cut.offs_le (c : Cut) {j k : ℕ} (hjk : j ≤ k)
    (hk : k ≤ c.last + 1) : c.offs j ≤ c.offs k := by
  obtain hjk | rfl := Nat.lt_or_eq_of_le hjk
  · exact (c.offs_lt hjk hk).le
  · exact le_rfl

/-- Different offsets belong to different places. -/
theorem Cut.offs_inj (c : Cut) {j k : ℕ} (hj : j ≤ c.last + 1) (hk : k ≤ c.last + 1) :
    c.offs j = c.offs k ↔ j = k := by
  constructor
  · intro h
    obtain hlt | heq | hlt := Nat.lt_trichotomy j k
    · have := c.offs_lt hlt hk
      omega
    · exact heq
    · have := c.offs_lt hlt hj
      omega
  · rintro rfl
    rfl

/-- A piece that comes before another one ends before it begins. -/
theorem Cut.IsPiece.stop_le {c : Cut} {j k : ℕ} {q p : Datagram} (hq : c.IsPiece j q)
    (hp : c.IsPiece k p) (hjk : j < k) : q.stop ≤ p.start := by
  rw [hq.stop, hp.start]
  exact c.offs_le hjk (hp.le.trans (Nat.le_succ _))

/-- A piece that comes before another one begins before it. -/
theorem Cut.IsPiece.start_lt {c : Cut} {j k : ℕ} {q p : Datagram} (hq : c.IsPiece j q)
    (hp : c.IsPiece k p) (hjk : j < k) : q.start < p.start := by
  rw [hq.start, hp.start]
  exact c.offs_lt hjk (hp.le.trans (Nat.le_succ _))

/-- Pieces are without a gap if their numbers are. -/
theorem Cut.gapless_iff {c : Cut} {is : List ℕ} {ps : List Datagram}
    (h : List.Forall₂ c.IsPiece is ps) : gapless ps = true ↔ Consecutive is := by
  induction h with
  | nil => exact iff_of_true rfl List.isChain_nil
  | cons hp hps ih =>
    cases hps with
    | nil => exact iff_of_true rfl (List.isChain_singleton _)
    | cons hq hqs =>
      rw [gapless, Bool.and_eq_true, ih, decide_eq_true_eq, hp.stop, hq.start,
        c.offs_inj (Nat.succ_le_succ hp.le) (hq.le.trans (Nat.le_succ _))]
      rw [Consecutive, Consecutive, List.isChain_cons_cons]

/-- The place of a piece is between those that come before and after it. -/
theorem Cut.findPlace_between {c : Cut} {k : ℕ} {p : Datagram} (hp : c.IsPiece k p)
    {is₁ is₂ : List ℕ} {ps₁ ps₂ : List Datagram} (h₁ : List.Forall₂ c.IsPiece is₁ ps₁)
    (h₂ : List.Forall₂ c.IsPiece is₂ ps₂) (hlt : ∀ j ∈ is₁, j < k) (hgt : ∀ j ∈ is₂, k < j)
    (ps₀ : List Datagram) (h₀ : ∀ q ∈ ps₀, q.stop ≤ p.start) :
    findPlace p ps₀ (gapless ps₀) (ps₁ ++ ps₂) = .between (ps₀ ++ ps₁) ps₂
      (gapless (ps₀ ++ ps₁) && (ps₂ ≠ [] || meets (ps₀ ++ ps₁).getLast? p)) := by
  induction h₁ generalizing ps₀ with
  | nil =>
    cases h₂ with
    | nil => simp [findPlace]
    | cons hq hqs =>
      have hkj := hgt _ List.mem_cons_self
      have hstart := hp.start_lt hq hkj
      have hstop := hp.stop_le hq hkj
      rw [List.nil_append, List.append_nil, findPlace, if_pos hstart]
      cases hlast : ps₀.getLast? with
      | none => simp
      | some prev =>
        have hprev := h₀ prev (List.mem_of_getLast? hlast)
        simp only
        rw [if_neg (by omega)]
        simp
  | cons hq hqs ih =>
    have hjk := hlt _ List.mem_cons_self
    have hstart := hq.start_lt hp hjk
    have hstop := hq.stop_le hp hjk
    have hrest := ih (fun j hj => hlt j (List.mem_cons_of_mem _ hj)) (ps₀ ++ [_]) (by
      intro r hr
      obtain hr | hr := List.mem_append.mp hr
      · exact h₀ r hr
      · exact List.mem_singleton.mp hr ▸ hstop)
    rw [gapless_concat, List.append_assoc, List.singleton_append] at hrest
    rw [List.cons_append, findPlace, if_neg (by omega), if_neg (by omega), if_neg (by omega), hrest]

/-- A piece that is there already is dropped. -/
theorem Cut.findPlace_drop {c : Cut} {k : ℕ} {p q : Datagram} (hp : c.IsPiece k p)
    (hq : c.IsPiece k q) {is : List ℕ} {ps₁ ps₂ : List Datagram}
    (h : List.Forall₂ c.IsPiece is ps₁) (hlt : ∀ j ∈ is, j < k) (ps₀ : List Datagram)
    (valid : Bool) : findPlace p ps₀ valid (ps₁ ++ q :: ps₂) = .drop := by
  induction h generalizing ps₀ valid with
  | nil =>
    have hstart := hp.start.trans hq.start.symm
    rw [List.nil_append, findPlace, if_neg (by omega), if_pos hstart]
  | cons hr hrs ih =>
    have hjk := hlt _ List.mem_cons_self
    have hstart := hr.start_lt hp hjk
    have hstop := hr.stop_le hp hjk
    rw [List.cons_append, findPlace, if_neg (by omega), if_neg (by omega), if_neg (by omega)]
    exact ih (fun j hj => hlt j (List.mem_cons_of_mem _ hj)) _ _

/-- The data of some pieces. -/
theorem Cut.flatMap_data {c : Cut} {is : List ℕ} {ps : List Datagram}
    (h : List.Forall₂ c.IsPiece is ps) :
    ps.flatMap Datagram.data = is.flatMap (piece c.data c.offs) := by
  induction h with
  | nil => rfl
  | cons hp hps ih => rw [List.flatMap_cons, List.flatMap_cons, ih, hp.data]

/-- All pieces together are the data. -/
theorem Cut.flatMap_all (c : Cut) :
    (List.range' 0 (c.last + 1)).flatMap (piece c.data c.offs) = c.data := by
  have hall := (@flatMap_piece_range' _ c.data c.offs 0 (c.last + 1) fun k _ hk =>
    (c.ascending k (by omega)).le).1
  rw [hall, c.first, Nat.zero_add, c.total, List.drop_zero, Nat.sub_zero, List.take_length]

/-- Some pieces without one of them are shorter than the data. -/
theorem Cut.flatMap_lt (c : Cut) {is : List ℕ} (h : is.Pairwise (· < ·))
    (hle : ∀ j ∈ is, j ≤ c.last) {m : ℕ} (hm : m ≤ c.last) (hmissing : m ∉ is) :
    (is.flatMap (piece c.data c.offs)).length < c.data.length := by
  have hsub : is.Sublist (List.range' 0 (c.last + 1)) := by
    have hfilter : is = (List.range' 0 (c.last + 1)).filter fun j => j ∈ is := by
      apply eq_of_mem_iff h (List.Pairwise.filter _ List.pairwise_lt_range')
      intro j
      simp only [List.mem_filter, List.mem_range'_1, decide_eq_true_eq]
      constructor
      · intro hj
        have := hle j hj
        exact ⟨by omega, hj⟩
      · exact fun hj => hj.2
    rw [hfilter]
    exact List.filter_sublist
  have hpiece : piece c.data c.offs m ≠ [] := by
    have hlt := c.ascending m hm
    have htotal : c.offs (m + 1) ≤ c.data.length := by
      rw [← c.total]
      exact c.offs_le (Nat.succ_le_succ hm) le_rfl
    rw [← List.length_pos_iff, piece, List.length_take, List.length_drop]
    omega
  have hlt := length_flatMap_lt hsub (List.mem_range'_1.mpr (by omega)) hmissing hpiece
  rwa [c.flatMap_all] at hlt

/-! ## The entry of the datagram -/

/-- An entry holds the pieces with some numbers. -/
structure Cut.Holds (c : Cut) (is : List ℕ) (ipr : IpReassdata) : Prop where
  ascending : is.Pairwise (· < ·)
  pieces : List.Forall₂ c.IsPiece is ipr.p
  lastfrag : ipr.lastfrag = true ↔ c.last ∈ is
  length : c.last ∈ is → ipr.datagramLen = c.data.length

/-- The entry has the header of a piece that has arrived, and that of the first one if it has. -/
def Cut.Headed (c : Cut) (fs : List Datagram) (is : List ℕ) (iphdr : IpHdr) : Prop :=
  ∃ f ∈ fs, ∃ j, c.IsPiece j f ∧ f.hdr = iphdr ∧ (0 ∈ is → j = 0)

/-- The numbers of some pieces. -/
theorem Cut.Holds.le {c : Cut} {is : List ℕ} {ps : List Datagram}
    (h : List.Forall₂ c.IsPiece is ps) : ∀ j ∈ is, j ≤ c.last := by
  induction h with
  | nil => simp
  | cons hp hps ih =>
    intro j hj
    obtain rfl | hj := List.mem_cons.mp hj
    · exact hp.le
    · exact ih j hj

/-- A piece begins at 0 if it is the first one. -/
theorem Cut.IsPiece.start_eq_zero_iff {c : Cut} {k : ℕ} {p : Datagram} (hp : c.IsPiece k p) :
    p.start = 0 ↔ k = 0 := by
  have hinj := c.offs_inj (hp.le.trans (Nat.le_succ _)) (Nat.zero_le (c.last + 1))
  rw [c.first] at hinj
  rw [hp.start, hinj]

/-- What a piece tells about the datagram. -/
theorem Cut.Holds.note {c : Cut} {is : List ℕ} {ipr : IpReassdata} (h : c.Holds is ipr) {k : ℕ}
    {p : Datagram} (hp : c.IsPiece k p) :
    ((ipr.note p).lastfrag = true ↔ c.last ∈ k :: is) ∧
      (c.last ∈ k :: is → (ipr.note p).datagramLen = c.data.length) := by
  have hstop : k = c.last → p.stop = c.data.length := by
    rintro rfl
    rw [hp.stop, c.total]
  simp only [IpReassdata.note, Bool.or_eq_true, h.lastfrag, hp.isLast, List.mem_cons]
  refine ⟨by rw [or_comm, eq_comm], ?_⟩
  intro hmem
  split_ifs with hlast
  · exact hstop hlast
  · obtain hk | hmem := hmem
    · exact absurd hk.symm hlast
    · exact h.length hmem

/-- The condition under which the datagram is complete, on the numbers of its pieces. -/
theorem Cut.passes_iff_complete {c : Cut} {k : ℕ} {p : Datagram} (hp : c.IsPiece k p)
    {is₁ is₂ : List ℕ} {ps₁ ps₂ : List Datagram} (h₁ : List.Forall₂ c.IsPiece is₁ ps₁)
    (h₂ : List.Forall₂ c.IsPiece is₂ ps₂) {lastfrag : Bool}
    (hlast : lastfrag = true ↔ c.last ∈ is₁ ++ k :: is₂) :
    (lastfrag && (gapless ps₁ && (ps₂ ≠ [] || meets ps₁.getLast? p)) &&
      ((ps₁ ++ p :: ps₂).head?.map Datagram.start = some 0) && gapless (p :: ps₂)) = true ↔
      Passes c.last is₁ is₂ k := by
  have hback : List.Forall₂ c.IsPiece (k :: is₂) (p :: ps₂) := .cons hp h₂
  have hjoin : meets ps₁.getLast? p = true ∧ gapless ps₁ = true ↔
      Consecutive is₁ ∧ ∀ j ∈ is₁.getLast?, j + 1 = k := by
    have hfront : List.Forall₂ c.IsPiece (is₁ ++ [k]) (ps₁ ++ [p]) :=
      List.rel_append h₁ (.cons hp .nil)
    have hiff := Cut.gapless_iff hfront
    rw [gapless_concat, Bool.and_eq_true, Consecutive, List.isChain_append] at hiff
    rw [and_comm, hiff]
    simp [Consecutive]
  have hempty : ps₂ = [] ↔ is₂ = [] := by
    cases h₂ <;> simp
  have hhead : (ps₁ ++ p :: ps₂).head?.map Datagram.start = some 0 ↔
      (is₁ ++ k :: is₂).head? = some 0 := by
    cases h₁ with
    | nil => simpa using hp.start_eq_zero_iff
    | cons hq hqs => simpa using hq.start_eq_zero_iff
  simp only [Bool.and_eq_true, Bool.or_eq_true, decide_eq_true_eq, hlast, hhead,
    Cut.gapless_iff hback]
  constructor
  · rintro ⟨⟨⟨hmem, hfront, hmeets⟩, hzero⟩, hrest⟩
    refine ⟨hmem, (Cut.gapless_iff h₁).mp hfront, ?_, hzero, hrest⟩
    intro hnil
    obtain hne | hmeets := hmeets
    · exact absurd (hempty.mpr hnil) hne
    · exact (hjoin.mp ⟨hmeets, hfront⟩).2
  · rintro ⟨hmem, hfront, hmeets, hzero, hrest⟩
    have hfront' := (Cut.gapless_iff h₁).mpr hfront
    refine ⟨⟨⟨hmem, hfront', ?_⟩, hzero⟩, hrest⟩
    by_cases hnil : ps₂ = []
    · exact Or.inr (hjoin.mpr ⟨hfront, hmeets (hempty.mp hnil)⟩).1
    · exact Or.inl hnil

/-- Where a piece goes: nowhere if the entry has it, and otherwise between those with smaller and
those with larger numbers. -/
theorem Cut.Holds.place {c : Cut} {is : List ℕ} {ipr : IpReassdata} (h : c.Holds is ipr) {k : ℕ}
    {p : Datagram} (hp : c.IsPiece k p) :
    (k ∈ is ∧ findPlace p [] true ipr.p = .drop) ∨
      k ∉ is ∧ ∃ is₁ is₂ ps₁ ps₂, is = is₁ ++ is₂ ∧ List.Forall₂ c.IsPiece is₁ ps₁ ∧
        List.Forall₂ c.IsPiece is₂ ps₂ ∧ (is₁ ++ k :: is₂).Pairwise (· < ·) ∧
        findPlace p [] true ipr.p = .between ps₁ ps₂
          (gapless ps₁ && (ps₂ ≠ [] || meets ps₁.getLast? p)) := by
  obtain ⟨is₁, is₂, rfl, hlt, hge⟩ := exists_split h.ascending k
  have h₁ := List.forall₂_take is₁.length h.pieces
  have h₂ := List.forall₂_drop is₁.length h.pieces
  rw [List.take_left] at h₁
  rw [List.drop_left] at h₂
  have hps := List.take_append_drop is₁.length ipr.p
  generalize ipr.p.take is₁.length = ps₁ at h₁ hps
  generalize ipr.p.drop is₁.length = ps₂ at h₂ hps
  by_cases hk : k ∈ is₁ ++ is₂
  · left
    have hk₂ : k ∈ is₂ := by
      obtain hk | hk := List.mem_append.mp hk
      · exact absurd (hlt k hk) (lt_irrefl k)
      · exact hk
    cases h₂ with
    | nil => simp at hk₂
    | @cons i q is₂ ps₂ hq hqs =>
      have hascending := (List.pairwise_append.mp h.ascending).2.1
      obtain rfl : k = i := by
        obtain hk₂ | hk₂ := List.mem_cons.mp hk₂
        · exact hk₂
        · have := List.rel_of_pairwise_cons hascending hk₂
          have := hge i List.mem_cons_self
          omega
      rw [← hps, Cut.findPlace_drop hp hq h₁ hlt]
      exact ⟨hk, rfl⟩
  · right
    have hgt : ∀ j ∈ is₂, k < j := by
      intro j hj
      obtain hlt | rfl := Nat.lt_or_eq_of_le (hge j hj)
      · exact hlt
      · exact absurd (List.mem_append_right _ hj) hk
    obtain ⟨hasc₁, hasc₂, hcross⟩ := List.pairwise_append.mp h.ascending
    have hascending : (is₁ ++ k :: is₂).Pairwise (· < ·) := by
      refine List.pairwise_append.mpr ⟨hasc₁, List.pairwise_cons.mpr ⟨hgt, hasc₂⟩, ?_⟩
      intro i hi j hj
      obtain rfl | hj := List.mem_cons.mp hj
      · exact hlt i hi
      · exact hcross i hi j hj
    have hplace := Cut.findPlace_between hp h₁ h₂ hlt hgt [] (by simp)
    have hnone : gapless [] = true := rfl
    rw [List.nil_append, hps, hnone] at hplace
    exact ⟨hk, is₁, is₂, ps₁, ps₂, rfl, h₁, h₂, hascending, hplace⟩

/-- **What the entry does with a piece**: it drops a piece that it has, it is complete if the
numbers pass the test for gaps, and otherwise it queues the piece. -/
theorem Cut.Holds.accept {c : Cut} {is : List ℕ} {ipr : IpReassdata} (h : c.Holds is ipr) {k : ℕ}
    {p : Datagram} (hp : c.IsPiece k p) {a : Accepted} (ha : ipr.accept p = some a) :
    (k ∈ is ∧ a = .dropped (ipr.note p)) ∨
      k ∉ is ∧ ∃ is' ps, is'.Pairwise (· < ·) ∧ (∀ j, j ∈ is' ↔ j ∈ k :: is) ∧
        List.Forall₂ c.IsPiece is' ps ∧
        (a = .complete ((ipr.note p).datagram ps) ∧ c.last ∈ is' ∧
            ((∀ j ≤ c.last, j ∈ is') ∨ Leaky c.last is k) ∨
          a = .queued { ipr.note p with p := ps } ∧ ¬ (∀ j ≤ c.last, j ∈ is') ∧
            ¬ Leaky c.last is k) := by
  have hqueue : (ipr.note p).p = ipr.p := rfl
  rw [IpReassdata.accept] at ha
  simp only [hqueue] at ha
  obtain ⟨hk, hplace⟩ | ⟨hk, is₁, is₂, ps₁, ps₂, rfl, h₁, h₂, hascending, hplace⟩ := h.place hp
  · rw [hplace] at ha
    exact Or.inl ⟨hk, (Option.some.inj ha).symm⟩
  · right
    refine ⟨hk, is₁ ++ k :: is₂, ps₁ ++ p :: ps₂, ?_⟩
    have hmem : ∀ j, j ∈ is₁ ++ k :: is₂ ↔ j ∈ k :: (is₁ ++ is₂) := by
      intro j
      simp [or_left_comm]
    have hall : List.Forall₂ c.IsPiece (is₁ ++ k :: is₂) (ps₁ ++ p :: ps₂) :=
      List.rel_append h₁ (.cons hp h₂)
    refine ⟨hascending, hmem, hall, ?_⟩
    have hpasses := passes_iff hascending (Cut.Holds.le hall)
    have hnote := (h.note hp).1
    rw [← hmem] at hnote
    have hcond := Cut.passes_iff_complete hp h₁ h₂ hnote
    rw [hplace] at ha
    simp only at ha
    split_ifs at ha with hcomplete hsane
    · have hpass := hcond.mp hcomplete
      exact Or.inl ⟨(Option.some.inj ha).symm, hpass.mem, hpasses.mp hpass⟩
    · have hnot := fun hor => hcomplete (hcond.mpr (hpasses.mpr hor))
      exact Or.inr ⟨(Option.some.inj ha).symm, fun hall => hnot (Or.inl hall),
        fun hleaky => hnot (Or.inr hleaky)⟩

/-- The last one of some pieces ends where the data ends. -/
theorem Cut.getLast_stop {c : Cut} {is : List ℕ} {ps : List Datagram}
    (h : List.Forall₂ c.IsPiece is ps) (hascending : is.Pairwise (· < ·)) (hlast : c.last ∈ is) :
    ps.getLast?.map Datagram.stop = some c.data.length := by
  induction h with
  | nil => simp at hlast
  | cons hp hps ih =>
    obtain ⟨hfirst, hascending⟩ := List.pairwise_cons.mp hascending
    cases hps with
    | nil =>
      obtain rfl := List.mem_singleton.mp hlast
      rw [List.getLast?_singleton, Option.map_some, hp.stop, c.total]
    | cons hq hqs =>
      have hmem := (List.mem_cons.mp hlast).resolve_left fun heq => by
        have := hfirst _ List.mem_cons_self
        have := hq.le
        omega
      rw [List.getLast?_cons_cons]
      exact ih hascending hmem

/-- A piece does not fail an assertion: the entry is not complete with one fragment, and it ends
where the datagram does. -/
theorem Cut.Holds.accept_ne_none {c : Cut} {is : List ℕ} {ipr : IpReassdata}
    (h : c.Holds is ipr) {k : ℕ} {p : Datagram} (hp : c.IsPiece k p) : ipr.accept p ≠ none := by
  have hqueue : (ipr.note p).p = ipr.p := rfl
  rw [IpReassdata.accept]
  simp only [hqueue]
  obtain ⟨hk, hplace⟩ | ⟨hk, is₁, is₂, ps₁, ps₂, rfl, h₁, h₂, hascending, hplace⟩ := h.place hp
  · simp [hplace]
  · have hmem : ∀ j, j ∈ is₁ ++ k :: is₂ ↔ j ∈ k :: (is₁ ++ is₂) := by
      intro j
      simp [or_left_comm]
    have hback : List.Forall₂ c.IsPiece (k :: is₂) (p :: ps₂) := .cons hp h₂
    have hall : List.Forall₂ c.IsPiece (is₁ ++ k :: is₂) (ps₁ ++ p :: ps₂) :=
      List.rel_append h₁ hback
    obtain ⟨hlast, hlength⟩ := h.note hp
    rw [← hmem] at hlast hlength
    rw [hplace]
    simp only
    split_ifs with hcomplete hsane
    · simp
    · have hpass := (Cut.passes_iff_complete hp h₁ h₂ hlast).mp hcomplete
      refine absurd ⟨?_, ?_⟩ hsane
      · have htwo := c.two
        have hzero := List.mem_of_head? hpass.head
        have hlastmem := hpass.mem
        intro hone
        rw [← hall.length_eq] at hone
        obtain ⟨i, hi⟩ := List.length_eq_one_iff.mp hone
        rw [hi, List.mem_singleton] at hzero hlastmem
        omega
      · have hlastEq : (p :: ps₂).getLast? = (ps₁ ++ p :: ps₂).getLast? :=
          (List.getLast?_append_of_ne_nil _ (by simp)).symm
        rw [hlastEq, Cut.getLast_stop hall hascending hpass.mem, hlength hpass.mem]
    · simp

end WifiMcu.Lwip
