import WifiMcu.Mqtt.Packet

/-!
# The receive buffer

`readPacket` stores the header byte, the length and the rest of a packet in the
buffer of the client, but does not compare the length with the size of the buffer.
The bytes stored lie inside of the buffer exactly if the network does not deliver
more of the rest than fits.
-/

namespace WifiMcu.Mqtt

open Delivery

variable {ε : Type}

/-- All bytes are stored at indices below a size. -/
def Within (size : ℕ) (stores : List (ℕ × List UInt8)) : Prop :=
  ∀ s ∈ stores, ∀ i, s.1 ≤ i → i < s.1 + s.2.length → i < size

/-- The number of bytes of a packet with a length field, as it is put into the buffer. -/
def packetSize (bs : List UInt8) : ℕ :=
  1 + (Base128.encode (Base128.value bs)).length + Base128.value bs

/-- A call of `readPacket` stores nothing outside of the buffer, and a packet that does
not fit into the buffer is not returned. -/
def Contained (B : Binding ε) (size : ℕ) (readbuf : ℕ → UInt8) (ev : Feed ε) : Prop :=
  Within size (readPacket B.read readbuf ev).stores ∧
    ∀ header bs rest, announcement B.stops ev = some (header, bs, rest) → size < packetSize bs →
      (readPacket B.read readbuf ev).rc = none ∨ (readPacket B.read readbuf ev).rc = some (-1)

/-- What the network has of the rest of the next packet for one call of `mqttread` fits
into the buffer, behind the header byte and the length. -/
def BodyFits (B : Binding ε) (size : ℕ) (ev : Feed ε) : Prop :=
  ∀ header bs rest, announcement B.stops ev = some (header, bs, rest) →
    1 + (Base128.encode (Base128.value bs)).length +
      min (Base128.value bs) (B.available rest) ≤ size

/-- A block at the end of the others is the one that matters for the bounds. -/
theorem within_singleton {size start : ℕ} {block : List UInt8} (hstart : start ≤ size) :
    Within size [(start, block)] ↔ start + block.length ≤ size := by
  constructor
  · intro h
    by_contra hlong
    have := h (start, block) List.mem_cons_self (start + block.length - 1) (by dsimp only; omega)
      (by dsimp only; omega)
    omega
  · rintro h s hs i - hi
    rw [List.mem_singleton.mp hs] at hi
    exact Nat.lt_of_lt_of_le hi h

/-- Blocks lie below a size if each of them does. -/
theorem within_cons {size : ℕ} {s : ℕ × List UInt8} {stores : List (ℕ × List UInt8)} :
    Within size (s :: stores) ↔ Within size [s] ∧ Within size stores := by
  constructor
  · intro h
    exact ⟨fun t ht => h t (by simp [List.mem_singleton.mp ht]),
      fun t ht => h t (List.mem_cons_of_mem _ ht)⟩
  · rintro ⟨hhead, htail⟩ t ht
    rcases List.mem_cons.mp ht with rfl | hmem
    · exact hhead t List.mem_cons_self
    · exact htail t hmem

/-- A length field has no more bytes than it may use. -/
theorem length_lengthField {stops : ε → Bool} {n : ℕ} {ev rest : Feed ε} {bs : List UInt8}
    (h : lengthField stops n ev = some (bs, rest)) : bs.length ≤ n := by
  induction n generalizing ev bs with
  | zero =>
    obtain ⟨rfl, rfl⟩ : [] = bs ∧ ev = rest := by simpa [lengthField] using h
    exact Nat.le_refl 0
  | succ n ih =>
    rw [lengthField] at h
    rcases hnext : next stops ev with _ | ⟨e | b, behind⟩
    · rw [hnext] at h
      cases h
    · rw [hnext] at h
      obtain ⟨rfl, rfl⟩ : [] = bs ∧ behind = rest := by simpa using h
      exact Nat.zero_le _
    · rw [hnext] at h
      dsimp only at h
      split_ifs at h with hlast
      · obtain ⟨rfl, rfl⟩ : [b] = bs ∧ behind = rest := by simpa using h
        exact Nat.succ_le_succ (Nat.zero_le n)
      · obtain ⟨⟨bs', rest'⟩, hfield, heq⟩ := Option.map_eq_some_iff.mp h
        obtain ⟨rfl, rfl⟩ : b :: bs' = bs ∧ rest' = rest := by simpa using heq
        exact Nat.succ_le_succ (ih hfield)

/-- The length that `readPacket` writes into the buffer has at most four bytes. -/
theorem length_encode_of_announcement {stops : ε → Bool} {ev rest : Feed ε} {header : UInt8}
    {bs : List UInt8} (h : announcement stops ev = some (header, bs, rest)) :
    (Base128.encode (Base128.value bs)).length ≤ 4 := by
  obtain ⟨behind, -, hfield⟩ := announcement_eq_some.mp h
  refine Base128.length_encode_le (k := 3) (Nat.lt_of_lt_of_le (Base128.value_lt bs) ?_)
  exact Nat.pow_le_pow_right (by decide) (length_lengthField hfield)

/-- `readPacket` on a packet that has not been announced stores at most its header
byte. -/
theorem within_of_announcement_none {B : Binding ε} {size : ℕ} (hsize : 1 ≤ size) {ev : Feed ε}
    (h : announcement B.stops ev = none) (readbuf : ℕ → UInt8) :
    Within size (readPacket B.read readbuf ev).stores := by
  rcases hnext : next B.stops ev with _ | ⟨e | header, behind⟩
  · rw [readPacket_none hnext]
    exact (within_singleton (Nat.zero_le size)).mpr (Nat.zero_le size)
  · rw [readPacket_error hnext]
    exact (within_singleton (Nat.zero_le size)).mpr (Nat.zero_le size)
  · rw [announcement, hnext] at h
    rw [readPacket_length_none hnext (Option.map_eq_none_iff.mp h)]
    exact (within_singleton (Nat.zero_le size)).mpr hsize

/-- For an announced packet everything depends on what is delivered of its body. -/
theorem within_announced_iff {B : Binding ε} {size : ℕ} (hsize : 5 ≤ size) {ev rest : Feed ε}
    {header : UInt8} {bs : List UInt8} (h : announcement B.stops ev = some (header, bs, rest))
    (readbuf : ℕ → UInt8) :
    Within size (readPacket B.read readbuf ev).stores ↔
      1 + (Base128.encode (Base128.value bs)).length +
        min (Base128.value bs) (B.available rest) ≤ size := by
  have hlength := length_encode_of_announcement h
  have hheader : Within size [(0, [header])] :=
    (within_singleton (Nat.zero_le size)).mpr (by simp only [List.length_singleton]; omega)
  have hencoded : Within size [(1, Base128.encode (Base128.value bs))] :=
    (within_singleton (by omega)).mpr (by omega)
  rw [readPacket_announced h]
  by_cases hzero : Base128.value bs = 0
  · rw [if_pos hzero]
    refine iff_of_true (within_cons.mpr ⟨hheader, hencoded⟩) ?_
    rw [hzero] at hlength ⊢
    rw [Nat.zero_min]
    omega
  · rw [if_neg hzero]
    rw [← B.read_length, ← within_singleton (by omega)]
    constructor
    · intro hall
      exact (within_cons.mp (within_cons.mp hall).2).2
    · intro hbody
      exact within_cons.mpr ⟨hheader, within_cons.mpr ⟨hencoded, hbody⟩⟩

/-- A packet whose rest does not arrive completely is not returned. -/
theorem readPacket_short {B : Binding ε} {ev rest : Feed ε} {header : UInt8} {bs : List UInt8}
    (h : announcement B.stops ev = some (header, bs, rest))
    (hshort : B.available rest < Base128.value bs) (readbuf : ℕ → UInt8) :
    (readPacket B.read readbuf ev).rc = none ∨ (readPacket B.read readbuf ev).rc = some (-1) := by
  have hrc := mt (B.read_full_iff (Base128.value bs) rest (by omega)).mp (by omega)
  rw [readPacket_announced h, if_neg (by omega)]
  match hbody : (B.read (Base128.value bs) rest).rc with
  | none => exact Or.inl rfl
  | some rc =>
    rw [hbody] at hrc
    exact Or.inr (congrArg some (if_neg fun heq => hrc (congrArg some heq)))

/-- One call of `readPacket` is contained in the buffer exactly if what the network
delivers fits. -/
theorem contained_iff (B : Binding ε) {size : ℕ} (hsize : 5 ≤ size) (readbuf : ℕ → UInt8)
    (ev : Feed ε) : Contained B size readbuf ev ↔ BodyFits B size ev := by
  constructor
  · intro h header bs rest hannounced
    exact (within_announced_iff hsize hannounced readbuf).mp h.1
  · intro h
    constructor
    · match hannounced : announcement B.stops ev with
      | none => exact within_of_announcement_none (by omega) hannounced readbuf
      | some (header, bs, rest) =>
        exact (within_announced_iff hsize hannounced readbuf).mpr (h header bs rest hannounced)
    · intro header bs rest hannounced hlong
      have hfits := h header bs rest hannounced
      rw [packetSize] at hlong
      exact readPacket_short hannounced (by omega) readbuf

/-- **Bounds of the receive buffer.** With either binding, a call of `readPacket` stores
bytes inside of the buffer only and returns no packet that does not fit, exactly if
what arrives of the announced packet, for one call of `mqttread`, fits. -/
theorem readPacket_contained_iff {size : ℕ} (hsize : 5 ≤ size) (readbuf : ℕ → UInt8) :
    (∀ ev, Contained lwip size readbuf ev ↔ BodyFits lwip size ev) ∧
      ∀ ev, Contained tls size readbuf ev ↔ BodyFits tls size ev := by
  constructor
  · intro ev
    exact contained_iff lwip hsize readbuf ev
  · intro ev
    exact contained_iff tls hsize readbuf ev

/-- A packet of four bytes in a buffer of five is contained. -/
theorem readPacket_contained_iff_puback :
    Contained lwip 5 (fun _ => 0) [.data 0x40 [2], .data 0 [7]] := by
  refine ((readPacket_contained_iff (Nat.le_refl 5) fun _ => 0).1 _).mpr ?_
  rintro header bs rest h
  obtain ⟨-, rfl, rfl⟩ : 0x40 = header ∧ [2] = bs ∧ [Event.data 0 [7]] = rest := by
    have hfield : announcement lwip.stops [.data 0x40 [2], .data 0 [7]] =
        some (0x40, [2], [Event.data 0 [7]]) := rfl
    rw [hfield] at h
    simpa using h
  have hvalue : Base128.value [2] = 2 := rfl
  rw [hvalue, Base128.encode_of_lt (by decide)]
  decide

/-- The last byte of a packet of six bytes is stored behind a buffer of five bytes. -/
theorem readPacket_not_contained :
    ¬ Contained lwip 5 (fun _ => 0) [.data 0x30 [4, 0, 1, 97, 98]] := by
  intro h
  have hlast := h.1 (2, [0, 1, 97, 98]) (by decide +kernel) 5 (by decide) (by decide)
  exact Nat.lt_irrefl 5 hlast

end WifiMcu.Mqtt
