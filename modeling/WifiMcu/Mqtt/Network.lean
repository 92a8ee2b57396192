import Mathlib.Data.Int.Notation
import WifiMcu.Library.Delivery

/-!
# Reading from the network

The client reads through a function pointer, `mqttread`. There are two bindings: the
plain one receives from a socket and waits until the buffer is full, the other one
reads from a TLS connection once. What the network does is a list of events. When
they are used up, nothing more has happened yet, and a call that still waits has not
returned.
-/

namespace WifiMcu.Mqtt

open Delivery

/-- What the network does from now on. -/
abbrev Feed (ε : Type) := List (Event UInt8 ε)

/-- A call of `mqttread`: the value that it returns, or `none` while it has not
returned; the bytes that it has stored from the start of the buffer on; and what the
network does after the call. -/
structure ReadResult (ε : Type) where
  rc : Option ℤ
  stored : List UInt8
  rest : Feed ε
  deriving DecidableEq

/-- The values of `errno` after a failure of `recv`. -/
inductive Errno
  | enotconn | econnreset | ewouldblock | other (code : ℕ)
  deriving DecidableEq

/-- A call of `recv` that returns no data: 0 on a closed connection, or -1 and an
error number. -/
inductive LwipFailure
  | closed
  | error (errno : Errno)
  deriving DecidableEq

/-- A call of `mbedtls_ssl_read` that returns no data: 0, or a negative value. -/
inductive TlsFailure
  | closed | timeout | peerCloseNotify | error (code : ℕ)
  deriving DecidableEq

/-- The failures that leave the loop of `LwIP_read`. -/
def LwipFailure.breaks : LwipFailure → Bool
  | .closed => false
  | .error errno => errno ≠ .enotconn && errno ≠ .econnreset

/-- The loop of `LwIP_read`. A chunk that is longer than what is still requested is
received in parts, and then the loop is done. -/
def lwipLoop (len : ℕ) (bytes : ℕ) (ev : Feed LwipFailure) : ReadResult LwipFailure :=
  if bytes < len then
    match ev with
    | [] => ⟨none, [], []⟩
    | .data first others :: ev =>
      let chunk := first :: others
      let received := chunk.take (len - bytes)
      if len - bytes ≤ chunk.length then
        ⟨some (bytes + received.length : ℕ), received, leftover (chunk.drop (len - bytes)) ev⟩
      else
        let r := lwipLoop len (bytes + received.length) ev
        { r with stored := received ++ r.stored }
    | .fail e :: ev => if e.breaks then ⟨some (-1), [], ev⟩ else lwipLoop len bytes ev
  else ⟨some bytes, [], ev⟩

/-- `LwIP_read`. -/
def lwipRead (len : ℕ) (ev : Feed LwipFailure) : ReadResult LwipFailure := lwipLoop len 0 ev

/-- The value that `TLS_read` returns when no data was read. -/
def TlsFailure.rc : TlsFailure → ℤ
  | .closed => -2
  | .timeout => -1
  | .peerCloseNotify => -2
  | .error _ => -1

/-- `TLS_read`. -/
def tlsRead (len : ℕ) : Feed TlsFailure → ReadResult TlsFailure
  | [] => ⟨none, [], []⟩
  | .data first others :: ev =>
    let received := (first :: others).take len
    ⟨some (if received.length > 0 then received.length else TlsFailure.closed.rc), received,
      leftover ((first :: others).drop len) ev⟩
  | .fail e :: ev => ⟨some e.rc, [], ev⟩

/-- A network binding: its `mqttread`, the failures that end a call, and how many
bytes a call can get from the network at most, with what a call does in these terms. -/
structure Binding (ε : Type) where
  read : ℕ → Feed ε → ReadResult ε
  stops : ε → Bool
  available : Feed ε → ℕ
  read_content : ∀ n ev, (read n ev).stored ++ content (read n ev).rest = content ev
  read_length : ∀ n ev, (read n ev).stored.length = min n (available ev)
  read_full_iff : ∀ n ev, 0 < n → ((read n ev).rc = some (n : ℤ) ↔ n ≤ available ev)
  read_advance : ∀ n ev, 0 < n → Failures (fun e => stops e = true) ev → n ≤ available ev →
    advance n ev = some (read n ev).rest
  read_one_none : ∀ ev, next stops ev = none → read 1 ev = ⟨none, [], []⟩
  read_one_ok : ∀ ev b rest, next stops ev = some (.ok b, rest) → read 1 ev = ⟨some 1, [b], rest⟩
  read_one_error : ∀ ev e rest, next stops ev = some (.error e, rest) →
    ∃ rc : ℤ, rc < 0 ∧ read 1 ev = ⟨some rc, [], rest⟩

/-- The loop does not run when the buffer is full. -/
theorem lwipLoop_full {len bytes : ℕ} (h : len ≤ bytes) (ev : Feed LwipFailure) :
    lwipLoop len bytes ev = ⟨some bytes, [], ev⟩ := by
  rw [lwipLoop.eq_def, if_neg (by omega)]

/-- The loop stores the bytes that it takes from the network. -/
theorem lwipLoop_content (len bytes : ℕ) (ev : Feed LwipFailure) :
    (lwipLoop len bytes ev).stored ++ content (lwipLoop len bytes ev).rest = content ev := by
  induction ev generalizing bytes with
  | nil =>
    rw [lwipLoop.eq_def]
    split_ifs <;> rfl
  | cons event ev ih =>
    rw [lwipLoop.eq_def]
    split_ifs with hrun
    · cases event with
      | fail e =>
        dsimp only
        split_ifs
        · rfl
        · exact ih bytes
      | data first others =>
        dsimp only
        split_ifs with hfits
        · rw [content_leftover, ← List.append_assoc, List.take_append_drop]
          rfl
        · rw [List.append_assoc, ih, List.take_of_length_le (by omega)]
          rfl
    · rfl

/-- The loop stores what arrives before a failure ends it, up to what is requested. -/
theorem lwipLoop_length (len bytes : ℕ) (ev : Feed LwipFailure) :
    (lwipLoop len bytes ev).stored.length = min (len - bytes) (before LwipFailure.breaks ev) := by
  induction ev generalizing bytes with
  | nil =>
    rw [lwipLoop.eq_def]
    split_ifs <;> simp [before]
  | cons event ev ih =>
    rw [lwipLoop.eq_def]
    split_ifs with hrun
    · cases event with
      | fail e =>
        dsimp only
        rw [before]
        split_ifs
        · simp
        · exact ih bytes
      | data first others =>
        dsimp only
        rw [before]
        split_ifs with hfits
        · rw [List.length_take]
          rw [List.length_cons] at hfits ⊢
          omega
        · rw [List.length_append, ih, List.take_of_length_le (by omega)]
          rw [List.length_cons] at hfits ⊢
          omega
    · rw [Nat.sub_eq_zero_of_le (by omega), Nat.zero_min]
      rfl

/-- The loop returns what is requested if that arrives before a failure ends it. -/
theorem lwipLoop_full_iff {len bytes : ℕ} (hbytes : bytes ≤ len) (ev : Feed LwipFailure) :
    (lwipLoop len bytes ev).rc = some (len : ℤ) ↔
      len - bytes ≤ before LwipFailure.breaks ev := by
  induction ev generalizing bytes with
  | nil =>
    rw [lwipLoop.eq_def]
    split_ifs with hrun
    · exact iff_of_false (by simp) (by simp only [before]; omega)
    · obtain rfl : bytes = len := by omega
      exact iff_of_true rfl (by omega)
  | cons event ev ih =>
    rw [lwipLoop.eq_def]
    split_ifs with hrun
    · cases event with
      | fail e =>
        dsimp only
        rw [before]
        split_ifs
        · refine iff_of_false (fun heq => ?_) (by omega)
          have := Option.some.inj heq
          omega
        · exact ih hbytes
      | data first others =>
        dsimp only
        rw [before]
        split_ifs with hfits
        · rw [List.length_cons] at hfits
          refine iff_of_true ?_ (by omega)
          rw [List.length_take, List.length_cons, Nat.min_eq_left hfits,
            Nat.add_sub_cancel' hbytes]
        · rw [List.take_of_length_le (by omega)]
          rw [List.length_cons] at hfits ⊢
          rw [ih (by omega)]
          omega
    · obtain rfl : bytes = len := by omega
      exact iff_of_true rfl (by omega)

/-- Where every failure ends the loop, it passes the bytes that are requested. -/
theorem lwipLoop_advance {len bytes : ℕ} {ev : Feed LwipFailure}
    (hbreaks : Failures (fun e => e.breaks = true) ev)
    (h : len - bytes ≤ before LwipFailure.breaks ev) :
    advance (len - bytes) ev = some (lwipLoop len bytes ev).rest := by
  induction ev generalizing bytes with
  | nil =>
    obtain hzero : len - bytes = 0 := Nat.le_zero.mp h
    rw [hzero, lwipLoop_full (by omega)]
    rfl
  | cons event ev ih =>
    by_cases hrun : bytes < len
    · cases event with
      | fail e =>
        rw [before, if_pos (hbreaks e List.mem_cons_self)] at h
        omega
      | data first others =>
        rw [before] at h
        rw [lwipLoop.eq_def, if_pos hrun]
        dsimp only
        split_ifs with hfits
        · exact @advance_leftover _ _ (first :: others) _ hfits ev
        · rw [List.take_of_length_le (by omega)]
          rw [List.length_cons] at hfits ⊢
          have hsplit : len - bytes = (others.length + 1) + (len - (bytes + (others.length + 1))) := by
            omega
          have hchunk := @advance_leftover _ _ (first :: others) _ (Nat.le_refl _) ev
          rw [List.drop_length] at hchunk
          rw [hsplit, advance_add]
          rw [show advance (others.length + 1) (Event.data first others :: ev) = some ev from hchunk]
          exact ih hbreaks.tail (by omega)
    · rw [lwipLoop_full (by omega), Nat.sub_eq_zero_of_le (by omega)]
      rfl

/-- A failure that does not leave the loop makes no difference. -/
theorem lwipRead_one_skip {e : LwipFailure} (h : ¬ e.breaks = true) (ev : Feed LwipFailure) :
    lwipRead 1 (.fail e :: ev) = lwipRead 1 ev := by
  rw [lwipRead, lwipLoop.eq_def, if_pos Nat.one_pos]
  exact if_neg h

/-- One byte is requested and does not arrive. -/
theorem lwipRead_one_none {ev : Feed LwipFailure} (h : next LwipFailure.breaks ev = none) :
    lwipRead 1 ev = ⟨none, [], []⟩ := by
  induction ev with
  | nil => rfl
  | cons event ev ih =>
    cases event with
    | data first others => cases h
    | fail e =>
      rw [next] at h
      split_ifs at h with hbreaks
      rw [lwipRead_one_skip hbreaks]
      exact ih h

/-- One byte is requested and arrives. -/
theorem lwipRead_one_ok {ev rest : Feed LwipFailure} {b : UInt8}
    (h : next LwipFailure.breaks ev = some (.ok b, rest)) :
    lwipRead 1 ev = ⟨some 1, [b], rest⟩ := by
  induction ev with
  | nil => cases h
  | cons event ev ih =>
    cases event with
    | data first others =>
      obtain ⟨rfl, rfl⟩ : first = b ∧ leftover others ev = rest := by simpa [next] using h
      rw [lwipRead, lwipLoop.eq_def, if_pos Nat.one_pos]
      dsimp only
      rw [if_pos (by simp)]
      rfl
    | fail e =>
      rw [next] at h
      split_ifs at h with hbreaks
      · cases h
      · rw [lwipRead_one_skip hbreaks]
        exact ih h

/-- One byte is requested, and the read fails. -/
theorem lwipRead_one_error {ev rest : Feed LwipFailure} {e : LwipFailure}
    (h : next LwipFailure.breaks ev = some (.error e, rest)) :
    lwipRead 1 ev = ⟨some (-1), [], rest⟩ := by
  induction ev with
  | nil => cases h
  | cons event ev ih =>
    cases event with
    | data first others => cases h
    | fail e' =>
      rw [next] at h
      split_ifs at h with hbreaks
      · obtain ⟨rfl, rfl⟩ : e' = e ∧ ev = rest := by simpa using h
        rw [lwipRead, lwipLoop.eq_def, if_pos Nat.one_pos]
        exact if_pos hbreaks
      · rw [lwipRead_one_skip hbreaks]
        exact ih h

/-- The plain binding. It gets everything that arrives before a failure that breaks
its loop. -/
def lwip : Binding LwipFailure where
  read := lwipRead
  stops := LwipFailure.breaks
  available := before LwipFailure.breaks
  read_content n ev := lwipLoop_content n 0 ev
  read_length n ev := lwipLoop_length n 0 ev
  read_full_iff n ev _ := lwipLoop_full_iff (Nat.zero_le n) ev
  read_advance _ _ _ hbreaks h := @lwipLoop_advance _ 0 _ hbreaks h
  read_one_none _ h := lwipRead_one_none h
  read_one_ok _ _ _ h := lwipRead_one_ok h
  read_one_error _ _ _ h := ⟨-1, by decide, lwipRead_one_error h⟩

/-- A TLS read that stores nothing returns a negative value. -/
theorem TlsFailure.rc_neg (e : TlsFailure) : e.rc < 0 := by
  cases e <;> simp [TlsFailure.rc]

/-- The TLS binding. It gets the first chunk only, and every failure ends a call. -/
def tls : Binding TlsFailure where
  read := tlsRead
  stops _ := true
  available := headLength
  read_content n ev := by
    match ev with
    | [] => rfl
    | .fail e :: ev => rfl
    | .data first others :: ev =>
      rw [tlsRead, content_leftover, ← List.append_assoc, List.take_append_drop]
      rfl
  read_length n ev := by
    match ev with
    | [] => exact (Nat.min_zero n).symm
    | .fail e :: ev => exact (Nat.min_zero n).symm
    | .data first others :: ev => exact List.length_take
  read_full_iff n ev hn := by
    match ev with
    | [] => exact iff_of_false (by simp [tlsRead]) (by simp only [headLength]; omega)
    | .fail e :: ev =>
      refine iff_of_false (fun heq => ?_) (by simp only [headLength]; omega)
      have := e.rc_neg
      rw [Option.some.inj heq] at this
      omega
    | .data first others :: ev =>
      have hlength : ((first :: others).take n).length = min n (others.length + 1) :=
        List.length_take
      simp only [tlsRead, headLength, hlength, Option.some.injEq]
      rw [if_pos (by omega)]
      omega
  read_advance n ev hn _ h := by
    match ev, h with
    | [], h => exact absurd (Nat.lt_of_lt_of_le hn h) (Nat.lt_irrefl 0)
    | .fail e :: ev, h => exact absurd (Nat.lt_of_lt_of_le hn h) (Nat.lt_irrefl 0)
    | .data first others :: ev, h => exact @advance_leftover _ _ (first :: others) _ h ev
  read_one_none ev h := by
    match ev, h with
    | [], _ => rfl
  read_one_ok ev b rest h := by
    match ev, h with
    | .data first others :: ev, h =>
      obtain ⟨rfl, rfl⟩ : first = b ∧ leftover others ev = rest := by simpa [next] using h
      rfl
  read_one_error ev e rest h := by
    match ev, h with
    | .fail e' :: ev, h =>
      obtain ⟨rfl, rfl⟩ : e' = e ∧ ev = rest := by simpa [next] using h
      exact ⟨e'.rc, e'.rc_neg, rfl⟩

end WifiMcu.Mqtt
