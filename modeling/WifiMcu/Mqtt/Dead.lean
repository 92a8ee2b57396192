import WifiMcu.Mqtt.Network

/-!
# Reading from a dead connection

When the peer has closed the connection, every call of `recv` returns 0, and when it has
been lost, every call fails in the same way. `LwIP_read` receives again in both cases.
-/

namespace WifiMcu.Mqtt

open Delivery

/-- How `recv` reports that a connection is dead. -/
inductive Dead
  | closed | enotconn | econnreset
  deriving DecidableEq

/-- What every call of `recv` on a dead connection returns. -/
def Dead.failure : Dead → LwipFailure
  | .closed => .closed
  | .enotconn => .error .enotconn
  | .econnreset => .error .econnreset

/-- What the network does when the connection dies after some results of `recv`, for a
number of calls that follow. -/
def dies (pre : Feed LwipFailure) (dead : Dead) (calls : ℕ) : Feed LwipFailure :=
  pre ++ List.replicate calls (.fail dead.failure)

/-- After finitely many calls of `recv` the loop returns, and it returns the requested
length only if so many bytes have been received. -/
def ReturnsWhenDead (len bytes : ℕ) (pre : Feed LwipFailure) (dead : Dead) : Prop :=
  ∃ calls r, (lwipLoop len bytes (dies pre dead calls)).rc = some r ∧
    (r = len → bytes + (lwipLoop len bytes (dies pre dead calls)).stored.length = len)

/-- No failure of a dead connection leaves the loop. -/
@[simp] theorem breaks_dead (dead : Dead) : dead.failure.breaks = false := by
  cases dead <;> rfl

/-- The loop returns -1 or the number of bytes that have been received. -/
theorem lwipLoop_rc {len bytes : ℕ} {ev : Feed LwipFailure} {r : ℤ}
    (h : (lwipLoop len bytes ev).rc = some r) :
    r = -1 ∨ r = (bytes + (lwipLoop len bytes ev).stored.length : ℕ) := by
  induction ev generalizing bytes with
  | nil =>
    rw [lwipLoop.eq_def] at h ⊢
    split_ifs at h ⊢ with hrun
    exact Or.inr (Option.some.inj h).symm
  | cons event ev ih =>
    rw [lwipLoop.eq_def] at h ⊢
    split_ifs at h ⊢ with hrun
    · cases event with
      | fail e =>
        dsimp only at h ⊢
        split_ifs at h ⊢ with hbreaks
        · exact Or.inl (Option.some.inj h).symm
        · exact ih h
      | data first others =>
        dsimp only at h ⊢
        split_ifs at h ⊢ with hfits
        · exact Or.inr (Option.some.inj h).symm
        · rw [List.length_append, ← Nat.add_assoc]
          exact ih h
    · exact Or.inr (Option.some.inj h).symm

/-- The loop returns when it has got what is requested, or with a failure that leaves it. -/
theorem lwipLoop_returns_iff (len bytes : ℕ) (ev : Feed LwipFailure) :
    (∃ r, (lwipLoop len bytes ev).rc = some r) ↔
      len - bytes ≤ (content ev).length ∨ ∃ e, .fail e ∈ ev ∧ e.breaks = true := by
  induction ev generalizing bytes with
  | nil =>
    rw [lwipLoop.eq_def]
    split_ifs with hrun
    · refine iff_of_false ?_ ?_
      · rintro ⟨r, hr⟩
        cases hr
      · rintro (hle | ⟨e, he, -⟩)
        · simp only [content, List.length_nil] at hle
          omega
        · cases he
    · exact iff_of_true ⟨_, rfl⟩ (Or.inl (by omega))
  | cons event ev ih =>
    rw [lwipLoop.eq_def]
    split_ifs with hrun
    · cases event with
      | fail e =>
        dsimp only
        split_ifs with hbreaks
        · exact iff_of_true ⟨_, rfl⟩ (Or.inr ⟨e, List.mem_cons_self, hbreaks⟩)
        · rw [ih bytes, content]
          refine or_congr_right (exists_congr fun e' => ?_)
          simp only [List.mem_cons, Event.fail.injEq]
          constructor
          · rintro ⟨he, hstops⟩
            exact ⟨Or.inr he, hstops⟩
          · rintro ⟨rfl | he, hstops⟩
            · exact absurd hstops hbreaks
            · exact ⟨he, hstops⟩
      | data first others =>
        dsimp only
        have hfail (e : LwipFailure) :
            Event.fail e ∈ Event.data first others :: ev ↔ Event.fail e ∈ ev := by simp
        simp only [content, List.length_append, hfail]
        split_ifs with hfits
        · exact iff_of_true ⟨_, rfl⟩ (Or.inl (by omega))
        · rw [ih, List.take_of_length_le (by omega)]
          refine or_congr_left ?_
          omega
    · exact iff_of_true ⟨_, rfl⟩ (Or.inl (by omega))

/-- A dead connection delivers nothing more. -/
theorem content_dies (pre : Feed LwipFailure) (dead : Dead) (calls : ℕ) :
    content (dies pre dead calls) = content pre := by
  have hnone : content (List.replicate calls (.fail dead.failure : Event UInt8 LwipFailure)) = [] := by
    induction calls with
    | zero => rfl
    | succ calls ih => rw [List.replicate_succ, content, ih]
  induction pre with
  | nil => exact hnone
  | cons event pre ih =>
    cases event with
    | data first others => exact congrArg (first :: others ++ ·) ih
    | fail e => exact ih

/-- **Dead connections.** `LwIP_read` returns exactly if, before the connection dies, the bytes
that it waits for arrive or `recv` fails with another error number. -/
theorem returnsWhenDead_iff (len bytes : ℕ) (pre : Feed LwipFailure) (dead : Dead) :
    ReturnsWhenDead len bytes pre dead ↔
      len - bytes ≤ (content pre).length ∨ ∃ e, .fail e ∈ pre ∧ e.breaks = true := by
  have hreturns (calls : ℕ) := lwipLoop_returns_iff len bytes (dies pre dead calls)
  constructor
  · rintro ⟨calls, r, hr, -⟩
    rcases (hreturns calls).mp ⟨r, hr⟩ with hfull | ⟨e, he, hbreaks⟩
    · rw [content_dies] at hfull
      exact Or.inl hfull
    · rcases List.mem_append.mp he with hpre | hdead
      · exact Or.inr ⟨e, hpre, hbreaks⟩
      · cases List.eq_of_mem_replicate hdead
        rw [breaks_dead] at hbreaks
        cases hbreaks
  · intro h
    obtain ⟨r, hr⟩ : ∃ r, (lwipLoop len bytes (dies pre dead 0)).rc = some r := by
      refine (hreturns 0).mpr (h.imp (fun hfull => ?_) ?_)
      · rwa [content_dies]
      · rintro ⟨e, he, hbreaks⟩
        exact ⟨e, List.mem_append_left _ he, hbreaks⟩
    refine ⟨0, r, hr, ?_⟩
    rintro rfl
    rcases lwipLoop_rc hr with hneg | heq
    · omega
    · omega

/-- A peer that closes the connection before the first byte is waited for in vain. -/
theorem not_returnsWhenDead :
    ¬ ∀ (len bytes : ℕ) (pre : Feed LwipFailure) (dead : Dead), 0 < len → bytes ≤ len →
      ReturnsWhenDead len bytes pre dead := by
  intro hall
  obtain ⟨calls, r, hr, -⟩ := hall 1 0 [] .closed (by decide) (by decide)
  have hreturns := (lwipLoop_returns_iff 1 0 (dies [] .closed calls)).mp ⟨r, hr⟩
  rw [content_dies] at hreturns
  rcases hreturns with hfull | ⟨e, he, hbreaks⟩
  · exact absurd hfull (by decide)
  · cases List.eq_of_mem_replicate (List.mem_append.mp he |>.resolve_left List.not_mem_nil)
    cases hbreaks

end WifiMcu.Mqtt
