import Libpgf.Gu.InCalm
import Libpgf.Gu.Utf8In
/-!
# What reading leaves behind

A function that reads from a stream leaves a stream that can be read from,
whether it raises an exception or not, and does not raise another.
-/

namespace Libpgf

/-- The stream can be read from, whatever is left of it. -/
def Live {σ : Type} (S : GuInStreamFuns σ) (in_ : GuIn σ) : Prop := ∃ pos rem, Source S in_ pos rem

theorem live_iff {σ : Type} {S : GuInStreamFuns σ} {in_ : GuIn σ} : Live S in_ ↔ ∃ v : InView S, v.Calm ∧ in_.Ok v := by
  constructor
  · rintro ⟨pos, rem, v, hcalm, hok, -, -⟩
    exact ⟨v, hcalm, hok⟩
  · rintro ⟨v, hcalm, hok⟩
    exact ⟨_, _, v, hcalm, hok, rfl, rfl⟩

/-- A function on a stream and a frame. -/
abbrev InFun (σ α : Type) : Type := GuIn σ → GuExn → Exec (α × GuIn σ × GuExn)

section Live
variable {σ : Type} {S : GuInStreamFuns σ}

theorem u8_returns {in_ : GuIn σ} {t : GuExnType} (h : Live S in_) : ∃ u in', in_.gu_in_u8 S (some t) = .ok (u, in', some t) ∧ Live S in' := by
  obtain ⟨v, hcalm, hok⟩ := live_iff.1 h
  obtain ⟨u, in', hrun, hok'⟩ := GuIn.calm_u8 (t := t) hcalm hok
  exact ⟨u, in', hrun, live_iff.2 ⟨v, hcalm, hok'⟩⟩

/-! ## Characters -/

/-- The slow path does not look at what it reads once an exception is raised. -/
theorem utf8_long_returns {in_ : GuIn σ} {t : GuExnType} (h : Live S in_) :
    ∃ in', in_.gu_in_utf8_ S (some t) = .ok (0, in', some t) ∧ Live S in' := by
  obtain ⟨u, in', hrun, h'⟩ := u8_returns (t := t) h
  refine ⟨in', ?_, h'⟩
  rw [GuIn.gu_in_utf8_, hrun]
  rfl

/-- With an exception raised, `gu_in_utf8` returns an ASCII character. -/
theorem utf8_returns {in_ : GuIn σ} {t : GuExnType} (h : Live S in_) :
    ∃ u in', in_.gu_in_utf8 S (some t) = .ok (u, in', some t) ∧ Live S in' ∧ u < 0x80 := by
  obtain ⟨in₁, hslow, hlive⟩ := utf8_long_returns (t := t) h
  obtain ⟨v, hcalm, hok⟩ := live_iff.1 h
  rw [GuIn.gu_in_utf8]
  rcases GuIn.peek_spec hok with ⟨-, hp⟩ | ⟨c, hleft, hp, -⟩
  · exact ⟨0, in₁, by rw [hp, Exec.ok_bind]; exact hslow, hlive, by decide⟩
  · rw [hp, Exec.ok_bind]
    by_cases hc : c < 0x80
    · obtain ⟨-, -, hok', -⟩ := GuIn.unread_cons hok hleft
      refine ⟨c.toNat, in_.advance 1, ?_, live_iff.2 ⟨v, hcalm, hok'⟩, hc⟩
      simp only [if_pos hc, GuIn.consume_eq hleft, Exec.ok_bind, Exec.pure_eq]
    · refine ⟨0, in₁, ?_, hlive, by decide⟩
      simp only [if_neg hc, hslow]

/-- `in_utf8_spec` for any stream that can be read from. -/
theorem in_utf8_source {in_ : GuIn σ} {pos : Nat} {rem : Bytes} (h : Source S in_ pos rem) : ∃ u in' err rest,
    in_.gu_in_utf8 S none = .ok (u, in', err) ∧ Utf8Outcome rem u err rest ∧ Live S in' ∧
      (err = none → Source S in' (pos + (rem.length - rest.length)) rest) := by
  obtain ⟨v, hcalm, hok, rfl, rfl⟩ := h
  have hslow : ∃ u in' err rest, in_.gu_in_utf8_ S none = .ok (u, in', err) ∧ Utf8Outcome (in_.rest v) u err rest ∧ Live S in' ∧
      (err = none → Source S in' (in_.gu_in_tell + ((in_.rest v).length - rest.length)) rest) := by
    rcases GuIn.u8_spec hok with ⟨hend, in₁, hu8, hok₁, -⟩ | ⟨c, in₁, hu8, hok₁, hrest₁, htell₁⟩
    · refine ⟨0, in₁, some .GuEOF, [], ?_, by rw [hend]; exact .eof, live_iff.2 ⟨v, hcalm, hok₁⟩, by simp⟩
      rw [GuIn.gu_in_utf8_, hu8]
      rfl
    have hsz : gu_in_utf8_len c ≤ PTRDIFF_MAX := (in_len_le c).trans (by decide)
    obtain ⟨got, in', hsome, hok', hrest', htell', hle, hend⟩ := GuIn.some_spec hok₁ (Nat.le_refl _) hsz
    have hlive : Live S in' := live_iff.2 ⟨v, hcalm, hok'⟩
    have hrun : in_.gu_in_utf8_ S none = if got.length < gu_in_utf8_len c then .ok (0, in', some .GuUCSExn)
        else gu_utf8_decode_one (c :: got) 0 none >>= fun r => .ok (r.2.1, in', r.2.2) := by
      rw [GuIn.gu_in_utf8_, hu8]
      show (in₁.gu_in_some S (gu_in_utf8_len c) (gu_in_utf8_len c) none >>= _) = _
      rw [hsome]
      rfl
    by_cases hcut : got.length < gu_in_utf8_len c
    · refine ⟨0, in', some .GuUCSExn, [], by rw [hrun, if_pos hcut], ?_, hlive, by simp⟩
      rw [hrest₁, hrest', hend hcut, List.append_nil]
      exact .cut hcut
    · have hlen : got.length = gu_in_utf8_len c := by omega
      obtain ⟨n, u, err, hdec, hout⟩ := decode_outcome hlen (in'.rest v)
      refine ⟨u, in', err, in'.rest v, ?_, ?_, hlive, fun _ => ⟨v, hcalm, hok', ?_, rfl⟩⟩
      · rw [hrun, if_neg hcut, hdec]
        rfl
      · rw [hrest₁, hrest']
        exact hout
      · rw [htell', htell₁, hrest₁, hrest', List.length_cons, List.length_append]
        omega
  rcases GuIn.peek_spec hok with ⟨-, hp⟩ | ⟨c, hleft, hp, hhead⟩
  · rw [GuIn.gu_in_utf8, hp]
    exact hslow
  by_cases hc : c < 0x80
  · obtain ⟨c', -, hok', hrest, htell⟩ := GuIn.unread_cons hok hleft
    obtain rfl : c' = c := by simpa [hrest] using hhead
    refine ⟨c'.toNat, in_.advance 1, none, (in_.advance 1).rest v, ?_, by rw [hrest]; exact .ascii hc, live_iff.2 ⟨v, hcalm, hok'⟩,
      fun _ => ⟨v, hcalm, hok', ?_, rfl⟩⟩
    · simp only [GuIn.gu_in_utf8, hp, Exec.ok_bind, if_pos hc, GuIn.consume_eq hleft, Exec.pure_eq]
    · rw [htell, hrest, List.length_cons]
      omega
  · have hlong : in_.gu_in_utf8 S none = in_.gu_in_utf8_ S none := by
      simp only [GuIn.gu_in_utf8, hp, Exec.ok_bind, if_neg hc]
    rw [hlong]
    exact hslow

end Live

end Libpgf
