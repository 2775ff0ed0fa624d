import Libpgf.Gu.OutStack
import Libpgf.Gu.Utf8In
/-!
# Text

Characters that are written one by one or in runs are in the output as UTF-8,
each of them whole at any time. Read back over any stack of streams, or decoded
in pieces of any size, they are the same characters.
-/

namespace Libpgf

open String

/-- The code points of a text. -/
def codes (cs : List Char) : List GuUCS := cs.map Char.toNat

@[simp] theorem codes_nil : codes [] = [] := rfl

@[simp] theorem codes_cons (c : Char) (cs : List Char) : codes (c :: cs) = c.toNat :: codes cs := rfl

@[simp] theorem codes_length (cs : List Char) : (codes cs).length = cs.length := List.length_map _

theorem codes_append (cs cs' : List Char) : codes (cs ++ cs') = codes cs ++ codes cs' := List.map_append

/-- Bytes that are a text. -/
def Text (bs : Bytes) : Prop := ∃ cs, bs = utf8 cs

theorem text_blocks : Blocks Text where
  nil := ⟨[], rfl⟩
  append := by
    rintro a b ⟨cs, rfl⟩ ⟨cs', rfl⟩
    exact ⟨cs ++ cs', (utf8_append _ _).symm⟩

theorem text_char (c : Char) : Text (utf8EncodeChar c) := ⟨[c], (List.append_nil _).symm⟩

theorem utf8_length_le_four (cs : List Char) : (utf8 cs).length ≤ 4 * cs.length := by
  induction cs with
  | nil => exact Nat.le_refl 0
  | cons c cs ih =>
    have hc := utf8_length_le c
    rw [utf8_cons, List.length_append, List.length_cons]
    omega

theorem utf8_eq_nil (cs : List Char) (h : (utf8 cs).length = 0) : cs = [] := by
  cases cs with
  | nil => rfl
  | cons c cs =>
    have hc := utf8_length_pos c
    rw [utf8_cons, List.length_append] at h
    omega

/-! ## Encoding -/

theorem encode_some_spec (cs : List Char) : gu_utf8_encode_some (codes cs) = .ok (utf8 cs) := by
  induction cs with
  | nil => rfl
  | cons c cs ih =>
    simp only [codes_cons, gu_utf8_encode_some, encode_one_eq, Exec.ok_bind, ih, Exec.pure_eq, utf8_cons]

theorem encode_bulk_spec (rounds dst_rem : Nat) (cs : List Char) (h : cs.length ≤ rounds) :
    ∃ done rest, cs = done ++ rest ∧ (utf8 done).length ≤ dst_rem ∧ (cs ≠ [] → 4 ≤ dst_rem → done ≠ []) ∧
      gu_utf8_encode_bulk rounds (codes cs) dst_rem = .ok (utf8 done, codes rest, dst_rem - (utf8 done).length) := by
  induction rounds generalizing cs dst_rem with
  | zero =>
    obtain rfl := List.length_eq_zero_iff.1 (Nat.le_zero.1 h)
    refine ⟨[], [], rfl, Nat.zero_le _, fun hne => absurd rfl hne, ?_⟩
    rw [gu_utf8_encode_bulk]
    simp
  | succ rounds ih =>
    unfold gu_utf8_encode_bulk
    rw [codes_length]
    by_cases h0 : min cs.length (dst_rem / 4) = 0
    · refine ⟨[], cs, rfl, Nat.zero_le _, fun hne hle => ?_, if_pos h0⟩
      have hpos := List.length_pos_iff.2 hne
      omega
    · have htake : (codes cs).take (min cs.length (dst_rem / 4)) = codes (cs.take (min cs.length (dst_rem / 4))) := List.map_take.symm
      have hdrop : (codes cs).drop (min cs.length (dst_rem / 4)) = codes (cs.drop (min cs.length (dst_rem / 4))) := List.map_drop.symm
      have hlen : (cs.take (min cs.length (dst_rem / 4))).length = min cs.length (dst_rem / 4) := by
        rw [List.length_take]
        omega
      have hfit : (utf8 (cs.take (min cs.length (dst_rem / 4)))).length ≤ dst_rem := by
        have hle := utf8_length_le_four (cs.take (min cs.length (dst_rem / 4)))
        omega
      obtain ⟨done, rest, happ, hle, -, hrun⟩ := ih (dst_rem - (utf8 (cs.take (min cs.length (dst_rem / 4)))).length)
        (cs.drop (min cs.length (dst_rem / 4))) (by rw [List.length_drop]; omega)
      refine ⟨cs.take (min cs.length (dst_rem / 4)) ++ done, rest, ?_, ?_, fun _ _ => ?_, ?_⟩
      · rw [List.append_assoc, ← happ, List.take_append_drop]
      · rw [utf8_append, List.length_append]
        omega
      · intro hnil
        rw [(List.append_eq_nil_iff.1 hnil).1, List.length_nil] at hlen
        exact h0 hlen.symm
      · rw [if_neg h0]
        simp only [htake, hdrop, encode_some_spec, Exec.ok_bind, Exec.require, hfit, if_true, hrun, Exec.pure_eq, utf8_append,
          List.length_append, Nat.sub_sub]

/-- The loop stops at a character that does not fit. -/
theorem encode_rest_spec (dst_rem : Nat) (cs : List Char) :
    ∃ done rest, cs = done ++ rest ∧ (utf8 done).length ≤ dst_rem ∧ gu_utf8_encode_rest (codes cs) dst_rem = .ok (utf8 done, codes rest) ∧
      ∀ c ∈ rest.head?, dst_rem < (utf8 done).length + (utf8EncodeChar c).length := by
  induction cs generalizing dst_rem with
  | nil => exact ⟨[], [], rfl, Nat.zero_le _, rfl, by simp⟩
  | cons c cs ih =>
    have hpos := utf8_length_pos c
    rw [codes_cons, gu_utf8_encode_rest]
    by_cases h0 : dst_rem = 0
    · refine ⟨[], c :: cs, rfl, Nat.zero_le _, if_pos h0, ?_⟩
      intro d hd
      obtain rfl : c = d := Option.some.inj hd
      simpa [h0] using hpos
    rw [if_neg h0, encode_length_eq]
    by_cases hlen : (utf8EncodeChar c).length > dst_rem
    · refine ⟨[], c :: cs, rfl, Nat.zero_le _, if_pos hlen, ?_⟩
      intro d hd
      obtain rfl : c = d := Option.some.inj hd
      simpa using hlen
    · obtain ⟨done, rest, rfl, hle, hrun, hstop⟩ := ih (dst_rem - (utf8EncodeChar c).length)
      refine ⟨c :: done, rest, rfl, ?_, ?_, ?_⟩
      · rw [utf8_cons, List.length_append]
        omega
      · simp only [if_neg hlen, encode_one_eq, Exec.ok_bind, hrun, Exec.pure_eq, utf8_cons]
      · intro d hd
        have := hstop d hd
        rw [utf8_cons, List.length_append]
        omega

/-- What is encoded is the first characters, up to one that does not fit. -/
theorem encode_stops (dst_rem : Nat) (cs : List Char) :
    ∃ done rest, cs = done ++ rest ∧ (utf8 done).length ≤ dst_rem ∧ gu_utf8_encode (codes cs) dst_rem = .ok (utf8 done, codes rest) ∧
      ∀ c ∈ rest.head?, dst_rem < (utf8 done).length + (utf8EncodeChar c).length := by
  obtain ⟨done, rest, rfl, hle, -, hbulk⟩ := encode_bulk_spec cs.length dst_rem cs (Nat.le_refl _)
  obtain ⟨done', rest', rfl, hle', hrest, hstop⟩ := encode_rest_spec (dst_rem - (utf8 done).length) rest
  refine ⟨done ++ done', rest', (List.append_assoc _ _ _).symm, ?_, ?_, ?_⟩
  · rw [utf8_append, List.length_append]
    omega
  · simp only [gu_utf8_encode, codes_length, hbulk, Exec.ok_bind, hrest, Exec.pure_eq, utf8_append]
  · intro c hc
    have := hstop c hc
    rw [utf8_append, List.length_append]
    omega

/-- One character at least is encoded when four bytes are free. -/
theorem encode_spec (dst_rem : Nat) (cs : List Char) :
    ∃ done rest, cs = done ++ rest ∧ (utf8 done).length ≤ dst_rem ∧ (cs ≠ [] → 4 ≤ dst_rem → done ≠ []) ∧
      gu_utf8_encode (codes cs) dst_rem = .ok (utf8 done, codes rest) := by
  obtain ⟨done, rest, rfl, hle, hrun, hstop⟩ := encode_stops dst_rem cs
  refine ⟨done, rest, rfl, hle, ?_, hrun⟩
  rintro hne h4 rfl
  cases rest with
  | nil => exact hne rfl
  | cons c rest =>
    have hlt := hstop c rfl
    have hlen := utf8_length_le c
    simp only [utf8_nil, List.length_nil] at hlt
    omega

/-! ## Writing -/

section Writing
variable {σ : Type} {S : GuOutStreamFuns σ} {init : Bytes} {v : OutView Text init S} {out : GuOut σ}

theorem out_utf8_spec {c : Char} {n : Nat} (h : out.Ok v (8 + n)) :
    ∃ out', out.gu_out_utf8 S c.toNat none = .ok (out', none) ∧ out'.Ok v n ∧ out'.taken v = out.taken v ++ utf8EncodeChar c := by
  unfold GuOut.gu_out_utf8
  simp only [Exec.require, toNat_valid, if_true, Exec.ok_bind]
  by_cases hc : c.toNat < 0x80
  · have henc : utf8EncodeChar c = [UInt8.ofNat c.toNat] := by
      rcases utf8_cases c with ⟨-, henc⟩ | ⟨hlo, -⟩ | ⟨hlo, -⟩ | ⟨hlo, -⟩
      · exact henc
      all_goals omega
    rw [if_pos hc, henc]
    exact GuOut.u8_spec text_blocks (h.less (by omega)) (henc ▸ text_char c)
  · have hle := utf8_length_le c
    obtain ⟨span, out₁, hbegin, hok, htaken, hsz, hspan⟩ := GuOut.begin_span_spec text_blocks ⟨none, 4⟩ h (by omega : 4 ≤ 8 + n)
    obtain ⟨out', hend, hok', htaken'⟩ := GuOut.end_span_spec text_blocks span.p (utf8EncodeChar c)
      (hok.less (by omega : _ + n ≤ _)) (hle.trans (by decide)) (text_char c) (GuOut.not_overruns rfl hspan (hle.trans hsz))
    refine ⟨out', ?_, hok', by rw [htaken', htaken]⟩
    rw [if_neg hc, GuOut.gu_out_utf8_long_, hbegin]
    simp only [Exec.ok_bind, gu_ok_none, Bool.not_true, Bool.false_eq_true, if_false, encode_one_eq, Exec.require,
      hle.trans hsz, if_true, hend]

/-- After up to `k` rounds, some first characters are written; and all of them, if there were as many rounds as characters. -/
theorem utf32_loop_spec {k n : Nat} {cs : List Char} (h : out.Ok v (8 * cs.length + n)) :
    ∃ done rest out', cs = done ++ rest ∧ out.gu_utf32_out_utf8_loop S k (codes cs) none = .ok (codes rest, out', none) ∧
      out'.Ok v (8 * rest.length + n) ∧ out'.taken v = out.taken v ++ utf8 done ∧ (cs.length ≤ k → rest = []) := by
  induction k generalizing out cs with
  | zero =>
    refine ⟨[], cs, out, rfl, rfl, h, (List.append_nil _).symm, fun hle => ?_⟩
    exact List.length_eq_zero_iff.1 (Nat.le_zero.1 hle)
  | succ k ih =>
    unfold GuOut.gu_utf32_out_utf8_loop
    cases cs with
    | nil => exact ⟨[], [], out, rfl, rfl, h, (List.append_nil _).symm, fun _ => rfl⟩
    | cons c cs =>
      have h4 : 4 ≤ 8 * (c :: cs).length + n := by
        rw [List.length_cons]
        omega
      obtain ⟨span, out₁, hbegin, hok, htaken, hsz, hspan⟩ := GuOut.begin_span_spec text_blocks ⟨none, 4⟩ h h4
      obtain ⟨done, rest, happ, hle, hne, henc⟩ := encode_spec span.sz (c :: cs)
      have hdone := hne (List.cons_ne_nil _ _) hsz
      have hfour := utf8_length_le_four done
      have hlen : (c :: cs).length = done.length + rest.length := by rw [happ, List.length_append]
      have hmax : span.sz ≤ PTRDIFF_MAX := by
        rcases hspan with rfl | ⟨-, rfl⟩
        · exact (by decide : 4 ≤ PTRDIFF_MAX)
        · exact hok.left_le
      obtain ⟨out₂, hend, hok₂, htaken₂⟩ := GuOut.end_span_spec text_blocks span.p (utf8 done)
        (hok.less (by omega : _ + (8 * rest.length + n) ≤ _)) (hle.trans hmax) ⟨done, rfl⟩ (GuOut.not_overruns rfl hspan hle)
      obtain ⟨done', rest', out', rfl, hrun, hok', htaken', hall⟩ := ih hok₂
      refine ⟨done ++ done', rest', out', ?_, ?_, hok', ?_, fun hk => hall ?_⟩
      · rw [happ, List.append_assoc]
      · rw [if_neg (by rw [codes_cons]; exact List.cons_ne_nil _ _), hbegin]
        simp only [Exec.ok_bind, gu_ok_none, Bool.not_true, Bool.false_eq_true, if_false, henc, hend, hrun]
      · rw [htaken', htaken₂, htaken, utf8_append, List.append_assoc]
      · have hpos := List.length_pos_iff.2 hdone
        omega

theorem utf32_spec {n : Nat} (cs : List Char) (h : out.Ok v (8 * cs.length + n)) :
    ∃ out', out.gu_utf32_out_utf8 S (codes cs) none = .ok (cs.length, out', none) ∧ out'.Ok v n ∧ out'.taken v = out.taken v ++ utf8 cs := by
  obtain ⟨done, rest, out', rfl, hrun, hok, htaken, hall⟩ := utf32_loop_spec (k := cs.length) h
  obtain rfl := hall (Nat.le_refl _)
  rw [List.append_nil] at hrun ⊢
  refine ⟨out', ?_, hok.less (Nat.le_add_left _ _), htaken⟩
  rw [GuOut.gu_utf32_out_utf8, codes_length, hrun]
  simp only [codes_nil, Exec.ok_bind, ne_eq, not_true_eq_false, false_and, if_false, List.length_nil, Nat.sub_zero, Exec.pure_eq]

end Writing

/-- A call to write a text: `gu_ucs_write` is `gu_out_utf8`, and `gu_utf32_write` is `gu_utf32_out_utf8`, on the `GuOut` of the writer. -/
inductive TextOp where
  | ucs_write (c : Char)
  | utf32_write (cs : List Char)

def TextOp.text : TextOp → List Char
  | .ucs_write c => [c]
  | .utf32_write cs => cs

def TextOp.run {σ : Type} (S : GuOutStreamFuns σ) (op : TextOp) (out : GuOut σ) : Exec (GuOut σ × GuExn) :=
  match op with
  | .ucs_write c => out.gu_out_utf8 S c.toNat none
  | .utf32_write cs => do
    let (_, out, err) ← out.gu_utf32_out_utf8 S (codes cs) none
    return (out, err)

/-- Makes the calls in turn, up to the first that raises an exception. -/
def GuOut.runText {σ : Type} (S : GuOutStreamFuns σ) : List TextOp → GuOut σ → Exec (GuOut σ × GuExn)
  | [], out => .ok (out, none)
  | op :: ops, out => do
    let (out, err) ← op.run S out
    if !gu_ok err then return (out, err)
    runText S ops out

theorem runText_spec {σ : Type} {S : GuOutStreamFuns σ} {init : Bytes} {v : OutView Text init S} {out : GuOut σ} {n : Nat} {ops : List TextOp}
    (h : out.Ok v (8 * (ops.flatMap TextOp.text).length + n)) :
    ∃ out', out.runText S ops = .ok (out', none) ∧ out'.Ok v n ∧ out'.taken v = out.taken v ++ utf8 (ops.flatMap TextOp.text) := by
  induction ops generalizing out with
  | nil => exact ⟨out, rfl, h.less (Nat.le_add_left _ _), (List.append_nil _).symm⟩
  | cons op ops ih =>
    rw [List.flatMap_cons, List.length_append, Nat.mul_add, Nat.add_assoc] at h
    have hop : ∃ out₁, op.run S out = .ok (out₁, none) ∧ out₁.Ok v (8 * (ops.flatMap TextOp.text).length + n) ∧
        out₁.taken v = out.taken v ++ utf8 op.text := by
      cases op with
      | ucs_write c =>
        obtain ⟨out₁, hrun, hok, htaken⟩ := out_utf8_spec h
        exact ⟨out₁, hrun, hok, by rw [htaken, TextOp.text, utf8_cons, utf8_nil, List.append_nil]⟩
      | utf32_write cs =>
        obtain ⟨out₁, hrun, hok, htaken⟩ := utf32_spec cs h
        refine ⟨out₁, ?_, hok, htaken⟩
        simp only [TextOp.run, hrun, Exec.ok_bind, Exec.pure_eq]
    obtain ⟨out₁, hrun, hok, htaken⟩ := hop
    obtain ⟨out', hruns, hok', htaken'⟩ := ih hok
    refine ⟨out', ?_, hok', ?_⟩
    · simp only [GuOut.runText, hrun, Exec.ok_bind, gu_ok_none, Bool.not_true, Bool.false_eq_true, if_false, hruns]
    · rw [htaken', htaken, List.append_assoc, List.flatMap_cons, utf8_append]

/-! ## Reading -/

/-- Reads up to `n` characters, up to the first exception: `gu_read_ucs` is `gu_in_utf8` on the `GuIn` of the reader. -/
def gu_read_text {σ : Type} (S : GuInStreamFuns σ) : Nat → GuIn σ → Exec (List GuUCS × GuExn)
  | 0, _ => .ok ([], none)
  | n + 1, in_ => do
    let (u, in_, err) ← in_.gu_in_utf8 S none
    if !gu_ok err then return ([], err)
    let (us, err) ← gu_read_text S n in_
    return (u :: us, err)

theorem read_text_spec {σ : Type} {S : GuInStreamFuns σ} {in_ : GuIn σ} {cs : List Char} (h : InReach S in_ (utf8 cs)) {n : Nat}
    (hn : cs.length < n) : gu_read_text S n in_ = .ok (codes cs, some .GuEOF) := by
  induction cs generalizing n in_ with
  | nil =>
    obtain ⟨u, in', err, rest, hrun, hout, -⟩ := in_utf8_spec h
    cases hout
    cases n with
    | zero => exact absurd hn (Nat.not_lt_zero _)
    | succ n => simp only [gu_read_text, hrun, Exec.ok_bind, gu_ok_some, Bool.not_false, if_true, Exec.pure_eq, codes_nil]
  | cons c cs ih =>
    obtain ⟨u, in', err, rest, hrun, hout, hreach⟩ := in_utf8_spec h
    rw [utf8_cons] at hout
    obtain ⟨rfl, rfl, rfl⟩ := hout.char
    cases n with
    | zero => exact absurd hn (Nat.not_lt_zero _)
    | succ n =>
      have hrest := ih (hreach rfl).1 (Nat.lt_of_succ_lt_succ hn)
      simp only [gu_read_text, hrun, Exec.ok_bind, gu_ok_none, Bool.not_true, Bool.false_eq_true, if_false, hrest, Exec.pure_eq, codes_cons]

/-! ## Decoding -/

theorem decode_some_spec {n : Nat} {cs : List Char} (h : n ≤ cs.length) :
    gu_utf8_decode_some n (utf8 cs) = .ok (codes (cs.take n), utf8 (cs.drop n)) := by
  induction n generalizing cs with
  | zero => rfl
  | succ n ih =>
    cases cs with
    | nil => exact absurd h (Nat.not_succ_le_zero n)
    | cons c cs =>
      simp only [gu_utf8_decode_some, utf8_cons, decode_one_unsafe_eq, Exec.ok_bind, List.drop_left, ih (Nat.le_of_succ_le_succ h),
        Exec.pure_eq, List.take_succ_cons, List.drop_succ_cons, codes_cons]

theorem decode_loop_spec {n dst_rem : Nat} {cs : List Char} (h : dst_rem ≤ n) :
    gu_utf8_decode_loop n (utf8 cs) dst_rem = .ok (codes (cs.take dst_rem), utf8 (cs.drop dst_rem)) := by
  induction n generalizing cs dst_rem with
  | zero =>
    obtain rfl := Nat.le_zero.1 h
    rw [gu_utf8_decode_loop, Nat.min_zero, if_pos rfl]
    rfl
  | succ n ih =>
    have hlen := utf8_length_le_four cs
    rw [gu_utf8_decode_loop]
    by_cases h0 : min (((utf8 cs).length + 3) / 4) dst_rem = 0
    · rw [if_pos h0]
      by_cases hd : dst_rem = 0
      · subst hd
        rfl
      · obtain rfl := utf8_eq_nil cs (by omega)
        rw [List.take_nil, List.drop_nil]
        rfl
    · rw [if_neg h0]
      have hle : min (((utf8 cs).length + 3) / 4) dst_rem ≤ cs.length := by omega
      have hsplit : min (((utf8 cs).length + 3) / 4) dst_rem + (dst_rem - min (((utf8 cs).length + 3) / 4) dst_rem) = dst_rem := by omega
      generalize min (((utf8 cs).length + 3) / 4) dst_rem = sz at h0 hle hsplit ⊢
      simp only [decode_some_spec hle, Exec.ok_bind, ih (by omega : dst_rem - sz ≤ n), Exec.pure_eq]
      rw [← codes_append, ← List.take_add, List.drop_drop, hsplit]

/-- Decodes `src` in pieces of at most the sizes `caps`. -/
def gu_decode_text : List Nat → Bytes → Exec (List GuUCS × Bytes)
  | [], src => .ok ([], src)
  | cap :: caps, src => do
    let (us, src) ← gu_utf8_decode_unsafe src cap
    let (us', src) ← gu_decode_text caps src
    return (us ++ us', src)

theorem decode_text_spec {caps : List Nat} {cs : List Char} :
    gu_decode_text caps (utf8 cs) = .ok (codes (cs.take caps.sum), utf8 (cs.drop caps.sum)) := by
  induction caps generalizing cs with
  | nil => rfl
  | cons cap caps ih =>
    simp only [gu_decode_text, gu_utf8_decode_unsafe, decode_loop_spec (Nat.le_refl cap), Exec.ok_bind, ih, Exec.pure_eq]
    rw [← codes_append, ← List.take_add, List.drop_drop, List.sum_cons]

/-! ## The round trip -/

/-- Calls that write `cs` leave it in the sink, after what was there before; between any two writes of the calls, what is in the sink is
a text. -/
def WritesText (cs : List Char) : Prop :=
  ∀ {lim : Nat} {σ : Type} {S : GuOutStreamFuns σ} {sink : σ → Bytes} {out : GuOut σ} {init : Bytes}, OutStack lim S sink out init →
    8 * cs.length ≤ lim → ∀ ops : List TextOp, ops.flatMap TextOp.text = cs →
      (∃ out₁ out₂, out.runText S ops = .ok (out₁, none) ∧ out₁.gu_out_flush S none = .ok (out₂, none) ∧ sink out₂.stream = init ++ utf8 cs) ∧
      ∀ ops₁ cs₁ ops₂, ops = ops₁ ++ .utf32_write cs₁ :: ops₂ → ∀ k, ∃ out₁ done rest out₂, out.runText S ops₁ = .ok (out₁, none) ∧
        cs₁ = done ++ rest ∧ out₁.gu_utf32_out_utf8_loop S k (codes cs₁) none = .ok (codes rest, out₂, none) ∧
        ∃ bs, Text bs ∧ sink out₂.stream = init ++ bs

/-- Whatever stack delivers the text, it is read as `cs`, and then it ends. -/
def ReadsText (cs : List Char) : Prop :=
  ∀ {σ : Type} {S : GuInStreamFuns σ} {in_ : GuIn σ}, InReach S in_ (utf8 cs) → ∀ n, cs.length < n →
    gu_read_text S n in_ = .ok (codes cs, some .GuEOF)

/-- Pieces of any sizes come to the first characters, and the rest stays. -/
def DecodesText (cs : List Char) : Prop :=
  ∀ caps, gu_decode_text caps (utf8 cs) = .ok (codes (cs.take caps.sum), utf8 (cs.drop caps.sum))

theorem text_round_trip (cs : List Char) : WritesText cs ∧ ReadsText cs ∧ DecodesText cs := by
  refine ⟨?_, fun h n hn => read_text_spec h hn, fun caps => decode_text_spec⟩
  intro lim σ S sink out init h hlim ops hops
  obtain ⟨v, hok, htaken, rfl⟩ := h.view text_blocks
  subst hops
  constructor
  · obtain ⟨out₁, hrun, hok₁, htaken₁⟩ := runText_spec (n := 0) (hok.less hlim)
    obtain ⟨out₂, hflush, -, -, hsink⟩ := GuOut.flush_spec text_blocks hok₁
    exact ⟨out₁, out₂, hrun, hflush, by rw [hsink, htaken₁, htaken]⟩
  · rintro ops₁ cs₁ ops₂ rfl k
    have hlen : 8 * (ops₁.flatMap TextOp.text).length + (8 * cs₁.length + 0) ≤ lim := by
      rw [List.flatMap_append, List.flatMap_cons, List.length_append, List.length_append, TextOp.text] at hlim
      omega
    obtain ⟨out₁, hrun, hok₁, -⟩ := runText_spec (hok.less hlen)
    obtain ⟨done, rest, out₂, rfl, hloop, hok₂, -⟩ := utf32_loop_spec (k := k) hok₁
    exact ⟨out₁, done, rest, out₂, hrun, rfl, hloop, v.whole hok₂.stream⟩

/-- Two calls that write to a `GuBuf`, and the bytes read from memory and decoded two at a time. -/
theorem text_round_trip_euro :
    (∃ out₁ out₂, (gu_buf_out (gu_make_buf fun _ => 0)).runText gu_buf_out_funs [.ucs_write 'a', .utf32_write ['€', 'b']] = .ok (out₁, none) ∧
      out₁.gu_out_flush gu_buf_out_funs none = .ok (out₂, none) ∧ out₂.stream.data = [] ++ utf8 ['a', '€', 'b']) ∧
    gu_read_text gu_data_in_funs 4 (gu_data_in (utf8 ['a', '€', 'b'])) = .ok (codes ['a', '€', 'b'], some .GuEOF) ∧
    gu_decode_text [2, 2] (utf8 ['a', '€', 'b']) = .ok (codes ['a', '€', 'b'], []) := by
  obtain ⟨hwrites, hreads, hdecodes⟩ := text_round_trip ['a', '€', 'b']
  have hstack : OutStack 24 gu_buf_out_funs GuBuf.data (gu_buf_out (gu_make_buf fun _ => 0)) [] :=
    .buf (gu_make_buf fun _ => 0) (Nat.le_refl 0) (Nat.zero_le _) (by decide : 0 + 24 ≤ GU_BUF_ROOM)
  exact ⟨(hwrites hstack (Nat.le_refl _) [.ucs_write 'a', .utf32_write ['€', 'b']] rfl).1, hreads (.start (.data _)) 4 (by decide),
    hdecodes [2, 2]⟩

end Libpgf
