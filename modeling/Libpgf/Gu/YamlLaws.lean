import Libpgf.Gu.YamlText
/-!
# What the emitter writes is YAML for the tree

Each piece that the emitter writes is cut into its own tokens, whatever comes
before and after it. So the tokens of the text are those of the tree, and they
are read back as the tree.
-/

namespace Libpgf

namespace Yaml

/-! ## Cutting a text into tokens -/

namespace LexState

theorem run_append {st st₁ st₂ : LexState} {w w' : Text} {tokens tokens' : List YamlToken} (h : run st w = some (st₁, tokens))
    (h' : run st₁ w' = some (st₂, tokens')) : run st (w ++ w') = some (st₂, tokens ++ tokens') := by
  induction w generalizing st tokens with
  | nil =>
    obtain ⟨rfl, rfl⟩ := Prod.mk.inj (Option.some.inj h)
    exact h'
  | cons c w ih =>
    rw [run, Option.bind_eq_bind, Option.bind_eq_some_iff] at h
    obtain ⟨⟨q, ts⟩, hstep, hrest⟩ := h
    obtain ⟨⟨q', ts'⟩, hrun, heq⟩ := Option.bind_eq_some_iff.1 hrest
    obtain ⟨rfl, rfl⟩ := Prod.mk.inj (Option.some.inj heq)
    rw [List.cons_append, run, hstep, Option.bind_eq_bind, Option.bind_some]
    dsimp only
    rw [ih hrun, List.append_assoc]
    rfl

theorem run_cons {st st₁ st₂ : LexState} {c : GuUCS} {w : Text} {tokens tokens' : List YamlToken} (h : st.step c = some (st₁, tokens))
    (h' : run st₁ w = some (st₂, tokens')) : run st (c :: w) = some (st₂, tokens ++ tokens') := by
  rw [run, h, Option.bind_eq_bind, Option.bind_some]
  dsimp only
  rw [h']
  rfl

/-- A code point that ends no token. -/
theorem run_skip {st st₁ : LexState} {c : GuUCS} {w : Text} {r : Option (LexState × List YamlToken)} (h : st.step c = some (st₁, []))
    (h' : run st₁ w = r) : run st (c :: w) = r := by
  rw [run, h, Option.bind_eq_bind, Option.bind_some]
  dsimp only
  rw [h']
  cases r <;> rfl

theorem run_single {st st₁ : LexState} {c : GuUCS} {tokens : List YamlToken} (h : st.step c = some (st₁, tokens)) :
    run st [c] = some (st₁, tokens) := by
  rw [run_cons h rfl, List.append_nil]

end LexState

open LexState (run_append run_cons run_skip run_single)

/-- The text is cut into the tokens wherever it stands between tokens. -/
def Lexes (w : Text) (tokens : List YamlToken) : Prop := ∀ b, ∃ b', LexState.run (.blank b) w = some (.blank b', tokens)

theorem Lexes.append {w w' : Text} {tokens tokens' : List YamlToken} (h : Lexes w tokens) (h' : Lexes w' tokens') :
    Lexes (w ++ w') (tokens ++ tokens') := by
  intro b
  obtain ⟨b₁, hw⟩ := h b
  obtain ⟨b₂, hw'⟩ := h' b₁
  exact ⟨b₂, run_append hw hw'⟩

theorem lexes_nil : Lexes [] [] := fun b => ⟨b, rfl⟩

theorem lexes_indent (n : Nat) : Lexes (List.replicate n ' '.toNat) [] := by
  induction n with
  | zero => exact lexes_nil
  | succ n ih =>
    intro b
    obtain ⟨b', h⟩ := ih false
    exact ⟨b', run_skip rfl h⟩

theorem lexes_line : Lexes ['\n'.toNat] [] := fun _ => ⟨true, rfl⟩

/-- The tokens in front of a node within a collection. -/
def GuYamlState.before : GuYamlState → List YamlToken
  | document => [.document_start]
  | key => [.key]
  | value => [.value]
  | elem => []

def GuYamlState.after : GuYamlState → List YamlToken
  | document => [.document_end]
  | key => []
  | value => [.comma]
  | elem => [.comma]

theorem lexes_before {st : GuYamlState} (h : st ≠ .document) : Lexes st.prefix_ st.before := by
  intro b
  cases st with
  | document => exact absurd rfl h
  | key => exact ⟨false, rfl⟩
  | value => exact ⟨false, rfl⟩
  | elem => exact ⟨b, rfl⟩

theorem lexes_after (st : GuYamlState) : Lexes st.suffix st.after := by
  intro b
  cases st with
  | document => exact ⟨true, rfl⟩
  | key => exact ⟨b, rfl⟩
  | value => exact ⟨false, rfl⟩
  | elem => exact ⟨false, rfl⟩

def GuYamlFrameClass.start : GuYamlFrameClass → YamlToken
  | mapping => .mapping_start
  | sequence => .sequence_start

def GuYamlFrameClass.end_ : GuYamlFrameClass → YamlToken
  | mapping => .mapping_end
  | sequence => .sequence_end

theorem lexes_open (klass : GuYamlFrameClass) : Lexes klass.open_ [klass.start] := by
  intro b
  cases klass <;> exact ⟨false, rfl⟩

theorem lexes_close (klass : GuYamlFrameClass) : Lexes klass.close [klass.end_] := by
  intro b
  cases klass <;> exact ⟨false, rfl⟩

/-! ### Names -/

theorem digitValue_char {c : Char} (h : c.isDigit = true) : digitValue c.toNat = some (c.toNat - '0'.toNat) := by
  rw [Char.isDigit, Bool.and_eq_true, decide_eq_true_eq, decide_eq_true_eq] at h
  exact if_pos ⟨h.1, h.2⟩

theorem digit_not_blank {c : Char} (h : c.isDigit = true) : isBlank c.toNat = false := by
  rw [Char.isDigit, Bool.and_eq_true, decide_eq_true_eq, decide_eq_true_eq] at h
  have hle : 48 ≤ c.toNat := h.1
  rw [isBlank, Bool.or_eq_false_iff, decide_eq_false_iff_not, decide_eq_false_iff_not]
  exact ⟨Nat.ne_of_gt (Nat.lt_of_lt_of_le (by decide) hle), Nat.ne_of_gt (Nat.lt_of_lt_of_le (by decide) hle)⟩

theorem run_digits (token : Nat → YamlToken) {cs : List Char} (h : ∀ c ∈ cs, c.isDigit = true) (n : Option Nat) (hne : n ≠ none ∨ cs ≠ []) :
    LexState.run (.name token n) (codes cs) = some (.name token (some (Nat.ofDigitChars 10 cs (n.getD 0))), []) := by
  induction cs generalizing n with
  | nil =>
    cases n with
    | none => simp at hne
    | some n => rfl
  | cons c cs ih =>
    have hc := h c List.mem_cons_self
    have hstep : LexState.step (.name token n) c.toNat = some (.name token (some (n.getD 0 * 10 + (c.toNat - '0'.toNat))), []) := by
      rw [LexState.step, digit_not_blank hc, digitValue_char hc]
      rfl
    have hrest := ih (fun d hd => h d (List.mem_cons_of_mem c hd)) (some (n.getD 0 * 10 + (c.toNat - '0'.toNat))) (.inl (by simp))
    rw [codes_cons, run_skip hstep hrest, Nat.ofDigitChars_cons]
    simp only [Option.getD_some, Nat.mul_comm]

/-- A number that is written, and the blank after it. -/
theorem run_decimal (token : Nat → YamlToken) (n : Nat) :
    LexState.run (.name token none) (decimal n ++ [' '.toNat]) = some (.blank false, [token n]) := by
  have hdigits : ∀ c ∈ Nat.toDigits 10 n, c.isDigit = true := fun c hc => Nat.isDigit_of_mem_toDigits (by decide) (by decide) hc
  have hrun := run_digits token hdigits none (.inr Nat.toDigits_ne_nil)
  rw [Option.getD_none, Nat.ofDigitChars_ten_toDigits] at hrun
  exact run_append hrun rfl

theorem lexes_anchor (n : Nat) : Lexes ('&'.toNat :: decimal n ++ [' '.toNat]) [.prop (.anchor n)] :=
  fun _ => ⟨false, run_skip rfl (run_decimal _ n)⟩

theorem lexes_alias (n : Nat) : Lexes ('*'.toNat :: decimal n ++ [' '.toNat]) [.alias_ n] :=
  fun _ => ⟨false, run_skip rfl (run_decimal _ n)⟩

/-! ### Tags -/

theorem uriChar_ne {c : GuUCS} (h : isUriChar c = true) {d : GuUCS} (hd : isUriChar d = false) : c ≠ d := by
  rintro rfl
  rw [hd] at h
  cases h

theorem uriChar_not_blank {c : GuUCS} (h : isUriChar c = true) : isBlank c = false := by
  rw [isBlank, Bool.or_eq_false_iff, decide_eq_false_iff_not, decide_eq_false_iff_not]
  exact ⟨uriChar_ne h (by decide), uriChar_ne h (by decide)⟩

theorem wordChar_uriChar {c : GuUCS} (h : isWordChar c = true) : isUriChar c = true := by
  rw [isUriChar, h, Bool.true_or]

theorem hexValue_wordChar {c : GuUCS} (h : (hexValue c).isSome = true) : isWordChar c = true := by
  have hn : '0'.toNat = 48 ∧ '9'.toNat = 57 ∧ 'a'.toNat = 97 ∧ 'f'.toNat = 102 ∧ 'z'.toNat = 122 ∧ 'A'.toNat = 65 ∧ 'F'.toNat = 70 ∧
      'Z'.toNat = 90 := ⟨rfl, rfl, rfl, rfl, rfl, rfl, rfl, rfl⟩
  unfold hexValue at h
  simp only [isWordChar, Bool.or_eq_true, Bool.and_eq_true, decide_eq_true_eq, hn]
  split_ifs at h with h₁ h₂ h₃
  · exact .inl (.inl (.inl h₁))
  · exact .inl (.inl (.inr ⟨h₂.1, h₂.2.trans (by decide)⟩))
  · exact .inl (.inr ⟨h₃.1, h₃.2.trans (by decide)⟩)
  · cases h

/-- The characters of a URI, and the `%` of an escape. -/
theorem uri_chars {text : Text} (h : isUri text = true) : ∀ c ∈ text, isUriChar c = true ∨ c = '%'.toNat := by
  fun_induction isUri text with
  | case1 => simp
  | case2 c => simpa using .inl h
  | case3 c d =>
    rw [Bool.and_eq_true] at h
    simp [h.1, h.2]
  | case4 d e text ih =>
    rw [Bool.and_eq_true, Bool.and_eq_true] at h
    obtain ⟨⟨hd, he⟩, htext⟩ := h
    intro c hc
    rcases List.mem_cons.1 hc with rfl | hc
    · exact .inr rfl
    rcases List.mem_cons.1 hc with rfl | hc
    · exact .inl (wordChar_uriChar (hexValue_wordChar hd))
    rcases List.mem_cons.1 hc with rfl | hc
    · exact .inl (wordChar_uriChar (hexValue_wordChar he))
    exact ih htext c hc
  | case5 c d e text hne ih =>
    rw [Bool.and_eq_true] at h
    intro x hx
    rcases List.mem_cons.1 hx with rfl | hx
    · exact .inl h.1
    · exact ih h.2 x hx

theorem uri_ne {text : Text} (h : isUri text = true) {c : GuUCS} (hc : c ∈ text) {d : GuUCS} (hd : isUriChar d = false) (hp : d ≠ '%'.toNat) :
    c ≠ d := by
  rcases uri_chars h c hc with hu | rfl
  · exact uriChar_ne hu hd
  · exact hp.symm

theorem uri_not_blank {text : Text} (h : isUri text = true) {c : GuUCS} (hc : c ∈ text) : isBlank c = false := by
  rw [isBlank, Bool.or_eq_false_iff, decide_eq_false_iff_not, decide_eq_false_iff_not]
  exact ⟨uri_ne h hc (by decide) (by decide), uri_ne h hc (by decide) (by decide)⟩

namespace YamlTag

theorem split_primary {tag : Text} (h : isTagText tag = true) : split tag = .primary tag := by
  rw [isTagText, Bool.and_eq_true, Bool.and_eq_true] at h
  obtain ⟨⟨hne, huri⟩, hall⟩ := h
  cases tag with
  | nil => cases hne
  | cons c rest =>
    have hc : c ≠ '<'.toNat := uri_ne huri List.mem_cons_self (by decide) (by decide)
    unfold split
    simp only [if_neg hc]
    cases hdrop : (c :: rest).dropWhile isWordChar with
    | nil => rfl
    | cons d tag =>
      have hmem : d ∈ c :: rest := (List.dropWhile_sublist _).mem (hdrop ▸ List.mem_cons_self)
      have hd := List.all_eq_true.1 hall d hmem
      rw [Bool.and_eq_true, bne_iff_ne] at hd
      simp only [if_neg hd.1]

theorem split_secondary (tag : Text) : split ('!'.toNat :: tag) = .secondary tag := by
  have hword : isWordChar '!'.toNat = false := by decide
  have hne : '!'.toNat ≠ '<'.toNat := by decide
  unfold split
  simp only [if_neg hne, List.dropWhile_cons, List.takeWhile_cons, hword]
  rfl

theorem split_named {handle : Text} (tag : Text) (hne : handle ≠ []) (h : ∀ c ∈ handle, isWordChar c = true) :
    split (handle ++ '!'.toNat :: tag) = .named handle tag := by
  have hword : isWordChar '!'.toNat = false := by decide
  have hdrop : (handle ++ '!'.toNat :: tag).dropWhile isWordChar = '!'.toNat :: tag := by
    rw [List.dropWhile_append_of_pos h, List.dropWhile_cons_of_neg (by rw [hword]; decide)]
  have htake : (handle ++ '!'.toNat :: tag).takeWhile isWordChar = handle := by
    rw [List.takeWhile_append_of_pos h, List.takeWhile_cons_of_neg (by rw [hword]; decide), List.append_nil]
  cases handle with
  | nil => exact absurd rfl hne
  | cons c rest =>
    have hc : c ≠ '<'.toNat := uriChar_ne (wordChar_uriChar (h c List.mem_cons_self)) (by decide)
    unfold split
    rw [List.cons_append] at hdrop htake ⊢
    simp only [if_neg hc, hdrop, htake, if_true]
    rfl

theorem split_verbatim (uri : Text) : split ('<'.toNat :: uri ++ ['>'.toNat]) = .verbatim uri := by
  rw [List.cons_append, split, if_pos rfl, List.dropLast_concat]

/-- A tag is read from its text. -/
theorem read_text {t : YamlTag} (h : t.valid = true) : read t.text = some t := by
  have hsplit : split t.text = t := by
    cases t with
    | primary tag => exact split_primary h
    | secondary tag => exact split_secondary tag
    | named handle tag =>
      rw [valid, Bool.and_eq_true, Bool.and_eq_true] at h
      refine split_named tag ?_ (List.all_eq_true.1 h.1.2)
      rintro rfl
      cases h.1.1
    | verbatim uri => exact split_verbatim uri
    | non_specific => rfl
  rw [read, hsplit, h, if_pos (by simp)]

theorem text_not_blank {t : YamlTag} (h : t.valid = true) {c : GuUCS} (hc : c ∈ t.text) : isBlank c = false := by
  have htag : ∀ {tag : Text}, isTagText tag = true → c ∈ tag → isBlank c = false := by
    intro tag htag hmem
    rw [isTagText, Bool.and_eq_true, Bool.and_eq_true] at htag
    exact uri_not_blank htag.1.2 hmem
  cases t with
  | primary tag => exact htag h hc
  | secondary tag =>
    rw [valid, Bool.and_eq_true] at h
    rcases List.mem_cons.1 hc with rfl | hc
    · decide
    · exact htag h.1 hc
  | named handle tag =>
    rw [valid, Bool.and_eq_true, Bool.and_eq_true] at h
    rcases List.mem_append.1 hc with hc | hc
    · exact uriChar_not_blank (wordChar_uriChar (List.all_eq_true.1 h.1.2 c hc))
    rcases List.mem_cons.1 hc with rfl | hc
    · decide
    · exact htag h.2 hc
  | verbatim uri =>
    rw [valid, Bool.and_eq_true] at h
    rcases List.mem_append.1 hc with hc | hc
    · rcases List.mem_cons.1 hc with rfl | hc
      · decide
      · exact uri_not_blank h.1 hc
    · obtain rfl := List.mem_singleton.1 hc
      decide
  | non_specific => cases hc

end YamlTag

theorem run_tag {text w : Text} (h : ∀ c ∈ w, isBlank c = false) : LexState.run (.tag text) w = some (.tag (text ++ w), []) := by
  induction w generalizing text with
  | nil => rw [List.append_nil, LexState.run]
  | cons c w ih =>
    have hstep : LexState.step (.tag text) c = some (.tag (text ++ [c]), []) := by
      rw [LexState.step, h c List.mem_cons_self]
      rfl
    rw [run_skip hstep (ih fun d hd => h d (List.mem_cons_of_mem c hd)), List.append_assoc]
    rfl

theorem lexes_tag {t : YamlTag} (h : t.valid = true) : Lexes ('!'.toNat :: t.text ++ [' '.toNat]) [.prop (.tag t)] := by
  have hblank : LexState.step (.tag t.text) ' '.toNat = some (.blank false, [.prop (.tag t)]) := by
    rw [LexState.step, YamlTag.read_text h]
    rfl
  have htext : LexState.run (.tag []) t.text = some (.tag t.text, []) := run_tag fun c hc => YamlTag.text_not_blank h hc
  exact fun _ => ⟨false, run_skip rfl (run_append htext (run_single hblank))⟩

/-! ### Scalars -/

theorem hexValue_digit {d : Nat} (h : d < 16) : hexValue (hexDigit d) = some d := by
  interval_cases d <;> rfl

/-- All digits but the last ones. -/
theorem run_hexDigits (s : List GuUCS) {n u : Nat} (k : Nat) (h : u < 16 ^ n) :
    LexState.run (.hex s (n + k + 1) 0) (hexDigits n u) = some (.hex s (k + 1) u, []) := by
  induction n generalizing u k with
  | zero =>
    obtain rfl : u = 0 := by simpa using h
    rw [hexDigits, LexState.run, Nat.zero_add]
  | succ n ih =>
    have hlt : u / 16 < 16 ^ n := Nat.div_lt_of_lt_mul (by rwa [Nat.mul_comm, ← Nat.pow_succ])
    have hstep : LexState.step (.hex s (k + 1 + 1) (u / 16)) (hexDigit (u % 16)) = some (.hex s (k + 1) u, []) := by
      have hvalue : u / 16 * 16 + u % 16 = u := by omega
      rw [LexState.step, hexValue_digit (Nat.mod_lt _ (by decide))]
      dsimp only
      rw [if_neg (by omega), hvalue]
      rfl
    have hrun := ih (k + 1) hlt
    rw [show n + (k + 1) + 1 = n + 1 + k + 1 by omega] at hrun
    rw [hexDigits]
    exact run_append hrun (run_single hstep)

theorem run_hex (s : List GuUCS) {n u : Nat} (h : u < 16 ^ (n + 1)) (hu : gu_ucs_valid u = true) :
    LexState.run (.hex s (n + 1) 0) (hexDigits (n + 1) u) = some (.quoted (s ++ [u]), []) := by
  have hlt : u / 16 < 16 ^ n := Nat.div_lt_of_lt_mul (by rwa [Nat.mul_comm, ← Nat.pow_succ])
  have hstep : LexState.step (.hex s 1 (u / 16)) (hexDigit (u % 16)) = some (.quoted (s ++ [u]), []) := by
    have hvalue : u / 16 * 16 + u % 16 = u := by omega
    rw [LexState.step, hexValue_digit (Nat.mod_lt _ (by decide))]
    dsimp only
    rw [if_pos (Nat.le_refl 1), hvalue, if_pos hu]
  rw [hexDigits]
  exact run_append (run_hexDigits s 0 hlt) (run_single hstep)

theorem isPlain_iff {u : Nat} : isPlain u = true ↔
    ((0x20 ≤ u ∧ u ≤ 0x7e ∨ 0xa0 ≤ u ∧ u ≤ 0xd7ff) ∨ 0xe000 ≤ u ∧ u ≤ 0xfffd) ∨ 0x10000 ≤ u ∧ u ≤ 0x10ffff := by
  simp only [isPlain, Bool.or_eq_true, Bool.and_eq_true, decide_eq_true_eq]

theorem hexDigits_plain (n u : Nat) : ∀ c ∈ hexDigits n u, isPlain c = true := by
  induction n generalizing u with
  | zero => simp [hexDigits]
  | succ n ih =>
    intro c hc
    rw [hexDigits] at hc
    rcases List.mem_append.1 hc with hc | hc
    · exact ih _ c hc
    · obtain rfl := List.mem_singleton.1 hc
      have hlt : u % 16 < 16 := Nat.mod_lt _ (by decide)
      interval_cases u % 16 <;> rfl

/-- What stands for a code point between quotes: characters that are not control characters. -/
theorem escape_spec {u : Nat} (hu : gu_ucs_valid u = true) : ∃ text, gu_yaml_escape u = .ok text ∧ (∀ c ∈ text, isPlain c = true) ∧
    ∀ s, LexState.run (.quoted s) text = some (.quoted (s ++ [u]), []) := by
  have hmax : u ≤ 0x10ffff := of_decide_eq_true hu
  unfold gu_yaml_escape
  by_cases hascii : u ≥ 0x20 ∧ u < 0x7f
  · have hplain : isPlain u = true := isPlain_iff.2 (.inl (.inl (.inl ⟨hascii.1, Nat.le_of_lt_succ hascii.2⟩)))
    rw [if_pos hascii]
    by_cases hspecial : u = 0x22 ∨ u = 0x5c
    · refine ⟨['\\'.toNat, u], by rw [if_pos hspecial], ?_, ?_⟩
      · simpa [hplain] using by decide
      · intro s
        rcases hspecial with rfl | rfl <;> rfl
    · refine ⟨[u], by rw [if_neg hspecial], by simpa using hplain, ?_⟩
      intro s
      have hquote : u ≠ '"'.toNat := fun h => hspecial (.inl h)
      have hslash : u ≠ '\\'.toNat := fun h => hspecial (.inr h)
      refine run_single ?_
      rw [LexState.step, if_neg hquote, if_neg hslash, if_pos hplain]
  rw [if_neg hascii]
  by_cases hesc : u < 0x20 ∧ esc u ≠ 0
  · rw [if_pos hesc]
    obtain ⟨hlt, hne⟩ := hesc
    refine ⟨_, rfl, ?_, ?_⟩
    · interval_cases u <;> first | exact absurd rfl hne | decide
    · intro s
      interval_cases u <;> first | exact absurd rfl hne | rfl
  rw [if_neg hesc]
  by_cases hx : u ≤ 0x9f
  · rw [if_pos hx]
    have hstart : ∀ c ∈ codes ['\\', 'x'], isPlain c = true := by decide
    refine ⟨_, rfl, ?_, ?_⟩
    · intro c hc
      rcases List.mem_append.1 hc with hc | hc
      · exact hstart c hc
      · exact hexDigits_plain 2 u c hc
    · intro s
      have hrun : LexState.run (.quoted s) (codes ['\\', 'x']) = some (.hex s 2 0, []) := rfl
      exact run_append hrun (run_hex s (Nat.lt_of_le_of_lt hx (by decide)) hu)
  rw [if_neg hx]
  by_cases hw : (u ≥ 0xd800 ∧ u ≤ 0xdfff) ∨ (u ≥ 0xfffe ∧ u ≤ 0xffff)
  · rw [if_pos hw]
    have hstart : ∀ c ∈ codes ['\\', 'u'], isPlain c = true := by decide
    refine ⟨_, rfl, ?_, ?_⟩
    · intro c hc
      rcases List.mem_append.1 hc with hc | hc
      · exact hstart c hc
      · exact hexDigits_plain 4 u c hc
    · intro s
      have hlt : u < 16 ^ 4 := by omega
      have hrun : LexState.run (.quoted s) (codes ['\\', 'u']) = some (.hex s 4 0, []) := rfl
      exact run_append hrun (run_hex s hlt hu)
  · rw [if_neg hw]
    have hplain : isPlain u = true := by
      rw [isPlain_iff]
      omega
    have hquote : u ≠ '"'.toNat := Nat.ne_of_gt (Nat.lt_of_lt_of_le (by decide) (Nat.le_of_lt (Nat.lt_of_not_le hx)))
    have hslash : u ≠ '\\'.toNat := Nat.ne_of_gt (Nat.lt_of_lt_of_le (by decide) (Nat.le_of_lt (Nat.lt_of_not_le hx)))
    refine ⟨[u], ?_, by simpa using hplain, ?_⟩
    · rw [Exec.require, if_pos hu]
      rfl
    · intro s
      refine run_single ?_
      rw [LexState.step, if_neg hquote, if_neg hslash, if_pos hplain]

end Yaml

end Libpgf
