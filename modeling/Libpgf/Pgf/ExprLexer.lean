import Libpgf.Pgf.ExprText
import Libpgf.Lib.Settles
/-!
# The tokens of an expression

What the reader sees of its input: characters up to a semicolon, up to the end,
or up to an exception, and in them tokens.
-/

namespace Libpgf

/-! ## Characters -/

/-- What comes after the characters of an expression. -/
inductive TextEnd where
  | eof
  /-- A semicolon; the place after it, and the bytes that are still to come there. -/
  | semic (pos : Nat) (rem : Bytes)
  | raised
  deriving DecidableEq

section Feed
variable {σ : Type} (S : GuInStreamFuns σ)

/-- The characters that `gu_getc` delivers, and what comes after them. -/
inductive Feed : GuReader σ → Bytes → TextEnd → Prop
  | eof {rdr pos} (h : Source S rdr pos []) : Feed rdr [] .eof
  | semic {rdr rdr' pos rem pos' rem'} (h : Source S rdr pos rem) (hget : gu_getc S rdr none = .ok (0x3b, rdr', none))
      (h' : Source S rdr' pos' rem') : Feed rdr [] (.semic pos' rem')
  | raised {rdr c rdr' pos rem pos' rem'} (h : Source S rdr pos rem) (hget : gu_getc S rdr none = .ok (c, rdr', some .GuUCSExn))
      (h' : Source S rdr' pos' rem') : Feed rdr [] .raised
  | char {rdr c rdr' pos rem cs e} (h : Source S rdr pos rem) (hget : gu_getc S rdr none = .ok (c, rdr', none)) (hc : c ≠ 0x3b)
      (h' : Feed rdr' cs e) : Feed rdr (c :: cs) e

variable {S}

theorem Feed.source {rdr : GuReader σ} {cs : Bytes} {e : TextEnd} (h : Feed S rdr cs e) : ∃ pos rem, Source S rdr pos rem := by
  cases h with
  | eof h => exact ⟨_, _, h⟩
  | semic h _ _ => exact ⟨_, _, h⟩
  | raised h _ _ => exact ⟨_, _, h⟩
  | char h _ _ _ => exact ⟨_, _, h⟩

/-- ASCII text is delivered up to a semicolon, or to a character that is not portable. -/
theorem Source.feed {rdr : GuReader σ} {pos : Nat} {text rem : Bytes} (h : Source S rdr pos (text ++ rem))
    (hascii : ∀ c ∈ text, c.toNat < 128 ∧ c ≠ 0x3b) (hrem : rem = [] ∨ ∃ after, rem = 0x3b :: after) :
    ∃ cs e, Feed S rdr cs e ∧ ((e = .raised ∧ ∃ c ∈ text, gu_char_is_valid c = false) ∨
      (cs = text ∧ (rem = [] → e = .eof) ∧ ∀ after, rem = 0x3b :: after → e = .semic (pos + text.length + 1) after)) := by
  induction text generalizing rdr pos with
  | nil =>
    rw [List.nil_append] at h
    rcases hrem with rfl | ⟨after, rfl⟩
    · exact ⟨[], .eof, .eof h, .inr ⟨rfl, fun _ => rfl, by simp⟩⟩
    · obtain ⟨rdr', h', hget | ⟨hvalid, -⟩⟩ := getc_ascii h (by decide)
      · refine ⟨[], _, .semic h hget h', .inr ⟨rfl, by simp, fun after' heq => ?_⟩⟩
        cases heq
        rfl
      · exact absurd hvalid (by decide)
  | cons c text ih =>
    obtain ⟨hc, hsemic⟩ := hascii c List.mem_cons_self
    obtain ⟨rdr', h', hget | ⟨hvalid, hget⟩⟩ := getc_ascii h hc
    · obtain ⟨cs, e, hfeed, hcase⟩ := ih h' fun d hd => hascii d (List.mem_cons_of_mem _ hd)
      refine ⟨c :: cs, e, .char h hget hsemic hfeed, ?_⟩
      rcases hcase with ⟨he, d, hd, hvalid⟩ | ⟨rfl, hnil, hcons⟩
      · exact .inl ⟨he, d, List.mem_cons_of_mem _ hd, hvalid⟩
      · refine .inr ⟨rfl, hnil, fun after heq => ?_⟩
        rw [hcons after heq, List.length_cons]
        congr 1
        omega
    · exact ⟨[], .raised, .raised h hget h', .inl ⟨rfl, c, List.mem_cons_self, hvalid⟩⟩

/-- The characters ahead of a parser, whether or not it has put one back. -/
inductive Chars (S : GuInStreamFuns σ) (parser : PgfExprParser σ) : Bytes → TextEnd → Prop
  | fresh {cs e} (hn : parser.next_char = none) (h : Feed S parser.rdr cs e) : Chars S parser cs e
  | pushed {c cs e} (hn : parser.next_char = some c) (h0 : c ≠ 0) (hc : c ≠ 0x3b) (h : Feed S parser.rdr cs e) : Chars S parser (c :: cs) e
  | semic {pos rem} (hn : parser.next_char = some 0x3b) (h : Source S parser.rdr pos rem) : Chars S parser [] (.semic pos rem)
  | stuck {pos rem} (hn : parser.next_char = some 0) (h : Source S parser.rdr pos rem) : Chars S parser [] .eof

/-- A parser after an exception: what it still reads does not matter. -/
structure Broken (S : GuInStreamFuns σ) (parser : PgfExprParser σ) : Prop where
  raised : ∃ t, parser.err = some t ∧ t ≠ .GuEOF
  not_rpar : parser.lookahead ≠ some .rpar
  source : ∃ pos rem, Source S parser.rdr pos rem

variable {parser : PgfExprParser σ} {cs : Bytes} {e : TextEnd}

theorem Chars.source (h : Chars S parser cs e) : ∃ pos rem, Source S parser.rdr pos rem := by
  cases h with
  | fresh _ h => exact h.source
  | pushed _ _ _ h => exact h.source
  | semic _ h => exact ⟨_, _, h⟩
  | stuck _ h => exact ⟨_, _, h⟩

/-- The lookahead is not looked at. -/
theorem Chars.of_same {parser' : PgfExprParser σ} (h : Chars S parser cs e) (hrdr : parser'.rdr = parser.rdr)
    (hn : parser'.next_char = parser.next_char) : Chars S parser' cs e := by
  cases h with
  | fresh hn' h => exact .fresh (hn.trans hn') (hrdr ▸ h)
  | pushed hn' h0 hc h => exact .pushed (hn.trans hn') h0 hc (hrdr ▸ h)
  | semic hn' h => exact .semic (hn.trans hn') (hrdr ▸ h)
  | stuck hn' h => exact .stuck (hn.trans hn') (hrdr ▸ h)

theorem next_char_spec {c : GuChar} (herr : parser.err = none) (h : Chars S parser (c :: cs) e) : ∃ parser',
    pgf_expr_parser_next S parser = .ok (c, parser') ∧ parser'.err = none ∧ parser'.lookahead = parser.lookahead ∧
      c ≠ 0x3b ∧ parser'.next_char = none ∧ Feed S parser'.rdr cs e := by
  unfold pgf_expr_parser_next
  generalize hcs : c :: cs = ccs at h
  cases h with
  | fresh hn h =>
    subst hcs
    cases h with
    | @char _ _ rdr' _ _ _ _ hsource hget hc h' =>
      refine ⟨{ parser with rdr := rdr', err := none }, ?_, rfl, rfl, hc, hn, h'⟩
      rw [hn, herr]
      simp only [hget, Exec.ok_bind, reduceCtorEq, if_false, Exec.pure_eq]
  | pushed hn h0 hc h =>
    cases hcs
    refine ⟨{ parser with next_char := none }, ?_, herr, rfl, hc, rfl, h⟩
    have hpos : 0 < c := UInt8.pos_iff_ne_zero.2 h0
    rw [hn]
    simp only [if_pos hpos]
  | semic _ _ => cases hcs
  | stuck _ _ => cases hcs

theorem next_eof_spec (herr : parser.err = none) (h : Chars S parser [] .eof) : ∃ parser',
    pgf_expr_parser_next S parser = .ok (0, parser') ∧ parser'.err = none ∧ parser'.lookahead = parser.lookahead ∧ Chars S parser' [] .eof := by
  unfold pgf_expr_parser_next
  cases h with
  | fresh hn h =>
    cases h with
    | eof h =>
      obtain ⟨rdr', hget, h'⟩ := getc_end h
      refine ⟨{ parser with rdr := rdr', err := none }, ?_, rfl, rfl, .fresh hn (.eof h')⟩
      rw [hn, herr]
      simp only [hget, Exec.ok_bind, if_true, Exec.pure_eq]
  | stuck hn h =>
    refine ⟨parser, ?_, herr, rfl, .stuck hn h⟩
    rw [hn]
    rfl

theorem next_semic_spec {pos : Nat} {rem : Bytes} (herr : parser.err = none) (h : Chars S parser [] (.semic pos rem)) : ∃ parser',
    pgf_expr_parser_next S parser = .ok (0x3b, parser') ∧ parser'.err = none ∧ parser'.lookahead = parser.lookahead ∧
      Source S parser'.rdr pos rem := by
  unfold pgf_expr_parser_next
  cases h with
  | fresh hn h =>
    cases h with
    | @semic _ rdr' _ _ _ _ h hget h' =>
      refine ⟨{ parser with rdr := rdr', err := none }, ?_, rfl, rfl, h'⟩
      rw [hn, herr]
      simp only [hget, Exec.ok_bind, reduceCtorEq, if_false, Exec.pure_eq]
  | semic hn h =>
    refine ⟨{ parser with next_char := none }, ?_, herr, rfl, h⟩
    rw [hn]
    rfl

theorem next_raised_spec (herr : parser.err = none) (hla : parser.lookahead = none) (h : Chars S parser [] .raised) :
    ∃ c parser', pgf_expr_parser_next S parser = .ok (c, parser') ∧ parser'.lookahead = none ∧ Broken S parser' := by
  unfold pgf_expr_parser_next
  cases h with
  | fresh hn h =>
    cases h with
    | @raised _ c rdr' _ _ _ _ h hget h' =>
      refine ⟨c, { parser with rdr := rdr', err := some .GuUCSExn }, ?_, hla, ⟨_, rfl, by decide⟩, by simp [hla], _, _, h'⟩
      rw [hn, herr]
      simp only [hget, Exec.ok_bind, reduceCtorEq, Option.some.injEq, if_false, Exec.pure_eq]

theorem next_broken_spec (h : Broken S parser) (hla : parser.lookahead = none) :
    ∃ c parser', pgf_expr_parser_next S parser = .ok (c, parser') ∧ parser'.lookahead = none ∧ Broken S parser' := by
  obtain ⟨⟨t, herr, ht⟩, -, pos, rem, hsource⟩ := h
  unfold pgf_expr_parser_next
  cases hn : parser.next_char with
  | some c =>
    by_cases hpos : 0 < c
    · exact ⟨c, { parser with next_char := none }, by simp only [if_pos hpos], hla, ⟨t, herr, ht⟩, by simp [hla], _, _, hsource⟩
    · exact ⟨c, parser, by simp only [if_neg hpos], hla, ⟨t, herr, ht⟩, by simp [hla], _, _, hsource⟩
  | none =>
    obtain ⟨c, rdr', pos', rem', hget, h'⟩ := getc_calm (t := t) hsource
    refine ⟨c, { parser with rdr := rdr', err := some t }, ?_, hla, ⟨t, rfl, ht⟩, by simp [hla], _, _, h'⟩
    simp only [herr, hget, Exec.ok_bind, Option.some.injEq, ht, if_false, Exec.pure_eq, hn]

end Feed

/-! ## Tokens -/

inductive Lexeme where
  | lpar
  | rpar
  | id (s : Bytes)
  /-- A character that begins no token. -/
  | other (c : GuChar)
  deriving DecidableEq, Repr

/-- The character may go on an identifier. -/
def isIdent (c : GuChar) : Bool := isalnum c || c = 0x5f

/-- The identifier that `cur` begins, if it begins one. -/
def ident (cur : Bytes) : List Lexeme := if cur = [] then [] else [.id cur]

def punct (c : GuChar) : Lexeme := if c = 0x28 then .lpar else if c = 0x29 then .rpar else .other c

/-- The tokens of a text that goes on the identifier `cur`. -/
def lexemes : Bytes → Bytes → List Lexeme
  | cur, [] => ident cur
  | cur, c :: cs =>
    if cur ≠ [] ∧ isIdent c then lexemes (cur ++ [c]) cs
    else if isspace c then ident cur ++ lexemes [] cs
    else if isalpha c then ident cur ++ lexemes [c] cs
    else ident cur ++ punct c :: lexemes [] cs

/-- The tokens that the reader sees, and what comes after them. A NUL at the end of an identifier is the end of the input for it, and it
drops an identifier in which an exception is raised. -/
def seen (e : TextEnd) : Bytes → Bytes → List Lexeme × TextEnd
  | cur, [] => if e = .raised then ([], e) else (ident cur, e)
  | cur, c :: cs =>
    if cur ≠ [] ∧ isIdent c then seen e (cur ++ [c]) cs
    else if cur ≠ [] ∧ c = 0 then (ident cur, .eof)
    else if isspace c then (ident cur ++ (seen e [] cs).1, (seen e [] cs).2)
    else if isalpha c then (ident cur ++ (seen e [c] cs).1, (seen e [c] cs).2)
    else (ident cur ++ punct c :: (seen e [] cs).1, (seen e [] cs).2)

@[simp] theorem ident_nil : ident [] = [] := rfl

theorem ident_cons {cur : Bytes} (h : cur ≠ []) : ident cur = [.id cur] := if_neg h

theorem seen_space {e : TextEnd} {c : GuChar} {cs : Bytes} (hc : isspace c = true) : seen e [] (c :: cs) = seen e [] cs := by
  simp only [seen, ne_eq, not_true_eq_false, false_and, if_false, hc, if_true, ident_nil, List.nil_append]

theorem seen_alpha {e : TextEnd} {c : GuChar} {cs : Bytes} (hc : isspace c = false) (ha : isalpha c = true) :
    seen e [] (c :: cs) = seen e [c] cs := by
  simp only [seen, ne_eq, not_true_eq_false, false_and, if_false, hc, Bool.false_eq_true, ha, if_true, ident_nil, List.nil_append]

theorem seen_punct {e : TextEnd} {c : GuChar} {cs : Bytes} (hc : isspace c = false) (ha : isalpha c = false) :
    seen e [] (c :: cs) = (punct c :: (seen e [] cs).1, (seen e [] cs).2) := by
  simp only [seen, ne_eq, not_true_eq_false, false_and, if_false, hc, Bool.false_eq_true, ha, ident_nil, List.nil_append]

theorem seen_ident {e : TextEnd} {cur : Bytes} (hcur : cur ≠ []) {c : GuChar} {cs : Bytes} (hc : isIdent c = true) :
    seen e cur (c :: cs) = seen e (cur ++ [c]) cs := by
  simp only [seen, hcur, ne_eq, not_false_eq_true, hc, and_self, if_true]

/-- An identifier ends at another character. -/
theorem seen_ident_end {e : TextEnd} {cur : Bytes} (hcur : cur ≠ []) {c : GuChar} {cs : Bytes} (hc : isIdent c = false) (h0 : c ≠ 0) :
    seen e cur (c :: cs) = (.id cur :: (seen e [] (c :: cs)).1, (seen e [] (c :: cs)).2) := by
  simp only [seen, hcur, ne_eq, not_false_eq_true, hc, Bool.false_eq_true, and_false, if_false, h0, not_true_eq_false, ident_cons,
    ident_nil, List.nil_append, List.singleton_append]
  split
  · rfl
  · split <;> rfl

/-- A text without other characters is seen as it is. -/
theorem seen_eq {e : TextEnd} (he : e ≠ .raised) {cur cs : Bytes} (h : ∀ c, Lexeme.other c ∉ lexemes cur cs) :
    seen e cur cs = (lexemes cur cs, e) := by
  induction cs generalizing cur with
  | nil => simp only [seen, lexemes, if_neg he]
  | cons c cs ih =>
    unfold seen
    unfold lexemes at h ⊢
    by_cases hident : cur ≠ [] ∧ isIdent c
    · rw [if_pos hident] at h ⊢
      rw [if_pos hident]
      exact ih h
    · rw [if_neg hident] at h ⊢
      rw [if_neg hident]
      have h0 : c ≠ 0 := by
        rintro rfl
        apply h 0
        simp [isspace, isalpha, punct]
      rw [if_neg fun hc => h0 hc.2]
      by_cases hspace : isspace c = true
      · rw [if_pos hspace] at h ⊢
        rw [if_pos hspace, ih fun d hd => h d (List.mem_append_right _ hd)]
      · rw [if_neg hspace] at h ⊢
        rw [if_neg hspace]
        by_cases halpha : isalpha c = true
        · rw [if_pos halpha] at h ⊢
          rw [if_pos halpha, ih fun d hd => h d (List.mem_append_right _ hd)]
        · rw [if_neg halpha] at h ⊢
          rw [if_neg halpha, ih fun d hd => h d (List.mem_append_right _ (List.mem_cons_of_mem _ hd))]

section Lookahead
variable {σ : Type} {S : GuInStreamFuns σ} {parser : PgfExprParser σ}

/-- A character that is not blank ends the first loop. -/
theorem skip_stop {c : GuChar} {parser' : PgfExprParser σ} (hnext : pgf_expr_parser_next S parser = .ok (c, parser'))
    (herr : parser'.err = none) (hc : isspace c = false) : Settles (fun n => pgf_expr_parser_skip S n parser) (.ok (some c, parser')) := by
  apply Settles.succ (Settles.of_eq fun _ => rfl)
  intro m
  simp only [pgf_expr_parser_skip, hnext, Exec.ok_bind, herr, gu_ok_none, Bool.not_true, Bool.false_eq_true, if_false, hc, Exec.pure_eq]

/-- What comes of the first loop: a character, the end, or an exception. -/
theorem skip_spec {cs : Bytes} {e : TextEnd} (herr : parser.err = none) (hla : parser.lookahead = none) (h : Chars S parser cs e) :
    (∃ c cs' parser', isspace c = false ∧ c ≠ 0x3b ∧ seen e [] cs = seen e [] (c :: cs') ∧ cs'.length < cs.length ∧
      Settles (fun n => pgf_expr_parser_skip S n parser) (.ok (some c, parser')) ∧ parser'.err = none ∧ parser'.lookahead = none ∧
      Chars S parser' cs' e) ∨
    (seen e [] cs = ([], e) ∧
      ((e = .eof ∧ ∃ parser', Settles (fun n => pgf_expr_parser_skip S n parser) (.ok (some 0, parser')) ∧ parser'.err = none ∧
          parser'.lookahead = none ∧ Chars S parser' [] .eof) ∨
        (∃ pos rem, e = .semic pos rem ∧ ∃ parser', Settles (fun n => pgf_expr_parser_skip S n parser) (.ok (some 0x3b, parser')) ∧
          parser'.err = none ∧ Source S parser'.rdr pos rem) ∨
        (e = .raised ∧ ∃ parser', Settles (fun n => pgf_expr_parser_skip S n parser) (.ok (none, parser')) ∧ parser'.lookahead = none ∧
          Broken S parser'))) := by
  induction cs generalizing parser with
  | nil =>
    cases e with
    | eof =>
      obtain ⟨parser', hnext, herr', hla', h'⟩ := next_eof_spec herr h
      exact .inr ⟨rfl, .inl ⟨rfl, parser', skip_stop hnext herr' rfl, herr', hla'.trans hla, h'⟩⟩
    | semic pos rem =>
      obtain ⟨parser', hnext, herr', -, h'⟩ := next_semic_spec herr h
      exact .inr ⟨rfl, .inr (.inl ⟨pos, rem, rfl, parser', skip_stop hnext herr' rfl, herr', h'⟩)⟩
    | raised =>
      obtain ⟨c, parser', hnext, hla', hbroken⟩ := next_raised_spec herr hla h
      refine .inr ⟨rfl, .inr (.inr ⟨rfl, parser', ?_, hla', hbroken⟩)⟩
      obtain ⟨t, herr', -⟩ := hbroken.raised
      apply Settles.succ (Settles.of_eq fun _ => rfl)
      intro m
      simp only [pgf_expr_parser_skip, hnext, Exec.ok_bind, herr', gu_ok_some, Bool.not_false, if_true, Exec.pure_eq]
  | cons c cs ih =>
    obtain ⟨parser', hnext, herr', hla', hsemic, hn, hfeed⟩ := next_char_spec herr h
    have h' : Chars S parser' cs e := .fresh hn hfeed
    cases hc : isspace c with
    | false => exact .inl ⟨c, cs, parser', hc, hsemic, rfl, Nat.lt_succ_self _, skip_stop hnext herr' hc, herr', hla'.trans hla, h'⟩
    | true =>
      -- a blank takes one round
      have hstep : ∀ {r}, Settles (fun n => pgf_expr_parser_skip S n parser') r → Settles (fun n => pgf_expr_parser_skip S n parser) r := by
        intro r hr
        apply hr.succ
        intro m
        simp only [pgf_expr_parser_skip, hnext, Exec.ok_bind, herr', gu_ok_none, Bool.not_true, Bool.false_eq_true, if_false, hc, if_true]
      rw [seen_space hc]
      rcases ih herr' (hla'.trans hla) h' with
        ⟨d, cs', parser'', hd, hsemic', hseen, hlen, hrun, hrest⟩ | ⟨hseen, ⟨he, parser'', hrun, hrest⟩ | ⟨pos, rem, he, parser'', hrun, hrest⟩ |
          ⟨he, parser'', hrun, hrest⟩⟩
      · exact .inl ⟨d, cs', parser'', hd, hsemic', hseen, Nat.lt_succ_of_lt hlen, hstep hrun, hrest⟩
      · exact .inr ⟨hseen, .inl ⟨he, parser'', hstep hrun, hrest⟩⟩
      · exact .inr ⟨hseen, .inr (.inl ⟨pos, rem, he, parser'', hstep hrun, hrest⟩)⟩
      · exact .inr ⟨hseen, .inr (.inr ⟨he, parser'', hstep hrun, hrest⟩)⟩

/-- A character of an identifier takes one round of the second loop. -/
theorem chars_round {acc : Bytes} {c d : GuChar} {parser' : PgfExprParser σ} {r : Exec (Option (Bytes × GuChar) × PgfExprParser σ)}
    (hc : isIdent c = true) (hnext : pgf_expr_parser_next S parser = .ok (d, parser')) (herr : parser'.err = none)
    (hr : Settles (fun n => pgf_expr_parser_chars S n (acc ++ [c]) d parser') r) :
    Settles (fun n => pgf_expr_parser_chars S n acc c parser) r := by
  apply hr.succ
  intro m
  unfold isIdent at hc
  rw [pgf_expr_parser_chars]
  simp only [hc, if_true, hnext, Exec.ok_bind, herr, gu_ok_none, Bool.not_true, Bool.false_eq_true, if_false]

/-- Any other character ends it. -/
theorem chars_stop {acc : Bytes} {c : GuChar} (hc : isIdent c = false) :
    Settles (fun n => pgf_expr_parser_chars S n acc c parser) (.ok (some (acc, c), parser)) := by
  apply Settles.of_eq
  intro m
  unfold isIdent at hc
  unfold pgf_expr_parser_chars
  rw [hc, if_neg Bool.false_ne_true]

/-- What comes of the second loop: an identifier and the character after it, or an exception. -/
theorem chars_spec {cs : Bytes} {e : TextEnd} (acc : Bytes) {c : GuChar} (herr : parser.err = none) (hla : parser.lookahead = none)
    (h : Chars S parser cs e) (hc : isIdent c = true) :
    (∃ more d cs' e' parser', seen e (acc ++ [c]) cs = (.id (acc ++ c :: more) :: (seen e' [] cs').1, (seen e' [] cs').2) ∧
      Settles (fun n => pgf_expr_parser_chars S n acc c parser) (.ok (some (acc ++ c :: more, d), parser')) ∧ parser'.err = none ∧
      Chars S { parser' with next_char := some d } cs' e') ∨
    (seen e (acc ++ [c]) cs = ([], .raised) ∧ ∃ parser', Settles (fun n => pgf_expr_parser_chars S n acc c parser) (.ok (none, parser')) ∧
      parser'.lookahead = none ∧ Broken S parser') := by
  have hcur : acc ++ [c] ≠ [] := by simp
  induction cs generalizing parser acc c with
  | nil =>
    cases e with
    | eof =>
      obtain ⟨parser', hnext, herr', -, h'⟩ := next_eof_spec herr h
      obtain ⟨pos, rem, hsource⟩ := h'.source
      refine .inl ⟨[], 0, [], .eof, parser', ?_, chars_round hc hnext herr' (chars_stop rfl), herr', .stuck rfl hsource⟩
      simp [seen, ident_cons hcur]
    | semic pos rem =>
      obtain ⟨parser', hnext, herr', -, h'⟩ := next_semic_spec herr h
      refine .inl ⟨[], 0x3b, [], .semic pos rem, parser', ?_, chars_round hc hnext herr' (chars_stop rfl), herr', .semic rfl h'⟩
      simp [seen, ident_cons hcur]
    | raised =>
      obtain ⟨d, parser', hnext, hla', hbroken⟩ := next_raised_spec herr hla h
      refine .inr ⟨rfl, parser', ?_, hla', hbroken⟩
      obtain ⟨t, herr', -⟩ := hbroken.raised
      apply Settles.succ (Settles.of_eq fun _ => rfl)
      intro m
      unfold isIdent at hc
      rw [pgf_expr_parser_chars]
      simp only [hc, if_true, hnext, Exec.ok_bind, herr', gu_ok_some, Bool.not_false, Exec.pure_eq]
  | cons d cs ih =>
    obtain ⟨parser', hnext, herr', hla', hsemic, hn, hfeed⟩ := next_char_spec herr h
    cases hd : isIdent d with
    | true =>
      rw [seen_ident hcur hd]
      rcases ih (acc ++ [c]) herr' (hla'.trans hla) (.fresh hn hfeed) hd (by simp) with
        ⟨more, b, cs', e', parser'', hseen, hrun, herr'', h'⟩ | ⟨hseen, parser'', hrun, hrest⟩
      · rw [List.append_assoc acc [c] (d :: more), List.singleton_append] at hrun hseen
        exact .inl ⟨d :: more, b, cs', e', parser'', hseen, chars_round hc hnext herr' hrun, herr'', h'⟩
      · exact .inr ⟨hseen, parser'', chars_round hc hnext herr' hrun, hrest⟩
    | false =>
      by_cases h0 : d = 0
      · subst h0
        obtain ⟨pos, rem, hsource⟩ := hfeed.source
        refine .inl ⟨[], 0, [], .eof, parser', ?_, chars_round hc hnext herr' (chars_stop hd), herr', .stuck rfl hsource⟩
        simp [seen, ident_cons hcur, hd]
      · exact .inl ⟨[], d, d :: cs, e, parser', seen_ident_end hcur hd h0, chars_round hc hnext herr' (chars_stop hd), herr',
          .pushed rfl h0 hsemic hfeed⟩

/-! ### The state of the parser -/

/-- The lookahead for a token. -/
inductive Lexeme.Held : Lexeme → PgfExprToken → Prop
  | lpar : Held .lpar .lpar
  | rpar : Held .rpar .rpar
  | id {s : Bytes} (h : pgf_expr_parser_token_is_id (some (.str s)) = true) : Held (.id s) (.str s)

/-- The tokens ahead of a parser, and what comes after them. -/
inductive Ahead (S : GuInStreamFuns σ) (parser : PgfExprParser σ) : List Lexeme → TextEnd → Prop
  | fresh {cs e₀ ts e} (hla : parser.lookahead = none) (herr : parser.err = none) (h : Chars S parser cs e₀)
      (hseen : seen e₀ [] cs = (ts, e)) : Ahead S parser ts e
  | held {l tok cs e₀ ts e} (htok : Lexeme.Held l tok) (hla : parser.lookahead = some tok) (herr : parser.err = none)
      (h : Chars S parser cs e₀) (hseen : seen e₀ [] cs = (ts, e)) : Ahead S parser (l :: ts) e
  | semic {pos rem} (hla : parser.lookahead = some .semic) (herr : parser.err = none) (h : Source S parser.rdr pos rem) :
      Ahead S parser [] (.semic pos rem)

/-- What the lookahead shows of the tokens ahead, and the state that it leaves. -/
inductive Looked (S : GuInStreamFuns σ) (parser : PgfExprParser σ) : List Lexeme → TextEnd → Option PgfExprToken → Prop
  | tok {l tok ts e} (htok : Lexeme.Held l tok) (hla : parser.lookahead = some tok) (h : Ahead S parser (l :: ts) e)
      (h' : Ahead S { parser with lookahead := none } ts e) : Looked S parser (l :: ts) e (some tok)
  | other {c ts e} (hla : parser.lookahead = none) (h : Ahead S parser ts e) : Looked S parser (.other c :: ts) e none
  | eof (hla : parser.lookahead = none) (h : Ahead S parser [] .eof) : Looked S parser [] .eof none
  | semic {pos rem} (hla : parser.lookahead = some .semic) (h : Ahead S parser [] (.semic pos rem)) :
      Looked S parser [] (.semic pos rem) (some .semic)
  | raised (hla : parser.lookahead = none) (h : Broken S parser) : Looked S parser [] .raised none

theorem Ahead.err {ts : List Lexeme} {e : TextEnd} (h : Ahead S parser ts e) : parser.err = none := by
  cases h with
  | fresh _ herr _ _ => exact herr
  | held _ _ herr _ _ => exact herr
  | semic _ herr _ => exact herr

theorem Ahead.source {ts : List Lexeme} {e : TextEnd} (h : Ahead S parser ts e) : ∃ pos rem, Source S parser.rdr pos rem := by
  cases h with
  | fresh _ _ h _ => exact h.source
  | held _ _ _ h _ => exact h.source
  | semic _ _ h => exact ⟨_, _, h⟩

/-- A token that has been seen stays. -/
theorem lookahead_held {tok : PgfExprToken} (hla : parser.lookahead = some tok) :
    Settles (fun n => pgf_expr_parser_lookahead S n parser) (.ok (some tok, parser)) := by
  apply Settles.of_eq
  intro n
  unfold pgf_expr_parser_lookahead
  rw [hla]

theorem consume_held {tok : PgfExprToken} (hla : parser.lookahead = some tok) :
    Settles (fun n => pgf_expr_parser_consume S n parser) (.ok { parser with lookahead := none }) := by
  unfold pgf_expr_parser_consume
  exact (lookahead_held hla).bind (Settles.of_eq fun _ => rfl)

/-- The lookahead after the first loop. -/
theorem lookahead_fresh {c : GuChar} {parser' : PgfExprParser σ} {r : Exec (Option PgfExprToken × PgfExprParser σ)}
    (hla : parser.lookahead = none) (hskip : Settles (fun n => pgf_expr_parser_skip S n parser) (.ok (some c, parser')))
    (hr : Settles (fun n => pgf_expr_parser_switch S n c parser') r) : Settles (fun n => pgf_expr_parser_lookahead S n parser) r := by
  unfold pgf_expr_parser_lookahead
  rw [hla]
  exact hskip.bind hr

theorem lookahead_raised {parser' : PgfExprParser σ} (hla : parser.lookahead = none)
    (hskip : Settles (fun n => pgf_expr_parser_skip S n parser) (.ok (none, parser'))) :
    Settles (fun n => pgf_expr_parser_lookahead S n parser) (.ok (none, parser')) := by
  unfold pgf_expr_parser_lookahead
  rw [hla]
  exact hskip.bind (Settles.of_eq fun _ => rfl)

theorem lookahead_spec {ts : List Lexeme} {e : TextEnd} (h : Ahead S parser ts e) :
    ∃ la parser', Settles (fun n => pgf_expr_parser_lookahead S n parser) (.ok (la, parser')) ∧ Looked S parser' ts e la := by
  cases h with
  | held htok hla herr h hseen =>
    exact ⟨_, parser, lookahead_held hla, .tok htok hla (.held htok hla herr h hseen) (.fresh rfl herr (h.of_same rfl rfl) hseen)⟩
  | semic hla herr h => exact ⟨_, parser, lookahead_held hla, .semic hla (.semic hla herr h)⟩
  | @fresh cs e₀ _ _ hla herr h hseen =>
    rcases skip_spec herr hla h with ⟨c, cs', parser', hc, hsemic, hseen', -, hrun, herr', hla', h'⟩ | ⟨hnil, hend⟩
    · rw [hseen'] at hseen
      cases halpha : isalpha c with
      | true =>
        have hlpar : c ≠ 0x28 := by
          rintro rfl
          exact absurd halpha (by decide)
        have hrpar : c ≠ 0x29 := by
          rintro rfl
          exact absurd halpha (by decide)
        have hident : isIdent c = true := by simp [isIdent, isalnum, halpha]
        rw [seen_alpha hc halpha] at hseen
        rcases chars_spec [] herr' hla' h' hident with
          ⟨more, d, cs'', e', parser'', hseen'', hchars, herr'', h''⟩ | ⟨hnil, parser'', hchars, hla'', hbroken⟩
        · obtain ⟨rfl, rfl⟩ := Prod.mk.inj (hseen''.symm.trans hseen)
          refine ⟨some (.str (c :: more)), { parser'' with lookahead := some (.str (c :: more)), next_char := some d },
            lookahead_fresh hla hrun ?_, .tok (.id ?_) rfl (.held (.id ?_) rfl herr'' (h''.of_same rfl rfl) rfl)
              (.fresh rfl herr'' (h''.of_same rfl rfl) rfl)⟩
          · unfold pgf_expr_parser_switch
            simp only [hlpar, hrpar, hsemic, if_false, halpha, if_true]
            exact hchars.bind (Settles.of_eq fun _ => rfl)
          · simp [pgf_expr_parser_token_is_id, halpha]
          · simp [pgf_expr_parser_token_is_id, halpha]
        · obtain ⟨rfl, rfl⟩ := Prod.mk.inj (hnil.symm.trans hseen)
          refine ⟨none, parser'', lookahead_fresh hla hrun ?_, .raised hla'' hbroken⟩
          unfold pgf_expr_parser_switch
          simp only [hlpar, hrpar, hsemic, if_false, halpha, if_true]
          exact hchars.bind (Settles.of_eq fun _ => rfl)
      | false =>
        rw [seen_punct hc halpha] at hseen
        cases hseen
        by_cases hlpar : c = 0x28
        · subst hlpar
          exact ⟨some .lpar, { parser' with lookahead := some .lpar }, lookahead_fresh hla hrun (Settles.of_eq fun _ => rfl),
            .tok .lpar rfl (.held .lpar rfl herr' (h'.of_same rfl rfl) rfl) (.fresh rfl herr' (h'.of_same rfl rfl) rfl)⟩
        by_cases hrpar : c = 0x29
        · subst hrpar
          exact ⟨some .rpar, { parser' with lookahead := some .rpar }, lookahead_fresh hla hrun (Settles.of_eq fun _ => rfl),
            .tok .rpar rfl (.held .rpar rfl herr' (h'.of_same rfl rfl) rfl) (.fresh rfl herr' (h'.of_same rfl rfl) rfl)⟩
        have hother : punct c = .other c := by rw [punct, if_neg hlpar, if_neg hrpar]
        rw [hother]
        refine ⟨none, { parser' with lookahead := none }, lookahead_fresh hla hrun ?_, .other rfl (.fresh rfl herr' (h'.of_same rfl rfl) rfl)⟩
        apply Settles.of_eq
        intro n
        simp only [pgf_expr_parser_switch, hlpar, hrpar, hsemic, if_false, halpha, Bool.false_eq_true]
    · rw [hnil] at hseen
      cases hseen
      rcases hend with ⟨rfl, parser', hrun, herr', hla', h'⟩ | ⟨pos, rem, rfl, parser', hrun, herr', h'⟩ | ⟨rfl, parser', hrun, hla', hbroken⟩
      · exact ⟨none, { parser' with lookahead := none }, lookahead_fresh hla hrun (Settles.of_eq fun _ => rfl),
          .eof rfl (.fresh rfl herr' (h'.of_same rfl rfl) rfl)⟩
      · exact ⟨some .semic, { parser' with lookahead := some .semic }, lookahead_fresh hla hrun (Settles.of_eq fun _ => rfl),
          .semic rfl (.semic rfl herr' h')⟩
      · exact ⟨none, parser', lookahead_raised hla hrun, .raised hla' hbroken⟩

end Lookahead

end Libpgf
