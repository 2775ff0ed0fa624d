import Libpgf.Pgf.ExprAccepts
/-!
# Printing and reading expressions

Functions and applications are printed with parentheses around arguments that
are applications. What is printed derives from the grammar as the expression
that it came from.
-/

namespace Libpgf

/-- The expressions built from functions and applications whose names are identifiers that have a string. -/
inductive Plain : PgfExpr → Prop
  | fun_ {c : GuChar} {s : Bytes} (hc : isalpha c = true) (hs : ∀ d ∈ s, isIdent d = true) (hlen : Fits (c :: s)) : Plain (.FUN (c :: s))
  | app {f a : PgfExpr} (h : Plain f) (h' : Plain a) : Plain (.APP f a)

/-- `need_paren` adds parentheses. -/
def parens {α : Type} (l r : α) (need_paren : Bool) (inner : List α) : List α := if need_paren then l :: (inner ++ [r]) else inner

/-- What is printed for an expression. -/
def printed : PgfExpr → Bool → Bytes
  | .FUN fun_, _ => fun_
  | .APP fun_ arg, need_paren => parens 0x28 0x29 need_paren (printed fun_ false ++ 0x20 :: printed arg true)
  | _, _ => []

/-! ## Printing -/

section Print
variable {σ : Type} {S : GuOutStreamFuns σ} {init : Bytes} {v : OutView (fun _ => True) init S} {wtr : GuWriter σ} {n : Nat}

theorem puts_spec (str : Bytes) (hstr : str.length ≤ PTRDIFF_MAX) (h : wtr.Ok v (str.length + n)) :
    ∃ wtr', gu_puts S str wtr none = .ok (wtr', none) ∧ wtr'.Ok v n ∧ wtr'.taken v = wtr.taken v ++ str := by
  obtain ⟨k, wtr', hrun, hok, htaken⟩ := GuOut.bytes_spec any_blocks h hstr trivial
  refine ⟨wtr', ?_, hok, htaken⟩
  unfold gu_puts
  rw [hrun]
  rfl

theorem print_spec {e : PgfExpr} (he : Plain e) (need_paren : Bool) (h : wtr.Ok v ((printed e need_paren).length + n)) :
    ∃ wtr', pgf_expr_print_with_paren S e need_paren wtr none = .ok (wtr', none) ∧ wtr'.Ok v n ∧
      wtr'.taken v = wtr.taken v ++ printed e need_paren := by
  induction he generalizing wtr need_paren n with
  | fun_ _ _ hlen =>
    refine puts_spec _ ?_ h
    exact (Nat.le_of_lt hlen).trans (by decide)
  | @app f a _ _ ih ih' =>
    have hone : (1 : Nat) ≤ PTRDIFF_MAX := by decide
    have hinner : ∀ {wtr : GuWriter σ} {m}, wtr.Ok v ((printed f false).length + (1 + ((printed a true).length + m))) →
        ∃ wtr₁ wtr₂ wtr₃, pgf_expr_print_with_paren S f false wtr none = .ok (wtr₁, none) ∧ gu_puts S [0x20] wtr₁ none = .ok (wtr₂, none) ∧
          pgf_expr_print_with_paren S a true wtr₂ none = .ok (wtr₃, none) ∧ wtr₃.Ok v m ∧
          wtr₃.taken v = wtr.taken v ++ (printed f false ++ 0x20 :: printed a true) := by
      intro wtr m hok
      obtain ⟨wtr₁, hf, hok₁, htaken₁⟩ := ih false hok
      obtain ⟨wtr₂, hsp, hok₂, htaken₂⟩ := puts_spec [0x20] hone hok₁
      obtain ⟨wtr₃, ha, hok₃, htaken₃⟩ := ih' true hok₂
      refine ⟨wtr₁, wtr₂, wtr₃, hf, hsp, ha, hok₃, ?_⟩
      rw [htaken₃, htaken₂, htaken₁]
      simp
    unfold pgf_expr_print_with_paren
    cases need_paren with
    | false =>
      have hlen : (printed (.APP f a) false).length + n = (printed f false).length + (1 + ((printed a true).length + n)) := by
        simp only [printed, parens, Bool.false_eq_true, if_false, List.length_append, List.length_cons]
        omega
      rw [hlen] at h
      obtain ⟨wtr₁, wtr₂, wtr₃, hf, hsp, ha, hok₃, htaken₃⟩ := hinner h
      refine ⟨wtr₃, ?_, hok₃, htaken₃⟩
      simp only [Bool.false_eq_true, if_false, Exec.pure_eq, Exec.ok_bind, hf, hsp, ha]
    | true =>
      have hlen : (printed (.APP f a) true).length + n = 1 + ((printed f false).length + (1 + ((printed a true).length + (1 + n)))) := by
        simp only [printed, parens, if_true, List.length_append, List.length_cons, List.length_nil]
        omega
      rw [hlen] at h
      obtain ⟨wtr₀, hl, hok₀, htaken₀⟩ := puts_spec [0x28] hone h
      obtain ⟨wtr₁, wtr₂, wtr₃, hf, hsp, ha, hok₃, htaken₃⟩ := hinner hok₀
      obtain ⟨wtr₄, hr, hok₄, htaken₄⟩ := puts_spec [0x29] hone hok₃
      refine ⟨wtr₄, ?_, hok₄, ?_⟩
      · simp only [if_true, hl, Exec.ok_bind, hf, hsp, ha, hr]
      · rw [htaken₄, htaken₃, htaken₀]
        simp [printed, parens]

end Print

/-! ## Reading what was printed -/

/-- The tokens of what is printed. -/
def tokens : PgfExpr → Bool → List Lexeme
  | .FUN fun_, _ => [.id fun_]
  | .APP fun_ arg, need_paren => parens .lpar .rpar need_paren (tokens fun_ false ++ tokens arg true)
  | _, _ => []

/-- What follows does not go on an identifier. -/
def Apart (rest : Bytes) : Prop := ∀ c ∈ rest.head?, isIdent c = false

theorem lexemes_ident {cur s rest : Bytes} (hcur : cur ≠ []) (hs : ∀ d ∈ s, isIdent d = true) (hrest : Apart rest) :
    lexemes cur (s ++ rest) = .id (cur ++ s) :: lexemes [] rest := by
  induction s generalizing cur with
  | nil =>
    rw [List.nil_append, List.append_nil]
    cases rest with
    | nil => simp [lexemes, ident_cons hcur]
    | cons c rest =>
      have hc : isIdent c = false := hrest c rfl
      unfold lexemes
      simp only [hcur, hc, Bool.false_eq_true, and_false, if_false, ident_cons, not_true_eq_false, ident_nil, ne_eq,
        not_false_eq_true, List.singleton_append, List.nil_append]
      split
      · rfl
      · split <;> rfl
  | cons d s ih =>
    have hd : isIdent d = true := hs d List.mem_cons_self
    rw [List.cons_append, lexemes, if_pos ⟨hcur, hd⟩, ih (by simp) fun b hb => hs b (List.mem_cons_of_mem _ hb), List.append_assoc]
    rfl

theorem lexemes_punct {c : GuChar} {rest : Bytes} (hs : isspace c = false) (ha : isalpha c = false) :
    lexemes [] (c :: rest) = punct c :: lexemes [] rest := by
  simp [lexemes, hs, ha]

theorem lexemes_blank {c : GuChar} {rest : Bytes} (hs : isspace c = true) : lexemes [] (c :: rest) = lexemes [] rest := by
  simp [lexemes, hs]

theorem printed_lexemes {e : PgfExpr} (he : Plain e) (need_paren : Bool) (rest : Bytes) (hrest : Apart rest) :
    lexemes [] (printed e need_paren ++ rest) = tokens e need_paren ++ lexemes [] rest := by
  induction he generalizing need_paren rest with
  | @fun_ c s hc hs hlen =>
    have hspace : isspace c = false := by
      cases hsp : isspace c with
      | false => rfl
      | true =>
        have hnone : ∀ c : GuChar, ¬ (isalpha c = true ∧ isspace c = true) := by decide +kernel
        exact absurd ⟨hc, hsp⟩ (hnone c)
    have hstart : lexemes [] (c :: (s ++ rest)) = lexemes [c] (s ++ rest) := by simp [lexemes, hc, hspace]
    rw [printed, List.cons_append, hstart, lexemes_ident (by simp) hs hrest]
    rfl
  | @app f a _ _ ih ih' =>
    have hblank : ∀ {rest}, Apart (0x20 :: rest) := by
      intro rest c hc
      cases hc
      rfl
    have hinner : ∀ {rest}, Apart rest → lexemes [] (printed f false ++ 0x20 :: printed a true ++ rest) =
        tokens f false ++ tokens a true ++ lexemes [] rest := by
      intro rest hrest
      rw [List.append_assoc, List.cons_append, ih false _ hblank, lexemes_blank rfl, ih' true _ hrest, List.append_assoc]
    cases need_paren with
    | false => exact hinner hrest
    | true =>
      have hclose : Apart (0x29 :: rest) := by
        intro c hc
        cases hc
        rfl
      show lexemes [] (0x28 :: (printed f false ++ 0x20 :: printed a true ++ [0x29]) ++ rest) = _
      rw [List.cons_append, List.append_assoc _ [0x29] rest, List.singleton_append, lexemes_punct rfl rfl, hinner hclose,
        lexemes_punct rfl rfl]
      simp [tokens, parens, punct]

/-- What is printed derives from the grammar, in parentheses as a term. -/
theorem tokens_phrase {e : PgfExpr} (he : Plain e) : Phrase Gap Fits .expr (tokens e false) e ∧ Phrase Gap Fits .term (tokens e true) e := by
  induction he with
  | fun_ _ _ hlen => exact ⟨.single (.id hlen), .id hlen⟩
  | app _ _ ih ih' => exact ⟨.app ih.1 ih'.2, .paren (.app ih.1 ih'.2) (.inl rfl)⟩

theorem tokens_no_other {e : PgfExpr} (he : Plain e) (need_paren : Bool) (c : GuChar) : Lexeme.other c ∉ tokens e need_paren := by
  induction he generalizing need_paren with
  | fun_ _ _ _ => simp [tokens]
  | app _ _ ih ih' => cases need_paren <;> simp [tokens, parens, ih, ih']

theorem ident_ascii {c : GuChar} (h : isIdent c = true) : c.toNat < 128 ∧ c ≠ 0x3b ∧ gu_char_is_valid c = true := by
  revert c
  decide +kernel

theorem printed_ascii {e : PgfExpr} (he : Plain e) (need_paren : Bool) :
    ∀ c ∈ printed e need_paren, c.toNat < 128 ∧ c ≠ 0x3b ∧ gu_char_is_valid c = true := by
  induction he generalizing need_paren with
  | @fun_ c s hc hs _ =>
    have hident : isIdent c = true := by simp [isIdent, isalnum, hc]
    intro d hd
    rcases List.mem_cons.1 hd with rfl | hd
    · exact ident_ascii hident
    · exact ident_ascii (hs d hd)
  | @app f a _ _ ih ih' =>
    have hpunct : ∀ c : GuChar, c = 0x28 ∨ c = 0x29 ∨ c = 0x20 → c.toNat < 128 ∧ c ≠ 0x3b ∧ gu_char_is_valid c = true := by
      rintro c (rfl | rfl | rfl) <;> decide +kernel
    have hinner : ∀ c ∈ printed f false ++ 0x20 :: printed a true, c.toNat < 128 ∧ c ≠ 0x3b ∧ gu_char_is_valid c = true := by
      intro c hc
      rcases List.mem_append.1 hc with hc | hc
      · exact ih false c hc
      · rcases List.mem_cons.1 hc with rfl | hc
        · exact hpunct _ (by simp)
        · exact ih' true c hc
    cases need_paren with
    | false => exact hinner
    | true =>
      intro c hc
      rcases List.mem_cons.1 hc with rfl | hc
      · exact hpunct _ (by simp)
      · rcases List.mem_append.1 hc with hc | hc
        · exact hinner c hc
        · exact hpunct c (by simp_all)

/-- A printed expression is read back, and a semicolon after it is read as well. -/
theorem read_printed {σ : Type} {S : GuInStreamFuns σ} {rdr : GuReader σ} {e : PgfExpr} (he : Plain e) {rem : Bytes}
    (h : InReach S rdr (printed e false ++ rem)) (hrem : rem = [] ∨ ∃ after, rem = 0x3b :: after) :
    ∃ rdr', Settles (fun n => pgf_read_expr S n rdr) (.ok (some e, rdr', none)) ∧
      ∀ after, rem = 0x3b :: after → Source S rdr' (rdr.gu_in_tell + (printed e false).length + 1) after := by
  have hascii := printed_ascii he false
  obtain ⟨cs, end_, hfeed, hcase⟩ := h.source.feed (fun c hc => ⟨(hascii c hc).1, (hascii c hc).2.1⟩) hrem
  rcases hcase with ⟨-, c, hc, hvalid⟩ | ⟨rfl, hnil, hcons⟩
  · rw [(hascii c hc).2.2] at hvalid
    cases hvalid
  · have hend : end_ ≠ .raised := by
      rcases hrem with rfl | ⟨after, rfl⟩
      · simp [hnil rfl]
      · simp [hcons after rfl]
    have hlex : lexemes [] (printed e false) = tokens e false := by
      have hall := printed_lexemes he false [] (by simp [Apart])
      rwa [List.append_nil, lexemes, ident_nil, List.append_nil] at hall
    have hp := start_ahead hfeed
    rw [seen_eq hend (hlex ▸ tokens_no_other he false), hlex] at hp
    obtain ⟨rdr', hrun, hsource⟩ := ends_run hp (.phrase (tokens_phrase he).1) hend
    exact ⟨rdr', hrun, fun after heq => hsource _ _ (hcons after heq)⟩

/-! ## The round trip -/

/-- What is printed to any stack is read back from any stack, up to the end or just past a semicolon. -/
theorem expr_round_trip {e : PgfExpr} (he : Plain e) : ∃ text : Bytes,
    (∀ {lim : Nat} {σ : Type} {S : GuOutStreamFuns σ} {sink : σ → Bytes} {wtr : GuWriter σ} {init : Bytes}, OutStack lim S sink wtr init →
      text.length ≤ lim → ∃ wtr₁ wtr₂, pgf_expr_print S e wtr none = .ok (wtr₁, none) ∧
        wtr₁.gu_out_flush S none = .ok (wtr₂, none) ∧ sink wtr₂.stream = init ++ text) ∧
    (∀ {σ : Type} {S : GuInStreamFuns σ} {rdr : GuReader σ}, InReach S rdr text →
      ∃ rdr', Settles (fun n => pgf_read_expr S n rdr) (.ok (some e, rdr', none))) ∧
    (∀ {σ : Type} {S : GuInStreamFuns σ} {rdr : GuReader σ} {after : Bytes}, InReach S rdr (text ++ 0x3b :: after) →
      ∃ rdr', Settles (fun n => pgf_read_expr S n rdr) (.ok (some e, rdr', none)) ∧
        Source S rdr' (rdr.gu_in_tell + text.length + 1) after) := by
  refine ⟨printed e false, fun hstack hlim => ?_, fun hreach => ?_, fun hreach => ?_⟩
  · obtain ⟨v, hok, htaken, rfl⟩ := hstack.view any_blocks
    obtain ⟨wtr₁, hrun, hok₁, htaken₁⟩ := print_spec (n := 0) he false (hok.less hlim)
    obtain ⟨wtr₂, hflush, -, -, hsink⟩ := GuOut.flush_spec any_blocks hok₁
    exact ⟨wtr₁, wtr₂, hrun, hflush, by rw [hsink, htaken₁, htaken]⟩
  · obtain ⟨rdr', hrun, -⟩ := read_printed he (by rwa [List.append_nil]) (.inl rfl)
    exact ⟨rdr', hrun⟩
  · obtain ⟨rdr', hrun, hsource⟩ := read_printed he hreach (.inr ⟨_, rfl⟩)
    exact ⟨rdr', hrun, hsource _ rfl⟩

/-- The expression `f (g x)`. -/
theorem expr_round_trip_fgx : ∃ text : Bytes,
    (∀ {lim : Nat} {σ : Type} {S : GuOutStreamFuns σ} {sink : σ → Bytes} {wtr : GuWriter σ} {init : Bytes}, OutStack lim S sink wtr init →
      text.length ≤ lim → ∃ wtr₁ wtr₂, pgf_expr_print S (.APP (.FUN [0x66]) (.APP (.FUN [0x67]) (.FUN [0x78]))) wtr none = .ok (wtr₁, none) ∧
        wtr₁.gu_out_flush S none = .ok (wtr₂, none) ∧ sink wtr₂.stream = init ++ text) ∧
    (∀ {σ : Type} {S : GuInStreamFuns σ} {rdr : GuReader σ}, InReach S rdr text →
      ∃ rdr', Settles (fun n => pgf_read_expr S n rdr)
        (.ok (some (.APP (.FUN [0x66]) (.APP (.FUN [0x67]) (.FUN [0x78]))), rdr', none))) ∧
    (∀ {σ : Type} {S : GuInStreamFuns σ} {rdr : GuReader σ} {after : Bytes}, InReach S rdr (text ++ 0x3b :: after) →
      ∃ rdr', Settles (fun n => pgf_read_expr S n rdr)
          (.ok (some (.APP (.FUN [0x66]) (.APP (.FUN [0x67]) (.FUN [0x78]))), rdr', none)) ∧
        Source S rdr' (rdr.gu_in_tell + text.length + 1) after) :=
  expr_round_trip (.app (.fun_ rfl (by simp) (by simp [Fits])) (.app (.fun_ rfl (by simp) (by simp [Fits]))
    (.fun_ rfl (by simp) (by simp [Fits]))))

end Libpgf
