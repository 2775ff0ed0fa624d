import Libpgf.Pgf.ExprGrammar
/-!
# What the expression reader accepts

Every text begins with terms, after which no term begins, something is passed
over, the reader chokes, or it raises an exception. From this follows on which
texts it agrees with the grammar.
-/

namespace Libpgf

/-! ## Every text -/

/-- What comes where no further term does. -/
inductive Last (e : TextEnd) (ts : List Lexeme) : Prop
  | stops (h : Stops e ts)
  | void {gap after : List Lexeme} (h : Void gap) (hts : ts = gap ++ after)
  | chokes (h : Chokes ts)
  | raises (h : Raises e ts)

theorem Phrase.pos {nt : Nonterminal} {ts : List Lexeme} {a : PgfExpr} (h : Phrase Gap Fits nt ts a) : 0 < ts.length := by
  induction h with
  | id _ => exact Nat.zero_lt_one
  | paren _ _ _ => exact Nat.succ_pos _
  | single _ ih => exact ih
  | app _ _ ih _ =>
    rw [List.length_append]
    omega

/-- A term more. -/
theorem Terms.snoc {ts us : List Lexeme} {r : Option PgfExpr} {a : PgfExpr} (h : Terms ts r) (h' : Phrase Gap Fits .term us a) :
    ∃ f, Terms (ts ++ us) (some f) := by
  cases h with
  | nil => exact ⟨a, .phrase (.single h')⟩
  | phrase h => exact ⟨_, .phrase (.app h h')⟩

theorem Phrase.chokes {nt : Nonterminal} {ts : List Lexeme} {a : PgfExpr} (h : Phrase Gap Fits nt ts a) {us : List Lexeme} (h' : Chokes us) :
    Chokes (ts ++ us) := by
  induction h generalizing us with
  | id hfits => exact .later (.id hfits) h'
  | paren h hgap _ => exact .later (.paren h hgap) h'
  | single _ ih => exact ih h'
  | app h h'' ih ih' =>
    rw [List.append_assoc]
    exact ih (ih' h')

theorem Terms.chokes {ts us : List Lexeme} {r : Option PgfExpr} (h : Terms ts r) (h' : Chokes us) : Chokes (ts ++ us) := by
  cases h with
  | nil => exact h'
  | phrase h => exact h.chokes h'

/-- Parentheses after which anything may come, from what is within them. -/
theorem paren_last {e : TextEnd} {us rest : List Lexeme} {r : Option PgfExpr} (h : Terms us r) (hlast : Last e rest) :
    (∃ vs a after, .lpar :: (us ++ rest) = vs ++ after ∧ Phrase Gap Fits .term vs a) ∨ Last e (.lpar :: (us ++ rest)) := by
  -- closing the parentheses makes a term of terms, and a void of none
  have hclose : ∀ {gap after}, Gap gap → rest = gap ++ .rpar :: after →
      (∃ vs a after, .lpar :: (us ++ rest) = vs ++ after ∧ Phrase Gap Fits .term vs a) ∨ Last e (.lpar :: (us ++ rest)) := by
    rintro gap after hgap rfl
    cases h with
    | nil =>
      have hvoid : Void (.lpar :: (gap ++ [.rpar])) := by
        rcases hgap with rfl | hvoid
        · exact .parens
        · exact .nest hvoid
      have hts : .lpar :: ([] ++ (gap ++ .rpar :: after)) = .lpar :: (gap ++ [.rpar]) ++ after := by simp
      exact .inr (.void hvoid hts)
    | phrase h => exact .inl ⟨_, _, after, by simp, .paren h hgap⟩
  cases hlast with
  | stops hstops =>
    cases hstops with
    | nil he => exact .inr (.raises (.unclosed h (.inl ⟨rfl, .nil he⟩) (by simp)))
    | rpar ts => exact hclose (.inl rfl) rfl
  | @void gap after hvoid hrest =>
    subst hrest
    by_cases hhead : after.head? = some .rpar
    · obtain ⟨after', rfl⟩ := List.head?_eq_some_iff.1 hhead
      exact hclose (.inr hvoid) rfl
    · exact .inr (.raises (.unclosed h (.inr hvoid) hhead))
  | chokes hchokes => exact .inr (.chokes (.inside (h.chokes hchokes)))
  | raises hraises => exact .inr (.raises (.inside h hraises))

/-- Every text begins with terms. -/
theorem terms_last (e : TextEnd) (ts : List Lexeme) : ∃ us r rest, ts = us ++ rest ∧ Terms us r ∧ Last e rest := by
  -- after terms that have been read already
  have main : ∀ n, ∀ ts : List Lexeme, ts.length ≤ n → ∀ {acc r}, Terms acc r →
      ∃ us r rest, ts = us ++ rest ∧ Terms (acc ++ us) r ∧ Last e rest := by
    intro n
    induction n with
    | zero =>
      intro ts hlen acc r hacc
      obtain rfl := List.length_eq_zero_iff.1 (Nat.le_zero.1 hlen)
      refine ⟨[], r, [], rfl, by rwa [List.append_nil], ?_⟩
      by_cases he : e = .raised
      · exact .raises (.input he)
      · exact .stops (.nil he)
    | succ n ih =>
      intro ts hlen acc r hacc
      have hstop : Last e ts → ∃ us r rest, ts = us ++ rest ∧ Terms (acc ++ us) r ∧ Last e rest := fun hlast =>
        ⟨[], r, ts, rfl, by rwa [List.append_nil], hlast⟩
      have hterm : ∀ {vs a after}, ts = vs ++ after → Phrase Gap Fits .term vs a →
          ∃ us r rest, ts = us ++ rest ∧ Terms (acc ++ us) r ∧ Last e rest := by
        rintro vs a after rfl hterm
        have hpos := hterm.pos
        rw [List.length_append] at hlen
        obtain ⟨f, hacc'⟩ := hacc.snoc hterm
        obtain ⟨us, r', rest, rfl, hterms, hlast⟩ := ih after (by omega) hacc'
        exact ⟨vs ++ us, r', rest, (List.append_assoc _ _ _).symm, by rwa [← List.append_assoc], hlast⟩
      cases ts with
      | nil => exact ih [] (Nat.zero_le _) hacc
      | cons t ts =>
        cases t with
        | lpar =>
          obtain ⟨us, r', rest, rfl, hterms, hlast⟩ := ih ts (Nat.le_of_succ_le_succ hlen) Terms.nil
          rw [List.nil_append] at hterms
          rcases paren_last hterms hlast with ⟨vs, a, after, heq, hphrase⟩ | hlast'
          · exact hterm heq hphrase
          · exact hstop hlast'
        | rpar => exact hstop (.stops (.rpar ts))
        | id s =>
          by_cases hfits : Fits s
          · exact hterm (List.singleton_append (l := ts)).symm (.id hfits)
          · exact hstop (.chokes (.here hfits))
        | other c => exact hstop (.void (.other c) (List.singleton_append (l := ts)).symm)
  obtain ⟨us, r, rest, hts, hterms, hlast⟩ := main ts.length ts (Nat.le_refl _) Terms.nil
  exact ⟨us, r, rest, hts, hterms, hlast⟩

/-! ## Reading -/

/-- The texts on which the reader raises no exception: terms up to the end, terms before something that is passed over, and anything that
begins with a closing parenthesis. -/
inductive Unraised (e : TextEnd) : List Lexeme → Prop
  | ends {ts : List Lexeme} {r : Option PgfExpr} (h : Terms ts r) (he : e ≠ .raised) : Unraised e ts
  | passes {ts gap after : List Lexeme} {r : Option PgfExpr} (h : Terms ts r) (h' : Void gap) : Unraised e (ts ++ (gap ++ after))
  | rpar (ts : List Lexeme) : Unraised e (.rpar :: ts)

section Read
variable {σ : Type} {S : GuInStreamFuns σ} {rdr : GuReader σ} {e : TextEnd}

theorem start_ahead {cs : Bytes} (h : Feed S rdr cs e) : Ahead S ⟨rdr, none, none, none⟩ (seen e [] cs).1 (seen e [] cs).2 :=
  .fresh rfl rfl (.fresh rfl h) rfl

theorem read_abort {h : Halt} (hexpr : Settles (fun n => pgf_expr_parser_expr S n ⟨rdr, none, none, none⟩) (.error h)) :
    Settles (fun n => pgf_read_expr S n rdr) (.error h) := by
  unfold pgf_read_expr
  exact hexpr.bind_error

theorem read_null {parser : PgfExprParser σ}
    (hexpr : Settles (fun n => pgf_expr_parser_expr S n ⟨rdr, none, none, none⟩) (.ok (none, parser))) :
    Settles (fun n => pgf_read_expr S n rdr) (.ok (none, parser.rdr, parser.err)) := by
  unfold pgf_read_expr
  exact hexpr.bind (Settles.of_eq fun _ => rfl)

theorem read_some {a : PgfExpr} {parser : PgfExprParser σ}
    (hexpr : Settles (fun n => pgf_expr_parser_expr S n ⟨rdr, none, none, none⟩) (.ok (some a, parser))) :
    (parser.lookahead = none ∨ parser.lookahead = some .semic →
      Settles (fun n => pgf_read_expr S n rdr) (.ok (some a, parser.rdr, parser.err))) ∧
    (parser.lookahead ≠ none → parser.lookahead ≠ some .semic →
      Settles (fun n => pgf_read_expr S n rdr) (.ok (some a, parser.rdr, gu_raise parser.err .PgfReadExn))) := by
  unfold pgf_read_expr
  constructor
  · intro hla
    apply hexpr.bind
    rcases hla with hla | hla
    · simp only [Option.isSome_some, if_true, hla, reduceCtorEq, if_false, ne_eq, not_true_eq_false]
      exact Settles.of_eq fun _ => rfl
    · simp only [Option.isSome_some, if_true, hla]
      exact (consume_held hla).bind (Settles.of_eq fun _ => rfl)
  · intro hne hsemic
    apply hexpr.bind
    simp only [Option.isSome_some, if_true, if_neg hsemic, if_pos hne]
    exact Settles.of_eq fun _ => rfl

variable {ts : List Lexeme}

/-- The first terms of a text, and then its end. -/
theorem ends_run {r : Option PgfExpr} (hp : Ahead S ⟨rdr, none, none, none⟩ ts e) (h : Terms ts r) (he : e ≠ .raised) :
    ∃ rdr', Settles (fun n => pgf_read_expr S n rdr) (.ok (r, rdr', none)) ∧ ∀ pos rem, e = .semic pos rem → Source S rdr' pos rem := by
  rw [← List.append_nil ts] at hp
  obtain ⟨parser₁, hp₁, hexpr⟩ := h.run hp
  obtain ⟨parser₂, hterm, hp₂, hla, hsource⟩ := stops_run (.nil he) hp₁
  refine ⟨parser₂.rdr, ?_, fun pos rem heq => hsource pos rem heq rfl⟩
  rw [← hp₂.err]
  cases r with
  | none => exact read_null (hexpr hterm)
  | some a => exact (read_some (hexpr hterm)).1 (hla rfl)

theorem Unraised.run (h : Unraised e ts) (hp : Ahead S ⟨rdr, none, none, none⟩ ts e) :
    ∃ r rdr', Settles (fun n => pgf_read_expr S n rdr) (.ok (r, rdr', none)) := by
  cases h with
  | ends h he =>
    obtain ⟨rdr', hrun, -⟩ := ends_run hp h he
    exact ⟨_, rdr', hrun⟩
  | @passes us gap after r h h' =>
    obtain ⟨parser₁, hp₁, hexpr⟩ := h.run hp
    obtain ⟨parser₂, hterm, hp₂, hla⟩ := h'.run hp₁
    refine ⟨r, parser₂.rdr, ?_⟩
    rw [← hp₂.err]
    cases r with
    | none => exact read_null (hexpr hterm)
    | some a => exact (read_some (hexpr hterm)).1 (.inl hla)
  | rpar ts =>
    obtain ⟨parser₁, hterm, hp₁, -⟩ := stops_run (.rpar ts) hp
    refine ⟨none, parser₁.rdr, ?_⟩
    rw [← hp₁.err]
    exact read_null (expr_null hterm)

theorem Broken.read {parser : PgfExprParser σ} {r : Option PgfExpr} (h : Broken S parser)
    (hexpr : Settles (fun n => pgf_expr_parser_expr S n ⟨rdr, none, none, none⟩) (.ok (r, parser))) :
    ∃ r rdr' t, Settles (fun n => pgf_read_expr S n rdr) (.ok (r, rdr', some t)) := by
  obtain ⟨t, herr, -⟩ := h.raised
  refine ⟨r, parser.rdr, t, ?_⟩
  cases r with
  | none =>
    rw [← herr]
    exact read_null hexpr
  | some a =>
    by_cases hla : parser.lookahead = none ∨ parser.lookahead = some .semic
    · rw [← herr]
      exact (read_some hexpr).1 hla
    · rw [not_or] at hla
      have hrun := (read_some hexpr).2 hla.1 hla.2
      rwa [herr, gu_raise_some] at hrun

/-- No other text is read without an exception. -/
theorem read_total (hp : Ahead S ⟨rdr, none, none, none⟩ ts e) :
    Unraised e ts ∨ Chokes ts ∨ ∃ r rdr' t, Settles (fun n => pgf_read_expr S n rdr) (.ok (r, rdr', some t)) := by
  obtain ⟨us, r, rest, rfl, hterms, hlast⟩ := terms_last e ts
  cases hlast with
  | stops hstops =>
    cases hstops with
    | nil he =>
      rw [List.append_nil]
      exact .inl (.ends hterms he)
    | rpar after =>
      cases hterms with
      | nil => exact .inl (.rpar after)
      | @phrase _ a h =>
        obtain ⟨parser₁, hp₁, hexpr⟩ := (Terms.phrase h).run hp
        obtain ⟨la, parser₂, hlook, hlooked⟩ := lookahead_spec hp₁
        cases hlooked with
        | tok htok hla h₂ _ =>
          cases htok
          have hrun := (read_some (hexpr (term_null hlook (.inr (.inl rfl))))).2 (by simp [hla]) (by simp [hla])
          rw [h₂.err, gu_raise_none] at hrun
          exact .inr (.inr ⟨_, _, _, hrun⟩)
  | void hvoid hrest =>
    subst hrest
    exact .inl (.passes hterms hvoid)
  | chokes hchokes => exact .inr (.inl (hterms.chokes hchokes))
  | raises hraises =>
    obtain ⟨parser₁, hp₁, hexpr⟩ := hterms.run hp
    obtain ⟨parser₂, hterm, hbroken⟩ := hraises.run hp₁
    exact .inr (.inr (hbroken.read (hexpr hterm)))

end Read

/-! ## Texts of the grammar -/

/-- A phrase without gaps is read, or chokes. -/
theorem Phrase.strict {nt : Nonterminal} {ts : List Lexeme} {a : PgfExpr} (h : Phrase (· = []) (fun _ => True) nt ts a) :
    Phrase Gap Fits nt ts a ∨ ∀ after, Chokes (ts ++ after) := by
  induction h with
  | @id s _ =>
    by_cases hfits : Fits s
    · exact .inl (.id hfits)
    · exact .inr fun after => .here hfits
  | paren _ hgap ih =>
    subst hgap
    rcases ih with h | h
    · exact .inl (.paren h (.inl rfl))
    · refine .inr fun after => ?_
      rw [List.nil_append, List.cons_append, List.append_assoc]
      exact .inside (h _)
  | single _ ih =>
    rcases ih with h | h
    · exact .inl (.single h)
    · exact .inr h
  | app _ _ ih ih' =>
    rcases ih with h | h
    · rcases ih' with h' | h'
      · exact .inl (.app h h')
      · refine .inr fun after => ?_
        rw [List.append_assoc]
        exact h.chokes (h' after)
    · refine .inr fun after => ?_
      rw [List.append_assoc]
      exact h _

/-- Every character that begins no token is seen. -/
theorem Phrase.no_other {nt : Nonterminal} {ts : List Lexeme} {a : PgfExpr} (h : Phrase (· = []) (fun _ => True) nt ts a) (c : GuChar) :
    Lexeme.other c ∉ ts := by
  induction h with
  | id _ => simp
  | paren _ hgap ih =>
    subst hgap
    simpa using ih
  | single _ ih => exact ih
  | app _ _ ih ih' => simp [ih, ih']

theorem valid_cases {c : GuChar} (h : isIdent c = true ∨ isspace c = true ∨ isalpha c = true ∨ c = 0x28 ∨ c = 0x29) :
    gu_char_is_valid c = true := by
  revert c
  decide +kernel

/-- A character that is not portable begins no token. -/
theorem other_mem {cur text : Bytes} {c : GuChar} (hc : c ∈ text) (hvalid : gu_char_is_valid c = false) :
    Lexeme.other c ∈ lexemes cur text := by
  have hne : ¬ (isIdent c = true ∨ isspace c = true ∨ isalpha c = true ∨ c = 0x28 ∨ c = 0x29) := by
    intro h
    rw [valid_cases h] at hvalid
    cases hvalid
  simp only [not_or] at hne
  obtain ⟨hident, hspace, halpha, hlpar, hrpar⟩ := hne
  induction text generalizing cur with
  | nil => cases hc
  | cons d text ih =>
    unfold lexemes
    by_cases hd : c = d
    · subst hd
      have hpunct : punct c = .other c := by rw [punct, if_neg hlpar, if_neg hrpar]
      rw [if_neg fun h => hident h.2, if_neg hspace, if_neg halpha, hpunct]
      exact List.mem_append_right _ List.mem_cons_self
    · have hc' : c ∈ text := (List.mem_cons.1 hc).resolve_left hd
      split
      · exact ih hc'
      · split
        · exact List.mem_append_right _ (ih hc')
        · split
          · exact List.mem_append_right _ (ih hc')
          · exact List.mem_append_right _ (List.mem_cons_of_mem _ (ih hc'))

/-! ## Agreement with the grammar -/

/-- Reading `text` raises no exception when it derives from the grammar and at no other time, and returns its application. -/
def ReadsGrammar {σ : Type} (S : GuInStreamFuns σ) (rdr : GuReader σ) (text : Bytes) : Prop :=
  ∃ r rdr' exn, Settles (fun n => pgf_read_expr S n rdr) (.ok (r, rdr', exn)) ∧ (exn = none ↔ ∃ a, DerivesAs text a) ∧
    ∀ a, DerivesAs text a → r = some a

/-- A text of ASCII characters before a semicolon or the end is read as the grammar has it unless the reader chokes on an identifier or
raises no exception where the text does not derive. -/
theorem expr_grammar {σ : Type} {S : GuInStreamFuns σ} {rdr : GuReader σ} {text rem : Bytes} (h : InReach S rdr (text ++ rem))
    (hascii : ∀ c ∈ text, c.toNat < 128 ∧ c ≠ 0x3b) (hrem : rem = [] ∨ ∃ after, rem = 0x3b :: after) :
    ∃ cs e, Feed S rdr cs e ∧ (ReadsGrammar S rdr text ↔
      ¬ Chokes (seen e [] cs).1 ∧ (Unraised (seen e [] cs).2 (seen e [] cs).1 → ∃ a, DerivesAs text a)) := by
  obtain ⟨cs, e, hfeed, hcase⟩ := h.source.feed hascii hrem
  have hp := start_ahead hfeed
  have hderives : ∀ {a}, DerivesAs text a → Chokes (seen e [] cs).1 ∨
      ∃ rdr', Settles (fun n => pgf_read_expr S n rdr) (.ok (some a, rdr', none)) := by
    intro a hd
    rcases hcase with ⟨-, c, hc, hvalid⟩ | ⟨rfl, hnil, hcons⟩
    · exact absurd (other_mem hc hvalid) (hd.no_other c)
    · have he : e ≠ .raised := by
        rcases hrem with rfl | ⟨after, rfl⟩
        · simp [hnil rfl]
        · simp [hcons after rfl]
      rw [seen_eq he hd.no_other] at hp ⊢
      rcases hd.strict with hphrase | hchokes
      · obtain ⟨rdr', hrun, -⟩ := ends_run hp (.phrase hphrase) he
        exact .inr ⟨rdr', hrun⟩
      · have hall := hchokes []
        rw [List.append_nil] at hall
        exact .inl hall
  refine ⟨cs, e, hfeed, ?_⟩
  constructor
  · rintro ⟨r, rdr', exn, hrun, hexn, -⟩
    constructor
    · intro hchokes
      have habort := hrun.unique (read_abort (hchokes.run hp).1)
      cases habort
    · intro hunraised
      obtain ⟨r', rdr'', hrun'⟩ := hunraised.run hp
      cases hrun.unique hrun'
      exact hexn.1 rfl
  · rintro ⟨hchokes, hunraised⟩
    rcases read_total hp with hu | hc | ⟨r, rdr', t, hrun⟩
    · obtain ⟨r, rdr', hrun⟩ := hu.run hp
      refine ⟨r, rdr', none, hrun, ⟨fun _ => hunraised hu, fun _ => rfl⟩, fun a hd => ?_⟩
      obtain ⟨rdr'', hrun'⟩ := (hderives hd).resolve_left hchokes
      cases hrun.unique hrun'
      rfl
    · exact absurd hc hchokes
    · have hnone : ¬ ∃ a, DerivesAs text a := by
        rintro ⟨a, hd⟩
        obtain ⟨rdr'', hrun'⟩ := (hderives hd).resolve_left hchokes
        cases hrun.unique hrun'
      exact ⟨r, rdr', some t, hrun, ⟨by simp, fun hd => absurd hd hnone⟩, fun a hd => absurd ⟨a, hd⟩ hnone⟩

namespace Applied

/-- `f (g x) y` -/
def text : Bytes := [0x66, 0x20, 0x28, 0x67, 0x20, 0x78, 0x29, 0x20, 0x79]

def expr : PgfExpr := .APP (.APP (.FUN [0x66]) (.APP (.FUN [0x67]) (.FUN [0x78]))) (.FUN [0x79])

theorem ascii : ∀ c ∈ text, c.toNat < 128 ∧ c ≠ 0x3b := by simp [text]

theorem valid : ∀ c ∈ text, gu_char_is_valid c = true := by decide +kernel

/-- The text in a slice, before a semicolon and `z`. -/
theorem reach : InReach gu_data_in_funs (gu_data_in (text ++ [0x3b, 0x7a])) (text ++ [0x3b, 0x7a]) := .start (.data _)

theorem phrase {Gap : List Lexeme → Prop} {Fits : Bytes → Prop} (hgap : Gap []) (hfits : ∀ c, Fits [c]) :
    Phrase Gap Fits .expr (lexemes [] text) expr := by
  have htokens : lexemes [] text = [.id [0x66]] ++ .lpar :: ([.id [0x67], .id [0x78]] ++ ([] ++ [.rpar])) ++ [.id [0x79]] := by decide
  have hid (c : UInt8) : Phrase Gap Fits .term [.id [c]] (.FUN [c]) := .id (hfits c)
  have harg : Phrase Gap Fits .term (.lpar :: ([.id [0x67], .id [0x78]] ++ ([] ++ [.rpar]))) (.APP (.FUN [0x67]) (.FUN [0x78])) :=
    .paren (.app (.single (hid 0x67)) (hid 0x78)) hgap
  rw [htokens]
  exact .app (.app (.single (hid 0x66)) harg) (hid 0x79)

theorem derives : DerivesAs text expr := phrase rfl fun _ => trivial

theorem not_chokes {cs : Bytes} {e : TextEnd} (h : Feed gu_data_in_funs (gu_data_in (text ++ [0x3b, 0x7a])) cs e) :
    ¬ Chokes (seen e [] cs).1 := by
  intro hchokes
  have habort := read_abort (hchokes.run (start_ahead h)).1
  obtain ⟨cs', e', hfeed, ⟨-, c, hc, hvalid⟩ | ⟨rfl, -, he⟩⟩ := reach.source.feed ascii (.inr ⟨_, rfl⟩)
  · rw [valid c hc] at hvalid
    cases hvalid
  · obtain rfl := he _ rfl
    have hp := start_ahead hfeed
    rw [seen_eq (by simp) derives.no_other] at hp
    have hfits (c : UInt8) : Fits [c] := by simp [Fits]
    obtain ⟨rdr', hrun, -⟩ := ends_run hp (.phrase (phrase (.inl rfl) hfits)) (by simp)
    cases hrun.unique habort

end Applied

theorem expr_grammar_applied : ReadsGrammar gu_data_in_funs (gu_data_in (Applied.text ++ [0x3b, 0x7a])) Applied.text := by
  obtain ⟨cs, e, hfeed, hiff⟩ := expr_grammar Applied.reach Applied.ascii (.inr ⟨_, rfl⟩)
  exact hiff.2 ⟨Applied.not_chokes hfeed, fun _ => ⟨_, Applied.derives⟩⟩

/-- The text `a+b` is cut short at the plus sign, and nothing is raised. -/
theorem expr_cut_short : ¬ ∀ {σ : Type} {S : GuInStreamFuns σ} {rdr : GuReader σ} {text rem : Bytes}, InReach S rdr (text ++ rem) →
    (∀ c ∈ text, c.toNat < 128 ∧ c ≠ 0x3b) → (rem = [] ∨ ∃ after, rem = 0x3b :: after) → (∃ c ∈ text, isspace c = false) →
    ReadsGrammar S rdr text := by
  intro h
  have hreach : InReach gu_data_in_funs (gu_data_in [0x61, 0x2b, 0x62]) ([0x61, 0x2b, 0x62] ++ []) := .start (.data _)
  have hascii : ∀ c ∈ ([0x61, 0x2b, 0x62] : Bytes), c.toNat < 128 ∧ c ≠ 0x3b := by simp
  obtain ⟨r, rdr', exn, hrun, hexn, -⟩ := h hreach hascii (.inl rfl) ⟨0x61, by decide⟩
  obtain ⟨cs, e, hfeed, hcase⟩ := hreach.source.feed hascii (.inl rfl)
  rcases hcase with ⟨-, c, hc, hvalid⟩ | ⟨rfl, he, -⟩
  · have hval : ∀ c ∈ ([0x61, 0x2b, 0x62] : Bytes), gu_char_is_valid c = true := by decide +kernel
    rw [hval c hc] at hvalid
    cases hvalid
  · obtain rfl := he rfl
    have hp := start_ahead hfeed
    have hunraised : Unraised .eof [.id [0x61], .other 0x2b, .id [0x62]] :=
      .passes (.phrase (.single (.id (by decide : ([0x61] : Bytes).length < 256)))) (.other 0x2b)
    obtain ⟨r', rdr'', hrun'⟩ := hunraised.run hp
    cases hrun.unique hrun'
    obtain ⟨a, hd⟩ := hexn.1 rfl
    exact hd.no_other 0x2b (by decide)

end Libpgf
