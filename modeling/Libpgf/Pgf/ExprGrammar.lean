import Libpgf.Pgf.ExprLexer
/-!
# The grammar of expressions

`expr ::= term+` and `term ::= identifier | '(' expr ')'`, and what the reader
makes of texts outside of this grammar. Where no term begins it returns a null
expression and stops, and only at the closing parenthesis does it notice.
-/

namespace Libpgf

/-! ## Grammars -/

inductive Nonterminal where
  | term
  | expr

/-- The phrases of the grammar, where `Gap` may come before a closing parenthesis and identifiers are those in `Fits`. Terms in a row are
an application that nests to the left. -/
inductive Phrase (Gap : List Lexeme → Prop) (Fits : Bytes → Prop) : Nonterminal → List Lexeme → PgfExpr → Prop
  | id {s : Bytes} (h : Fits s) : Phrase Gap Fits .term [.id s] (.FUN s)
  | paren {ts gap : List Lexeme} {e : PgfExpr} (h : Phrase Gap Fits .expr ts e) (hgap : Gap gap) :
      Phrase Gap Fits .term (.lpar :: (ts ++ (gap ++ [.rpar]))) e
  | single {ts : List Lexeme} {e : PgfExpr} (h : Phrase Gap Fits .term ts e) : Phrase Gap Fits .expr ts e
  | app {ts us : List Lexeme} {f a : PgfExpr} (h : Phrase Gap Fits .expr ts f) (h' : Phrase Gap Fits .term us a) :
      Phrase Gap Fits .expr (ts ++ us) (.APP f a)

/-- The text of the grammar derives from `expr`, as `e`. -/
def DerivesAs (text : Bytes) (e : PgfExpr) : Prop := Phrase (· = []) (fun _ => True) .expr (lexemes [] text) e

/-- What the reader passes over without a term: a character that begins no token, or parentheses around nothing or around such. -/
inductive Void : List Lexeme → Prop
  | other (c : GuChar) : Void [.other c]
  | parens : Void [.lpar, .rpar]
  | nest {ts : List Lexeme} (h : Void ts) : Void (.lpar :: (ts ++ [.rpar]))

/-- Before a closing parenthesis it passes over one of these. -/
def Gap (ts : List Lexeme) : Prop := ts = [] ∨ Void ts

/-- The identifiers that have a string. -/
def Fits (s : Bytes) : Prop := s.length < 256

/-- Reading `ts` comes to an identifier that has none. -/
inductive Chokes : List Lexeme → Prop
  | here {s : Bytes} {after : List Lexeme} (h : ¬ Fits s) : Chokes (.id s :: after)
  | inside {ts : List Lexeme} (h : Chokes ts) : Chokes (.lpar :: ts)
  | later {ts us : List Lexeme} {e : PgfExpr} (h : Phrase Gap Fits .term ts e) (h' : Chokes us) : Chokes (ts ++ us)

/-- No term begins here, and nothing is passed over. -/
inductive Stops (e : TextEnd) : List Lexeme → Prop
  | nil (he : e ≠ .raised) : Stops e []
  | rpar (ts : List Lexeme) : Stops e (.rpar :: ts)

/-- The first terms, which may be none. -/
inductive Terms : List Lexeme → Option PgfExpr → Prop
  | nil : Terms [] none
  | phrase {ts : List Lexeme} {e : PgfExpr} (h : Phrase Gap Fits .expr ts e) : Terms ts (some e)

/-- Where a term is due, an exception is raised. -/
inductive Raises (e : TextEnd) : List Lexeme → Prop
  | input (he : e = .raised) : Raises e []
  | unclosed {ts gap rest : List Lexeme} {r : Option PgfExpr} (h : Terms ts r) (hgap : (gap = [] ∧ Stops e rest) ∨ Void gap)
      (hrest : rest.head? ≠ some .rpar) : Raises e (.lpar :: (ts ++ (gap ++ rest)))
  | inside {ts us : List Lexeme} {r : Option PgfExpr} (h : Terms ts r) (h' : Raises e us) : Raises e (.lpar :: (ts ++ us))

/-! ## Runs -/

section Run
variable {σ : Type} {S : GuInStreamFuns σ} {parser : PgfExprParser σ} {e : TextEnd}

/-! ### One term -/

theorem term_null {la : Option PgfExprToken} {parser' : PgfExprParser σ}
    (hlook : Settles (fun n => pgf_expr_parser_lookahead S n parser) (.ok (la, parser')))
    (hla : la = none ∨ la = some .rpar ∨ la = some .semic) : Settles (fun n => pgf_expr_parser_term S n parser) (.ok (none, parser')) := by
  apply Settles.succ ?_ fun m => pgf_expr_parser_term.eq_2 S parser m
  apply hlook.bind
  apply Settles.of_eq
  intro m
  rcases hla with rfl | rfl | rfl <;> rfl

theorem term_id {s : Bytes} {parser' : PgfExprParser σ}
    (hlook : Settles (fun n => pgf_expr_parser_lookahead S n parser) (.ok (some (.str s), parser')))
    (hid : pgf_expr_parser_token_is_id (some (.str s)) = true) (hla : parser'.lookahead = some (.str s)) :
    Settles (fun n => pgf_expr_parser_term S n parser)
      (gu_str_string s >>= fun s => .ok (some (.FUN s), { parser' with lookahead := none })) := by
  apply Settles.succ ?_ fun m => pgf_expr_parser_term.eq_2 S parser m
  apply hlook.bind
  simp only [reduceCtorEq, if_false, Option.some.injEq, hid, if_true]
  exact (consume_held hla).bind (Settles.of_eq fun _ => rfl)

theorem term_error {parser' : PgfExprParser σ} {h : Halt}
    (hlook : Settles (fun n => pgf_expr_parser_lookahead S n parser) (.ok (some .lpar, parser'))) (hla : parser'.lookahead = some .lpar)
    (hexpr : Settles (fun n => pgf_expr_parser_expr S n { parser' with lookahead := none }) (.error h)) :
    Settles (fun n => pgf_expr_parser_term S n parser) (.error h) := by
  apply Settles.succ ?_ fun m => pgf_expr_parser_term.eq_2 S parser m
  apply hlook.bind
  simp only [if_true]
  exact (consume_held hla).bind hexpr.bind_error

theorem term_paren {la : Option PgfExprToken} {parser' parser₁ parser₂ : PgfExprParser σ} {r : Option PgfExpr}
    (hlook : Settles (fun n => pgf_expr_parser_lookahead S n parser) (.ok (some .lpar, parser'))) (hla : parser'.lookahead = some .lpar)
    (hexpr : Settles (fun n => pgf_expr_parser_expr S n { parser' with lookahead := none }) (.ok (r, parser₁)))
    (hlook' : Settles (fun n => pgf_expr_parser_lookahead S n parser₁) (.ok (la, parser₂))) :
    (la = some .rpar → parser₂.lookahead = some .rpar →
      Settles (fun n => pgf_expr_parser_term S n parser) (.ok (r, { parser₂ with lookahead := none }))) ∧
    (la ≠ some .rpar →
      Settles (fun n => pgf_expr_parser_term S n parser) (.ok (none, { parser₂ with err := gu_raise parser₂.err .PgfReadExn }))) := by
  constructor
  · rintro rfl hla'
    apply Settles.succ ?_ fun m => pgf_expr_parser_term.eq_2 S parser m
    apply hlook.bind
    simp only [if_true]
    apply (consume_held hla).bind
    apply hexpr.bind
    apply hlook'.bind
    simp only [if_true]
    exact (consume_held hla').bind (Settles.of_eq fun _ => rfl)
  · intro hne
    apply Settles.succ ?_ fun m => pgf_expr_parser_term.eq_2 S parser m
    apply hlook.bind
    simp only [if_true]
    apply (consume_held hla).bind
    apply hexpr.bind
    apply hlook'.bind
    simp only [if_neg hne]
    exact Settles.of_eq fun _ => rfl

/-! ### Terms in a row -/

theorem expr_null {parser' : PgfExprParser σ} (hterm : Settles (fun n => pgf_expr_parser_term S n parser) (.ok (none, parser'))) :
    Settles (fun n => pgf_expr_parser_expr S n parser) (.ok (none, parser')) := by
  apply Settles.succ ?_ fun m => pgf_expr_parser_expr.eq_2 S parser m
  exact hterm.bind (Settles.of_eq fun _ => rfl)

theorem expr_some {f : PgfExpr} {parser' : PgfExprParser σ} {r : Exec (Option PgfExpr × PgfExprParser σ)}
    (hterm : Settles (fun n => pgf_expr_parser_term S n parser) (.ok (some f, parser')))
    (hr : Settles (fun n => pgf_expr_parser_args S n f parser') r) : Settles (fun n => pgf_expr_parser_expr S n parser) r := by
  apply Settles.succ ?_ fun m => pgf_expr_parser_expr.eq_2 S parser m
  exact hterm.bind hr

theorem expr_error {h : Halt} (hterm : Settles (fun n => pgf_expr_parser_term S n parser) (.error h)) :
    Settles (fun n => pgf_expr_parser_expr S n parser) (.error h) := by
  apply Settles.succ ?_ fun m => pgf_expr_parser_expr.eq_2 S parser m
  exact hterm.bind_error

theorem args_null {f : PgfExpr} {parser' : PgfExprParser σ}
    (hterm : Settles (fun n => pgf_expr_parser_term S n parser) (.ok (none, parser'))) :
    Settles (fun n => pgf_expr_parser_args S n f parser) (.ok (some f, parser')) := by
  apply Settles.succ ?_ fun m => pgf_expr_parser_args.eq_2 S f parser m
  exact hterm.bind (Settles.of_eq fun _ => rfl)

theorem args_some {f a : PgfExpr} {parser' : PgfExprParser σ} {r : Exec (Option PgfExpr × PgfExprParser σ)}
    (hterm : Settles (fun n => pgf_expr_parser_term S n parser) (.ok (some a, parser')))
    (hr : Settles (fun n => pgf_expr_parser_args S n (.APP f a) parser') r) : Settles (fun n => pgf_expr_parser_args S n f parser) r := by
  apply Settles.succ ?_ fun m => pgf_expr_parser_args.eq_2 S f parser m
  exact hterm.bind hr

theorem args_error {f : PgfExpr} {h : Halt} (hterm : Settles (fun n => pgf_expr_parser_term S n parser) (.error h)) :
    Settles (fun n => pgf_expr_parser_args S n f parser) (.error h) := by
  apply Settles.succ ?_ fun m => pgf_expr_parser_args.eq_2 S f parser m
  exact hterm.bind_error

/-! ### What is read of a text -/

/-- Where no term begins, nothing is read. -/
theorem stops_run {ts : List Lexeme} (h : Stops e ts) (hp : Ahead S parser ts e) : ∃ parser',
    Settles (fun n => pgf_expr_parser_term S n parser) (.ok (none, parser')) ∧ Ahead S parser' ts e ∧
      (ts = [] → parser'.lookahead = none ∨ parser'.lookahead = some .semic) ∧
      (∀ pos rem, e = .semic pos rem → ts = [] → Source S parser'.rdr pos rem) := by
  obtain ⟨la, parser', hlook, hlooked⟩ := lookahead_spec hp
  cases h with
  | nil he =>
    cases hlooked with
    | eof hla h => exact ⟨parser', term_null hlook (.inl rfl), h, fun _ => .inl hla, by simp⟩
    | semic hla h =>
      refine ⟨parser', term_null hlook (.inr (.inr rfl)), h, fun _ => .inr hla, fun pos rem heq _ => ?_⟩
      cases heq
      cases h with
      | fresh hla' => exact absurd (hla.symm.trans hla') (by simp)
      | semic _ _ hsource => exact hsource
    | raised hla h => exact absurd rfl he
  | rpar ts =>
    cases hlooked with
    | tok htok hla h h' =>
      cases htok
      exact ⟨parser', term_null hlook (.inr (.inl rfl)), h, by simp, by simp⟩

/-- Parentheses that are closed. -/
theorem paren_run {inner rest : List Lexeme} {r : Option PgfExpr} (hp : Ahead S parser (.lpar :: inner) e)
    (hinner : ∀ {parser'}, Ahead S parser' inner e →
      ∃ parser₁, Settles (fun n => pgf_expr_parser_expr S n parser') (.ok (r, parser₁)) ∧ Ahead S parser₁ (.rpar :: rest) e) :
    ∃ parser', Settles (fun n => pgf_expr_parser_term S n parser) (.ok (r, parser')) ∧ Ahead S parser' rest e ∧ parser'.lookahead = none := by
  obtain ⟨la, parser', hlook, hlooked⟩ := lookahead_spec hp
  cases hlooked with
  | tok htok hla h h' =>
    cases htok
    obtain ⟨parser₁, hexpr, hp₁⟩ := hinner h'
    obtain ⟨la', parser₂, hlook', hlooked'⟩ := lookahead_spec hp₁
    cases hlooked' with
    | tok htok' hla' h₂ h₂' =>
      cases htok'
      exact ⟨_, (term_paren hlook hla hexpr hlook').1 rfl hla', h₂', rfl⟩

/-- What is passed over gives no term. -/
theorem Void.run {gap rest : List Lexeme} (h : Void gap) (hp : Ahead S parser (gap ++ rest) e) : ∃ parser',
    Settles (fun n => pgf_expr_parser_term S n parser) (.ok (none, parser')) ∧ Ahead S parser' rest e ∧ parser'.lookahead = none := by
  induction h generalizing parser rest with
  | other c =>
    obtain ⟨la, parser', hlook, hlooked⟩ := lookahead_spec hp
    cases hlooked with
    | tok htok => cases htok
    | other hla h => exact ⟨parser', term_null hlook (.inl rfl), h, hla⟩
  | parens =>
    apply paren_run hp
    intro parser' hp'
    obtain ⟨parser₁, hterm, hp₁, -⟩ := stops_run (.rpar rest) hp'
    exact ⟨parser₁, expr_null hterm, hp₁⟩
  | @nest ts h ih =>
    rw [List.cons_append, List.append_assoc] at hp
    apply paren_run hp
    intro parser' hp'
    obtain ⟨parser₁, hterm, hp₁, -⟩ := ih hp'
    exact ⟨parser₁, expr_null hterm, hp₁⟩

theorem gap_run {gap rest : List Lexeme} (h : Gap gap) (hp : Ahead S parser (gap ++ .rpar :: rest) e) : ∃ parser',
    Settles (fun n => pgf_expr_parser_term S n parser) (.ok (none, parser')) ∧ Ahead S parser' (.rpar :: rest) e := by
  rcases h with rfl | h
  · obtain ⟨parser', hterm, hp', -⟩ := stops_run (.rpar rest) hp
    exact ⟨parser', hterm, hp'⟩
  · obtain ⟨parser', hterm, hp', -⟩ := h.run hp
    exact ⟨parser', hterm, hp'⟩

/-- What is read of a phrase: a term comes back, and terms in a row come to the loop for the next one. -/
def Nonterminal.Runs (S : GuInStreamFuns σ) (e : TextEnd) : Nonterminal → List Lexeme → PgfExpr → Prop
  | .term, ts, a => ∀ {parser rest}, Ahead S parser (ts ++ rest) e →
      ∃ parser', Settles (fun n => pgf_expr_parser_term S n parser) (.ok (some a, parser')) ∧ Ahead S parser' rest e
  | .expr, ts, a => ∀ {parser rest}, Ahead S parser (ts ++ rest) e → ∃ parser', Ahead S parser' rest e ∧
      ∀ {r}, Settles (fun n => pgf_expr_parser_args S n a parser') r → Settles (fun n => pgf_expr_parser_expr S n parser) r

theorem Phrase.run {nt : Nonterminal} {ts : List Lexeme} {a : PgfExpr} (h : Phrase Gap Fits nt ts a) : nt.Runs S e ts a := by
  induction h with
  | @id s hfits =>
    intro parser rest hp
    obtain ⟨la, parser', hlook, hlooked⟩ := lookahead_spec hp
    cases hlooked with
    | tok htok hla h h' =>
      cases htok with
      | id hid =>
        refine ⟨{ parser' with lookahead := none }, ?_, h'⟩
        have hterm := term_id hlook hid hla
        rwa [gu_str_string, if_pos (show s.length < 256 from hfits)] at hterm
  | @paren ts gap a h hgap ih =>
    intro parser rest hp
    have hassoc : .lpar :: (ts ++ (gap ++ [.rpar])) ++ rest = .lpar :: (ts ++ (gap ++ .rpar :: rest)) := by simp
    rw [hassoc] at hp
    have hinner : ∀ {parser'}, Ahead S parser' (ts ++ (gap ++ .rpar :: rest)) e →
        ∃ parser₁, Settles (fun n => pgf_expr_parser_expr S n parser') (.ok (some a, parser₁)) ∧ Ahead S parser₁ (.rpar :: rest) e := by
      intro parser' hp'
      obtain ⟨parser₁, hp₁, hexpr⟩ := ih hp'
      obtain ⟨parser₂, hterm, hp₂⟩ := gap_run hgap hp₁
      exact ⟨parser₂, hexpr (args_null hterm), hp₂⟩
    obtain ⟨parser', hterm, hp', -⟩ := paren_run hp hinner
    exact ⟨parser', hterm, hp'⟩
  | single h ih =>
    intro parser rest hp
    obtain ⟨parser', hterm, hp'⟩ := ih hp
    exact ⟨parser', hp', fun hr => expr_some hterm hr⟩
  | app h h' ih ih' =>
    intro parser rest hp
    rw [List.append_assoc] at hp
    obtain ⟨parser₁, hp₁, hexpr⟩ := ih hp
    obtain ⟨parser', hterm, hp'⟩ := ih' hp₁
    exact ⟨parser', hp', fun hr => hexpr (args_some hterm hr)⟩

/-- The first terms, and then none. -/
theorem Terms.run {ts rest : List Lexeme} {r : Option PgfExpr} (h : Terms ts r) (hp : Ahead S parser (ts ++ rest) e) :
    ∃ parser', Ahead S parser' rest e ∧ ∀ {parser''}, Settles (fun n => pgf_expr_parser_term S n parser') (.ok (none, parser'')) →
      Settles (fun n => pgf_expr_parser_expr S n parser) (.ok (r, parser'')) := by
  cases h with
  | nil => exact ⟨parser, hp, fun hterm => expr_null hterm⟩
  | phrase h =>
    obtain ⟨parser', hp', hexpr⟩ := h.run hp
    exact ⟨parser', hp', fun hterm => hexpr (args_null hterm)⟩

/-- The reader does not get past an identifier that has no string. -/
theorem Chokes.run {ts : List Lexeme} (h : Chokes ts) (hp : Ahead S parser ts e) :
    Settles (fun n => pgf_expr_parser_expr S n parser) Exec.abort ∧ ∀ f, Settles (fun n => pgf_expr_parser_args S n f parser) Exec.abort := by
  induction h generalizing parser with
  | here hlong =>
    obtain ⟨la, parser', hlook, hlooked⟩ := lookahead_spec hp
    cases hlooked with
    | tok htok hla h h' =>
      cases htok with
      | id hid =>
        have hterm := term_id hlook hid hla
        rw [gu_str_string, if_neg (show ¬ _ < 256 from hlong)] at hterm
        exact ⟨expr_error hterm, fun f => args_error hterm⟩
  | inside h ih =>
    obtain ⟨la, parser', hlook, hlooked⟩ := lookahead_spec hp
    cases hlooked with
    | tok htok hla h h' =>
      cases htok
      have hterm := term_error hlook hla (ih h').1
      exact ⟨expr_error hterm, fun f => args_error hterm⟩
  | later h h' ih =>
    obtain ⟨parser', hterm, hp'⟩ := h.run hp
    exact ⟨expr_some hterm ((ih hp').2 _), fun f => args_some hterm ((ih hp').2 _)⟩

/-- With an exception raised, the lookahead shows nothing new. -/
theorem Broken.look (h : Broken S parser) : ∃ la parser', Settles (fun n => pgf_expr_parser_lookahead S n parser) (.ok (la, parser')) ∧
    la ≠ some .rpar ∧ Broken S parser' := by
  cases hla : parser.lookahead with
  | some tok => exact ⟨some tok, parser, lookahead_held hla, hla ▸ h.not_rpar, h⟩
  | none =>
    obtain ⟨c, parser', hnext, -, h'⟩ := next_broken_spec h hla
    obtain ⟨t, herr, -⟩ := h'.raised
    refine ⟨none, parser', lookahead_raised hla ?_, by simp, h'⟩
    apply Settles.succ (Settles.of_eq fun _ => rfl)
    intro m
    simp only [pgf_expr_parser_skip, hnext, Exec.ok_bind, herr, gu_ok_some, Bool.not_false, if_true, Exec.pure_eq]

theorem Broken.raise (h : Broken S parser) : Broken S { parser with err := gu_raise parser.err .PgfReadExn } := by
  obtain ⟨t, herr, ht⟩ := h.raised
  exact ⟨⟨t, by rw [herr, gu_raise_some], ht⟩, h.not_rpar, h.source⟩

/-- What stands there instead of a closing parenthesis. -/
theorem Looked.raise {rest : List Lexeme} {la : Option PgfExprToken} (h : Looked S parser rest e la) (hrest : rest.head? ≠ some .rpar) :
    la ≠ some .rpar ∧ Broken S { parser with err := gu_raise parser.err .PgfReadExn } := by
  have hraise : ∀ {ts}, Ahead S parser ts e → parser.lookahead ≠ some .rpar →
      Broken S { parser with err := gu_raise parser.err .PgfReadExn } := by
    intro ts hp hla
    exact ⟨⟨.PgfReadExn, by rw [hp.err, gu_raise_none], by decide⟩, hla, hp.source⟩
  cases h with
  | tok htok hla h h' =>
    cases htok with
    | lpar => exact ⟨by simp, hraise h (by simp [hla])⟩
    | rpar => exact absurd rfl hrest
    | id _ => exact ⟨by simp, hraise h (by simp [hla])⟩
  | other hla h => exact ⟨by simp, hraise h (by simp [hla])⟩
  | eof hla h => exact ⟨by simp, hraise h (by simp [hla])⟩
  | semic hla h => exact ⟨by simp, hraise h (by simp [hla])⟩
  | raised hla h => exact ⟨by simp, h.raise⟩

theorem Raises.run {ts : List Lexeme} (h : Raises e ts) (hp : Ahead S parser ts e) : ∃ parser',
    Settles (fun n => pgf_expr_parser_term S n parser) (.ok (none, parser')) ∧ Broken S parser' := by
  induction h generalizing parser with
  | input he =>
    subst he
    obtain ⟨la, parser', hlook, hlooked⟩ := lookahead_spec hp
    cases hlooked with
    | raised hla h => exact ⟨parser', term_null hlook (.inl rfl), h⟩
  | @unclosed ts gap rest r h hgap hrest =>
    obtain ⟨la, parser', hlook, hlooked⟩ := lookahead_spec hp
    cases hlooked with
    | tok htok hla _ hp' =>
      cases htok
      obtain ⟨parser₁, hp₁, hexpr⟩ := h.run hp'
      have hstop : ∃ parser₂, Settles (fun n => pgf_expr_parser_term S n parser₁) (.ok (none, parser₂)) ∧ Ahead S parser₂ rest e := by
        rcases hgap with ⟨rfl, hstops⟩ | hvoid
        · obtain ⟨parser₂, hterm, hp₂, -⟩ := stops_run hstops hp₁
          exact ⟨parser₂, hterm, hp₂⟩
        · obtain ⟨parser₂, hterm, hp₂, -⟩ := hvoid.run hp₁
          exact ⟨parser₂, hterm, hp₂⟩
      obtain ⟨parser₂, hterm, hp₂⟩ := hstop
      obtain ⟨la', parser₃, hlook', hlooked'⟩ := lookahead_spec hp₂
      obtain ⟨hne, hbroken⟩ := hlooked'.raise hrest
      exact ⟨_, (term_paren hlook hla (hexpr hterm) hlook').2 hne, hbroken⟩
  | inside h h' ih =>
    obtain ⟨la, parser', hlook, hlooked⟩ := lookahead_spec hp
    cases hlooked with
    | tok htok hla _ hp' =>
      cases htok
      obtain ⟨parser₁, hp₁, hexpr⟩ := h.run hp'
      obtain ⟨parser₂, hterm, hbroken⟩ := ih hp₁
      obtain ⟨la', parser₃, hlook', hne, hbroken'⟩ := hbroken.look
      exact ⟨_, (term_paren hlook hla (hexpr hterm) hlook').2 hne, hbroken'.raise⟩

end Run

end Libpgf
