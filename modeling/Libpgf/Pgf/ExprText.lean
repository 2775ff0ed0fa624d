import Libpgf.Pgf.Expr
import Libpgf.Gu.Read
import Libpgf.Gu.String
/-!
# Expressions as text (`pgf/expr.c`)

The reader looks one token ahead, and one character behind it. It compares
tokens by address: an interned string is at no address of the static ones.
-/

namespace Libpgf

/-! ## Strings of expressions -/

/-- The string for a C string, as its bytes. -/
def gu_str_string (str : Bytes) : Exec GuString := if str.length < 256 then .ok str else Exec.abort

/-- It stands for the word that `gu_utf8_string` returns, and returns when that does. -/
theorem str_string_refines (pool : GuPool) (str : Bytes) (mem : GuMemory) :
    (∃ s, gu_str_string str = .ok s ∧ ∃ w mem', pool.gu_utf8_string str mem = .ok (w, mem') ∧ GuPool.Made pool mem' w s) ∨
      (gu_str_string str = Exec.abort ∧ pool.gu_utf8_string str mem = Exec.abort) := by
  unfold gu_str_string
  by_cases h : str.length < 256
  · obtain ⟨w, more, hrun, -⟩ := GuPool.utf8_string_spec pool h mem
    exact .inl ⟨str, if_pos h, w, mem ++ more, hrun, .new hrun⟩
  · exact .inr ⟨if_neg h, GuPool.utf8_string_long (Nat.not_lt.1 h) mem⟩

/-! ## The reader -/

/-- A pointer to one of the static strings, or to an interned string. -/
inductive PgfExprToken where
  | lpar
  | rpar
  | semic
  | str (chars : Bytes)
  deriving DecidableEq, Repr

/-- The frame `err` catches `GuEOF`. Anything else that is raised in it is raised in the frame of the caller as well. -/
structure PgfExprParser (σ : Type) where
  rdr : GuReader σ
  err : GuExn
  /-- `none` is a null pointer. -/
  lookahead : Option PgfExprToken
  /-- `none` is -1. -/
  next_char : Option GuChar

section Reader
variable {σ : Type} (S : GuInStreamFuns σ)

def pgf_expr_parser_next (parser : PgfExprParser σ) : Exec (GuChar × PgfExprParser σ) :=
  match parser.next_char with
  | some ret => .ok (ret, if 0 < ret then { parser with next_char := none } else parser)
  | none => do
    let (c, rdr, err) ← gu_getc S parser.rdr parser.err
    if err = some .GuEOF then return (0, { parser with rdr, err := none })
    return (c, { parser with rdr, err })

/-- The first loop of `pgf_expr_parser_lookahead`, with a bound on its rounds: the first character that is not blank, or `none` when an
exception has been raised. -/
def pgf_expr_parser_skip : Nat → PgfExprParser σ → Exec (Option GuChar × PgfExprParser σ)
  | 0, _ => Exec.hang
  | n + 1, parser => do
    let (c, parser) ← pgf_expr_parser_next S parser
    if !gu_ok parser.err then return (none, parser)
    if isspace c then pgf_expr_parser_skip n parser else return (some c, parser)

/-- The second loop, which collects an identifier: its characters and the one after them, or `none`. -/
def pgf_expr_parser_chars : Nat → Bytes → GuChar → PgfExprParser σ → Exec (Option (Bytes × GuChar) × PgfExprParser σ)
  | n, chars, c, parser =>
    if isalnum c || c = 0x5f then
      match n with
      | 0 => Exec.hang
      | n + 1 => do
        let (c', parser) ← pgf_expr_parser_next S parser
        if !gu_ok parser.err then return (none, parser)
        pgf_expr_parser_chars n (chars ++ [c]) c' parser
    else .ok (some (chars, c), parser)

/-- The `switch` of `pgf_expr_parser_lookahead`. -/
def pgf_expr_parser_switch (n : Nat) (c : GuChar) (parser : PgfExprParser σ) : Exec (Option PgfExprToken × PgfExprParser σ) :=
  if c = 0x28 then .ok (some .lpar, { parser with lookahead := some .lpar })
  else if c = 0x29 then .ok (some .rpar, { parser with lookahead := some .rpar })
  else if c = 0x3b then .ok (some .semic, { parser with lookahead := some .semic })
  else if isalpha c then do
    let (ident, parser) ← pgf_expr_parser_chars S n [] c parser
    match ident with
    | none => return (none, parser)
    | some (chars, c) => return (some (.str chars), { parser with lookahead := some (.str chars), next_char := some c })
  -- the end of the input, or a character that begins no token
  else .ok (none, { parser with lookahead := none })

def pgf_expr_parser_lookahead (n : Nat) (parser : PgfExprParser σ) : Exec (Option PgfExprToken × PgfExprParser σ) :=
  match parser.lookahead with
  | some str => .ok (some str, parser)
  | none => do
    let (c, parser) ← pgf_expr_parser_skip S n parser
    match c with
    | none => return (none, parser)
    | some c => pgf_expr_parser_switch S n c parser

/-- The static strings begin with no letter. -/
def pgf_expr_parser_token_is_id : Option PgfExprToken → Bool
  | some (.str (c :: _)) => isalpha c || c = 0x5f
  | _ => false

def pgf_expr_parser_consume (n : Nat) (parser : PgfExprParser σ) : Exec (PgfExprParser σ) := do
  let (_, parser) ← pgf_expr_parser_lookahead S n parser
  return { parser with lookahead := none }

mutual

def pgf_expr_parser_term : Nat → PgfExprParser σ → Exec (Option PgfExpr × PgfExprParser σ)
  | 0, _ => .error .fuel
  | n + 1, parser => do
    let (la, parser) ← pgf_expr_parser_lookahead S n parser
    if la = some .lpar then
      let parser ← pgf_expr_parser_consume S n parser
      let (expr, parser) ← pgf_expr_parser_expr n parser
      let (la, parser) ← pgf_expr_parser_lookahead S n parser
      if la = some .rpar then
        let parser ← pgf_expr_parser_consume S n parser
        return (expr, parser)
      return (none, { parser with err := gu_raise parser.err .PgfReadExn })
    else
      match la with
      | some (.str la) =>
        if pgf_expr_parser_token_is_id (some (.str la)) then
          let parser ← pgf_expr_parser_consume S n parser
          let s ← gu_str_string la
          return (some (.FUN s), parser)
        return (none, parser)
      | _ => return (none, parser)

def pgf_expr_parser_expr : Nat → PgfExprParser σ → Exec (Option PgfExpr × PgfExprParser σ)
  | 0, _ => .error .fuel
  | n + 1, parser => do
    let (expr, parser) ← pgf_expr_parser_term n parser
    match expr with
    | none => return (none, parser)
    | some expr => pgf_expr_parser_args n expr parser

/-- The loop of `pgf_expr_parser_expr`. -/
def pgf_expr_parser_args : Nat → PgfExpr → PgfExprParser σ → Exec (Option PgfExpr × PgfExprParser σ)
  | 0, _, _ => .error .fuel
  | n + 1, expr, parser => do
    let (arg, parser) ← pgf_expr_parser_term n parser
    match arg with
    | none => return (some expr, parser)
    | some arg => pgf_expr_parser_args n (.APP expr arg) parser

end

/-- The frame of the caller is one in which nothing has been raised. -/
def pgf_read_expr (n : Nat) (rdr : GuReader σ) : Exec (Option PgfExpr × GuReader σ × GuExn) := do
  let (expr, parser) ← pgf_expr_parser_expr S n ⟨rdr, none, none, none⟩
  if expr.isSome then
    if parser.lookahead = some .semic then
      let parser ← pgf_expr_parser_consume S n parser
      return (expr, parser.rdr, parser.err)
    else if parser.lookahead ≠ none then return (expr, parser.rdr, gu_raise parser.err .PgfReadExn)
    else return (expr, parser.rdr, parser.err)
  else return (expr, parser.rdr, parser.err)

end Reader

/-! ## The printer -/

section Printer
variable {σ : Type} (S : GuOutStreamFuns σ)

abbrev GuWriter (σ : Type) := GuOut σ

/-- `gu_string_write` and `gu_puts`, which differ in where the bytes are. -/
def gu_puts (str : Bytes) (wtr : GuWriter σ) (err : GuExn) : Exec (GuWriter σ × GuExn) := do
  let (_, wtr, err) ← wtr.gu_out_bytes S str err
  return (wtr, err)

/-- What `gu_string_write` does with a string made from the bytes. -/
theorem puts_refines {pool : GuPool} {mem : GuMemory} {w : GuWord} {s : Bytes} (h : GuPool.Made pool mem w s) (wtr : GuWriter σ) (err : GuExn) :
    pool.gu_string_write S w mem wtr err = gu_puts S s wtr err := by
  unfold GuPool.gu_string_write gu_puts
  rw [h.holds.open_eq]
  rfl

/-- `gu_printf` with `%d`. -/
def gu_format_int (i : Int) : Bytes := (toString i).toUTF8.toList

def pgf_expr_print_with_paren : PgfExpr → Bool → GuWriter σ → GuExn → Exec (GuWriter σ × GuExn)
  | .FUN fun_, _, wtr, err => gu_puts S fun_ wtr err
  | .APP fun_ arg, need_paren, wtr, err => do
    let (wtr, err) ← if need_paren then gu_puts S [0x28] wtr err else pure (wtr, err)
    let (wtr, err) ← pgf_expr_print_with_paren fun_ false wtr err
    let (wtr, err) ← gu_puts S [0x20] wtr err
    let (wtr, err) ← pgf_expr_print_with_paren arg true wtr err
    if need_paren then gu_puts S [0x29] wtr err else return (wtr, err)
  | .META id, _, wtr, err => gu_puts S (0x3f :: gu_format_int id) wtr err
  -- `gu_impossible`
  | _, _, _, _ => Exec.abort

def pgf_expr_print (expr : PgfExpr) (wtr : GuWriter σ) (err : GuExn) : Exec (GuWriter σ × GuExn) :=
  pgf_expr_print_with_paren S expr false wtr err

end Printer

end Libpgf
