import Libpgf.Gu.MapLaws
import Libpgf.Pgf.Data
/-!
# The parser (`pgf/parser.c`)

Items, continuation sets, categories and parse states point to each other, and
sets and categories change while a token is parsed. They live in a `Heap`; the
tables that one call uses and then frees are in a `PgfParsing`.

Items never change once they are processed, so they are values, and so are the
`PgfItemBase`s: the code compares both by their contents. The hash of an item
depends on addresses, so any function may be the hash.

Every recursion goes through `pgf_parsing_item`, which counts its depth. The
functions above it take it as an argument, as the C file declares it ahead.
-/

namespace Libpgf

/-- A `PgfItemSet*` -/
abbrev PgfItemSetId := Nat

structure PgfItemBase where
  conts : PgfItemSetId
  ccat : PgfCCatId
  prod : PgfProduction
  lin_idx : Nat
  deriving DecidableEq, Repr

structure PgfItem where
  base : PgfItemBase
  args : List PgfPArg
  /-- `none` is the null variant: the item is at the end of its sequence. -/
  curr_sym : Option PgfSymbol
  /-- `uint16_t` -/
  seq_idx : Nat
  /-- `uint8_t` -/
  tok_idx : Nat
  /-- `uint8_t` -/
  alt : Nat
  deriving DecidableEq, Repr

/-- Item pointers are hashed and compared by what they point to; `none` is null. -/
def itemHasher (hash : Option PgfItem → Nat) : GuHasher (Option PgfItem) where
  hash := hash
  eq a b := decide (a = b)
  zero := none
  isZero := Option.isNone
  eq_refl := by simp
  eq_symm h := by simpa [eq_comm] using h
  eq_trans h h' := by simp_all
  hash_eq h := by simp_all
  isZero_iff := by simp

/-- A parser; `next_fid`, which changes, is in the heap. -/
structure PgfParser where
  concr : PgfConcr
  item_hash : Option PgfItem → Nat

abbrev PgfItemSet (P : PgfParser) := GuSet (itemHasher P.item_hash)

structure PgfParse where
  /-- The key `none` is the null string, which no token that is fed is. -/
  transitions : Option PgfToken → Option PgfItemSetId
  completed : List PgfCCatId

structure Heap (P : PgfParser) where
  ccats : List PgfCCat
  sets : List (PgfItemSet P)
  parses : List PgfParse
  next_fid : Int

/-- One round of the loop in `pgf_parsing_complete`: the continuation it
visits, the cursor after it, and the set before and after it is combined. -/
structure EnumRound (P : PgfParser) where
  cont : Option PgfItem
  cursor : Nat
  before : PgfItemSet P
  after : PgfItemSet P

/-- A whole run of that loop, from the set as it was when the loop began. -/
structure Enumeration (P : PgfParser) where
  start : PgfItemSet P
  rounds : List (EnumRound P)

structure PgfParsing (P : PgfParser) where
  heap : Heap P
  /-- The parse state being built. -/
  parse : Nat
  seen_items : PgfItemSet P
  conts_map : PgfCCatId → Option (List (Option PgfItemSetId))
  generated_cats : PgfItemSetId → Option PgfCCatId
  /-- The enumerations made so far. This is a record for proofs: no code reads it. -/
  enums : List (Enumeration P)

variable {P : PgfParser}

/-! ## Tables -/

/-- `gu_set_insert` on a set in memory. -/
def set_insert (s : PgfParsing P) (id : PgfItemSetId) (item : Option PgfItem) : Exec (PgfParsing P) := do
  let set ← Exec.deref s.heap.sets[id]?
  let set ← set.gu_set_insert item
  return { s with heap := { s.heap with sets := s.heap.sets.set id set } }

/-- `gu_new_set` -/
def new_set (s : PgfParsing P) : Exec (PgfParsing P × PgfItemSetId) := do
  let set ← GuSet.gu_new_set _
  return ({ s with heap := { s.heap with sets := s.heap.sets ++ [set] } }, s.heap.sets.length)

def pgf_parsing_add_transition (s : PgfParsing P) (tok : Option PgfToken) (item : PgfItem) : Exec (PgfParsing P) := do
  let parse ← Exec.deref s.heap.parses[s.parse]?
  match parse.transitions tok with
  | some items => set_insert s items (some item)
  | none =>
    let (s, items) ← new_set s
    let parse := { parse with transitions := Function.update parse.transitions tok (some items) }
    let s := { s with heap := { s.heap with parses := s.heap.parses.set s.parse parse } }
    set_insert s items (some item)

/-- `cat->cnccat->n_ctnts` -/
def ccat_n_ctnts (P : PgfParser) (cat : PgfCCat) : Exec Nat := do
  let cnccat ← Exec.deref cat.cnccat
  let cnccat ← Exec.deref P.concr.cnccatMem[cnccat]?
  return cnccat.n_ctnts

def pgf_parsing_get_contss (s : PgfParsing P) (cat : PgfCCatId) :
    Exec (PgfParsing P × List (Option PgfItemSetId)) :=
  match s.conts_map cat with
  | some contss => .ok (s, contss)
  | none => do
    let ccat ← Exec.deref s.heap.ccats[cat]?
    let n_ctnts ← ccat_n_ctnts P ccat
    let contss := List.replicate n_ctnts none
    return ({ s with conts_map := Function.update s.conts_map cat (some contss) }, contss)

def pgf_parsing_get_conts (s : PgfParsing P) (cat : PgfCCatId) (lin_idx : Nat) :
    Exec (PgfParsing P × PgfItemSetId) := do
  let ccat ← Exec.deref s.heap.ccats[cat]?
  let n_ctnts ← ccat_n_ctnts P ccat
  Exec.require (lin_idx < n_ctnts)
  let (s, contss) ← pgf_parsing_get_contss s cat
  match ← Exec.deref contss[lin_idx]? with
  | some conts => return (s, conts)
  | none =>
    let (s, conts) ← new_set s
    return ({ s with conts_map := Function.update s.conts_map cat (some (contss.set lin_idx (some conts))) }, conts)

def pgf_parsing_create_completed (s : PgfParsing P) (conts : PgfItemSetId) (cnccat : Option PgfCncCatId) :
    PgfParsing P × PgfCCatId :=
  let fid := s.heap.next_fid - 1
  let cat := s.heap.ccats.length
  ({ s with
      heap := { s.heap with ccats := s.heap.ccats ++ [{ cnccat, prods := .buf [], fid }], next_fid := fid }
      generated_cats := Function.update s.generated_cats conts (some cat) }, cat)

def pgf_parsing_get_completed (s : PgfParsing P) (conts : PgfItemSetId) : Option PgfCCatId :=
  s.generated_cats conts

/-- `gu_buf_push` on the productions of a category, which must be a buffer. -/
def push_prod (s : PgfParsing P) (cat : PgfCCatId) (prod : PgfProduction) : Exec (PgfParsing P) := do
  let ccat ← Exec.deref s.heap.ccats[cat]?
  match ccat.prods with
  | .buf ps =>
    return { s with heap := { s.heap with ccats := s.heap.ccats.set cat { ccat with prods := .buf (ps ++ [prod]) } } }
  | _ => Exec.abort

/-- `gu_buf_push` on the completed categories. -/
def push_completed (s : PgfParsing P) (cat : PgfCCatId) : Exec (PgfParsing P) := do
  let parse ← Exec.deref s.heap.parses[s.parse]?
  let parse := { parse with completed := parse.completed ++ [cat] }
  return { s with heap := { s.heap with parses := s.heap.parses.set s.parse parse } }

/-! ## Items -/

def pgf_item_base_symbol (base : PgfItemBase) (seq_idx : Nat) : Exec (Option PgfSymbol) :=
  match base.prod with
  | .APPLY f _ => do
    let seq ← Exec.deref f.lins[base.lin_idx]?
    Exec.require (seq_idx ≤ seq.length)
    return seq[seq_idx]?
  | .COERCE _ => do
    Exec.require (seq_idx ≤ 1)
    return if seq_idx = 1 then none else some (.CAT 0 base.lin_idx)

/-- The arguments of a new item. -/
def prod_args : PgfProduction → List PgfPArg
  | .APPLY _ args => args
  | .COERCE coerce => [{ hypos := [], ccat := coerce }]

def pgf_new_item (base : PgfItemBase) : Exec PgfItem := do
  let curr_sym ← pgf_item_base_symbol base 0
  return { base, args := prod_args base.prod, curr_sym, seq_idx := 0, tok_idx := 0, alt := 0 }

def pgf_item_advance (item : PgfItem) : Exec PgfItem := do
  let seq_idx := (item.seq_idx + 1) % 2 ^ 16
  let curr_sym ← pgf_item_base_symbol item.base seq_idx
  return { item with seq_idx, curr_sym }

/-- The item that `pgf_parsing_combine` makes: `cont` moved over `cat`. -/
def combined (cont : PgfItem) (cat : PgfCCatId) : Exec PgfItem := do
  match cont.curr_sym with
  | some (.CAT d _) =>
    Exec.require (d < cont.args.length)
    pgf_item_advance { cont with args := cont.args.set d { hypos := [], ccat := cat } }
  | _ => Exec.abort

/-- The production that a complete item stands for. -/
def completed_prod (item : PgfItem) : Exec PgfProduction :=
  match item.base.prod with
  | .APPLY f _ => .ok (.APPLY f item.args)
  | .COERCE _ => do
    let parg ← Exec.deref item.args[0]?
    Exec.require (parg.hypos = [])
    return .COERCE parg.ccat

/-- Whether the `i`-th alternative repeats the default form or an earlier alternative. -/
def kp_skip (default_form : PgfTokens) (alts : List PgfAlternative) (i : Nat) : Bool :=
  match alts[i]? with
  | some a => a.form = default_form || (alts.take i).any fun b => b.form = a.form
  | none => true

/-- The alternatives that are not skipped, with their numbers. -/
def kp_alts (default_form : PgfTokens) (alts : List PgfAlternative) : List (Nat × PgfTokens) :=
  ((List.range alts.length).filter fun i => !kp_skip default_form alts i).filterMap fun i =>
    alts[i]?.map fun a => (i + 1, a.form)

/-! ## Processing items -/

section Rec
variable (parsing_item : PgfParsing P → PgfItem → Exec (PgfParsing P))

def pgf_parsing_combine (s : PgfParsing P) (cont : Option PgfItem) (cat : PgfCCatId) : Exec (PgfParsing P) :=
  match cont with
  | none => push_completed s cat
  | some cont => do
    let item ← combined cont cat
    parsing_item s item

def pgf_parsing_production (s : PgfParsing P) (cat : PgfCCatId) (lin_idx : Nat) (prod : PgfProduction)
    (conts : PgfItemSetId) : Exec (PgfParsing P) := do
  let item ← pgf_new_item { conts, ccat := cat, prod, lin_idx }
  parsing_item s item

/-- The `while` loop of `pgf_parsing_complete`. The cursor is a `size_t` that
every round moves on. -/
def pgf_parsing_complete_loop (conts : PgfItemSetId) (cat : PgfCCatId) (start : PgfItemSet P) :
    Nat → Nat → List (EnumRound P) → PgfParsing P → Exec (PgfParsing P)
  | 0, _, _, _ => Exec.hang
  | n + 1, cursor, rounds, s => do
    let before ← Exec.deref s.heap.sets[conts]?
    match before.next cursor with
    | none => return { s with enums := s.enums ++ [{ start, rounds }] }
    | some (cont, cursor) =>
      let s ← pgf_parsing_combine parsing_item s cont cat
      let after ← Exec.deref s.heap.sets[conts]?
      pgf_parsing_complete_loop conts cat start n cursor (rounds ++ [{ cont, cursor, before, after }]) s

/-- One round of the loop over the constituents at which the completed category
has been predicted. -/
def repredict (cat : PgfCCatId) (prod : PgfProduction) (s : PgfParsing P) (i : Nat) : Exec (PgfParsing P) :=
  match (s.conts_map cat).bind (·[i]?) with
  | some (some conts2) => pgf_parsing_production parsing_item s cat i prod conts2
  | _ => .ok s

def pgf_parsing_complete (s : PgfParsing P) (item : PgfItem) : Exec (PgfParsing P) := do
  let prod ← completed_prod item
  let conts := item.base.conts
  match pgf_parsing_get_completed s conts with
  | some cat =>
    -- The category exists: process the production wherever it has been predicted.
    let s ← push_prod s cat prod
    let (s, contss) ← pgf_parsing_get_contss s cat
    forEach (repredict parsing_item cat prod) (List.range contss.length) s
  | none =>
    let ccat ← Exec.deref s.heap.ccats[item.base.ccat]?
    let (s, cat) := pgf_parsing_create_completed s conts ccat.cnccat
    let s ← push_prod s cat prod
    let start ← Exec.deref s.heap.sets[conts]?
    pgf_parsing_complete_loop parsing_item conts cat start sizeMod 0 [] s

/-- The productions are those the category has when the loop starts: later
ones are only appended, and `pgf_parsing_complete` processes them. -/
def pgf_parsing_predict (s : PgfParsing P) (item : Option PgfItem) (cat : PgfCCatId) (lin_idx : Nat) :
    Exec (PgfParsing P) := do
  let ccat ← Exec.deref s.heap.ccats[cat]?
  if ccat.prods.isNull then return s
  let (s, conts) ← pgf_parsing_get_conts s cat lin_idx
  let set ← Exec.deref s.heap.sets[conts]?
  let has ← set.gu_set_has item
  let s ← if has then pure s else do
    let s ← set_insert s conts item
    forEach (fun s prod => pgf_parsing_production parsing_item s cat lin_idx prod conts) ccat.prods.elems s
  match pgf_parsing_get_completed s conts with
  | some completed => pgf_parsing_combine parsing_item s item completed
  | none => return s

/-- `gu_seq_get(toks, PgfToken, idx)`, which checks no bounds. The data of an empty sequence is a word of zeros, the
null string; what follows any other end is not the sequence's. -/
def token_at (toks : PgfTokens) (idx : Nat) : Exec (Option PgfToken) :=
  match toks[idx]? with
  | some tok => .ok (some tok)
  | none => if toks = [] ∧ idx = 0 then .ok none else Exec.abort

/-- The tokens under which `pgf_parsing_symbol` files an item. -/
def next_tokens (item : PgfItem) (sym : PgfSymbol) : Exec (List (Option PgfToken)) :=
  match sym with
  | .KS tokens => do
    let tok ← token_at tokens item.tok_idx
    return [tok]
  | .KP default_form alts =>
    if item.tok_idx = 0 then do
      let tok ← token_at default_form 0
      let toks ← (kp_alts default_form alts).mapM fun a => token_at a.2 0
      return tok :: toks
    else if item.alt = 0 then do
      let tok ← token_at default_form item.tok_idx
      return [tok]
    else do
      let a ← Exec.deref alts[item.alt - 1]?
      let tok ← token_at a.form item.tok_idx
      return [tok]
  | _ => .ok []

def pgf_parsing_symbol (s : PgfParsing P) (item : PgfItem) (sym : PgfSymbol) : Exec (PgfParsing P) :=
  match sym with
  | .CAT d r => do
    let parg ← Exec.deref item.args[d]?
    Exec.require (parg.hypos = [])
    pgf_parsing_predict parsing_item s (some item) parg.ccat r
  | _ => do
    let toks ← next_tokens item sym
    forEach (fun s tok => pgf_parsing_add_transition s tok item) toks s

/-- `pgf_parsing_item` for an item that was not seen before. -/
def pgf_parsing_new_item (s : PgfParsing P) (item : PgfItem) : Exec (PgfParsing P) :=
  match item.base.prod with
  | .APPLY f _ => do
    let seq ← Exec.deref f.lins[item.base.lin_idx]?
    if item.seq_idx = seq.length then pgf_parsing_complete parsing_item s item
    else do
      let sym ← Exec.deref seq[item.seq_idx]?
      pgf_parsing_symbol parsing_item s item sym
  | .COERCE coerce =>
    match item.seq_idx with
    | 0 => pgf_parsing_predict parsing_item s (some item) coerce item.base.lin_idx
    | 1 => pgf_parsing_complete parsing_item s item
    | _ => Exec.abort

end Rec

def pgf_parsing_item : Nat → PgfParsing P → PgfItem → Exec (PgfParsing P)
  | 0, _, _ => .error .fuel
  | fuel + 1, s, item => do
    if ← s.seen_items.gu_set_has (some item) then return s
    let seen_items ← s.seen_items.gu_set_insert (some item)
    pgf_parsing_new_item (pgf_parsing_item fuel) { s with seen_items } item

/-! ## Scanning -/

/-- The item that `pgf_parsing_scan_toks` makes, if the form goes on with `tok`. -/
def scanned (old_item : PgfItem) (tok : PgfToken) (alt : Nat) (toks : PgfTokens) : Exec (Option PgfItem) := do
  let t ← token_at toks old_item.tok_idx
  if t ≠ some tok then return none
  let item := { old_item with tok_idx := (old_item.tok_idx + 1) % 2 ^ 8, alt := alt % 2 ^ 8 }
  if item.tok_idx = toks.length then
    let item ← pgf_item_advance { item with tok_idx := 0 }
    return some item
  return some item

/-- The forms that `pgf_parsing_scan` tries, with the `alt` that stands for each. -/
def scan_forms (item : PgfItem) : Exec (List (Nat × PgfTokens)) :=
  match item.curr_sym with
  | some (.KS tokens) => .ok [(0, tokens)]
  | some (.KP default_form alts) =>
    if item.tok_idx = 0 then .ok ((0, default_form) :: kp_alts default_form alts)
    else if item.alt = 0 then .ok [(0, default_form)]
    else do
      let a ← Exec.deref alts[item.alt - 1]?
      return [(item.alt, a.form)]
  | _ => Exec.abort

def pgf_parsing_scan_toks (fuel : Nat) (s : PgfParsing P) (old_item : PgfItem) (tok : PgfToken) (alt : Nat)
    (toks : PgfTokens) : Exec (PgfParsing P × Bool) := do
  match ← scanned old_item tok alt toks with
  | none => return (s, false)
  | some item =>
    let s ← pgf_parsing_item fuel s item
    return (s, true)

/-- `succ |= pgf_parsing_scan_toks(...)` for one form. -/
def scan_form (fuel : Nat) (item : PgfItem) (tok : PgfToken) (r : PgfParsing P × Bool) (form : Nat × PgfTokens) :
    Exec (PgfParsing P × Bool) := do
  let r' ← pgf_parsing_scan_toks fuel r.1 item tok form.1 form.2
  return (r'.1, r.2 || r'.2)

def pgf_parsing_scan (fuel : Nat) (s : PgfParsing P) (item : PgfItem) (tok : PgfToken) : Exec (PgfParsing P) := do
  let forms ← scan_forms item
  let r ← forEach (scan_form fuel item tok) forms (s, false)
  Exec.require (r.2 = true)
  return r.1

/-! ## Parse states -/

/-- `pgf_new_parse` and `pgf_new_parsing`: a fresh parse state with its tables. -/
def pgf_new_parsing (heap : Heap P) : Exec (PgfParsing P) := do
  let seen_items ← GuSet.gu_new_set _
  return {
    heap := { heap with parses := heap.parses ++ [{ transitions := fun _ => none, completed := [] }] }
    parse := heap.parses.length
    seen_items
    conts_map := fun _ => none
    generated_cats := fun _ => none
    enums := [] }

/-- The loop of `pgf_parse_token` over the agenda. -/
def pgf_parse_token_loop (fuel : Nat) (agenda : PgfItemSetId) (tok : PgfToken) :
    Nat → Nat → PgfParsing P → Exec (PgfParsing P)
  | 0, _, _ => Exec.hang
  | n + 1, cursor, s => do
    let items ← Exec.deref s.heap.sets[agenda]?
    match items.next cursor with
    | none => return s
    | some (item, cursor) =>
      let item ← Exec.deref item
      let s ← pgf_parsing_scan fuel s item tok
      pgf_parse_token_loop fuel agenda tok n cursor s

/-- The new parse state, with the tables that the code frees; `none` is `NULL`. -/
def pgf_parse_token (fuel : Nat) (heap : Heap P) (parse : Nat) (tok : PgfToken) :
    Exec (Option (PgfParsing P)) := do
  let p ← Exec.deref heap.parses[parse]?
  match p.transitions (some tok) with
  | none => return none
  | some agenda =>
    let s ← pgf_new_parsing heap
    let s ← pgf_parse_token_loop fuel agenda tok sizeMod 0 s
    return some s

/-- One round of the loop over the concrete categories of a whole input. -/
def predict_start (fuel lin_idx : Nat) (s : PgfParsing P) (ccat : Option PgfCCatId) : Exec (PgfParsing P) :=
  match ccat with
  | some ccat => pgf_parsing_predict (pgf_parsing_item fuel) s none ccat lin_idx
  | none => .ok s

/-- `lin_idx` is an `int`; a negative one is refused as one out of range is. -/
def pgf_parser_parse (fuel : Nat) (heap : Heap P) (cat : PgfCId) (lin_idx : Nat) : Exec (PgfParsing P) := do
  let s ← pgf_new_parsing heap
  match P.concr.cnccats.lookup cat with
  | none => return s
  | some id =>
    let cnccat ← Exec.deref P.concr.cnccatMem[id]?
    Exec.require (lin_idx < cnccat.n_ctnts)
    forEach (predict_start fuel lin_idx) cnccat.cats s

/-- The memory when the parser is made: the grammar's categories and nothing else. -/
def newHeap (P : PgfParser) : Heap P where
  ccats := P.concr.ccatMem
  sets := []
  parses := []
  next_fid := -999

end Libpgf
