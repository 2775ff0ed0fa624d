import Libpgf.Lib.Exec
/-!
# Grammars (`pgf/data.h`)

Objects that the code compares by address or changes in place live in a list
that stands for memory, and a pointer to one is its index. Objects that never
change are values: a `PgfCncFun` is told apart from others by its `fid`, its
index in the grammar.
-/

namespace Libpgf

/-- The bytes of a string. -/
abbrev GuString := List UInt8

abbrev PgfCId := GuString
abbrev PgfToken := GuString
abbrev PgfTokens := List PgfToken

/-- A `PgfCCat*` -/
abbrev PgfCCatId := Nat

/-- A `PgfCncCat*` -/
abbrev PgfCncCatId := Nat

structure PgfAlternative where
  form : PgfTokens
  prefixes : List GuString
  deriving DecidableEq, Repr

/-- The `d` and `r` of the code are `int32_t`s that it only uses as indices. A
negative one is here the size it is converted to, which no sequence reaches. -/
inductive PgfSymbol where
  | CAT (d r : Nat)
  | LIT (d r : Nat)
  | VAR (d r : Nat)
  | KS (tokens : PgfTokens)
  | KP (default_form : PgfTokens) (alts : List PgfAlternative)
  deriving DecidableEq, Repr

abbrev PgfSequence := List PgfSymbol

structure PgfCncFun where
  fun_ : PgfCId
  lins : List PgfSequence
  fid : Int
  deriving DecidableEq, Repr

structure PgfPArg where
  hypos : List PgfCCatId
  ccat : PgfCCatId
  deriving DecidableEq, Repr

inductive PgfProduction where
  | APPLY (fun_ : PgfCncFun) (args : List PgfPArg)
  | COERCE (coerce : PgfCCatId)
  deriving DecidableEq, Repr

/-- The categories that an argument names. -/
def PgfPArg.ccats (parg : PgfPArg) : List PgfCCatId := parg.ccat :: parg.hypos

/-- The categories that a production names. -/
def PgfProduction.ccats : PgfProduction → List PgfCCatId
  | APPLY _ args => args.flatMap PgfPArg.ccats
  | COERCE coerce => [coerce]

/-- A sequence of productions: a null pointer, a `GuSeq`, or a `GuBuf` that grows. -/
inductive PgfProductions where
  | null
  | seq (prods : List PgfProduction)
  | buf (prods : List PgfProduction)
  deriving DecidableEq, Repr

namespace PgfProductions

/-- `gu_seq_is_null` -/
def isNull : PgfProductions → Bool
  | null => true
  | _ => false

/-- `gu_seq_is_buf` -/
def isBuf : PgfProductions → Bool
  | buf _ => true
  | _ => false

/-- The elements; none for a null pointer. -/
def elems : PgfProductions → List PgfProduction
  | null => []
  | seq ps => ps
  | buf ps => ps

end PgfProductions

structure PgfCCat where
  cnccat : Option PgfCncCatId
  prods : PgfProductions
  fid : Int
  deriving DecidableEq, Repr

structure PgfCncCat where
  cid : PgfCId
  /-- The categories of the range; null for one that the grammar has erased. -/
  cats : List (Option PgfCCatId)
  n_ctnts : Nat
  ctnts : List GuString
  deriving DecidableEq, Repr

/-- A concrete grammar, with the memory that holds its categories. Its pointers
point into that memory, and its productions are no buffers. -/
structure PgfConcr where
  ccatMem : List PgfCCat
  cnccatMem : List PgfCncCat
  /-- Keyed by the abstract category, in the order in which the table lists its entries. -/
  cnccats : List (PgfCId × PgfCncCatId)
  extra_ccats : List PgfCCatId
  prods_fixed : ∀ ccat ∈ ccatMem, ccat.prods.isBuf = false
  prods_valid : ∀ ccat ∈ ccatMem, ∀ p ∈ ccat.prods.elems, ∀ c ∈ p.ccats, c < ccatMem.length
  cats_valid : ∀ cnccat ∈ cnccatMem, ∀ cat ∈ cnccat.cats, ∀ c ∈ cat, c < ccatMem.length

end Libpgf
