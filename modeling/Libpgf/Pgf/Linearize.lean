import Libpgf.Pgf.Expr
import Libpgf.Pgf.Trees
/-!
# Linearization (`pgf/linearize.c`)

`pgf_lzr_linearize` walks over a concrete tree and calls a presenter for what it
meets. Here it returns the calls in order.
-/

namespace Libpgf

inductive PgfCncTree where
  | APP (fun_ : PgfCncFun) (args : List PgfCncTree)
  | LIT (lit : PgfLiteral)

/-- A call of a presenter. -/
inductive PgfEvent where
  | expr_literal (lit : PgfLiteral)
  | expr_apply (fun_ : PgfCId) (n_args : Nat)
  | symbol_tokens (toks : PgfTokens)
  deriving DecidableEq, Repr

section Rec
variable (linearize : Nat → Nat → Exec (List PgfEvent))

/-- One symbol of a row; `linearize d r` is constituent `r` of argument `d`. -/
def linearize_sym : PgfSymbol → Exec (List PgfEvent)
  | .CAT d r => linearize d r
  | .VAR d r => linearize d r
  | .LIT d r => linearize d r
  | .KS tokens => .ok [.symbol_tokens tokens]
  | .KP default_form _ => .ok [.symbol_tokens default_form]

def linearize_syms : PgfSequence → Exec (List PgfEvent)
  | [] => .ok []
  | sym :: syms => do
    let events ← linearize_sym linearize sym
    let rest ← linearize_syms syms
    return events ++ rest

end Rec

def pgf_lzr_linearize : PgfCncTree → Nat → Exec (List PgfEvent)
  | .LIT lit, lin_idx => do
    Exec.require (lin_idx = 0)
    return [.expr_literal lit]
  | .APP fun_ args, lin_idx => do
    let seq ← Exec.deref fun_.lins[lin_idx]?
    let events ← linearize_syms (fun d r => if h : d < args.length then pgf_lzr_linearize args[d] r else Exec.abort) seq
    return .expr_apply fun_.fun_ args.length :: events
termination_by ctree => sizeOf ctree
decreasing_by
  have := List.sizeOf_lt_of_mem (List.getElem_mem h)
  simp only [PgfCncTree.APP.sizeOf_spec]
  omega

/-- The tokens among the calls. -/
def eventTokens (events : List PgfEvent) : List PgfToken :=
  events.flatMap fun
    | .symbol_tokens toks => toks
    | _ => []

/-! ## Concrete trees of derivation trees -/

namespace Tree

mutual

/-- The concrete tree, in which coercions leave no trace. -/
def cnc : Tree → PgfCncTree
  | apply f args => .APP f (cncs args)
  | coerce t => t.cnc
  | metavar _ => .LIT (.STR [])

def cncs : List Tree → List PgfCncTree
  | [] => []
  | t :: ts => t.cnc :: cncs ts

end

theorem cncs_eq (ts : List Tree) : cncs ts = ts.map cnc := by
  induction ts with
  | nil => rfl
  | cons t ts ih => rw [cncs, ih, List.map_cons]

/-- No `metavar` is left. -/
inductive Whole : Tree → Prop
  | apply {f args} : (∀ t ∈ args, Whole t) → Whole (.apply f args)
  | coerce {t} : Whole t → Whole (.coerce t)

end Tree

theorem linearize_syms_yields {lin : Nat → Nat → Exec (List PgfEvent)} {sub : Nat → Nat → List PgfToken → Prop}
    (hlin : ∀ d r events, lin d r = .ok events → sub d r (eventTokens events)) {syms : PgfSequence} {events : List PgfEvent}
    (h : linearize_syms lin syms = .ok events) : YieldsSeq sub syms (eventTokens events) := by
  induction syms generalizing events with
  | nil =>
    simp only [linearize_syms, Except.ok.injEq] at h
    exact h ▸ .nil
  | cons sym syms ih =>
    obtain ⟨es, hes, h⟩ := Exec.bind_ok.1 h
    obtain ⟨rest, hrest, h⟩ := Exec.bind_ok.1 h
    simp only [Exec.pure_eq, Except.ok.injEq] at h
    subst h
    rw [eventTokens, List.flatMap_append]
    refine .cons ?_ (ih hrest)
    cases sym with
    | CAT d r => exact hlin d r es hes
    | LIT d r => exact hlin d r es hes
    | VAR d r => exact hlin d r es hes
    | KS tokens =>
      rw [linearize_sym, Except.ok.injEq] at hes
      simp [← hes, YieldsSym]
    | KP dflt alts =>
      rw [linearize_sym, Except.ok.injEq] at hes
      simp [← hes, YieldsSym]

/-- What `pgf_lzr_linearize` presents is among what the tree yields: it takes the
default form of every `KP`. -/
theorem linearize_yields {t : Tree} (ht : t.Whole) {r : Nat} {events : List PgfEvent}
    (h : pgf_lzr_linearize t.cnc r = .ok events) : t.Yields r (eventTokens events) := by
  induction ht generalizing r events with
  | @apply f args _ ih =>
    rw [Tree.cnc, Tree.cncs_eq, pgf_lzr_linearize] at h
    obtain ⟨seq, hseq, h⟩ := Exec.bind_ok.1 h
    obtain ⟨es, hes, h⟩ := Exec.bind_ok.1 h
    simp only [Exec.deref_ok, Exec.pure_eq, Except.ok.injEq] at hseq h
    subst h
    rw [Tree.Yields]
    change ∃ seq, f.lins[r]? = some seq ∧ YieldsSeq _ seq (eventTokens es)
    refine ⟨seq, hseq, linearize_syms_yields (fun d r es hd => ?_) hes⟩
    split at hd
    · rename_i hlt
      rw [List.length_map] at hlt
      rw [List.getElem_map] at hd
      exact ⟨hlt, ih _ (List.getElem_mem hlt) hd⟩
    · simp at hd
  | coerce _ ih =>
    rw [Tree.cnc] at h
    rw [Tree.Yields]
    exact ih h

end Libpgf
