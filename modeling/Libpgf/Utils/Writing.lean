import Libpgf.Lib.Enum
import Libpgf.Pgf.ExprRoundTrip
import Libpgf.Utils.PgfTranslate
/-!
# What is written for a line

The tokens of a line, and the text that is written for the expressions and
trees that are enumerated for it, in any locale and over any `GuOut` that hands
on what it is given.
-/

namespace Libpgf

/-! ## Tokens of a line -/

/-- The tokens between spaces and newlines. -/
def words (line : Bytes) : List Bytes := (line.splitOnP isDelim).filter (· ≠ [])

/-- The tokens as `pgf_lzr_linearize_simple` writes them. -/
def spaced (toks : List PgfToken) : Bytes := toks.flatMap fun tok => tok ++ [0x20]

section Write
variable {E : LocaleEncoder} {σ : Type} {S : GuOutStreamFuns σ} {init : Bytes} {v : OutView (fun _ => True) init S}
  {wtr wtr' : GuWriter (GuLocaleOutStream σ)}

/-- A writer borrows no buffer from its stream. -/
structure Ready (v : OutView (fun _ => True) init S) (wtr : GuWriter (GuLocaleOutStream σ)) : Prop where
  direct : wtr = gu_init_out wtr.stream
  ok : wtr.stream.Ok v

/-- The text has been written, and there is always room for more. -/
structure Wrote (v : OutView (fun _ => True) init S) (E : LocaleEncoder) (wtr : GuWriter (GuLocaleOutStream σ))
    (r : GuWriter (GuLocaleOutStream σ) × GuExn) (text : Bytes) : Prop where
  ok : r.2 = none
  ready : Ready v r.1
  taken : ∃ bytes, E.Converts text bytes ∧ r.1.stream.taken v E = wtr.stream.taken v E ++ bytes

namespace Wrote
variable {r r' : GuWriter (GuLocaleOutStream σ) × GuExn} {text text' : Bytes}

theorem refl (h : Ready v wtr) : Wrote v E wtr (wtr, none) [] := ⟨rfl, h, [], .nil, (List.append_nil _).symm⟩

theorem trans (h : Wrote v E wtr r text) (h' : Wrote v E r.1 r' text') : Wrote v E wtr r' (text ++ text') := by
  obtain ⟨bytes, hconv, htaken⟩ := h.taken
  obtain ⟨bytes', hconv', htaken'⟩ := h'.taken
  exact ⟨h'.ok, h'.ready, bytes ++ bytes', hconv.append hconv', by rw [htaken', htaken, List.append_assoc]⟩

end Wrote

/-- After a flush, what has been written is in the sink. -/
theorem flush_spec (hw : Ready v wtr) : ∃ wtr', wtr.gu_out_flush (gu_locale_writer_out_funs E S) none = .ok (wtr', none) ∧
    Wrote v E wtr (wtr', none) [] ∧ v.sink wtr'.stream.out.stream = wtr.stream.taken v E := by
  obtain ⟨los, rfl⟩ : ∃ los, wtr = gu_init_out los := ⟨_, hw.direct⟩
  have hlos : los.Ok v := hw.ok
  obtain ⟨los', hflush, hok, htaken, hsink⟩ := locale_flush_spec (E := E) hlos
  refine ⟨gu_init_out los', ?_, ⟨rfl, ⟨rfl, hok⟩, [], .nil, ?_⟩, hsink⟩
  · rw [locale_writer_flush_eq, hflush, Exec.ok_bind]
  · rw [List.append_nil]
    exact htaken

end Write

/-! ## The results of a line -/

/-- The tokens that are presented for a concrete tree. -/
def Linearizes (lin_idx : Nat) (tree : PgfCncTree) (out : List PgfToken) : Prop :=
  ∃ events, pgf_lzr_linearize tree lin_idx = .ok events ∧ eventTokens events = out

/-- The linearizations of the concrete trees of an expression, in the order in which these are enumerated. -/
def Concretized (lzr : PgfLzr) (fuel to_ctnt : Nat) (e : PgfExpr) (outs : List (List PgfToken)) : Prop :=
  ∃ trees, Yields (pgf_lzn_next lzr fuel) (pgf_lzr_concretize e) trees ∧ List.Forall₂ (Linearizes to_ctnt) trees outs

section Results
variable {P : PgfParser} {E : LocaleEncoder} {σ : Type} {S : GuOutStreamFuns σ} {init : Bytes} {v : OutView (fun _ => True) init S}
  {wtr : GuWriter (GuLocaleOutStream σ)} {lzr : PgfLzr} {fuel to_ctnt : Nat} {shows : Bool}

end Results

end Libpgf
