import Libpgf.Gu.LocaleWrite
import Libpgf.Pgf.Concretize
import Libpgf.Pgf.ExprText
import Libpgf.Pgf.Labels
import Libpgf.Pgf.Linearize
import Libpgf.Pgf.Result
/-!
# Translating lines (`utils/pgf-translate.c`, `pgf/pgf.c`)

The program parses each line of its input in one concrete grammar, and writes
the linearizations of the expressions found in another one. Prompts do not go
through the writer, and are left out.
-/

namespace Libpgf

/-! ## Grammars (`pgf/pgf.c`) -/

/-- The characters of `" \n"`. -/
def isDelim (c : UInt8) : Bool := c = 0x20 || c = 0x0a

section Write
variable {σ : Type} (S : GuOutStreamFuns σ)

end Write

/-! ## The loop -/

section Translate
variable {P : PgfParser} {σ : Type} (S : GuOutStreamFuns σ) (fuel : Nat)

section Trees
variable (lzr : PgfLzr) (to_ctnt : Nat)

end Trees

end Translate

end Libpgf
