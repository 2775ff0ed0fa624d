import Libpgf.Lib.Exec
/-!
# Exceptions (`gu/exn.c`)

A frame is as far as the code looks at it: whether an exception has been raised,
and which. A frame that has caught one keeps it.
-/

namespace Libpgf

/-- The types of exceptions that the modelled code raises. -/
inductive GuExnType where
  | GuEOF
  | GuUCSExn
  | GuIntDecodeExn
  | PgfReadExn
  | PgfReadTagExn
  deriving DecidableEq, Repr

/-- A frame that catches all exceptions: what it has caught. -/
abbrev GuExn := Option GuExnType

def gu_ok (err : GuExn) : Bool := err.isNone

def gu_raise (err : GuExn) (type : GuExnType) : GuExn := err.or (some type)

@[simp] theorem gu_ok_none : gu_ok none = true := rfl

@[simp] theorem gu_ok_some (type : GuExnType) : gu_ok (some type) = false := rfl

@[simp] theorem gu_raise_none (type : GuExnType) : gu_raise none type = some type := rfl

@[simp] theorem gu_raise_some (t type : GuExnType) : gu_raise (some t) type = some t := rfl

end Libpgf
