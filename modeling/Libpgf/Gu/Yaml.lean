import Libpgf.Gu.Text
/-!
# The YAML emitter (`gu/yaml.c`)

The emitter writes a document as it is called: for scalars, for the beginning and
the end of collections, and for the properties of the next node. What is written
is given by its code points, and a scalar by the code points that `gu_read_ucs`
reads from it. The counters of anchors and of levels are `int`s.

The punctuation before and after a node depends on the state, and the states of
the nodes around are on a stack.
-/

namespace Libpgf

namespace Yaml

abbrev Text := List GuUCS

/-! ## States and frames -/

inductive GuYamlState where
  | document
  | key
  | value
  | elem
  deriving DecidableEq, Repr

namespace GuYamlState

/-- Empty for a null pointer. -/
def prefix_ : GuYamlState → Text
  | document => codes ['-', '-', '-', '\n']
  | key => codes ['?', ' ']
  | value => codes [':', ' ']
  | elem => []

def suffix : GuYamlState → Text
  | document => codes ['\n', '.', '.', '.', '\n']
  | key => []
  | value => codes [',']
  | elem => codes [',']

def next : GuYamlState → GuYamlState
  | document => document
  | key => value
  | value => key
  | elem => elem

end GuYamlState

inductive GuYamlFrameClass where
  | mapping
  | sequence
  deriving DecidableEq, Repr

namespace GuYamlFrameClass

def open_ : GuYamlFrameClass → Text
  | mapping => codes ['{']
  | sequence => codes ['[']

def first : GuYamlFrameClass → GuYamlState
  | mapping => .key
  | sequence => .elem

def close : GuYamlFrameClass → Text
  | mapping => codes ['}']
  | sequence => codes [']']

end GuYamlFrameClass

structure GuYamlFrame where
  klass : GuYamlFrameClass
  next : GuYamlState

structure GuYaml where
  /-- What has been written to `wtr`. -/
  out : Text
  state : GuYamlState
  in_node : Bool
  have_anchor : Bool
  have_tag : Bool
  next_anchor : Nat
  indent : Bool
  indent_level : Int
  indented : Bool
  /-- The last frame first. -/
  stack : List GuYamlFrame

def gu_new_yaml : GuYaml where
  out := []
  state := .document
  in_node := false
  have_anchor := false
  have_tag := false
  next_anchor := 1
  indent := true
  indent_level := 0
  indented := false
  stack := []

/-! ## Nodes -/

/-- What has been written is `text` longer. -/
def GuYaml.write (yaml : GuYaml) (text : Text) : GuYaml := { yaml with out := yaml.out ++ text }

def gu_yaml_puts (yaml : GuYaml) (str : Text) : GuYaml := yaml.write str

def gu_yaml_putc (yaml : GuYaml) (c : Char) : GuYaml := yaml.write [c.toNat]

def gu_yaml_begin_line (yaml : GuYaml) : GuYaml :=
  if yaml.indent && !yaml.indented then { yaml.write (List.replicate yaml.indent_level.toNat ' '.toNat) with indented := true }
  else yaml

def gu_yaml_end_line (yaml : GuYaml) : GuYaml :=
  let yaml := if yaml.indent then gu_yaml_putc yaml '\n' else yaml
  { yaml with indented := false }

def gu_yaml_begin_node (yaml : GuYaml) : GuYaml :=
  let yaml := gu_yaml_begin_line yaml
  if !yaml.in_node then { gu_yaml_puts yaml yaml.state.prefix_ with in_node := true } else yaml

def gu_yaml_end_node (yaml : GuYaml) : Exec GuYaml := do
  Exec.require (yaml.in_node = true)
  let yaml := gu_yaml_end_line (gu_yaml_puts yaml yaml.state.suffix)
  return { yaml with in_node := false, have_anchor := false, have_tag := false, state := yaml.state.next }

def gu_yaml_begin (yaml : GuYaml) (klass : GuYamlFrameClass) : Exec GuYaml := do
  let yaml := gu_yaml_puts (gu_yaml_begin_node yaml) klass.open_
  let yaml := { yaml with stack := ⟨klass, yaml.state⟩ :: yaml.stack, state := klass.first }
  let yaml := gu_yaml_end_line { yaml with in_node := false, have_anchor := false, have_tag := false }
  let indent_level ← Exec.int (yaml.indent_level + 1)
  return { yaml with indent_level }

def gu_yaml_begin_mapping (yaml : GuYaml) : Exec GuYaml := gu_yaml_begin yaml .mapping

def gu_yaml_begin_sequence (yaml : GuYaml) : Exec GuYaml := gu_yaml_begin yaml .sequence

def gu_yaml_end (yaml : GuYaml) : Exec GuYaml := do
  Exec.require (yaml.in_node = false)
  let indent_level ← Exec.int (yaml.indent_level - 1)
  let yaml := gu_yaml_begin_line { yaml with indent_level }
  let f ← Exec.deref yaml.stack.head?
  let yaml := gu_yaml_puts { yaml with stack := yaml.stack.tail } f.klass.close
  gu_yaml_end_node { yaml with state := f.next, in_node := true }

/-! ## Scalars -/

/-- The table of escapes, where 0 is for no entry. -/
def esc (u : GuUCS) : GuUCS :=
  if u = 0 then '0'.toNat
  else if 0x07 ≤ u ∧ u ≤ 0x0d then (codes ['a', 'b', 't', 'n', 'v', 'f', 'r']).getD (u - 0x07) 0
  else if u = 0x1b then 'e'.toNat
  else 0

def hexDigit (d : Nat) : GuUCS := if d < 10 then '0'.toNat + d else 'a'.toNat + (d - 10)

/-- `%0<n>x`, for a number that has no more than `n` digits. -/
def hexDigits : Nat → Nat → Text
  | 0, _ => []
  | n + 1, u => hexDigits n (u / 16) ++ [hexDigit (u % 16)]

/-- What is written for one code point. -/
def gu_yaml_escape (u : GuUCS) : Exec Text :=
  if u ≥ 0x20 ∧ u < 0x7f then .ok (if u = 0x22 ∨ u = 0x5c then ['\\'.toNat, u] else [u])
  else if u < 0x20 ∧ esc u ≠ 0 then .ok ['\\'.toNat, esc u]
  else if u ≤ 0x9f then .ok (codes ['\\', 'x'] ++ hexDigits 2 u)
  else if (u ≥ 0xd800 ∧ u ≤ 0xdfff) ∨ (u ≥ 0xfffe ∧ u ≤ 0xffff) then .ok (codes ['\\', 'u'] ++ hexDigits 4 u)
  else do
    Exec.require (gu_ucs_valid u)
    return [u]

def gu_yaml_scalar (yaml : GuYaml) (s : List GuUCS) : Exec GuYaml := do
  let yaml := gu_yaml_putc (gu_yaml_begin_node yaml) '"'
  let yaml ← forEach (fun yaml u => do
    let text ← gu_yaml_escape u
    return yaml.write text) s yaml
  gu_yaml_end_node (gu_yaml_putc yaml '"')

/-! ## Properties -/

inductive YamlTag where
  | primary (tag : Text)
  | secondary (tag : Text)
  | named (handle tag : Text)
  | verbatim (uri : Text)
  | non_specific
  deriving DecidableEq

/-- What `gu_yaml_tag` formats. -/
def YamlTag.text : YamlTag → Text
  | primary tag => tag
  | secondary tag => '!'.toNat :: tag
  | named handle tag => handle ++ '!'.toNat :: tag
  | verbatim uri => '<'.toNat :: uri ++ ['>'.toNat]
  | non_specific => []

def gu_yaml_tag (yaml : GuYaml) (tag : YamlTag) : Exec GuYaml := do
  let yaml := gu_yaml_begin_node yaml
  Exec.require (yaml.have_tag = false)
  let yaml := gu_yaml_putc (gu_yaml_puts (gu_yaml_putc yaml '!') tag.text) ' '
  return { yaml with have_tag := true }

/-- `%d` -/
def decimal (n : Nat) : Text := codes (Nat.toDigits 10 n)

def gu_yaml_anchor (yaml : GuYaml) : Exec (GuYaml × Nat) := do
  let yaml := gu_yaml_begin_node yaml
  Exec.require (yaml.have_anchor = false)
  let anchor := yaml.next_anchor
  let next_anchor ← Exec.int (yaml.next_anchor + 1)
  let yaml := { yaml with have_anchor := true, next_anchor := next_anchor.toNat }
  return (gu_yaml_puts yaml ('&'.toNat :: decimal anchor ++ [' '.toNat]), anchor)

def gu_yaml_alias (yaml : GuYaml) (anchor : Nat) : Exec GuYaml := do
  let yaml := gu_yaml_begin_node yaml
  Exec.require (yaml.have_anchor = false ∧ yaml.have_tag = false)
  gu_yaml_end_node (gu_yaml_puts yaml ('*'.toNat :: decimal anchor ++ [' '.toNat]))

/-! ## Calls -/

inductive YamlCall where
  | scalar (s : List GuUCS)
  | begin_sequence
  | begin_mapping
  | end_
  | anchor
  | tag (tag : YamlTag)
  | alias_ (anchor : Nat)

/-- One call, and the anchors that are returned. -/
def YamlCall.run (yaml : GuYaml) : YamlCall → Exec (GuYaml × List Nat)
  | scalar s => do return (← gu_yaml_scalar yaml s, [])
  | begin_sequence => do return (← gu_yaml_begin_sequence yaml, [])
  | begin_mapping => do return (← gu_yaml_begin_mapping yaml, [])
  | end_ => do return (← gu_yaml_end yaml, [])
  | anchor => do
    let (yaml, a) ← gu_yaml_anchor yaml
    return (yaml, [a])
  | tag t => do return (← gu_yaml_tag yaml t, [])
  | alias_ a => do return (← gu_yaml_alias yaml a, [])

def runCalls (yaml : GuYaml) : List YamlCall → Exec (GuYaml × List Nat)
  | [] => .ok (yaml, [])
  | call :: calls => do
    let (yaml, as) ← call.run yaml
    let (yaml, as') ← runCalls yaml calls
    return (yaml, as ++ as')

/-! ## Trees -/

inductive YamlProp where
  | anchor (a : Nat)
  | tag (t : YamlTag)
  deriving DecidableEq

/-- An anchor is named by the number that `gu_yaml_anchor` returns for it. -/
inductive YamlNode where
  | scalar (props : List YamlProp) (s : List GuUCS)
  | alias_ (a : Nat)
  | sequence (props : List YamlProp) (elems : List YamlNode)
  | mapping (props : List YamlProp) (pairs : List (YamlNode × YamlNode))

def YamlProp.call : YamlProp → YamlCall
  | anchor _ => .anchor
  | tag t => .tag t

mutual

/-- The calls for a node. -/
def YamlNode.calls : YamlNode → List YamlCall
  | .scalar props s => props.map YamlProp.call ++ [.scalar s]
  | .alias_ a => [.alias_ a]
  | .sequence props elems => props.map YamlProp.call ++ .begin_sequence :: elemCalls elems ++ [.end_]
  | .mapping props pairs => props.map YamlProp.call ++ .begin_mapping :: pairCalls pairs ++ [.end_]

def elemCalls : List YamlNode → List YamlCall
  | [] => []
  | elem :: elems => elem.calls ++ elemCalls elems

def pairCalls : List (YamlNode × YamlNode) → List YamlCall
  | [] => []
  | (key, value) :: pairs => key.calls ++ value.calls ++ pairCalls pairs

end

end Yaml

end Libpgf
