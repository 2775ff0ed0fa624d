import Libpgf.Gu.Yaml
/-!
# YAML text

A reader for the flow style of YAML: double-quoted scalars, sequences, mappings
whose keys are marked with `?`, tags, and anchors that are numbers. It is not in
the code, and says what the text of the emitter means. It knows no directives:
a tag whose handle would have to be declared by one is an error.

The text is cut into tokens by a machine that takes one code point at a time.
The tokens are read by recursive descent.
-/

namespace Libpgf

namespace Yaml

/-! ## Characters -/

def isBlank (c : GuUCS) : Bool := c = ' '.toNat || c = '\n'.toNat

/-- A character that may stand for itself between quotes: printable, and not a line break. -/
def isPlain (c : GuUCS) : Bool :=
  (0x20 ≤ c && c ≤ 0x7e) || (0xa0 ≤ c && c ≤ 0xd7ff) || (0xe000 ≤ c && c ≤ 0xfffd) || (0x10000 ≤ c && c ≤ 0x10ffff)

def digitValue (c : GuUCS) : Option Nat := if '0'.toNat ≤ c ∧ c ≤ '9'.toNat then some (c - '0'.toNat) else none

def hexValue (c : GuUCS) : Option Nat :=
  if '0'.toNat ≤ c ∧ c ≤ '9'.toNat then some (c - '0'.toNat)
  else if 'a'.toNat ≤ c ∧ c ≤ 'f'.toNat then some (c - 'a'.toNat + 10)
  else if 'A'.toNat ≤ c ∧ c ≤ 'F'.toNat then some (c - 'A'.toNat + 10)
  else none

def isWordChar (c : GuUCS) : Bool :=
  ('0'.toNat ≤ c && c ≤ '9'.toNat) || ('a'.toNat ≤ c && c ≤ 'z'.toNat) || ('A'.toNat ≤ c && c ≤ 'Z'.toNat) || c = '-'.toNat

def isUriChar (c : GuUCS) : Bool :=
  isWordChar c || (codes ['#', ';', '/', '?', ':', '@', '&', '=', '+', '$', ',', '_', '.', '!', '~', '*', '\'', '(', ')', '[', ']']).contains c

/-- A `%` comes with two hexadecimal digits. -/
def isUri : Text → Bool
  | [] => true
  | [c] => isUriChar c
  | [c, d] => isUriChar c && isUriChar d
  | c :: d :: e :: text =>
    if c = '%'.toNat then (hexValue d).isSome && (hexValue e).isSome && isUri text else isUriChar c && isUri (d :: e :: text)

def isFlowIndicator (c : GuUCS) : Bool := (codes [',', '[', ']', '{', '}']).contains c

def isTagText (text : Text) : Bool := !text.isEmpty && isUri text && text.all fun c => c != '!'.toNat && !isFlowIndicator c

/-! ## URIs

An absolute URI is a scheme, a colon and a hierarchy, and then a query and a
fragment. Of the characters that `isUri` lets pass, `#` stands only before the
fragment, and brackets stand only around an address that is the host. -/

def isAlpha (c : GuUCS) : Bool := ('a'.toNat ≤ c && c ≤ 'z'.toNat) || ('A'.toNat ≤ c && c ≤ 'Z'.toNat)

def isScheme : Text → Bool
  | [] => false
  | c :: rest => isAlpha c && rest.all fun c => isAlpha c || (digitValue c).isSome || (codes ['+', '-', '.']).contains c

/-- What stands before the first `c`, and what after it, if there is one. -/
def cut (c : GuUCS) (text : Text) : Text × Option Text :=
  (text.takeWhile (· != c), match text.dropWhile (· != c) with | [] => none | _ :: rest => some rest)

def noneOf (cs : List Char) (text : Text) : Bool := text.all fun c => !(codes cs).contains c

def isPort (text : Text) : Bool := text.all fun c => (digitValue c).isSome

def isGroup (text : Text) : Bool := !text.isEmpty && text.length ≤ 4 && text.all fun c => (hexValue c).isSome

def isOctet (text : Text) : Bool :=
  !text.isEmpty && isPort text && (text.length = 1 || text.head? != some '0'.toNat) &&
    text.foldl (fun n c => n * 10 + (c - '0'.toNat)) 0 ≤ 255

def isIPv4 (text : Text) : Bool :=
  let octets := text.splitOn '.'.toNat
  octets.length = 4 && octets.all isOctet

/-- How many groups of an address there are between colons. Only `last` ones may end with four octets, which are two groups. -/
def groupCount (last : Bool) (text : Text) : Option Nat :=
  if text.isEmpty then some 0
  else
    let groups := text.splitOn ':'.toNat
    let final := groups.getLastD []
    if !groups.dropLast.all isGroup then none
    else if isGroup final then some groups.length
    else if last && isIPv4 final then some (groups.length + 1)
    else none

/-- Up to the first of two colons, and after them. -/
def cutColons : Text → Text × Option Text
  | c :: d :: rest =>
    if c = ':'.toNat ∧ d = ':'.toNat then ([], some rest) else (c :: (cutColons (d :: rest)).1, (cutColons (d :: rest)).2)
  | text => (text, none)

def isIPv6 (text : Text) : Bool :=
  match cutColons text with
  | (groups, none) => groupCount true groups = some 8
  | (before, some behind) =>
    match groupCount false before, groupCount true behind with
    | some n, some m => n + m ≤ 7
    | _, _ => false

/-- An address of a version to come. -/
def isIPvFuture (text : Text) : Bool :=
  match text with
  | [] => false
  | v :: rest =>
    let (version, address) := cut '.'.toNat rest
    (v = 'v'.toNat || v = 'V'.toNat) && !version.isEmpty && version.all (fun c => (hexValue c).isSome) &&
      address.any fun address => !address.isEmpty && noneOf ['%', '@', '[', ']'] address

def isHost (text : Text) : Bool :=
  match text with
  | [] => true
  | c :: rest =>
    if c = '['.toNat then
      let (address, port) := cut ']'.toNat rest
      (isIPv6 address || isIPvFuture address) && port.any fun port =>
        match port with
        | [] => true
        | c :: port => c = ':'.toNat && isPort port
    else
      let (name, port) := cut ':'.toNat text
      noneOf ['@', '[', ']'] name && port.all isPort

def isAuthority (text : Text) : Bool :=
  match cut '@'.toNat text with
  | (host, none) => isHost host
  | (user, some host) => noneOf ['[', ']'] user && isHost host

def isHierarchy : Text → Bool
  | c :: d :: rest =>
    if c = '/'.toNat ∧ d = '/'.toNat then
      let (authority, path) := cut '/'.toNat rest
      isAuthority authority && path.all (noneOf ['[', ']'])
    else noneOf ['[', ']'] (c :: d :: rest)
  | text => noneOf ['[', ']'] text

def isAbsoluteUri (text : Text) : Bool :=
  match cut ':'.toNat text with
  | (_, none) => false
  | (scheme, some rest) =>
    let (front, fragment) := cut '#'.toNat rest
    let (hierarchy, query) := cut '?'.toNat front
    isUri text && isScheme scheme && isHierarchy hierarchy && query.all (noneOf ['[', ']']) && fragment.all (noneOf ['#', '[', ']'])

/-! ## Tags -/

namespace YamlTag

/-- What `!!` stands for where no directive says otherwise. -/
def secondaryPrefix : Text := codes "tag:yaml.org,2002:".toList

/-- The tag that a node gets is a local one, of a `!` and something more, or an absolute URI. -/
def valid : YamlTag → Bool
  | primary tag => isTagText tag
  | secondary tag => isTagText tag && isAbsoluteUri (secondaryPrefix ++ tag)
  | named handle tag => !handle.isEmpty && handle.all isWordChar && isTagText tag
  | verbatim uri => isUri uri && ((uri.head? = some '!'.toNat && uri.length > 1) || isAbsoluteUri uri)
  | non_specific => true

/-- Whether the handle is one that needs no directive. -/
def declared : YamlTag → Bool
  | named _ _ => false
  | _ => true

/-- A `!` after the first one ends a handle. -/
def split (text : Text) : YamlTag :=
  match text with
  | [] => .non_specific
  | c :: rest =>
    if c = '<'.toNat then .verbatim rest.dropLast
    else match text.dropWhile isWordChar with
      | d :: tag =>
        if d = '!'.toNat then
          let handle := text.takeWhile isWordChar
          if handle.isEmpty then .secondary tag else .named handle tag
        else .primary text
      | [] => .primary text

/-- What stands after the first `!`. -/
def read (text : Text) : Option YamlTag := if (split text).valid && (split text).text = text then some (split text) else none

end YamlTag

/-! ## Tokens -/

inductive YamlToken where
  | document_start
  | document_end
  | key
  | value
  | comma
  | sequence_start
  | sequence_end
  | mapping_start
  | mapping_end
  | prop (p : YamlProp)
  | alias_ (a : Nat)
  | scalar (s : List GuUCS)

inductive LexState where
  /-- Between tokens. -/
  | blank (line_start : Bool)
  /-- After some of the three characters of a marker of a document. -/
  | marker (token : YamlToken) (c : GuUCS) (rem : Nat)
  /-- After an indicator that is followed by a blank. -/
  | indicator (token : YamlToken)
  /-- Within the name of an anchor, or of an alias. -/
  | name (token : Nat → YamlToken) (n : Option Nat)
  | tag (text : Text)
  | quoted (s : List GuUCS)
  | escaped (s : List GuUCS)
  /-- Within `rem` hexadecimal digits, of which the first ones have the value `n`. -/
  | hex (s : List GuUCS) (rem n : Nat)

/-- What a character after a backslash stands for. -/
def escapes : List (GuUCS × GuUCS) :=
  [('0'.toNat, 0), ('a'.toNat, 0x07), ('b'.toNat, 0x08), ('t'.toNat, 0x09), ('n'.toNat, 0x0a), ('v'.toNat, 0x0b), ('f'.toNat, 0x0c),
    ('r'.toNat, 0x0d), ('e'.toNat, 0x1b), (' '.toNat, 0x20), ('"'.toNat, 0x22), ('/'.toNat, 0x2f), ('\\'.toNat, 0x5c), ('N'.toNat, 0x85),
    ('_'.toNat, 0xa0), ('L'.toNat, 0x2028), ('P'.toNat, 0x2029)]

namespace LexState

/-- A character between tokens. -/
def start (line_start : Bool) (c : GuUCS) : Option (LexState × List YamlToken) :=
  if c = ' '.toNat then some (blank false, [])
  else if c = '\n'.toNat then some (blank true, [])
  else if c = ','.toNat then some (blank false, [.comma])
  else if c = '['.toNat then some (blank false, [.sequence_start])
  else if c = ']'.toNat then some (blank false, [.sequence_end])
  else if c = '{'.toNat then some (blank false, [.mapping_start])
  else if c = '}'.toNat then some (blank false, [.mapping_end])
  else if c = '?'.toNat then some (indicator .key, [])
  else if c = ':'.toNat then some (indicator .value, [])
  else if c = '&'.toNat then some (name (fun a => .prop (.anchor a)) none, [])
  else if c = '*'.toNat then some (name .alias_ none, [])
  else if c = '!'.toNat then some (tag [], [])
  else if c = '"'.toNat then some (quoted [], [])
  else if line_start && c = '-'.toNat then some (marker .document_start c 2, [])
  else if line_start && c = '.'.toNat then some (marker .document_end c 2, [])
  else none

def step : LexState → GuUCS → Option (LexState × List YamlToken)
  | blank line_start, c => start line_start c
  | marker token d rem, c =>
    if rem = 0 then if isBlank c then some (blank (c = '\n'.toNat), [token]) else none
    else if c = d then some (marker token d (rem - 1), []) else none
  | indicator token, c => if isBlank c then some (blank (c = '\n'.toNat), [token]) else none
  | name token n, c =>
    if isBlank c then n.map fun n => (blank (c = '\n'.toNat), [token n])
    else (digitValue c).map fun d => (name token (some (n.getD 0 * 10 + d)), [])
  | tag text, c =>
    if isBlank c then (YamlTag.read text).map fun t => (blank (c = '\n'.toNat), [.prop (.tag t)])
    else some (tag (text ++ [c]), [])
  | quoted s, c =>
    if c = '"'.toNat then some (blank false, [.scalar s])
    else if c = '\\'.toNat then some (escaped s, [])
    else if isPlain c then some (quoted (s ++ [c]), [])
    else none
  | escaped s, c =>
    if c = 'x'.toNat then some (hex s 2 0, [])
    else if c = 'u'.toNat then some (hex s 4 0, [])
    else if c = 'U'.toNat then some (hex s 8 0, [])
    else (escapes.lookup c).map fun u => (quoted (s ++ [u]), [])
  | hex s rem n, c =>
    match hexValue c with
    | none => none
    | some d =>
      let n := n * 16 + d
      if rem ≤ 1 then if gu_ucs_valid n then some (quoted (s ++ [n]), []) else none
      else some (hex s (rem - 1) n, [])

/-- The tokens of a text, and the state after it. -/
def run : LexState → Text → Option (LexState × List YamlToken)
  | st, [] => some (st, [])
  | st, c :: text => do
    let (st, tokens) ← st.step c
    let (st, tokens') ← run st text
    return (st, tokens ++ tokens')

def inQuotes : LexState → Bool
  | quoted _ | escaped _ | hex _ _ _ => true
  | _ => false

/-- What stands between quotes in a text. -/
def quotes (st : LexState) : Text → Text
  | [] => []
  | c :: text =>
    match st.step c with
    | none => []
    | some (st', _) => if st.inQuotes && st'.inQuotes then c :: quotes st' text else quotes st' text

end LexState

/-! ## Nodes -/

def YamlProp.isAnchor : YamlProp → Bool
  | anchor _ => true
  | tag _ => false

def YamlProp.isTag : YamlProp → Bool
  | anchor _ => false
  | tag _ => true

/-- A node has one anchor and one tag at most. -/
def propsOk (props : List YamlProp) : Bool := props.countP YamlProp.isAnchor ≤ 1 && props.countP YamlProp.isTag ≤ 1

def readProps : List YamlToken → List YamlProp × List YamlToken
  | .prop p :: tokens => (p :: (readProps tokens).1, (readProps tokens).2)
  | tokens => ([], tokens)

mutual

/-- A node at the beginning of the tokens, and what is left of them. The bound is on the depth. -/
def readNode : Nat → List YamlToken → Option (YamlNode × List YamlToken)
  | 0, _ => none
  | n + 1, tokens =>
    let (props, tokens) := readProps tokens
    if !propsOk props then none
    else match tokens with
      | .scalar s :: tokens => some (.scalar props s, tokens)
      | .alias_ a :: tokens => if props.isEmpty then some (.alias_ a, tokens) else none
      | .sequence_start :: tokens => (readElems n tokens).map fun r => (.sequence props r.1, r.2)
      | .mapping_start :: tokens => (readPairs n tokens).map fun r => (.mapping props r.1, r.2)
      | _ => none

/-- The comma after the last element may be left out. -/
def readElems : Nat → List YamlToken → Option (List YamlNode × List YamlToken)
  | 0, _ => none
  | n + 1, tokens =>
    match tokens with
    | .sequence_end :: tokens => some ([], tokens)
    | tokens => do
      let (elem, tokens) ← readNode n tokens
      match tokens with
      | .comma :: tokens =>
        let (elems, tokens) ← readElems n tokens
        return (elem :: elems, tokens)
      | .sequence_end :: tokens => return ([elem], tokens)
      | _ => none

def readPairs : Nat → List YamlToken → Option (List (YamlNode × YamlNode) × List YamlToken)
  | 0, _ => none
  | n + 1, tokens =>
    match tokens with
    | .mapping_end :: tokens => some ([], tokens)
    | .key :: tokens => do
      let (key, tokens) ← readNode n tokens
      match tokens with
      | .value :: tokens =>
        let (value, tokens) ← readNode n tokens
        match tokens with
        | .comma :: tokens =>
          let (pairs, tokens) ← readPairs n tokens
          return ((key, value) :: pairs, tokens)
        | .mapping_end :: tokens => return ([(key, value)], tokens)
        | _ => none
      | _ => none
    | _ => none

end

def YamlToken.declared : YamlToken → Bool
  | prop (.tag t) => t.declared
  | _ => true

/-- A text that is one document. There are no directives in front of it, so that all handles must be declared without one. -/
def readDocument (text : Text) : Option YamlNode := do
  let (st, tokens) ← LexState.run (.blank true) text
  if !tokens.all YamlToken.declared then none
  else match st, tokens with
    | .blank _, .document_start :: tokens =>
      let (node, tokens) ← readNode (tokens.length + 1) tokens
      match tokens with
      | [.document_end] => return node
      | _ => none
    | _, _ => none

end Yaml

end Libpgf
