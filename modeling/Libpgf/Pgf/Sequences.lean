import Libpgf.Pgf.Strings
/-!
# Symbols of a grammar file (`pgf/reader.c`, `pgf/data.c`)

The typed reader walks the type that it reads. Here it does so for the types of
the sequences of symbols: a `GuSeq` comes as its length and its elements, a
struct as its members, and a `GuVariant` as the number of its constructor and
what that has. After each part the reader looks at its frame.
-/

namespace Libpgf

/-- The types that the exceptions name. -/
inductive PgfTagType where
  | GuLength | PgfSymbol
  deriving DecidableEq

structure PgfTagExn where
  type : PgfTagType
  tag : Int
  deriving DecidableEq

/-- The stream and the frame of a `PgfReader`. -/
structure PgfRdr (σ : Type) where
  in_ : GuIn σ
  err : GuExn
  exn : Option PgfTagExn

instance : Inhabited PgfSymbol := ⟨.CAT 0 0⟩
instance : Inhabited PgfAlternative := ⟨⟨[], []⟩⟩

section Read
variable {σ α : Type} (S : GuInStreamFuns σ)

def rdr_ok (rdr : PgfRdr σ) : Bool := gu_ok rdr.err

def rdr_u8 (rdr : PgfRdr σ) : Exec (UInt8 × PgfRdr σ) := do
  let (u, in_, err) ← pgf_read_u8 S rdr.in_ rdr.err
  return (u, { rdr with in_, err })

def rdr_len (rdr : PgfRdr σ) : Exec (Nat × PgfRdr σ) := do
  let (len, in_, err, exn) ← pgf_read_len S rdr.in_ rdr.err
  return (len, ⟨in_, err, exn.map fun e => ⟨.GuLength, e.tag⟩⟩)

def pgf_read_to_int32_t (rdr : PgfRdr σ) : Exec (Int × PgfRdr σ) := do
  let (i, in_, err) ← pgf_read_int S rdr.in_ rdr.err
  return (i, { rdr with in_, err })

def read_GuString (rdr : PgfRdr σ) : Exec (GuString × PgfRdr σ) := do
  let (s, in_, err, exn) ← pgf_read_to_GuString S rdr.in_ rdr.err
  return (s, ⟨in_, err, exn.map fun e => ⟨.GuLength, e.tag⟩⟩)

/-- `pgf_read_to_GuSeq`, with the reader of its elements. -/
def read_GuSeq [Inhabited α] (elem : PgfRdr σ → Exec (α × PgfRdr σ)) : PgfRdr σ → Exec (List α × PgfRdr σ) :=
  thenRead rdr_ok (rdr_len S) fun length => readEach rdr_ok elem length

def raise_tag [Inhabited α] (type : PgfTagType) (tag : UInt8) (rdr : PgfRdr σ) : Exec (α × PgfRdr σ) :=
  .ok (default, { rdr with err := gu_raise rdr.err .PgfReadTagExn, exn := some ⟨type, tag.toNat⟩ })

/-- `pgf_read_to_GuVariant`, with the readers of its constructors. -/
def pgf_read_to_GuVariant [Inhabited α] (type : PgfTagType) (ctors : List (PgfRdr σ → Exec (α × PgfRdr σ))) : PgfRdr σ → Exec (α × PgfRdr σ) :=
  thenRead rdr_ok (rdr_u8 S) fun btag => ctors.getD btag.toNat (raise_tag type btag)

/-- `pgf_read_to_struct` for a struct of two members. -/
def pgf_read_to_struct {α β γ : Type} [Inhabited γ] (mk : α → β → γ) (fst : PgfRdr σ → Exec (α × PgfRdr σ)) (snd : PgfRdr σ → Exec (β × PgfRdr σ)) :
    PgfRdr σ → Exec (γ × PgfRdr σ) :=
  thenRead rdr_ok fst fun a => thenRead rdr_ok snd fun b rdr => .ok (mk a b, rdr)

/-- A struct of one. -/
def pgf_read_to_struct1 {α γ : Type} [Inhabited γ] (mk : α → γ) (fst : PgfRdr σ → Exec (α × PgfRdr σ)) : PgfRdr σ → Exec (γ × PgfRdr σ) :=
  thenRead rdr_ok fst fun a rdr => .ok (mk a, rdr)

/-- An `int32_t` that is used as an index. -/
def asIndex (i : Int) : Nat := (i % 2 ^ 64).toNat

def read_PgfTokens : PgfRdr σ → Exec (PgfTokens × PgfRdr σ) := read_GuSeq S (read_GuString S)

def read_PgfAlternative : PgfRdr σ → Exec (PgfAlternative × PgfRdr σ) := pgf_read_to_struct PgfAlternative.mk (read_PgfTokens S) (read_PgfTokens S)

def read_PgfSymbolIdx (mk : Nat → Nat → PgfSymbol) : PgfRdr σ → Exec (PgfSymbol × PgfRdr σ) :=
  pgf_read_to_struct (fun d r => mk (asIndex d) (asIndex r)) (pgf_read_to_int32_t S) (pgf_read_to_int32_t S)

def read_PgfSymbol : PgfRdr σ → Exec (PgfSymbol × PgfRdr σ) :=
  pgf_read_to_GuVariant S .PgfSymbol [read_PgfSymbolIdx S .CAT, read_PgfSymbolIdx S .LIT, read_PgfSymbolIdx S .VAR,
    pgf_read_to_struct1 .KS (read_PgfTokens S), pgf_read_to_struct .KP (read_PgfTokens S) (read_GuSeq S (read_PgfAlternative S))]

def read_PgfSequence : PgfRdr σ → Exec (PgfSequence × PgfRdr σ) := read_GuSeq S (read_PgfSymbol S)

/-- `pgf_read_to_idarray`: what is read becomes current, unless an exception is raised. -/
def pgf_read_to_idarray (seq : PgfRdr σ → Exec (List α × PgfRdr σ)) (curr : List α) (rdr : PgfRdr σ) : Exec (List α × PgfRdr σ) := do
  let (read, rdr) ← seq rdr
  return (if rdr_ok rdr then read else curr, rdr)

/-- Reads `curr_sequences`. -/
def read_PgfSequences : List PgfSequence → PgfRdr σ → Exec (List PgfSequence × PgfRdr σ) := pgf_read_to_idarray (read_GuSeq S (read_PgfSequence S))

end Read

/-! ## The format -/

/-- The bytes of a character that `gu_in_utf8` takes, and its code point. -/
structure Utf8Unit where
  bytes : Bytes
  ucs : GuUCS
  valid : gu_ucs_valid ucs = true
  whole : ∀ rest, utf8Next (bytes ++ rest) = (ucs, none, rest)
  cut : ∀ {pre more}, bytes = pre ++ more → more ≠ [] → (utf8Next pre).2.1 ≠ none

def octet : Format UInt8 UInt8 := fun bs b => bs = [b]

def StringBytes : Format UInt8 GuString := fun bs s => ∃ bytes, ∃ units : List Utf8Unit,
  bs = bytes ++ units.flatMap Utf8Unit.bytes ∧ LenBytes bytes units.length ∧ s = ucsText (units.map Utf8Unit.ucs) ∧ s.length < 256

namespace Format
variable {α β γ : Type}

def guSeq (F : Format UInt8 α) : Format UInt8 (List α) := andThen LenBytes fun n => each F n

def struct (mk : α → β → γ) (F : Format UInt8 α) (G : Format UInt8 β) : Format UInt8 γ := F.andThen fun a => G.andThen fun b => nothing (mk a b)

def guVariant (ctors : List (Format UInt8 α)) : Format UInt8 α := octet.andThen fun btag => ctors.getD btag.toNat never

end Format

def TokensBytes : Format UInt8 PgfTokens := .guSeq StringBytes

def AlternativeBytes : Format UInt8 PgfAlternative := .struct PgfAlternative.mk TokensBytes TokensBytes

def IdxBytes (mk : Nat → Nat → PgfSymbol) : Format UInt8 PgfSymbol := .struct (fun d r => mk (asIndex d) (asIndex r)) IntBytes IntBytes

def SymbolBytes : Format UInt8 PgfSymbol := .guVariant [IdxBytes .CAT, IdxBytes .LIT, IdxBytes .VAR,
  TokensBytes.andThen fun tokens => .nothing (.KS tokens), .struct .KP TokensBytes (.guSeq AlternativeBytes)]

/-- The bytes of the sequences of a concrete syntax. -/
def SequencesBytes : Format UInt8 (List PgfSequence) := .guSeq (.guSeq SymbolBytes)

/-! ## The parts -/

/-- The state of a reader of which `total` bytes come in all. -/
def rdrStates {σ : Type} (S : GuInStreamFuns σ) (total : Nat) : ReaderStates (PgfRdr σ) UInt8 where
  ok := rdr_ok
  At rdr rem := rdr.err = none ∧ InAt S total rdr.in_ rem
  at_ok := by
    rintro ⟨in_, err, exn⟩ rem ⟨rfl, -⟩
    rfl

section Reads
variable {σ α β γ : Type} {S : GuInStreamFuns σ} {total : Nat}

theorem u8_reads : ReadsFormat (rdrStates S total) (rdr_u8 S) octet where
  whole := by
    rintro ⟨in_, err, exn⟩ bs rest b ⟨rfl, pos, hsource, htotal⟩ rfl
    rcases read_u8_spec hsource with ⟨hnil, -⟩ | ⟨b', rest', in', heq, hrun, hsource'⟩
    · cases hnil
    · cases heq
      refine ⟨⟨in', none, exn⟩, by rw [rdr_u8, hrun]; rfl, rfl, _, hsource', ?_⟩
      rw [← htotal, List.singleton_append, List.length_cons]
      omega
  cut := by
    rintro ⟨in_, err, exn⟩ pre more b ⟨rfl, pos, hsource, -⟩ hb hmore
    have hlen : (pre ++ more).length = 1 := congrArg List.length hb
    have hpos := List.length_pos_iff.2 hmore
    rw [List.length_append] at hlen
    obtain rfl : pre = [] := List.length_eq_zero_iff.1 (by omega)
    rcases read_u8_spec hsource with ⟨-, in', hrun⟩ | ⟨b', rest', in', heq, -, -⟩
    · exact ⟨0, ⟨in', some .GuEOF, exn⟩, by rw [rdr_u8, hrun]; rfl, rfl⟩
    · cases heq
  only := by
    rintro ⟨in_, err, exn⟩ rem b rdr' ⟨rfl, pos, hsource, htotal⟩ hrun
    rcases read_u8_spec hsource with ⟨-, in', hrun'⟩ | ⟨b', rest', in', rfl, hrun', hsource'⟩
    all_goals
      rw [rdr_u8, hrun'] at hrun
      cases hrun
    · exact .inl rfl
    · refine .inr ⟨[_], rest', rfl, rfl, rfl, _, hsource', ?_⟩
      rw [← htotal, List.length_cons]
      omega

theorem int_reads : ReadsFormat (rdrStates S total) (pgf_read_to_int32_t S) IntBytes where
  whole := by
    rintro ⟨in_, err, exn⟩ bs rest i ⟨rfl, hat⟩ hi
    obtain ⟨in', hrun, hat'⟩ := read_int_whole hat hi
    exact ⟨⟨in', none, exn⟩, by rw [pgf_read_to_int32_t, hrun]; rfl, rfl, hat'⟩
  cut := by
    rintro ⟨in_, err, exn⟩ pre more i ⟨rfl, hat⟩ hi hmore
    obtain ⟨i', in', t, hrun⟩ := read_int_cut hat hi hmore
    exact ⟨i', ⟨in', some t, exn⟩, by rw [pgf_read_to_int32_t, hrun]; rfl, rfl⟩
  only := by
    rintro ⟨in_, err, exn⟩ rem i rdr' ⟨rfl, hat⟩ hrun
    obtain ⟨⟨i', in', err'⟩, hint, hrun⟩ := Exec.bind_ok.1 hrun
    cases hrun
    cases err' with
    | some t => exact .inl rfl
    | none =>
      obtain ⟨bytes, rest, hrem, hbytes, hat'⟩ := read_int_only hat hint
      exact .inr ⟨bytes, rest, hrem, hbytes, rfl, hat'⟩

theorem len_reads : ReadsFormat (rdrStates S total) (rdr_len S) LenBytes where
  whole := by
    rintro ⟨in_, err, exn⟩ bs rest len ⟨rfl, hat⟩ hlen
    obtain ⟨in', hrun, hat'⟩ := read_len_whole hat hlen
    exact ⟨⟨in', none, none⟩, by rw [rdr_len, hrun]; rfl, rfl, hat'⟩
  cut := by
    rintro ⟨in_, err, exn⟩ pre more len ⟨rfl, hat⟩ hlen hmore
    obtain ⟨in', t, hrun⟩ := read_len_cut hat hlen hmore
    exact ⟨0, ⟨in', some t, none⟩, by rw [rdr_len, hrun]; rfl, rfl⟩
  only := by
    rintro ⟨in_, err, exn⟩ rem len rdr' ⟨rfl, hat⟩ hrun
    obtain ⟨⟨len', in', err', tag⟩, hlen, hrun⟩ := Exec.bind_ok.1 hrun
    cases hrun
    cases err' with
    | some t => exact .inl rfl
    | none =>
      obtain ⟨-, bytes, rest, hrem, hbytes, hat'⟩ := read_len_only hat hlen
      exact .inr ⟨bytes, rest, hrem, hbytes, rfl, hat'⟩

theorem unit_spells : Spells utf8Next Utf8Unit.bytes Utf8Unit.ucs where
  valid := Utf8Unit.valid
  whole := Utf8Unit.whole
  cut {a} := a.cut

/-- What is taken for a character is one, whatever comes after it. -/
theorem Utf8Outcome.unit {rem rest : Bytes} {ucs : GuUCS} (h : Utf8Outcome rem ucs none rest) :
    ∃ u : Utf8Unit, rem = u.bytes ++ rest ∧ u.ucs = ucs := by
  have hvalid := h.valid
  -- a part of `c :: tail` ends in the middle of a sequence
  have hcut : ∀ {c : UInt8} {tail pre more : Bytes}, tail.length = gu_in_utf8_len c → c :: tail = pre ++ more → more ≠ [] →
      (utf8Next pre).2.1 ≠ none := by
    intro c tail pre more hlen heq hmore
    cases pre with
    | nil => exact Option.some_ne_none _
    | cons c' got =>
      rw [List.cons_append] at heq
      obtain ⟨rfl, rfl⟩ := List.cons.inj heq
      have hpos := List.length_pos_iff.2 hmore
      rw [List.length_append] at hlen
      have hnext : utf8Next (c :: got) = (0, some .GuUCSExn, []) := if_pos (by omega)
      rw [hnext]
      exact Option.some_ne_none _
  cases h with
  | ascii hc =>
    have hlen := in_len_ascii hc
    exact ⟨⟨_ :: [], _, hvalid, fun rest' => (Utf8Outcome.ascii hc).next, hcut hlen.symm⟩, rfl, rfl⟩
  | taken hlen hlo hhi habove hu =>
    exact ⟨⟨_ :: _, _, hvalid, fun rest' => (Utf8Outcome.taken hlen hlo hhi habove hu).next, hcut (hlen.trans (in_len_lead hlo).symm)⟩, rfl, rfl⟩

theorem charsNext_units {n : Nat} {body rest : Bytes} {codes : List GuUCS} (h : charsNext utf8Next n body = some (codes, rest)) :
    ∃ units : List Utf8Unit, body = units.flatMap Utf8Unit.bytes ++ rest ∧ codes = units.map Utf8Unit.ucs := by
  induction n generalizing body codes with
  | zero =>
    cases h
    exact ⟨[], rfl, rfl⟩
  | succ n ih =>
    obtain ⟨ucs, in', err, rest₁, -, hout, -, -⟩ := in_utf8_source (InReach.start (.data body)).source
    rw [charsNext, hout.next] at h
    cases err with
    | some t => cases h
    | none =>
      obtain ⟨⟨codes', rest'⟩, hmore, heq⟩ := Option.map_eq_some_iff.1 h
      cases heq
      obtain ⟨units, rfl, rfl⟩ := ih hmore
      obtain ⟨u, rfl, rfl⟩ := hout.unit
      exact ⟨u :: units, by rw [List.flatMap_cons, List.append_assoc], rfl⟩

theorem string_reads : ReadsFormat (rdrStates S total) (read_GuString S) StringBytes where
  whole := by
    rintro ⟨in_, err, exn⟩ bs rest s ⟨rfl, hat⟩ ⟨bytes, units, rfl, hlen, rfl, hlt⟩
    have hat : InAt S total in_ (bytes ++ (units.flatMap Utf8Unit.bytes ++ rest)) := by rwa [← List.append_assoc]
    obtain ⟨in', hat', hrun⟩ := read_string_whole utf8_gets unit_spells hlen hat
    rw [if_pos hlt] at hrun
    exact ⟨⟨in', none, none⟩, by rw [read_GuString, pgf_read_to_GuString, hrun]; rfl, rfl, hat'⟩
  cut := by
    rintro ⟨in_, err, exn⟩ pre more s ⟨rfl, hat⟩ ⟨bytes, units, heq, hlen, rfl, hlt⟩ hmore
    obtain ⟨s', in', t, tag, hrun⟩ := read_string_cut utf8_gets unit_spells hlen hlt heq.symm hmore hat
    exact ⟨s', ⟨in', some t, _⟩, by rw [read_GuString, pgf_read_to_GuString, hrun]; rfl, rfl⟩
  only := by
    rintro ⟨in_, err, exn⟩ rem s rdr' ⟨rfl, hat⟩ hrun
    obtain ⟨⟨s', in', err', tag⟩, hstring, hrun⟩ := Exec.bind_ok.1 hrun
    cases hrun
    cases err' with
    | some t => exact .inl rfl
    | none =>
      obtain ⟨-, hlt, bytes, body, rest, codes, rfl, hlen, hnext, rfl, hat'⟩ := read_string_only utf8_gets hat hstring
      obtain ⟨units, rfl, rfl⟩ := charsNext_units hnext
      rw [List.length_map] at hlen
      exact .inr ⟨bytes ++ units.flatMap Utf8Unit.bytes, rest, (List.append_assoc _ _ _).symm, ⟨bytes, units, rfl, hlen, rfl, hlt⟩, rfl, hat'⟩

/-! ## The types -/

theorem seq_reads [Inhabited α] {elem : PgfRdr σ → Exec (α × PgfRdr σ)} {F : Format UInt8 α} (h : ReadsFormat (rdrStates S total) elem F) :
    ReadsFormat (rdrStates S total) (read_GuSeq S elem) (.guSeq F) := len_reads.andThen fun length => h.each length

theorem struct_reads [Inhabited γ] {mk : α → β → γ} {fst : PgfRdr σ → Exec (α × PgfRdr σ)} {snd : PgfRdr σ → Exec (β × PgfRdr σ)}
    {F : Format UInt8 α} {G : Format UInt8 β} (h : ReadsFormat (rdrStates S total) fst F) (h' : ReadsFormat (rdrStates S total) snd G) :
    ReadsFormat (rdrStates S total) (pgf_read_to_struct mk fst snd) (.struct mk F G) :=
  h.andThen fun a => h'.andThen fun b => .nothing (mk a b)

theorem raise_reads [Inhabited α] (type : PgfTagType) (tag : UInt8) :
    ReadsFormat (rdrStates S total) (raise_tag (σ := σ) (α := α) type tag) .never := by
  refine .never fun rdr => ⟨_, _, rfl, ?_⟩
  cases rdr.err <;> simp [rdrStates, rdr_ok, gu_raise]

/-- Each constructor is read by its own reader. -/
theorem ctors_reads {ctors : List (PgfRdr σ → Exec (α × PgfRdr σ))} {Fs : List (Format UInt8 α)}
    (h : List.Forall₂ (ReadsFormat (rdrStates S total)) ctors Fs) {raise : PgfRdr σ → Exec (α × PgfRdr σ)}
    (hraise : ReadsFormat (rdrStates S total) raise .never) (n : Nat) :
    ReadsFormat (rdrStates S total) (ctors.getD n raise) (Fs.getD n .never) := by
  induction h generalizing n with
  | nil => exact hraise
  | cons hhead _ ih =>
    cases n with
    | zero => exact hhead
    | succ n => exact ih n

theorem variant_reads [Inhabited α] {type : PgfTagType} {ctors : List (PgfRdr σ → Exec (α × PgfRdr σ))} {Fs : List (Format UInt8 α)}
    (h : List.Forall₂ (ReadsFormat (rdrStates S total)) ctors Fs) :
    ReadsFormat (rdrStates S total) (pgf_read_to_GuVariant S type ctors) (.guVariant Fs) :=
  u8_reads.andThen fun btag => ctors_reads h (raise_reads type btag) btag.toNat

theorem tokens_reads : ReadsFormat (rdrStates S total) (read_PgfTokens S) TokensBytes := seq_reads string_reads

theorem idx_reads (mk : Nat → Nat → PgfSymbol) : ReadsFormat (rdrStates S total) (read_PgfSymbolIdx S mk) (IdxBytes mk) :=
  struct_reads int_reads int_reads

theorem symbol_reads : ReadsFormat (rdrStates S total) (read_PgfSymbol S) SymbolBytes := by
  apply variant_reads
  refine .cons (idx_reads _) (.cons (idx_reads _) (.cons (idx_reads _) (.cons ?_ (.cons ?_ .nil))))
  · exact tokens_reads.andThen fun tokens => .nothing (PgfSymbol.KS tokens)
  · exact struct_reads tokens_reads (seq_reads (struct_reads tokens_reads tokens_reads))

theorem idarray_ok {seq : PgfRdr σ → Exec (List α × PgfRdr σ)} {curr as : List α} {rdr rdr' : PgfRdr σ} (hrun : seq rdr = .ok (as, rdr')) :
    pgf_read_to_idarray seq curr rdr = .ok (if rdr_ok rdr' then as else curr, rdr') := by
  rw [pgf_read_to_idarray, hrun]
  rfl

theorem idarray_reads {seq : PgfRdr σ → Exec (List α × PgfRdr σ)} {F : Format UInt8 (List α)} (h : ReadsFormat (rdrStates S total) seq F)
    (curr : List α) : ReadsFormat (rdrStates S total) (pgf_read_to_idarray seq curr) F where
  whole := by
    intro rdr bs rest as hat hbs
    obtain ⟨rdr', hrun, hat'⟩ := h.whole hat hbs
    have hok : rdr_ok rdr' = true := (rdrStates S total).at_ok hat'
    exact ⟨rdr', by rw [idarray_ok hrun, hok, if_pos rfl], hat'⟩
  cut := by
    intro rdr pre more as hat hbs hmore
    obtain ⟨as', rdr', hrun, hraised⟩ := h.cut hat hbs hmore
    exact ⟨_, rdr', idarray_ok hrun, hraised⟩
  only := by
    intro rdr rem as rdr' hat hrun
    obtain ⟨⟨as', rdr''⟩, hseq, hrun'⟩ := Exec.bind_ok.1 hrun
    rw [idarray_ok hseq] at hrun
    cases hrun
    rcases h.only hat hseq with hraised | ⟨bs, rest, hrem, hbs, hat'⟩
    · exact .inl hraised
    · have hok : rdr_ok rdr' = true := (rdrStates S total).at_ok hat'
      rw [hok, if_pos rfl]
      exact .inr ⟨bs, rest, hrem, hbs, hat'⟩

/-- After an exception the array is the one that was current. -/
theorem idarray_raised {seq : PgfRdr σ → Exec (List α × PgfRdr σ)} {curr as : List α} {rdr rdr' : PgfRdr σ}
    (hrun : pgf_read_to_idarray seq curr rdr = .ok (as, rdr')) (hraised : rdr_ok rdr' = false) : as = curr := by
  obtain ⟨⟨as', rdr''⟩, hseq, -⟩ := Exec.bind_ok.1 hrun
  rw [idarray_ok hseq] at hrun
  cases hrun
  rw [hraised]
  rfl

theorem sequences_reads : ReadsFormat (rdrStates S total) (read_GuSeq S (read_PgfSequence S)) SequencesBytes := seq_reads (seq_reads symbol_reads)

end Reads

/-! ## Exact or rejected -/

/-- What is asked of a reader of a section: what is there, what was current and an exception where it breaks off, and nothing else. -/
structure ReadsSection {σ α : Type} (S : GuInStreamFuns σ) (read : List α → PgfRdr σ → Exec (List α × PgfRdr σ)) (F : Format UInt8 (List α))
    (in_ : GuIn σ) (pos : Nat) (rem : Bytes) : Prop where
  whole : ∀ {bs rest as curr}, rem = bs ++ rest → F bs as → ∃ rdr, read curr ⟨in_, none, none⟩ = .ok (as, rdr) ∧ rdr.err = none ∧
    Source S rdr.in_ (pos + bs.length) rest
  cut : ∀ {more as curr}, F (rem ++ more) as → more ≠ [] → ∃ rdr, read curr ⟨in_, none, none⟩ = .ok (curr, rdr) ∧ rdr.err ≠ none
  only : ∀ {as curr rdr}, read curr ⟨in_, none, none⟩ = .ok (as, rdr) → (rdr.err ≠ none ∧ as = curr) ∨
    rdr.err = none ∧ ∃ bs rest, rem = bs ++ rest ∧ F bs as ∧ Source S rdr.in_ (pos + bs.length) rest

theorem InAt.after {σ : Type} {S : GuInStreamFuns σ} {in' : GuIn σ} {pos : Nat} {bs rest : Bytes}
    (h : InAt S (pos + (bs ++ rest).length) in' rest) : Source S in' (pos + bs.length) rest := by
  obtain ⟨pos', hsource, htotal⟩ := h
  rw [List.length_append] at htotal
  obtain rfl : pos' = pos + bs.length := by omega
  exact hsource

theorem raised_of_ok {err : GuExn} (h : gu_ok err = false) : err ≠ none := by
  rintro rfl
  cases h

theorem section_exact {σ α : Type} {S : GuInStreamFuns σ} {seq : PgfRdr σ → Exec (List α × PgfRdr σ)} {F : Format UInt8 (List α)}
    {in_ : GuIn σ} {pos : Nat} {rem : Bytes} (hreads : ReadsFormat (rdrStates S (pos + rem.length)) seq F) (h : Source S in_ pos rem) :
    ReadsSection S (pgf_read_to_idarray seq) F in_ pos rem where
  whole := by
    rintro bs rest as curr rfl hbs
    obtain ⟨rdr, hrun, herr, hat⟩ := (idarray_reads hreads curr).whole (s := ⟨in_, none, none⟩) ⟨rfl, h.inAt⟩ hbs
    exact ⟨rdr, hrun, herr, hat.after⟩
  cut := by
    intro more as curr hbs hmore
    obtain ⟨as', rdr, hrun, hraised⟩ := (idarray_reads hreads curr).cut (s := ⟨in_, none, none⟩) ⟨rfl, h.inAt⟩ hbs hmore
    obtain rfl := idarray_raised hrun hraised
    exact ⟨rdr, hrun, raised_of_ok hraised⟩
  only := by
    intro as curr rdr hrun
    rcases (idarray_reads hreads curr).only (s := ⟨in_, none, none⟩) ⟨rfl, h.inAt⟩ hrun with hraised | ⟨bs, rest, rfl, hbs, herr, hat⟩
    · exact .inl ⟨raised_of_ok hraised, idarray_raised hrun hraised⟩
    · exact .inr ⟨herr, bs, rest, rfl, hbs, hat.after⟩

/-- The sequences of symbols are read whole or not at all, over any streams. -/
theorem sequences_exact {σ : Type} {S : GuInStreamFuns σ} {in_ : GuIn σ} {pos : Nat} {rem : Bytes} (h : Source S in_ pos rem) :
    ReadsSection S (read_PgfSequences S) SequencesBytes in_ pos rem := section_exact sequences_reads h

/-- One sequence of one symbol, `KS` with one token of two characters. -/
theorem sequences_exact_one : ReadsSection (gu_buffered_in_funs gu_file_in_funs) (read_PgfSequences (gu_buffered_in_funs gu_file_in_funs))
    SequencesBytes (gu_new_buffered_in (gu_file_in [1, 1, 3, 1, 2, 0xc3, 0xbc, 0x35] fun _ => 1) 3) 0 [1, 1, 3, 1, 2, 0xc3, 0xbc, 0x35] :=
  sequences_exact (InReach.start (.buffered (.file _ _) (by decide) (by decide))).source

/-- No bytes are those of two lists of sequences, or begin with those of another. -/
theorem sequences_unique {bs rest bs' : Bytes} {seqs seqs' : List PgfSequence} (h : SequencesBytes bs seqs) (h' : SequencesBytes bs' seqs')
    (heq : bs ++ rest = bs') : seqs = seqs' ∧ bs = bs' := by
  have hsource := (InReach.start (.data bs)).source
  exact sequences_reads.unique (s := ⟨gu_data_in bs, none, none⟩) ⟨rfl, hsource.inAt⟩ h h' heq

/-! ## Round trip -/

/-- The groups of seven bits of a number, the lowest first. -/
def groups (n : Nat) : Bytes := if n < 128 then [UInt8.ofNat n] else UInt8.ofNat (n % 128 + 128) :: groups (n / 128)

theorem group_toNat {n : Nat} (h : n < 256) : (UInt8.ofNat n).toNat = n := by
  rw [UInt8.toNat_ofNat']
  exact Nat.mod_eq_of_lt h

theorem group_bits {n : Nat} (h : n < 256) : (UInt8.ofNat n).toNat &&& 0x7f = n % 128 := by
  rw [group_toNat h]
  exact Nat.and_two_pow_sub_one_eq_mod n 7

theorem groups_spec (n : Nat) : encodedBytes (groups n) = groups n ∧ Ended (groups n) ∧ encodedValue (groups n) = n := by
  induction n using Nat.strong_induction_on with
  | _ n ih =>
    unfold groups
    split
    case isTrue hlt =>
      have hlast : UInt8.ofNat n < 0x80 := by
        rw [UInt8.lt_iff_toNat_lt, group_toNat (by omega)]
        exact hlt
      obtain ⟨hbytes, hended, hvalue⟩ := encoded_last [] hlast
      rw [group_bits (by omega), Nat.mod_eq_of_lt hlt] at hvalue
      exact ⟨hbytes, hended, hvalue⟩
    case isFalse hge =>
      have hmore : ¬ UInt8.ofNat (n % 128 + 128) < 0x80 := by
        rw [UInt8.lt_iff_toNat_lt, group_toNat (by omega)]
        exact Nat.not_lt.2 (Nat.le_add_left _ _)
      obtain ⟨ihbytes, ihended, ihvalue⟩ := ih (n / 128) (by omega)
      obtain ⟨hbytes, hended, hvalue⟩ := encoded_more (groups (n / 128)) hmore
      rw [group_bits (by omega), ihvalue] at hvalue
      exact ⟨by rw [hbytes, ihbytes], hended.2 ihended, by omega⟩

theorem groups_length {n k : Nat} (h : n < 128 ^ (k + 1)) : (groups n).length ≤ k + 1 := by
  induction k generalizing n with
  | zero =>
    rw [Nat.zero_add, Nat.pow_one] at h
    rw [groups, if_pos h]
    exact Nat.le_refl _
  | succ k ih =>
    unfold groups
    split
    · exact Nat.le_add_left _ _
    · have hdiv : n / 128 < 128 ^ (k + 1) := Nat.div_lt_of_lt_mul (by rwa [← Nat.pow_succ'])
      exact Nat.succ_le_succ (ih hdiv)

theorem int_written {n : Nat} (h : n < 2 ^ 31) : IntBytes (groups n) n := by
  obtain ⟨hbytes, hended, hvalue⟩ := groups_spec n
  refine ⟨hbytes, hended, groups_length (k := 4) (h.trans (by decide)), ?_⟩
  rw [hvalue]
  exact Int.bmod_eq_of_le (by omega) (by omega)

theorem index_written {n : Nat} (h : n < 2 ^ 31) : asIndex n = n := by
  unfold asIndex
  omega

section Written
variable {α : Type} {F : Format UInt8 α}

theorem each_written {as : List α} (h : ∀ a ∈ as, ∃ bs, F bs a) : ∃ bs, F.each as.length bs as := by
  induction as with
  | nil => exact ⟨[], rfl, rfl⟩
  | cons a as ih =>
    obtain ⟨bs₁, h₁⟩ := h a List.mem_cons_self
    obtain ⟨bs₂, h₂⟩ := ih fun a' ha' => h a' (List.mem_cons_of_mem _ ha')
    exact ⟨bs₁ ++ bs₂, bs₁, bs₂, a, rfl, h₁, bs₂, [], as, (List.append_nil _).symm, h₂, rfl, rfl⟩

theorem seq_written {as : List α} (hlen : as.length < 2 ^ 31) (h : ∀ a ∈ as, ∃ bs, F bs a) : ∃ bs, Format.guSeq F bs as := by
  obtain ⟨bs, hbs⟩ := each_written h
  exact ⟨groups as.length ++ bs, groups as.length, bs, as.length, rfl, int_written hlen, hbs⟩

end Written

/-- A UTF-8 text that fits in a string. -/
def IsText (s : GuString) : Prop := s.length < 256 ∧ ∃ text, s = utf8 text

def TokensFit (tokens : PgfTokens) : Prop := tokens.length < 2 ^ 31 ∧ ∀ tok ∈ tokens, IsText tok

/-- The symbols that a grammar file can have. -/
def PgfSymbol.Writable : PgfSymbol → Prop
  | CAT d r | LIT d r | VAR d r => d < 2 ^ 31 ∧ r < 2 ^ 31
  | KS tokens => TokensFit tokens
  | KP default_form alts => TokensFit default_form ∧ alts.length < 2 ^ 31 ∧ ∀ alt ∈ alts, TokensFit alt.form ∧ TokensFit alt.prefixes

def charUnit (c : Char) : Utf8Unit := ⟨String.utf8EncodeChar c, c.toNat, toNat_valid c, utf8_next_char c, utf8_spells.cut⟩

theorem string_written {s : GuString} (h : IsText s) : ∃ bs, StringBytes bs s := by
  obtain ⟨hlt, text, rfl⟩ := h
  have hlen : text.length ≤ (utf8 text).length := by
    have hle := ucsText_codes_length utf8_spells text
    rwa [ucsText_utf8] at hle
  refine ⟨_, groups text.length, text.map charUnit, rfl, ?_, ?_, hlt⟩
  · rw [List.length_map]
    exact int_written (by omega)
  · rw [List.map_map, ← ucsText_utf8]
    rfl

theorem tokens_written {tokens : PgfTokens} (h : TokensFit tokens) : ∃ bs, TokensBytes bs tokens :=
  seq_written h.1 fun tok htok => string_written (h.2 tok htok)

theorem struct_written {α β γ : Type} {F : Format UInt8 α} {G : Format UInt8 β} {a : α} {b : β} (mk : α → β → γ) (h : ∃ bs, F bs a)
    (h' : ∃ bs, G bs b) : ∃ bs, Format.struct mk F G bs (mk a b) := by
  obtain ⟨bs₁, h₁⟩ := h
  obtain ⟨bs₂, h₂⟩ := h'
  exact ⟨bs₁ ++ bs₂, bs₁, bs₂, a, rfl, h₁, bs₂, [], b, (List.append_nil _).symm, h₂, rfl, rfl⟩

theorem alternative_written {alt : PgfAlternative} (h : TokensFit alt.form) (h' : TokensFit alt.prefixes) : ∃ bs, AlternativeBytes bs alt :=
  struct_written PgfAlternative.mk (tokens_written h) (tokens_written h')

theorem idx_written {d r : Nat} (mk : Nat → Nat → PgfSymbol) (h : d < 2 ^ 31 ∧ r < 2 ^ 31) : ∃ bs, IdxBytes mk bs (mk d r) := by
  have hmk := struct_written (fun d r => mk (asIndex d) (asIndex r)) ⟨_, int_written h.1⟩ ⟨_, int_written h.2⟩
  rwa [index_written h.1, index_written h.2] at hmk

/-- What the constructor has is written after its number. -/
theorem ctor_written {α : Type} {ctors : List (Format UInt8 α)} {a : α} (btag : UInt8) (h : ∃ bs, ctors.getD btag.toNat .never bs a) :
    ∃ bs, Format.guVariant ctors bs a := by
  obtain ⟨bs, hbs⟩ := h
  exact ⟨[btag] ++ bs, [btag], bs, btag, rfl, rfl, hbs⟩

theorem symbol_written {sym : PgfSymbol} (h : sym.Writable) : ∃ bs, SymbolBytes bs sym := by
  cases sym with
  | CAT d r => exact ctor_written 0 (idx_written .CAT h)
  | LIT d r => exact ctor_written 1 (idx_written .LIT h)
  | VAR d r => exact ctor_written 2 (idx_written .VAR h)
  | KS tokens =>
    obtain ⟨bs, hbs⟩ := tokens_written h
    exact ctor_written 3 ⟨bs ++ [], bs, [], tokens, rfl, hbs, rfl, rfl⟩
  | KP default_form alts =>
    obtain ⟨hdefault, hlen, halts⟩ := h
    have halts' := seq_written hlen fun alt halt => alternative_written (halts alt halt).1 (halts alt halt).2
    exact ctor_written 4 (struct_written PgfSymbol.KP (tokens_written hdefault) halts')

/-- The sequences have bytes that are theirs alone, begin those of no others, and that any streams bring back. -/
def RoundTrips (seqs : List PgfSequence) : Prop := ∃ bs, SequencesBytes bs seqs ∧
  (∀ {bs' rest seqs'}, SequencesBytes bs' seqs' → bs ++ rest = bs' → seqs' = seqs ∧ rest = []) ∧
  ∀ {σ : Type} {S : GuInStreamFuns σ} {in_ : GuIn σ} {pos : Nat} {rest : Bytes} {curr}, Source S in_ pos (bs ++ rest) → ∃ rdr,
    read_PgfSequences S curr ⟨in_, none, none⟩ = .ok (seqs, rdr) ∧ rdr.err = none ∧ Source S rdr.in_ (pos + bs.length) rest

theorem sequences_round_trip {seqs : List PgfSequence} (hlen : seqs.length < 2 ^ 31)
    (h : ∀ seq ∈ seqs, seq.length < 2 ^ 31 ∧ ∀ sym ∈ seq, sym.Writable) : RoundTrips seqs := by
  obtain ⟨bs, hbs⟩ : ∃ bs, SequencesBytes bs seqs :=
    seq_written hlen fun seq hseq => seq_written (h seq hseq).1 fun sym hsym => symbol_written ((h seq hseq).2 sym hsym)
  refine ⟨bs, hbs, fun {bs' rest seqs'} hbs' heq => ?_, fun {σ S in_ pos rest curr} hsource => (sequences_exact hsource).whole rfl hbs⟩
  obtain ⟨rfl, heq'⟩ := sequences_unique hbs hbs' heq
  have hnil : bs ++ rest = bs ++ [] := by rw [heq, heq', List.append_nil]
  exact ⟨rfl, List.append_cancel_left hnil⟩

theorem sequences_round_trip_two : RoundTrips [[.CAT 0 1, .KS [utf8 ['j', 'a']]], []] := by
  apply sequences_round_trip (by decide)
  intro seq hseq
  simp only [List.mem_cons, List.not_mem_nil, or_false] at hseq
  rcases hseq with rfl | rfl
  · refine ⟨by decide, fun sym hsym => ?_⟩
    simp only [List.mem_cons, List.not_mem_nil, or_false] at hsym
    rcases hsym with rfl | rfl
    · exact ⟨by decide, by decide⟩
    · refine ⟨by decide, fun tok htok => ?_⟩
      obtain rfl := List.mem_singleton.1 htok
      exact ⟨by decide, ['j', 'a'], rfl⟩
  · exact ⟨by decide, fun sym hsym => absurd hsym List.not_mem_nil⟩

end Libpgf
