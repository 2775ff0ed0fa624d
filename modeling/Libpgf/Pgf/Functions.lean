import Libpgf.Pgf.AcceptedRows
import Libpgf.Pgf.Sequences
/-!
# Functions of a grammar file (`pgf/reader.c`)

The typed reader looks a sequence up as soon as it has read its number. What it
returns for the section of the concrete functions is what `pgf_read_cncfuns`
makes of the entries that the bytes say.
-/

namespace Libpgf

instance : Inhabited PgfCncFun := ⟨⟨[], [], 0⟩⟩

section Read
variable {σ α : Type} (S : GuInStreamFuns σ)

def read_PgfCId (rdr : PgfRdr σ) : Exec (PgfCId × PgfRdr σ) := do
  let (s, in_, err, exn) ← pgf_read_to_PgfCId S rdr.in_ rdr.err
  return (s, ⟨in_, err, exn.map fun e => ⟨.GuLength, e.tag⟩⟩)

/-- What was looked up, or `PgfReadExn`. -/
def foundOrRaised [Inhabited α] (a : Option α) (rdr : PgfRdr σ) : Exec (α × PgfRdr σ) :=
  .ok (a.getD default, if a.isSome then rdr else { rdr with err := gu_raise rdr.err .PgfReadExn })

/-- `pgf_read_to_PgfSeqId` -/
def read_PgfSeqId (curr_sequences : List PgfSequence) : PgfRdr σ → Exec (PgfSequence × PgfRdr σ) :=
  thenRead rdr_ok (pgf_read_to_int32_t S) fun id => foundOrRaised (pgf_read_to_PgfSeqId curr_sequences id)

/-- A function without its `fid`. -/
def unnumberedFun (fun_ : PgfCId) (lins : List PgfSequence) : PgfCncFun := ⟨fun_, lins, 0⟩

def read_PgfCncFun (curr_sequences : List PgfSequence) : PgfRdr σ → Exec (PgfCncFun × PgfRdr σ) :=
  pgf_read_to_struct unnumberedFun (read_PgfCId S) (read_GuSeq S (read_PgfSeqId S curr_sequences))

/-- The loop of `pgf_read_new_PgfConcr` that numbers the functions. -/
def setFids (k : Nat) (cncfuns : List PgfCncFun) : List PgfCncFun := (cncfuns.zipIdx k).map fun f => { f.1 with fid := f.2 }

/-- Reads `curr_cncfuns`, and numbers them. -/
def read_PgfCncFuns (curr_sequences : List PgfSequence) : List PgfCncFun → PgfRdr σ → Exec (List PgfCncFun × PgfRdr σ) :=
  pgf_read_to_idarray (thenRead rdr_ok (read_GuSeq S (read_PgfCncFun S curr_sequences)) fun cncfuns rdr => .ok (setFids 0 cncfuns, rdr))

end Read

/-! ## The format -/

def NameBytes : Format UInt8 PgfCId := fun bs s => ∃ bytes name, bs = bytes ++ name ∧ LenBytes bytes name.length ∧ s = nameText name ∧ s.length < 256

def EntryBytes : Format UInt8 CncFunEntry := .struct CncFunEntry.mk NameBytes (.guSeq IntBytes)

/-- The bytes of the function section, after the sequences. -/
def FunctionsBytes (curr_sequences : List PgfSequence) : Format UInt8 (List PgfCncFun) := fun bs cncfuns =>
  ∃ entries, Format.guSeq EntryBytes bs entries ∧ pgf_read_cncfuns curr_sequences entries = some cncfuns

/-! ## Looking up -/

namespace Format
variable {α β γ δ : Type}

def when (a : Option α) : Format β α := fun bs c => bs = [] ∧ a = some c

/-- `G` is `F` with what `g` finds for its values. -/
def Finds (G : Format UInt8 γ) (F : Format UInt8 α) (g : α → Option γ) : Prop := ∀ bs c, G bs c ↔ ∃ a, F bs a ∧ g a = some c

theorem finds_when (F : Format UInt8 α) (g : α → Option γ) : Finds (F.andThen fun a => when (g a)) F g := by
  intro bs c
  constructor
  · rintro ⟨bs₁, bs₂, a, rfl, hF, rfl, hg⟩
    exact ⟨a, by rwa [List.append_nil], hg⟩
  · rintro ⟨a, hF, hg⟩
    exact ⟨bs, [], a, (List.append_nil _).symm, hF, rfl, hg⟩

variable {F : Format UInt8 α} {G : Format UInt8 γ} {g : α → Option γ}

theorem Finds.each (h : Finds G F g) (n : Nat) (bs : List UInt8) (cs : List γ) : G.each n bs cs ↔ ∃ as, F.each n bs as ∧ as.mapM g = some cs := by
  induction n generalizing bs cs with
  | zero =>
    constructor
    · rintro ⟨rfl, rfl⟩
      exact ⟨[], ⟨rfl, rfl⟩, rfl⟩
    · rintro ⟨as, ⟨rfl, rfl⟩, hg⟩
      cases hg
      exact ⟨rfl, rfl⟩
  | succ n ih =>
    constructor
    · rintro ⟨bs₁, bs₂, c, rfl, hG, bs₃, bs₄, cs', rfl, hmore, rfl, rfl⟩
      obtain ⟨a, hF, hg⟩ := (h bs₁ c).1 hG
      obtain ⟨as, hFs, hgs⟩ := (ih bs₃ cs').1 hmore
      refine ⟨a :: as, ⟨bs₁, bs₃ ++ [], a, rfl, hF, bs₃, [], as, rfl, hFs, rfl, rfl⟩, ?_⟩
      rw [List.mapM_cons, hg, hgs]
      rfl
    · rintro ⟨as, ⟨bs₁, bs₂, a, rfl, hF, bs₃, bs₄, as', rfl, hmore, rfl, rfl⟩, hgs⟩
      rw [List.mapM_cons] at hgs
      obtain ⟨c, hg, hgs⟩ := Option.bind_eq_some_iff.1 hgs
      obtain ⟨cs', hgs', heq⟩ := Option.bind_eq_some_iff.1 hgs
      cases heq
      exact ⟨bs₁, bs₃ ++ [], c, rfl, (h bs₁ c).2 ⟨a, hF, hg⟩, bs₃, [], cs', rfl, (ih bs₃ cs').2 ⟨as', hmore, hgs'⟩, rfl, rfl⟩

theorem Finds.guSeq (h : Finds G F g) : Finds (Format.guSeq G) (Format.guSeq F) fun as => as.mapM g := by
  intro bs cs
  constructor
  · rintro ⟨bs₁, bs₂, n, rfl, hlen, hG⟩
    obtain ⟨as, hF, hg⟩ := (h.each n bs₂ cs).1 hG
    exact ⟨as, ⟨bs₁, bs₂, n, rfl, hlen, hF⟩, hg⟩
  · rintro ⟨as, ⟨bs₁, bs₂, n, rfl, hlen, hF⟩, hg⟩
    exact ⟨bs₁, bs₂, n, rfl, hlen, (h.each n bs₂ cs).2 ⟨as, hF, hg⟩⟩

/-- The looked-up values are in the last member of a struct. -/
theorem Finds.struct {ε : Type} {H : Format UInt8 β} (h : Finds G F g) {mk : β → α → δ} {mk' : β → γ → ε} {g' : δ → Option ε}
    (hg : ∀ b a, g' (mk b a) = (g a).map (mk' b)) : Finds (Format.struct mk' H G) (Format.struct mk H F) g' := by
  intro bs e
  constructor
  · rintro ⟨bs₁, bs₂, b, rfl, hH, bs₃, bs₄, c, rfl, hG, rfl, rfl⟩
    obtain ⟨a, hF, hga⟩ := (h bs₃ c).1 hG
    exact ⟨mk b a, ⟨bs₁, bs₃ ++ [], b, rfl, hH, bs₃, [], a, rfl, hF, rfl, rfl⟩, by rw [hg, hga]; rfl⟩
  · rintro ⟨d, ⟨bs₁, bs₂, b, rfl, hH, bs₃, bs₄, a, rfl, hF, rfl, rfl⟩, hd⟩
    rw [hg] at hd
    obtain ⟨c, hga, rfl⟩ := Option.map_eq_some_iff.1 hd
    exact ⟨bs₁, bs₃ ++ [], b, rfl, hH, bs₃, [], c, rfl, (h bs₃ c).2 ⟨a, hF, hga⟩, rfl, rfl⟩

end Format

/-- The function of an entry, without its `fid`. -/
def CncFunEntry.lookUp (curr_sequences : List PgfSequence) (entry : CncFunEntry) : Option PgfCncFun :=
  (entry.lins.mapM (pgf_read_to_PgfSeqId curr_sequences)).map (unnumberedFun entry.fun_)

section Entries
variable {curr_sequences : List PgfSequence}

theorem cncfun_lookUp (entry : CncFunEntry) (i : Nat) :
    pgf_read_to_PgfCncFun curr_sequences entry i = (entry.lookUp curr_sequences).map fun f => { f with fid := i } := by
  unfold pgf_read_to_PgfCncFun CncFunEntry.lookUp
  cases entry.lins.mapM (pgf_read_to_PgfSeqId curr_sequences) <;> rfl

theorem cncfuns_numbered (entries : List CncFunEntry) (k : Nat) :
    ((entries.zipIdx k).mapM fun e => pgf_read_to_PgfCncFun curr_sequences e.1 e.2) =
      (entries.mapM (CncFunEntry.lookUp curr_sequences)).map (setFids k) := by
  induction entries generalizing k with
  | nil => rfl
  | cons entry entries ih =>
    rw [List.zipIdx_cons, List.mapM_cons, List.mapM_cons, ih, cncfun_lookUp]
    cases entry.lookUp curr_sequences with
    | none => rfl
    | some f => cases entries.mapM (CncFunEntry.lookUp curr_sequences) <;> rfl

/-- Reading the functions of the section, and looking their sequences up. -/
theorem functions_found : Format.Finds
    (.guSeq (.struct unnumberedFun NameBytes (.guSeq (.andThen IntBytes fun id => .when (pgf_read_to_PgfSeqId curr_sequences id)))))
    (.guSeq EntryBytes) fun entries => entries.mapM (CncFunEntry.lookUp curr_sequences) := by
  have hids := Format.finds_when IntBytes (pgf_read_to_PgfSeqId curr_sequences)
  have hfun : Format.Finds (.struct unnumberedFun NameBytes (.guSeq (.andThen IntBytes fun id => .when (pgf_read_to_PgfSeqId curr_sequences id))))
      EntryBytes (CncFunEntry.lookUp curr_sequences) := hids.guSeq.struct fun fun_ lins => rfl
  exact hfun.guSeq

end Entries

/-! ## Exact or rejected -/

section Reads
variable {σ α : Type} {S : GuInStreamFuns σ} {total : Nat}

theorem name_reads : ReadsFormat (rdrStates S total) (read_PgfCId S) NameBytes where
  whole := by
    rintro ⟨in_, err, exn⟩ bs rest s ⟨rfl, hat⟩ ⟨bytes, name, rfl, hlen, rfl, hlt⟩
    rw [← List.flatMap_singleton' name, List.append_assoc] at hat
    obtain ⟨in', hat', hrun⟩ := read_string_whole latin1_gets latin1_spells hlen hat
    rw [ucsText_latin1] at hrun
    have hrun := hrun.trans (if_pos hlt)
    exact ⟨⟨in', none, none⟩, by rw [read_PgfCId, pgf_read_to_PgfCId, hrun]; rfl, rfl, hat'⟩
  cut := by
    rintro ⟨in_, err, exn⟩ pre more s ⟨rfl, hat⟩ ⟨bytes, name, heq, hlen, rfl, hlt⟩ hmore
    rw [← List.flatMap_singleton' name] at heq
    obtain ⟨s', in', t, tag, hrun⟩ := read_string_cut latin1_gets latin1_spells hlen (by rwa [ucsText_latin1]) heq.symm hmore hat
    exact ⟨s', ⟨in', some t, _⟩, by rw [read_PgfCId, pgf_read_to_PgfCId, hrun]; rfl, rfl⟩
  only := by
    rintro ⟨in_, err, exn⟩ rem s rdr' ⟨rfl, hat⟩ hrun
    obtain ⟨⟨s', in', err', tag⟩, hname, hrun⟩ := Exec.bind_ok.1 hrun
    cases hrun
    cases err' with
    | some t => exact .inl rfl
    | none =>
      obtain ⟨-, hlt, bytes, body, rest, codes, rfl, hlen, hnext, rfl, hat'⟩ := read_string_only latin1_gets hat hname
      obtain ⟨name, rfl, rfl⟩ := charsNext_latin1 hnext
      rw [List.length_map] at hlen
      exact .inr ⟨bytes ++ name, rest, (List.append_assoc _ _ _).symm, ⟨bytes, name, rfl, hlen, ucsText_latin1 name, hlt⟩, rfl, hat'⟩

theorem found_reads [Inhabited α] (a : Option α) : ReadsFormat (rdrStates S total) (foundOrRaised (σ := σ) a) (.when a) where
  whole := by
    rintro rdr bs rest c hat ⟨rfl, rfl⟩
    exact ⟨rdr, rfl, hat⟩
  cut := by
    rintro rdr pre more c - ⟨hnil, -⟩ hmore
    exact absurd (List.append_eq_nil_iff.1 hnil).2 hmore
  only := by
    intro rdr rem c rdr' hat hrun
    cases a with
    | some a =>
      cases hrun
      exact .inr ⟨[], rem, rfl, ⟨rfl, rfl⟩, hat⟩
    | none =>
      cases hrun
      refine .inl ?_
      cases rdr.err <;> simp [rdrStates, rdr_ok, gu_raise]

theorem functions_reads (curr_sequences : List PgfSequence) : ReadsFormat (rdrStates S total)
    (thenRead rdr_ok (read_GuSeq S (read_PgfCncFun S curr_sequences)) fun cncfuns rdr => .ok (setFids 0 cncfuns, rdr))
    (FunctionsBytes curr_sequences) := by
  have hid : ReadsFormat (rdrStates S total) (read_PgfSeqId S curr_sequences)
      (.andThen IntBytes fun id => .when (pgf_read_to_PgfSeqId curr_sequences id)) :=
    int_reads.andThen fun id => found_reads (pgf_read_to_PgfSeqId curr_sequences id)
  have hfun : ReadsFormat (rdrStates S total) (read_PgfCncFun S curr_sequences)
      (.struct unnumberedFun NameBytes (.guSeq (.andThen IntBytes fun id => .when (pgf_read_to_PgfSeqId curr_sequences id)))) :=
    struct_reads name_reads (seq_reads hid)
  refine ((seq_reads hfun).andThen fun cncfuns => .nothing (setFids 0 cncfuns)).congr fun bs cncfuns => ?_
  constructor
  · rintro ⟨bs₁, bs₂, funs, rfl, hfuns, rfl, rfl⟩
    obtain ⟨entries, hentries, hlook⟩ := (functions_found bs₁ funs).1 hfuns
    exact ⟨entries, by rwa [List.append_nil], (cncfuns_numbered entries 0).trans (congrArg (Option.map (setFids 0)) hlook)⟩
  · rintro ⟨entries, hentries, hread⟩
    obtain ⟨funs, hlook, rfl⟩ := Option.map_eq_some_iff.1 ((cncfuns_numbered entries 0).symm.trans hread)
    exact ⟨bs, [], funs, (List.append_nil _).symm, (functions_found bs funs).2 ⟨entries, hentries, hlook⟩, rfl, rfl⟩

/-- The functions are read whole or not at all, and are those of the entries that their bytes say. -/
theorem functions_exact {in_ : GuIn σ} {pos : Nat} {rem : Bytes} (curr_sequences : List PgfSequence) (h : Source S in_ pos rem) :
    ReadsSection S (read_PgfCncFuns S curr_sequences) (FunctionsBytes curr_sequences) in_ pos rem :=
  section_exact (functions_reads curr_sequences) h

end Reads

/-- One function, of the name `f`, with the only sequence there is. -/
theorem functions_exact_one : ReadsSection (gu_buffered_in_funs gu_file_in_funs) (read_PgfCncFuns (gu_buffered_in_funs gu_file_in_funs) [[]])
    (FunctionsBytes [[]]) (gu_new_buffered_in (gu_file_in [1, 1, 0x66, 1, 0] fun _ => 1) 3) 0 [1, 1, 0x66, 1, 0] :=
  functions_exact [[]] (InReach.start (.buffered (.file _ _) (by decide) (by decide))).source

end Libpgf
