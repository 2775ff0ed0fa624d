import Libpgf.Pgf.Data
import Libpgf.Gu.MapValues
/-!
# The categories of a concrete grammar (`pgf/reader.c`)

What `pgf_read_new_PgfConcr` makes of the category sections of a file. One
object is made for each category id. The concrete categories then claim their
ranges, and each category outside the ranges gets the concrete category of those
that it coerces to. The sections are decoded already: an entry here is what its
bytes say.
-/

namespace Libpgf

/-! ## The sections -/

/-- An argument of a production, its categories given by id. -/
structure PArgEntry where
  hypos : List Int
  ccat : Int

inductive ProductionEntry where
  | APPLY (fun_ : PgfCncFun) (args : List PArgEntry)
  | COERCE (coerce : Int)

/-- An entry of the category map. -/
structure CCatEntry where
  fid : Int
  prods : List ProductionEntry

/-- An entry of the map of concrete categories. The `cid` is what the code finds
through `curr_key`, which only its debug output uses. -/
structure CncCatEntry where
  cid : PgfCId
  first : Int
  last : Int
  ctnts : List GuString

/-! ## Categories by id -/

/-- `gu_hash_byte` -/
def gu_hash_byte (h u : Nat) : Nat := (h * 101 + u) % 2 ^ 64

/-- `gu_hash_word`, on a machine that puts the low byte first. -/
def gu_hash_word (h w : Nat) : Nat := ((List.range 8).map fun i => w / 256 ^ i % 256).foldl gu_hash_byte h

def gu_int32_hasher : GuHasher Int where
  hash n := gu_hash_word 0 (n % 2 ^ 64).toNat
  eq a b := a == b
  zero := 0
  isZero n := n == 0
  eq_refl n := beq_self_eq_true n
  eq_symm h := by rw [beq_iff_eq] at *; exact h.symm
  eq_trans h h' := by rw [beq_iff_eq] at *; exact h.trans h'
  hash_eq h := by rw [beq_iff_eq] at h; rw [h]
  isZero_iff := beq_iff_eq

/-- What the reader works on while it reads a concrete grammar. -/
structure PgfReader where
  ccatMem : List PgfCCat
  cnccatMem : List PgfCncCat
  /-- A slot holds a null pointer until its category is made. -/
  curr_ccats : GuMap Int (Option PgfCCatId)

def pgf_reader_intern_ccat (rdr : PgfReader) (fid : Int) : Exec (PgfReader × PgfCCatId) := do
  let (map, i) ← rdr.curr_ccats.gu_map_insert gu_int32_hasher fid
  match ← Exec.deref map.values[i]? with
  | some c => return ({ rdr with curr_ccats := map }, c)
  | none =>
    let c := rdr.ccatMem.length
    let ccat : PgfCCat := { cnccat := none, prods := .null, fid }
    return ({ rdr with ccatMem := rdr.ccatMem ++ [ccat], curr_ccats := map.put i (some c) }, c)

/-- Reads the elements of a sequence, one after the other. -/
def pgf_read_to_GuSeq {α β : Type} (read : PgfReader → α → Exec (PgfReader × β)) (rdr : PgfReader) :
    List α → Exec (PgfReader × List β)
  | [] => .ok (rdr, [])
  | a :: as => do
    let (rdr, b) ← read rdr a
    let (rdr, bs) ← pgf_read_to_GuSeq read rdr as
    return (rdr, b :: bs)

def pgf_read_to_PgfPArg (rdr : PgfReader) (arg : PArgEntry) : Exec (PgfReader × PgfPArg) := do
  let (rdr, hypos) ← pgf_read_to_GuSeq pgf_reader_intern_ccat rdr arg.hypos
  let (rdr, ccat) ← pgf_reader_intern_ccat rdr arg.ccat
  return (rdr, { hypos, ccat })

def pgf_read_to_PgfProduction (rdr : PgfReader) : ProductionEntry → Exec (PgfReader × PgfProduction)
  | .APPLY fun_ args => do
    let (rdr, args) ← pgf_read_to_GuSeq pgf_read_to_PgfPArg rdr args
    return (rdr, .APPLY fun_ args)
  | .COERCE fid => do
    let (rdr, coerce) ← pgf_reader_intern_ccat rdr fid
    return (rdr, .COERCE coerce)

def PgfReader.setCCat (rdr : PgfReader) (c : PgfCCatId) (ccat : PgfCCat) : PgfReader :=
  { rdr with ccatMem := rdr.ccatMem.set c ccat }

def pgf_read_new_PgfCCat (rdr : PgfReader) (entry : CCatEntry) : Exec (PgfReader × PgfCCatId) := do
  let (rdr, c) ← pgf_reader_intern_ccat rdr entry.fid
  let (rdr, prods) ← pgf_read_to_GuSeq pgf_read_to_PgfProduction rdr entry.prods
  let ccat ← Exec.deref rdr.ccatMem[c]?
  return (rdr.setCCat c { ccat with prods := .seq prods }, c)

/-- One round of `pgf_read_into_map` over the category section. -/
def pgf_read_ccat_entry (rdr : PgfReader) (entry : CCatEntry) : Exec PgfReader := do
  let (rdr, c) ← pgf_read_new_PgfCCat rdr entry
  let (map, i) ← rdr.curr_ccats.gu_map_insert gu_int32_hasher entry.fid
  return { rdr with curr_ccats := map.put i (some c) }

/-- The category section, read into a new map. -/
def pgf_read_ccats (entries : List CCatEntry) : Exec PgfReader := do
  let curr_ccats ← GuMap.gu_make_map gu_int32_hasher 4 8 (some none) none
  forEach pgf_read_ccat_entry entries { ccatMem := [], cnccatMem := [], curr_ccats }

/-! ## Concrete categories -/

/-- The loop of `pgf_ccat_n_ctnts` over productions, with the recursive call as a parameter. -/
def pgf_prods_n_ctnts (rec : PgfCCatId → Int → Exec (Bool × Int)) : List PgfProduction → Int → Exec (Bool × Int)
  | [], n_ctnts => .ok (true, n_ctnts)
  | .APPLY fun_ _ :: prods, n_ctnts =>
    let old_n_ctnts : Int := fun_.lins.length
    if n_ctnts = -1 then pgf_prods_n_ctnts rec prods old_n_ctnts
    else if n_ctnts ≠ old_n_ctnts then .ok (false, n_ctnts)
    else pgf_prods_n_ctnts rec prods n_ctnts
  | .COERCE coerce :: prods, n_ctnts => do
    let (succ, n_ctnts) ← rec coerce n_ctnts
    if succ then pgf_prods_n_ctnts rec prods n_ctnts else return (false, n_ctnts)

/-- Whether the productions agree on a number of constituents, and the number; -1 stands for none yet. -/
def pgf_ccat_n_ctnts (ccatMem : List PgfCCat) : Nat → PgfCCatId → Int → Exec (Bool × Int)
  | 0, _, _ => .error .fuel
  | fuel + 1, cat, n_ctnts => do
    let ccat ← Exec.deref ccatMem[cat]?
    if ccat.prods.isNull then return (true, n_ctnts)
    pgf_prods_n_ctnts (pgf_ccat_n_ctnts ccatMem fuel) ccat.prods.elems n_ctnts

/-- The loop over a range. -/
structure RangeLoop where
  rdr : PgfReader
  cats : List (Option PgfCCatId)
  n_ctnts : Int
  /-- Whether `PgfReadExn` is raised, which ends the loop. -/
  raised : Bool

def pgf_read_range (fuel : Nat) (cnccat : PgfCncCatId) (first : Int) (st : RangeLoop) (i : Nat) : Exec RangeLoop := do
  if st.raised then return st
  let found ← st.rdr.curr_ccats.gu_map_find gu_int32_hasher (first + i)
  match found.join with
  | none => return { st with cats := st.cats ++ [none] }
  | some c =>
    let ccat ← Exec.deref st.rdr.ccatMem[c]?
    let rdr := st.rdr.setCCat c { ccat with cnccat := some cnccat }
    let (succ, n_ctnts) ← pgf_ccat_n_ctnts rdr.ccatMem fuel c st.n_ctnts
    return { rdr, cats := st.cats ++ [some c], n_ctnts, raised := !succ }

/-- The new concrete category, or none when the exception is raised. A range
that is turned around would need a sequence of negative length. -/
def pgf_read_new_PgfCncCat (fuel : Nat) (rdr : PgfReader) (entry : CncCatEntry) :
    Exec (PgfReader × Option PgfCncCatId) := do
  let next ← Exec.int (entry.last + 1)
  let len ← Exec.int (next - entry.first)
  Exec.require (0 ≤ len)
  let cnccat := rdr.cnccatMem.length
  let st ← forEach (pgf_read_range fuel cnccat entry.first) (List.range len.toNat)
    { rdr, cats := [], n_ctnts := -1, raised := false }
  if st.raised then return (st.rdr, none)
  let new : PgfCncCat :=
    { cid := entry.cid, cats := st.cats, n_ctnts := if st.n_ctnts = -1 then 0 else st.n_ctnts.toNat,
      ctnts := entry.ctnts }
  return ({ st.rdr with cnccatMem := st.rdr.cnccatMem ++ [new] }, some cnccat)

/-- What the section of concrete categories is read into. -/
structure CncCatLoop where
  rdr : PgfReader
  cnccats : List (PgfCId × PgfCncCatId)
  /-- Whether `PgfReadExn` is raised, which ends the loop. -/
  raised : Bool

/-- One round of `pgf_read_into_map` over that section. A later entry for a key
takes the place of an earlier one. -/
def pgf_read_cnccat_entry (fuel : Nat) (st : CncCatLoop) (entry : CncCatEntry) : Exec CncCatLoop := do
  if st.raised then return st
  let (rdr, new) ← pgf_read_new_PgfCncCat fuel st.rdr entry
  match new with
  | none => return { st with rdr, raised := true }
  | some cnccat => return { st with rdr, cnccats := st.cnccats.filter (fun e => e.1 ≠ entry.cid) ++ [(entry.cid, cnccat)] }

def pgf_read_cnccats (fuel : Nat) (rdr : PgfReader) (entries : List CncCatEntry) : Exec CncCatLoop :=
  forEach (pgf_read_cnccat_entry fuel) entries { rdr, cnccats := [], raised := false }

/-! ## Extra categories -/

/-- What `pgf_ccat_set_cnccat` changes: the categories, and the list of those that it gave a concrete category. -/
structure Setting where
  ccatMem : List PgfCCat
  newly_set : List PgfCCatId

/-- What the loop does with the concrete category that a coercion comes to. -/
def pgf_ccat_join (c : PgfCCatId) (cnccat : Option PgfCncCatId) (st : Setting) : Exec Setting := do
  let ccat ← Exec.deref st.ccatMem[c]?
  if ccat.cnccat = none then return { st with ccatMem := st.ccatMem.set c { ccat with cnccat } }
  Exec.require (ccat.cnccat = cnccat)
  return st

/-- The loop of `pgf_ccat_set_cnccat` over productions, with the recursive call as a parameter. -/
def pgf_prods_set_cnccat (rec : Setting → PgfCCatId → Exec (Setting × Option PgfCncCatId)) (c : PgfCCatId) :
    List PgfProduction → Setting → Exec Setting
  | [], st => .ok st
  | .COERCE coerce :: prods, st => do
    let (st, cnccat) ← rec st coerce
    let st ← pgf_ccat_join c cnccat st
    pgf_prods_set_cnccat rec c prods st
  | .APPLY _ _ :: _, _ => Exec.abort

def pgf_ccat_set_cnccat : Nat → Setting → PgfCCatId → Exec (Setting × Option PgfCncCatId)
  | 0, _, _ => .error .fuel
  | fuel + 1, st, c => do
    let ccat ← Exec.deref st.ccatMem[c]?
    if ccat.cnccat ≠ none then return (st, ccat.cnccat)
    -- the length of a null sequence is read from memory that is not there
    Exec.require (ccat.prods.isNull = false)
    let st ← pgf_prods_set_cnccat (pgf_ccat_set_cnccat fuel) c ccat.prods.elems st
    let ccat ← Exec.deref st.ccatMem[c]?
    return ({ st with newly_set := st.newly_set ++ [c] }, ccat.cnccat)

/-- The categories of the map in the order of its table, which is the order of `gu_map_iter`. -/
def PgfReader.order (rdr : PgfReader) : List PgfCCatId :=
  (List.range rdr.curr_ccats.n_entries).filterMap fun i =>
    if rdr.curr_ccats.isFree gu_int32_hasher i then none else rdr.curr_ccats.values[i]?.join

/-- `pgf_read_ccat_cb`, run on the categories in the order in which the map lists them. -/
def pgf_read_extra_ccats (fuel : Nat) (order : List PgfCCatId) (st : Setting) : Exec Setting :=
  forEach (fun st c => (pgf_ccat_set_cnccat fuel st c).map Prod.fst) order st

/-! ## The grammar -/

/-- The categories of a concrete grammar. The pass over the category map is made
even when an exception has been raised. -/
def pgf_read_new_PgfConcr (fuel : Nat) (ccats : List CCatEntry) (cnccats : List CncCatEntry) :
    Exec (CncCatLoop × Setting) := do
  let rdr ← pgf_read_ccats ccats
  let st ← pgf_read_cnccats fuel rdr cnccats
  let set ← pgf_read_extra_ccats fuel st.rdr.order { ccatMem := st.rdr.ccatMem, newly_set := [] }
  return (st, set)

/-- The reader makes `concr` of the sections, without an exception. The map of
concrete categories lists its entries in the order of its table, whichever that is. -/
def PgfConcr.ReadFrom (concr : PgfConcr) (ccats : List CCatEntry) (cnccats : List CncCatEntry) : Prop :=
  ∃ fuel st set, pgf_read_new_PgfConcr fuel ccats cnccats = .ok (st, set) ∧ st.raised = false ∧
    concr.ccatMem = set.ccatMem ∧ concr.cnccatMem = st.rdr.cnccatMem ∧ concr.cnccats.Perm st.cnccats ∧
    concr.extra_ccats = set.newly_set

theorem PgfConcr.readFrom_of_check {concr : PgfConcr} {ccats : List CCatEntry} {cnccats : List CncCatEntry} (fuel : Nat)
    (h : (pgf_read_new_PgfConcr fuel ccats cnccats).toOption.any (fun r => decide (r.1.raised = false ∧
      concr.ccatMem = r.2.ccatMem ∧ concr.cnccatMem = r.1.rdr.cnccatMem ∧ concr.cnccats = r.1.cnccats ∧
      concr.extra_ccats = r.2.newly_set)) = true) : concr.ReadFrom ccats cnccats := by
  cases hread : pgf_read_new_PgfConcr fuel ccats cnccats with
  | error e => simp [hread, Except.toOption] at h
  | ok r =>
    simp only [hread, Except.toOption, Option.any_some, decide_eq_true_eq] at h
    obtain ⟨h₁, h₂, h₃, h₄, h₅⟩ := h
    exact ⟨fuel, r.1, r.2, hread, h₁, h₂, h₃, .of_eq h₄, h₅⟩

end Libpgf
