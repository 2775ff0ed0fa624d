import Libpgf.Pgf.Parser
import Libpgf.Pgf.Reader
/-!
# Constituents by label

`pgf_concr_cat_ctnt_id` finds a label in the list that the file gives, and
`pgf_parser_parse` takes the constituents that the productions have. Nothing
compares the two.
-/

namespace Libpgf

/-- The first place of the label, or none for `PGF_CTNT_ID_BAD`. -/
def pgf_cnccat_ctnt_id_ (cnccat : PgfCncCat) (ctnt : GuString) : Option Nat := cnccat.ctnts.idxOf? ctnt

/-- A null label names the only constituent. -/
def pgf_concr_cat_ctnt_id (concr : PgfConcr) (cat : PgfCId) (ctnt : Option GuString) : Exec (Option Nat) :=
  match concr.cnccats.lookup cat with
  | none => .ok none
  | some id => do
    let cnccat ← Exec.deref concr.cnccatMem[id]?
    match ctnt with
    | none => return if cnccat.n_ctnts = 1 then some 0 else none
    | some ctnt => return pgf_cnccat_ctnt_id_ cnccat ctnt

namespace PgfConcr
variable {concr : PgfConcr} {cat : PgfCId} {lin_idx : Nat}

/-- The precondition of `pgf_parser_parse`. -/
def Accepts (concr : PgfConcr) (cat : PgfCId) (lin_idx : Nat) : Prop :=
  ∀ c cnccat, concr.cnccats.lookup cat = some c → concr.cnccatMem[c]? = some cnccat → lin_idx < cnccat.n_ctnts

/-- The labels that the productions have no constituents for occur before, too. -/
def Labelled (concr : PgfConcr) (cat : PgfCId) : Prop :=
  ∀ c cnccat, concr.cnccats.lookup cat = some c → concr.cnccatMem[c]? = some cnccat →
    cnccat.ctnts.drop cnccat.n_ctnts ⊆ cnccat.ctnts.take cnccat.n_ctnts

end PgfConcr

/-- A parse for a constituent that is not accepted is aborted, whatever the parser has done before. -/
theorem parse_refused {P : PgfParser} {cat : PgfCId} {lin_idx : Nat} (h : ¬ P.concr.Accepts cat lin_idx) (fuel : Nat)
    (heap : Heap P) : (pgf_parser_parse fuel heap cat lin_idx).isOk = false := by
  unfold PgfConcr.Accepts at h
  push Not at h
  obtain ⟨c, cnccat, hl, hc, hge⟩ := h
  unfold pgf_parser_parse
  rw [hl]
  cases pgf_new_parsing heap with
  | error e => rfl
  | ok s =>
    rw [Exec.ok_bind]
    simp only [hc, Exec.deref_some, Exec.ok_bind, Exec.require, if_neg (Nat.not_lt.2 hge)]
    rfl

theorem idxOf?_lt_iff {ctnts : List GuString} {n : Nat} :
    (∀ l i, ctnts.idxOf? l = some i → i < n) ↔ ctnts.drop n ⊆ ctnts.take n := by
  constructor
  · intro h l hl
    obtain ⟨i, hi, rfl⟩ := List.mem_iff_getElem.1 (List.mem_of_mem_drop hl)
    cases hx : ctnts.idxOf? ctnts[i] with
    | none => exact absurd (List.getElem_mem hi) (List.idxOf?_eq_none_iff.1 hx)
    | some j =>
      obtain ⟨hj, he, -⟩ := List.idxOf?_eq_some_iff.1 hx
      rw [← he]
      exact List.mem_take_iff_getElem.2 ⟨j, by rw [Nat.lt_min]; exact ⟨h _ j hx, hj⟩, rfl⟩
  · intro h l i hx
    obtain ⟨hi, he, hfirst⟩ := List.idxOf?_eq_some_iff.1 hx
    by_contra hge
    have hdrop : l ∈ ctnts.drop n := by
      rw [← he]
      exact List.mem_drop_iff_getElem.2 ⟨i - n, by omega, by simp [Nat.add_sub_cancel' (Nat.le_of_not_lt hge)]⟩
    obtain ⟨j, hj, hjl⟩ := List.mem_take_iff_getElem.1 (h hdrop)
    rw [Nat.lt_min] at hj
    exact hfirst j (by omega) hjl

/-- Exactly when every id that a label has is accepted by the parser: when the
category's labels beyond its constituents repeat earlier ones. -/
theorem ctnt_id_accepted_iff (concr : PgfConcr) (cat : PgfCId) :
    (∀ ctnt id, pgf_concr_cat_ctnt_id concr cat ctnt = .ok (some id) → concr.Accepts cat id) ↔ concr.Labelled cat := by
  constructor
  · intro h c cnccat hl hc
    refine idxOf?_lt_iff.1 fun l i hx => h (some l) i ?_ c cnccat hl hc
    simp only [pgf_concr_cat_ctnt_id, hl, hc, Exec.deref_some, Exec.ok_bind, pgf_cnccat_ctnt_id_, hx, Exec.pure_eq]
  · intro h ctnt id hid c cnccat hl hc
    simp only [pgf_concr_cat_ctnt_id, hl, hc, Exec.deref_some, Exec.ok_bind] at hid
    cases ctnt with
    | none =>
      simp only [Exec.pure_eq, Except.ok.injEq] at hid
      split at hid
      · rename_i hone
        cases hid
        omega
      · cases hid
    | some l => exact idxOf?_lt_iff.2 (h c cnccat hl hc) l id (Except.ok.inj hid)

/-! ## A category that the grammar has erased -/

namespace Erased

/-- A concrete category with one label, whose range has no category in the file. -/
def entry : CncCatEntry := { cid := [83], first := 0, last := 0, ctnts := [[115]] }

def cnccat : PgfCncCat := { cid := [83], cats := [none], n_ctnts := 0, ctnts := [[115]] }

def concr : PgfConcr where
  ccatMem := []
  cnccatMem := [cnccat]
  cnccats := [([83], 0)]
  extra_ccats := []
  prods_fixed := by decide
  prods_valid := by decide
  cats_valid := by decide

def parser : PgfParser := ⟨concr, fun _ => 0⟩

/-- The reader, on a file without categories. -/
def read : Exec (PgfReader × Option PgfCncCatId) := pgf_read_ccats [] >>= fun rdr => pgf_read_new_PgfCncCat 1 rdr entry

end Erased

/-- The reader accepts the category, its label has an id, and a parse with the id is aborted. -/
theorem erased_label_aborts :
    (∃ rdr, Erased.read = .ok (rdr, some 0) ∧ rdr.ccatMem = Erased.concr.ccatMem ∧
      rdr.cnccatMem = Erased.concr.cnccatMem) ∧
    pgf_concr_cat_ctnt_id Erased.concr [83] (some [115]) = .ok (some 0) ∧ ¬ Erased.concr.Accepts [83] 0 ∧
    ∀ fuel (heap : Heap Erased.parser), (pgf_parser_parse fuel heap [83] 0).isOk = false := by
  have hno : ¬ Erased.concr.Accepts [83] 0 := fun h => absurd (h 0 Erased.cnccat rfl rfl) (Nat.lt_irrefl 0)
  refine ⟨?_, rfl, hno, fun fuel heap => parse_refused (P := Erased.parser) hno fuel heap⟩
  have hread : Erased.read.toOption.any (fun r => decide (r.2 = some 0 ∧ r.1.ccatMem = Erased.concr.ccatMem ∧
      r.1.cnccatMem = Erased.concr.cnccatMem)) = true := by decide +kernel
  cases h : Erased.read with
  | error e => simp [h, Except.toOption] at hread
  | ok r =>
    simp only [h, Except.toOption, Option.any_some, decide_eq_true_eq] at hread
    obtain ⟨h₁, h₂, h₃⟩ := hread
    exact ⟨r.1, by rw [← h₁], h₂, h₃⟩

end Libpgf
