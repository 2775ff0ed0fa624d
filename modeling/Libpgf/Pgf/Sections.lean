import Libpgf.Gu.MapRefines
import Libpgf.Pgf.Interning
/-!
# Category sections are read

Each reference and each entry puts at most one new id into the map, and a map of
few ids can always be extended. So a section that mentions few ids is read.
-/

namespace Libpgf

namespace GuMap

theorem Inserts.occupied_le {K V : Type} {h : GuHasher K} {m : GuMap K V} {k : K} {r : GuMap K V × Nat} (hr : Inserts h m k r)
    (hm : m.Table h) : r.1.n_occupied ≤ m.n_occupied + 1 := by
  rw [hr.table.occupied, hr.entries.length_eq, hm.occupied, inserted, Assoc.insert]
  split
  · exact Nat.le_succ _
  · exact Nat.le_refl _

end GuMap

namespace PgfReader
variable {rdr : PgfReader} {n : Nat}

/-- The map has `n` ids at most, in a table of pointers under `int32_t`s. -/
structure Few (rdr : PgfReader) (n : Nat) : Prop where
  table : rdr.curr_ccats.Table gu_int32_hasher
  key_size : rdr.curr_ccats.key_size = 4
  value_size : rdr.curr_ccats.value_size = 8
  occupied_le : rdr.curr_ccats.n_occupied ≤ n

theorem Few.mono {m : Nat} (h : rdr.Few n) (hle : n ≤ m) : rdr.Few m := ⟨h.table, h.key_size, h.value_size, h.occupied_le.trans hle⟩

/-- An insertion into a map of few ids, and what is written through the pointer that it returns. -/
theorem Few.insert (h : rdr.Few n) (hn : n ≤ 2 ^ 24) (fid : Int) : ∃ map i,
    rdr.curr_ccats.gu_map_insert gu_int32_hasher fid = .ok (map, i) ∧ (∃ v, map.values[i]? = some v) ∧
      (∀ mem cnc, ({ ccatMem := mem, cnccatMem := cnc, curr_ccats := map } : PgfReader).Few (n + 1)) ∧
      ∀ mem cnc v, ({ ccatMem := mem, cnccatMem := cnc, curr_ccats := map.put i v } : PgfReader).Few (n + 1) := by
  have hx : rdr.curr_ccats.Extensible := GuMap.extensible_of_le (by rw [h.key_size]; decide) (by rw [h.key_size]; decide)
    (by rw [h.value_size]; decide) (h.occupied_le.trans hn)
  obtain ⟨⟨map, i⟩, hrun, hins⟩ := h.table.insert_returns fid fun _ _ => hx
  have hlt : i < map.values.length := hins.table.length.symm ▸ hins.used.1
  have hocc := (hins.occupied_le h.table).trans (Nat.succ_le_succ h.occupied_le)
  have hks := hins.same.key_size.trans h.key_size
  have hvs := hins.same.value_size.trans h.value_size
  exact ⟨map, i, hrun, ⟨_, List.getElem?_eq_getElem hlt⟩, fun _ _ => ⟨hins.table, hks, hvs, hocc⟩,
    fun _ _ v => ⟨(hins.table.put_table hins.used hins.key v).1, hks, hvs, hocc⟩⟩

theorem intern_returns (h : rdr.Few n) (hn : n ≤ 2 ^ 24) (fid : Int) :
    ∃ rdr' c, pgf_reader_intern_ccat rdr fid = .ok (rdr', c) ∧ rdr'.Few (n + 1) := by
  obtain ⟨map, i, hins, ⟨v, hv⟩, hfew, hput⟩ := h.insert hn fid
  unfold pgf_reader_intern_ccat
  rw [hins, Exec.ok_bind]
  dsimp only
  rw [hv, Exec.deref_some, Exec.ok_bind]
  cases v with
  | some c => exact ⟨_, c, rfl, hfew _ _⟩
  | none => exact ⟨_, _, rfl, hput _ _ _⟩

/-- Reads of something that mentions ids, each of them in the map afterwards. -/
def Returns {α β : Type} (read : PgfReader → α → Exec (PgfReader × β)) (ids : α → List Int) : Prop :=
  ∀ {rdr : PgfReader} {n : Nat} (a : α), rdr.Few n → n + (ids a).length ≤ 2 ^ 24 →
    ∃ rdr' b, read rdr a = .ok (rdr', b) ∧ rdr'.Few (n + (ids a).length)

theorem seq_returns {α β : Type} {read : PgfReader → α → Exec (PgfReader × β)} {ids : α → List Int} (hread : Returns read ids) :
    Returns (pgf_read_to_GuSeq read) (List.flatMap ids) := by
  intro rdr n as h hn
  induction as generalizing rdr n with
  | nil => exact ⟨rdr, [], rfl, h⟩
  | cons a as ih =>
    rw [List.flatMap_cons, List.length_append, ← Nat.add_assoc] at hn ⊢
    obtain ⟨rdr₁, b, h₁, hfew₁⟩ := hread a h (by omega)
    obtain ⟨rdr₂, bs, h₂, hfew₂⟩ := ih hfew₁ hn
    refine ⟨rdr₂, b :: bs, ?_, hfew₂⟩
    rw [pgf_read_to_GuSeq, h₁, Exec.ok_bind]
    dsimp only
    rw [h₂]
    rfl

theorem ids_returns : Returns pgf_reader_intern_ccat fun fid => [fid] := by
  intro rdr n fid h hn
  exact intern_returns h (by rw [List.length_singleton] at hn; omega) fid

theorem parg_returns : Returns pgf_read_to_PgfPArg PArgEntry.ids := by
  intro rdr n arg h hn
  rw [PArgEntry.ids, List.length_append, List.length_singleton, ← Nat.add_assoc] at hn ⊢
  obtain ⟨rdr₁, hypos, h₁, hfew₁⟩ := seq_returns ids_returns arg.hypos h (by rw [List.flatMap_singleton']; omega)
  rw [List.flatMap_singleton'] at hfew₁
  obtain ⟨rdr₂, ccat, h₂, hfew₂⟩ := intern_returns hfew₁ (by omega) arg.ccat
  refine ⟨rdr₂, ⟨hypos, ccat⟩, ?_, hfew₂⟩
  rw [pgf_read_to_PgfPArg, h₁, Exec.ok_bind]
  dsimp only
  rw [h₂]
  rfl

theorem production_returns : Returns pgf_read_to_PgfProduction ProductionEntry.ids := by
  intro rdr n prod h hn
  cases prod with
  | APPLY fun_ args =>
    obtain ⟨rdr', args', hread, hfew⟩ := seq_returns parg_returns args h hn
    refine ⟨rdr', .APPLY fun_ args', ?_, hfew⟩
    rw [pgf_read_to_PgfProduction, hread]
    rfl
  | COERCE fid =>
    obtain ⟨rdr', c, hread, hfew⟩ := ids_returns fid h hn
    refine ⟨rdr', .COERCE c, ?_, hfew⟩
    rw [pgf_read_to_PgfProduction, hread]
    rfl

/-- An entry is put into the map under its own id once more. -/
theorem entry_returns {entries : List CCatEntry} (entry : CCatEntry) (hl : Listed entries rdr) (h : rdr.Few n)
    (hn : n + (entry.ids.length + 1) ≤ 2 ^ 24) :
    ∃ rdr', pgf_read_ccat_entry rdr entry = .ok rdr' ∧ rdr'.Few (n + (entry.ids.length + 1)) := by
  rw [CCatEntry.ids, List.length_cons] at hn ⊢
  obtain ⟨rdr₁, c, h₁, hfew₁⟩ := intern_returns h (by omega) entry.fid
  obtain ⟨rdr₂, prods, h₂, hfew₂⟩ := seq_returns production_returns entry.prods hfew₁ (by omega)
  obtain ⟨hr₁, -, hname⟩ := intern_spec hl.interned h₁
  have hps := seq_reads (fun _ _ _ _ hr h => production_reads hr h) hr₁ h₂
  obtain ⟨ccat, hc, -⟩ := hps.interned.fid _ _ (hps.grows.names _ _ hname)
  have hset : (rdr₂.setCCat c { ccat with prods := .seq prods }).Few _ := ⟨hfew₂.table, hfew₂.key_size, hfew₂.value_size, hfew₂.occupied_le⟩
  obtain ⟨map, i, hins, -, -, hput⟩ := hset.insert (by omega) entry.fid
  have hrun : pgf_read_ccat_entry rdr entry =
      .ok { rdr₂.setCCat c { ccat with prods := .seq prods } with curr_ccats := map.put i (some c) } := by
    rw [pgf_read_ccat_entry, pgf_read_new_PgfCCat, h₁]
    simp only [Exec.ok_bind, h₂, hc, Exec.deref_some, hins, Exec.pure_eq]
  exact ⟨_, hrun, (hput _ _ _).mono (by omega)⟩

theorem entries_return {entries more : List CCatEntry} (hl : Listed entries rdr) (h : rdr.Few n)
    (hn : n + ((more.flatMap CCatEntry.ids).length + more.length) ≤ 2 ^ 24) : ∃ rdr', forEach pgf_read_ccat_entry more rdr = .ok rdr' := by
  induction more generalizing entries rdr n with
  | nil => exact ⟨rdr, rfl⟩
  | cons entry more ih =>
    rw [List.flatMap_cons, List.length_append, List.length_cons] at hn
    obtain ⟨rdr₁, h₁, hfew₁⟩ := entry_returns entry hl h (by omega)
    obtain ⟨rdr₂, h₂⟩ := ih (entry_listed hl h₁) hfew₁ (by omega)
    exact ⟨rdr₂, by rw [forEach_cons, h₁, Exec.ok_bind, h₂]⟩

end PgfReader

/-- A section is read when its entries and the ids in them are `2 ^ 24` at most. -/
theorem pgf_read_ccats_returns {entries : List CCatEntry} (h : (entries.flatMap CCatEntry.ids).length + entries.length ≤ 2 ^ 24) :
    ∃ rdr, pgf_read_ccats entries = .ok rdr := by
  have hx : (GuMap.blank 4 8 (some none) none : GuMap Int (Option PgfCCatId)).Extensible :=
    GuMap.extensible_of_le (by decide) (by decide) (by decide) (Nat.zero_le _)
  obtain ⟨map, hmake, hsame, hholds⟩ := GuMap.make_returns (h := gu_int32_hasher) hx
  have hocc : map.n_occupied ≤ 0 := by rw [hholds.table.occupied, hholds.entries.length_eq, List.length_nil]
  have hfew : ({ ccatMem := [], cnccatMem := [], curr_ccats := map } : PgfReader).Few 0 :=
    ⟨hholds.table, hsame.key_size, hsame.value_size, hocc⟩
  have hread : pgf_read_ccats [] = .ok { ccatMem := [], cnccatMem := [], curr_ccats := map } := by
    rw [pgf_read_ccats, hmake]
    rfl
  obtain ⟨rdr, hrun⟩ := PgfReader.entries_return (PgfReader.ccats_listed hread) hfew (by rwa [Nat.zero_add])
  exact ⟨rdr, by rw [pgf_read_ccats, hmake, Exec.ok_bind, hrun]⟩

end Libpgf
