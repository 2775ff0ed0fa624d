import Libpgf.Pgf.Extraction
import Libpgf.Pgf.Session
/-!
# Which derivations are enumerated

`pgf_parse_result` enumerates the derivations in which no category occurs twice,
if its last walk is one of them. That leaves out derivations in which a category
is used at two places, neither of them inside the other.
-/

namespace Libpgf

variable {P : PgfParser}

open GuChoice

/-- All walks from the completed categories. -/
def Heap.walks (h : Heap P) (completed : List PgfCCatId) : Search (Exec (Option (Nat × Deriv))) :=
  allWalks h (h.ccats.length + 1) completed

/-- Every run of choices through the forest comes to its end, and the last one,
which takes the last alternative everywhere, is not cut. -/
def Heap.Uncut (h : Heap P) (completed : List PgfCCatId) : Prop := completed = [] ∨ Libpgf.Uncut (h.walks completed).runs

theorem allWalks_deep {h : Heap P} {fuel : Nat} (hfuel : h.ccats.length < fuel) (completed : List PgfCCatId) :
    allWalks h fuel completed = h.walks completed := by
  refine andThen_congr fun k _ => ?_
  cases k with
  | none => rfl
  | some k =>
    simp only
    split
    · rfl
    · rw [walk_deep hfuel]

/-! ## The enumeration -/

theorem result_ends {h : Heap P} {parse : PgfParse} (hun : h.Uncut parse.completed) {fuel : Nat} (hfuel : h.ccats.length < fuel)
    (hruns : (h.walks parse.completed).runs.length < fuel) :
    EndsAfter (pgf_parse_result_next h fuel) (pgf_parse_result parse)
      ((found (h.walks parse.completed).runs).map fun r => r.2.expr) := by
  by_cases hnil : parse.completed = []
  · have hfound : found (h.walks parse.completed).runs = [] := by
      rw [hnil]
      rfl
    rw [hfound, List.map_nil]
    refine .nil ?_
    cases fuel with
    | zero => omega
    | succ fuel =>
      simp only [pgf_parse_result, hnil]
      rfl
  · have hleft : PgfParseResult.Left h fuel (pgf_parse_result parse) _ := .start rfl
    rw [show (pgf_parse_result parse).completed = parse.completed from rfl, allWalks_deep hfuel] at hleft
    exact left_ends hnil hleft (hun.resolve_left hnil) hruns

theorem result_uncut {h : Heap P} {parse : PgfParse} {fuel : Nat} (hfuel : h.ccats.length < fuel) {es : List PgfExpr}
    (hends : EndsAfter (pgf_parse_result_next h fuel) (pgf_parse_result parse) es) : h.Uncut parse.completed := by
  by_cases hnil : parse.completed = []
  · exact .inl hnil
  · have hleft : PgfParseResult.Left h fuel (pgf_parse_result parse) _ := .start rfl
    rw [show (pgf_parse_result parse).completed = parse.completed from rfl, allWalks_deep hfuel] at hleft
    exact .inr (ends_uncut hnil hleft hends)

/-! ## The derivations -/

theorem Heap.Uncut.safe {h : Heap P} {completed : List PgfCCatId} (hun : h.Uncut completed) : Safe (h.walks completed) := by
  rcases hun with rfl | hun
  · intro e he
    simp [walks, allWalks, andThen, choice, Search.bind] at he
  · intro e he
    obtain ⟨r, hr, he⟩ := List.mem_map.1 he
    obtain ⟨o, ho⟩ := hun.1 r hr
    simp [ho] at he

theorem found_nodup (h : Heap P) (completed : List PgfCCatId) : (found (h.walks completed).runs).Nodup := by
  rw [found_yielded]
  refine nodup_andThen (k := id) Prod.fst (nodup_choice _) (fun k _ => ?_) fun k r _ hr => ?_
  · cases k with
    | none => simp [yielded]
    | some k =>
      simp only
      split
      · simp [yielded, Exec.abort]
      · refine nodup_andThen (k := Prod.fst) Prod.snd (walk_nodup h _ _ _) (fun r _ => ?_) fun r kd _ hkd => ?_
        · rcases r with ⟨_ | d, seen⟩ <;> simp [yielded]
        · rcases r with ⟨_ | d, seen⟩
          · simp [yielded] at hkd
          · simp only [yielded, Option.map_some, Search.leaves_done, List.filterMap_cons, List.filterMap_nil, id_eq,
              List.mem_singleton] at hkd
            rw [hkd]
  · cases k with
    | none => simp [yielded] at hr
    | some k =>
      simp only at hr
      split at hr
      · simp [yielded, Exec.abort] at hr
      · obtain ⟨o, ho, he⟩ := mem_yielded.1 hr
        obtain ⟨⟨d, seen⟩, -, ho⟩ := ok_mem_andThen.1 ho
        simp only [Search.leaves_done, List.mem_singleton, Except.ok.injEq] at ho
        cases d with
        | none => simp [ho] at he
        | some d =>
          simp only [ho, Option.map_some, id_eq, Option.some.injEq] at he
          rw [← he]
          rfl

/-- The walks make derivations without repeated categories. -/
theorem found_sound {h : Heap P} {completed : List PgfCCatId} {k : Nat} {d : Deriv}
    (hkd : (k, d) ∈ found (h.walks completed).runs) : ∃ c, completed[k]? = some c ∧ h.Derivation c d ∧ d.cats.Nodup := by
  rw [found_yielded] at hkd
  obtain ⟨o, ho, rfl⟩ := mem_yielded.1 hkd
  obtain ⟨i, -, ho⟩ := ok_mem_andThen.1 ho
  cases i with
  | none => simp at ho
  | some i =>
    simp only at ho
    split at ho
    · simp [Exec.abort] at ho
    · rename_i c hc
      obtain ⟨⟨d', seen⟩, hd, ho⟩ := ok_mem_andThen.1 ho
      simp only [Search.leaves_done, List.mem_singleton, Except.ok.injEq] at ho
      cases d' with
      | none => simp at ho
      | some d' =>
        simp only [Option.map_some, Option.some.injEq, Prod.mk.injEq] at ho
        obtain ⟨rfl, rfl⟩ := ho
        obtain ⟨hder, hfresh, -⟩ := walk_sound hd
        exact ⟨c, hc, hder, hfresh.1⟩

/-- When no run stops they make all of them. -/
theorem found_complete {h : Heap P} {completed : List PgfCCatId} (hsafe : Safe (h.walks completed)) {k : Nat} {c : PgfCCatId}
    {d : Deriv} (hk : completed[k]? = some c) (hd : h.Derivation c d) (hcats : d.cats.Nodup) :
    (k, d) ∈ found (h.walks completed).runs := by
  rw [found_yielded]
  unfold Heap.walks allWalks at hsafe ⊢
  obtain ⟨hchoice, hsafe⟩ := safe_andThen.1 hsafe
  have hmem := mem_choice hchoice (List.getElem?_eq_some_iff.1 hk).1
  have hsafe := hsafe _ hmem
  simp only [hk] at hsafe
  have hleaf := walk_complete hd (safe_andThen.1 hsafe).1 ⟨hcats, fun c _ => List.not_mem_nil⟩
  refine mem_yielded.2 ⟨some (k, d), ok_mem_andThen.2 ⟨_, hmem, ?_⟩, rfl⟩
  simp only [hk]
  exact ok_mem_andThen.2 ⟨_, hleaf, List.mem_singleton_self _⟩

/-! ## Nesting -/

namespace Deriv

mutual

/-- On no path from the root does a category occur twice, nor one of those in `above`. -/
def NoNesting (above : List PgfCCatId) : Deriv → Prop
  | use cat _ _ args => cat ∉ above ∧ NoNestings (cat :: above) args
  | metavar cat => cat ∉ above

def NoNestings (above : List PgfCCatId) : List Deriv → Prop
  | [] => True
  | d :: ds => d.NoNesting above ∧ NoNestings above ds

end

mutual

theorem noNesting_of_fresh {above : List PgfCCatId} : (d : Deriv) → Fresh above d.cats → d.NoNesting above
  | use cat n prod args, h => by
    rw [cats] at h
    have hargs : Fresh (cat :: above) (catss args) := (show Fresh above ([cat] ++ catss args) from h).of_append.2
    exact ⟨h.2 cat List.mem_cons_self, noNestings_of_fresh args hargs⟩
  | metavar cat, h => h.2 cat List.mem_cons_self

theorem noNestings_of_fresh {above : List PgfCCatId} : (ds : List Deriv) → Fresh above (catss ds) → NoNestings above ds
  | [], _ => trivial
  | d :: ds, h => by
    obtain ⟨hn, hs⟩ := h
    rw [catss] at hn hs
    obtain ⟨h₁, h₂, -⟩ := List.nodup_append.1 hn
    exact ⟨noNesting_of_fresh d ⟨h₁, fun c hc => hs c (List.mem_append_left _ hc)⟩,
      noNestings_of_fresh ds ⟨h₂, fun c hc => hs c (List.mem_append_right _ hc)⟩⟩

end

end Deriv

/-- The enumeration returns each derivation without nesting once, and then ends. -/
def Heap.EachOnce (h : Heap P) (parse : PgfParse) : Prop :=
  ∃ ds : List (Nat × Deriv), ds.Nodup ∧
    (∀ k d, (k, d) ∈ ds ↔ ∃ c, parse.completed[k]? = some c ∧ h.Derivation c d ∧ d.NoNesting []) ∧
    ∃ N, ∀ fuel, N ≤ fuel → EndsAfter (pgf_parse_result_next h fuel) (pgf_parse_result parse) (ds.map fun r => r.2.expr)

theorem Deriv.noNesting_of_nodup {d : Deriv} (hd : d.cats.Nodup) : d.NoNesting [] :=
  noNesting_of_fresh d ⟨hd, fun _ _ => List.not_mem_nil⟩

/-- What the enumeration returns comes from walks, and these repeat no category. -/
theorem Heap.EachOnce.walked {h : Heap P} {parse : PgfParse} (hone : h.EachOnce parse) :
    h.Uncut parse.completed ∧ ∀ c ∈ parse.completed, ∀ d, h.Derivation c d → d.NoNesting [] → d.cats.Nodup := by
  obtain ⟨ds, hnd, hds, N, hends⟩ := hone
  -- deep enough for both enumerations, and with enough rounds
  let fuel := N + h.ccats.length + (h.walks parse.completed).runs.length + 1
  have hun := result_uncut (h := h) (by omega) (hends fuel (by omega))
  refine ⟨hun, fun c hc d hd hn => ?_⟩
  have heq := (result_ends hun (by omega) (by omega)).unique (hends fuel (by omega))
  have hlen : (found (h.walks parse.completed).runs).length = ds.length := by
    simpa using congrArg List.length heq
  have hsub : found (h.walks parse.completed).runs ⊆ ds := by
    rintro ⟨k, d⟩ hkd
    obtain ⟨c, hc, hd, hcats⟩ := found_sound hkd
    exact (hds k d).2 ⟨c, hc, hd, Deriv.noNesting_of_nodup hcats⟩
  have hperm := (List.subperm_of_subset (found_nodup h _) hsub).perm_of_length_le (Nat.le_of_eq hlen.symm)
  obtain ⟨k, hk⟩ := List.getElem?_of_mem hc
  have hmem := hperm.mem_iff.2 ((hds k d).2 ⟨c, hk, hd, hn⟩)
  obtain ⟨c', -, -, hcats⟩ := found_sound hmem
  exact hcats

/-- Each derivation without nesting is enumerated once if and only if the last
walk is not cut and none of these derivations uses a category twice. -/
theorem each_derivation_once (h : Heap P) (parse : PgfParse) :
    h.EachOnce parse ↔ h.Uncut parse.completed ∧
      ∀ c ∈ parse.completed, ∀ d, h.Derivation c d → d.NoNesting [] → d.cats.Nodup := by
  constructor
  · exact Heap.EachOnce.walked
  · rintro ⟨hun, hcats⟩
    refine ⟨found (h.walks parse.completed).runs, found_nodup h _, fun k d => ⟨fun hkd => ?_, ?_⟩,
      h.ccats.length + (h.walks parse.completed).runs.length + 1, fun fuel hfuel => result_ends hun (by omega) (by omega)⟩
    · obtain ⟨c, hc, hd, hn⟩ := found_sound hkd
      exact ⟨c, hc, hd, Deriv.noNesting_of_nodup hn⟩
    · rintro ⟨c, hc, hd, hn⟩
      exact found_complete hun.safe hc hd (hcats c (List.mem_of_getElem? hc) d hd hn)

/-! ## A category used twice

`S → f[A, A]` with `f` = `"x"`, which refers to neither of its arguments. -/

namespace Twice

def f : PgfCncFun := { fun_ := [102], lins := [[.KS [[120]]]], fid := 0 }

def a : PgfCncFun := { fun_ := [97], lins := [[.KS [[97]]]], fid := 1 }

def concr : PgfConcr where
  ccatMem := [⟨some 0, .seq [.APPLY f [⟨[], 1⟩, ⟨[], 1⟩]], 0⟩, ⟨some 1, .seq [.APPLY a []], 1⟩]
  cnccatMem := [⟨[83], [some 0], 1, [[115]]⟩, ⟨[65], [some 1], 1, [[115]]⟩]
  cnccats := [([83], 0), ([65], 1)]
  extra_ccats := []
  prods_fixed := by decide
  prods_valid := by decide
  cats_valid := by decide

def parser : PgfParser := ⟨concr, fun _ => 0⟩

/-- The only completed category is one that `f` makes of two categories that were not refined. -/
def isTwice (h : Heap parser) (completed : List PgfCCatId) : Bool :=
  match completed with
  | [g] => decide ((h.ccats[g]?.map PgfCCat.prods) = some (.buf [.APPLY f [⟨[], 1⟩, ⟨[], 1⟩]])) &&
      decide ((h.ccats[1]?.map fun ccat => ccat.prods.isBuf) = some false)
  | _ => false

/-- The enumeration leaves out the derivation with two metavariables of one category. -/
theorem isTwice_spec {h : Heap parser} {parse : PgfParse} (hcheck : isTwice h parse.completed = true) : ¬ h.EachOnce parse := by
  unfold isTwice at hcheck
  split at hcheck
  · rename_i g hcomp
    simp only [Bool.and_eq_true, decide_eq_true_eq, Option.map_eq_some_iff] at hcheck
    obtain ⟨⟨ccat, hg, hprods⟩, ⟨ccat', hA, hbuf⟩⟩ := hcheck
    intro hone
    have hder : h.Derivation g (.use g 0 (.APPLY f [⟨[], 1⟩, ⟨[], 1⟩]) [.metavar 1, .metavar 1]) := by
      refine .use hg hprods rfl rfl fun i parg d hi hd => ?_
      match i with
      | 0 | 1 =>
        cases hi
        cases hd
        exact .metavar hA hbuf
    have hg1 : 1 ≠ g := by
      rintro rfl
      rw [hA] at hg
      cases hg
      simp [hprods, PgfProductions.isBuf] at hbuf
    have hnest : (Deriv.use g 0 (.APPLY f [⟨[], 1⟩, ⟨[], 1⟩]) [.metavar 1, .metavar 1]).NoNesting [] := by
      simp [Deriv.NoNesting, Deriv.NoNestings, hg1]
    have hcats := hone.walked.2 g (by simp [hcomp]) _ hder hnest
    simp [Deriv.cats, Deriv.catss] at hcats
  · cases hcheck

end Twice

/-- A reachable state with a derivation that the enumeration leaves out. -/
theorem twice_used_left_out : ∃ (l : List (Call Twice.parser)) (parse : PgfParse), Session Twice.parser l ∧
    (heapAfter l).parses[1]? = some parse ∧ parse.completed.length ≤ 255 ∧
    (∀ ccat ∈ (heapAfter l).ccats, ccat.prods.elems.length ≤ 255) ∧ ¬ (heapAfter l).EachOnce parse := by
  obtain ⟨l, hl, hcheck⟩ := Session.of_check 20 [.parse [83] 0, .token 0 [120]] (fun l : List (Call Twice.parser) =>
    ((heapAfter l).parses[1]?).any fun parse : PgfParse => decide (parse.completed.length ≤ 255) &&
      decide (∀ ccat ∈ (heapAfter l).ccats, ccat.prods.elems.length ≤ 255) && Twice.isTwice (heapAfter l) parse.completed)
    (by decide +kernel)
  obtain ⟨parse, hp, hcheck⟩ := (Option.any_eq_true _ _).1 hcheck
  simp only [Bool.and_eq_true, decide_eq_true_eq] at hcheck
  exact ⟨l, parse, hl, hp, hcheck.1.1, hcheck.1.2, Twice.isTwice_spec hcheck.2⟩

end Libpgf
