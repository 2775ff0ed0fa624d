import Libpgf.Pgf.Inference
/-!
# Inference explores the search tree

`pgf_lzn_infer` goes back from a failure inside of an application to the last
argument with another alternative. All in all it makes the runs of the search
tree of the expression up to the first that does not fail.
-/

namespace Libpgf

open GuChoice

/-- What the code returns for a derivation. -/
def treeOf (a : PgfCCatId × Inferred Nat) : PgfCCatId × PgfCncTree := (a.1, a.2.tree)

/-- What the code keeps of an argument. -/
def Arg.kept (a : Arg) : PgfCCatId × PgfCncTree := (a.cat, a.deriv.tree)

variable {lzr : PgfLzr} {l : Listing}

/-! ## One argument -/

theorem explores_arg (hl : Indexed lzr l) {infer : PgfExpr → GuChoice → Exec (Option (PgfCCatId × PgfCncTree) × GuChoice)}
    {fuel depth : Nat} (hdeep : ∀ cat, superTree l fuel cat = superTree l depth cat)
    {s : Search (Exec (Option (PgfCCatId × Inferred Nat)))} {expr : PgfExpr} (h : Explores treeOf s (infer expr)) :
    Explores Arg.kept (stage l depth s) (infer_arg lzr fuel infer expr) := by
  have hrun : Explores Arg.kept (andAlso s fun a => andThen (superTree l depth a.1) fun c => .done (.ok (some ⟨c.1, c.2, a.2⟩)))
      (thenRun (infer expr) (fun a => pgf_lzn_pick_supercat lzr fuel a.1) fun a c => (c, a.2)) := by
    refine h.then_run (fun a => superTree_small _ _ _) (fun a ch => ?_) fun _ _ => rfl
    rw [← hdeep]
    exact pick_run hl _ _ _
  have heq : infer_arg lzr fuel infer expr =
      thenRun (infer expr) (fun a => pgf_lzn_pick_supercat lzr fuel a.1) fun a c => (c, a.2) := by
    funext ch
    refine bind_congr fun r => ?_
    rcases r with ⟨_ | b, ch'⟩ <;> rfl
  rw [heq]
  exact hrun

/-! ## Where a trial stands -/

/-- The arguments inferred so far, and the mark behind them. -/
structure PgfTrial.At (t : PgfTrial) (pre : List Nat) (args : List Arg) : Prop where
  cats : t.arg_cats = args.map Arg.cat
  trees : t.arg_trees = args.map fun a => a.deriv.tree
  marks : t.marks.length = args.length + 1
  mark : t.marks[args.length]? = some pre.length

namespace PgfTrial.At
variable {t : PgfTrial} {pre : List Nat} {args : List Arg}

theorem ip (h : t.At pre args) : t.ip = args.length := by rw [PgfTrial.ip, h.cats, List.length_map]

theorem push (h : t.At pre args) (p : List Nat) (a : Arg) :
    (t.push a.cat a.deriv.tree (pre ++ p).length).At (pre ++ p) (args ++ [a]) where
  cats := by simp [PgfTrial.push, h.cats]
  trees := by simp [PgfTrial.push, h.trees]
  marks := by simp [PgfTrial.push, h.marks]
  mark := by
    have hlen : (args ++ [a]).length = t.marks.length := by rw [h.marks, List.length_append, List.length_singleton]
    simp [PgfTrial.push, hlen]

/-- Setting `i` back undoes it. -/
theorem cut_push (h : t.At pre args) (cat : PgfCCatId) (tree : PgfCncTree) (mark : GuChoiceMark) :
    (t.push cat tree mark).cut args.length = t := by
  obtain ⟨marks, arg_cats, arg_trees⟩ := t
  have h₁ : args.length + 1 = marks.length := h.marks.symm
  have h₂ : args.length = arg_cats.length := by
    have := congrArg List.length h.cats
    simpa using this.symm
  have h₃ : args.length = arg_trees.length := by
    have := congrArg List.length h.trees
    simpa using this.symm
  simp only [PgfTrial.push, PgfTrial.cut, PgfTrial.mk.injEq]
  refine ⟨?_, ?_, ?_⟩
  · rw [h₁, List.take_left']
    rfl
  · rw [h₂, List.take_left']
    rfl
  · rw [h₃, List.take_left']
    rfl

end PgfTrial.At

/-! ## The loops of an application -/

section Application
variable (lzr) (fuel : Nat) (infer : PgfExpr → GuChoice → Exec (Option (PgfCCatId × PgfCncTree) × GuChoice))
  (args : List PgfExpr) (infer_map : PgfInferMap)

/-- What `pgf_lzn_infer_application` does after a failure. -/
def resume (n : Nat) (t : PgfTrial) (ch : GuChoice) : Exec (Option (PgfCCatId × PgfCncTree) × GuChoice) :=
  infer_back t.ip t ch >>= fun r =>
    match r.1 with
    | none => .ok (none, r.2)
    | some t => infer_application_loop lzr fuel infer args infer_map n t r.2

/-- What it does from the arguments `rest` on. -/
def tail (n : Nat) : List PgfExpr → PgfTrial → GuChoice → Exec (Option (PgfCCatId × PgfCncTree) × GuChoice)
  | [], t, ch =>
    match infer_map t.arg_cats with
    | none => resume lzr fuel infer args infer_map n t ch
    | some entries => gu_choice_next ch entries.length >>= fun r =>
      match r.1 with
      | none => resume lzr fuel infer args infer_map n t r.2
      | some e => Exec.deref entries[e]? >>= fun entry => .ok (some (entry.cat, .APP entry.fun_ t.arg_trees), r.2)
  | arg :: rest, t, ch => infer_arg lzr fuel infer arg ch >>= fun r =>
    match r.1 with
    | none => resume lzr fuel infer args infer_map n t r.2
    | some a => gu_choice_mark r.2 >>= fun mark => tail n rest (t.push a.1 a.2 mark) r.2

theorem try_tail (n : Nat) (rest : List PgfExpr) (t : PgfTrial) (ch : GuChoice) :
    (infer_apply_args lzr fuel infer rest t ch >>= fun r =>
      (if !r.1 then .ok (none, r.2.1, r.2.2)
      else match infer_map r.2.1.arg_cats with
        | none => .ok (none, r.2.1, r.2.2)
        | some entries => gu_choice_next r.2.2 entries.length >>= fun e =>
          match e.1 with
          | none => .ok (none, r.2.1, e.2)
          | some e' => Exec.deref entries[e']? >>= fun entry => .ok (some entry, r.2.1, e.2)) >>= fun r =>
      match r.1 with
      | some entry => .ok (some (entry.cat, .APP entry.fun_ r.2.1.arg_trees), r.2.2)
      | none => resume lzr fuel infer args infer_map n r.2.1 r.2.2) = tail lzr fuel infer args infer_map n rest t ch := by
  induction rest generalizing t ch with
  | nil =>
    simp only [infer_apply_args, Exec.ok_bind, Bool.not_true, Bool.false_eq_true, if_false, tail]
    cases infer_map t.arg_cats with
    | none => rfl
    | some entries =>
      simp only [bind_assoc]
      refine bind_congr fun r => ?_
      rcases r with ⟨_ | e, ch'⟩
      · rfl
      · simp only [bind_assoc]
        rfl
  | cons arg rest ih =>
    simp only [infer_apply_args, tail, bind_assoc]
    refine bind_congr fun r => ?_
    rcases r with ⟨_ | a, ch'⟩
    · rfl
    · simp only [bind_assoc, ih]

/-- A round of the loop. -/
theorem loop_tail (n : Nat) (t : PgfTrial) (ch : GuChoice) :
    infer_application_loop lzr fuel infer args infer_map (n + 1) t ch =
      tail lzr fuel infer args infer_map n (args.drop t.ip) t ch := by
  rw [← try_tail, infer_application_loop, pgf_lzn_infer_apply_try, bind_assoc]
  refine bind_congr fun r => ?_
  rcases r with ⟨_ | _, t', ch'⟩
  · rfl
  · simp only [Bool.not_true, Bool.false_eq_true, if_false]
    cases infer_map t'.arg_cats with
    | none => rfl
    | some entries =>
      simp only [bind_assoc]
      refine bind_congr fun r => ?_
      rcases r with ⟨_ | e, ch''⟩
      · rfl
      · simp only [bind_assoc]
        rfl

end Application

/-! ## How a search among arguments ends -/

section Ends
variable {fuel : Nat} {infer : PgfExpr → GuChoice → Exec (Option (PgfCCatId × PgfCncTree) × GuChoice)} {args : List PgfExpr}
  {infer_map : PgfInferMap}

/-- Within fewer rounds than there are runs, the loop has found the first run that does not fail, or goes back
further. -/
def Ends (lzr : PgfLzr) (fuel : Nat) (infer : PgfExpr → GuChoice → Exec (Option (PgfCCatId × PgfCncTree) × GuChoice))
    (args : List PgfExpr) (infer_map : PgfInferMap) (rest : List PgfExpr) (t : PgfTrial) (ch : GuChoice) (pre : List Nat)
    (rs : List (List Nat × Exec (Option (PgfCCatId × Inferred Nat)))) : Prop :=
  ∃ k < rs.length, match first rs with
    | none => ∃ ch', ch'.At pre [] ∧
        ∀ n, tail lzr fuel infer args infer_map (n + k) rest t ch = resume lzr fuel infer args infer_map n t ch'
    | some (p, .ok a) => ∃ ch', ch'.At (pre ++ p) [] ∧
        ∀ n, tail lzr fuel infer args infer_map (n + k) rest t ch = .ok (some (treeOf a), ch')
    | some (_, .error e) => ∀ n, tail lzr fuel infer args infer_map (n + k) rest t ch = .error e

/-- Where a production fits, the run does not fail. -/
theorem entryTree_some {f : PgfCId} {done : List Arg} (hsel : l.select (entryOf f (done.map Arg.cat)) ≠ []) {ch ch' : GuChoice} :
    run (entryTree l f done) ch ≠ .ok (none, ch') := by
  intro h
  rw [entryTree, run_andThen, run_choice] at h
  obtain ⟨⟨_ | k, ch₁⟩, hnext, h⟩ := Exec.bind_ok.1 h
  · exact hsel (List.length_eq_zero_iff.1 (next_none hnext))
  · simp only at h
    split at h
    · simp [run, Exec.abort, Except.map] at h
    · simp [run, Except.map] at h

theorem tail_nil (hl : Indexed lzr l) {f : PgfCId} (hmap : lzr.fun_indices f = some infer_map) {t : PgfTrial} {pre : List Nat}
    {done : List Arg} (ht : t.At pre done) (hsel : l.select (entryOf f (done.map Arg.cat)) ≠ []) (n : Nat) (ch : GuChoice) :
    tail lzr fuel infer args infer_map n [] t ch = run (entryTree l f done) ch >>= fun r => .ok (r.1.map treeOf, r.2) := by
  have hmapped : infer_map t.arg_cats = some ((l.select (entryOf f (done.map Arg.cat))).map Prod.snd) := by
    rw [ht.cats, hl.entries f infer_map _ hmap, bufOf, if_neg (by simpa using hsel)]
  simp only [tail, hmapped, entryTree, run_andThen, run_choice, bind_assoc, List.length_map]
  cases hnext : gu_choice_next ch (l.select (entryOf f (done.map Arg.cat))).length with
  | error e => rfl
  | ok r =>
    obtain ⟨_ | k, ch₁⟩ := r
    · exact absurd (List.length_eq_zero_iff.1 (next_none hnext)) hsel
    · simp only [Exec.ok_bind, List.getElem?_map]
      cases hk : (l.select (entryOf f (done.map Arg.cat)))[k]? with
      | none => rfl
      | some entry =>
        simp only [Option.map_some, Exec.deref_some, Exec.ok_bind, ht.trees, run, Except.map, treeOf, Inferred.tree,
          Inferred.trees_eq, List.map_map]
        rfl

theorem tail_find_nil (hl : Indexed lzr l) {f : PgfCId} (hmap : lzr.fun_indices f = some infer_map) {t : PgfTrial} {pre q : List Nat}
    {done : List Arg} (ht : t.At pre done) {ch : GuChoice} (hch : ch.At pre q)
    {rs : List (List Nat × Exec (Option (PgfCCatId × Inferred Nat)))} (hq : (entryTree l f done).After q rs) :
    Ends lzr fuel infer args infer_map [] t ch pre rs := by
  by_cases hsel : l.select (entryOf f (done.map Arg.cat)) = []
  · have hnone : infer_map t.arg_cats = none := by
      rw [ht.cats, hl.entries f infer_map _ hmap, hsel]
      rfl
    rw [entryTree, hsel] at hq
    cases hq
    refine ⟨0, Nat.zero_lt_one, ch, hch, fun n => ?_⟩
    simp only [tail, hnone]
    rfl
  · obtain ⟨p, r, rest, ch', rfl, hat, hrun⟩ := run_after hq (entryTree_small l f done) hch
    refine ⟨0, by simp, ?_⟩
    rcases r with e | _ | a
    · intro n
      rw [tail_nil hl hmap ht hsel, hrun]
      rfl
    · exact absurd hrun (entryTree_some hsel)
    · refine ⟨ch', hat, fun n => ?_⟩
      rw [tail_nil hl hmap ht hsel, hrun]
      rfl

theorem tail_replay_nil (hl : Indexed lzr l) {f : PgfCId} (hmap : lzr.fun_indices f = some infer_map) {t : PgfTrial}
    {pre p x : List Nat} {done : List Arg} (ht : t.At pre done) {ch : GuChoice} {a : PgfCCatId × Inferred Nat}
    (hp : (p, .ok (some a)) ∈ (entryTree l f done).runs) (hch : ch.At pre (p ++ x)) (n : Nat) :
    ∃ ch', tail lzr fuel infer args infer_map n [] t ch = .ok (some (treeOf a), ch') ∧ ch'.At (pre ++ p) x := by
  have hsel : l.select (entryOf f (done.map Arg.cat)) ≠ [] := by
    intro hsel
    rw [entryTree, hsel] at hp
    simp [andThen, choice, Search.bind, Search.runs] at hp
  obtain ⟨ch', hrun, hat⟩ := run_replay (entryTree_small l f done) hp hch
  refine ⟨ch', ?_, hat⟩
  rw [tail_nil hl hmap ht hsel, hrun]
  rfl

/-- Back from the arguments behind the next one to the next run of that one. -/
theorem resume_push {s : Search (Exec (Option Arg))} {t : PgfTrial} {pre p : List Nat} {done : List Arg} (ht : t.At pre done) {a : Arg}
    {rest : List (List Nat × Exec (Option Arg))} (hp : s.After p ((p, .ok (some a)) :: rest)) {ch : GuChoice}
    (hch : ch.At (pre ++ p) []) :
    ∃ ch', (rest = [] ∧ ch'.At pre [] ∧ ∀ n, resume lzr fuel infer args infer_map n (t.push a.cat a.deriv.tree (pre ++ p).length) ch =
        resume lzr fuel infer args infer_map n t ch') ∨
      ∃ q, s.After q rest ∧ ch'.At pre q ∧
        ∀ n, resume lzr fuel infer args infer_map (n + 1) (t.push a.cat a.deriv.tree (pre ++ p).length) ch =
          tail lzr fuel infer args infer_map n (args.drop t.ip) t ch' := by
  have hip : (t.push a.cat a.deriv.tree (pre ++ p).length).ip = done.length + 1 := by
    rw [(ht.push p a).ip, List.length_append, List.length_singleton]
  have hmark : (t.push a.cat a.deriv.tree (pre ++ p).length).marks[done.length]? = some pre.length := by
    have hlt := (List.getElem?_eq_some_iff.1 ht.mark).1
    rw [PgfTrial.push, List.getElem?_append_left hlt, ht.mark]
  obtain ⟨ch₁, hreset, hat₁⟩ := hch.reset
  rw [List.append_nil] at hat₁
  obtain ⟨ch₂, hadv, hpath, hidx⟩ := hat₁.advance
  obtain ⟨p', r', rest', he, -, hpop⟩ := pop_after hp
  simp only [List.cons.injEq, Prod.mk.injEq] at he
  obtain ⟨⟨rfl, rfl⟩, rfl⟩ := he
  refine ⟨ch₂, ?_⟩
  rcases hpop with ⟨rfl, hpop⟩ | ⟨q, hq, hpop⟩
  · rw [hpop] at hadv hpath
    refine .inl ⟨rfl, ⟨by rw [hpath, List.append_nil], hidx⟩, fun n => ?_⟩
    rw [resume, hip, infer_back, hmark]
    simp only [Exec.deref_some, Exec.ok_bind, hreset, hadv, Bool.false_eq_true, if_false, ht.cut_push]
    rw [resume, ht.ip]
  · rw [hpop] at hadv hpath
    refine .inr ⟨q, hq, ⟨hpath, hidx⟩, fun n => ?_⟩
    rw [resume, hip, infer_back, hmark]
    simp only [Exec.deref_some, Exec.ok_bind, hreset, hadv, if_true, ht.cut_push, Exec.pure_eq]
    exact loop_tail _ _ _ _ _ _ _ _

/-- An argument has been found; those behind it, and then its other runs, are tried. -/
theorem ends_push {s : Search (Exec (Option Arg))} {g : Arg → Search (Exec (Option (PgfCCatId × Inferred Nat)))} {e : PgfExpr}
    {rest : List PgfExpr} {t : PgfTrial} {pre p : List Nat} {done : List Arg} (ht : t.At pre done) (hdrop : args.drop t.ip = e :: rest)
    {a : Arg} {left : List (List Nat × Exec (Option Arg))} {ch ch₁ : GuChoice}
    (hp : s.After p ((p, .ok (some a)) :: left)) (hinfer : infer_arg lzr fuel infer e ch = .ok (some a.kept, ch₁))
    {q : List Nat} (hch₁ : ch₁.At (pre ++ p) q) {rs : List (List Nat × Exec (Option (PgfCCatId × Inferred Nat)))}
    (hbehind : Ends lzr fuel infer args infer_map rest (t.push a.cat a.deriv.tree (pre ++ p).length) ch₁ (pre ++ p) rs)
    (hleft : ∀ {q ch}, ch.At pre q → s.After q left →
      Ends lzr fuel infer args infer_map (e :: rest) t ch pre (left.flatMap (Search.extend (follow g)))) :
    Ends lzr fuel infer args infer_map (e :: rest) t ch pre
      ((rs.map fun x => (p ++ x.1, x.2)) ++ left.flatMap (Search.extend (follow g))) := by
  have htail : ∀ n, tail lzr fuel infer args infer_map n (e :: rest) t ch =
      tail lzr fuel infer args infer_map n rest (t.push a.cat a.deriv.tree (pre ++ p).length) ch₁ := by
    intro n
    simp only [tail, hinfer, Exec.ok_bind, hch₁.mark]
    rfl
  obtain ⟨k, hk, hends⟩ := hbehind
  unfold Ends
  rw [first_append, first_map, List.length_append, List.length_map]
  cases hfirst : first rs with
  | some r =>
    rw [hfirst] at hends
    refine ⟨k, by omega, ?_⟩
    obtain ⟨p', e' | b⟩ := r
    · exact fun n => (htail _).trans (hends n)
    · obtain ⟨ch', hat, hends⟩ := hends
      exact ⟨ch', List.append_assoc pre p p' ▸ hat, fun n => (htail _).trans (hends n)⟩
  | none =>
    rw [hfirst] at hends
    obtain ⟨ch', hat, hends⟩ := hends
    obtain ⟨ch₂, ⟨rfl, hat₂, hres⟩ | ⟨q₂, hq₂, hat₂, hres⟩⟩ := resume_push ht hp hat
    · exact ⟨k, by omega, ch₂, hat₂, fun n => (htail _).trans ((hends n).trans (hres n))⟩
    · obtain ⟨k₂, hk₂, hends₂⟩ := hleft hat₂ hq₂
      rw [hdrop] at hres
      have hround : ∀ n, tail lzr fuel infer args infer_map (n + (k₂ + 1 + k)) (e :: rest) t ch =
          tail lzr fuel infer args infer_map (n + k₂) (e :: rest) t ch₂ := by
        intro n
        rw [htail, ← hres, ← hends, ← Nat.add_assoc, ← Nat.add_assoc]
      refine ⟨k₂ + 1 + k, by omega, ?_⟩
      simp only [Option.map_none, Option.none_or, hround]
      exact hends₂

/-- The runs of an argument, and of those behind it. -/
theorem tail_find_cons {s : Search (Exec (Option Arg))} {g : Arg → Search (Exec (Option (PgfCCatId × Inferred Nat)))} {e : PgfExpr}
    (he : Explores Arg.kept s (infer_arg lzr fuel infer e)) {rest : List PgfExpr} {t : PgfTrial} {pre : List Nat} {done : List Arg}
    (ht : t.At pre done) (hdrop : args.drop t.ip = e :: rest)
    (hbehind : ∀ {p a ch q rs}, ch.At (pre ++ p) q → (g a).After q rs →
      Ends lzr fuel infer args infer_map rest (t.push a.cat a.deriv.tree (pre ++ p).length) ch (pre ++ p) rs)
    {ch : GuChoice} {q : List Nat} (hch : ch.At pre q) {rs : List (List Nat × Exec (Option (PgfCCatId × Inferred Nat)))}
    (hq : (andAlso s g).After q rs) : Ends lzr fuel infer args infer_map (e :: rest) t ch pre rs := by
  have hruns : ∀ {left : List (List Nat × Exec (Option Arg))} {q ch}, ch.At pre q → s.After q left →
      Ends lzr fuel infer args infer_map (e :: rest) t ch pre (left.flatMap (Search.extend (follow g))) := by
    intro left
    induction hlen : left.length using Nat.strong_induction_on generalizing left with
    | _ len ih =>
    intro q ch hch hq
    have hfind := he.find hch hq
    cases hfirst : first left with
    | none =>
      rw [hfirst] at hfind
      obtain ⟨ch', hinfer, hat⟩ := hfind
      obtain ⟨skip, hext, hlen', hskip⟩ := extend_skip g (first_none hfirst)
      obtain ⟨p, r, left', rfl, -, -⟩ := pop_after hq
      rw [hext]
      refine ⟨0, by simp [hlen'], ?_⟩
      rw [first_skip hskip]
      refine ⟨ch', hat, fun n => ?_⟩
      simp only [tail, hinfer, Exec.ok_bind]
      rfl
    | some r =>
      obtain ⟨p, r⟩ := r
      rw [hfirst] at hfind
      obtain ⟨skip, left, rfl, hskip⟩ := first_some hfirst
      obtain ⟨skip', hext, hlen', hskip'⟩ := extend_skip g hskip
      have hp := after_run hq
      rw [List.flatMap_append, List.flatMap_cons, hext]
      rcases r with e' | a
      · have hext' : Search.extend (follow g) (p, Except.map some (.error e')) = [(p, .error e')] := by
          simp [Search.extend, follow, Search.runs, Except.map]
        rw [hext']
        refine ⟨0, by simp only [List.length_append, List.length_singleton]; omega, ?_⟩
        rw [first_append, first_skip hskip', first_append]
        intro n
        rw [tail, show infer_arg lzr fuel infer e ch = .error e' from hfind]
        rfl
      · obtain ⟨ch₁, hinfer, hat⟩ := hfind
        have hlt : left.length < len := by
          rw [← hlen, List.length_append, List.length_cons]
          omega
        have hends := ends_push ht hdrop hp hinfer hat (hbehind hat .start) (ih left.length hlt rfl)
        obtain ⟨k, hk, hends⟩ := hends
        refine ⟨k, by simp only [List.length_append] at hk ⊢; exact Nat.lt_add_left _ hk, ?_⟩
        rw [first_append, first_skip hskip', Option.none_or]
        exact hends
  rcases after_andAlso hq with ⟨rs', hq', rfl⟩ | ⟨p, a, left, q', rs', rfl, hp, hq', rfl⟩
  · exact hruns hch hq'
  · obtain ⟨ch₁, hinfer, hat⟩ := he.replay (hp.suffix.mem List.mem_cons_self) hch
    exact ends_push ht hdrop hp hinfer hat (hbehind hat hq') hruns

/-- The arguments explore their search trees. -/
abbrev ExploresAll (l : Listing) (depth : Nat) (literal_cat : PgfLiteral → PgfCCatId) (lzr : PgfLzr) (fuel : Nat)
    (infer : PgfExpr → GuChoice → Exec (Option (PgfCCatId × PgfCncTree) × GuChoice)) (es : List PgfExpr) (ss : List Spine) : Prop :=
  List.Forall₂ (fun e s => Explores Arg.kept (stage l depth (inferTree l depth literal_cat s)) (infer_arg lzr fuel infer e)) es ss

variable {depth : Nat} {literal_cat : PgfLiteral → PgfCCatId}

theorem drop_push {t : PgfTrial} {pre : List Nat} {done : List Arg} (ht : t.At pre done) {e : PgfExpr} {rest : List PgfExpr}
    (hdrop : args.drop t.ip = e :: rest) (p : List Nat) (a : Arg) :
    args.drop (t.push a.cat a.deriv.tree (pre ++ p).length).ip = rest := by
  rw [(ht.push p a).ip, List.length_append, List.length_singleton, ← ht.ip, ← List.drop_drop, hdrop]
  rfl

theorem tail_find (hl : Indexed lzr l) {f : PgfCId} (hmap : lzr.fun_indices f = some infer_map) {rest : List PgfExpr}
    {ss : List Spine} (hss : ExploresAll l depth literal_cat lzr fuel infer rest ss) {t : PgfTrial} {pre q : List Nat} {done : List Arg}
    (ht : t.At pre done) (hdrop : args.drop t.ip = rest) {ch : GuChoice} (hch : ch.At pre q)
    {rs : List (List Nat × Exec (Option (PgfCCatId × Inferred Nat)))} (hq : (tailTree l depth literal_cat f ss done).After q rs) :
    Ends lzr fuel infer args infer_map rest t ch pre rs := by
  induction hss generalizing t pre q done ch rs with
  | nil => exact tail_find_nil hl hmap ht hch (by rwa [tailTree] at hq)
  | cons he _ ih =>
    rw [tailTree] at hq
    exact tail_find_cons he ht hdrop (fun hch hq => ih (ht.push _ _) (drop_push ht hdrop _ _) hch hq) hch hq

theorem tail_replay (hl : Indexed lzr l) {f : PgfCId} (hmap : lzr.fun_indices f = some infer_map) {rest : List PgfExpr}
    {ss : List Spine} (hss : ExploresAll l depth literal_cat lzr fuel infer rest ss) {t : PgfTrial} {pre p x : List Nat}
    {done : List Arg} (ht : t.At pre done) {ch : GuChoice} {a : PgfCCatId × Inferred Nat}
    (hp : (p, .ok (some a)) ∈ (tailTree l depth literal_cat f ss done).runs) (hch : ch.At pre (p ++ x)) (n : Nat) :
    ∃ ch', tail lzr fuel infer args infer_map n rest t ch = .ok (some (treeOf a), ch') ∧ ch'.At (pre ++ p) x := by
  induction hss generalizing t pre p done ch with
  | nil => exact tail_replay_nil hl hmap ht (by rwa [tailTree] at hp) hch n
  | cons he _ ih =>
    rw [tailTree] at hp
    obtain ⟨p₁, p₂, b, rfl, hp₁, hp₂⟩ := mem_runs_andAlso hp
    rw [List.append_assoc] at hch
    obtain ⟨ch₁, hinfer, hat⟩ := he.replay hp₁ hch
    obtain ⟨ch₂, htail, hat₂⟩ := ih (ht.push p₁ b) hp₂ hat
    refine ⟨ch₂, ?_, List.append_assoc pre p₁ p₂ ▸ hat₂⟩
    simp only [tail, hinfer, Exec.ok_bind, hat.mark]
    exact htail

end Ends

/-! ## An expression -/

theorem explores_application (hl : Indexed lzr l) {depth fuel : Nat} {literal_cat : PgfLiteral → PgfCCatId}
    {infer : PgfExpr → GuChoice → Exec (Option (PgfCCatId × PgfCncTree) × GuChoice)} {es : List PgfExpr} {ss : List Spine}
    (hss : ExploresAll l depth literal_cat lzr fuel infer es ss) {f : PgfCId}
    (hfuel : (tailTree l depth literal_cat f ss []).runs.length < fuel) :
    Explores treeOf (inferTree l depth literal_cat (.app f ss)) (pgf_lzn_infer_application lzr fuel infer f es) := by
  obtain ⟨fuel', rfl⟩ : ∃ n, fuel = n + 1 := ⟨fuel - 1, by omega⟩
  cases hmap : lzr.fun_indices f with
  | none =>
    rw [inferTree, if_neg (by rw [(hl.known f).1 hmap]; exact Bool.false_ne_true)]
    refine explores_fail fun ch => ?_
    rw [pgf_lzn_infer_application, hmap]
  | some infer_map =>
    have hknown : l.any (hasFun f) = true := by
      rw [← Bool.not_eq_false, ← hl.known, hmap]
      exact Option.some_ne_none _
    have hrun : ∀ {pre q ch}, GuChoice.At ch pre q → pgf_lzn_infer_application lzr (fuel' + 1) infer f es ch =
        tail lzr (fuel' + 1) infer es infer_map fuel' es ⟨[pre.length], [], []⟩ ch := by
      intro pre q ch hch
      simp only [pgf_lzn_infer_application, hmap, hch.mark, Exec.ok_bind, loop_tail, PgfTrial.ip, List.length_nil, List.drop_zero]
    have hstart : ∀ pre : List Nat, (⟨[pre.length], [], []⟩ : PgfTrial).At pre [] := fun pre => ⟨rfl, rfl, rfl, rfl⟩
    rw [inferTree, if_pos hknown]
    constructor
    · intro pre q rs ch hch hq
      obtain ⟨k, hk, hends⟩ := tail_find hl hmap hss (hstart pre) rfl hch hq
      have hlen := hq.suffix.length_le
      have hn : fuel' - k + k = fuel' := Nat.sub_add_cancel (by omega)
      rw [hrun hch]
      cases hfirst : first rs with
      | none =>
        rw [hfirst] at hends
        obtain ⟨ch', hat, hends⟩ := hends
        have hends := hends (fuel' - k)
        rw [hn] at hends
        exact ⟨ch', hends, hat⟩
      | some r =>
        rw [hfirst] at hends
        obtain ⟨p, e | a⟩ := r
        · have hends := hends (fuel' - k)
          rw [hn] at hends
          exact hends
        · obtain ⟨ch', hat, hends⟩ := hends
          have hends := hends (fuel' - k)
          rw [hn] at hends
          exact ⟨ch', hends, hat⟩
    · intro pre p x a ch hp hch
      rw [hrun hch]
      exact tail_replay hl hmap hss (hstart pre) hp hch _

/-- A bound for one is a bound for all. -/
theorem exists_bound {α : Type} {p : α → Nat → Prop} {as : List α} (h : ∀ a ∈ as, ∃ N, ∀ n ≥ N, p a n) :
    ∃ N, ∀ n ≥ N, ∀ a ∈ as, p a n := by
  induction as with
  | nil => exact ⟨0, by simp⟩
  | cons a as ih =>
    obtain ⟨N₁, h₁⟩ := h a List.mem_cons_self
    obtain ⟨N₂, h₂⟩ := ih fun b hb => h b (List.mem_cons_of_mem _ hb)
    refine ⟨max N₁ N₂, fun n hn => List.forall_mem_cons.2 ⟨h₁ n (by omega), h₂ n (by omega)⟩⟩

/-- With enough fuel `pgf_lzn_infer` explores the search tree of the expression. -/
theorem infer_explores (hl : Indexed lzr l) {rank : PgfCCatId → Nat} (hr : Ranked l rank) {depth : Nat} (hd : ∀ c, rank c < depth)
    (expr : PgfExpr) : ∃ N, ∀ fuel ≥ N,
      Explores treeOf (inferTree l depth (pgf_literal_cat lzr.cnc) (expr.spine [])) (pgf_lzn_infer lzr fuel expr) := by
  induction hsize : sizeOf expr using Nat.strong_induction_on generalizing expr with
  | _ size ih =>
  cases happ : expr.unapplied [] with
  | none =>
    refine ⟨1, fun fuel hfuel => ?_⟩
    obtain ⟨fuel, rfl⟩ : ∃ n, fuel = n + 1 := ⟨fuel - 1, by omega⟩
    rw [spine_none happ]
    cases hun : pgf_expr_unwrap expr with
    | LIT lit =>
      rw [inferTree]
      refine explores_done fun ch => ?_
      simp only [pgf_lzn_infer, unapply_eq, happ, hun, Option.map_none, Exec.ok_bind]
      rfl
    | _ =>
      rw [inferTree]
      refine explores_fail fun ch => ?_
      simp only [pgf_lzn_infer, unapply_eq, happ, hun, Option.map_none, Exec.ok_bind]
      rfl
  | some r =>
    obtain ⟨f, args⟩ := r
    have hsmaller : ∀ arg ∈ args, sizeOf arg < size := fun arg harg =>
      hsize ▸ (unapplied_lt happ harg).resolve_left List.not_mem_nil
    obtain ⟨N, hN⟩ := exists_bound fun arg harg => ih _ (hsmaller arg harg) arg rfl
    have hspine : expr.spine [] = .app f (args.map fun arg => arg.spine []) := spine_unapplied happ
    rw [hspine]
    refine ⟨max N (max depth ((tailTree l depth (pgf_literal_cat lzr.cnc) f (args.map fun arg => arg.spine []) []).runs.length + 1)) + 1,
      fun fuel hfuel => ?_⟩
    obtain ⟨fuel, rfl⟩ : ∃ n, fuel = n + 1 := ⟨fuel - 1, by omega⟩
    have hall : ExploresAll l depth (pgf_literal_cat lzr.cnc) lzr fuel (pgf_lzn_infer lzr fuel) args
        (args.map fun arg => arg.spine []) := by
      rw [ExploresAll, List.forall₂_map_right_iff, List.forall₂_same]
      exact fun arg harg => explores_arg hl (fun c => superTree_deep hr (by omega) (hd c)) (hN fuel (by omega) arg harg)
    have heq : pgf_lzn_infer lzr (fuel + 1) expr = pgf_lzn_infer_application lzr fuel (pgf_lzn_infer lzr fuel) f args := by
      funext ch
      simp only [pgf_lzn_infer, unapply_eq, happ, Option.map_some, Exec.ok_bind]
    rw [heq]
    exact explores_application hl hall (by omega)

end Libpgf
