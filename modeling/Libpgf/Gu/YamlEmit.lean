import Libpgf.Gu.YamlLaws
/-!
# The emitter writes the tree

The emitter is followed through the calls for a tree. Whatever the state of the
emitter before a node, the text that it writes is cut into the tokens of the
node, between those of the state.
-/

namespace Libpgf

namespace Yaml

open LexState (run_append run_cons run_skip run_single)

/-! ## Trees that can be emitted -/

/-- The anchors are numbered from `n` on, and the next one is `n'`. -/
def Numbered : List YamlProp → Nat → Nat → Prop
  | [], n, n' => n' = n
  | .anchor a :: props, n, n' => a = n ∧ Numbered props (n + 1) n'
  | .tag t :: props, n, n' => t.valid = true ∧ Numbered props n n'

def PropsFit (props : List YamlProp) (n n' : Nat) : Prop := propsOk props = true ∧ Numbered props n n'

mutual

/-- Scalars are of code points, tags are valid, anchors are named as they are numbered, in the order of the text, and an alias is to an
earlier anchor. -/
def YamlNode.Fits : YamlNode → Nat → Nat → Prop
  | .scalar props s, n, n' => PropsFit props n n' ∧ ∀ u ∈ s, gu_ucs_valid u = true
  | .alias_ a, n, n' => 0 < a ∧ a < n ∧ n' = n
  | .sequence props elems, n, n' => ∃ m, PropsFit props n m ∧ ElemsFit elems m n'
  | .mapping props pairs, n, n' => ∃ m, PropsFit props n m ∧ PairsFit pairs m n'

def ElemsFit : List YamlNode → Nat → Nat → Prop
  | [], n, n' => n' = n
  | elem :: elems, n, n' => ∃ m, elem.Fits n m ∧ ElemsFit elems m n'

def PairsFit : List (YamlNode × YamlNode) → Nat → Nat → Prop
  | [], n, n' => n' = n
  | (key, value) :: pairs, n, n' => ∃ m k, key.Fits n m ∧ value.Fits m k ∧ PairsFit pairs k n'

end

def propAnchors : List YamlProp → List Nat
  | [] => []
  | .anchor a :: props => a :: propAnchors props
  | .tag _ :: props => propAnchors props

mutual

/-- The anchors in the order of the text. -/
def YamlNode.anchors : YamlNode → List Nat
  | .scalar props _ => propAnchors props
  | .alias_ _ => []
  | .sequence props elems => propAnchors props ++ elemAnchors elems
  | .mapping props pairs => propAnchors props ++ pairAnchors pairs

def elemAnchors : List YamlNode → List Nat
  | [] => []
  | elem :: elems => elem.anchors ++ elemAnchors elems

def pairAnchors : List (YamlNode × YamlNode) → List Nat
  | [] => []
  | (key, value) :: pairs => key.anchors ++ (value.anchors ++ pairAnchors pairs)

end

mutual

/-- How deep its collections are nested. -/
def YamlNode.depth : YamlNode → Nat
  | .scalar _ _ => 0
  | .alias_ _ => 0
  | .sequence _ elems => elemDepth elems + 1
  | .mapping _ pairs => pairDepth pairs + 1

def elemDepth : List YamlNode → Nat
  | [] => 0
  | elem :: elems => max elem.depth (elemDepth elems)

def pairDepth : List (YamlNode × YamlNode) → Nat
  | [] => 0
  | (key, value) :: pairs => max key.depth (max value.depth (pairDepth pairs))

end

mutual

/-- The tokens of a node. -/
def YamlNode.tokens : YamlNode → List YamlToken
  | .scalar props s => props.map .prop ++ [.scalar s]
  | .alias_ a => [.alias_ a]
  | .sequence props elems => props.map .prop ++ (.sequence_start :: (elemTokens elems ++ [.sequence_end]))
  | .mapping props pairs => props.map .prop ++ (.mapping_start :: (pairTokens pairs ++ [.mapping_end]))

def elemTokens : List YamlNode → List YamlToken
  | [] => []
  | elem :: elems => elem.tokens ++ (.comma :: elemTokens elems)

def pairTokens : List (YamlNode × YamlNode) → List YamlToken
  | [] => []
  | (key, value) :: pairs => .key :: (key.tokens ++ (.value :: (value.tokens ++ (.comma :: pairTokens pairs))))

end

/-- Induction over nodes, their elements and their pairs. -/
theorem node_induction {P : YamlNode → Prop} {Q : List YamlNode → Prop} {R : List (YamlNode × YamlNode) → Prop}
    (scalar : ∀ props s, P (.scalar props s)) (alias_ : ∀ a, P (.alias_ a)) (sequence : ∀ props elems, Q elems → P (.sequence props elems))
    (mapping : ∀ props pairs, R pairs → P (.mapping props pairs)) (elem_nil : Q [])
    (elem_cons : ∀ elem elems, P elem → Q elems → Q (elem :: elems)) (pair_nil : R [])
    (pair_cons : ∀ key value pairs, P key → P value → R pairs → R ((key, value) :: pairs)) (t : YamlNode) : P t :=
  @YamlNode.rec P Q R (fun pair => P pair.1 ∧ P pair.2) scalar alias_ sequence mapping elem_nil elem_cons pair_nil
    (fun pair pairs hpair => pair_cons pair.1 pair.2 pairs hpair.1 hpair.2) (fun _ _ hkey hvalue => ⟨hkey, hvalue⟩) t

/-! ## Anchors -/

theorem propAnchors_eq {props : List YamlProp} {n n' : Nat} (h : Numbered props n n') : n ≤ n' ∧ propAnchors props = List.range' n (n' - n) := by
  induction props generalizing n with
  | nil =>
    obtain rfl : n' = n := h
    exact ⟨Nat.le_refl _, by rw [Nat.sub_self]; rfl⟩
  | cons p props ih =>
    cases p with
    | anchor a =>
      obtain ⟨rfl, hrest⟩ := h
      obtain ⟨hle, heq⟩ := ih hrest
      refine ⟨Nat.le_of_succ_le hle, ?_⟩
      rw [propAnchors, heq, show n' - a = n' - (a + 1) + 1 by omega, List.range'_succ]
    | tag t => exact ih h.2

theorem range'_append_of_le {n m k : Nat} (h : n ≤ m) (h' : m ≤ k) :
    List.range' n (m - n) ++ List.range' m (k - m) = List.range' n (k - n) := by
  have happend := List.range'_append_1 (s := n) (m := m - n) (n := k - m)
  rwa [Nat.add_sub_cancel' h, show m - n + (k - m) = k - n by omega] at happend

/-- The anchors of a tree are consecutive. -/
theorem anchors_eq (t : YamlNode) : ∀ {n n' : Nat}, t.Fits n n' → n ≤ n' ∧ t.anchors = List.range' n (n' - n) := by
  refine node_induction (P := fun t => ∀ {n n' : Nat}, t.Fits n n' → n ≤ n' ∧ t.anchors = List.range' n (n' - n))
    (Q := fun elems => ∀ {n n' : Nat}, ElemsFit elems n n' → n ≤ n' ∧ elemAnchors elems = List.range' n (n' - n))
    (R := fun pairs => ∀ {n n' : Nat}, PairsFit pairs n n' → n ≤ n' ∧ pairAnchors pairs = List.range' n (n' - n)) ?_ ?_ ?_ ?_ ?_ ?_ ?_ ?_ t
  · intro props s n n' h
    rw [YamlNode.Fits] at h
    rw [YamlNode.anchors]
    exact propAnchors_eq h.1.2
  · intro a n n' h
    rw [YamlNode.Fits] at h
    obtain ⟨-, -, rfl⟩ := h
    exact ⟨Nat.le_refl _, by rw [YamlNode.anchors, Nat.sub_self]; rfl⟩
  · intro props elems ih n n' h
    rw [YamlNode.Fits] at h
    obtain ⟨m, hp, helems⟩ := h
    obtain ⟨hle, hprops⟩ := propAnchors_eq hp.2
    obtain ⟨hle', hrest⟩ := ih helems
    exact ⟨hle.trans hle', by rw [YamlNode.anchors, hprops, hrest, range'_append_of_le hle hle']⟩
  · intro props pairs ih n n' h
    rw [YamlNode.Fits] at h
    obtain ⟨m, hp, hpairs⟩ := h
    obtain ⟨hle, hprops⟩ := propAnchors_eq hp.2
    obtain ⟨hle', hrest⟩ := ih hpairs
    exact ⟨hle.trans hle', by rw [YamlNode.anchors, hprops, hrest, range'_append_of_le hle hle']⟩
  · intro n n' h
    rw [ElemsFit] at h
    exact ⟨Nat.le_of_eq h.symm, by rw [elemAnchors, h, Nat.sub_self]; rfl⟩
  · intro elem elems ih ihs n n' h
    rw [ElemsFit] at h
    obtain ⟨m, helem, helems⟩ := h
    obtain ⟨hle, hfirst⟩ := ih helem
    obtain ⟨hle', hrest⟩ := ihs helems
    exact ⟨hle.trans hle', by rw [elemAnchors, hfirst, hrest, range'_append_of_le hle hle']⟩
  · intro n n' h
    rw [PairsFit] at h
    exact ⟨Nat.le_of_eq h.symm, by rw [pairAnchors, h, Nat.sub_self]; rfl⟩
  · intro key value pairs ihk ihv ihs n n' h
    rw [PairsFit] at h
    obtain ⟨m, k, hkey, hvalue, hpairs⟩ := h
    obtain ⟨hle, hkeys⟩ := ihk hkey
    obtain ⟨hle', hvalues⟩ := ihv hvalue
    obtain ⟨hle'', hrest⟩ := ihs hpairs
    refine ⟨hle.trans (hle'.trans hle''), ?_⟩
    rw [pairAnchors, hkeys, hvalues, hrest, range'_append_of_le hle' hle'', range'_append_of_le hle (hle'.trans hle'')]

theorem elems_le {elems : List YamlNode} {n n' : Nat} (h : ElemsFit elems n n') : n ≤ n' := by
  have hfits : (YamlNode.sequence [] elems).Fits n n' := by
    rw [YamlNode.Fits]
    exact ⟨n, ⟨rfl, rfl⟩, h⟩
  exact (anchors_eq _ hfits).1

theorem pairs_le {pairs : List (YamlNode × YamlNode)} {n n' : Nat} (h : PairsFit pairs n n') : n ≤ n' := by
  have hfits : (YamlNode.mapping [] pairs).Fits n n' := by
    rw [YamlNode.Fits]
    exact ⟨n, ⟨rfl, rfl⟩, h⟩
  exact (anchors_eq _ hfits).1

/-! ## The states of the emitter -/

/-- Before a node. -/
structure Ready (y : GuYaml) : Prop where
  in_node : y.in_node = false
  have_anchor : y.have_anchor = false
  have_tag : y.have_tag = false
  indent : y.indent = true
  indented : y.indented = false

/-- Within a node: what comes in front of it has been written. -/
structure Begun (y : GuYaml) : Prop where
  in_node : y.in_node = true
  indent : y.indent = true
  indented : y.indented = true

namespace GuYaml

/-- After a node of the text `w`, where the next anchor is `n`. -/
def after (y : GuYaml) (w : Text) (n : Nat) : GuYaml :=
  { y with
    out := y.out ++ w
    next_anchor := n
    state := y.state.next
    in_node := false
    have_anchor := false
    have_tag := false
    indented := false }

/-- What is written in front of a node. -/
def front (y : GuYaml) : Text := List.replicate y.indent_level.toNat ' '.toNat ++ y.state.prefix_

/-- What is written behind a node. -/
def back (y : GuYaml) : Text := y.state.suffix ++ ['\n'.toNat]

/-- Within a node, when nothing has been written for the node itself. -/
def begun (y : GuYaml) : GuYaml := { y with out := y.out ++ y.front, in_node := true, indented := true }

end GuYaml

/-- Before nodes that nest `d` collections, where the next anchor is `n` after them: the counters do not overflow. -/
structure Room (y : GuYaml) (d n : Nat) : Prop where
  level : 0 ≤ y.indent_level
  depth : y.indent_level + d < 2 ^ 31
  anchors : n < 2 ^ 31

theorem Room.mono {y z : GuYaml} {d e n m : Nat} (h : Room y d n) (hlevel : z.indent_level = y.indent_level) (hd : e ≤ d) (hn : m ≤ n) :
    Room z e m := by
  obtain ⟨hpos, hdepth, hanchors⟩ := h
  exact ⟨hlevel ▸ hpos, by omega, by omega⟩

theorem after_ready {y : GuYaml} (h : y.indent = true) (w : Text) (n : Nat) : Ready (y.after w n) := ⟨rfl, rfl, rfl, h, rfl⟩

theorem begun_begun {y : GuYaml} (h : y.indent = true) : Begun y.begun := ⟨rfl, h, rfl⟩

section States
variable {y : GuYaml}

theorem begin_node_ready (h : Ready y) : gu_yaml_begin_node y = y.begun := by
  unfold gu_yaml_begin_node gu_yaml_begin_line
  simp only [h.indent, h.indented, Bool.not_false, Bool.and_true, if_true, GuYaml.write, h.in_node, gu_yaml_puts, List.append_assoc,
    GuYaml.begun, GuYaml.front]

theorem begin_node_begun (h : Begun y) : gu_yaml_begin_node y = y := by
  unfold gu_yaml_begin_node gu_yaml_begin_line
  simp only [h.indent, h.indented, h.in_node, Bool.not_true, Bool.and_false, Bool.false_eq_true, if_false]

theorem end_node_eq (hnode : y.in_node = true) (hindent : y.indent = true) :
    gu_yaml_end_node y = .ok (y.after y.back y.next_anchor) := by
  unfold gu_yaml_end_node gu_yaml_end_line
  simp only [hnode, Exec.require, if_true, Exec.ok_bind, gu_yaml_puts, GuYaml.write, hindent, gu_yaml_putc, List.append_assoc, Exec.pure_eq,
    GuYaml.after, GuYaml.back]

theorem write_write (w w' : Text) : (y.write w).write w' = y.write (w ++ w') := by simp only [GuYaml.write, List.append_assoc]

/-- The last text of a node. -/
theorem end_node_write (h : Begun y) (w : Text) : gu_yaml_end_node (y.write w) = .ok (y.after (w ++ y.back) y.next_anchor) := by
  have hend := end_node_eq (y := y.write w) h.in_node h.indent
  rw [hend]
  simp only [GuYaml.after, GuYaml.write, GuYaml.back, List.append_assoc]

/-! ## One node -/

theorem scalar_loop {s : List GuUCS} (h : ∀ u ∈ s, gu_ucs_valid u = true) : ∃ w,
    forEach (fun yaml u => do
      let text ← gu_yaml_escape u
      return yaml.write text) s y = .ok (y.write w) ∧ ∀ s₀, LexState.run (.quoted s₀) w = some (.quoted (s₀ ++ s), []) := by
  induction s generalizing y with
  | nil =>
    refine ⟨[], ?_, fun s₀ => by rw [List.append_nil]; rfl⟩
    rw [forEach_nil, GuYaml.write, List.append_nil]
  | cons u s ih =>
    obtain ⟨text, htext, -, hrun⟩ := escape_spec (h u List.mem_cons_self)
    obtain ⟨w, hloop, hw⟩ := ih (y := y.write text) fun v hv => h v (List.mem_cons_of_mem u hv)
    refine ⟨text ++ w, ?_, ?_⟩
    · rw [forEach_cons, htext, Exec.ok_bind, Exec.pure_eq, Exec.ok_bind, hloop]
      simp only [GuYaml.write, List.append_assoc]
    · intro s₀
      have hrest := hw (s₀ ++ [u])
      rw [List.append_assoc] at hrest
      exact run_append (hrun s₀) hrest

theorem emit_scalar (h : Begun y) {s : List GuUCS} (hs : ∀ u ∈ s, gu_ucs_valid u = true) :
    ∃ w, gu_yaml_scalar y s = .ok (y.after (w ++ y.back) y.next_anchor) ∧ Lexes w [.scalar s] := by
  obtain ⟨w, hloop, hw⟩ := scalar_loop (y := gu_yaml_putc y '"') hs
  refine ⟨'"'.toNat :: (w ++ ['"'.toNat]), ?_, ?_⟩
  · unfold gu_yaml_scalar
    dsimp only
    rw [begin_node_begun h, hloop, Exec.ok_bind]
    simp only [gu_yaml_putc, write_write, List.append_assoc, List.cons_append, List.nil_append, end_node_write h]
  · intro b
    exact ⟨false, run_skip rfl (run_append (hw []) rfl)⟩

theorem emit_alias (h : Begun y) (ha : y.have_anchor = false) (ht : y.have_tag = false) (a : Nat) :
    ∃ w, gu_yaml_alias y a = .ok (y.after (w ++ y.back) y.next_anchor) ∧ Lexes w [.alias_ a] := by
  refine ⟨_, ?_, lexes_alias a⟩
  unfold gu_yaml_alias
  dsimp only
  rw [begin_node_begun h, (Exec.require_ok (u := ())).2 ⟨ha, ht⟩, Exec.ok_bind]
  exact end_node_write h _

/-! ## Properties -/

/-- After properties of the text `w`. -/
def GuYaml.withProps (y : GuYaml) (w : Text) (have_anchor have_tag : Bool) (n : Nat) : GuYaml :=
  { y with
    out := y.out ++ w
    have_anchor
    have_tag
    next_anchor := n }

theorem Begun.withProps (h : Begun y) (w : Text) (a t : Bool) (n : Nat) : Begun (y.withProps w a t n) := ⟨h.in_node, h.indent, h.indented⟩

theorem withProps_after (w v : Text) (a t : Bool) (n m : Nat) : (y.withProps w a t n).after v m = y.after (w ++ v) m := by
  simp only [GuYaml.after, GuYaml.withProps, List.append_assoc]

theorem withProps_withProps (w v : Text) (a b t r : Bool) (n m : Nat) :
    (y.withProps w a t n).withProps v b r m = y.withProps (w ++ v) b r m := by
  simp only [GuYaml.withProps, List.append_assoc]

theorem anchor_begun (h : Begun y) (ha : y.have_anchor = false) (hfit : y.next_anchor + 1 < 2 ^ 31) :
    gu_yaml_anchor y = .ok (y.withProps ('&'.toNat :: decimal y.next_anchor ++ [' '.toNat]) true y.have_tag (y.next_anchor + 1),
      y.next_anchor) := by
  have hint : Exec.int (y.next_anchor + 1) = .ok ((y.next_anchor + 1 : Nat) : Int) := Exec.int_ok (by omega) (by omega)
  unfold gu_yaml_anchor
  dsimp only
  rw [begin_node_begun h, (Exec.require_ok (u := ())).2 ha, Exec.ok_bind, hint]
  rfl

theorem tag_begun (h : Begun y) (ht : y.have_tag = false) (t : YamlTag) :
    gu_yaml_tag y t = .ok (y.withProps ('!'.toNat :: t.text ++ [' '.toNat]) y.have_anchor true y.next_anchor) := by
  unfold gu_yaml_tag
  dsimp only
  rw [begin_node_begun h, (Exec.require_ok (u := ())).2 ht, Exec.ok_bind]
  simp only [gu_yaml_putc, gu_yaml_puts, write_write]
  rfl

theorem runCalls_append {y₁ y₂ : GuYaml} {cs cs' : List YamlCall} {as as' : List Nat} (h : runCalls y cs = .ok (y₁, as))
    (h' : runCalls y₁ cs' = .ok (y₂, as')) : runCalls y (cs ++ cs') = .ok (y₂, as ++ as') := by
  induction cs generalizing y as with
  | nil =>
    obtain ⟨rfl, rfl⟩ := Prod.mk.inj (Except.ok.inj h)
    exact h'
  | cons c cs ih =>
    rw [runCalls] at h
    obtain ⟨⟨z, bs⟩, hc, hrest⟩ := Exec.bind_ok.1 h
    obtain ⟨⟨z', bs'⟩, hcs, heq⟩ := Exec.bind_ok.1 hrest
    obtain ⟨rfl, rfl⟩ := Prod.mk.inj (Except.ok.inj heq)
    rw [List.cons_append, runCalls, hc, Exec.ok_bind]
    dsimp only
    rw [ih hcs, Exec.ok_bind, Exec.pure_eq, List.append_assoc]

theorem runCalls_cons {y₁ y₂ : GuYaml} {c : YamlCall} {cs : List YamlCall} {as as' : List Nat} (h : c.run y = .ok (y₁, as))
    (h' : runCalls y₁ cs = .ok (y₂, as')) : runCalls y (c :: cs) = .ok (y₂, as ++ as') := by
  rw [runCalls, h, Exec.ok_bind]
  dsimp only
  rw [h']
  rfl

theorem runCalls_single {y₁ : GuYaml} {c : YamlCall} {as : List Nat} (h : c.run y = .ok (y₁, as)) : runCalls y [c] = .ok (y₁, as) := by
  rw [runCalls_cons h rfl, List.append_nil]

/-- The properties of a node. None is there already. -/
theorem emit_props {props : List YamlProp} {n' : Nat} (h : Begun y) (hn : Numbered props y.next_anchor n') (hfit : n' < 2 ^ 31)
    (ha : props.countP YamlProp.isAnchor + y.have_anchor.toNat ≤ 1) (ht : props.countP YamlProp.isTag + y.have_tag.toNat ≤ 1) :
    ∃ w a t, runCalls y (props.map YamlProp.call) = .ok (y.withProps w a t n', propAnchors props) ∧ Lexes w (props.map .prop) := by
  induction props generalizing y with
  | nil =>
    obtain rfl : n' = y.next_anchor := hn
    refine ⟨[], y.have_anchor, y.have_tag, ?_, lexes_nil⟩
    rw [GuYaml.withProps, List.append_nil]
    rfl
  | cons p props ih =>
    cases p with
    | anchor a =>
      obtain ⟨rfl, hn⟩ := hn
      rw [List.countP_cons_of_pos rfl] at ha
      rw [List.countP_cons_of_neg (by simp [YamlProp.isTag])] at ht
      have hnone : y.have_anchor = false := by
        cases hflag : y.have_anchor with
        | false => rfl
        | true =>
          rw [hflag, Bool.toNat_true] at ha
          omega
      have hcall := anchor_begun h hnone (Nat.lt_of_le_of_lt (propAnchors_eq hn).1 hfit)
      obtain ⟨w, a, t, hrun, hw⟩ := ih (h.withProps ('&'.toNat :: decimal y.next_anchor ++ [' '.toNat]) true y.have_tag (y.next_anchor + 1)) hn
        (by simpa [GuYaml.withProps, hnone] using ha) ht
      refine ⟨_, a, t, ?_, (lexes_anchor y.next_anchor).append hw⟩
      have hfirst : YamlCall.anchor.run y = .ok
          (y.withProps ('&'.toNat :: decimal y.next_anchor ++ [' '.toNat]) true y.have_tag (y.next_anchor + 1), [y.next_anchor]) := by
        rw [YamlCall.run, hcall]
        rfl
      rw [withProps_withProps] at hrun
      exact runCalls_cons hfirst hrun
    | tag tag =>
      obtain ⟨hvalid, hn⟩ := hn
      rw [List.countP_cons_of_neg (by simp [YamlProp.isAnchor])] at ha
      rw [List.countP_cons_of_pos rfl] at ht
      have hnone : y.have_tag = false := by
        cases hflag : y.have_tag with
        | false => rfl
        | true =>
          rw [hflag, Bool.toNat_true] at ht
          omega
      have hcall := tag_begun h hnone tag
      obtain ⟨w, a, t, hrun, hw⟩ := ih (h.withProps ('!'.toNat :: tag.text ++ [' '.toNat]) y.have_anchor true y.next_anchor) hn ha
        (by simpa [GuYaml.withProps, hnone] using ht)
      refine ⟨_, a, t, ?_, (lexes_tag hvalid).append hw⟩
      have hfirst : (YamlCall.tag tag).run y = .ok (y.withProps ('!'.toNat :: tag.text ++ [' '.toNat]) y.have_anchor true y.next_anchor, []) := by
        rw [YamlCall.run, hcall]
        rfl
      rw [withProps_withProps] at hrun
      exact runCalls_cons hfirst hrun

/-! ## Collections -/

/-- Within a collection, before its first node. -/
def GuYaml.opened (y : GuYaml) (klass : GuYamlFrameClass) : GuYaml :=
  { y with
    out := y.out ++ (klass.open_ ++ ['\n'.toNat])
    stack := ⟨klass, y.state⟩ :: y.stack
    state := klass.first
    in_node := false
    have_anchor := false
    have_tag := false
    indent_level := y.indent_level + 1
    indented := false }

/-- Within a collection, after nodes of the text `w`, where the state is the same again. -/
def GuYaml.inside (y : GuYaml) (w : Text) (n : Nat) : GuYaml := { y with out := y.out ++ w, next_anchor := n }

theorem Room.opened {d n : Nat} (h : Room y (d + 1) n) {klass : GuYamlFrameClass} : Room (y.opened klass) d n := by
  obtain ⟨hpos, hdepth, hanchors⟩ := h
  have hlevel : (y.opened klass).indent_level = y.indent_level + 1 := rfl
  exact ⟨by omega, by omega, hanchors⟩

theorem opened_ready (h : Begun y) (klass : GuYamlFrameClass) : Ready (y.opened klass) := ⟨rfl, rfl, rfl, h.indent, rfl⟩

theorem begin_begun (h : Begun y) {d n : Nat} (hroom : Room y (d + 1) n) (klass : GuYamlFrameClass) :
    gu_yaml_begin y klass = .ok (y.opened klass) := by
  have hint : Exec.int (y.indent_level + 1) = .ok (y.indent_level + 1) := by
    have hlevel := hroom.level
    have hdepth := hroom.depth
    exact Exec.int_ok (by omega) (by omega)
  unfold gu_yaml_begin gu_yaml_end_line
  dsimp only
  rw [begin_node_begun h]
  simp only [gu_yaml_puts, gu_yaml_putc, GuYaml.write, h.indent, if_true, List.append_assoc, hint, Exec.ok_bind, Exec.pure_eq,
    GuYaml.opened]

/-- What is written for the end of a collection. -/
def GuYaml.closing (y : GuYaml) (klass : GuYamlFrameClass) : Text := List.replicate y.indent_level.toNat ' '.toNat ++ klass.close

theorem end_opened (h : Begun y) {d m : Nat} (hroom : Room y d m) (klass : GuYamlFrameClass) (w : Text) (n : Nat) :
    gu_yaml_end ((y.opened klass).inside w n) =
      .ok (y.after (klass.open_ ++ ['\n'.toNat] ++ w ++ y.closing klass ++ y.back) n) := by
  have hlevel : y.indent_level + 1 - 1 = y.indent_level := Int.add_sub_cancel _ _
  have hint : Exec.int y.indent_level = .ok y.indent_level := by
    have hpos := hroom.level
    have hdepth := hroom.depth
    exact Exec.int_ok (by omega) (by omega)
  unfold gu_yaml_end gu_yaml_begin_line
  simp only [GuYaml.inside, GuYaml.opened, Exec.require, if_true, Exec.ok_bind, h.indent, Bool.not_false, Bool.and_true, GuYaml.write, hlevel, hint,
    List.head?_cons, Exec.deref_some, List.tail_cons, gu_yaml_puts]
  rw [end_node_eq rfl rfl]
  simp only [GuYaml.after, GuYaml.back, GuYaml.closing, List.append_assoc, h.indent]

/-- The calls for a collection. -/
theorem emit_collection (h : Begun y) {d m : Nat} (hroom : Room y (d + 1) m) {klass : GuYamlFrameClass} {begin : YamlCall}
    {cs : List YamlCall} {w : Text} {tokens : List YamlToken} {as : List Nat} {n : Nat}
    (hbegin : begin.run y = do return (← gu_yaml_begin y klass, [])) (hrun : runCalls (y.opened klass) cs = .ok ((y.opened klass).inside w n, as)) (hw : Lexes w tokens) :
    ∃ v, runCalls y (begin :: cs ++ [.end_]) = .ok (y.after (v ++ y.back) n, as) ∧
      Lexes v (klass.start :: (tokens ++ [klass.end_])) := by
  refine ⟨klass.open_ ++ ['\n'.toNat] ++ w ++ y.closing klass, ?_, ?_⟩
  · have hend : YamlCall.end_.run ((y.opened klass).inside w n) =
        .ok (y.after (klass.open_ ++ ['\n'.toNat] ++ w ++ y.closing klass ++ y.back) n, []) := by
      rw [YamlCall.run, end_opened h hroom]
      rfl
    rw [begin_begun h hroom] at hbegin
    have hall := runCalls_append (runCalls_cons hbegin hrun) (runCalls_single hend)
    rw [List.append_nil] at hall
    exact hall
  · have hlex := (((lexes_open klass).append lexes_line).append hw).append ((lexes_indent y.indent_level.toNat).append (lexes_close klass))
    simpa [GuYaml.closing] using hlex

/-! ## All nodes -/

theorem begun_after (w : Text) (n : Nat) : y.begun.after w n = y.after (y.front ++ w) n := by
  simp only [GuYaml.after, GuYaml.begun, List.append_assoc]

theorem after_state (w : Text) (n : Nat) : (y.after w n).state = y.state.next := rfl

theorem after_inside (h : Ready y) (hstate : y.state.next = y.state) (v w : Text) (m n : Nat) :
    (y.after v m).inside w n = y.inside (v ++ w) n := by
  simp only [GuYaml.after, GuYaml.inside, List.append_assoc, hstate, h.in_node, h.have_anchor, h.have_tag, h.indented]

theorem after_after_inside (h : Ready y) (hstate : y.state.next.next = y.state) (u v w : Text) (m k n : Nat) :
    ((y.after u m).after v k).inside w n = y.inside (u ++ (v ++ w)) n := by
  simp only [GuYaml.after, GuYaml.inside, List.append_assoc, hstate, h.in_node, h.have_anchor, h.have_tag, h.indented]

theorem lexes_node (hstate : y.state ≠ .document) {w : Text} {tokens : List YamlToken} (h : Lexes w tokens) :
    Lexes (y.front ++ (w ++ y.back)) (y.state.before ++ (tokens ++ y.state.after)) := by
  have hfront := (lexes_indent y.indent_level.toNat).append (lexes_before hstate)
  have hback := (lexes_after y.state).append lexes_line
  rw [List.append_nil] at hback
  exact hfront.append (h.append hback)

theorem run_begun (h : Ready y) {c : YamlCall} (hc : c ≠ .end_) : c.run y = c.run y.begun := by
  have hfirst := begin_node_ready h
  have hagain := begin_node_begun (begun_begun h.indent)
  cases c with
  | end_ => exact absurd rfl hc
  | scalar s => simp only [YamlCall.run, gu_yaml_scalar, hfirst, hagain]
  | begin_sequence => simp only [YamlCall.run, gu_yaml_begin_sequence, gu_yaml_begin, hfirst, hagain]
  | begin_mapping => simp only [YamlCall.run, gu_yaml_begin_mapping, gu_yaml_begin, hfirst, hagain]
  | anchor => simp only [YamlCall.run, gu_yaml_anchor, hfirst, hagain]
  | tag t => simp only [YamlCall.run, gu_yaml_tag, hfirst, hagain]
  | alias_ a => simp only [YamlCall.run, gu_yaml_alias, hfirst, hagain]

theorem props_calls_head (props : List YamlProp) {c : YamlCall} (hc : c ≠ .end_) (cs : List YamlCall) :
    ∃ d ds, props.map YamlProp.call ++ c :: cs = d :: ds ∧ d ≠ .end_ := by
  cases props with
  | nil => exact ⟨c, cs, rfl, hc⟩
  | cons p props =>
    refine ⟨p.call, props.map YamlProp.call ++ c :: cs, rfl, ?_⟩
    cases p with
    | anchor a => simp [YamlProp.call]
    | tag t => simp [YamlProp.call]

theorem calls_head (t : YamlNode) : ∃ c cs, t.calls = c :: cs ∧ c ≠ .end_ := by
  cases t with
  | scalar props s =>
    rw [YamlNode.calls]
    exact props_calls_head props (by simp) []
  | alias_ a => exact ⟨.alias_ a, [], by rw [YamlNode.calls], by simp⟩
  | sequence props elems =>
    rw [YamlNode.calls, List.append_assoc, List.cons_append]
    exact props_calls_head props (by simp) _
  | mapping props pairs =>
    rw [YamlNode.calls, List.append_assoc, List.cons_append]
    exact props_calls_head props (by simp) _

theorem calls_begun (h : Ready y) (t : YamlNode) : runCalls y t.calls = runCalls y.begun t.calls := by
  obtain ⟨c, cs, hcalls, hc⟩ := calls_head t
  rw [hcalls, runCalls, runCalls, run_begun h hc]

/-- A node with properties, from what the calls after these do. -/
theorem emit_with_props (h : Ready y) {props : List YamlProp} {cs : List YamlCall} {tokens : List YamlToken} {as : List Nat} {m n' : Nat}
    (hp : PropsFit props y.next_anchor m) (hfit : m < 2 ^ 31)
    (hrest : ∀ z, Begun z → z.next_anchor = m → z.indent_level = y.indent_level → ∃ v, runCalls z cs = .ok (z.after (v ++ z.back) n', as) ∧ Lexes v tokens) :
    ∃ w, runCalls y.begun (props.map YamlProp.call ++ cs) = .ok (y.after (y.front ++ (w ++ y.back)) n', propAnchors props ++ as) ∧
      Lexes w (props.map .prop ++ tokens) := by
  obtain ⟨hok, hnumbered⟩ := hp
  rw [propsOk, Bool.and_eq_true, decide_eq_true_eq, decide_eq_true_eq] at hok
  have hbegun := begun_begun h.indent
  obtain ⟨w, a, t, hprops, hw⟩ := emit_props (y := y.begun) hbegun hnumbered hfit (by simpa [GuYaml.begun, h.have_anchor] using hok.1)
    (by simpa [GuYaml.begun, h.have_tag] using hok.2)
  obtain ⟨v, hrun, hv⟩ := hrest _ (hbegun.withProps w a t m) rfl rfl
  refine ⟨w ++ v, ?_, hw.append hv⟩
  rw [runCalls_append hprops hrun, withProps_after, begun_after, List.append_assoc]
  rfl

/-- What the calls for a node do before one. -/
def Emits (t : YamlNode) : Prop := ∀ {y : GuYaml} {n' : Nat}, Ready y → Room y t.depth n' → t.Fits y.next_anchor n' →
  ∃ w, runCalls y t.calls = .ok (y.after (y.front ++ (w ++ y.back)) n', t.anchors) ∧ Lexes w t.tokens

def EmitsElems (elems : List YamlNode) : Prop :=
  ∀ {y : GuYaml} {n' : Nat}, Ready y → y.state = .elem → Room y (elemDepth elems) n' → ElemsFit elems y.next_anchor n' → ∃ w, runCalls y (elemCalls elems) = .ok (y.inside w n', elemAnchors elems) ∧ Lexes w (elemTokens elems)

def EmitsPairs (pairs : List (YamlNode × YamlNode)) : Prop :=
  ∀ {y : GuYaml} {n' : Nat}, Ready y → y.state = .key → Room y (pairDepth pairs) n' → PairsFit pairs y.next_anchor n' →
    ∃ w, runCalls y (pairCalls pairs) = .ok (y.inside w n', pairAnchors pairs) ∧ Lexes w (pairTokens pairs)

theorem emits_scalar (props : List YamlProp) (s : List GuUCS) : Emits (.scalar props s) := by
  intro y n' h hroom hfits
  rw [YamlNode.Fits] at hfits
  obtain ⟨hp, hs⟩ := hfits
  rw [calls_begun h, YamlNode.calls, YamlNode.anchors, YamlNode.tokens, ← List.append_nil (propAnchors props)]
  refine emit_with_props h hp hroom.anchors fun z hz hn _ => ?_
  obtain ⟨v, hscalar, hv⟩ := emit_scalar hz hs
  refine ⟨v, runCalls_single ?_, hv⟩
  rw [YamlCall.run, hscalar, hn]
  rfl

theorem emits_alias (a : Nat) : Emits (.alias_ a) := by
  intro y n' h _ hfits
  rw [YamlNode.Fits] at hfits
  obtain ⟨-, -, rfl⟩ := hfits
  obtain ⟨w, halias, hw⟩ := emit_alias (begun_begun h.indent) h.have_anchor h.have_tag a
  rw [calls_begun h, YamlNode.calls, YamlNode.anchors, YamlNode.tokens]
  refine ⟨w, runCalls_single ?_, hw⟩
  rw [YamlCall.run, halias, begun_after]
  rfl

theorem emits_sequence (props : List YamlProp) {elems : List YamlNode} (ih : EmitsElems elems) : Emits (.sequence props elems) := by
  intro y n' h hroom hfits
  rw [YamlNode.Fits] at hfits
  obtain ⟨m, hp, helems⟩ := hfits
  have hle := elems_le helems
  rw [YamlNode.depth] at hroom
  rw [calls_begun h, YamlNode.calls, YamlNode.anchors, YamlNode.tokens, List.append_assoc]
  refine emit_with_props h hp (Nat.lt_of_le_of_lt hle hroom.anchors) fun z hz hn hlevel => ?_
  have hroom' := hroom.mono hlevel (Nat.le_refl _) (Nat.le_refl _)
  obtain ⟨w, hrun, hw⟩ := ih (opened_ready hz .sequence) rfl hroom'.opened (hn ▸ helems)
  exact emit_collection hz hroom' rfl hrun hw

theorem emits_mapping (props : List YamlProp) {pairs : List (YamlNode × YamlNode)} (ih : EmitsPairs pairs) : Emits (.mapping props pairs) := by
  intro y n' h hroom hfits
  rw [YamlNode.Fits] at hfits
  obtain ⟨m, hp, hpairs⟩ := hfits
  have hle := pairs_le hpairs
  rw [YamlNode.depth] at hroom
  rw [calls_begun h, YamlNode.calls, YamlNode.anchors, YamlNode.tokens, List.append_assoc]
  refine emit_with_props h hp (Nat.lt_of_le_of_lt hle hroom.anchors) fun z hz hn hlevel => ?_
  have hroom' := hroom.mono hlevel (Nat.le_refl _) (Nat.le_refl _)
  obtain ⟨w, hrun, hw⟩ := ih (opened_ready hz .mapping) rfl hroom'.opened (hn ▸ hpairs)
  exact emit_collection hz hroom' rfl hrun hw

theorem emits_elem_cons {elem : YamlNode} {elems : List YamlNode} (ih : Emits elem) (ihs : EmitsElems elems) : EmitsElems (elem :: elems) := by
  intro y n' h hstate hroom hfits
  rw [ElemsFit] at hfits
  obtain ⟨m, helem, helems⟩ := hfits
  rw [elemDepth] at hroom
  obtain ⟨v, hrun, hv⟩ := ih h (hroom.mono rfl (Nat.le_max_left _ _) (elems_le helems)) helem
  have hnext : (y.after (y.front ++ (v ++ y.back)) m).state = .elem := by rw [after_state, hstate]; rfl
  obtain ⟨w, hruns, hw⟩ := ihs (after_ready h.indent _ m) hnext (hroom.mono rfl (Nat.le_max_right _ _) (Nat.le_refl _)) helems
  have hlex := (lexes_node (y := y) (by simp [hstate]) hv).append hw
  refine ⟨y.front ++ (v ++ y.back) ++ w, ?_, ?_⟩
  · rw [elemCalls, elemAnchors, runCalls_append hrun hruns, after_inside h (by rw [hstate]; rfl)]
  · rw [hstate] at hlex
    rw [elemTokens]
    simpa [GuYamlState.before, GuYamlState.after] using hlex

theorem emits_pair_cons {key value : YamlNode} {pairs : List (YamlNode × YamlNode)} (ihk : Emits key) (ihv : Emits value)
    (ihs : EmitsPairs pairs) : EmitsPairs ((key, value) :: pairs) := by
  intro y n' h hstate hroom hfits
  rw [PairsFit] at hfits
  obtain ⟨m, k, hkey, hvalue, hpairs⟩ := hfits
  rw [pairDepth] at hroom
  have hlek := pairs_le hpairs
  have hroomk := hroom.mono (e := key.depth) (m := m) rfl (Nat.le_max_left _ _) ((anchors_eq value hvalue).1.trans hlek)
  have hroomv := hroom.mono (e := value.depth) (m := k) rfl ((Nat.le_max_left _ _).trans (Nat.le_max_right _ _)) hlek
  have hrooms := hroom.mono (e := pairDepth pairs) (m := n') rfl ((Nat.le_max_right _ _).trans (Nat.le_max_right _ _)) (Nat.le_refl _)
  obtain ⟨u, hrunk, hu⟩ := ihk h hroomk hkey
  have hready := after_ready h.indent (y.front ++ (u ++ y.back)) m
  have hstate₁ : (y.after (y.front ++ (u ++ y.back)) m).state = .value := by rw [after_state, hstate]; rfl
  generalize hy₁ : y.after (y.front ++ (u ++ y.back)) m = y₁ at hrunk hready hstate₁
  have hlevel : y₁.indent_level = y.indent_level := by rw [← hy₁]; rfl
  have hfits : value.Fits y₁.next_anchor k := by rw [← hy₁]; exact hvalue
  obtain ⟨v, hrunv, hv⟩ := ihv hready (hroomv.mono hlevel (Nat.le_refl _) (Nat.le_refl _)) hfits
  have hstate₂ : (y₁.after (y₁.front ++ (v ++ y₁.back)) k).state = .key := by rw [after_state, hstate₁]; rfl
  obtain ⟨w, hruns, hw⟩ := ihs (after_ready hready.indent _ k) hstate₂ (hrooms.mono hlevel (Nat.le_refl _) (Nat.le_refl _)) hpairs
  have hlex := (lexes_node (y := y) (by simp [hstate]) hu).append ((lexes_node (y := y₁) (by simp [hstate₁]) hv).append hw)
  refine ⟨y.front ++ (u ++ y.back) ++ (y₁.front ++ (v ++ y₁.back) ++ w), ?_, ?_⟩
  · rw [pairCalls, pairAnchors, List.append_assoc, runCalls_append hrunk (runCalls_append hrunv hruns)]
    rw [← hy₁, after_after_inside h (by rw [hstate]; rfl)]
  · rw [hstate, hstate₁] at hlex
    rw [pairTokens]
    simpa [GuYamlState.before, GuYamlState.after] using hlex

theorem emits (t : YamlNode) : Emits t := by
  refine node_induction emits_scalar emits_alias emits_sequence emits_mapping ?_ (fun elem elems => emits_elem_cons) ?_
    (fun key value pairs => emits_pair_cons) t
  · intro y n' h hstate _ hfits
    rw [ElemsFit] at hfits
    refine ⟨[], ?_, lexes_nil⟩
    rw [elemCalls, elemAnchors, runCalls, hfits, GuYaml.inside, List.append_nil]
  · intro y n' h hstate _ hfits
    rw [PairsFit] at hfits
    refine ⟨[], ?_, lexes_nil⟩
    rw [pairCalls, pairAnchors, runCalls, hfits, GuYaml.inside, List.append_nil]

end States

end Yaml

end Libpgf
