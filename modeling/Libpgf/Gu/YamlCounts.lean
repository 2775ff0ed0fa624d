import Libpgf.Gu.YamlEmit
/-!
# The counters of the emitter

The level goes up with each collection that is begun and down with each that is
ended, and the next anchor goes up with each anchor. A run that returns has kept
both in an `int`, which bounds how deep the tree is nested and how many anchors
it has.
-/

namespace Libpgf

namespace Yaml

/-! ## Calls -/

/-- Both counters are as they were. -/
structure Kept (y y' : GuYaml) : Prop where
  level : y'.indent_level = y.indent_level
  anchor : y'.next_anchor = y.next_anchor

theorem Kept.refl (y : GuYaml) : Kept y y := ⟨rfl, rfl⟩

theorem Kept.trans {x y z : GuYaml} (h : Kept x y) (h' : Kept y z) : Kept x z := ⟨h'.level.trans h.level, h'.anchor.trans h.anchor⟩

section Calls
variable {y y' : GuYaml}

theorem begin_line_kept (y : GuYaml) : Kept y (gu_yaml_begin_line y) := by
  unfold gu_yaml_begin_line
  split_ifs
  · exact ⟨rfl, rfl⟩
  · exact .refl y

theorem end_line_kept (y : GuYaml) : Kept y (gu_yaml_end_line y) := by
  unfold gu_yaml_end_line
  split_ifs <;> exact ⟨rfl, rfl⟩

theorem begin_node_kept (y : GuYaml) : Kept y (gu_yaml_begin_node y) := by
  unfold gu_yaml_begin_node
  refine (begin_line_kept y).trans ?_
  dsimp only
  split_ifs
  · exact ⟨rfl, rfl⟩
  · exact .refl _

theorem end_node_kept (h : gu_yaml_end_node y = .ok y') : Kept y y' := by
  obtain ⟨_, -, h⟩ := Exec.bind_ok.1 h
  obtain rfl := Except.ok.inj h
  have hline := end_line_kept (gu_yaml_puts y y.state.suffix)
  exact ⟨hline.level, hline.anchor⟩

theorem scalar_kept {s : List GuUCS} (h : gu_yaml_scalar y s = .ok y') : Kept y y' := by
  obtain ⟨z, hloop, hend⟩ := Exec.bind_ok.1 h
  have hz : Kept (gu_yaml_begin_node y) z := by
    have hquote : Kept (gu_yaml_begin_node y) (gu_yaml_putc (gu_yaml_begin_node y) '"') := ⟨rfl, rfl⟩
    refine forEach_inv (fun u _ x x' hx hstep => ?_) hquote hloop
    obtain ⟨text, -, hwrite⟩ := Exec.bind_ok.1 hstep
    obtain rfl := Except.ok.inj hwrite
    exact ⟨hx.level, hx.anchor⟩
  have hlast := end_node_kept hend
  exact (begin_node_kept y).trans (hz.trans ⟨hlast.level, hlast.anchor⟩)

theorem alias_kept {a : Nat} (h : gu_yaml_alias y a = .ok y') : Kept y y' := by
  obtain ⟨_, -, hend⟩ := Exec.bind_ok.1 h
  have hlast := end_node_kept hend
  exact (begin_node_kept y).trans ⟨hlast.level, hlast.anchor⟩

theorem tag_kept {t : YamlTag} (h : gu_yaml_tag y t = .ok y') : Kept y y' := by
  obtain ⟨_, -, h⟩ := Exec.bind_ok.1 h
  obtain rfl := Except.ok.inj h
  exact (begin_node_kept y).trans ⟨rfl, rfl⟩

theorem anchor_counts {a : Nat} (h : gu_yaml_anchor y = .ok (y', a)) :
    y'.indent_level = y.indent_level ∧ y'.next_anchor = y.next_anchor + 1 ∧ y'.next_anchor < 2 ^ 31 := by
  obtain ⟨_, -, h⟩ := Exec.bind_ok.1 h
  obtain ⟨next, hint, h⟩ := Exec.bind_ok.1 h
  obtain ⟨rfl, -, hlt⟩ := Exec.of_int_ok hint
  obtain ⟨rfl, -⟩ := Prod.mk.inj (Except.ok.inj h)
  have hkept := begin_node_kept y
  have hnext := hkept.anchor
  refine ⟨hkept.level, ?_, ?_⟩
  · show ((gu_yaml_begin_node y).next_anchor + 1 : Int).toNat = y.next_anchor + 1
    omega
  · show ((gu_yaml_begin_node y).next_anchor + 1 : Int).toNat < 2 ^ 31
    omega

theorem begin_counts {klass : GuYamlFrameClass} (h : gu_yaml_begin y klass = .ok y') :
    y'.indent_level = y.indent_level + 1 ∧ y'.indent_level < 2 ^ 31 ∧ y'.next_anchor = y.next_anchor := by
  obtain ⟨level, hint, h⟩ := Exec.bind_ok.1 h
  obtain ⟨rfl, -, hlt⟩ := Exec.of_int_ok hint
  obtain rfl := Except.ok.inj h
  have hkept : ∀ z, Kept (gu_yaml_begin_node y) z → Kept y (gu_yaml_end_line z) :=
    fun z hz => (begin_node_kept y).trans (hz.trans (end_line_kept z))
  refine ⟨?_, hlt, ?_⟩
  · refine congrArg (· + 1) (hkept _ ?_).level
    exact ⟨rfl, rfl⟩
  · refine (hkept _ ?_).anchor
    exact ⟨rfl, rfl⟩

theorem end_counts (h : gu_yaml_end y = .ok y') : y'.indent_level = y.indent_level - 1 ∧ y'.next_anchor = y.next_anchor := by
  obtain ⟨_, -, h⟩ := Exec.bind_ok.1 h
  obtain ⟨level, hint, h⟩ := Exec.bind_ok.1 h
  obtain ⟨rfl, -, -⟩ := Exec.of_int_ok hint
  obtain ⟨f, -, hend⟩ := Exec.bind_ok.1 h
  have hline := begin_line_kept { y with indent_level := y.indent_level - 1 }
  have hlast := end_node_kept hend
  exact ⟨hlast.level.trans hline.level, hlast.anchor.trans hline.anchor⟩

end Calls

/-! ## Trees -/

/-- Runs of the calls that return leave the level as it is, and have room for `d` levels and `k` anchors more. -/
def Counts (cs : List YamlCall) (d k : Nat) : Prop :=
  ∀ (y y' : GuYaml) (as : List Nat), runCalls y cs = .ok (y', as) → y.indent_level < 2 ^ 31 → y.next_anchor < 2 ^ 31 →
    y'.indent_level = y.indent_level ∧ y'.next_anchor = y.next_anchor + k ∧ y.indent_level + d < 2 ^ 31 ∧ y.next_anchor + k < 2 ^ 31

theorem runCalls_split {y y' : GuYaml} {cs cs' : List YamlCall} {as : List Nat} (h : runCalls y (cs ++ cs') = .ok (y', as)) :
    ∃ z as₁ as₂, runCalls y cs = .ok (z, as₁) ∧ runCalls z cs' = .ok (y', as₂) := by
  induction cs generalizing y as with
  | nil => exact ⟨y, [], as, rfl, h⟩
  | cons c cs ih =>
    rw [List.cons_append, runCalls] at h
    obtain ⟨⟨z, bs⟩, hc, hrest⟩ := Exec.bind_ok.1 h
    obtain ⟨⟨z', bs'⟩, hcs, heq⟩ := Exec.bind_ok.1 hrest
    obtain ⟨rfl, -⟩ := Prod.mk.inj (Except.ok.inj heq)
    obtain ⟨x, as₁, as₂, hrun, hrun'⟩ := ih hcs
    exact ⟨x, bs ++ as₁, as₂, runCalls_cons hc hrun, hrun'⟩

theorem counts_nil : Counts [] 0 0 := by
  intro y y' as h hlevel hanchor
  obtain ⟨rfl, -⟩ := Prod.mk.inj (Except.ok.inj h)
  exact ⟨rfl, rfl, by omega, hanchor⟩

theorem Counts.append {cs cs' : List YamlCall} {d d' k k' : Nat} (h : Counts cs d k) (h' : Counts cs' d' k') :
    Counts (cs ++ cs') (max d d') (k + k') := by
  intro y y' as hrun hlevel hanchor
  obtain ⟨z, as₁, as₂, hrun₁, hrun₂⟩ := runCalls_split hrun
  obtain ⟨hz, hza, hd, hk⟩ := h y z as₁ hrun₁ hlevel hanchor
  obtain ⟨hy, hya, hd', hk'⟩ := h' z y' as₂ hrun₂ (by omega) (by omega)
  exact ⟨by omega, by omega, by omega, by omega⟩

/-- A call that keeps the counters. -/
theorem counts_kept {c : YamlCall} (h : ∀ {y y' as}, c.run y = .ok (y', as) → Kept y y') : Counts [c] 0 0 := by
  intro y y' as hrun hlevel hanchor
  obtain ⟨⟨z, bs⟩, hc, hrest⟩ := Exec.bind_ok.1 hrun
  obtain ⟨rfl, -⟩ := Prod.mk.inj (Except.ok.inj hrest)
  obtain ⟨hl, ha⟩ := h hc
  exact ⟨hl, ha, by omega, hanchor⟩

theorem counts_scalar (s : List GuUCS) : Counts [.scalar s] 0 0 := by
  refine counts_kept fun h => ?_
  obtain ⟨z, hz, h⟩ := Exec.bind_ok.1 h
  obtain ⟨rfl, -⟩ := Prod.mk.inj (Except.ok.inj h)
  exact scalar_kept hz

theorem counts_alias (a : Nat) : Counts [.alias_ a] 0 0 := by
  refine counts_kept fun h => ?_
  obtain ⟨z, hz, h⟩ := Exec.bind_ok.1 h
  obtain ⟨rfl, -⟩ := Prod.mk.inj (Except.ok.inj h)
  exact alias_kept hz

theorem counts_tag (t : YamlTag) : Counts [.tag t] 0 0 := by
  refine counts_kept fun h => ?_
  obtain ⟨z, hz, h⟩ := Exec.bind_ok.1 h
  obtain ⟨rfl, -⟩ := Prod.mk.inj (Except.ok.inj h)
  exact tag_kept hz

theorem counts_anchor : Counts [.anchor] 0 1 := by
  intro y y' as hrun hlevel hanchor
  obtain ⟨⟨z, bs⟩, hc, hrest⟩ := Exec.bind_ok.1 hrun
  obtain ⟨rfl, -⟩ := Prod.mk.inj (Except.ok.inj hrest)
  obtain ⟨⟨x, a⟩, hx, hc⟩ := Exec.bind_ok.1 hc
  obtain ⟨rfl, -⟩ := Prod.mk.inj (Except.ok.inj hc)
  obtain ⟨hl, ha, hlt⟩ := anchor_counts hx
  exact ⟨hl, ha, by omega, by omega⟩

theorem counts_props (props : List YamlProp) : Counts (props.map YamlProp.call) 0 (propAnchors props).length := by
  induction props with
  | nil => exact counts_nil
  | cons p props ih =>
    cases p with
    | anchor a =>
      have hboth := counts_anchor.append ih
      rw [Nat.add_comm] at hboth
      exact hboth
    | tag t =>
      have hboth := (counts_tag t).append ih
      rw [Nat.zero_add] at hboth
      exact hboth

/-- The calls between the beginning and the end of a collection. -/
theorem counts_collection (begin : YamlCall) {klass : GuYamlFrameClass} {cs : List YamlCall} {d k : Nat}
    (hbegin : ∀ y, begin.run y = do return (← gu_yaml_begin y klass, [])) (h : Counts cs d k) :
    Counts (begin :: cs ++ [.end_]) (d + 1) k := by
  intro y y' as hrun hlevel hanchor
  obtain ⟨z, as₁, as₂, hrun₁, hend⟩ := runCalls_split hrun
  obtain ⟨⟨x, bs⟩, hx, hrest⟩ := Exec.bind_ok.1 hrun₁
  obtain ⟨⟨z', bs'⟩, hcs, hz⟩ := Exec.bind_ok.1 hrest
  obtain ⟨rfl, -⟩ := Prod.mk.inj (Except.ok.inj hz)
  rw [hbegin] at hx
  obtain ⟨x', hx', hx⟩ := Exec.bind_ok.1 hx
  obtain ⟨rfl, -⟩ := Prod.mk.inj (Except.ok.inj hx)
  obtain ⟨⟨y₁, bs₁⟩, hlast, hy⟩ := Exec.bind_ok.1 hend
  obtain ⟨rfl, -⟩ := Prod.mk.inj (Except.ok.inj hy)
  obtain ⟨y₂, hy₂, hlast⟩ := Exec.bind_ok.1 hlast
  obtain ⟨rfl, -⟩ := Prod.mk.inj (Except.ok.inj hlast)
  obtain ⟨hxl, hxlt, hxa⟩ := begin_counts hx'
  obtain ⟨hzl, hza, hd, hk⟩ := h _ _ _ hcs hxlt (by omega)
  obtain ⟨hyl, hya⟩ := end_counts hy₂
  exact ⟨by omega, by omega, by omega, by omega⟩

theorem node_counts (t : YamlNode) : Counts t.calls t.depth t.anchors.length := by
  refine node_induction (P := fun t => Counts t.calls t.depth t.anchors.length)
    (Q := fun elems => Counts (elemCalls elems) (elemDepth elems) (elemAnchors elems).length)
    (R := fun pairs => Counts (pairCalls pairs) (pairDepth pairs) (pairAnchors pairs).length) ?_ ?_ ?_ ?_ ?_ ?_ ?_ ?_ t
  · intro props s
    have h := (counts_props props).append (counts_scalar s)
    rw [YamlNode.calls, YamlNode.depth, YamlNode.anchors]
    exact h
  · intro a
    rw [YamlNode.calls, YamlNode.depth, YamlNode.anchors]
    exact counts_alias a
  · intro props elems ih
    have h := (counts_props props).append (counts_collection .begin_sequence (fun _ => rfl) ih)
    rw [YamlNode.calls, YamlNode.depth, YamlNode.anchors, List.append_assoc, List.length_append]
    rwa [Nat.zero_max] at h
  · intro props pairs ih
    have h := (counts_props props).append (counts_collection .begin_mapping (fun _ => rfl) ih)
    rw [YamlNode.calls, YamlNode.depth, YamlNode.anchors, List.append_assoc, List.length_append]
    rwa [Nat.zero_max] at h
  · rw [elemCalls, elemDepth, elemAnchors]
    exact counts_nil
  · intro elem elems ih ihs
    rw [elemCalls, elemDepth, elemAnchors, List.length_append]
    exact ih.append ihs
  · rw [pairCalls, pairDepth, pairAnchors]
    exact counts_nil
  · intro key value pairs ihk ihv ihs
    rw [pairCalls, pairDepth, pairAnchors, List.append_assoc, List.length_append, List.length_append]
    exact ihk.append (ihv.append ihs)

end Yaml

end Libpgf
