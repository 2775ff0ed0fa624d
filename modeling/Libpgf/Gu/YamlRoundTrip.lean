import Libpgf.Gu.YamlCounts
/-!
# The tree is read back from the text

The tokens of a tree are read as the tree, and what the emitter writes for the
tree is one document with these tokens. It writes no directives, so that a tag
with a named handle is not one that can be read.
-/

namespace Libpgf

namespace Yaml

/-! ## Reading tokens -/

theorem readProps_append (props : List YamlProp) {c : YamlToken} (hc : ∀ p, c ≠ .prop p) (tokens : List YamlToken) :
    readProps (props.map .prop ++ c :: tokens) = (props, c :: tokens) := by
  induction props with
  | nil =>
    cases c with
    | prop p => exact absurd rfl (hc p)
    | _ => rfl
  | cons p props ih => rw [List.map_cons, List.cons_append, readProps, ih]

theorem props_tokens_head (props : List YamlProp) {c : YamlToken} (hc : c ≠ .sequence_end) (tokens : List YamlToken) :
    ∃ d ds, props.map .prop ++ c :: tokens = d :: ds ∧ d ≠ .sequence_end := by
  cases props with
  | nil => exact ⟨c, tokens, rfl, hc⟩
  | cons p props => exact ⟨.prop p, props.map .prop ++ c :: tokens, rfl, by simp⟩

theorem tokens_head (t : YamlNode) : ∃ c tokens, t.tokens = c :: tokens ∧ c ≠ .sequence_end := by
  cases t with
  | scalar props s =>
    rw [YamlNode.tokens]
    exact props_tokens_head props (by simp) []
  | alias_ a => exact ⟨.alias_ a, [], by rw [YamlNode.tokens], by simp⟩
  | sequence props elems =>
    rw [YamlNode.tokens]
    exact props_tokens_head props (by simp) _
  | mapping props pairs =>
    rw [YamlNode.tokens]
    exact props_tokens_head props (by simp) _

/-- An element that is followed by a comma. -/
theorem readElems_comma {m : Nat} {elem : YamlNode} {elems : List YamlNode} {tokens rest : List YamlToken}
    (h : readNode m (elem.tokens ++ .comma :: tokens) = some (elem, .comma :: tokens)) (hs : readElems m tokens = some (elems, rest)) :
    readElems (m + 1) (elem.tokens ++ .comma :: tokens) = some (elem :: elems, rest) := by
  obtain ⟨c, ts, hhead, hc⟩ := tokens_head elem
  rw [hhead, List.cons_append] at h ⊢
  cases c with
  | sequence_end => exact absurd rfl hc
  | _ => simp [readElems, h, hs]

/-- A node is read from its tokens, whatever follows. -/
def Reads (t : YamlNode) : Prop :=
  ∀ {n n' m : Nat} (rest : List YamlToken), t.Fits n n' → t.tokens.length < m → readNode m (t.tokens ++ rest) = some (t, rest)

def ReadsElems (elems : List YamlNode) : Prop :=
  ∀ {n n' m : Nat} (rest : List YamlToken), ElemsFit elems n n' → (elemTokens elems).length < m →
    readElems m (elemTokens elems ++ .sequence_end :: rest) = some (elems, rest)

def ReadsPairs (pairs : List (YamlNode × YamlNode)) : Prop :=
  ∀ {n n' m : Nat} (rest : List YamlToken), PairsFit pairs n n' → (pairTokens pairs).length < m →
    readPairs m (pairTokens pairs ++ .mapping_end :: rest) = some (pairs, rest)

theorem reads_scalar (props : List YamlProp) (s : List GuUCS) : Reads (.scalar props s) := by
  intro n n' m rest hfits hm
  rw [YamlNode.Fits] at hfits
  obtain ⟨m, rfl⟩ := Nat.exists_eq_add_of_lt hm
  rw [YamlNode.tokens, List.append_assoc, readNode]
  simp only [List.singleton_append, readProps_append props (c := .scalar s) (by simp), hfits.1.1]
  rfl

theorem reads_alias (a : Nat) : Reads (.alias_ a) := by
  intro n n' m rest hfits hm
  obtain ⟨m, rfl⟩ := Nat.exists_eq_add_of_lt hm
  rw [YamlNode.tokens, readNode]
  rfl

theorem reads_sequence (props : List YamlProp) {elems : List YamlNode} (ih : ReadsElems elems) : Reads (.sequence props elems) := by
  intro n n' m rest hfits hm
  rw [YamlNode.Fits] at hfits
  obtain ⟨k, hp, helems⟩ := hfits
  cases m with
  | zero => exact absurd hm (Nat.not_lt_zero _)
  | succ m =>
    have hlt : (elemTokens elems).length < m := by
      rw [YamlNode.tokens] at hm
      simp only [List.length_append, List.length_cons, List.length_map, List.length_nil] at hm
      omega
    have hread := ih rest helems hlt
    rw [YamlNode.tokens, List.append_assoc, readNode]
    simp only [List.cons_append, List.append_assoc, List.nil_append, readProps_append props (c := .sequence_start) (by simp), hp.1, hread]
    rfl

theorem reads_mapping (props : List YamlProp) {pairs : List (YamlNode × YamlNode)} (ih : ReadsPairs pairs) : Reads (.mapping props pairs) := by
  intro n n' m rest hfits hm
  rw [YamlNode.Fits] at hfits
  obtain ⟨k, hp, hpairs⟩ := hfits
  cases m with
  | zero => exact absurd hm (Nat.not_lt_zero _)
  | succ m =>
    have hlt : (pairTokens pairs).length < m := by
      rw [YamlNode.tokens] at hm
      simp only [List.length_append, List.length_cons, List.length_map, List.length_nil] at hm
      omega
    have hread := ih rest hpairs hlt
    rw [YamlNode.tokens, List.append_assoc, readNode]
    simp only [List.cons_append, List.append_assoc, List.nil_append, readProps_append props (c := .mapping_start) (by simp), hp.1, hread]
    rfl

theorem reads_elem_cons {elem : YamlNode} {elems : List YamlNode} (ih : Reads elem) (ihs : ReadsElems elems) : ReadsElems (elem :: elems) := by
  intro n n' m rest hfits hm
  rw [ElemsFit] at hfits
  obtain ⟨k, helem, helems⟩ := hfits
  rw [elemTokens, List.length_append, List.length_cons] at hm
  cases m with
  | zero => exact absurd hm (Nat.not_lt_zero _)
  | succ m =>
    rw [elemTokens, List.append_assoc, List.cons_append]
    exact readElems_comma (ih _ helem (by omega)) (ihs rest helems (by omega))

theorem reads_pair_cons {key value : YamlNode} {pairs : List (YamlNode × YamlNode)} (ihk : Reads key) (ihv : Reads value)
    (ihs : ReadsPairs pairs) : ReadsPairs ((key, value) :: pairs) := by
  intro n n' m rest hfits hm
  rw [PairsFit] at hfits
  obtain ⟨j, k, hkey, hvalue, hpairs⟩ := hfits
  rw [pairTokens] at hm
  simp only [List.length_append, List.length_cons] at hm
  cases m with
  | zero => exact absurd hm (Nat.not_lt_zero _)
  | succ m =>
    rw [pairTokens]
    simp only [List.append_assoc, List.cons_append]
    rw [readPairs, ihk _ hkey (by omega)]
    simp [ihv _ hvalue (show value.tokens.length < m by omega), ihs rest hpairs (show (pairTokens pairs).length < m by omega)]

theorem reads (t : YamlNode) : Reads t := by
  refine node_induction reads_scalar reads_alias (fun props elems => reads_sequence props) (fun props pairs => reads_mapping props) ?_
    (fun elem elems => reads_elem_cons) ?_ (fun key value pairs => reads_pair_cons) t
  · intro n n' m rest _ hm
    cases m with
    | zero => exact absurd hm (Nat.not_lt_zero _)
    | succ m => rw [elemTokens, List.nil_append, readElems]
  · intro n n' m rest _ hm
    cases m with
    | zero => exact absurd hm (Nat.not_lt_zero _)
    | succ m => rw [pairTokens, List.nil_append, readPairs]

/-! ## Quotes -/

theorem hexValue_plain {c : GuUCS} (h : (hexValue c).isSome = true) : isPlain c = true := by
  have hword := hexValue_wordChar h
  have hn : '0'.toNat = 48 ∧ '9'.toNat = 57 ∧ 'a'.toNat = 97 ∧ 'z'.toNat = 122 ∧ 'A'.toNat = 65 ∧ 'Z'.toNat = 90 ∧ '-'.toNat = 45 :=
    ⟨rfl, rfl, rfl, rfl, rfl, rfl, rfl⟩
  simp only [isWordChar, Bool.or_eq_true, Bool.and_eq_true, decide_eq_true_eq, hn] at hword
  refine isPlain_iff.2 (.inl (.inl (.inl ?_)))
  rcases hword with ((h | h) | h) | rfl
  · exact ⟨Nat.le_trans (by decide) h.1, h.2.trans (by decide)⟩
  · exact ⟨Nat.le_trans (by decide) h.1, h.2.trans (by decide)⟩
  · exact ⟨Nat.le_trans (by decide) h.1, h.2.trans (by decide)⟩
  · exact ⟨by decide, by decide⟩

theorem escapes_plain {c u : GuUCS} (h : escapes.lookup c = some u) : isPlain c = true := by
  have hall : ∀ p ∈ escapes, isPlain p.1 = true := by decide
  obtain ⟨l₁, l₂, heq, -⟩ := List.lookup_eq_some_iff.1 h
  exact hall (c, u) (heq ▸ by simp)

theorem step_plain {st st' : LexState} {c : GuUCS} {tokens : List YamlToken} (h : st.step c = some (st', tokens))
    (hst : st.inQuotes = true) (hst' : st'.inQuotes = true) : isPlain c = true := by
  cases st with
  | quoted s =>
    rw [LexState.step] at h
    by_cases hquote : c = '"'.toNat
    · rw [if_pos hquote] at h
      obtain ⟨rfl, -⟩ := Prod.mk.inj (Option.some.inj h)
      cases hst'
    by_cases hslash : c = '\\'.toNat
    · rw [hslash]
      decide
    by_cases hplain : isPlain c = true
    · exact hplain
    · rw [if_neg hquote, if_neg hslash, if_neg hplain] at h
      cases h
  | escaped s =>
    have hstart : isPlain 'x'.toNat = true ∧ isPlain 'u'.toNat = true ∧ isPlain 'U'.toNat = true := by decide
    rw [LexState.step] at h
    by_cases hx : c = 'x'.toNat
    · rw [hx]
      exact hstart.1
    by_cases hu : c = 'u'.toNat
    · rw [hu]
      exact hstart.2.1
    by_cases hU : c = 'U'.toNat
    · rw [hU]
      exact hstart.2.2
    rw [if_neg hx, if_neg hu, if_neg hU] at h
    obtain ⟨u, hlookup, -⟩ := Option.map_eq_some_iff.1 h
    exact escapes_plain hlookup
  | hex s rem n =>
    rw [LexState.step] at h
    cases hvalue : hexValue c with
    | none =>
      rw [hvalue] at h
      cases h
    | some d => exact hexValue_plain (by rw [hvalue]; rfl)
  | _ => cases hst

/-- No control character stands between quotes in a text that is cut into tokens. -/
theorem quotes_plain {st st' : LexState} {w : Text} {tokens : List YamlToken} (h : st.run w = some (st', tokens)) :
    ∀ c ∈ st.quotes w, isPlain c = true := by
  induction w generalizing st tokens with
  | nil => exact fun c hc => absurd hc List.not_mem_nil
  | cons d w ih =>
    rw [LexState.run, Option.bind_eq_bind, Option.bind_eq_some_iff] at h
    obtain ⟨⟨q, ts⟩, hstep, hrest⟩ := h
    obtain ⟨⟨q', ts'⟩, hrun, heq⟩ := Option.bind_eq_some_iff.1 hrest
    obtain ⟨rfl, -⟩ := Prod.mk.inj (Option.some.inj heq)
    intro c hc
    rw [LexState.quotes, hstep] at hc
    dsimp only at hc
    by_cases hquotes : (st.inQuotes && q.inQuotes) = true
    · rw [if_pos hquotes] at hc
      rw [Bool.and_eq_true] at hquotes
      rcases List.mem_cons.1 hc with rfl | hc
      · exact step_plain hstep hquotes.1 hquotes.2
      · exact ih hrun c hc
    · rw [if_neg hquotes] at hc
      exact ih hrun c hc

/-! ## Handles -/

/-- A token has a handle that is not declared just when a call names one. -/
def Declares (cs : List YamlCall) (tokens : List YamlToken) : Prop :=
  tokens.all YamlToken.declared = true ↔ ∀ handle tag, YamlCall.tag (.named handle tag) ∉ cs

theorem Declares.append {cs cs' : List YamlCall} {tokens tokens' : List YamlToken} (h : Declares cs tokens) (h' : Declares cs' tokens') :
    Declares (cs ++ cs') (tokens ++ tokens') := by
  unfold Declares at h h' ⊢
  rw [List.all_append, Bool.and_eq_true, h, h']
  simp only [List.mem_append, not_or, forall_and]

theorem declares_prop (p : YamlProp) : Declares [p.call] [.prop p] := by
  cases p with
  | anchor a => simp [Declares, YamlToken.declared, YamlProp.call]
  | tag t => cases t <;> simp [Declares, YamlToken.declared, YamlTag.declared, YamlProp.call]

theorem declares_props (props : List YamlProp) : Declares (props.map YamlProp.call) (props.map .prop) := by
  induction props with
  | nil => simp [Declares]
  | cons p props ih => exact (declares_prop p).append ih

/-- What is between nodes has no handles. -/
theorem declares_between {tokens : List YamlToken} (h : tokens.all YamlToken.declared = true) : Declares [] tokens := by
  simp only [Declares, h, List.not_mem_nil, not_false_eq_true, implies_true]

theorem declares_collection {begin : YamlCall} (klass : GuYamlFrameClass) {cs : List YamlCall} {tokens : List YamlToken}
    (hbegin : ∀ t, begin ≠ .tag t) (h : Declares cs tokens) : Declares (begin :: cs ++ [.end_]) (klass.start :: (tokens ++ [klass.end_])) := by
  have hstart : Declares [begin] [klass.start] := by
    cases klass <;> simp [Declares, GuYamlFrameClass.start, YamlToken.declared, (hbegin _).symm]
  have hend : Declares [.end_] [klass.end_] := by
    cases klass <;> simp [Declares, GuYamlFrameClass.end_, YamlToken.declared]
  exact hstart.append (h.append hend)

theorem node_declares (t : YamlNode) : Declares t.calls t.tokens := by
  refine node_induction (P := fun t => Declares t.calls t.tokens) (Q := fun elems => Declares (elemCalls elems) (elemTokens elems))
    (R := fun pairs => Declares (pairCalls pairs) (pairTokens pairs)) ?_ ?_ ?_ ?_ ?_ ?_ ?_ ?_ t
  · intro props s
    have hscalar : Declares [.scalar s] [.scalar s] := by simp [Declares, YamlToken.declared]
    rw [YamlNode.calls, YamlNode.tokens]
    exact (declares_props props).append hscalar
  · intro a
    rw [YamlNode.calls, YamlNode.tokens]
    simp [Declares, YamlToken.declared]
  · intro props elems ih
    rw [YamlNode.calls, YamlNode.tokens, List.append_assoc]
    exact (declares_props props).append (declares_collection .sequence (by simp) ih)
  · intro props pairs ih
    rw [YamlNode.calls, YamlNode.tokens, List.append_assoc]
    exact (declares_props props).append (declares_collection .mapping (by simp) ih)
  · rw [elemCalls, elemTokens]
    exact declares_between rfl
  · intro elem elems ih ihs
    have hcomma : Declares [] [.comma] := declares_between rfl
    rw [elemCalls, elemTokens]
    exact ih.append (hcomma.append ihs)
  · rw [pairCalls, pairTokens]
    exact declares_between rfl
  · intro key value pairs ihk ihv ihs
    have hkey : Declares [] [.key] := declares_between rfl
    have hvalue : Declares [] [.value] := declares_between rfl
    have hcomma : Declares [] [.comma] := declares_between rfl
    rw [pairCalls, pairTokens, List.append_assoc]
    exact hkey.append (ihk.append (hvalue.append (ihv.append (hcomma.append ihs))))

/-! ## Documents -/

theorem new_yaml_ready : Ready gu_new_yaml := ⟨rfl, rfl, rfl, rfl, rfl⟩

theorem readDocument_tokens {text : Text} {t : YamlNode} {n n' : Nat} {b : Bool} (h : t.Fits n n')
    (hlex : LexState.run (.blank true) text = some (.blank b, .document_start :: (t.tokens ++ [.document_end]))) :
    readDocument text = if t.tokens.all YamlToken.declared then some t else none := by
  have hfuel : t.tokens.length < (t.tokens ++ [YamlToken.document_end]).length + 1 := by
    rw [List.length_append]
    omega
  have hall : (YamlToken.document_start :: (t.tokens ++ [.document_end])).all YamlToken.declared = t.tokens.all YamlToken.declared := by
    simp [YamlToken.declared]
  rw [readDocument, hlex, Option.bind_eq_bind, Option.bind_some]
  dsimp only
  rw [hall, reads t [.document_end] h hfuel]
  cases t.tokens.all YamlToken.declared <;> rfl

/-- The text of a tree, when the counters have room for it. -/
theorem emits_document {t : YamlNode} {n : Nat} (h : t.Fits 1 n) (hroom : Room gu_new_yaml t.depth n) :
    ∃ yaml b, runCalls gu_new_yaml t.calls = .ok (yaml, t.anchors) ∧
      LexState.run (.blank true) yaml.out = some (.blank b, .document_start :: (t.tokens ++ [.document_end])) := by
  obtain ⟨w, hrun, hw⟩ := emits t new_yaml_ready hroom h
  obtain ⟨b, hrest⟩ := (hw.append ((lexes_after .document).append lexes_line)) true
  have hfront : LexState.run (.blank true) gu_new_yaml.front = some (.blank true, [.document_start]) := rfl
  exact ⟨_, b, hrun, LexState.run_append hfront hrest⟩

/-- What the counters have room for is what a run returns for. -/
theorem room_iff {t : YamlNode} {n : Nat} (h : t.Fits 1 n) :
    (t.anchors.length + 1 < 2 ^ 31 ∧ t.depth < 2 ^ 31) ↔ Room gu_new_yaml t.depth n := by
  obtain ⟨hle, hanchors⟩ := anchors_eq t h
  have hlen : t.anchors.length = n - 1 := by rw [hanchors, List.length_range']
  have hlevel : gu_new_yaml.indent_level = 0 := rfl
  constructor
  · rintro ⟨hn, hd⟩
    exact ⟨by omega, by omega, by omega⟩
  · rintro ⟨-, hd, hn⟩
    exact ⟨by omega, by omega⟩

theorem runs_room {t : YamlNode} {r : GuYaml × List Nat} (h : runCalls gu_new_yaml t.calls = .ok r) :
    t.anchors.length + 1 < 2 ^ 31 ∧ t.depth < 2 ^ 31 := by
  have hlevel : gu_new_yaml.indent_level = 0 := rfl
  have hanchor : gu_new_yaml.next_anchor = 1 := rfl
  obtain ⟨-, -, hd, hk⟩ := node_counts t gu_new_yaml r.1 r.2 h (by omega) (by omega)
  exact ⟨by omega, by omega⟩

/-- Whatever tree is emitted, no assertion fails as long as the counters are in their range, and the text is read as the tree just when
no handle is named in it. -/
theorem yaml_round_trip (t : YamlNode) {n : Nat} (h : t.Fits 1 n) :
    ((∃ r, runCalls gu_new_yaml t.calls = .ok r) ↔ t.anchors.length + 1 < 2 ^ 31 ∧ t.depth < 2 ^ 31) ∧
    ∀ yaml as, runCalls gu_new_yaml t.calls = .ok (yaml, as) →
      as = t.anchors ∧ as.Nodup ∧ (∀ c ∈ LexState.quotes (.blank true) yaml.out, isPlain c = true) ∧
        (readDocument yaml.out = some t ↔ ∀ handle tag, YamlCall.tag (.named handle tag) ∉ t.calls) := by
  refine ⟨⟨fun ⟨r, hrun⟩ => runs_room hrun, fun hfit => ?_⟩, fun yaml as hrun => ?_⟩
  · obtain ⟨yaml, b, hrun, -⟩ := emits_document h ((room_iff h).1 hfit)
    exact ⟨_, hrun⟩
  · obtain ⟨yaml', b, hrun', hlex⟩ := emits_document h ((room_iff h).1 (runs_room hrun))
    obtain ⟨rfl, rfl⟩ := Prod.mk.inj (Except.ok.inj (hrun'.symm.trans hrun))
    refine ⟨rfl, (anchors_eq t h).2 ▸ List.nodup_range', quotes_plain hlex, ?_⟩
    have hdeclares : t.tokens.all YamlToken.declared = true ↔ _ := node_declares t
    rw [readDocument_tokens h hlex, ← hdeclares]
    cases t.tokens.all YamlToken.declared <;> simp

/-- A mapping whose key is a line feed, and whose value is an alias to the key. -/
def aliasedKey : YamlNode := .mapping [] [(.scalar [.anchor 1, .tag (.secondary (codes ['s', 't', 'r']))] [0x0a], .alias_ 1)]

theorem aliasedKey_fits : aliasedKey.Fits 1 2 := by
  simp only [aliasedKey, YamlNode.Fits, PairsFit]
  exact ⟨1, ⟨rfl, rfl⟩, 2, 2, ⟨⟨rfl, rfl, rfl, rfl⟩, by decide⟩, ⟨by decide, by decide, rfl⟩, rfl⟩

theorem yaml_round_trip_aliasedKey : ∃ yaml, runCalls gu_new_yaml aliasedKey.calls = .ok (yaml, aliasedKey.anchors) ∧
    aliasedKey.anchors.Nodup ∧ (∀ c ∈ LexState.quotes (.blank true) yaml.out, isPlain c = true) ∧ readDocument yaml.out = some aliasedKey := by
  obtain ⟨hruns, hall⟩ := yaml_round_trip aliasedKey aliasedKey_fits
  obtain ⟨⟨yaml, as⟩, hrun⟩ := hruns.2 ⟨by decide, by decide⟩
  obtain ⟨rfl, hnodup, hplain, hread⟩ := hall yaml as hrun
  refine ⟨yaml, hrun, hnodup, hplain, hread.2 fun handle tag hmem => ?_⟩
  simp [aliasedKey, YamlNode.calls, pairCalls, YamlProp.call] at hmem

/-- A scalar whose tag has a handle. -/
def handled : YamlNode := .scalar [.tag (.named (codes ['h']) (codes ['t']))] []

/-- Sequences in one another. -/
def nested : Nat → YamlNode
  | 0 => .sequence [] []
  | n + 1 => .sequence [] [nested n]

/-- Empty scalars with anchors from `a` on. -/
def anchored (a : Nat) : Nat → List YamlNode
  | 0 => []
  | n + 1 => .scalar [.anchor a] [] :: anchored (a + 1) n

theorem nested_fits (n : Nat) : (nested n).Fits 1 1 ∧ (nested n).depth = n + 1 := by
  induction n with
  | zero =>
    simp only [nested, YamlNode.Fits, ElemsFit, YamlNode.depth, elemDepth, and_true]
    exact ⟨1, ⟨rfl, rfl⟩, rfl⟩
  | succ n ih =>
    simp only [nested, YamlNode.Fits, ElemsFit, YamlNode.depth, elemDepth, ih.2]
    exact ⟨⟨1, ⟨rfl, rfl⟩, 1, ih.1, rfl⟩, by omega⟩

theorem anchored_fits (a n : Nat) : ElemsFit (anchored a n) a (a + n) ∧ (elemAnchors (anchored a n)).length = n := by
  induction n generalizing a with
  | zero =>
    rw [anchored, ElemsFit, elemAnchors]
    exact ⟨rfl, rfl⟩
  | succ n ih =>
    obtain ⟨hfits, hlen⟩ := ih (a + 1)
    rw [anchored, ElemsFit, elemAnchors, List.length_append, hlen, YamlNode.anchors]
    refine ⟨⟨a + 1, ?_, by rwa [Nat.add_right_comm] at hfits⟩, Nat.add_comm 1 n⟩
    rw [YamlNode.Fits]
    exact ⟨⟨rfl, rfl, rfl⟩, by simp⟩

/-- A handle that no directive declares, and counters that overflow. -/
theorem yaml_not_read_back :
    (handled.Fits 1 1 ∧ ∃ yaml, runCalls gu_new_yaml handled.calls = .ok (yaml, []) ∧ readDocument yaml.out = none) ∧
    ((nested (2 ^ 31 - 1)).Fits 1 1 ∧ ¬ ∃ r, runCalls gu_new_yaml (nested (2 ^ 31 - 1)).calls = .ok r) ∧
    (YamlNode.sequence [] (anchored 1 (2 ^ 31 - 1))).Fits 1 (2 ^ 31) ∧
      ¬ ∃ r, runCalls gu_new_yaml (YamlNode.sequence [] (anchored 1 (2 ^ 31 - 1))).calls = .ok r := by
  refine ⟨⟨?_, _, rfl, rfl⟩, ⟨(nested_fits _).1, ?_⟩, ?_, ?_⟩
  · rw [handled, YamlNode.Fits]
    exact ⟨⟨rfl, rfl, rfl⟩, by simp⟩
  · rintro ⟨r, hrun⟩
    have hdepth := (runs_room hrun).2
    rw [(nested_fits _).2] at hdepth
    omega
  · rw [YamlNode.Fits]
    exact ⟨1, ⟨rfl, rfl⟩, (anchored_fits 1 (2 ^ 31 - 1)).1⟩
  · rintro ⟨r, hrun⟩
    have hlen := (runs_room hrun).1
    rw [YamlNode.anchors, List.length_append, (anchored_fits 1 (2 ^ 31 - 1)).2] at hlen
    omega

end Yaml

end Libpgf
