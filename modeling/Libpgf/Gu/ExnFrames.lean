import Libpgf.Lib.Exec
/-!
# Chains of exception frames (`gu/exn.c`, `gu/exn.h`)

A frame catches the exceptions whose type has its catch kind, and passes all
others on to its parent. A chain is a list: the parent of a frame is the one
after it.

Clearing a frame leaves its `data` behind: the next exception may then have the
data of an earlier one.
-/

namespace Libpgf

/-! ## Kinds -/

/-- The kinds of a program, each below its `super`. -/
structure GuKinds (K : Type) where
  super : K → Option K
  depth : K → Nat
  depth_lt : ∀ {k k'}, super k = some k' → depth k' < depth k

section Kinds
variable {K : Type} [DecidableEq K] (S : GuKinds K)

/-- The loop of `gu_type_has_kind`. -/
def has_kind_from (kind : K) : Nat → Option K → Bool
  | _, none => false
  | 0, some _ => false
  | n + 1, some k => if k = kind then true else has_kind_from kind n (S.super k)

def gu_type_has_kind (type kind : K) : Bool := has_kind_from S kind (S.depth type + 1) (some type)

/-- `kind` is `type` or an ancestor of it. -/
def GuKinds.Ancestor (type kind : K) : Prop := Relation.ReflTransGen (fun k k' => S.super k = some k') type kind

variable {S}

theorem has_kind_from_iff {kind : K} {n : Nat} {k : K} (hn : S.depth k < n) : has_kind_from S kind n (some k) = true ↔ S.Ancestor k kind := by
  induction n generalizing k with
  | zero => exact absurd hn (Nat.not_lt_zero _)
  | succ n ih =>
    unfold has_kind_from
    by_cases hk : k = kind
    · rw [if_pos hk]
      exact ⟨fun _ => hk ▸ .refl, fun _ => rfl⟩
    · rw [if_neg hk]
      cases hs : S.super k with
      | none =>
        constructor
        · intro h
          cases n <;> cases h
        · intro h
          rcases Relation.ReflTransGen.cases_head h with rfl | ⟨k', hk', -⟩
          · exact absurd rfl hk
          · rw [hs] at hk'
            cases hk'
      | some k' =>
        have hlt := S.depth_lt hs
        rw [ih (by omega)]
        constructor
        · exact fun h => .head hs h
        · intro h
          rcases Relation.ReflTransGen.cases_head h with rfl | ⟨k'', hk'', h⟩
          · exact absurd rfl hk
          · rw [hs] at hk''
            exact Option.some.inj hk'' ▸ h

theorem has_kind_iff {type kind : K} : gu_type_has_kind S type kind = true ↔ S.Ancestor type kind := has_kind_from_iff (Nat.lt_succ_self _)

end Kinds

/-! ## Frames -/

inductive GuExnState where
  | raised
  | ok
  | blocked
  deriving DecidableEq

/-- An exception frame. `K` are the kinds, `D` the addresses of exception values. -/
structure ExnFrame (K D : Type) where
  state : GuExnState
  /-- The kind that it catches, or `NULL`. -/
  catches : Option K
  caught : Option K
  /-- Whether it has a pool for values. -/
  pool : Bool
  data : Option D
  deriving DecidableEq

/-- `gu_exn` and `gu_new_exn` -/
def gu_new_exn {K D : Type} (catches : Option K) (pool : Bool) : ExnFrame K D := ⟨.ok, catches, none, pool, none⟩

section Frames
variable {K D : Type} [DecidableEq K] (S : GuKinds K)

/-- Whether the loop of `gu_exn_raise` stops at the frame. -/
def ExnFrame.stops (type : K) (err : ExnFrame K D) : Bool :=
  match err.catches with
  | some kind => gu_type_has_kind S type kind
  | none => false

def ExnFrame.marked (err : ExnFrame K D) : ExnFrame K D := { err with state := .raised }

/-- What the frame at which the loop stops becomes. -/
def ExnFrame.recorded (type : K) (err : ExnFrame K D) : ExnFrame K D :=
  if err.state = .ok then { err.marked with caught := some type } else err.marked

/-- Raises an exception at the head of the chain. The result has the index of the frame whose `GuExnData` is returned. -/
def gu_exn_raise (type : K) : List (ExnFrame K D) → Exec (List (ExnFrame K D) × Option Nat)
  | [] => Exec.abort
  | err :: parents =>
    if err.stops S type then .ok (err.recorded type :: parents, if err.state = .ok ∧ err.pool = true then some 0 else none)
    else do
      let (parents, p) ← gu_exn_raise type parents
      return (err.marked :: parents, p.map (· + 1))

/-- The operations on the frames of a chain; a frame is given by its index. -/
inductive ExnOp (K D : Type) where
  /-- `gu_raise`, or `gu_raise_new` with the value at an address. -/
  | raise (frame : Nat) (type : K) (value : Option D)
  | clear (frame : Nat)
  | block (frame : Nat)
  | unblock (frame : Nat)

/-- Changes a frame of the chain. -/
def updateFrame (chain : List (ExnFrame K D)) (frame : Nat) (f : ExnFrame K D → ExnFrame K D) : Exec (List (ExnFrame K D)) := do
  let err ← Exec.deref chain[frame]?
  return chain.set frame (f err)

/-- `gu_raise_new`: the value is stored when there is a place for it. -/
def gu_raise_new (chain : List (ExnFrame K D)) (frame : Nat) (type : K) (value : Option D) : Exec (List (ExnFrame K D)) := do
  let (raised, p) ← gu_exn_raise S type (chain.drop frame)
  let chain := chain.take frame ++ raised
  match p, value with
  | some p, some d => updateFrame chain (frame + p) fun err => { err with data := some d }
  | _, _ => return chain

def ExnOp.run (chain : List (ExnFrame K D)) : ExnOp K D → Exec (List (ExnFrame K D))
  | .raise frame type value => gu_raise_new S chain frame type value
  | .clear frame => updateFrame chain frame fun err => { err with caught := none, state := .ok }
  | .block frame => updateFrame chain frame fun err => if err.state = .raised then { err with state := .blocked } else err
  | .unblock frame => updateFrame chain frame fun err => if err.state = .blocked then { err with state := .raised } else err

/-! ## What an operation does to each frame -/

variable {S} {chain chain' : List (ExnFrame K D)} {err err' : ExnFrame K D} {type : K} {value : Option D}

/-- The frame after it has recorded an exception. -/
def ExnFrame.recordedWith (type : K) (value : Option D) (err : ExnFrame K D) : ExnFrame K D :=
  { err with state := .raised, caught := some type, data := if err.pool = true ∧ value.isSome = true then value else err.data }

/-- What a raise does to frame `k` of the chain, if the frame that catches is `j`. -/
def raiseEffect (type : K) (value : Option D) (i j k : Nat) (err : ExnFrame K D) : ExnFrame K D :=
  if i ≤ k ∧ k < j then err.marked
  else if k = j then if err.state = .ok then err.recordedWith type value else err.marked
  else err

/-- A raise that returns has found the nearest frame that stops it. -/
theorem raise_spec {parents raised : List (ExnFrame K D)} {p : Option Nat} (h : gu_exn_raise S type parents = .ok (raised, p)) :
    ∃ j err, parents[j]? = some err ∧ err.stops S type = true ∧ (∀ k < j, ∀ err, parents[k]? = some err → err.stops S type = false) ∧
      p = (if err.state = .ok ∧ err.pool = true then some j else none) ∧
      ∀ k, raised[k]? = parents[k]?.map fun err => if k < j then err.marked else if k = j then err.recorded type else err := by
  induction parents generalizing raised p with
  | nil => cases h
  | cons err parents ih =>
    unfold gu_exn_raise at h
    by_cases hs : err.stops S type = true
    · rw [if_pos hs] at h
      cases h
      refine ⟨0, err, rfl, hs, fun k hk => absurd hk (Nat.not_lt_zero k), rfl, ?_⟩
      intro k
      cases k with
      | zero => rfl
      | succ k => simp
    · rw [if_neg hs] at h
      obtain ⟨⟨raised', p'⟩, hrun, h⟩ := Exec.bind_ok.1 h
      cases h
      obtain ⟨j, err', hj, hstops, hpass, hp, hmap⟩ := ih hrun
      refine ⟨j + 1, err', hj, hstops, ?_, ?_, ?_⟩
      · intro k hk err₁ h₁
        cases k with
        | zero =>
          cases h₁
          exact Bool.not_eq_true _ ▸ hs
        | succ k => exact hpass k (by omega) err₁ h₁
      · rw [hp]
        split <;> rfl
      · intro k
        cases k with
        | zero => simp
        | succ k => simpa using hmap k

omit [DecidableEq K] in
theorem updateFrame_spec {i : Nat} {f : ExnFrame K D → ExnFrame K D} (h : updateFrame chain i f = .ok chain') :
    ∀ k, chain'[k]? = chain[k]?.map fun err => if k = i then f err else err := by
  obtain ⟨err, herr, h⟩ := Exec.bind_ok.1 h
  cases h
  have herr := Exec.deref_ok.1 herr
  intro k
  rw [List.getElem?_set]
  by_cases hk : i = k
  · subst hk
    have hlt := (List.getElem?_eq_some_iff.1 herr).1
    rw [if_pos rfl, if_pos hlt, herr]
    simp
  · have hk' : ¬ k = i := fun h => hk h.symm
    simp [hk, hk']

theorem raise_new_spec {i : Nat} (h : gu_raise_new S chain i type value = .ok chain') :
    ∃ j err, i ≤ j ∧ chain[j]? = some err ∧ err.stops S type = true ∧
      (∀ k, i ≤ k → k < j → ∀ err, chain[k]? = some err → err.stops S type = false) ∧
      ∀ k, chain'[k]? = chain[k]?.map (raiseEffect type value i j k) := by
  obtain ⟨⟨raised, p⟩, hrun, h⟩ := Exec.bind_ok.1 h
  obtain ⟨j, err, hj, hstops, hpass, hp, hmap⟩ := raise_spec hrun
  rw [List.getElem?_drop] at hj
  have hlen : (chain.take i).length = i := by
    have := (List.getElem?_eq_some_iff.1 hj).1
    rw [List.length_take]
    omega
  -- before the value is stored
  have hbase : ∀ k, (chain.take i ++ raised)[k]? = chain[k]?.map fun err =>
      if i ≤ k ∧ k < i + j then err.marked else if k = i + j then err.recorded type else err := by
    intro k
    rw [List.getElem?_append, hlen]
    by_cases hk : k < i
    · rw [if_pos hk, List.getElem?_take, if_pos hk]
      simp [show ¬ i ≤ k by omega, show ¬ k = i + j by omega]
    · rw [if_neg hk, hmap, List.getElem?_drop, Nat.add_sub_cancel' (not_lt.1 hk)]
      congr 1
      funext err
      simp only [show (k - i < j) = (i ≤ k ∧ k < i + j) by simp; omega, show (k - i = j) = (k = i + j) by simp; omega]
  refine ⟨i + j, err, Nat.le_add_right i j, hj, hstops, ?_, ?_⟩
  · intro k hik hkj err₁ h₁
    refine hpass (k - i) (by omega) err₁ ?_
    rwa [List.getElem?_drop, Nat.add_sub_cancel' hik]
  intro k
  -- where a value is stored, and where not
  have hstored : ∀ d, value = some d → (err.state = .ok ∧ err.pool = true) →
      updateFrame (chain.take i ++ raised) (i + j) (fun err => { err with data := some d }) = .ok chain' →
      chain'[k]? = chain[k]?.map (raiseEffect type value i (i + j) k) := by
    intro d hd hok h
    rw [updateFrame_spec h k, hbase k, Option.map_map]
    by_cases hk : k = i + j
    · subst hk
      rw [hj]
      simp [raiseEffect, ExnFrame.recorded, ExnFrame.recordedWith, ExnFrame.marked, hok, hd]
    · congr 1
      funext err
      simp [raiseEffect, hk]
  have hplain : ¬ (err.state = .ok ∧ err.pool = true ∧ value.isSome = true) → chain' = chain.take i ++ raised →
      chain'[k]? = chain[k]?.map (raiseEffect type value i (i + j) k) := by
    intro hno hc
    rw [hc, hbase k]
    by_cases hk : k = i + j
    · subst hk
      rw [hj]
      by_cases hok : err.state = .ok
      · have hdata : ¬ (err.pool = true ∧ value.isSome = true) := fun hd => hno ⟨hok, hd⟩
        simp only [Option.map_some, raiseEffect, ExnFrame.recorded, ExnFrame.recordedWith, ExnFrame.marked, hok, hdata]
        simp
      · simp [raiseEffect, ExnFrame.recorded, hok]
    · congr 1
      funext err
      simp [raiseEffect, hk]
  by_cases hok : err.state = .ok ∧ err.pool = true
  · rw [if_pos hok] at hp
    subst hp
    cases value with
    | none =>
      cases h
      exact hplain (by simp) rfl
    | some d => exact hstored d rfl hok h
  · rw [if_neg hok] at hp
    subst hp
    refine hplain (fun h => hok ⟨h.1, h.2.1⟩) ?_
    cases value <;> exact (Except.ok.inj h).symm

/-! ## Runs -/

/-- The first frame from `i` on that stops an exception. -/
def nearest (S : GuKinds K) (chain : List (ExnFrame K D)) (i : Nat) (type : K) : Option Nat :=
  ((chain.drop i).findIdx? (·.stops S type)).map (i + ·)

/-- What the operations are called with: frames of the chain, and types that some frame catches. -/
def ExnOp.Allowed (S : GuKinds K) (chain : List (ExnFrame K D)) : ExnOp K D → Prop
  | .raise i type _ => i < chain.length ∧ ∃ j, nearest S chain i type = some j
  | .clear i | .block i | .unblock i => i < chain.length

/-- A chain, and for each frame the exception that it is to have recorded, with its value. -/
structure NotedChain (K D : Type) where
  chain : List (ExnFrame K D)
  notes : Nat → Option (K × Option D)

/-- A frame records the first exception since it was cleared. -/
def ExnOp.note (S : GuKinds K) (s : NotedChain K D) : ExnOp K D → Nat → Option (K × Option D)
  | .raise i type value => fun k =>
    if nearest S s.chain i type = some k ∧ s.chain[k]?.any (·.state = .ok) then some (type, value) else s.notes k
  | .clear i => fun k => if k = i then none else s.notes k
  | .block _ | .unblock _ => s.notes

/-- One operation of a run. -/
structure ExnStep (K D : Type) where
  op : ExnOp K D
  before : NotedChain K D
  after : NotedChain K D

/-- The runs from a chain of new frames: the operations, and the state after them. -/
inductive ExnRun (S : GuKinds K) (fresh : List (ExnFrame K D)) : List (ExnStep K D) → NotedChain K D → Prop
  | nil : ExnRun S fresh [] ⟨fresh, fun _ => none⟩
  | step {steps s chain'} (op : ExnOp K D) : ExnRun S fresh steps s → op.Allowed S s.chain → op.run S s.chain = .ok chain' →
      ExnRun S fresh (steps ++ [⟨op, s, ⟨chain', op.note S s⟩⟩]) ⟨chain', op.note S s⟩

/-- The caught type is of the kind that the frame catches, and belongs with the data to the noted exception. -/
structure ExnFrame.Ok (S : GuKinds K) (note : Option (K × Option D)) (err : ExnFrame K D) : Prop where
  caught : err.caught = note.map Prod.fst
  kind : ∀ type, err.caught = some type → ∃ kind, err.catches = some kind ∧ S.Ancestor type kind
  data : err.data = none ∨ ∃ type d, note = some (type, some d) ∧ err.data = some d

def NotedChain.Consistent (S : GuKinds K) (s : NotedChain K D) : Prop := ∀ (k : Nat) (err : ExnFrame K D), s.chain[k]? = some err → err.Ok S (s.notes k)

/-- What a raise at frame `i` does to the states and to the caught types. -/
def Marks (S : GuKinds K) (i : Nat) (type : K) (chain chain' : List (ExnFrame K D)) : Prop :=
  ∃ j, nearest S chain i type = some j ∧ chain'.length = chain.length ∧
    ∀ (k : Nat) (err err' : ExnFrame K D), chain[k]? = some err → chain'[k]? = some err' →
      err'.state = (if i ≤ k ∧ k ≤ j then .raised else err.state) ∧
      err'.caught = (if k = j ∧ err.state = .ok then some type else err.caught) ∧
      (err.caught ≠ none → err'.caught = err.caught)

def ExnStep.Marked (S : GuKinds K) (e : ExnStep K D) : Prop :=
  ∀ i type value, e.op = .raise i type value → Marks S i type e.before.chain e.after.chain

/-- A frame that is cleared has no data. -/
def ExnStep.ClearsUnset (e : ExnStep K D) : Prop :=
  ∀ (i : Nat) (err : ExnFrame K D), e.op = .clear i → e.before.chain[i]? = some err → err.data = none

theorem nearest_eq {i j : Nat} : nearest S chain i type = some j ↔
    i ≤ j ∧ (∃ err, chain[j]? = some err ∧ err.stops S type = true) ∧
      ∀ k, i ≤ k → k < j → ∀ err, chain[k]? = some err → err.stops S type = false := by
  unfold nearest
  rw [Option.map_eq_some_iff]
  constructor
  · rintro ⟨m, hm, rfl⟩
    rw [List.findIdx?_eq_some_iff_getElem] at hm
    obtain ⟨hlt, hstops, hpass⟩ := hm
    refine ⟨Nat.le_add_right i m, ⟨_, ?_, hstops⟩, ?_⟩
    · rw [← List.getElem?_drop]
      exact List.getElem?_eq_getElem hlt
    · intro k hik hk err herr
      have hkm : k - i < m := by omega
      have hget : (chain.drop i)[k - i]? = some err := by rwa [List.getElem?_drop, Nat.add_sub_cancel' hik]
      obtain ⟨_, rfl⟩ := List.getElem?_eq_some_iff.1 hget
      exact Bool.not_eq_true _ ▸ hpass (k - i) hkm
  · rintro ⟨hij, ⟨err, herr, hstops⟩, hpass⟩
    refine ⟨j - i, ?_, Nat.add_sub_cancel' hij⟩
    have hget : (chain.drop i)[j - i]? = some err := by rwa [List.getElem?_drop, Nat.add_sub_cancel' hij]
    obtain ⟨hlt, rfl⟩ := List.getElem?_eq_some_iff.1 hget
    rw [List.findIdx?_eq_some_iff_getElem]
    refine ⟨hlt, hstops, ?_⟩
    intro k hk h
    have hlt' : k < (chain.drop i).length := by omega
    have := hpass (i + k) (Nat.le_add_right i k) (by omega) (chain.drop i)[k] (by
      rw [← List.getElem?_drop]
      exact List.getElem?_eq_getElem hlt')
    rw [h] at this
    cases this

/-! ## What the operations keep of a frame -/

section Frame
variable {err : ExnFrame K D} {note : Option (K × Option D)}

/-- `Ok`, and the frame has caught nothing yet when its state is. -/
def ExnFrame.Sound (S : GuKinds K) (note : Option (K × Option D)) (err : ExnFrame K D) : Prop :=
  err.Ok S note ∧ (err.state = .ok → err.caught = none)

omit [DecidableEq K] in
theorem ExnFrame.Sound.state (h : err.Sound S note) {s : GuExnState} (hs : s = .ok → err.state = .ok) :
    ({ err with state := s } : ExnFrame K D).Sound S note := ⟨⟨h.1.caught, h.1.kind, h.1.data⟩, fun h' => h.2 (hs h')⟩

omit [DecidableEq K] in
theorem ExnFrame.Sound.cleared (hdata : err.data = none) :
    ({ err with caught := none, state := .ok } : ExnFrame K D).Sound S none := by
  refine ⟨⟨rfl, ?_, .inl hdata⟩, fun _ => rfl⟩
  intro type h
  cases h

/-- A frame in its first state has no data that a new exception could take over. -/
theorem ExnFrame.Sound.recordedWith (h : err.Sound S note) (hok : err.state = .ok) (hs : err.stops S type = true) :
    (err.recordedWith type value).Sound S (some (type, value)) := by
  have hnote : note = none := by
    have := h.1.caught
    rw [h.2 hok] at this
    exact Option.map_eq_none_iff.1 this.symm
  have hdata : err.data = none := by
    rcases h.1.data with hd | ⟨t, d, hn, -⟩
    · exact hd
    · rw [hnote] at hn
      cases hn
  refine ⟨⟨rfl, ?_, ?_⟩, ?_⟩
  · intro t ht
    cases ht
    unfold ExnFrame.stops at hs
    cases hc : err.catches with
    | none =>
      rw [hc] at hs
      cases hs
    | some kind =>
      rw [hc] at hs
      exact ⟨kind, hc, has_kind_iff.1 hs⟩
  · show (if err.pool = true ∧ value.isSome = true then value else err.data) = none ∨ _
    by_cases hv : err.pool = true ∧ value.isSome = true
    · obtain ⟨d, hd⟩ := Option.isSome_iff_exists.1 hv.2
      subst hd
      right
      exact ⟨type, d, rfl, if_pos hv⟩
    · left
      rw [if_neg hv, hdata]
  · intro h'
    cases h'

end Frame

/-! ## Steps -/

section Step
variable {s : NotedChain K D} {op : ExnOp K D} {i : Nat}

def NotedChain.Sound (S : GuKinds K) (s : NotedChain K D) : Prop := ∀ (k : Nat) (err : ExnFrame K D), s.chain[k]? = some err → err.Sound S (s.notes k)

theorem raise_sound (hs : s.Sound S) (h : gu_raise_new S s.chain i type value = .ok chain') :
    NotedChain.Sound S ⟨chain', (ExnOp.raise i type value).note S s⟩ := by
  obtain ⟨j, err, hij, herr, hstops, hpass, hmap⟩ := raise_new_spec h
  have hj : nearest S s.chain i type = some j := nearest_eq.2 ⟨hij, ⟨err, herr, hstops⟩, hpass⟩
  intro k err' h'
  dsimp only at h' ⊢
  rw [hmap k] at h'
  obtain ⟨err₀, h₀, rfl⟩ := Option.map_eq_some_iff.1 h'
  have hold := hs k err₀ h₀
  unfold ExnOp.note
  dsimp only
  rw [hj, h₀]
  unfold raiseEffect
  by_cases hk : k = j
  · subst hk
    rw [herr] at h₀
    cases h₀
    have hno : ¬ (i ≤ k ∧ k < k) := by omega
    rw [if_neg hno, if_pos rfl]
    by_cases hok : err.state = .ok
    · have hnote : some k = some k ∧ (some err).any (·.state = .ok) = true := ⟨rfl, by simpa using hok⟩
      rw [if_pos hok, if_pos hnote]
      exact hold.recordedWith hok hstops
    · have hnote : ¬ (some k = some k ∧ (some err).any (·.state = .ok) = true) := by
        rintro ⟨-, h⟩
        exact hok (by simpa using h)
      rw [if_neg hok, if_neg hnote]
      exact hold.state (by simp)
  · have hnote : ¬ (some j = some k ∧ (some err₀).any (·.state = .ok) = true) := by
      rintro ⟨h, -⟩
      exact hk (Option.some.inj h).symm
    rw [if_neg hk, if_neg hnote]
    by_cases hpath : i ≤ k ∧ k < j
    · rw [if_pos hpath]
      exact hold.state (by simp)
    · rw [if_neg hpath]
      exact hold

/-- Every operation keeps the frames sound, a clear when the frame has no data. -/
theorem run_sound (hs : s.Sound S) (h : op.run S s.chain = .ok chain')
    (hclear : ∀ (i : Nat) (err : ExnFrame K D), op = .clear i → s.chain[i]? = some err → err.data = none) :
    NotedChain.Sound S ⟨chain', op.note S s⟩ := by
  cases op with
  | raise i type value => exact raise_sound hs h
  | clear i =>
    intro k err' h'
    dsimp only at h'
    rw [updateFrame_spec h k] at h'
    obtain ⟨err, herr, rfl⟩ := Option.map_eq_some_iff.1 h'
    show ExnFrame.Sound S (if k = i then none else s.notes k) _
    by_cases hk : k = i
    · rw [if_pos hk, if_pos hk]
      exact .cleared (hclear i err rfl (hk ▸ herr))
    · rw [if_neg hk, if_neg hk]
      exact hs k err herr
  | block i =>
    intro k err' h'
    dsimp only at h'
    rw [updateFrame_spec h k] at h'
    obtain ⟨err, herr, rfl⟩ := Option.map_eq_some_iff.1 h'
    have hold := hs k err herr
    show ExnFrame.Sound S (s.notes k) _
    split
    · split
      · exact hold.state (by simp)
      · exact hold
    · exact hold
  | unblock i =>
    intro k err' h'
    dsimp only at h'
    rw [updateFrame_spec h k] at h'
    obtain ⟨err, herr, rfl⟩ := Option.map_eq_some_iff.1 h'
    have hold := hs k err herr
    show ExnFrame.Sound S (s.notes k) _
    split
    · split
      · exact hold.state (by simp)
      · exact hold
    · exact hold

/-- A raise marks the right frames, and nothing that was caught is overwritten. -/
theorem raise_marks (hs : s.Sound S) (h : gu_raise_new S s.chain i type value = .ok chain') : Marks S i type s.chain chain' := by
  obtain ⟨j, err, hij, herr, hstops, hpass, hmap⟩ := raise_new_spec h
  refine ⟨j, nearest_eq.2 ⟨hij, ⟨err, herr, hstops⟩, hpass⟩, ?_, ?_⟩
  · have hnone : ∀ k, chain'.length ≤ k ↔ s.chain.length ≤ k := by
      intro k
      rw [← List.getElem?_eq_none_iff, ← List.getElem?_eq_none_iff, hmap k, Option.map_eq_none_iff]
    exact le_antisymm ((hnone _).2 le_rfl) ((hnone _).1 le_rfl)
  intro k err₀ err' h₀ h'
  rw [hmap k, h₀, Option.map_some, Option.some.injEq] at h'
  subst h'
  have hold := hs k err₀ h₀
  unfold raiseEffect
  by_cases hpath : i ≤ k ∧ k < j
  · have hle : i ≤ k ∧ k ≤ j := by omega
    have hno : ¬ (k = j ∧ err₀.state = .ok) := by omega
    rw [if_pos hpath, if_pos hle, if_neg hno]
    exact ⟨rfl, rfl, fun _ => rfl⟩
  rw [if_neg hpath]
  by_cases hk : k = j
  · have hle : i ≤ k ∧ k ≤ j := by omega
    rw [if_pos hk, if_pos hle]
    by_cases hok : err₀.state = .ok
    · rw [if_pos hok, if_pos ⟨hk, hok⟩]
      exact ⟨rfl, rfl, fun hne => absurd (hold.2 hok) hne⟩
    · rw [if_neg hok, if_neg (fun h => hok h.2)]
      exact ⟨rfl, rfl, fun _ => rfl⟩
  · have hno : ¬ (i ≤ k ∧ k ≤ j) := by omega
    rw [if_neg hk, if_neg hno, if_neg (fun h => hk h.1)]
    exact ⟨rfl, rfl, fun _ => rfl⟩

omit [DecidableEq K] in
theorem updateFrame_returns {f : ExnFrame K D → ExnFrame K D} (hi : i < chain.length) : ∃ chain', updateFrame chain i f = .ok chain' := by
  refine ⟨chain.set i (f chain[i]), ?_⟩
  unfold updateFrame
  rw [List.getElem?_eq_getElem hi]
  rfl

theorem exn_raise_returns {parents : List (ExnFrame K D)} (h : ∃ err ∈ parents, err.stops S type = true) :
    ∃ raised p, gu_exn_raise S type parents = .ok (raised, p) := by
  induction parents with
  | nil =>
    obtain ⟨err, herr, -⟩ := h
    cases herr
  | cons err parents ih =>
    unfold gu_exn_raise
    by_cases hs : err.stops S type = true
    · rw [if_pos hs]
      exact ⟨_, _, rfl⟩
    · rw [if_neg hs]
      obtain ⟨err', herr', hs'⟩ := h
      rcases List.mem_cons.1 herr' with rfl | hmem
      · exact absurd hs' hs
      · obtain ⟨raised, p, hrun⟩ := ih ⟨err', hmem, hs'⟩
        rw [hrun]
        exact ⟨_, _, rfl⟩

theorem run_returns (h : op.Allowed S chain) : ∃ chain', op.run S chain = .ok chain' := by
  cases op with
  | raise i type value =>
    obtain ⟨hi, j, hj⟩ := h
    obtain ⟨hij, ⟨err, herr, hstops⟩, -⟩ := nearest_eq.1 hj
    have hmem : err ∈ chain.drop i := by
      apply List.mem_of_getElem? (i := j - i)
      rwa [List.getElem?_drop, Nat.add_sub_cancel' hij]
    obtain ⟨raised, p, hrun⟩ := exn_raise_returns ⟨err, hmem, hstops⟩
    obtain ⟨j', err', hj', hstops', hpass', hp, hmap⟩ := raise_spec hrun
    show ∃ chain', gu_raise_new S chain i type value = .ok chain'
    unfold gu_raise_new
    rw [hrun, Exec.ok_bind]
    dsimp only
    rw [hp]
    split
    · -- the value is stored in the frame that the loop has stopped at
      rename_i p d hp'
      by_cases hc : err'.state = .ok ∧ err'.pool = true
      · rw [if_pos hc] at hp'
        cases hp'
        apply updateFrame_returns
        have hget : raised[j']? = some (err'.recorded type) := by
          rw [hmap j', hj']
          simp
        have hlt := (List.getElem?_eq_some_iff.1 hget).1
        rw [List.length_append, List.length_take]
        omega
      · rw [if_neg hc] at hp'
        cases hp'
    · exact ⟨_, rfl⟩
  | clear i => exact updateFrame_returns h
  | block i => exact updateFrame_returns h
  | unblock i => exact updateFrame_returns h

end Step

/-! ## Every run -/

section Run
variable {fresh : List (ExnFrame K D)} {steps : List (ExnStep K D)} {s : NotedChain K D}

/-- A chain of new frames, whatever they catch. -/
def AreNew (fresh : List (ExnFrame K D)) : Prop := ∀ err ∈ fresh, err = gu_new_exn err.catches err.pool

omit [DecidableEq K] in
theorem AreNew.sound (h : AreNew fresh) : NotedChain.Sound S ⟨fresh, fun _ => none⟩ := by
  intro k err herr
  have herr' := h err (List.mem_of_getElem? herr)
  rw [herr']
  refine ⟨⟨rfl, ?_, .inl rfl⟩, fun _ => rfl⟩
  intro type hc
  cases hc

theorem ExnRun.sound (hfresh : AreNew fresh) (h : ExnRun S fresh steps s) (hclear : ∀ e ∈ steps, e.ClearsUnset) :
    (∀ e ∈ steps, e.before.Sound S ∧ e.Marked S) ∧ s.Sound S := by
  induction h with
  | nil => exact ⟨fun e he => absurd he List.not_mem_nil, hfresh.sound⟩
  | @step steps s chain' op hrun hallowed hop ih =>
    obtain ⟨hsteps, hs⟩ := ih fun e he => hclear e (List.mem_append_left _ he)
    have hlast := hclear _ (List.mem_append_right _ List.mem_cons_self)
    refine ⟨?_, run_sound hs hop hlast⟩
    intro e he
    rcases List.mem_append.1 he with he | he
    · exact hsteps e he
    · rw [List.mem_singleton] at he
      subst he
      refine ⟨hs, ?_⟩
      intro i type value hraise
      dsimp only at hraise
      subst hraise
      exact raise_marks hs hop

/-- A frame that is cleared with its data left is not consistent. -/
theorem clear_inconsistent {i : Nat} {err : ExnFrame K D} (h : (ExnOp.clear i : ExnOp K D).run S s.chain = .ok chain') (herr : s.chain[i]? = some err)
    (hc : NotedChain.Consistent S ⟨chain', (ExnOp.clear i : ExnOp K D).note S s⟩) : err.data = none := by
  have hget : chain'[i]? = some { err with caught := none, state := .ok } := by
    rw [updateFrame_spec h i, herr]
    simp
  have hnote : (ExnOp.clear i : ExnOp K D).note S s i = none := if_pos rfl
  rcases (hc i _ hget).data with hd | ⟨t, d, hn, -⟩
  · exact hd
  · dsimp only at hn
    rw [hnote] at hn
    cases hn

/-- What is asked of the frames: operations return, a raise marks the right ones, and all are consistent in every state. -/
def FramesKept (S : GuKinds K) (steps : List (ExnStep K D)) (s : NotedChain K D) : Prop :=
  (∀ op : ExnOp K D, op.Allowed S s.chain → ∃ chain', op.run S s.chain = .ok chain') ∧
    (∀ e ∈ steps, e.Marked S ∧ e.before.Consistent S) ∧ s.Consistent S

theorem ExnRun.clears (h : ExnRun S fresh steps s) (hsteps : ∀ e ∈ steps, e.before.Consistent S) (hs : s.Consistent S) :
    ∀ e ∈ steps, e.ClearsUnset := by
  induction h with
  | nil =>
    intro e he
    cases he
  | @step steps s chain' op hrun hallowed hop ih =>
    have hlast := hsteps _ (List.mem_append_right _ List.mem_cons_self)
    have ih := ih (fun e he => hsteps e (List.mem_append_left _ he)) hlast
    intro e he
    rcases List.mem_append.1 he with he | he
    · exact ih e he
    · rw [List.mem_singleton] at he
      subst he
      intro i err hclear herr
      dsimp only at hclear
      subst hclear
      exact clear_inconsistent hop herr hs

/-- The frames of a chain stay consistent in exactly the runs that clear no frame with data. -/
theorem frames_kept_iff (hfresh : AreNew fresh) (h : ExnRun S fresh steps s) :
    FramesKept S steps s ↔ ∀ e ∈ steps, e.ClearsUnset := by
  constructor
  · rintro ⟨-, hsteps, hs⟩
    exact h.clears (fun e he => (hsteps e he).2) hs
  · intro hclear
    obtain ⟨hsteps, hs⟩ := h.sound hfresh hclear
    refine ⟨fun op hop => run_returns hop, ?_, fun k err herr => (hs k err herr).1⟩
    intro e he
    obtain ⟨hbefore, hmarked⟩ := hsteps e he
    exact ⟨hmarked, fun k err herr => (hbefore k err herr).1⟩

end Run

end Frames

/-! ## A frame for `type`, with a pool -/

/-- `type` is `0`, and all other kinds are directly below it. -/
def flatKinds : GuKinds Nat where
  super k := if k = 0 then none else some 0
  depth k := k
  depth_lt := by
    intro k k' h
    split at h
    · cases h
    · cases h
      omega

abbrev topFrame : List (ExnFrame Nat Nat) := [gu_new_exn (some 0) true]

/-- After an exception with a value the frame is cleared, and an exception without a value then has that of the first. -/
theorem frames_stale : ¬ ∀ (steps : List (ExnStep Nat Nat)) s, ExnRun flatKinds topFrame steps s → FramesKept flatKinds steps s := by
  intro h
  have hfirst : ExnRun flatKinds topFrame _ _ :=
    .step (.raise 0 1 (some 5)) .nil ⟨by decide, 0, rfl⟩ rfl
  have hclear := ExnRun.step (.clear 0) hfirst (show 0 < 1 by decide) rfl
  have hsecond := ExnRun.step (.raise 0 2 none) hclear ⟨by decide, 0, rfl⟩ rfl
  have hok := (h _ _ hsecond).2.2 0 _ rfl
  rcases hok.data with hd | ⟨type, d, hn, -⟩
  · cases hd
  · have hnote : (some (2, none) : Option (Nat × Option Nat)) = some (type, some d) := hn
    cases hnote

/-- A frame is cleared after an exception without a value, and then catches one with a value. -/
theorem frames_kept_reused : ∃ steps s, ExnRun flatKinds topFrame steps s ∧ steps.length = 3 ∧
    FramesKept flatKinds steps s ∧ s.chain = [⟨.raised, some 0, some 2, true, some 5⟩] := by
  have hnew : AreNew topFrame := by
    intro err herr
    rw [List.mem_singleton] at herr
    subst herr
    rfl
  have hfirst : ExnRun flatKinds topFrame _ _ :=
    .step (.raise 0 1 none) .nil ⟨by decide, 0, rfl⟩ rfl
  have hclear := ExnRun.step (.clear 0) hfirst (show 0 < 1 by decide) rfl
  have hsecond := ExnRun.step (.raise 0 2 (some 5)) hclear ⟨by decide, 0, rfl⟩ rfl
  refine ⟨_, _, hsecond, rfl, (frames_kept_iff hnew hsecond).2 ?_, rfl⟩
  intro e he i err hop herr
  simp only [List.nil_append, List.cons_append, List.mem_cons, List.not_mem_nil, or_false] at he
  rcases he with rfl | rfl | rfl
  · cases hop
  · cases hop
    have herr' : some (⟨.raised, some 0, some 1, true, none⟩ : ExnFrame Nat Nat) = some err := herr
    cases herr'
    rfl
  · cases hop

end Libpgf
