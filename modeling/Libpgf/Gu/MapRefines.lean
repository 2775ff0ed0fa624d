import Libpgf.Gu.MapRuns
/-!
# A hash map is a finite map

Whatever calls are made on a new map, they return what they return for a finite
map, as long as the table can be extended whenever it has to be. A table for
`2 ^ 31` keys cannot be made: its size is an `int`.
-/

namespace Libpgf

namespace GuMap

open scoped List

variable {K V : Type} {h : GuHasher K} {m m' : GuMap K V} {k k' : K} {v v' : V}

/-! ## Calls -/

def gu_map_find_default (h : GuHasher K) (m : GuMap K V) (k : K) : Exec (Option V) := do
  let p ← m.gu_map_find h k
  return p.or m.default_value

def gu_map_find_key (h : GuHasher K) (m : GuMap K V) (k : K) : Exec (Option K) := do
  let (found, idx) ← m.gu_map_lookup h k
  return if found then some (m.key h idx) else none

def gu_map_has (h : GuHasher K) (m : GuMap K V) (k : K) : Exec Bool := do
  let p ← m.gu_map_find_key h k
  return p.isSome

def gu_map_put (h : GuHasher K) (m : GuMap K V) (k : K) (v : V) : Exec (GuMap K V) := do
  let (m, idx) ← m.gu_map_insert h k
  return m.put idx v

end GuMap

inductive MapCall (K V : Type) where
  | insert (k : K)
  | put (k : K) (v : V)
  | find (k : K)
  | find_default (k : K)
  | find_key (k : K)
  | has (k : K)

/-- What a call returns. A pointer to a value is given by the value. -/
inductive MapResult (K V : Type) where
  | nothing
  | value (p : Option V)
  | key (p : Option K)
  | bool (b : Bool)

namespace MapCall

open scoped List

variable {K V : Type} {h : GuHasher K}

def run (h : GuHasher K) (m : GuMap K V) : MapCall K V → Exec (GuMap K V × MapResult K V)
  | insert k => do
    let (m, idx) ← m.gu_map_insert h k
    return (m, .value m.values[idx]?)
  | put k v => do
    let m ← m.gu_map_put h k v
    return (m, .nothing)
  | find k => do return (m, .value (← m.gu_map_find h k))
  | find_default k => do return (m, .value (← m.gu_map_find_default h k))
  | find_key k => do return (m, .key (← m.gu_map_find_key h k))
  | has k => do return (m, .bool (← m.gu_map_has h k))

def runAll (h : GuHasher K) (m : GuMap K V) : List (MapCall K V) → Exec (GuMap K V × List (MapResult K V))
  | [] => .ok (m, [])
  | call :: calls => do
    let (m, r) ← call.run h m
    let (m, rs) ← runAll h m calls
    return (m, r :: rs)

/-- The same call on a finite map, where a new key gets the value `initial`, and an absent one has `default_value`. -/
def onEntries (eq : K → K → Bool) (default_value : Option V) (initial : V) (l : List (K × V)) : MapCall K V → List (K × V) × MapResult K V
  | insert k => (Assoc.insert eq l k initial, .value ((Assoc.entry eq (Assoc.insert eq l k initial) k).map Prod.snd))
  | put k v => (Assoc.write eq (Assoc.insert eq l k initial) k v, .nothing)
  | find k => (l, .value ((Assoc.entry eq l k).map Prod.snd))
  | find_default k => (l, .value (((Assoc.entry eq l k).map Prod.snd).or default_value))
  | find_key k => (l, .key ((Assoc.entry eq l k).map Prod.fst))
  | has k => (l, .bool (Assoc.entry eq l k).isSome)

def allOnEntries (eq : K → K → Bool) (default_value : Option V) (initial : V) :
    List (K × V) → List (MapCall K V) → List (K × V) × List (MapResult K V)
  | l, [] => (l, [])
  | l, call :: calls =>
    let r := call.onEntries eq default_value initial l
    let rs := allOnEntries eq default_value initial r.1 calls
    (rs.1, r.2 :: rs.2)

/-- The key that a call stores in the table, when it is not there. -/
def stores : MapCall K V → Option K
  | insert k => some k
  | put k _ => some k
  | _ => none

/-- The call resizes the table. -/
def Grows (h : GuHasher K) (m : GuMap K V) (call : MapCall K V) : Prop := ∃ k, call.stores = some k ∧ ¬ m.Has h k ∧ m.isFull

/-- The table can be extended before each call that resizes it. -/
def AllFit (h : GuHasher K) : GuMap K V → List (MapCall K V) → Prop
  | _, [] => True
  | m, call :: calls => (call.Grows h m → m.Extensible) ∧ ∀ m' r, call.run h m = .ok (m', r) → AllFit h m' calls

end MapCall

namespace GuMap

open scoped List

variable {K V : Type} {h : GuHasher K} {m m' : GuMap K V} {k k' : K} {v v' : V} {l : List (K × V)}

/-! ## One call -/

/-- The table holds the entries of a finite map. -/
structure Holds (h : GuHasher K) (m : GuMap K V) (l : List (K × V)) : Prop where
  table : m.Table h
  entries : m.gu_map_iter h ~ l

theorem Holds.entry (hm : m.Holds h l) (k : K) : Assoc.entry h.eq (m.gu_map_iter h) k = Assoc.entry h.eq l k :=
  hm.table.distinct.entry_perm h.equiv hm.entries k

theorem Holds.absent (hm : m.Holds h l) (habs : ¬ m.Has h k) : Assoc.entry h.eq l k = none := by
  rw [← hm.entry]
  exact entry_none_iff.2 habs

theorem Table.getD_eq (hm : m.Table h) {i : Nat} (hu : m.Used h i) : m.values[i]? = some (m.values.getD i m.zero_value) := by
  have hlt : i < m.values.length := hm.length.symm ▸ hu.1
  simp [List.getD, List.getElem?_eq_getElem hlt]

theorem Holds.find (hm : m.Holds h l) (k : K) : m.gu_map_find h k = .ok ((Assoc.entry h.eq l k).map Prod.snd) := by
  unfold gu_map_find
  rcases hm.table.lookup k with ⟨i, hl, hu, he⟩ | ⟨i, hl, habs⟩
  · rw [hl, Exec.ok_bind, ← hm.entry, hm.table.entry_eq hu he]
    exact congrArg Except.ok (hm.table.getD_eq hu)
  · rw [hl, Exec.ok_bind, hm.absent habs]
    rfl

theorem Holds.find_key (hm : m.Holds h l) (k : K) : m.gu_map_find_key h k = .ok ((Assoc.entry h.eq l k).map Prod.fst) := by
  unfold gu_map_find_key
  rcases hm.table.lookup k with ⟨i, hl, hu, he⟩ | ⟨i, hl, habs⟩
  · rw [hl, Exec.ok_bind, ← hm.entry, hm.table.entry_eq hu he]
    rfl
  · rw [hl, Exec.ok_bind, hm.absent habs]
    rfl

/-- The pointer that an insertion returns is to the key's value. -/
theorem Inserts.value {r : GuMap K V × Nat} (hr : Inserts h m k r) (hm : m.Holds h l) :
    r.1.values[r.2]? = (Assoc.entry h.eq (Assoc.insert h.eq l k m.initial) k).map Prod.snd := by
  have hp := hr.entries.trans (Assoc.insert_perm hm.table.distinct h.equiv hm.entries k m.initial)
  rw [← hr.table.distinct.entry_perm h.equiv hp, hr.table.entry_eq hr.used hr.key]
  exact hr.table.getD_eq hr.used

theorem Inserts.holds {r : GuMap K V × Nat} (hr : Inserts h m k r) (hm : m.Holds h l) : r.1.Holds h (Assoc.insert h.eq l k m.initial) :=
  ⟨hr.table, hr.entries.trans (Assoc.insert_perm hm.table.distinct h.equiv hm.entries k m.initial)⟩

theorem call_refines (hm : m.Holds h l) (call : MapCall K V) (hx : call.Grows h m → m.Extensible) : ∃ m',
    call.run h m = .ok (m', (call.onEntries h.eq m.default_value m.initial l).2) ∧ SameConfig m m' ∧
      m'.Holds h (call.onEntries h.eq m.default_value m.initial l).1 := by
  cases call with
  | insert k =>
    obtain ⟨r, hr, hins⟩ := hm.table.insert_returns k fun habs hfull => hx ⟨k, rfl, habs, hfull⟩
    refine ⟨r.1, ?_, hins.same, hins.holds hm⟩
    rw [MapCall.run, hr, MapCall.onEntries, ← hins.value hm]
    rfl
  | put k v =>
    obtain ⟨r, hr, hins⟩ := hm.table.insert_returns k fun habs hfull => hx ⟨k, rfl, habs, hfull⟩
    obtain ⟨htable, hwrite⟩ := hins.table.put_table hins.used hins.key v
    refine ⟨r.1.put r.2 v, ?_, hins.same.put _ _, htable, ?_⟩
    · rw [MapCall.run, gu_map_put, hr]
      rfl
    · rw [hwrite]
      exact Assoc.write_perm (hins.holds hm).entries k v
  | find k =>
    refine ⟨m, ?_, .refl m, hm⟩
    rw [MapCall.run, hm.find]
    rfl
  | find_default k =>
    refine ⟨m, ?_, .refl m, hm⟩
    rw [MapCall.run, gu_map_find_default, hm.find]
    rfl
  | find_key k =>
    refine ⟨m, ?_, .refl m, hm⟩
    rw [MapCall.run, hm.find_key]
    rfl
  | has k =>
    refine ⟨m, ?_, .refl m, hm⟩
    rw [MapCall.run, gu_map_has, hm.find_key, MapCall.onEntries, ← Option.isSome_map]
    rfl

/-! ## All calls -/

theorem calls_refine {calls : List (MapCall K V)} (hm : m.Holds h l) (hx : MapCall.AllFit h m calls) : ∃ m',
    MapCall.runAll h m calls = .ok (m', (MapCall.allOnEntries h.eq m.default_value m.initial l calls).2) ∧
      m'.Holds h (MapCall.allOnEntries h.eq m.default_value m.initial l calls).1 := by
  induction calls generalizing m l with
  | nil => exact ⟨m, rfl, hm⟩
  | cons call calls ih =>
    obtain ⟨hfirst, hrest⟩ := hx
    obtain ⟨m₁, hr, hsame, hm₁⟩ := call_refines hm call hfirst
    obtain ⟨m', hrs, hm'⟩ := ih hm₁ (hrest m₁ _ hr)
    rw [hsame.default_value, hsame.initial] at hrs hm'
    refine ⟨m', ?_, hm'⟩
    rw [MapCall.runAll, hr, Exec.ok_bind]
    dsimp only
    rw [hrs]
    rfl

/-- A map before its table is made. -/
def blank (key_size value_size : Nat) (default_value : Option V) (zero_value : V) : GuMap K V :=
  { key_size, value_size, default_value, zero_value, keys := [], values := [], n_occupied := 0, zero_idx := none }

theorem make_returns {ks vs : Nat} {dv : Option V} {zv : V} (hx : (blank ks vs dv zv : GuMap K V).Extensible) :
    ∃ m, gu_make_map h ks vs dv zv = .ok m ∧ SameConfig (blank ks vs dv zv) m ∧ m.Holds h [] := by
  have hblank : (blank ks vs dv zv : GuMap K V).Valued h := by
    refine ⟨⟨fun i hz => ?_, fun i hu => absurd hu.1 (Nat.not_lt_zero i)⟩, rfl⟩
    cases hz
  obtain ⟨m, hr, hres⟩ := resize_returns hblank rfl hx (fun s k hs habs hfull => hs.insert_fits (k := k) habs hfull 2)
  exact ⟨m, hr, hres.same, hres.table, hres.entries⟩

/-! ## Sizes that fit -/

/-- The program's own test finds the twin primes above `2 ^ 24 * 4 / 3`. -/
theorem twin_of_keys : TwinPrime 22369663 := by
  have hp : gu_is_wheel_prime 22369663 = .ok true := by decide +kernel
  have hlow : gu_is_wheel_prime 22369661 = .ok true := by decide +kernel
  exact ⟨of_decide_eq_true (is_wheel_prime_spec hp).symm, of_decide_eq_true (is_wheel_prime_spec hlow).symm⟩

/-- The room in a buffer for `q` parts. -/
theorem room_spec {q size : Nat} (hsize : 0 < size) (hmax : q * size ≤ 2 ^ 61) :
    ∃ sz, gu_mem_buf_size (q * size) = .ok sz ∧ q ≤ sz / size ∧ sz / size ≤ 2 * q + 64 := by
  obtain ⟨sz, hsz, hlo, hhi⟩ := gu_mem_buf_size_spec hmax
  refine ⟨sz, hsz, (Nat.le_div_iff_mul_le hsize).2 hlo, ?_⟩
  have hle : sz ≤ (2 * q + 64) * size := by nlinarith
  exact Nat.div_le_of_le_mul (by rwa [Nat.mul_comm] at hle)

/-- Up to `2 ^ 24` keys, the table can be extended. -/
theorem extensible_of_le (hk : 0 < m.key_size) (hk' : m.key_size ≤ 2 ^ 30) (hv : m.value_size ≤ 2 ^ 30) (hn : m.n_occupied ≤ 2 ^ 24) :
    m.Extensible := by
  have hreq : (m.required : Int) ≤ 22369663 := by
    unfold required
    omega
  obtain ⟨q, -, hq⟩ := twin_prime_sup_spec twin_of_keys hreq (searchable_of_lt (by decide))
  have hle : q ≤ 22369663 := hq.2 ⟨twin_of_keys, hreq⟩
  have h5 := hq.1.1.five_le
  obtain ⟨n, rfl⟩ := Int.eq_ofNat_of_zero_le (by omega : 0 ≤ q)
  obtain ⟨ksz, hksz, hklo, hkhi⟩ := room_spec (q := n) hk (by nlinarith)
  have hlimit : (2 * 22369663 + 64 : Int) < squareLimit := by decide
  refine ⟨n, hq, ?_⟩
  unfold roomFor
  rw [Int.toNat_natCast, hksz, Exec.ok_bind]
  dsimp only
  by_cases hvs : m.value_size = 0
  · refine ⟨ksz / m.key_size, if_pos hvs, by omega, searchable_of_lt (by omega)⟩
  · obtain ⟨vsz, hvsz, hvlo, hvhi⟩ := room_spec (q := n) (Nat.pos_of_ne_zero hvs) (by nlinarith)
    refine ⟨min (ksz / m.key_size) (vsz / m.value_size), ?_, by omega, searchable_of_lt (by omega)⟩
    rw [if_neg hvs, hvsz]
    rfl

theorem onEntries_length (call : MapCall K V) (dv : Option V) (v : V) (l : List (K × V)) :
    (call.onEntries h.eq dv v l).1.length ≤ l.length + 1 := by
  have hinsert : ∀ k, (Assoc.insert h.eq l k v).length ≤ l.length + 1 := by
    intro k
    unfold Assoc.insert
    split
    · exact Nat.le_succ _
    · exact Nat.le_refl _
  cases call with
  | insert k => exact hinsert k
  | put k w => exact (Assoc.length_write k w).trans_le (hinsert k)
  | _ => exact Nat.le_succ _

/-- Calls fit when tables for as many keys can be made. -/
theorem allFit_of_sizes {calls : List (MapCall K V)} (hm : m.Holds h l)
    (hx : ∀ m' : GuMap K V, SameConfig m m' → m'.n_occupied ≤ l.length + calls.length → m'.Extensible) : MapCall.AllFit h m calls := by
  induction calls generalizing m l with
  | nil => trivial
  | cons call calls ih =>
    have hfirst : m.Extensible := hx m (.refl m) (by rw [hm.table.occupied, hm.entries.length_eq]; exact Nat.le_add_right _ _)
    refine ⟨fun _ => hfirst, fun m₁ r hr => ?_⟩
    obtain ⟨m₂, hr₂, hsame, hm₂⟩ := call_refines hm call fun _ => hfirst
    obtain ⟨rfl, -⟩ := Prod.mk.inj (Except.ok.inj (hr.symm.trans hr₂))
    refine ih hm₂ fun m' hs hle => hx m' (hsame.trans hs) ?_
    have hlen := onEntries_length (h := h) call m.default_value m.initial l
    rw [List.length_cons]
    omega

theorem allFit_of_length {ks vs : Nat} {dv : Option V} {zv : V} {calls : List (MapCall K V)} (hr : gu_make_map h ks vs dv zv = .ok m)
    (hk : 0 < ks) (hk' : ks ≤ 2 ^ 30) (hv : vs ≤ 2 ^ 30) (hn : calls.length ≤ 2 ^ 24) : MapCall.AllFit h m calls := by
  have hblank : (blank ks vs dv zv : GuMap K V).Extensible := extensible_of_le hk hk' hv (Nat.zero_le _)
  obtain ⟨m₀, hr₀, hsame, hm₀⟩ := make_returns (h := h) hblank
  obtain rfl := Except.ok.inj (hr.symm.trans hr₀)
  have hks : m.key_size = ks := hsame.key_size
  have hvs : m.value_size = vs := hsame.value_size
  refine allFit_of_sizes hm₀ fun m' hs hle => extensible_of_le ?_ ?_ ?_ ?_
  · rw [hs.key_size, hks]
    exact hk
  · rw [hs.key_size, hks]
    exact hk'
  · rw [hs.value_size, hvs]
    exact hv
  · rw [List.length_nil, Nat.zero_add] at hle
    exact Nat.le_trans hle hn

/-! ## Tables that cannot be made -/

theorem insert_all_keeps {keys : List K} {rs : List (MapResult K V)} (hw : m.Wf h) (hsize : m.n_entries < 2 ^ 31)
    (hr : MapCall.runAll h m (keys.map .insert) = .ok (m', rs)) :
    m'.Wf h ∧ m'.n_entries < 2 ^ 31 ∧ ∀ k, k ∈ keys ∨ m.Has h k → m'.Has h k := by
  induction keys generalizing m rs with
  | nil =>
    obtain ⟨rfl, -⟩ := Prod.mk.inj (Except.ok.inj hr)
    refine ⟨hw, hsize, fun k hk => ?_⟩
    rcases hk with hk | hk
    · cases hk
    · exact hk
  | cons k keys ih =>
    rw [List.map_cons, MapCall.runAll] at hr
    obtain ⟨⟨m₁, r₁⟩, hfirst, hr⟩ := Exec.bind_ok.1 hr
    obtain ⟨⟨m₂, rs₂⟩, hrest, hr⟩ := Exec.bind_ok.1 hr
    obtain ⟨rfl, -⟩ := Prod.mk.inj (Except.ok.inj hr)
    rw [MapCall.run] at hfirst
    obtain ⟨⟨m₃, idx⟩, hins, hfirst⟩ := Exec.bind_ok.1 hfirst
    obtain ⟨rfl, -⟩ := Prod.mk.inj (Except.ok.inj hfirst)
    obtain ⟨hw₁, -, -, hhas⟩ := insert_spec hw hins
    have hsize₁ := insert_at_size (P := fun n => n < 2 ^ 31) (fun _ _ hn _ => resizedEntries_lt hn) 3 hsize hins
    obtain ⟨hw₂, hsize₂, hall⟩ := ih hw₁ hsize₁ hrest
    refine ⟨hw₂, hsize₂, fun c hc => hall c ?_⟩
    rcases hc with hc | hc
    · rcases List.mem_cons.1 hc with rfl | hc
      · exact .inr ((hhas c).2 (.inl (h.eq_refl c)))
      · exact .inl hc
    · exact .inr ((hhas c).2 (.inr hc))

/-- Words have a slot each. -/
theorem words_le {m : GuMap Nat V} {n : Nat} (hall : ∀ k < n, m.Has wordHasher k) : n ≤ m.n_entries := by
  choose! f hf using hall
  have hinj : Function.Injective fun k : Fin n => (⟨f k, (hf k k.2).1.1⟩ : Fin m.n_entries) := by
    intro a b hab
    have hslot : f a = f b := Fin.mk.inj hab
    have ha : (a : Nat) = m.key wordHasher (f a) := by simpa [wordHasher] using (hf a a.2).2
    have hb : (b : Nat) = m.key wordHasher (f b) := by simpa [wordHasher] using (hf b b.2).2
    exact Fin.ext (by rw [ha, hb, hslot])
  simpa using Fintype.card_le_of_injective _ hinj

/-! ## Every run -/

/-- A new map is a finite map for any calls, as long as its table can be extended whenever it is full. -/
theorem map_refines {ks vs : Nat} {dv : Option V} {zv : V} (calls : List (MapCall K V)) (hmake : (blank ks vs dv zv : GuMap K V).Extensible)
    (hcalls : ∀ m, gu_make_map h ks vs dv zv = .ok m → MapCall.AllFit h m calls) : ∃ m₀ m,
    gu_make_map h ks vs dv zv = .ok m₀ ∧
    MapCall.runAll h m₀ calls = .ok (m, (MapCall.allOnEntries h.eq dv (dv.getD zv) [] calls).2) ∧
    m.gu_map_iter h ~ (MapCall.allOnEntries h.eq dv (dv.getD zv) [] calls).1 ∧
    Assoc.Distinct h.eq (m.gu_map_iter h) ∧
    m.gu_map_keys h = .ok ((m.gu_map_iter h).map Prod.fst) ∧
    m.gu_map_values h = .ok ((m.gu_map_iter h).map Prod.snd) := by
  obtain ⟨m₀, hr, hsame, hm₀⟩ := make_returns (h := h) hmake
  obtain ⟨m, hrs, hm⟩ := calls_refine hm₀ (hcalls m₀ hr)
  have hdefault : m₀.default_value = dv := hsame.default_value
  have hinitial : m₀.initial = dv.getD zv := hsame.initial
  rw [hdefault, hinitial] at hrs hm
  exact ⟨m₀, m, hr, hrs, hm.entries, hm.table.distinct, keys_eq, values_eq⟩

/-- Calls on a map from words to numbers. -/
theorem map_refines_words : ∃ m₀ m, gu_make_map wordHasher 8 8 (some 7) 0 = .ok m₀ ∧
    MapCall.runAll wordHasher m₀ [.insert 0, .put 5 9, .find 0, .find 5, .find_default 6, .find_key 5, .has 6] =
      .ok (m, [.value (some 7), .nothing, .value (some 7), .value (some 9), .value (some 7), .key (some 5), .bool false]) ∧
    m.gu_map_iter wordHasher ~ [(5, 9), (0, 7)] := by
  have hmake : (blank 8 8 (some 7) 0 : GuMap Nat Nat).Extensible := extensible_of_le (by decide) (by decide) (by decide) (by decide)
  obtain ⟨m₀, m, hr, hrs, hentries, -⟩ := map_refines (h := wordHasher)
    [.insert 0, .put 5 9, .find 0, .find 5, .find_default 6, .find_key 5, .has 6] hmake
    fun m hm => allFit_of_length hm (by decide) (by decide) (by decide) (by decide)
  exact ⟨m₀, m, hr, hrs, hentries⟩

/-- The insertions of `2 ^ 31` words into a set do not all return. -/
theorem map_overflows : ¬ ∃ m₀ m : GuMap Nat Unit, ∃ rs, gu_make_map wordHasher 8 0 none () = .ok m₀ ∧
    MapCall.runAll wordHasher m₀ ((List.range (2 ^ 31)).map .insert) = .ok (m, rs) := by
  rintro ⟨m₀, m, rs, hmake, hr⟩
  have hsize := make_size (P := fun n => n < 2 ^ 31) (fun _ _ hn _ => resizedEntries_lt hn) hmake
  obtain ⟨-, hlt, hall⟩ := insert_all_keeps (make_spec hmake).1 hsize hr
  have hle := words_le fun k hk => hall k (.inl (List.mem_range.2 hk))
  exact absurd hlt (Nat.not_lt.2 hle)

end GuMap

end Libpgf
