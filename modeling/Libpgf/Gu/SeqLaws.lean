import Libpgf.Gu.Seq
/-!
# Which sequences decode to what was made

A long sequence decodes when its sizes do not wrap. A short one decodes when
the pool happens to place its elements at a word boundary: `ShortFits` says when.
-/

namespace Libpgf

namespace SeqHeap

/-! ## Tagged pointers -/

theorem tag_eq (t : Nat) : gu_tagged_tag t = t % 8 := Nat.and_two_pow_sub_one_eq_mod t 3

theorem eight : Alignment 8 := ⟨3, by decide, rfl⟩

theorem tagged_ptr_eq {w : Nat} (hw : w < sizeMod) : gu_tagged_ptr w = .ok (w / 8 * 8) := align_backward_eq eight hw

theorem or_tag {p tag : Nat} (hp : 8 ∣ p) (ht : tag < 8) : p ||| tag = p + tag := by
  obtain ⟨k, rfl⟩ := hp
  exact (Nat.two_pow_add_eq_or_of_lt (i := 3) ht k).symm

theorem tagged_eq {p tag : Nat} (hp : 8 ∣ p) (hlt : p < sizeMod) (ht : tag < 8) : gu_tagged p tag = .ok (p + tag) := by
  unfold gu_tagged Exec.require
  rw [if_pos ht, Exec.ok_bind, align_backward_eq eight hlt, Exec.ok_bind, if_pos (Nat.div_mul_cancel hp), Exec.ok_bind, or_tag hp ht]
  rfl

theorem tagged_aborts {p tag : Nat} (hp : ¬ 8 ∣ p) (hlt : p < sizeMod) (w : Nat) : gu_tagged p tag ≠ .ok w := by
  intro h
  unfold gu_tagged at h
  obtain ⟨_, -, h⟩ := Exec.bind_ok.1 h
  rw [align_backward_eq eight hlt, Exec.ok_bind] at h
  obtain ⟨_, hreq, -⟩ := Exec.bind_ok.1 h
  have heq := Exec.require_ok.1 hreq
  omega

/-! ## Decoding -/

section Decoding
variable {h : SeqHeap} {p n : Nat}

/-- A sequence of `1` to `7` elements. -/
theorem decode_short (hp : 8 ∣ p) (h0 : 0 < p) (hlt : p + n < sizeMod) (hn : 0 < n ∧ n ≤ gu_tag_max) :
    gu_seq_length h (p + n) = .ok n ∧ gu_seq_data h (p + n) = .ok p ∧ gu_seq_is_buf h (p + n) = .ok false ∧
      gu_seq_is_null (p + n) = .ok false := by
  unfold gu_tag_max at hn
  have htag : gu_tagged_tag (p + n) = n := by
    rw [tag_eq]
    omega
  have hptr : gu_tagged_ptr (p + n) = .ok p := by
    rw [tagged_ptr_eq hlt]
    congr 1
    omega
  have hne : n ≠ 0 := by omega
  refine ⟨?_, ?_, ?_, ?_⟩
  · simp [gu_seq_length, htag, hne]
  · simp [gu_seq_data, htag, hptr, hne]
  · simp [gu_seq_is_buf, htag, hne]
  · simp [gu_seq_is_null, hptr, h0.ne']

theorem loadBefore_eq (hp : 8 < p) : h.loadBefore p = .ok (h.words (p - 8)) := by
  unfold SeqHeap.loadBefore SeqHeap.load Exec.require
  rw [if_pos hp, Exec.ok_bind, if_pos (by omega : 0 < p - 8)]
  rfl

theorem untagged (hp : 8 ∣ p) (hlt : p < sizeMod) : gu_tagged_tag p = 0 ∧ gu_tagged_ptr p = .ok p := by
  refine ⟨by rw [tag_eq]; omega, ?_⟩
  rw [tagged_ptr_eq hlt, Nat.div_mul_cancel hp]

/-- A sequence whose length is in the word before it. -/
theorem decode_long (hp : 8 ∣ p) (h0 : 8 < p) (hlt : p < sizeMod) (hw : h.words (p - 8) % 2 = 0) :
    gu_seq_length h p = .ok (h.words (p - 8) / 2) ∧ gu_seq_data h p = .ok p ∧ gu_seq_is_buf h p = .ok false ∧ gu_seq_is_null p = .ok false := by
  obtain ⟨htag, hptr⟩ := untagged hp hlt
  have hload := loadBefore_eq (h := h) h0
  refine ⟨?_, ?_, ?_, ?_⟩
  · simp [gu_seq_length, htag, hptr, hload, Nat.shiftRight_one]
  · simp [gu_seq_data, htag, hptr, hload, hw]
  · simp [gu_seq_is_buf, htag, hload, hw]
  · simp only [gu_seq_is_null, hptr, Exec.ok_bind, Exec.pure_eq]
    rw [decide_eq_false (by omega)]

theorem decode_buf (hp : 8 ∣ p) (h0 : 8 < p) (hlt : p < sizeMod) (hw : h.words (p - 8) % 2 = 1) :
    gu_seq_is_buf h (gu_buf_seq p) = .ok true ∧ gu_seq_length h (gu_buf_seq p) = .ok (gu_buf_length h p) ∧
      gu_seq_data h (gu_buf_seq p) = .ok (gu_buf_data h p) := by
  obtain ⟨htag, hptr⟩ := untagged hp hlt
  have hload := loadBefore_eq (h := h) h0
  unfold gu_buf_seq
  refine ⟨?_, ?_, ?_⟩
  · simp [gu_seq_is_buf, htag, hload, hw]
  · simp [gu_seq_length, htag, hptr, hload, gu_buf_length]
  · simp [gu_seq_data, htag, hptr, hload, hw, SeqHeap.load, Exec.require, gu_buf_data, show 0 < p by omega]

end Decoding

/-! ## Where the elements go -/

/-- The alignment that `gu_malloc` chooses. -/
def mallocAlign (size : Nat) : Nat := if size = 0 then gu_max_align else min (gu_lowest_set_bit size) gu_max_align

theorem mallocAlign_cases {n : Nat} (hs : n < sizeMod) :
    mallocAlign n = 1 ∧ n % 2 = 1 ∨ mallocAlign n = 2 ∧ n % 4 = 2 ∨ mallocAlign n = 4 ∧ n % 8 = 4 ∨
      mallocAlign n = 8 ∧ n % 16 = 8 ∨ mallocAlign n = 16 ∧ n % 16 = 0 := by
  unfold mallocAlign gu_max_align
  by_cases h0 : n = 0
  · simp [h0]
  obtain ⟨k, hk, hdvd, hnot⟩ := lowest_set_bit_spec (by omega) hs
  rw [if_neg h0, hk]
  by_cases h4 : k < 4
  · interval_cases k
    · left; omega
    · right; left; omega
    · right; right; left; omega
    · right; right; right; left; omega
  · have hle : 2 ^ 4 ≤ 2 ^ k := Nat.pow_le_pow_right (by decide) (by omega)
    have h16 : 2 ^ 4 ∣ n := Nat.dvd_trans (Nat.pow_dvd_pow 2 (by omega)) hdvd
    omega

/-- What `gu_malloc` asks for. -/
def mallocRequest (size : Nat) : Request := ⟨1, 0, mallocAlign size, size⟩

theorem mallocRequest_offset (size old : Nat) : (mallocRequest size).offset old = roundUp old (mallocAlign size) := by
  unfold Request.offset mallocRequest
  rw [roundUp_self Nat.one_pos (Nat.one_dvd old), Nat.add_zero]

theorem gu_malloc_eq (malloc : Malloc) (pool : GuPoolState) (size : Nat) :
    gu_malloc malloc pool size = gu_malloc_prefixed malloc pool 1 0 (mallocAlign size) size := by
  unfold gu_malloc gu_malloc_aligned mallocAlign
  rw [if_pos rfl]
  by_cases h0 : size = 0
  · subst h0
    rfl
  · rw [if_neg h0]

/-- The size of a short sequence does not wrap, and the pool places it at a word boundary: a multiple of a
word goes to one, and so does what gets a chunk of its own; odd sizes come from the right edge of the current chunk,
other even ones go to the left edge, or to the start of a new chunk. -/
def ShortFits (pool : GuPoolState) (size : Nat) : Prop :=
  size < sizeMod - 8 ∧ size ≠ sizeMod - 16 ∧
    (8 ∣ size ∨ 504 < size ∨
      size % 2 = 1 ∧ pool.left_edge + size ≤ pool.right_edge ∧ 8 ∣ pool.right_edge - size ∨
      size % 4 = 2 ∧ (pool.right_edge < roundUp pool.left_edge 2 + size ∨ 8 ∣ roundUp pool.left_edge 2) ∨
      size % 8 = 4 ∧ (pool.right_edge < roundUp pool.left_edge 4 + size ∨ 8 ∣ roundUp pool.left_edge 4))

theorem mallocRequest_valid {size : Nat} (hs : size < sizeMod - 8) (hne : size ≠ sizeMod - 16) : (mallocRequest size).Valid := by
  have hcases := mallocAlign_cases (n := size) (by omega)
  refine ⟨⟨0, by decide, rfl⟩, ?_, Nat.one_dvd _, Nat.two_pow_pos 32, ?_⟩
  · show Alignment (mallocAlign size)
    rcases hcases with ⟨h, -⟩ | ⟨h, -⟩ | ⟨h, -⟩ | ⟨h, -⟩ | ⟨h, -⟩
    · exact h ▸ ⟨0, by decide, rfl⟩
    · exact h ▸ ⟨1, by decide, rfl⟩
    · exact h ▸ ⟨2, by decide, rfl⟩
    · exact h ▸ ⟨3, by decide, rfl⟩
    · exact h ▸ ⟨4, by decide, rfl⟩
  · show (mallocRequest size).offset chunkHeader + size < sizeMod
    rw [mallocRequest_offset]
    unfold sizeMod at *
    rcases hcases with ⟨h, -⟩ | ⟨h, -⟩ | ⟨h, -⟩ | ⟨h, -⟩ | ⟨h, hmod⟩
    all_goals simp only [h, roundUp, chunkHeader]
    all_goals omega

/-- Whether a short sequence is at a word boundary. -/
theorem short_aligned_iff {malloc : Malloc} {pool pool' : GuPoolState} {regions : List Extent} {size addr : Nat} (hm : malloc.Sound)
    (hw : pool.Wf regions) (hs : size < sizeMod - 8) (hne : size ≠ sizeMod - 16) (hserved : Served malloc pool (mallocRequest size) addr pool') :
    8 ∣ addr ↔ ShortFits pool size := by
  have hcurr := hw.curr_aligned
  have hcases := mallocAlign_cases (n := size) (by omega)
  unfold ShortFits
  simp only [hs, hne, ne_eq, not_false_eq_true, true_and]
  cases hserved with
  | own hfull hc =>
    have hchunk := hm.aligned hc
    unfold Request.full gu_mem_max_shared_alloc at hfull
    rw [mallocRequest_offset] at hfull ⊢
    have hsize : (mallocRequest size).size = size := rfl
    rcases hcases with ⟨h, hmod⟩ | ⟨h, hmod⟩ | ⟨h, hmod⟩ | ⟨h, hmod⟩ | ⟨h, hmod⟩
    all_goals simp only [h, hsize, roundUp, chunkHeader] at hfull ⊢
    all_goals omega
  | left hfull hnot hfits =>
    have hone : mallocAlign size ≠ 1 := fun h => hnot ⟨rfl, h⟩
    have hend : (mallocRequest size).full = roundUp chunkHeader (mallocAlign size) + size := by
      rw [← mallocRequest_offset]
      rfl
    have hsize : (mallocRequest size).size = size := rfl
    rw [hend] at hfull
    rw [mallocRequest_offset] at hfits ⊢
    unfold gu_mem_max_shared_alloc at hfull
    rcases hcases with ⟨h, hmod⟩ | ⟨h, hmod⟩ | ⟨h, hmod⟩ | ⟨h, hmod⟩ | ⟨h, hmod⟩
    · exact absurd h hone
    all_goals simp only [h, hsize, roundUp, chunkHeader] at hfull hfits ⊢
    all_goals omega
  | left_new hfull hnot hfits hc hge hedge hmod8 =>
    have hone : mallocAlign size ≠ 1 := fun h => hnot ⟨rfl, h⟩
    have hchunk := hm.aligned hc
    have hsize : (mallocRequest size).size = size := rfl
    rw [mallocRequest_offset] at hfits ⊢
    rcases hcases with ⟨h, hmod⟩ | ⟨h, hmod⟩ | ⟨h, hmod⟩ | ⟨h, hmod⟩ | ⟨h, hmod⟩
    · exact absurd h hone
    all_goals simp only [h, hsize, roundUp, chunkHeader] at hfits ⊢
    all_goals omega
  | right hfull hone hfits =>
    have hend : (mallocRequest size).full = roundUp chunkHeader (mallocAlign size) + size := by
      rw [← mallocRequest_offset]
      rfl
    have hsize : (mallocRequest size).size = size := rfl
    have hpre : (mallocRequest size).pre_size = 0 := rfl
    have hal : mallocAlign size = 1 := hone.2
    rw [hend] at hfull
    unfold gu_mem_max_shared_alloc at hfull
    simp only [hal, hsize, hpre, roundUp, chunkHeader] at hfull hfits hcases ⊢
    omega
  | right_new hfull hone hfits hc hge hedge hmod8 =>
    have hchunk := hm.aligned hc
    have hend : (mallocRequest size).full = roundUp chunkHeader (mallocAlign size) + size := by
      rw [← mallocRequest_offset]
      rfl
    have hsize : (mallocRequest size).size = size := rfl
    have hpre : (mallocRequest size).pre_size = 0 := rfl
    have hal : mallocAlign size = 1 := hone.2
    rw [hend] at hfull
    unfold gu_mem_max_shared_alloc at hfull
    simp only [hal, hsize, hpre, roundUp, chunkHeader] at hfull hfits hge hcases ⊢
    omega

/-! ## New sequences -/

/-- What a new sequence word says. -/
structure Decodes (h : SeqHeap) (seq : GuSeq) (length : Nat) : Prop where
  word : seq < sizeMod
  length : gu_seq_length h seq = .ok length
  not_buf : gu_seq_is_buf h seq = .ok false
  not_null : gu_seq_is_null seq = .ok false

/-- `gu_empty_seq_` is as it is defined. -/
structure EmptySeq (h : SeqHeap) : Prop where
  aligned : 8 ∣ h.empty_seq
  pos : 8 < h.empty_seq
  fits : h.empty_seq < sizeMod
  zero : h.words (h.empty_seq - 8) = 0

/-- `gu_make_seq` returns a word that decodes to the length, and to the start of the block that the pool handed out. -/
def SeqMade (malloc : Malloc) (h : SeqHeap) (elem_size length : Nat) : Prop :=
  ∃ seq h', gu_make_seq malloc h elem_size length = .ok (seq, h') ∧ Decodes h' seq length ∧
    (length ≠ 0 → ∃ data pre_align pre_size align, gu_seq_data h' seq = .ok data ∧
      gu_malloc_prefixed malloc h.pool pre_align pre_size align (elem_size * length % sizeMod) = .ok (data, h'.pool))

/-- The lengths and sizes with which `gu_make_seq` does what it is to do, in the state of the pool. -/
def SeqFits (pool : GuPoolState) (elem_size length : Nat) : Prop :=
  length = 0 ∨ 0 < length ∧ length ≤ gu_tag_max ∧ ShortFits pool (elem_size * length % sizeMod) ∨
    gu_tag_max < length ∧ length < 2 ^ 63 ∧ elem_size * length % sizeMod ≠ 0 ∧ elem_size * length % sizeMod + 16 < sizeMod

section Making
variable {malloc : Malloc} {h : SeqHeap} {regions : List Extent} {elem_size length : Nat}

theorem empty_decodes (hempty : h.EmptySeq) : gu_empty_seq h = .ok h.empty_seq ∧ Decodes h h.empty_seq 0 := by
  have hw : h.words (h.empty_seq - 8) % 2 = 0 := by rw [hempty.zero]
  obtain ⟨hlen, -, hbuf, hnull⟩ := decode_long hempty.aligned hempty.pos hempty.fits hw
  rw [hempty.zero] at hlen
  exact ⟨tagged_eq hempty.aligned hempty.fits (by decide), hempty.fits, hlen, hbuf, hnull⟩

theorem make_empty (hempty : h.EmptySeq) (hlen : ¬ (0 < length ∧ length ≤ gu_tag_max)) (hsize : elem_size * length % sizeMod = 0) :
    gu_make_seq malloc h elem_size length = .ok (h.empty_seq, h) := by
  unfold gu_make_seq
  dsimp only
  rw [if_neg hlen, if_pos hsize, (empty_decodes hempty).1]
  rfl

theorem seqMade_zero (hempty : h.EmptySeq) : SeqMade malloc h elem_size 0 := by
  refine ⟨h.empty_seq, h, make_empty hempty (by omega) (by simp), (empty_decodes hempty).2, ?_⟩
  intro hne
  exact absurd rfl hne

theorem seqMade_short (hm : malloc.Sound) (hw : h.pool.Wf regions) (hlen : 0 < length ∧ length ≤ gu_tag_max)
    (hmem : gu_make_seq malloc h elem_size length ≠ Exec.fatal) :
    SeqMade malloc h elem_size length ↔ ShortFits h.pool (elem_size * length % sizeMod) := by
  have hsize : elem_size * length % sizeMod < sizeMod := Nat.mod_lt _ (by decide)
  have hlen' := hlen.2
  unfold gu_tag_max at hlen'
  generalize hs : elem_size * length % sizeMod = size at hsize
  have hrun : gu_make_seq malloc h elem_size length = (do
      let r ← gu_malloc_prefixed malloc h.pool 1 0 (mallocAlign size) size
      let seq ← gu_tagged r.1 length
      return (seq, { h with pool := r.2 })) := by
    unfold gu_make_seq
    dsimp only
    rw [if_pos hlen, hs, gu_malloc_eq]
  by_cases hfits : size < sizeMod - 8 ∧ size ≠ sizeMod - 16
  · have hq := mallocRequest_valid hfits.1 hfits.2
    rcases malloc_prefixed_served malloc hw.toEdged hq with ⟨addr, pool', hr, hserved⟩ | ⟨hfatal, -⟩
    · have hr : gu_malloc_prefixed malloc h.pool 1 0 (mallocAlign size) size = .ok (addr, pool') := hr
      obtain ⟨hlo, hhi⟩ := hw.served_bounds hm hq hserved
      have hlo : 8 ≤ addr := hlo
      rw [← short_aligned_iff hm hw hfits.1 hfits.2 hserved]
      rw [hr, Exec.ok_bind] at hrun
      constructor
      · rintro ⟨seq, h', hok, -⟩
        rw [hrun] at hok
        obtain ⟨w, htag, -⟩ := Exec.bind_ok.1 hok
        by_contra hne
        exact tagged_aborts hne (by omega) w htag
      · intro h8
        have htop : addr + length < sizeMod := by
          unfold sizeMod at *
          omega
        rw [tagged_eq h8 (by omega) (by omega), Exec.ok_bind] at hrun
        obtain ⟨hl, hd, hb, hn⟩ := decode_short (h := { h with pool := pool' }) h8 (by omega) htop hlen
        exact ⟨_, _, hrun, ⟨htop, hl, hb, hn⟩, fun _ => ⟨addr, 1, 0, mallocAlign size, hd, hs ▸ hr⟩⟩
    · have hfatal : gu_malloc_prefixed malloc h.pool 1 0 (mallocAlign size) size = Exec.fatal := hfatal
      rw [hrun, hfatal] at hmem
      exact absurd rfl hmem
  · constructor
    · rintro ⟨seq, h', hok, -⟩
      rw [hrun] at hok
      obtain ⟨r, hr, -⟩ := Exec.bind_ok.1 hok
      have hcases := mallocAlign_cases (n := size) hsize
      have halign : Alignment (mallocAlign size) := by
        rcases hcases with ⟨ha, -⟩ | ⟨ha, -⟩ | ⟨ha, -⟩ | ⟨ha, -⟩ | ⟨ha, -⟩
        · exact ha ▸ ⟨0, by decide, rfl⟩
        · exact ha ▸ ⟨1, by decide, rfl⟩
        · exact ha ▸ ⟨2, by decide, rfl⟩
        · exact ha ▸ ⟨3, by decide, rfl⟩
        · exact ha ▸ ⟨4, by decide, rfl⟩
      have hwrap : sizeMod ≤ (mallocRequest size).full := by
        show sizeMod ≤ (mallocRequest size).offset chunkHeader + size
        rw [mallocRequest_offset]
        unfold sizeMod at *
        rcases hcases with ⟨ha, hmod⟩ | ⟨ha, hmod⟩ | ⟨ha, hmod⟩ | ⟨ha, hmod⟩ | ⟨ha, hmod⟩
        all_goals simp only [ha, roundUp, chunkHeader]
        all_goals omega
      exact absurd hr (malloc_prefixed_wraps (q := mallocRequest size) hw.toEdged ⟨0, by decide, rfl⟩ halign (Nat.zero_le 8) (fun _ => rfl)
        hsize hwrap r)
    · rintro ⟨h1, h2, -⟩
      exact absurd ⟨h1, h2⟩ hfits

/-- What a long sequence asks for. -/
def longRequest (size : Nat) : Request := ⟨8, 8, 16, size⟩

theorem seqMade_long (hm : malloc.Sound) (hw : h.pool.Wf regions) (hempty : h.EmptySeq) (hlen : gu_tag_max < length)
    (hmem : gu_make_seq malloc h elem_size length ≠ Exec.fatal) :
    SeqMade malloc h elem_size length ↔
      length < 2 ^ 63 ∧ elem_size * length % sizeMod ≠ 0 ∧ elem_size * length % sizeMod + 16 < sizeMod := by
  have hsize : elem_size * length % sizeMod < sizeMod := Nat.mod_lt _ (by decide)
  have hshort : ¬ (0 < length ∧ length ≤ gu_tag_max) := by omega
  by_cases hzero : elem_size * length % sizeMod = 0
  · constructor
    · rintro ⟨seq, h', hok, hdec, -⟩
      rw [make_empty hempty hshort hzero] at hok
      cases hok
      have hz := hdec.length
      rw [(empty_decodes hempty).2.length] at hz
      have := Except.ok.inj hz
      omega
    · rintro ⟨-, hne, -⟩
      exact absurd hzero hne
  generalize hs : elem_size * length % sizeMod = size at hsize hzero ⊢
  have hrun : gu_make_seq malloc h elem_size length = (do
      let r ← gu_malloc_prefixed malloc h.pool 8 8 16 size
      let seq ← gu_tagged r.1 0
      return (seq, { h with pool := r.2 }.store (r.1 - 8) (length <<< 1 % sizeMod))) := by
    unfold gu_make_seq
    dsimp only
    rw [if_neg hshort, hs, if_neg hzero]
    rfl
  have h8 : Alignment 8 := ⟨3, by decide, rfl⟩
  have h16 : Alignment 16 := ⟨4, by decide, rfl⟩
  have hfull : (longRequest size).full = 16 + size := by simp [Request.full, Request.offset, longRequest, roundUp, chunkHeader]
  by_cases hfits : size + 16 < sizeMod
  · have hq : (longRequest size).Valid := ⟨h8, h16, Nat.dvd_refl 8, (by decide : 8 < 2 ^ 32), by omega⟩
    rcases malloc_prefixed_served malloc hw.toEdged hq with ⟨addr, pool', hr, hserved⟩ | ⟨hfatal, -⟩
    · have hr : gu_malloc_prefixed malloc h.pool 8 8 16 size = .ok (addr, pool') := hr
      obtain ⟨hlo, hhi⟩ := hw.served_bounds hm hq hserved
      have hlo : 16 ≤ addr := hlo
      have hhi : addr + size < sizeMod := hhi
      have hal : 16 ∣ addr := (hw.served hm hq hserved).2.align
      have hal8 : 8 ∣ addr := Nat.dvd_trans (by decide) hal
      rw [hr, Exec.ok_bind, tagged_eq hal8 (by omega) (by decide), Exec.ok_bind] at hrun
      -- the length is stored without its highest bit
      have hword : ({ h with pool := pool' }.store (addr - 8) (length <<< 1 % sizeMod)).words (addr - 8) = 2 * (length % 2 ^ 63) := by
        show (if addr - 8 = addr - 8 then length <<< 1 % sizeMod else _) = _
        rw [if_pos rfl, Nat.shiftLeft_eq]
        unfold sizeMod
        omega
      obtain ⟨hl, hd, hb, hn⟩ := decode_long (h := { h with pool := pool' }.store (addr - 8) (length <<< 1 % sizeMod)) hal8 (by omega) (by omega)
        (by rw [hword]; omega)
      rw [hword, Nat.mul_div_cancel_left _ (by decide)] at hl
      constructor
      · rintro ⟨seq, h', hok, hdec, -⟩
        rw [hrun] at hok
        cases hok
        have heq := hdec.length
        rw [Nat.add_zero] at heq
        rw [hl] at heq
        have := Except.ok.inj heq
        exact ⟨by omega, hzero, hfits⟩
      · rintro ⟨hlt, -, -⟩
        rw [Nat.mod_eq_of_lt hlt] at hl
        exact ⟨_, _, hrun, ⟨(by omega : addr < sizeMod), hl, hb, hn⟩, fun _ => ⟨addr, 8, 8, 16, hd, hs ▸ hr⟩⟩
    · have hfatal : gu_malloc_prefixed malloc h.pool 8 8 16 size = Exec.fatal := hfatal
      rw [hrun, hfatal] at hmem
      exact absurd rfl hmem
  · constructor
    · rintro ⟨seq, h', hok, -⟩
      rw [hrun] at hok
      obtain ⟨r, hr, -⟩ := Exec.bind_ok.1 hok
      exact absurd hr (malloc_prefixed_wraps (q := longRequest size) hw.toEdged h8 h16 (Nat.le_refl 8) (fun h1 => absurd h1 (by decide : ¬ 8 = 1))
        hsize (by omega) r)
    · rintro ⟨-, -, h1⟩
      exact absurd h1 hfits

theorem seqMade_iff (hm : malloc.Sound) (hw : h.pool.Wf regions) (hempty : h.EmptySeq)
    (hmem : gu_make_seq malloc h elem_size length ≠ Exec.fatal) : SeqMade malloc h elem_size length ↔ SeqFits h.pool elem_size length := by
  unfold SeqFits
  by_cases h0 : length = 0
  · subst h0
    exact ⟨fun _ => .inl rfl, fun _ => seqMade_zero hempty⟩
  by_cases hshort : length ≤ gu_tag_max
  · rw [seqMade_short hm hw ⟨by omega, hshort⟩ hmem]
    exact ⟨fun hf => .inr (.inl ⟨by omega, hshort, hf⟩), fun hf => by
      rcases hf with hz | ⟨-, -, hf⟩ | ⟨hlt, -⟩
      · exact absurd hz h0
      · exact hf
      · exact absurd hlt (by omega)⟩
  · rw [seqMade_long hm hw hempty (by omega) hmem]
    exact ⟨fun hf => .inr (.inr ⟨by omega, hf⟩), fun hf => by
      rcases hf with hz | ⟨-, hle, -⟩ | ⟨-, hf⟩
      · exact absurd hz h0
      · exact absurd hle hshort
      · exact hf⟩

/-! ## Copies -/

/-- Copying into the elements does not change what the word says. -/
theorem Decodes.memcpy {seq dest src n : Nat} (hd : Decodes h seq length) (hdata : gu_seq_data h seq = .ok dest) :
    Decodes (memcpy h dest src n) seq length := by
  obtain ⟨hword, hlen, hbuf, hnull⟩ := hd
  by_cases htag : gu_tagged_tag seq = 0
  · -- the elements begin behind the word with the length
    have h8 : 8 ∣ seq := by
      rw [tag_eq] at htag
      omega
    obtain ⟨-, hptr⟩ := untagged h8 hword
    obtain ⟨w, hw, -⟩ : ∃ w, h.loadBefore seq = .ok w ∧ True := by
      unfold gu_seq_is_buf at hbuf
      rw [if_neg (not_not.2 htag)] at hbuf
      obtain ⟨w, hw, -⟩ := Exec.bind_ok.1 hbuf
      exact ⟨w, hw, trivial⟩
    have hpos : 8 < seq := by
      obtain ⟨_, hreq, -⟩ := Exec.bind_ok.1 hw
      exact Exec.require_ok.1 hreq
    have hload := loadBefore_eq (h := h) hpos
    have hbit : h.words (seq - 8) % 2 = 0 := by
      have hparity := Nat.mod_two_eq_zero_or_one (h.words (seq - 8))
      rcases hparity with h0 | h1
      · exact h0
      · have hmarked : gu_seq_is_buf h seq = .ok true := (decode_buf h8 hpos hword h1).1
        rw [hmarked] at hbuf
        cases hbuf
    obtain ⟨hlen', hdata', -, -⟩ := decode_long h8 hpos hword hbit
    rw [hdata'] at hdata
    obtain rfl := Except.ok.inj hdata
    have hkeep : (SeqHeap.memcpy h seq src n).words (seq - 8) = h.words (seq - 8) := if_neg (by omega)
    rw [hlen'] at hlen
    obtain ⟨hlen'', -, hbuf'', -⟩ := decode_long (h := SeqHeap.memcpy h seq src n) h8 hpos hword (hkeep ▸ hbit)
    rw [hkeep, hlen] at hlen''
    exact ⟨hword, hlen'', hbuf'', hnull⟩
  · unfold gu_seq_length at hlen
    unfold gu_seq_is_buf at hbuf
    refine ⟨hword, ?_, ?_, hnull⟩
    · unfold gu_seq_length
      simpa [htag] using hlen
    · unfold gu_seq_is_buf
      simp [htag]

theorem SeqMade.copy {seq copy : GuSeq} {h' : SeqHeap} (hmade : SeqMade malloc h elem_size length) (hlen : gu_seq_length h seq = .ok length)
    (hcopy : gu_seq_copy malloc h seq elem_size = .ok (copy, h')) : Decodes h' copy length := by
  obtain ⟨seq₁, h₁, hok, hdec, -⟩ := hmade
  unfold gu_seq_copy at hcopy
  rw [hlen, Exec.ok_bind, hok, Exec.ok_bind] at hcopy
  obtain ⟨src, -, hcopy⟩ := Exec.bind_ok.1 hcopy
  obtain ⟨dest, hdest, hcopy⟩ := Exec.bind_ok.1 hcopy
  cases hcopy
  exact hdec.memcpy hdest

theorem SeqMade.freeze {buf : Nat} {seq : GuSeq} {h' : SeqHeap} (hmade : SeqMade malloc h elem_size length)
    (hsize : gu_buf_elem_size h buf = elem_size) (hlen : gu_buf_length h buf = length)
    (hfreeze : gu_buf_freeze malloc h buf = .ok (seq, h')) : Decodes h' seq length := by
  obtain ⟨seq₁, h₁, hok, hdec, -⟩ := hmade
  unfold gu_buf_freeze at hfreeze
  dsimp only at hfreeze
  rw [hsize, hlen, hok, Exec.ok_bind] at hfreeze
  obtain ⟨dest, hdest, hfreeze⟩ := Exec.bind_ok.1 hfreeze
  cases hfreeze
  exact hdec.memcpy hdest

end Making

/-! ## Buffers -/

section Buffers
variable {malloc : Malloc} {h h' : SeqHeap} {regions : List Extent} {buf : Nat}

/-- There is a buffer at `buf`: the word before it has its lowest bit set. -/
structure IsBuf (h : SeqHeap) (buf : Nat) : Prop where
  aligned : 8 ∣ buf
  pos : 8 < buf
  fits : buf < sizeMod
  marked : h.words (buf - 8) % 2 = 1

theorem store_words (h : SeqHeap) (addr w : Nat) : (h.store addr w).words addr = w := if_pos rfl

/-- The length of a buffer has 63 bits. -/
theorem set_length_words (h : SeqHeap) (buf n : Nat) : (gu_buf_set_length h buf n).words (buf - 8) = 2 * (n % 2 ^ 63) + 1 := by
  unfold gu_buf_set_length
  rw [store_words, Nat.shiftLeft_eq]
  have heven : n * 2 ^ 1 % sizeMod = 2 ^ 1 * (n % 2 ^ 63) := by
    unfold sizeMod
    omega
  rw [heven, ← Nat.two_pow_add_eq_or_of_lt (i := 1) (by decide)]

theorem set_length_isBuf {n : Nat} (h8 : 8 ∣ buf) (hpos : 8 < buf) (hfits : buf < sizeMod) : IsBuf (gu_buf_set_length h buf n) buf where
  aligned := h8
  pos := hpos
  fits := hfits
  marked := by
    rw [set_length_words]
    omega

theorem set_length_length (h : SeqHeap) (buf n : Nat) : gu_buf_length (gu_buf_set_length h buf n) buf = n % 2 ^ 63 := by
  unfold gu_buf_length
  rw [set_length_words, Nat.shiftRight_one]
  omega

/-- The length after an operation. -/
def BufOp.length (len : Nat) : BufOp → Nat
  | .extend n => (len + n) % sizeMod % 2 ^ 63
  | .trim n => (len - n) % 2 ^ 63

theorem run_isBuf {op : BufOp} (hb : IsBuf h buf) (hr : op.run malloc buf h = .ok h') :
    IsBuf h' buf ∧ gu_buf_length h' buf = op.length (gu_buf_length h buf) := by
  cases op with
  | extend n =>
    obtain ⟨⟨p, h₁⟩, hext, hr⟩ := Exec.bind_ok.1 hr
    cases hr
    obtain ⟨h₂, -, hext⟩ := Exec.bind_ok.1 hext
    cases hext
    exact ⟨set_length_isBuf hb.aligned hb.pos hb.fits, set_length_length _ _ _⟩
  | trim n =>
    obtain ⟨⟨p, h₁⟩, htrim, hr⟩ := Exec.bind_ok.1 hr
    cases hr
    obtain ⟨_, -, htrim⟩ := Exec.bind_ok.1 htrim
    cases htrim
    exact ⟨set_length_isBuf hb.aligned hb.pos hb.fits, set_length_length _ _ _⟩

theorem run_all_isBuf {ops : List BufOp} (hb : IsBuf h buf) (hr : forEach (BufOp.run malloc buf) ops h = .ok h') :
    IsBuf h' buf ∧ gu_buf_length h' buf = ops.foldl BufOp.length (gu_buf_length h buf) := by
  induction ops generalizing h with
  | nil =>
    cases hr
    exact ⟨hb, rfl⟩
  | cons op ops ih =>
    obtain ⟨h₁, h1, h2⟩ := Exec.bind_ok.1 hr
    obtain ⟨hb₁, hl₁⟩ := run_isBuf hb h1
    rw [List.foldl_cons, ← hl₁]
    exact ih hb₁ h2

theorem make_buf_isBuf {elem_size : Nat} (hm : malloc.Sound) (hw : h.pool.Wf regions) (hr : gu_make_buf malloc h elem_size = .ok (buf, h')) :
    IsBuf h' buf ∧ gu_buf_length h' buf = 0 := by
  have hq : (⟨8, 8, 8, bufStruct⟩ : Request).Valid :=
    ⟨⟨3, by decide, rfl⟩, ⟨3, by decide, rfl⟩, Nat.dvd_refl 8, by decide, by decide⟩
  unfold gu_make_buf at hr
  obtain ⟨⟨addr, pool⟩, hmalloc, hr⟩ := Exec.bind_ok.1 hr
  obtain ⟨⟨node, pool'⟩, -, hr⟩ := Exec.bind_ok.1 hr
  cases hr
  have hserved : Served malloc h.pool ⟨8, 8, 8, bufStruct⟩ buf pool := by
    rcases malloc_prefixed_served malloc hw.toEdged hq with ⟨addr', pool₁, hr, hs⟩ | ⟨hfatal, -⟩
    · rw [hmalloc] at hr
      cases hr
      exact hs
    · rw [hmalloc] at hfatal
      cases hfatal
  obtain ⟨hlo, hhi⟩ := hw.served_bounds hm hq hserved
  have hlo : 16 ≤ buf := hlo
  have hal : 8 ∣ buf := (hw.served hm hq hserved).2.align
  exact ⟨set_length_isBuf hal (by omega) (by omega), set_length_length _ _ _⟩

end Buffers

/-- A buffer, after any operations, as a sequence. -/
def BufsDecode (malloc : Malloc) (h : SeqHeap) : Prop :=
  ∀ elem_size buf h₁ ops h₂, gu_make_buf malloc h elem_size = .ok (buf, h₁) → forEach (BufOp.run malloc buf) ops h₁ = .ok h₂ →
    gu_seq_is_buf h₂ (gu_buf_seq buf) = .ok true ∧ gu_seq_length h₂ (gu_buf_seq buf) = .ok (gu_buf_length h₂ buf) ∧
      gu_buf_length h₂ buf = ops.foldl BufOp.length 0 ∧ gu_seq_data h₂ (gu_buf_seq buf) = .ok (gu_buf_data h₂ buf)

theorem bufs_decode {malloc : Malloc} {h : SeqHeap} {regions : List Extent} (hm : malloc.Sound) (hw : h.pool.Wf regions) : BufsDecode malloc h := by
  intro elem_size buf h₁ ops h₂ hmake hrun
  obtain ⟨hb₁, h0⟩ := make_buf_isBuf hm hw hmake
  obtain ⟨hb₂, hlen⟩ := run_all_isBuf hb₁ hrun
  rw [h0] at hlen
  obtain ⟨hisbuf, hseqlen, hdata⟩ := decode_buf hb₂.aligned hb₂.pos hb₂.fits hb₂.marked
  exact ⟨hisbuf, hseqlen, hlen, hdata⟩

/-! ## All sequences -/

/-- Copies of a sequence, and frozen buffers, of this length and element size. -/
def CopiesDecode (malloc : Malloc) (h : SeqHeap) (elem_size length : Nat) : Prop :=
  (∀ seq copy h', gu_seq_length h seq = .ok length → gu_seq_copy malloc h seq elem_size = .ok (copy, h') → Decodes h' copy length) ∧
    ∀ buf seq h', gu_buf_elem_size h buf = elem_size → gu_buf_length h buf = length → gu_buf_freeze malloc h buf = .ok (seq, h') →
      Decodes h' seq length

/-- Unless there is no memory left, exactly the sequences that fit decode to what was made. -/
theorem gu_make_seq_iff {malloc : Malloc} (hm : malloc.Sound) {h : SeqHeap} (hp : h.pool.Reached malloc) (hempty : h.EmptySeq)
    {elem_size length : Nat} (hmem : gu_make_seq malloc h elem_size length ≠ Exec.fatal) :
    (SeqMade malloc h elem_size length ∧ CopiesDecode malloc h elem_size length ∧ BufsDecode malloc h) ↔ SeqFits h.pool elem_size length := by
  obtain ⟨regions, hw⟩ := hp.wf hm
  have hiff := seqMade_iff hm hw hempty hmem
  constructor
  · rintro ⟨hmade, -, -⟩
    exact hiff.1 hmade
  · intro hfits
    have hmade := hiff.2 hfits
    exact ⟨hmade, ⟨fun _ _ _ hlen hcopy => hmade.copy hlen hcopy, fun _ _ _ hsize hlen hfreeze => hmade.freeze hsize hlen hfreeze⟩,
      bufs_decode hm hw⟩

/-- A new pool, and the memory around it. -/
def newHeap : SeqHeap := ⟨⟨32, 32, [], 32, 248, 248, [⟨32, 280⟩, ⟨8, 24⟩]⟩, fun _ => 0, 16⟩

theorem newHeap_reached : newHeap.pool.Reached mallocBehind := by
  have hnew : gu_new_pool mallocBehind [⟨8, 24⟩] = .ok newHeap.pool := by decide +kernel
  exact ⟨newHeap.pool, [], [], .heap (List.pairwise_singleton _ _) hnew, fun q hq => absurd hq List.not_mem_nil, rfl⟩

theorem newHeap_empty : newHeap.EmptySeq := ⟨by decide, by decide, by decide, rfl⟩

/-- How `gu_make_seq` ends. -/
def makeSeqEnds (elem_size length : Nat) : Exec Unit := (gu_make_seq mallocBehind newHeap elem_size length).map fun _ => ()

theorem gu_make_seq_words :
    (SeqMade mallocBehind newHeap 8 2 ∧ CopiesDecode mallocBehind newHeap 8 2 ∧ BufsDecode mallocBehind newHeap) ↔ SeqFits newHeap.pool 8 2 := by
  refine gu_make_seq_iff mallocBehind_sound newHeap_reached newHeap_empty ?_
  intro hfatal
  have hends : makeSeqEnds 8 2 = .ok () := by decide +kernel
  rw [makeSeqEnds, hfatal] at hends
  cases hends

/-- Three bytes in a new pool. -/
theorem gu_make_seq_three : ¬ ∀ (malloc : Malloc) (h : SeqHeap) (elem_size length : Nat), malloc.Sound → h.pool.Reached malloc → h.EmptySeq →
    1 ≤ elem_size → gu_make_seq malloc h elem_size length ≠ Exec.fatal → SeqMade malloc h elem_size length := by
  intro hall
  have hends : makeSeqEnds 1 3 = Exec.abort := by decide +kernel
  obtain ⟨seq, h', hok, -⟩ := hall mallocBehind newHeap 1 3 mallocBehind_sound newHeap_reached newHeap_empty (by decide) (by
    intro hfatal
    rw [makeSeqEnds, hfatal] at hends
    cases hends)
  rw [makeSeqEnds, hok] at hends
  cases hends

end SeqHeap

end Libpgf
