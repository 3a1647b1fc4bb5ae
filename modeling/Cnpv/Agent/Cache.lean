import Cnpv.CLib.Str
import Cnpv.Lru.Budget

/-!
# The verdict cache (`ns_agent/cache.c`)

An LRU cache of 64 KiB in which every value counts for 1 KiB. `Table.Uniform` is the invariant of
its tables: 64 entries at most, and one spare item at most, so the link that
`lruc_pop_or_create_item` leaves is always `NULL`.

* `cacheInsert_spec`: an insertion returns, and stores the value (`Table.Stores`): the entry of the
  key is replaced, or one is added, and the 65th makes the least recently used one leave.
* `cacheGet_spec`: a lookup returns the value of the entry of the key, and uses it.

Both need a key whose length with its NUL fits `uint32_t`.
-/

namespace Cnpv

open CLib

/-- `CACHE_SIZE` -/
def CACHE_SIZE : UInt64 := 64 * 1024

/-- `AVG_SIZE` -/
def AVG_SIZE : UInt32 := 1024

/-- The global `cache`. -/
structure VerdictCache where
  lruc : Lruc
  /-- The address that the next `malloc` returns. -/
  brk : Nat := 0

/-- `malloc(strlen(s) + 1)` and `strcpy`. -/
def VerdictCache.copy (c : VerdictCache) (s : CStr) : Buffer × VerdictCache :=
  (⟨c.brk, s.buf⟩, { c with brk := c.brk + 1 })

/-- `strlen(key) + 1`, passed as a `uint32_t`. -/
def keyLength (key : CStr) : UInt32 := UInt32.ofNat (key.strlen + 1)

/-- `copy_key_val`. An error of `lruc_set` is only logged. -/
def copyKeyVal (fuel : Nat) (c : VerdictCache) (key val : CStr) : Exec VerdictCache := do
  let (newKey, c) := c.copy key
  let (newVal, c) := c.copy val
  let (_, lruc) ← lrucSet fuel c.lruc (some newKey) (keyLength key) (some newVal) AVG_SIZE
  .ok { c with lruc }

/-- `cache_init`; `seed` is what `time` returns. -/
def cacheInit (seed : UInt64) : VerdictCache where
  lruc := lrucNew CACHE_SIZE AVG_SIZE seed

/-- `cache_insert` -/
def cacheInsert (fuel : Nat) (c : VerdictCache) (key value : CStr) : Exec VerdictCache :=
  copyKeyVal fuel c key value

/-- `cache_get`; `ret` is what `*ret` is before the call, and the result has what it is after the
call. The key is in a buffer of the caller. -/
def cacheGet (fuel : Nat) (c : VerdictCache) (key : CStr) (ret : Option Buffer) :
    Exec (Option Buffer × VerdictCache) := do
  let (error, ret, lruc) ← lrucGet fuel c.lruc (some ⟨0, key.buf⟩) (keyLength key) ret
  if error = .noError then .ok (ret, { c with lruc }) else .error (.exit (-1))

/-- The string at a buffer. -/
def Buffer.str (b : Buffer) : CStr := CStr.ofBytes b.data

/-! ## Keys -/

/-- The length of the key, with its NUL, fits `uint32_t`. -/
def KeyFits (key : CStr) : Prop := key.strlen + 1 < 2 ^ 32

instance (key : CStr) : Decidable (KeyFits key) := inferInstanceAs (Decidable (_ < _))

theorem KeyFits.length {key : CStr} (h : KeyFits key) : (keyLength key).toNat = key.strlen + 1 :=
  UInt32.toNat_ofNat_of_lt' h

theorem KeyFits.length_ne {key : CStr} (h : KeyFits key) : keyLength key ≠ 0 := by
  intro e
  have := h.length
  rw [e] at this
  simp at this

/-- The cache compares the whole key. -/
theorem KeyFits.readBytes {key : CStr} (h : KeyFits key) (a : Nat) :
    readBytes (some ⟨a, key.buf⟩) (keyLength key).toNat = key.buf := by
  have hlen : (keyLength key).toNat = key.buf.length := by rw [h.length]; simp [CStr.buf, CStr.strlen]
  rw [Cnpv.readBytes, hlen]
  exact List.takeD_eq_take _ (Nat.le_refl _) |>.trans (List.take_length)

/-! ## Tables of the verdict cache -/

namespace Table

variable {t t₁ t₂ : Table} {key value : Option Buffer} {keyLength required : UInt32}

/-- The tables of the verdict cache. -/
structure Uniform (t : Table) : Prop where
  total : t.totalMemory = CACHE_SIZE
  value_eq : ∀ e ∈ t.entries, e.valueLength = AVG_SIZE
  balanced : t.Balanced
  spare_le : t.spare ≤ 1

/-- The table after `lruc_set`: the entry with the key is replaced, or one is inserted; when there
are 64 others, one with the least access count leaves. -/
inductive Stores (t : Table) (key : Option Buffer) (keyLength : UInt32) (value : Option Buffer) :
    Table → Prop
  | replaced {e : LrucItem} : e ∈ t.entries → itemKey e = readBytes key keyLength.toNat →
      Stores t key keyLength value (t.replace e value AVG_SIZE)
  | inserted : (∀ e ∈ t.entries, itemKey e ≠ readBytes key keyLength.toNat) →
      t.entries.card < 64 →
      Stores t key keyLength value ((t.insert key keyLength value AVG_SIZE).take AVG_SIZE)
  | evicted {e : LrucItem} : (∀ e ∈ t.entries, itemKey e ≠ readBytes key keyLength.toNat) →
      t.entries.card = 64 → e ∈ (t.insert key keyLength value AVG_SIZE).entries →
      (∀ e' ∈ (t.insert key keyLength value AVG_SIZE).entries, e.accessCount ≤ e'.accessCount) →
      Stores t key keyLength value (((t.insert key keyLength value AVG_SIZE).evict e).take AVG_SIZE)

theorem Stores.spare_le {t' : Table} (h : t.Stores key keyLength value t') (hs : t.spare ≤ 1) :
    t'.spare ≤ 1 := by
  cases h with
  | replaced _ _ => exact hs
  | inserted _ _ => exact Nat.le_trans (Nat.sub_le _ _) hs
  | evicted _ _ _ _ => exact Nat.succ_le_succ (by simp [insert]; omega)

/-- With a new key, every entry is an old one or the stored one. -/
theorem Stores.mem {t' : Table} (h : t.Stores key keyLength value t')
    (hnone : ∀ e ∈ t.entries, itemKey e ≠ readBytes key keyLength.toNat) {e : LrucItem}
    (he : e ∈ t'.entries) :
    e ∈ t.entries ∨ itemKey e = readBytes key keyLength.toNat ∧ e.value = value := by
  have hinsert : ∀ e ∈ (t.insert key keyLength value AVG_SIZE).entries,
      e ∈ t.entries ∨ itemKey e = readBytes key keyLength.toNat ∧ e.value = value := by
    intro e he
    rcases Multiset.mem_cons.mp he with rfl | he
    · exact .inr ⟨rfl, rfl⟩
    · exact .inl he
  cases h with
  | replaced he' hk => exact absurd hk (hnone _ he')
  | inserted _ _ => exact hinsert e he
  | evicted _ _ _ _ => exact hinsert e (Multiset.mem_of_mem_erase he)

/-- Every entry is an old one or has the stored value. -/
theorem Stores.mem_or {t' : Table} (h : t.Stores key keyLength value t') {e : LrucItem}
    (he : e ∈ t'.entries) : e ∈ t.entries ∨ e.value = value := by
  by_cases hnone : ∀ e ∈ t.entries, itemKey e ≠ readBytes key keyLength.toNat
  · exact (h.mem hnone he).imp_right And.right
  · cases h with
    | replaced _ _ =>
      rcases Multiset.mem_cons.mp he with rfl | he
      · exact .inr rfl
      · exact .inl (Multiset.mem_of_mem_erase he)
    | inserted hnone' _ => exact absurd hnone' hnone
    | evicted hnone' _ _ _ => exact absurd hnone' hnone

theorem Uniform.free (h : t.Uniform) : t.freeMemory.toNat + 1024 * t.entries.card = 65536 := by
  have hused : t.used = 1024 * t.entries.card := by
    have hc : t.entries.map (fun e => e.valueLength.toNat) = t.entries.map fun _ => 1024 :=
      Multiset.map_congr rfl fun e he => by rw [h.value_eq e he]; rfl
    rw [used, hc, Multiset.map_const', Multiset.sum_replicate, nsmul_eq_mul, Nat.mul_comm]
    rfl
  have hb := h.balanced.bytes_eq
  rw [h.total, bytes, hused] at hb
  exact hb

theorem Uniform.card_le (h : t.Uniform) : t.entries.card ≤ 64 := by
  have := h.free
  omega

theorem uniform_empty : (⟨0, 0, 0, CACHE_SIZE, CACHE_SIZE, []⟩ : Table).Uniform where
  total := rfl
  value_eq := by simp
  balanced := ⟨by simp [bytes, used], by simp⟩
  spare_le := Nat.zero_le _

theorem Uniform.use (h : t.Uniform) {e : LrucItem} (he : e ∈ t.entries) : (t.use e).Uniform where
  total := h.total
  value_eq e' he' := by
    rcases Multiset.mem_cons.mp he' with rfl | he'
    · exact h.value_eq e he
    · exact h.value_eq e' (Multiset.mem_of_mem_erase he')
  balanced := h.balanced.use he
  spare_le := h.spare_le

theorem Uniform.linked (h : t.Uniform) (hl : t.Linked key keyLength value AVG_SIZE t₁ required) :
    (∀ e ∈ t₁.entries, e.valueLength = AVG_SIZE) ∧ t₁.bytes = t.bytes + required.toNat := by
  refine ⟨?_, hl.bytes fun e he _ => by rw [h.value_eq e he]; exact UInt32.le_refl _⟩
  cases hl with
  | inserted _ =>
    intro e he
    rcases Multiset.mem_cons.mp he with rfl | he
    · rfl
    · exact h.value_eq e he
  | replaced _ _ =>
    intro e he
    rcases Multiset.mem_cons.mp he with rfl | he
    · rfl
    · exact h.value_eq e (Multiset.mem_of_mem_erase he)

/-- What the eviction loop does: at most one entry leaves. -/
theorem Uniform.stores (h : t.Uniform) (hl : t.Linked key keyLength value AVG_SIZE t₁ required)
    (hev : Evicts required.toUInt64 t₁ t₂) : t.Stores key keyLength value (t₂.take required) := by
  have hvalue := (h.linked hl).1
  have hfree := h.free
  cases hl with
  | @replaced e he hk =>
    rw [h.value_eq e he, UInt32.sub_self] at hev ⊢
    cases hev with
    | step hlt _ _ _ => exact absurd hlt UInt64.not_lt_zero
    | done _ =>
      have htake : (t.replace e value AVG_SIZE).take 0 = t.replace e value AVG_SIZE := by
        simp [take]
      rw [htake]
      exact .replaced he hk
  | inserted hnone =>
    have hmem : (t.insert key keyLength value AVG_SIZE).freeMemory = t.freeMemory := rfl
    cases hev with
    | done hle =>
      refine .inserted hnone ?_
      have : 1024 ≤ t.freeMemory.toNat := UInt64.le_iff_toNat_le.mp hle
      omega
    | @step _ _ e hlt he hmin hev =>
      have hlt : t.freeMemory.toNat < 1024 := UInt64.lt_iff_toNat_lt.mp hlt
      have hcard : t.entries.card = 64 := by omega
      cases hev with
      | done _ => exact .evicted hnone hcard he hmin
      | step hlt' _ _ _ =>
        -- The first eviction freed 1024 bytes.
        exfalso
        have hzero : t.freeMemory = 0 := UInt64.toNat_inj.mp (by simp; omega)
        have hroom : ((t.insert key keyLength value AVG_SIZE).evict e).freeMemory = 0 + 1024 := by
          rw [evict, hmem, hvalue e he, hzero]
          rfl
        rw [hroom] at hlt'
        exact absurd hlt' (by decide)

theorem Uniform.set (h : t.Uniform) (hl : t.Linked key keyLength value AVG_SIZE t₁ required)
    (hev : Evicts required.toUInt64 t₁ t₂) : (t₂.take required).Uniform where
  total := hev.totalMemory.trans (hl.totalMemory.trans h.total)
  value_eq e he := (h.linked hl).1 e (Multiset.subset_of_le hev.entries_le he)
  balanced := h.balanced.set (by decide) hl
    (fun e he _ => by rw [h.value_eq e he]; exact UInt32.le_refl _) hev
  spare_le := (h.stores hl hev).spare_le h.spare_le

end Table

/-! ## The operations -/

/-- The cache `c` holds the entries of the table `t`. -/
structure VerdictCache.Holds (c : VerdictCache) (t : Table) : Prop where
  refines : c.lruc.Refines t
  uniform : t.Uniform

theorem holds_cacheInit (seed : UInt64) :
    (cacheInit seed).Holds ⟨0, 0, 0, CACHE_SIZE, CACHE_SIZE, []⟩ := by
  have hsize : (CACHE_SIZE / AVG_SIZE.toUInt64).toUInt32 ≠ 0 := by decide
  exact ⟨Lruc.refines_lrucNew hsize, Table.uniform_empty⟩

variable {fuel : Nat} {c : VerdictCache} {t : Table} {key value : CStr}

/-- **`cache_insert`** -/
theorem cacheInsert_spec (h : c.Holds t) (hf : 65 < fuel) (hk : KeyFits key) (value : CStr) :
    ∃ c', cacheInsert fuel c key value = .ok c' ∧ ∃ t', c'.Holds t' ∧
      t.Stores (some ⟨c.brk, key.buf⟩) (keyLength key) (some ⟨c.brk + 1, value.buf⟩) t' := by
  have ha : c.lruc.SetAccepted (some ⟨c.brk, key.buf⟩) (keyLength key)
      (some ⟨c.brk + 1, value.buf⟩) AVG_SIZE := by
    refine ⟨⟨rfl, hk.length_ne⟩, ⟨rfl, by decide⟩, ?_⟩
    obtain ⟨⟨_, _, -, rfl⟩, hu⟩ := h
    rw [show c.lruc.totalMemory = CACHE_SIZE from hu.total]
    decide
  have hcard := h.uniform.card_le
  obtain ⟨r, hr⟩ := Lruc.lrucSet_returns h.refines ha (fun _ => h.uniform.spare_le)
    (fun t₁ required hl => Table.room_of_bytes (by rw [(h.uniform.linked hl).2]; omega))
    (show t.entries.card + 1 < fuel by omega)
  obtain ⟨-, t₁, required, t₂, hl, hev, h'⟩ :=
    Lruc.lrucSet_refines h.refines ha (fun _ => h.uniform.spare_le) hr
  exact ⟨_, Exec.bind_ok.mpr ⟨r, hr, rfl⟩, _, ⟨h', h.uniform.set hl hev⟩, h.uniform.stores hl hev⟩

/-- **`cache_get`** -/
theorem cacheGet_spec (h : c.Holds t) (hf : 64 < fuel) (hk : KeyFits key) (ret : Option Buffer) :
    ∃ ret' c', cacheGet fuel c key ret = .ok (ret', c') ∧
      ((∃ e ∈ t.entries, itemKey e = key.buf ∧ ret' = e.value ∧ c'.Holds (t.use e)) ∨
      ((∀ e ∈ t.entries, itemKey e ≠ key.buf) ∧ ret' = none ∧ c' = c)) := by
  have hcard : t.entries.card < fuel := Nat.lt_of_le_of_lt h.uniform.card_le hf
  obtain ⟨r, hr⟩ := Lruc.lrucGet_returns h.refines hcard (some ⟨0, key.buf⟩) ret (keyLength key)
  have hspec := Lruc.lrucGet_refines h.refines hr
  rw [hk.readBytes] at hspec
  rcases hspec with ⟨hno, -⟩ | ⟨-, ⟨e, he, hke, c', rfl, h'⟩ | ⟨hnone, rfl⟩⟩
  · simp [hk.length_ne] at hno
  · exact ⟨_, _, Exec.bind_ok.mpr ⟨_, hr, rfl⟩, .inl ⟨e, he, hke, rfl, h', h.uniform.use he⟩⟩
  · exact ⟨_, _, Exec.bind_ok.mpr ⟨_, hr, rfl⟩, .inr ⟨hnone, rfl, rfl⟩⟩

end Cnpv
