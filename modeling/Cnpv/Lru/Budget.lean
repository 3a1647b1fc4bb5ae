import Cnpv.Lru.Invariant

/-!
# The memory budget of `lruc_set`

Free memory and the values of the chained items make up the total memory (`Lruc.Budget`), and
`lruc_set` leaves its eviction loop, over runs in which no value is replaced by a shorter one
(`budget_run`).

The bytes required are computed in `uint32_t`. A shorter value makes them wrap to almost `2 ^ 32`:
if the total memory is smaller than that, every item is evicted and the loop does not end
(`lrucSet_shrinking`).

The proofs count bytes in a table (`Table.bytes`): an eviction moves bytes from the values to the
free memory, so the bytes required are there when the last entry leaves (`Table.room_of_bytes`).
-/

namespace Cnpv

open CLib

namespace Table

variable {t t' t₁ : Table} {e : LrucItem} {key value : Option Buffer}
  {keyLength valueLength required : UInt32}

/-- The bytes of the values. -/
def used (t : Table) : Nat := (t.entries.map fun e => e.valueLength.toNat).sum

/-- Free memory and values, in bytes. -/
def bytes (t : Table) : Nat := t.freeMemory.toNat + t.used

theorem used_of_mem (he : e ∈ t.entries) :
    e.valueLength.toNat + ((t.entries.erase e).map fun e => e.valueLength.toNat).sum = t.used :=
  Multiset.sum_map_erase (f := fun e : LrucItem => e.valueLength.toNat) he

theorem bytes_use (he : e ∈ t.entries) : (t.use e).bytes = t.bytes := by
  simp only [bytes, ← used_of_mem he]
  simp [used, use]

theorem bytes_insert : (t.insert key keyLength value valueLength).bytes =
    t.bytes + valueLength.toNat := by
  simp only [bytes, used, insert, Multiset.map_cons, Multiset.sum_cons]
  omega

theorem bytes_replace (he : e ∈ t.entries) (value : Option Buffer) (valueLength : UInt32) :
    (t.replace e value valueLength).bytes + e.valueLength.toNat = t.bytes + valueLength.toNat := by
  have h := used_of_mem he
  simp only [bytes, used, replace, Multiset.map_cons, Multiset.sum_cons] at h ⊢
  omega

/-- An eviction frees the bytes of its entry. -/
theorem bytes_evict (he : e ∈ t.entries)
    (hlt : t.freeMemory.toNat + e.valueLength.toNat < 2 ^ 64) : (t.evict e).bytes = t.bytes := by
  have h := used_of_mem he
  simp only [bytes, used, evict] at h ⊢
  rw [UInt64.toNat_add, UInt32.toNat_toUInt64, Nat.mod_eq_of_lt hlt]
  omega

/-- While the loop runs, the free memory is less than a `uint32_t`: it does not overflow. -/
theorem bytes_evict_of_lt (he : e ∈ t.entries) (hlt : t.freeMemory < required.toUInt64) :
    (t.evict e).bytes = t.bytes := by
  refine bytes_evict he ?_
  have hf : t.freeMemory.toNat < required.toNat := by
    simpa using UInt64.lt_iff_toNat_lt.mp hlt
  have := required.toNat_lt
  have := e.valueLength.toNat_lt
  omega

theorem Evicts.bytes (h : Evicts required.toUInt64 t t') :
    t'.bytes = t.bytes ∧ required.toNat ≤ t'.freeMemory.toNat := by
  induction h with
  | done hle => exact ⟨rfl, by simpa using UInt64.le_iff_toNat_le.mp hle⟩
  | step hlt he _ _ ih => exact ⟨ih.1.trans (bytes_evict_of_lt he hlt), ih.2⟩

theorem bytes_take (hle : required.toNat ≤ t.freeMemory.toNat) :
    (t.take required).bytes + required.toNat = t.bytes := by
  have hle' : required.toUInt64 ≤ t.freeMemory := UInt64.le_iff_toNat_le.mpr (by simpa using hle)
  simp only [Table.bytes, used, take, UInt64.toNat_sub_of_le _ _ hle', UInt32.toNat_toUInt64]
  omega

/-- **The loop measure**: with `required` bytes in the table, evictions reach `required` bytes of
free memory. The induction is on the number of entries. -/
theorem room_of_bytes (h : required.toNat ≤ t.bytes) : t.Room required.toUInt64 := by
  generalize hn : t.entries.card = n
  induction n generalizing t with
  | zero =>
    have h0 : t.entries = 0 := Multiset.card_eq_zero.mp hn
    refine .done (UInt64.le_iff_toNat_le.mpr ?_)
    simpa [Table.bytes, used, h0] using h
  | succ n ih =>
    by_cases hle : required.toUInt64 ≤ t.freeMemory
    · exact .done hle
    · refine .step (fun h0 => by simp [h0] at hn) fun e he => ?_
      have hlt := UInt64.not_le.mp hle
      refine ih (by rw [bytes_evict_of_lt he hlt]; exact h) ?_
      have := Multiset.card_erase_add_one he
      simp only [evict]
      omega

/-- The bytes required come on top, unless a value gets shorter. -/
theorem Linked.bytes (h : t.Linked key keyLength value valueLength t₁ required)
    (hgrow : ∀ e ∈ t.entries, itemKey e = readBytes key keyLength.toNat →
      e.valueLength ≤ valueLength) : t₁.bytes = t.bytes + required.toNat := by
  cases h with
  | inserted _ => exact bytes_insert
  | @replaced e he hk =>
    have hle := hgrow e he hk
    have hb := bytes_replace he value valueLength
    have hle' := UInt32.le_iff_toNat_le.mp hle
    rw [UInt32.toNat_sub_of_le _ _ hle]
    omega

/-! ## Tables that keep the budget -/

/-- Free memory and values make up the total memory, and no value is empty. -/
structure Balanced (t : Table) : Prop where
  bytes_eq : t.bytes = t.totalMemory.toNat
  value_ne : ∀ e ∈ t.entries, e.valueLength ≠ 0

theorem Linked.value_ne (h : t.Linked key keyLength value valueLength t₁ required)
    (ht : t.Balanced) (hv : valueLength ≠ 0) : ∀ e ∈ t₁.entries, e.valueLength ≠ 0 := by
  cases h with
  | inserted _ =>
    intro e he
    rcases Multiset.mem_cons.mp he with rfl | he
    · exact hv
    · exact ht.value_ne e he
  | replaced _ _ =>
    intro e he
    rcases Multiset.mem_cons.mp he with rfl | he
    · exact hv
    · exact ht.value_ne e (Multiset.mem_of_mem_erase he)

theorem Evicts.entries_le {r : UInt64} (h : Evicts r t t') : t'.entries ≤ t.entries := by
  induction h with
  | done _ => exact le_refl _
  | step _ _ _ _ ih => exact ih.trans (Multiset.erase_le _ _)

theorem Evicts.totalMemory {r : UInt64} (h : Evicts r t t') : t'.totalMemory = t.totalMemory := by
  induction h with
  | done _ => rfl
  | step _ _ _ _ ih => exact ih

theorem Linked.totalMemory (h : t.Linked key keyLength value valueLength t₁ required) :
    t₁.totalMemory = t.totalMemory := by
  cases h <;> rfl

/-- A table has at most as many entries as bytes. -/
theorem Balanced.card_le (h : t.Balanced) : t.entries.card ≤ t.totalMemory.toNat := by
  have hle : t.entries.card ≤ t.used := by
    have := Multiset.card_nsmul_le_sum (s := t.entries.map fun e => e.valueLength.toNat) (a := 1)
    simp only [Multiset.mem_map, Multiset.card_map, nsmul_eq_mul, mul_one] at this
    refine this ?_
    rintro n ⟨e, he, rfl⟩
    have hne := h.value_ne e he
    exact Nat.one_le_iff_ne_zero.mpr fun h0 => hne (UInt32.toNat_inj.mp h0)
  have := h.bytes_eq
  simp only [Table.bytes] at this
  omega

theorem Balanced.use (h : t.Balanced) (he : e ∈ t.entries) : (t.use e).Balanced where
  bytes_eq := (bytes_use he).trans h.bytes_eq
  value_ne e' he' := by
    rcases Multiset.mem_cons.mp he' with rfl | he'
    · exact h.value_ne e he
    · exact h.value_ne e' (Multiset.mem_of_mem_erase he')

theorem Balanced.evict (h : t.Balanced) (he : e ∈ t.entries) : (t.evict e).Balanced where
  bytes_eq := by
    refine (bytes_evict he ?_).trans h.bytes_eq
    have h₁ := used_of_mem he
    have h₂ := h.bytes_eq
    have := t.totalMemory.toNat_lt
    simp only [Table.bytes] at h₂
    omega
  value_ne e' he' := h.value_ne e' (Multiset.mem_of_mem_erase he')

/-- **One `lruc_set`** that replaces no value by a shorter one. -/
theorem Balanced.set (h : t.Balanced) (hv : valueLength ≠ 0)
    (hl : t.Linked key keyLength value valueLength t₁ required)
    (hgrow : ∀ e ∈ t.entries, itemKey e = readBytes key keyLength.toNat →
      e.valueLength ≤ valueLength) (hev : Evicts required.toUInt64 t₁ t') :
    (t'.take required).Balanced where
  bytes_eq := by
    obtain ⟨hb, hle⟩ := hev.bytes
    have h₁ := bytes_take hle
    have h₂ := hl.bytes hgrow
    have h₃ := h.bytes_eq
    have h₄ : (t'.take required).totalMemory = t.totalMemory := hev.totalMemory.trans hl.totalMemory
    rw [h₄]
    omega
  value_ne e he := hl.value_ne h hv e (Multiset.subset_of_le hev.entries_le he)

end Table

namespace Lruc

variable {c c' : Lruc} {t : Table} {chains : Nat → List Addr} {free : List Addr} {fuel : Nat}

/-- Free memory and the value lengths of the chained items add up to the total memory. -/
def Budget (c : Lruc) : Prop :=
  ∃ chains, (∀ i, Chain c.next (c.bucket i) (chains i)) ∧
    c.freeMemory.toNat + ((chained c.hashTableSize.toNat chains).map fun a =>
      (c.heap a).valueLength.toNat).sum = c.totalMemory.toNat

theorem Refines.budget (h : c.Refines t) (hb : t.Balanced) : c.Budget := by
  obtain ⟨chains, free, h, rfl⟩ := h
  refine ⟨chains, h.chain, ?_⟩
  have := hb.bytes_eq
  simpa [Table.bytes, Table.used, table, entries, Multiset.map_map, Function.comp_def,
    LrucItem.entry] using this

/-- **A shorter value**: the bytes required wrap, and no fuel is enough for the eviction loop when
they are more than the total memory. -/
theorem lrucSet_shrinking {key value : Option Buffer} {keyLength valueLength : UInt32}
    {e : LrucItem} (h : c.Refines t) (hb : t.Balanced)
    (ha : c.SetAccepted key keyLength value valueLength) (he : e ∈ t.entries)
    (hk : itemKey e = readBytes key keyLength.toNat) (hlt : valueLength < e.valueLength)
    (hmem : t.totalMemory.toNat + e.valueLength.toNat < 2 ^ 32 + valueLength.toNat)
    (r : LrucError × Lruc) : lrucSet fuel c key keyLength value valueLength ≠ .ok r := by
  intro hr
  obtain ⟨-, t₁, required, t₂, hl, hev, -⟩ :=
    lrucSet_refines h ha (fun hnone => absurd hk (hnone e he)) hr
  cases hl with
  | inserted hnone => exact hnone e he hk
  | @replaced e' he' hk' =>
    obtain rfl := h.key_inj he he' (hk.trans hk'.symm)
    obtain ⟨hbytes, hle⟩ := hev.bytes
    have h₁ := Table.bytes_replace he value valueLength
    have h₂ := hb.bytes_eq
    have h₃ := UInt32.lt_iff_toNat_lt.mp hlt
    have h₄ := e.valueLength.toNat_lt
    have hfree : t₂.freeMemory.toNat ≤ t₂.bytes := Nat.le_add_right _ _
    rw [UInt32.toNat_sub, Nat.mod_eq_of_lt (by omega)] at hle
    omega

end Lruc

/-! ## Runs -/

namespace LrucCall

variable {c : Lruc} {t : Table} {fuel : Nat}

/-- The call does not set a key again with a shorter value. -/
def NoShrink (c : Lruc) : LrucCall → Prop
  | .set key keyLength value valueLength => c.SetAccepted key keyLength value valueLength →
    ∀ a, c.Chained a → lrucCmpKeys (c.heap a) key keyLength = 0 →
      (c.heap a).valueLength ≤ valueLength
  | _ => True

theorem NoShrink.le {key value : Option Buffer} {keyLength valueLength : UInt32}
    (hn : NoShrink c (.set key keyLength value valueLength))
    (ha : c.SetAccepted key keyLength value valueLength) (h : c.Refines t) :
    ∀ e ∈ t.entries, itemKey e = readBytes key keyLength.toNat → e.valueLength ≤ valueLength := by
  obtain ⟨chains, free, h, rfl⟩ := h
  intro e he hk
  obtain ⟨i, a, hi, rfl⟩ := h.mem_entries.mp he
  exact hn ha a (h.chained_iff.mpr ⟨i, hi⟩) (lrucCmpKeys_eq_zero.mpr hk)

/-- One call returns and keeps the budget. -/
theorem run_balanced (h : c.Refines t) (hb : t.Balanced) (hf : t.totalMemory.toNat + 1 < fuel)
    {call : LrucCall} (hs : call.SpareOk c) (hn : call.NoShrink c) :
    ∃ c', call.run fuel c = .ok c' ∧
      ∃ t', c'.Refines t' ∧ t'.Balanced ∧ t'.totalMemory = t.totalMemory := by
  have hcard : t.entries.card + 1 < fuel := Nat.lt_of_le_of_lt (Nat.succ_le_succ hb.card_le) hf
  have hcard' : t.entries.card < fuel := Nat.lt_of_succ_lt hcard
  cases call with
  | set key keyLength value valueLength =>
    by_cases ha : c.SetAccepted key keyLength value valueLength
    · have hgrow := hn.le ha h
      obtain ⟨r, hr⟩ := Lruc.lrucSet_returns h ha (hs.spare_le ha h)
        (fun t₁ required hl => Table.room_of_bytes (by rw [hl.bytes hgrow]; omega)) hcard
      obtain ⟨-, t₁, required, t₂, hl, hev, h'⟩ :=
        Lruc.lrucSet_refines h ha (hs.spare_le ha h) hr
      exact ⟨r.2, Exec.map_ok.mpr ⟨r, hr, rfl⟩, _, h', hb.set ha.2.1.2 hl hgrow hev,
        hev.totalMemory.trans hl.totalMemory⟩
    · obtain ⟨e, -, he⟩ := Lruc.lrucSet_rejected ha
      exact ⟨c, Exec.map_ok.mpr ⟨_, he fuel, rfl⟩, t, h, hb, rfl⟩
  | get key keyLength =>
    obtain ⟨r, hr⟩ := Lruc.lrucGet_returns h hcard' key none keyLength
    refine ⟨r.2.2, Exec.map_ok.mpr ⟨r, hr, rfl⟩, ?_⟩
    rcases Lruc.lrucGet_refines h hr with ⟨-, rfl⟩ | ⟨-, ⟨e, he, -, c', rfl, h'⟩ | ⟨-, rfl⟩⟩
    · exact ⟨t, h, hb, rfl⟩
    · exact ⟨_, h', hb.use he, rfl⟩
    · exact ⟨t, h, hb, rfl⟩
  | delete key keyLength =>
    obtain ⟨r, hr⟩ := Lruc.lrucDelete_returns h hcard' key keyLength
    refine ⟨r.2, Exec.map_ok.mpr ⟨r, hr, rfl⟩, ?_⟩
    rcases Lruc.lrucDelete_refines h hr with he | ⟨e, he, -, h'⟩
    · exact ⟨t, he ▸ h, hb, rfl⟩
    · exact ⟨_, h', hb.evict he, rfl⟩

end LrucCall

/-- **The memory budget and termination over runs**: with fuel above the cache size every call
returns and keeps the budget, if no key is set again with a shorter value and every new key is
inserted with at most one item in the free list. -/
theorem budget_run {size seed : UInt64} {len : UInt32} {fuel : Nat} {calls : List LrucCall}
    (hnew : (lrucNew size len seed).hashTableSize ≠ 0) (hfuel : size.toNat + 1 < fuel)
    (hcalls : Along (LrucCall.run fuel) (fun c call => call.SpareOk c ∧ call.NoShrink c)
      (lrucNew size len seed) calls) :
    ∃ c, runFrom (LrucCall.run fuel) (lrucNew size len seed) calls = .ok c ∧ c.Budget := by
  obtain ⟨c, hc, t, h, hb, -⟩ := runFrom_total
    (fun c => ∃ t, c.Refines t ∧ t.Balanced ∧ t.totalMemory = size)
    (fun c call ⟨t, h, hb, ht⟩ ⟨hs, hn⟩ => by
      have hfuel' : t.totalMemory.toNat + 1 < fuel := by rw [ht]; exact hfuel
      obtain ⟨c', hc, t', h', hb', ht'⟩ := LrucCall.run_balanced h hb hfuel' hs hn
      exact ⟨c', hc, t', h', hb', ht'.trans ht⟩)
    ⟨_, Lruc.refines_lrucNew hnew, ⟨by simp [Table.bytes, Table.used], by simp⟩, rfl⟩ hcalls
  exact ⟨c, hc, h.budget hb⟩

/-- A run in which the value of a key gets longer. -/
theorem budget_run_longer :
    ∃ c, runFrom (LrucCall.run 1026) (lrucNew 1024 512 0)
      [.set (some ⟨1, [97, 0]⟩) 2 (some ⟨2, [65, 0]⟩) 10,
        .set (some ⟨3, [97, 0]⟩) 2 (some ⟨4, [65, 0]⟩) 20] = .ok c ∧ c.Budget := by
  obtain ⟨c₁, h₁, hfound⟩ := Exec.of_returned
    (x := LrucCall.run 1026 (lrucNew 1024 512 0)
      (.set (some ⟨1, [97, 0]⟩) 2 (some ⟨2, [65, 0]⟩) 10))
    (p := fun c => c.freeItems = none ∧ c.brk = 1 ∧ (c.heap 0).valueLength = 10) (by decide)
  obtain ⟨hfree, hbrk, hlen⟩ := of_decide_eq_true hfound
  have h₀ : (lrucNew 1024 512 0).Rep (fun _ => []) [] := Lruc.rep_lrucNew (by decide)
  have hspare : LrucCall.SpareOk (lrucNew 1024 512 0)
      (.set (some ⟨1, [97, 0]⟩) 2 (some ⟨2, [65, 0]⟩) 10) := fun _ a ha => by cases ha
  refine budget_run (by decide) (by decide) ⟨⟨hspare, fun _ a ha => ?_⟩, fun s hs => ?_⟩
  · obtain ⟨i, hi⟩ := h₀.chained_iff.mp ha
    cases hi
  · cases hs.symm.trans h₁
    obtain ⟨_, chains, free, h, -⟩ := LrucCall.run_refines h₀.refines hspare h₁
    refine ⟨⟨fun _ a ha => ?_, fun _ a ha _ => ?_⟩, fun _ _ => trivial⟩
    · rw [hfree] at ha
      cases ha
    · -- The item is the only one that was allocated.
      obtain ⟨i, hi⟩ := h.chained_iff.mp ha
      obtain rfl : a = 0 := by simpa [hbrk] using h.alloc i a hi
      rw [hlen]
      decide

/-- The failing run: the second value is shorter, and `lruc_set` does not return. -/
theorem budget_fails :
    ¬ ∃ fuel c, runFrom (LrucCall.run fuel) (lrucNew 65536 1024 0)
      [.set (some ⟨1, [97, 0]⟩) 2 (some ⟨2, [65, 0]⟩) 1024,
        .set (some ⟨3, [97, 0]⟩) 2 (some ⟨4, [65, 0]⟩) 512] = .ok c := by
  rintro ⟨fuel, c, hrun⟩
  obtain ⟨c₁, hr, hrun⟩ := Exec.bind_ok.mp (runFrom_cons _ _ _ ▸ hrun)
  obtain ⟨c₂, hr₂, -⟩ := Exec.bind_ok.mp (runFrom_cons _ _ _ ▸ hrun)
  obtain ⟨r, hset, rfl⟩ := Exec.map_ok.mp hr
  obtain ⟨r₂, hset₂, -⟩ := Exec.map_ok.mp hr₂
  have h₀ : (lrucNew 65536 1024 0).Refines ⟨0, 0, 0, 65536, 65536, []⟩ :=
    Lruc.refines_lrucNew (by decide)
  obtain ⟨-, t₁, required, t₂, hl, hev, h⟩ :=
    Lruc.lrucSet_refines h₀ (by decide) (fun _ => Nat.zero_le _) hset
  cases hl with
  | replaced he _ => cases he
  | inserted _ =>
    cases hev with
    | step hlt _ _ _ => exact absurd hlt (by decide)
    | done _ =>
      have htotal : r.2.totalMemory = 65536 := by
        obtain ⟨_, _, -, ht⟩ := h
        exact congrArg Table.totalMemory ht
      have hb : (((⟨0, 0, 0, 65536, 65536, []⟩ : Table).insert (some ⟨1, [97, 0]⟩) 2
          (some ⟨2, [65, 0]⟩) 1024).take 1024).Balanced := ⟨by decide, by decide⟩
      refine Lruc.lrucSet_shrinking (e := ⟨some ⟨2, [65, 0]⟩, some ⟨1, [97, 0]⟩, 1024, 2, 1, none⟩)
        h hb ?_ ?_ ?_ ?_ ?_ r₂ hset₂
      · exact ⟨by decide, by decide, by rw [htotal]; decide⟩
      all_goals decide

end Cnpv
