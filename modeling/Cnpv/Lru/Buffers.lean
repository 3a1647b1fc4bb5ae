import Cnpv.Lru.Table
import Mathlib.Data.Multiset.Bind

/-!
# Who owns a buffer

The cache owns the key and the value of each of its items, until it frees them. What it owns and
what it has freed (`Table.handed`) only grows, by the buffers that an `lruc_set` stores: an eviction
moves two buffers to the ledger, a replaced value goes there too. So if the buffers that are stored
are new, no buffer of an item is in the ledger (`Table.Owned`).
-/

namespace Cnpv

open CLib

/-- The addresses of the buffers of an item. -/
def LrucItem.buffers (it : LrucItem) : Multiset Nat := ↑(freeBuffer it.value ++ freeBuffer it.key)

namespace Table

variable {t t' : Table} {e : LrucItem} {key value : Option Buffer} {keyLength valueLength : UInt32}
  {brk : Nat}

/-- The addresses of the buffers of all entries. -/
def buffers (t : Table) : Multiset Nat := t.entries.bind LrucItem.buffers

/-- The buffers that the entries own, and those in the ledger. -/
def handed (t : Table) : Multiset Nat := t.buffers + ↑t.freed

theorem buffers_of_mem (he : e ∈ t.entries) :
    t.buffers = e.buffers + (t.entries.erase e).bind LrucItem.buffers := by
  obtain ⟨s, hs⟩ := Multiset.exists_cons_of_mem he
  rw [buffers, hs, Multiset.erase_cons_head, Multiset.cons_bind]

/-- The value of an entry is one of its buffers. -/
theorem mem_buffers {p : Buffer} (he : e ∈ t.entries) (hp : e.value = some p) : p.addr ∈ t.buffers := by
  refine Multiset.mem_bind.mpr ⟨e, he, ?_⟩
  simp [LrucItem.buffers, hp, freeBuffer]

/-! ## What each operation does to the buffers -/

theorem handed_use (he : e ∈ t.entries) : (t.use e).handed = t.handed := by
  rw [handed, handed, buffers_of_mem he]
  exact congrArg (· + _) (Multiset.cons_bind _ _ _)

theorem handed_evict (he : e ∈ t.entries) : (t.evict e).handed = t.handed := by
  have hfreed : (↑(t.evict e).freed : Multiset Nat) = ↑t.freed + e.buffers := by
    rw [evict, LrucItem.buffers, List.append_assoc, ← Multiset.coe_add]
  rw [handed, handed, buffers_of_mem he, hfreed]
  show (t.entries.erase e).bind LrucItem.buffers + (↑t.freed + e.buffers) = _
  ac_rfl

theorem handed_replace (he : e ∈ t.entries) :
    (t.replace e value valueLength).handed = t.handed + ↑(freeBuffer value) := by
  have hfreed : (↑(t.replace e value valueLength).freed : Multiset Nat) =
      ↑t.freed + ↑(freeBuffer e.value) := by
    rw [replace, ← Multiset.coe_add]
  have hbuffers : (t.replace e value valueLength).buffers =
      ↑(freeBuffer value) + ↑(freeBuffer e.key) + (t.entries.erase e).bind LrucItem.buffers := by
    rw [buffers, replace, Multiset.cons_bind, LrucItem.buffers, ← Multiset.coe_add]
  rw [handed, handed, buffers_of_mem he, hfreed, hbuffers, LrucItem.buffers, ← Multiset.coe_add]
  ac_rfl

theorem handed_insert : (t.insert key keyLength value valueLength).handed =
    t.handed + ↑(freeBuffer value ++ freeBuffer key) := by
  have hbuffers : (t.insert key keyLength value valueLength).buffers =
      ↑(freeBuffer value ++ freeBuffer key) + t.buffers := Multiset.cons_bind _ _ _
  rw [handed, handed, hbuffers]
  show ↑(freeBuffer value ++ freeBuffer key) + t.buffers + ↑t.freed = _
  ac_rfl

/-! ## New buffers -/

/-- The buffers of the entries and those in the ledger are distinct, and below `brk`: the address
that the next `malloc` returns. -/
structure Owned (t : Table) (brk : Nat) : Prop where
  nodup : t.handed.Nodup
  lt : ∀ p ∈ t.handed, p < brk

/-- No value of an entry is freed. -/
theorem Owned.notMem_freed (h : t.Owned brk) {p : Buffer} (he : e ∈ t.entries) (hp : e.value = some p) :
    p.addr ∉ t.freed := by
  have hdisjoint := (Multiset.nodup_add.mp h.nodup).2.2
  intro hfreed
  exact Multiset.disjoint_left.mp hdisjoint (mem_buffers he hp) hfreed

theorem Owned.congr (h : t.Owned brk) (hhanded : t'.handed = t.handed) : t'.Owned brk :=
  ⟨hhanded ▸ h.nodup, hhanded ▸ h.lt⟩

/-- Buffers that are distinct and not below `brk` are stored. -/
theorem Owned.store {l : List Nat} {brk' : Nat} (h : t.Owned brk) (hl : l.Nodup)
    (hbrk : ∀ p ∈ l, brk ≤ p ∧ p < brk') (hle : brk ≤ brk') (hhanded : t'.handed = t.handed + ↑l) :
    t'.Owned brk' := by
  refine ⟨?_, fun p hp => ?_⟩
  · rw [hhanded, Multiset.nodup_add]
    refine ⟨h.nodup, Multiset.coe_nodup.mpr hl, Multiset.disjoint_left.mpr ?_⟩
    intro p hp hp'
    have hlt := h.lt p hp
    have hge := (hbrk p (Multiset.mem_coe.mp hp')).1
    omega
  · rw [hhanded, Multiset.mem_add] at hp
    rcases hp with hp | hp
    · have hlt := h.lt p hp
      omega
    · exact (hbrk p (Multiset.mem_coe.mp hp)).2

end Table

end Cnpv
