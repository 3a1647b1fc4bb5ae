import Cnpv.Lru.Table

/-!
# The representation invariant over runs of the public interface

`lruc_set`, `lruc_get` and `lruc_delete` keep the links of the cache in order (`Lruc.WellLinked`)
as long as no new key is inserted while the free list has two items: `lruc_pop_or_create_item`
leaves the link to the second one in the item that it takes, so that item's chain runs on into
the free list (`wellLinked_fails`).
-/

namespace Cnpv

open CLib

namespace Lruc

variable {c c' : Lruc} {t : Table} {chains : Nat → List Addr} {free : List Addr} {fuel : Nat}

/-- The representation invariant of the cache: the chains and the free list are finite, without
cycles and disjoint, and each chained item is in the bucket of its key, which no other has
(`Lruc.Rep`). -/
def WellLinked (c : Lruc) : Prop :=
  ∃ chains free, c.Rep chains free ∧ (∀ i, (chains i).Nodup) ∧ free.Nodup

/-- The walks along the chains end: the search for any key, and the scan for the least recently
used item. -/
def WalksEnd (c : Lruc) : Prop :=
  ∃ n, ∀ fuel, n ≤ fuel →
    (∀ key keyLength, ∃ r,
      c.seek fuel key keyLength (c.bucket (lrucHash c key keyLength).toNat) = .ok r) ∧
    ∃ c', lrucRemoveLruItem fuel c = .ok c'

theorem Rep.wellLinked (h : c.Rep chains free) : c.WellLinked :=
  ⟨chains, free, h, fun i => Chain.nodup (h.chain i), Chain.nodup h.freeChain⟩

theorem Rep.walksEnd (h : c.Rep chains free) : c.WalksEnd := by
  refine ⟨(chained c.hashTableSize.toNat chains).card + 1, fun fuel hf => ⟨fun key n => ?_, ?_⟩⟩
  · exact h.seek_returns (Nat.lt_of_le_of_lt (h.links.length_le _) hf)
  · exact h.links.evict_returns hf

/-! ## The condition on a call -/

/-- `a` is in a chain. -/
def Chained (c : Lruc) (a : Addr) : Prop := ∃ i l, Chain c.next (c.bucket i) l ∧ a ∈ l

/-- A chained item has the key. -/
def HasKey (c : Lruc) (key : Option Buffer) (keyLength : UInt32) : Prop :=
  ∃ a, c.Chained a ∧ lrucCmpKeys (c.heap a) key keyLength = 0

/-- The free list has at most one item. -/
def OneSpare (c : Lruc) : Prop := ∀ a, c.freeItems = some a → c.next a = none

instance (c : Lruc) : Decidable c.OneSpare :=
  inferInstanceAs (Decidable (∀ a ∈ c.freeItems, c.next a = none))

theorem Rep.chained_iff (h : c.Rep chains free) {a : Addr} : c.Chained a ↔ ∃ i, a ∈ chains i := by
  constructor
  · rintro ⟨i, l, hl, ha⟩
    exact ⟨i, by rwa [← Chain.unique hl (h.chain i)]⟩
  · rintro ⟨i, ha⟩
    exact ⟨i, _, h.chain i, ha⟩

theorem Rep.hasKey_iff (h : c.Rep chains free) {key : Option Buffer} {keyLength : UInt32} :
    c.HasKey key keyLength ↔
      ∃ e ∈ (c.table chains free).entries, itemKey e = readBytes key keyLength.toNat := by
  constructor
  · rintro ⟨a, ha, hk⟩
    obtain ⟨i, hi⟩ := h.chained_iff.mp ha
    exact ⟨(c.heap a).entry, h.mem_entries.mpr ⟨i, a, hi, rfl⟩, lrucCmpKeys_eq_zero.mp hk⟩
  · rintro ⟨e, he, hk⟩
    obtain ⟨i, a, ha, rfl⟩ := h.mem_entries.mp he
    exact ⟨a, h.chained_iff.mpr ⟨i, ha⟩, lrucCmpKeys_eq_zero.mpr hk⟩

theorem Rep.length_le_one (h : c.Rep chains free) (hs : c.OneSpare) : free.length ≤ 1 := by
  have hf := h.freeChain
  rcases free with - | ⟨a, - | ⟨b, free⟩⟩
  · exact Nat.zero_le _
  · exact Nat.le_refl _
  · have := hs a hf.1
    rw [hf.2.1] at this
    cases this

end Lruc

namespace LrucCall

variable {c c' : Lruc} {t : Table} {fuel : Nat}

/-- The call is an `lruc_set` that passes the argument tests, with a key that is not in the
cache. -/
def Inserts (c : Lruc) : LrucCall → Prop
  | .set key keyLength value valueLength =>
    c.SetAccepted key keyLength value valueLength ∧ ¬ c.HasKey key keyLength
  | _ => False

/-- A call that inserts a key is made with at most one item in the free list. -/
def SpareOk (c : Lruc) (call : LrucCall) : Prop := call.Inserts c → c.OneSpare

/-- The condition, on the table: `lrucSet_refines`. -/
theorem SpareOk.spare_le {key value : Option Buffer} {keyLength valueLength : UInt32}
    (hs : SpareOk c (.set key keyLength value valueLength))
    (ha : c.SetAccepted key keyLength value valueLength) (h : c.Refines t)
    (hk : ∀ e ∈ t.entries, itemKey e ≠ readBytes key keyLength.toNat) : t.spare ≤ 1 := by
  obtain ⟨chains, free, h, rfl⟩ := h
  refine h.length_le_one (hs ⟨ha, fun hk' => ?_⟩)
  obtain ⟨e, he, hek⟩ := h.hasKey_iff.mp hk'
  exact hk e he hek

/-- One call keeps the links in order. -/
theorem run_refines (h : c.Refines t) {call : LrucCall} (hs : call.SpareOk c)
    (hr : call.run fuel c = .ok c') : ∃ t', c'.Refines t' := by
  cases call with
  | set key keyLength value valueLength =>
    by_cases ha : c.SetAccepted key keyLength value valueLength
    · obtain ⟨r, hset, rfl⟩ := Exec.map_ok.mp hr
      obtain ⟨-, _, _, t₂, -, -, h₂⟩ := Lruc.lrucSet_refines h ha (hs.spare_le ha h) hset
      exact ⟨_, h₂⟩
    · obtain ⟨e, -, he⟩ := Lruc.lrucSet_rejected ha
      obtain ⟨r, hset, rfl⟩ := Exec.map_ok.mp hr
      cases (he _).symm.trans hset
      exact ⟨t, h⟩
  | get key keyLength =>
    obtain ⟨r, hget, rfl⟩ := Exec.map_ok.mp hr
    rcases Lruc.lrucGet_refines h hget with ⟨-, rfl⟩ | ⟨-, ⟨e, -, -, c', rfl, h'⟩ | ⟨-, rfl⟩⟩
    · exact ⟨t, h⟩
    · exact ⟨_, h'⟩
    · exact ⟨t, h⟩
  | delete key keyLength =>
    obtain ⟨r, hdelete, rfl⟩ := Exec.map_ok.mp hr
    rcases Lruc.lrucDelete_refines h hdelete with he | ⟨e, -, -, h'⟩
    · exact ⟨t, he ▸ h⟩
    · exact ⟨_, h'⟩

end LrucCall

/-- **The representation invariant holds over runs**, after each call that returned, if every new
key is inserted with at most one item in the free list. -/
theorem wellLinked_run {size seed : UInt64} {len : UInt32} {fuel : Nat} {calls : List LrucCall}
    {c : Lruc} (hnew : (lrucNew size len seed).hashTableSize ≠ 0)
    (hspare : Along (LrucCall.run fuel) LrucCall.SpareOk (lrucNew size len seed) calls)
    (hrun : runFrom (LrucCall.run fuel) (lrucNew size len seed) calls = .ok c) :
    c.WellLinked ∧ c.WalksEnd := by
  obtain ⟨t, chains, free, h, -⟩ := runFrom_inv (fun c => ∃ t, c.Refines t)
    (fun c call c' ⟨t, h⟩ hs hr => LrucCall.run_refines h hs hr)
    ⟨_, Lruc.refines_lrucNew hnew⟩ hspare hrun
  exact ⟨h.wellLinked, h.walksEnd⟩

/-- A run in a cache of two items: the third key gets the item of a deleted one, and the fourth key
evicts the second one. -/
theorem wellLinked_run_evicts :
    ∃ c, runFrom (LrucCall.run 4) (lrucNew 2048 1024 0)
      [.set (some ⟨1, [97, 0]⟩) 2 (some ⟨2, [65, 0]⟩) 1024,
        .set (some ⟨3, [98, 0]⟩) 2 (some ⟨4, [65, 0]⟩) 1024, .delete (some ⟨5, [97, 0]⟩) 2,
        .set (some ⟨6, [99, 0]⟩) 2 (some ⟨7, [65, 0]⟩) 1024,
        .set (some ⟨8, [100, 0]⟩) 2 (some ⟨9, [65, 0]⟩) 1024, .get (some ⟨10, [98, 0]⟩) 2] = .ok c ∧
      c.freeItems = some 1 ∧ c.WellLinked ∧ c.WalksEnd := by
  obtain ⟨c, hc, hfree⟩ := Exec.of_returned
    (x := runFrom (LrucCall.run 4) (lrucNew 2048 1024 0)
      [.set (some ⟨1, [97, 0]⟩) 2 (some ⟨2, [65, 0]⟩) 1024,
        .set (some ⟨3, [98, 0]⟩) 2 (some ⟨4, [65, 0]⟩) 1024, .delete (some ⟨5, [97, 0]⟩) 2,
        .set (some ⟨6, [99, 0]⟩) 2 (some ⟨7, [65, 0]⟩) 1024,
        .set (some ⟨8, [100, 0]⟩) 2 (some ⟨9, [65, 0]⟩) 1024, .get (some ⟨10, [98, 0]⟩) 2])
    (p := fun c => c.freeItems = some 1) (by decide)
  have hspare : Along (LrucCall.run 4) (fun c _ => c.OneSpare) (lrucNew 2048 1024 0)
      [.set (some ⟨1, [97, 0]⟩) 2 (some ⟨2, [65, 0]⟩) 1024,
        .set (some ⟨3, [98, 0]⟩) 2 (some ⟨4, [65, 0]⟩) 1024, .delete (some ⟨5, [97, 0]⟩) 2,
        .set (some ⟨6, [99, 0]⟩) 2 (some ⟨7, [65, 0]⟩) 1024,
        .set (some ⟨8, [100, 0]⟩) 2 (some ⟨9, [65, 0]⟩) 1024, .get (some ⟨10, [98, 0]⟩) 2] := by
    decide
  exact ⟨c, hc, of_decide_eq_true hfree, wellLinked_run (by decide)
    (hspare.imp fun _ _ h => fun _ => h) hc⟩

/-- The failing run: two keys are set and deleted, then a third key is set. Its item is the first of
the free list, and its link still goes to the second. -/
theorem wellLinked_fails :
    ∃ c, runFrom (LrucCall.run 4) (lrucNew 1024 1024 0)
      [.set (some ⟨1, [97, 0]⟩) 2 (some ⟨2, [65, 0]⟩) 10,
        .set (some ⟨3, [98, 0]⟩) 2 (some ⟨4, [65, 0]⟩) 10,
        .delete (some ⟨5, [97, 0]⟩) 2, .delete (some ⟨6, [98, 0]⟩) 2,
        .set (some ⟨7, [99, 0]⟩) 2 (some ⟨8, [65, 0]⟩) 10] = .ok c ∧ ¬ c.WellLinked := by
  obtain ⟨c, hc, hlinks⟩ := Exec.of_returned
    (x := runFrom (LrucCall.run 4) (lrucNew 1024 1024 0)
      [.set (some ⟨1, [97, 0]⟩) 2 (some ⟨2, [65, 0]⟩) 10,
        .set (some ⟨3, [98, 0]⟩) 2 (some ⟨4, [65, 0]⟩) 10,
        .delete (some ⟨5, [97, 0]⟩) 2, .delete (some ⟨6, [98, 0]⟩) 2,
        .set (some ⟨7, [99, 0]⟩) 2 (some ⟨8, [65, 0]⟩) 10])
    (p := fun c => c.bucket 0 = some 1 ∧ c.next 1 = some 0 ∧ c.next 0 = none ∧ c.freeItems = some 0)
    (by decide)
  obtain ⟨hb, h₁, h₀, hf⟩ := of_decide_eq_true hlinks
  have hchain : Chain c.next (c.bucket 0) [1, 0] := ⟨hb, h₁, h₀⟩
  have hfree : Chain c.next c.freeItems [0] := ⟨hf, h₀⟩
  refine ⟨c, hc, ?_⟩
  rintro ⟨chains, free, h, -⟩
  refine h.disjointFree 0 (a := 0) ?_ ?_
  · rw [Chain.unique (h.chain 0) hchain]; simp
  · rw [Chain.unique h.freeChain hfree]; simp

end Cnpv
