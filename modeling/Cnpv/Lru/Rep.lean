import Cnpv.CLib.Chain
import Cnpv.Lru.Model

/-!
# The representation invariant of the LRU cache

`Lruc.Rep c chains free`: bucket `i` of `c` holds the chain `chains i` and the free list is
`free`. The chains and the free list end in `NULL` and share no item, each chained item has a key,
in the bucket that its hash gives, and no two have the same key.

`Lruc.Links` is the part of it that is about the links alone; eviction needs no more.

Each edit of the links has a lemma that says which chains the cache has after it:

* `Rep.frame`: edits of the other fields.
* `Links.remove`, `Rep.remove`: `lruc_remove_item` moves an item from its chain to the front of the
  free list.
* `Rep.pop` and `Rep.link`: a new item comes from the free list, or from `calloc`, and goes to the
  end of its chain. `Rep.link` needs its `next` field to be `NULL`, and `Rep.pop` gives that only
  if the free list had no second item: `lruc_pop_or_create_item` does not clear the field.
-/

namespace Cnpv

open CLib

/-! ## Keys -/

/-- The key of an item, as bytes. -/
def itemKey (it : LrucItem) : List UInt8 := readBytes it.key it.keyLength.toNat

@[simp] theorem readBytes_length (p : Option Buffer) (n : Nat) : (readBytes p n).length = n := by
  simp [readBytes, List.takeD_length]

/-- Keys with the same bytes have the same length. -/
theorem eq_of_readBytes_eq {p q : Option Buffer} {n m : UInt32}
    (h : readBytes p n.toNat = readBytes q m.toNat) : n = m := by
  have hlen := congrArg List.length h
  rw [readBytes_length, readBytes_length] at hlen
  exact UInt32.toNat_inj.mp hlen

theorem memcmp_eq_zero {as bs : List UInt8} (h : as.length = bs.length) :
    memcmp as bs = 0 ↔ as = bs := by
  induction as generalizing bs with
  | nil => simp [memcmp, List.length_eq_zero_iff.mp h.symm]
  | cons a as ih =>
    cases bs with
    | nil => simp at h
    | cons b bs =>
      rw [memcmp]
      by_cases hab : a = b
      · rw [if_pos hab, ih (by simpa using h)]; simp [hab]
      · have : a.toNat ≠ b.toNat := fun e => hab (UInt8.toNat_inj.mp e)
        rw [if_neg hab]
        simp only [List.cons.injEq, hab, false_and, iff_false]
        omega

/-- `lruc_cmp_keys` is 0 on the item with the key, and only there. -/
theorem lrucCmpKeys_eq_zero {it : LrucItem} {key : Option Buffer} {n : UInt32} :
    lrucCmpKeys it key n = 0 ↔ itemKey it = readBytes key n.toNat := by
  unfold lrucCmpKeys itemKey
  by_cases h : n = it.keyLength
  · subst h
    rw [if_neg (by simp), memcmp_eq_zero (by simp)]
    exact eq_comm
  · rw [if_pos h]
    exact iff_of_false (by decide) fun e => h (eq_of_readBytes_eq e).symm

/-- The hash of a key, from its bytes. -/
theorem lrucHash_congr {c c' : Lruc} {p q : Option Buffer} {n m : UInt32}
    (hseed : c'.seed = c.seed) (hsize : c'.hashTableSize = c.hashTableSize)
    (h : readBytes p n.toNat = readBytes q m.toNat) : lrucHash c' p n = lrucHash c q m := by
  obtain rfl : n = m := eq_of_readBytes_eq h
  unfold lrucHash
  rw [hseed, hsize, h]

theorem lrucHash_lt {c : Lruc} (h : c.hashTableSize ≠ 0) (p : Option Buffer) (n : UInt32) :
    (lrucHash c p n).toNat < c.hashTableSize.toNat := by
  have : c.hashTableSize.toNat ≠ 0 := fun e => h (UInt32.toNat_inj.mp (by simpa using e))
  unfold lrucHash
  rw [UInt32.toNat_mod]
  exact Nat.mod_lt _ (by omega)

/-! ## The invariant -/

/-- The buckets of `c` hold the chains `chains`, and its free list is `free` (module doc). -/
structure Lruc.Rep (c : Lruc) (chains : Nat → List Addr) (free : List Addr) : Prop where
  nonempty : c.hashTableSize ≠ 0
  slots : c.items.length = c.hashTableSize.toNat
  chain : ∀ i, Chain c.next (c.bucket i) (chains i)
  freeChain : Chain c.next c.freeItems free
  disjoint : ∀ i j, i ≠ j → (chains i).Disjoint (chains j)
  disjointFree : ∀ i, (chains i).Disjoint free
  keyed : ∀ i, ∀ a ∈ chains i, (c.heap a).key.isSome ∧ (c.heap a).keyLength ≠ 0 ∧
    (lrucHash c (c.heap a).key (c.heap a).keyLength).toNat = i
  distinct : ∀ i j, ∀ a ∈ chains i, ∀ b ∈ chains j,
    itemKey (c.heap a) = itemKey (c.heap b) → a = b
  alloc : ∀ i, ∀ a ∈ chains i, a < c.brk
  allocFree : ∀ a ∈ free, a < c.brk

/-- The links of `c`: its buckets hold the chains `chains`, its free list is `free`, and these share
no item. -/
structure Lruc.Links (c : Lruc) (chains : Nat → List Addr) (free : List Addr) : Prop where
  slots : c.items.length = c.hashTableSize.toNat
  chain : ∀ i, Chain c.next (c.bucket i) (chains i)
  freeChain : Chain c.next c.freeItems free
  disjoint : ∀ i j, i ≠ j → (chains i).Disjoint (chains j)
  disjointFree : ∀ i, (chains i).Disjoint free

theorem Lruc.Rep.links {c : Lruc} {chains : Nat → List Addr} {free : List Addr}
    (h : c.Rep chains free) : c.Links chains free :=
  ⟨h.slots, h.chain, h.freeChain, h.disjoint, h.disjointFree⟩

namespace Lruc

variable {c c' : Lruc} {chains : Nat → List Addr} {free l₁ l₂ : List Addr} {a : Addr} {i : Nat}

@[simp] theorem setItem_next (c : Lruc) (a : Addr) (it : LrucItem) :
    (c.setItem a it).next = Function.update c.next a it.next := by
  funext b
  by_cases h : b = a <;> simp [next, setItem, Function.update, h]

theorem bucket_setBucket (c : Lruc) {i : Nat} (h : i < c.items.length) (p : Option Addr) (j : Nat) :
    (c.setBucket i p).bucket j = if j = i then p else c.bucket j := by
  unfold bucket setBucket
  by_cases hj : j = i
  · subst hj; simp [h]
  · simp [List.getElem?_set_ne (Ne.symm hj), hj]

theorem bucket_eq_none (h : c.items.length ≤ i) : c.bucket i = none := by
  simp [bucket, h]

/-- No item is chained past the end of the table. -/
theorem Links.chains_eq_nil (h : c.Links chains free) (hi : c.hashTableSize.toNat ≤ i) :
    chains i = [] := by
  have := h.chain i
  rwa [bucket_eq_none (h.slots ▸ hi), Chain.none_iff] at this

theorem Links.lt_of_mem (h : c.Links chains free) (ha : a ∈ chains i) :
    i < c.hashTableSize.toNat := by
  by_contra hi
  rw [h.chains_eq_nil (by omega)] at ha
  cases ha

theorem Rep.lt_of_mem (h : c.Rep chains free) (ha : a ∈ chains i) :
    i < c.hashTableSize.toNat := h.links.lt_of_mem ha

/-- An item with the key `key` is in the bucket of its hash. -/
theorem Rep.mem_bucket (h : c.Rep chains free) (ha : a ∈ chains i) {key : Option Buffer}
    {n : UInt32} (hk : itemKey (c.heap a) = readBytes key n.toNat) :
    i = (lrucHash c key n).toNat := by
  rw [← (h.keyed i a ha).2.2, lrucHash_congr rfl rfl hk]

/-- The empty cache. -/
theorem rep_lrucNew {size : UInt64} {len : UInt32} {seed : UInt64}
    (h : (lrucNew size len seed).hashTableSize ≠ 0) :
    (lrucNew size len seed).Rep (fun _ => []) [] where
  nonempty := h
  slots := by simp [lrucNew]
  chain i := by
    simp only [bucket, lrucNew, Seg.nil_iff, List.getElem?_replicate]
    split <;> rfl
  freeChain := rfl
  disjoint := by simp
  disjointFree := by simp
  keyed := by simp
  distinct := by simp
  alloc := by simp
  allocFree := by simp

/-- Edits of values, lengths of values, counters and the ledger, and edits of items that are
neither chained nor free, change no chain. -/
theorem Rep.frame (h : c.Rep chains free) (hitems : c'.items = c.items)
    (hfree : c'.freeItems = c.freeItems) (hsize : c'.hashTableSize = c.hashTableSize)
    (hseed : c'.seed = c.seed) (hbrk : c.brk ≤ c'.brk)
    (hheap : ∀ b, (b ∈ free ∨ ∃ i, b ∈ chains i) → c'.next b = c.next b ∧
      (c'.heap b).key = (c.heap b).key ∧ (c'.heap b).keyLength = (c.heap b).keyLength) :
    c'.Rep chains free where
  nonempty := hsize ▸ h.nonempty
  slots := by rw [hitems, hsize]; exact h.slots
  chain i := by
    rw [bucket, hitems]
    exact Seg.congr (h.chain i) fun b hb => (hheap b (.inr ⟨i, hb⟩)).1
  freeChain := by
    rw [hfree]
    exact Seg.congr h.freeChain fun b hb => (hheap b (.inl hb)).1
  disjoint := h.disjoint
  disjointFree := h.disjointFree
  keyed i b hb := by
    obtain ⟨-, hk, hn⟩ := hheap b (.inr ⟨i, hb⟩)
    rw [hk, hn, lrucHash_congr hseed hsize rfl]
    exact h.keyed i b hb
  distinct i j b hb b' hb' e := by
    simp only [itemKey, hheap b (.inr ⟨i, hb⟩), hheap b' (.inr ⟨j, hb'⟩)] at e
    exact h.distinct i j b hb b' hb' e
  alloc i b hb := Nat.lt_of_lt_of_le (h.alloc i b hb) hbrk
  allocFree b hb := Nat.lt_of_lt_of_le (h.allocFree b hb) hbrk

/-- An item that is neither chained nor free may hold anything. -/
theorem Rep.setItem_fresh (h : c.Rep chains free) (ha : ∀ j, a ∉ chains j) (haf : a ∉ free)
    (it : LrucItem) : (c.setItem a it).Rep chains free := by
  refine h.frame rfl rfl rfl rfl (Nat.le_refl _) fun b hb => ?_
  have hba : b ≠ a := by
    rcases hb with hb | ⟨j, hb⟩
    · exact ne_of_mem_of_not_mem hb haf
    · exact ne_of_mem_of_not_mem hb (ha j)
  simp [setItem, next, hba]

/-! ## Removing an item -/

/-- The links after `lruc_remove_item`: the link of `prev` skips the item, and the item's own
link goes to the old free list. -/
theorem lrucRemoveItem_next (c : Lruc) (prev : Option Addr) (a : Addr) (i : UInt32) :
    (lrucRemoveItem c prev a i).next =
      Function.update (prev.elim c.next fun p => Function.update c.next p (c.next a)) a
        c.freeItems := by
  cases prev <;> simp only [lrucRemoveItem] <;> funext b <;>
    by_cases h : b = a <;> simp [next, setItem, setBucket, Function.update, h]
  split <;> rfl

theorem lrucRemoveItem_bucket (c : Lruc) (prev : Option Addr) (a : Addr) {i : UInt32}
    (hi : i.toNat < c.items.length) (j : Nat) :
    (lrucRemoveItem c prev a i).bucket j =
      if j = i.toNat ∧ prev = none then c.next a else c.bucket j := by
  cases prev with
  | none =>
    rw [show (lrucRemoveItem c none a i).bucket j = (c.setBucket i.toNat (c.next a)).bucket j from rfl,
      bucket_setBucket c hi]
    simp
  | some p => simp [lrucRemoveItem, bucket, setItem]

/-- `lruc_remove_item` changes only the links of other items. -/
theorem lrucRemoveItem_heap {c : Lruc} {prev : Option Addr} {a b : Addr} {i : UInt32} (h : b ≠ a) :
    ∃ p, (lrucRemoveItem c prev a i).heap b = { c.heap b with next := p } := by
  cases prev with
  | none => exact ⟨_, by simp [lrucRemoveItem, setBucket, h]; rfl⟩
  | some p =>
    by_cases hp : b = p
    · subst hp; exact ⟨_, by simp [lrucRemoveItem, setItem, h]; rfl⟩
    · exact ⟨_, by simp [lrucRemoveItem, setItem, h, hp]; rfl⟩

theorem lrucRemoveItem_fields (c : Lruc) (prev : Option Addr) (a : Addr) (i : UInt32) :
    (lrucRemoveItem c prev a i).items.length = c.items.length ∧
    (lrucRemoveItem c prev a i).hashTableSize = c.hashTableSize ∧
    (lrucRemoveItem c prev a i).seed = c.seed ∧ (lrucRemoveItem c prev a i).brk = c.brk ∧
    (lrucRemoveItem c prev a i).freeItems = some a := by
  cases prev <;> simp [lrucRemoveItem, setItem, setBucket]

/-- A segment that passes neither the removed item nor the one before it stays. -/
theorem seg_lrucRemoveItem {p q prev : Option Addr} {l : List Addr} {i : UInt32}
    (h : Seg c.next p l q) (ha : a ∉ l) (hp : ∀ b ∈ prev, b ∉ l) :
    Seg (lrucRemoveItem c prev a i).next p l q := by
  rw [lrucRemoveItem_next]
  refine Seg.update ?_ ha
  cases prev with
  | none => exact h
  | some b => exact Seg.update h (hp b rfl)

/-- The chain that an item is removed from. -/
theorem Links.remove_chain (h : c.Links chains free) {i : UInt32}
    (e : chains i.toNat = l₁ ++ a :: l₂) :
    Chain (lrucRemoveItem c l₁.getLast? a i).next
      ((lrucRemoveItem c l₁.getLast? a i).bucket i.toNat) (l₁ ++ l₂) := by
  have hc := h.chain i.toNat
  have hi : i.toNat < c.items.length := h.slots ▸ h.lt_of_mem (a := a) (by simp [e])
  rw [e] at hc
  have hnd := Chain.nodup hc
  have ha : a ∉ l₁ ++ l₂ := (List.nodup_middle.mp hnd).notMem
  rw [lrucRemoveItem_bucket c _ a hi, lrucRemoveItem_next]
  refine Seg.update ?_ ha
  rcases List.eq_nil_or_concat l₁ with rfl | ⟨l, b, rfl⟩
  · simpa using hc.2
  · rw [List.concat_eq_append] at hc ⊢
    simpa using Chain.unlink_tail hc

/-- A node of a chain after the removal of `a` is a node of the old one, and it is not `a`. -/
theorem Links.mem_remove (h : c.Links chains free) (e : chains i = l₁ ++ a :: l₂) {j : Nat} {b : Addr}
    (hb : b ∈ Function.update chains i (l₁ ++ l₂) j) : b ∈ chains j ∧ b ≠ a := by
  have ha : a ∈ chains i := by simp [e]
  by_cases hj : j = i
  · subst hj
    rw [Function.update_self] at hb
    have hnot : a ∉ l₁ ++ l₂ := (List.nodup_middle.mp (e ▸ Chain.nodup (h.chain j))).notMem
    refine ⟨?_, ne_of_mem_of_not_mem hb hnot⟩
    rw [e]
    simp only [List.mem_append, List.mem_cons] at hb ⊢
    tauto
  · rw [Function.update_of_ne hj] at hb
    exact ⟨hb, fun hba => h.disjoint j i hj hb (hba ▸ ha)⟩

/-- **`lruc_remove_item`**: the item leaves its chain and becomes the first of the free list. -/
theorem Links.remove (h : c.Links chains free) {i : UInt32} (e : chains i.toNat = l₁ ++ a :: l₂) :
    (lrucRemoveItem c l₁.getLast? a i).Links (Function.update chains i.toNat (l₁ ++ l₂))
      (a :: free) := by
  have ha : a ∈ chains i.toNat := by simp [e]
  have hprev : ∀ b ∈ l₁.getLast?, b ∈ chains i.toNat := fun b hb => by
    rw [e]
    exact List.mem_append_left _ (List.mem_of_getLast? hb)
  have hsub : ∀ j, ∀ b ∈ Function.update chains i.toNat (l₁ ++ l₂) j, b ∈ chains j ∧ b ≠ a :=
    fun j b hb => h.mem_remove e hb
  obtain ⟨hlen, hsize, -, -, hfree⟩ := lrucRemoveItem_fields c l₁.getLast? a i
  exact {
    slots := by rw [hlen, hsize]; exact h.slots
    chain := fun j => by
      by_cases hj : j = i.toNat
      · subst hj; rw [Function.update_self]; exact h.remove_chain e
      · have hi : i.toNat < c.items.length := h.slots ▸ h.lt_of_mem ha
        rw [Function.update_of_ne hj, lrucRemoveItem_bucket c _ a hi, if_neg (by simp [hj])]
        exact seg_lrucRemoveItem (h.chain j) (fun hb => h.disjoint j _ hj hb ha)
          fun b hb hbj => h.disjoint j _ hj hbj (hprev b hb)
    freeChain := by
      rw [hfree, lrucRemoveItem_next]
      refine Chain.push ?_ (h.disjointFree _ ha)
      cases hp : l₁.getLast? with
      | none => exact h.freeChain
      | some b => exact Seg.update h.freeChain (h.disjointFree _ (hprev b hp))
    disjoint := fun j k hjk b hb hb' => h.disjoint j k hjk (hsub j b hb).1 (hsub k b hb').1
    disjointFree := fun j b hb hb' => by
      rcases List.mem_cons.mp hb' with hba | hb'
      · exact (hsub j b hb).2 hba
      · exact h.disjointFree j (hsub j b hb).1 hb' }

/-- What `lruc_remove_item` does besides: the memory of the value is free, and the buffers are freed. -/
theorem Links.remove_ledger (h : c.Links chains free) {i : UInt32}
    (e : chains i.toNat = l₁ ++ a :: l₂) :
    (lrucRemoveItem c l₁.getLast? a i).accessCount = c.accessCount ∧
    (lrucRemoveItem c l₁.getLast? a i).freeMemory =
      c.freeMemory + (c.heap a).valueLength.toUInt64 ∧
    (lrucRemoveItem c l₁.getLast? a i).totalMemory = c.totalMemory ∧
    (lrucRemoveItem c l₁.getLast? a i).freed =
      c.freed ++ freeBuffer (c.heap a).value ++ freeBuffer (c.heap a).key := by
  have hne : ∀ p ∈ l₁.getLast?, a ≠ p := by
    intro p hp hap
    have hnd := e ▸ Chain.nodup (h.chain i.toNat)
    rw [List.nodup_append] at hnd
    exact hnd.2.2 p (List.mem_of_getLast? hp) a (by simp) hap.symm
  cases hp : l₁.getLast? with
  | none => exact ⟨rfl, rfl, rfl, rfl⟩
  | some p => simp [lrucRemoveItem, setItem, hne p hp]

/-- It keeps the whole invariant. -/
theorem Rep.remove (h : c.Rep chains free) {i : UInt32} (e : chains i.toNat = l₁ ++ a :: l₂) :
    (lrucRemoveItem c l₁.getLast? a i).Rep (Function.update chains i.toNat (l₁ ++ l₂))
      (a :: free) := by
  have ha : a ∈ chains i.toNat := by simp [e]
  have hsub : ∀ j, ∀ b ∈ Function.update chains i.toNat (l₁ ++ l₂) j, b ∈ chains j ∧ b ≠ a :=
    fun j b hb => h.links.mem_remove e hb
  have hheap : ∀ j, ∀ b ∈ Function.update chains i.toNat (l₁ ++ l₂) j,
      ((lrucRemoveItem c l₁.getLast? a i).heap b).key = (c.heap b).key ∧
      ((lrucRemoveItem c l₁.getLast? a i).heap b).keyLength = (c.heap b).keyLength := by
    intro j b hb
    obtain ⟨p, hp⟩ : ∃ p, (lrucRemoveItem c l₁.getLast? a i).heap b =
      { c.heap b with next := p } := lrucRemoveItem_heap (hsub j b hb).2
    simp [hp]
  obtain ⟨-, hsize, hseed, hbrk, -⟩ := lrucRemoveItem_fields c l₁.getLast? a i
  obtain ⟨hslots, hchain, hfreeChain, hdisjoint, hdisjointFree⟩ := h.links.remove e
  exact {
    nonempty := hsize ▸ h.nonempty
    slots := hslots
    chain := hchain
    freeChain := hfreeChain
    disjoint := hdisjoint
    disjointFree := hdisjointFree
    keyed := fun j b hb => by
      rw [(hheap j b hb).1, (hheap j b hb).2, lrucHash_congr hseed hsize rfl]
      exact h.keyed j b (hsub j b hb).1
    distinct := fun j k b hb b' hb' hkey => by
      simp only [itemKey, hheap j b hb, hheap k b' hb'] at hkey
      exact h.distinct j k b (hsub j b hb).1 b' (hsub k b' hb').1 hkey
    alloc := fun j b hb => by rw [hbrk]; exact h.alloc j b (hsub j b hb).1
    allocFree := fun b hb => by
      rw [hbrk]
      rcases List.mem_cons.mp hb with rfl | hb
      · exact h.alloc _ _ ha
      · exact h.allocFree b hb }

/-! ## Adding an item -/

/-- **`lruc_pop_or_create_item`**: the item is in no chain. Its `next` field is what it was in the
free list: the second item of the list, if there was one. -/
theorem Rep.pop (h : c.Rep chains free) :
    (lrucPopOrCreateItem c).2.Rep chains free.tail ∧
    (∀ i, (lrucPopOrCreateItem c).1 ∉ chains i) ∧ (lrucPopOrCreateItem c).1 ∉ free.tail ∧
    (lrucPopOrCreateItem c).1 < (lrucPopOrCreateItem c).2.brk ∧
    (lrucPopOrCreateItem c).2.next (lrucPopOrCreateItem c).1 = free.tail.head? := by
  have hf := h.freeChain
  unfold lrucPopOrCreateItem
  cases hp : c.freeItems with
  | none =>
    rw [hp, Chain.none_iff] at hf
    subst hf
    have hfresh : ∀ i, c.brk ∉ chains i := fun i hb => Nat.lt_irrefl _ (h.alloc i _ hb)
    refine ⟨h.frame rfl rfl rfl rfl (Nat.le_succ _) ?_, hfresh, by simp, Nat.lt_succ_self _, ?_⟩
    · rintro b (hb | ⟨i, hb⟩)
      · cases hb
      · have : b ≠ c.brk := ne_of_mem_of_not_mem hb (hfresh i)
        simp [next, setItem, this]
    · simp [next, setItem]
  | some a =>
    rw [hp] at hf
    cases free with
    | nil => cases hf
    | cons b free =>
      obtain ⟨hb, hf⟩ := hf
      cases hb
      have hnd := Chain.nodup h.freeChain
      refine ⟨?_, fun i ha => h.disjointFree i ha (by simp), (List.nodup_cons.mp hnd).1,
        h.allocFree a (by simp), ?_⟩
      · exact { h with
          freeChain := hf
          disjointFree := fun i b hb hb' => h.disjointFree i hb (List.mem_of_mem_tail hb')
          allocFree := fun b hb => h.allocFree b (List.mem_of_mem_tail hb) }
      · cases free with
        | nil => exact hf
        | cons b free => exact hf.1

/-- The links after `linkAfter`. -/
theorem linkAfter_next (c : Lruc) (prev : Option Addr) (i : UInt32) (a : Addr) :
    (c.linkAfter prev i a).next =
      prev.elim c.next fun p => Function.update c.next p (some a) := by
  cases prev with
  | none => rfl
  | some p => exact setItem_next _ _ _

theorem linkAfter_bucket (c : Lruc) (prev : Option Addr) (a : Addr) {i : UInt32}
    (hi : i.toNat < c.items.length) (j : Nat) :
    (c.linkAfter prev i a).bucket j =
      if j = i.toNat ∧ prev = none then some a else c.bucket j := by
  cases prev with
  | none =>
    rw [linkAfter, bucket_setBucket c hi]
    simp
  | some p => simp [linkAfter, bucket, setItem]

/-- `linkAfter` changes only links. -/
theorem linkAfter_heap (c : Lruc) (prev : Option Addr) (i : UInt32) (a b : Addr) :
    ∃ p, ((c.linkAfter prev i a).heap b) = { c.heap b with next := p } := by
  cases prev with
  | none => exact ⟨_, rfl⟩
  | some p =>
    by_cases hp : b = p
    · subst hp; exact ⟨_, by simp [linkAfter, setItem]; rfl⟩
    · exact ⟨_, by simp [linkAfter, setItem, hp]; rfl⟩

theorem linkAfter_fields (c : Lruc) (prev : Option Addr) (i : UInt32) (a : Addr) :
    (c.linkAfter prev i a).items.length = c.items.length ∧
    (c.linkAfter prev i a).hashTableSize = c.hashTableSize ∧
    (c.linkAfter prev i a).seed = c.seed ∧ (c.linkAfter prev i a).brk = c.brk ∧
    (c.linkAfter prev i a).freeItems = c.freeItems := by
  cases prev <;> simp [linkAfter, setItem, setBucket]

/-- A segment that does not pass the item before the new one stays. -/
theorem seg_linkAfter {p q prev : Option Addr} {l : List Addr} {i : UInt32}
    (h : Seg c.next p l q) (hp : ∀ b ∈ prev, b ∉ l) :
    Seg (c.linkAfter prev i a).next p l q := by
  rw [linkAfter_next]
  cases prev with
  | none => exact h
  | some b => exact Seg.update h (hp b rfl)

/-- The chain that an item is linked into. -/
theorem Rep.link_chain (h : c.Rep chains free) {i : UInt32} (hi : i.toNat < c.items.length)
    (ha : a ∉ chains i.toNat) (hnext : c.next a = none) :
    Chain (c.linkAfter (chains i.toNat).getLast? i a).next
      ((c.linkAfter (chains i.toNat).getLast? i a).bucket i.toNat) (chains i.toNat ++ [a]) := by
  have hc := h.chain i.toNat
  rw [linkAfter_bucket c _ a hi, linkAfter_next]
  rcases List.eq_nil_or_concat (chains i.toNat) with hnil | ⟨l, b, hl⟩
  · simp [hnil, hnext]
  · rw [List.concat_eq_append] at hl
    rw [hl] at hc ha
    simp only [hl, List.getLast?_append, List.getLast?_singleton]
    exact Chain.append hc ha hnext

/-- A node of a chain after `a` is linked in is `a` or a node of the old one. -/
theorem mem_link {j : Nat} {b : Addr} (hb : b ∈ Function.update chains i (chains i ++ [a]) j) :
    b ∈ chains j ∨ j = i ∧ b = a := by
  by_cases hj : j = i
  · subst hj
    rw [Function.update_self] at hb
    simpa using hb
  · rw [Function.update_of_ne hj] at hb
    exact .inl hb

/-- **An item linked in at the end of its chain.** Its own link must be `NULL`. -/
theorem Rep.link (h : c.Rep chains free) {i : UInt32} (ha : ∀ j, a ∉ chains j) (haf : a ∉ free)
    (hbrk : a < c.brk) (hnext : c.next a = none) (hkey : (c.heap a).key.isSome)
    (hlen : (c.heap a).keyLength ≠ 0)
    (hhash : lrucHash c (c.heap a).key (c.heap a).keyLength = i)
    (hnew : ∀ j, ∀ b ∈ chains j, itemKey (c.heap b) ≠ itemKey (c.heap a)) :
    (c.linkAfter (chains i.toNat).getLast? i a).Rep
      (Function.update chains i.toNat (chains i.toNat ++ [a])) free := by
  have hi : i.toNat < c.items.length := by
    rw [h.slots, ← hhash]; exact lrucHash_lt h.nonempty _ _
  have hprev : ∀ b ∈ (chains i.toNat).getLast?, b ∈ chains i.toNat :=
    fun b hb => List.mem_of_getLast? hb
  have hsub : ∀ j, ∀ b ∈ Function.update chains i.toNat (chains i.toNat ++ [a]) j,
      b ∈ chains j ∨ j = i.toNat ∧ b = a := fun j b hb => mem_link hb
  have hheap : ∀ b, ((c.linkAfter (chains i.toNat).getLast? i a).heap b).key = (c.heap b).key ∧
      ((c.linkAfter (chains i.toNat).getLast? i a).heap b).keyLength = (c.heap b).keyLength := by
    intro b
    obtain ⟨p, hp⟩ := linkAfter_heap c (chains i.toNat).getLast? i a b
    simp [hp]
  obtain ⟨hlength, hsize, hseed, hbrk', hfree⟩ :=
    linkAfter_fields c (chains i.toNat).getLast? i a
  exact {
    nonempty := hsize ▸ h.nonempty
    slots := by rw [hlength, hsize]; exact h.slots
    chain := fun j => by
      by_cases hj : j = i.toNat
      · subst hj; rw [Function.update_self]; exact h.link_chain hi (ha _) hnext
      · rw [Function.update_of_ne hj, linkAfter_bucket c _ a hi, if_neg (by simp [hj])]
        exact seg_linkAfter (h.chain j) fun b hb hbj => h.disjoint j _ hj hbj (hprev b hb)
    freeChain := by
      rw [hfree]
      exact seg_linkAfter h.freeChain fun b hb => h.disjointFree _ (hprev b hb)
    disjoint := fun j k hjk b hb hb' => by
      rcases hsub j b hb with hb | ⟨hj, rfl⟩ <;> rcases hsub k b hb' with hb' | ⟨hk, hba⟩
      · exact h.disjoint j k hjk hb hb'
      · exact ha j (hba ▸ hb)
      · exact ha k hb'
      · exact hjk (hj.trans hk.symm)
    disjointFree := fun j b hb hb' => by
      rcases hsub j b hb with hb | ⟨-, rfl⟩
      · exact h.disjointFree j hb hb'
      · exact haf hb'
    keyed := fun j b hb => by
      rw [(hheap b).1, (hheap b).2, lrucHash_congr hseed hsize rfl]
      rcases hsub j b hb with hb | ⟨rfl, rfl⟩
      · exact h.keyed j b hb
      · exact ⟨hkey, hlen, by rw [hhash]⟩
    distinct := fun j k b hb b' hb' e => by
      simp only [itemKey, hheap b, hheap b'] at e
      rcases hsub j b hb with hj | ⟨-, hba⟩ <;> rcases hsub k b' hb' with hk | ⟨-, hba'⟩
      · exact h.distinct j k b hj b' hk e
      · exact absurd (hba' ▸ e) (hnew j b hj)
      · exact absurd (hba ▸ e.symm) (hnew k b' hk)
      · rw [hba, hba']
    alloc := fun j b hb => by
      rw [hbrk']
      rcases hsub j b hb with hb | ⟨-, rfl⟩
      · exact h.alloc j b hb
      · exact hbrk
    allocFree := fun b hb => by rw [hbrk']; exact h.allocFree b hb }

end Lruc

end Cnpv
