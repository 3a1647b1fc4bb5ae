import Cnpv.Lru.Evict

/-!
# The cache as a table of entries

What the LRU cache is for: a `Table` is a collection of entries (items without their links), the
number of spare items in the free list, the counters and the ledger. `Lruc.Refines c t`: the
linked cache `c` represents `t`. Each function of `ns_agent/lru.c` then has one lemma that says
what it does to the table:

* `lrucGet_refines`: a hit makes its entry the most recently used one (`Table.use`).
* `lrucDelete_refines`: an entry leaves the table (`Table.evict`).
* `lrucSet_refines`: an entry is replaced or inserted (`Table.Linked`), least recently used entries
  leave until there is room (`Table.Evicts`), and the bytes required are taken.

An insertion refines the table only if the free list has at most one item (`Rep.link`).
-/

namespace Cnpv

open CLib

/-- An item without its link. -/
def LrucItem.entry (it : LrucItem) : LrucItem := { it with next := none }

@[simp] theorem itemKey_entry (it : LrucItem) : itemKey it.entry = itemKey it := rfl

/-- A cache without the links (module doc). -/
structure Table where
  entries : Multiset LrucItem
  /-- The number of items in the free list. -/
  spare : Nat
  accessCount : UInt64
  freeMemory : UInt64
  totalMemory : UInt64
  freed : List Nat

namespace Table

/-- The entry `e` used. -/
def use (t : Table) (e : LrucItem) : Table :=
  { t with
    entries := { e with accessCount := t.accessCount + 1 } ::ₘ t.entries.erase e
    accessCount := t.accessCount + 1 }

/-- The entry `e` removed. -/
def evict (t : Table) (e : LrucItem) : Table :=
  { t with
    entries := t.entries.erase e
    spare := t.spare + 1
    freeMemory := t.freeMemory + e.valueLength.toUInt64
    freed := t.freed ++ freeBuffer e.value ++ freeBuffer e.key }

/-- The value of the entry `e` replaced, and the entry used. -/
def replace (t : Table) (e : LrucItem) (value : Option Buffer) (valueLength : UInt32) : Table :=
  { t with
    entries := { e with value, valueLength, accessCount := t.accessCount + 1 } ::ₘ t.entries.erase e
    accessCount := t.accessCount + 1
    freed := t.freed ++ freeBuffer e.value }

/-- A new entry, used. -/
def insert (t : Table) (key : Option Buffer) (keyLength : UInt32) (value : Option Buffer)
    (valueLength : UInt32) : Table :=
  { t with
    entries := { value, key, valueLength, keyLength, accessCount := t.accessCount + 1 } ::ₘ t.entries
    spare := t.spare - 1
    accessCount := t.accessCount + 1 }

/-- `lruc_set` before it makes room: the table, and the bytes required. -/
inductive Linked (t : Table) (key : Option Buffer) (keyLength : UInt32) (value : Option Buffer)
    (valueLength : UInt32) : Table → UInt32 → Prop
  | replaced {e : LrucItem} : e ∈ t.entries → itemKey e = readBytes key keyLength.toNat →
      Linked t key keyLength value valueLength (t.replace e value valueLength)
        (valueLength - e.valueLength)
  | inserted : (∀ e ∈ t.entries, itemKey e ≠ readBytes key keyLength.toNat) →
      Linked t key keyLength value valueLength (t.insert key keyLength value valueLength)
        valueLength

theorem Linked.card_le {t t₁ : Table} {key value : Option Buffer}
    {keyLength valueLength required : UInt32}
    (h : t.Linked key keyLength value valueLength t₁ required) :
    t₁.entries.card ≤ t.entries.card + 1 := by
  cases h with
  | replaced he _ =>
    have := Multiset.card_erase_add_one he
    simp only [replace, Multiset.card_cons]
    omega
  | inserted _ => simp only [insert, Multiset.card_cons]; exact Nat.le_refl _

/-- Least recently used entries removed until `required` bytes are free. -/
inductive Evicts (required : UInt64) : Table → Table → Prop
  | done {t : Table} : required ≤ t.freeMemory → Evicts required t t
  | step {t t' : Table} {e : LrucItem} : t.freeMemory < required → e ∈ t.entries →
      (∀ e' ∈ t.entries, e.accessCount ≤ e'.accessCount) → Evicts required (t.evict e) t' →
      Evicts required t t'

/-- However entries leave, there are entries left until `required` bytes are free. -/
inductive Room (required : UInt64) : Table → Prop
  | done {t : Table} : required ≤ t.freeMemory → Room required t
  | step {t : Table} : t.entries ≠ 0 → (∀ e ∈ t.entries, Room required (t.evict e)) →
      Room required t

/-- `cache->free_memory -= required` -/
def take (t : Table) (required : UInt32) : Table :=
  { t with freeMemory := t.freeMemory - required.toUInt64 }

end Table

namespace Lruc

variable {c c' : Lruc} {t : Table} {chains : Nat → List Addr} {free l₁ l₂ : List Addr} {a : Addr}
  {j fuel : Nat}

def entries (c : Lruc) (chains : Nat → List Addr) : Multiset LrucItem :=
  (chained c.hashTableSize.toNat chains).map fun a => (c.heap a).entry

/-- The table that a cache with the chains `chains` and the free list `free` represents. -/
def table (c : Lruc) (chains : Nat → List Addr) (free : List Addr) : Table where
  entries := c.entries chains
  spare := free.length
  accessCount := c.accessCount
  freeMemory := c.freeMemory
  totalMemory := c.totalMemory
  freed := c.freed

/-- The cache `c` represents the table `t`. -/
def Refines (c : Lruc) (t : Table) : Prop :=
  ∃ chains free, c.Rep chains free ∧ c.table chains free = t

theorem Rep.refines (h : c.Rep chains free) : c.Refines (c.table chains free) := ⟨_, _, h, rfl⟩

theorem refines_lrucNew {size : UInt64} {len : UInt32} {seed : UInt64}
    (h : (lrucNew size len seed).hashTableSize ≠ 0) :
    (lrucNew size len seed).Refines ⟨0, 0, 0, size, size, []⟩ :=
  ⟨_, _, rep_lrucNew h, by simp [table, entries, chained, lrucNew]⟩

theorem Rep.mem_entries (h : c.Rep chains free) {e : LrucItem} :
    e ∈ c.entries chains ↔ ∃ j, ∃ a ∈ chains j, (c.heap a).entry = e := by
  unfold entries
  rw [Multiset.mem_map]
  constructor
  · rintro ⟨a, ha, he⟩
    obtain ⟨j, hj⟩ := h.links.mem_chained.mp ha
    exact ⟨j, a, hj, he⟩
  · rintro ⟨j, a, hj, he⟩
    exact ⟨a, h.links.mem_chained.mpr ⟨j, hj⟩, he⟩

/-! ## How an edit of the heap changes the entries -/

/-- One chained item edited. -/
theorem Rep.entries_edit (h : c.Rep chains free) (ha : a ∈ chains j)
    (hsize : c'.hashTableSize = c.hashTableSize)
    (hv : ∀ b, b ≠ a → (c'.heap b).entry = (c.heap b).entry) :
    c'.entries chains = (c'.heap a).entry ::ₘ (c.entries chains).erase (c.heap a).entry := by
  obtain ⟨s, hs⟩ := Multiset.exists_cons_of_mem (h.links.mem_chained.mpr ⟨j, ha⟩)
  have has : a ∉ s := (Multiset.nodup_cons.mp (hs ▸ h.links.chained_nodup)).1
  unfold entries
  rw [hsize, hs, Multiset.map_cons, Multiset.map_cons, Multiset.erase_cons_head]
  congr 1
  exact Multiset.map_congr rfl fun b hb => hv b (ne_of_mem_of_not_mem hb has)

theorem Rep.entries_congr (h : c.Rep chains free) (hsize : c'.hashTableSize = c.hashTableSize)
    (hv : ∀ j, ∀ b ∈ chains j, (c'.heap b).entry = (c.heap b).entry) :
    c'.entries chains = c.entries chains := by
  unfold entries
  rw [hsize]
  refine Multiset.map_congr rfl fun b hb => ?_
  obtain ⟨j, hj⟩ := h.links.mem_chained.mp hb
  exact hv j b hj

/-- One new item linked in and used. -/
theorem Rep.entries_link (h : c.Rep chains free) {i : UInt32} (hi : i.toNat < c.hashTableSize.toNat)
    (ha : ∀ j, a ∉ chains j) (prev : Option Addr) :
    ((c.linkAfter prev i a).touch a).entries
        (Function.update chains i.toNat (chains i.toNat ++ [a])) =
      { (c.heap a).entry with accessCount := c.accessCount + 1 } ::ₘ c.entries chains := by
  have hsize : ((c.linkAfter prev i a).touch a).hashTableSize = c.hashTableSize := by
    cases prev <;> rfl
  have hcount : (c.linkAfter prev i a).accessCount = c.accessCount := by cases prev <;> rfl
  unfold entries
  rw [hsize, chained_append hi, Multiset.map_cons]
  congr 1
  · obtain ⟨p, hp⟩ := linkAfter_heap c prev i a a
    simp [Lruc.touch, hp, hcount, LrucItem.entry]
  · refine Multiset.map_congr rfl fun b hb => ?_
    obtain ⟨j, hj⟩ := h.links.mem_chained.mp hb
    obtain ⟨p, hp⟩ := linkAfter_heap c prev i a b
    simp [Lruc.touch, ne_of_mem_of_not_mem hj (ha j), hp, LrucItem.entry]

/-- One chained item removed. -/
theorem Rep.entries_remove (h : c.Rep chains free) {i : UInt32}
    (e : chains i.toNat = l₁ ++ a :: l₂) :
    (lrucRemoveItem c l₁.getLast? a i).entries (Function.update chains i.toNat (l₁ ++ l₂)) =
      (c.entries chains).erase (c.heap a).entry := by
  have hi := h.lt_of_mem (a := a) (i := i.toNat) (by simp [e])
  have hc := chained_remove hi e
  have ha := (Multiset.nodup_cons.mp (hc ▸ h.links.chained_nodup)).1
  have hsize : (lrucRemoveItem c l₁.getLast? a i).hashTableSize = c.hashTableSize := by
    cases l₁.getLast? <;> rfl
  unfold entries
  rw [hsize, hc, Multiset.map_cons, Multiset.erase_cons_head]
  refine Multiset.map_congr rfl fun b hb => ?_
  obtain ⟨p, hp⟩ : ∃ p, (lrucRemoveItem c l₁.getLast? a i).heap b =
    { c.heap b with next := p } := lrucRemoveItem_heap (ne_of_mem_of_not_mem hb ha)
  rw [hp]; rfl

/-- **`lruc_remove_item`** removes an entry. -/
theorem Rep.remove_refines (h : c.Rep chains free) {i : UInt32}
    (e : chains i.toNat = l₁ ++ a :: l₂) :
    (lrucRemoveItem c l₁.getLast? a i).Refines
      ((c.table chains free).evict (c.heap a).entry) := by
  refine ⟨_, _, h.remove e, ?_⟩
  have he := h.entries_remove e
  obtain ⟨h₁, h₂, h₃, h₄⟩ := h.links.remove_ledger e
  simp only [table, Table.evict, he, h₁, h₂, h₃, h₄, List.length_cons, LrucItem.entry]

/-- The walk along a bucket, with more fuel than entries. -/
theorem Rep.seek_returns_of_card (h : c.Rep chains free)
    (hf : (c.table chains free).entries.card < fuel) (key : Option Buffer) (keyLength : UInt32)
    (i : Nat) : ∃ s, c.seek fuel key keyLength (c.bucket i) = .ok s :=
  h.seek_returns (Nat.lt_of_le_of_lt (h.links.length_le i) (by simpa [table, entries] using hf))

/-- **`lruc_remove_lru_item`** removes an entry with the least access count, if there is one. -/
theorem Refines.evict (h : c.Refines t) (hr : lrucRemoveLruItem fuel c = .ok c') :
    (t.entries = 0 ∧ c' = c) ∨
    ∃ e ∈ t.entries, (∀ e' ∈ t.entries, e.accessCount ≤ e'.accessCount) ∧
      c'.Refines (t.evict e) := by
  obtain ⟨chains, free, h, rfl⟩ := h
  rcases h.links.evict hr with ⟨hnil, rfl⟩ | ⟨i, l₁, a, l₂, e, hmin, rfl⟩
  · exact .inl ⟨by simp [table, entries, chained, hnil], rfl⟩
  · have ha : a ∈ chains i.toNat := by simp [e]
    refine .inr ⟨(c.heap a).entry, h.mem_entries.mpr ⟨_, a, ha, rfl⟩, ?_, h.remove_refines e⟩
    intro e' he'
    obtain ⟨j, b, hb, rfl⟩ := h.mem_entries.mp he'
    exact hmin j b hb

theorem Refines.evict_returns (h : c.Refines t) (hf : t.entries.card < fuel) :
    ∃ c', lrucRemoveLruItem fuel c = .ok c' := by
  obtain ⟨chains, free, h, rfl⟩ := h
  exact h.links.evict_returns (by simpa [table, entries] using hf)

/-- The keys of a table are distinct. -/
theorem Refines.key_inj (h : c.Refines t) {e e' : LrucItem} (he : e ∈ t.entries)
    (he' : e' ∈ t.entries) (hk : itemKey e = itemKey e') : e = e' := by
  obtain ⟨chains, free, h, rfl⟩ := h
  obtain ⟨i, a, ha, rfl⟩ := h.mem_entries.mp he
  obtain ⟨j, b, hb, rfl⟩ := h.mem_entries.mp he'
  rw [h.distinct i j a ha b hb hk]

/-! ## `lruc_get` and `lruc_delete` -/

theorem Rep.touch (h : c.Rep chains free) (a : Addr) : (c.touch a).Rep chains free := by
  refine h.frame rfl rfl rfl rfl (Nat.le_refl _) fun b _ => ?_
  by_cases hb : b = a
  · subst hb; simp [Lruc.touch, next]
  · simp [Lruc.touch, next, hb]

/-- A chained item used. -/
theorem Rep.touch_refines (h : c.Rep chains free) (ha : a ∈ chains j) :
    (c.touch a).Refines ((c.table chains free).use (c.heap a).entry) := by
  refine ⟨_, _, h.touch a, ?_⟩
  have he : (c.touch a).entries chains = ((c.touch a).heap a).entry ::ₘ
      (c.entries chains).erase (c.heap a).entry :=
    h.entries_edit ha rfl fun b hb => by simp [Lruc.touch, hb]
  simp only [table, Table.use, he]
  simp [Lruc.touch, LrucItem.entry]

/-- What `lruc_get` does: on a hit it gives the value of the entry and uses it. -/
theorem lrucGet_refines (h : c.Refines t) {key value : Option Buffer} {keyLength : UInt32}
    {r : LrucError × Option Buffer × Lruc} (hr : lrucGet fuel c key keyLength value = .ok r) :
    (key.isNone ∨ keyLength = 0) ∧ r = (.missingKey, value, c) ∨
    (key.isSome ∧ keyLength ≠ 0) ∧
      ((∃ e ∈ t.entries, itemKey e = readBytes key keyLength.toNat ∧
        ∃ c', r = (.noError, e.value, c') ∧ c'.Refines (t.use e)) ∨
      (∀ e ∈ t.entries, itemKey e ≠ readBytes key keyLength.toNat) ∧ r = (.noError, none, c)) := by
  obtain ⟨chains, free, h, rfl⟩ := h
  unfold lrucGet at hr
  split at hr
  · next hk => exact .inl ⟨hk, (Except.ok.inj hr).symm⟩
  · next hk =>
    rw [not_or] at hk
    refine .inr ⟨⟨by simpa [Option.isSome_iff_ne_none] using hk.1, hk.2⟩, ?_⟩
    obtain ⟨s, hs, hr⟩ := Exec.bind_ok.mp hr
    rcases h.seek hs with ⟨l₁, a, l₂, e, hkey, rfl⟩ | ⟨hkey, rfl⟩
    · have ha : a ∈ chains (lrucHash c key keyLength).toNat := by simp [e]
      exact .inl ⟨(c.heap a).entry, h.mem_entries.mpr ⟨_, a, ha, rfl⟩, hkey, _,
        (Except.ok.inj hr).symm, h.touch_refines ha⟩
    · refine .inr ⟨fun e he hk' => ?_, (Except.ok.inj hr).symm⟩
      obtain ⟨j, a, ha, rfl⟩ := h.mem_entries.mp he
      rw [itemKey_entry] at hk'
      exact hkey a (h.mem_bucket ha hk' ▸ ha) hk'

theorem lrucGet_returns (h : c.Refines t) (hf : t.entries.card < fuel) (key value : Option Buffer)
    (keyLength : UInt32) : ∃ r, lrucGet fuel c key keyLength value = .ok r := by
  obtain ⟨chains, free, h, rfl⟩ := h
  unfold lrucGet
  split
  · exact ⟨_, rfl⟩
  · obtain ⟨s, hs⟩ := h.seek_returns_of_card hf key keyLength (lrucHash c key keyLength).toNat
    rcases s with ⟨_, _ | a⟩ <;> exact ⟨_, Exec.bind_ok.mpr ⟨_, hs, rfl⟩⟩

/-- What `lruc_delete` does: the entry with the key leaves the table. -/
theorem lrucDelete_refines (h : c.Refines t) {key : Option Buffer} {keyLength : UInt32}
    {r : LrucError × Lruc} (hr : lrucDelete fuel c key keyLength = .ok r) :
    r.2 = c ∨ ∃ e ∈ t.entries, itemKey e = readBytes key keyLength.toNat ∧
      r.2.Refines (t.evict e) := by
  obtain ⟨chains, free, h, rfl⟩ := h
  unfold lrucDelete at hr
  split at hr
  · exact .inl (by rw [← Except.ok.inj hr])
  · obtain ⟨s, hs, hr⟩ := Exec.bind_ok.mp hr
    rcases h.seek hs with ⟨l₁, a, l₂, e, hkey, rfl⟩ | ⟨-, rfl⟩
    · have ha : a ∈ chains (lrucHash c key keyLength).toNat := by simp [e]
      refine .inr ⟨(c.heap a).entry, h.mem_entries.mpr ⟨_, a, ha, rfl⟩, hkey, ?_⟩
      rw [← Except.ok.inj hr]
      exact h.remove_refines e
    · exact .inl (by rw [← Except.ok.inj hr])

theorem lrucDelete_returns (h : c.Refines t) (hf : t.entries.card < fuel) (key : Option Buffer)
    (keyLength : UInt32) : ∃ r, lrucDelete fuel c key keyLength = .ok r := by
  obtain ⟨chains, free, h, rfl⟩ := h
  unfold lrucDelete
  split
  · exact ⟨_, rfl⟩
  · obtain ⟨s, hs⟩ := h.seek_returns_of_card hf key keyLength (lrucHash c key keyLength).toNat
    rcases s with ⟨_, _ | a⟩ <;> exact ⟨_, Exec.bind_ok.mpr ⟨_, hs, rfl⟩⟩

/-! ## `lruc_set` -/

section Set

variable {key value : Option Buffer} {keyLength valueLength : UInt32}

/-- The value of an item replaced. -/
theorem Rep.updateItem_refines (h : c.Rep chains free) (ha : a ∈ chains j) :
    ((c.updateItem a value valueLength).1.touch a).Refines
      ((c.table chains free).replace (c.heap a).entry value valueLength) := by
  have hrep : (c.updateItem a value valueLength).1.Rep chains free := by
    refine h.frame rfl rfl rfl rfl (Nat.le_refl _) fun b _ => ?_
    by_cases hb : b = a
    · subst hb; simp [updateItem, setItem, next]
    · simp [updateItem, setItem, next, hb]
  refine ⟨_, _, hrep.touch a, ?_⟩
  have he : ((c.updateItem a value valueLength).1.touch a).entries chains =
      (((c.updateItem a value valueLength).1.touch a).heap a).entry ::ₘ
        (c.entries chains).erase (c.heap a).entry :=
    h.entries_edit ha rfl fun b hb => by simp [Lruc.touch, updateItem, setItem, hb]
  simp only [table, Table.replace, he]
  simp [Lruc.touch, updateItem, setItem, LrucItem.entry]

theorem pop_heap (c : Lruc) {b : Addr} (hb : b ≠ (lrucPopOrCreateItem c).1) :
    (lrucPopOrCreateItem c).2.heap b = c.heap b := by
  unfold lrucPopOrCreateItem at hb ⊢
  cases hp : c.freeItems with
  | none => rw [hp] at hb; simp [setItem, show b ≠ c.brk from hb]
  | some a => rfl

theorem pop_fields (c : Lruc) :
    (lrucPopOrCreateItem c).2.hashTableSize = c.hashTableSize ∧
    (lrucPopOrCreateItem c).2.seed = c.seed ∧
    (lrucPopOrCreateItem c).2.accessCount = c.accessCount ∧
    (lrucPopOrCreateItem c).2.freeMemory = c.freeMemory ∧
    (lrucPopOrCreateItem c).2.totalMemory = c.totalMemory ∧
    (lrucPopOrCreateItem c).2.freed = c.freed := by
  unfold lrucPopOrCreateItem
  cases c.freeItems <;> exact ⟨rfl, rfl, rfl, rfl, rfl, rfl⟩

theorem linkAfter_ledger (c : Lruc) (prev : Option Addr) (i : UInt32) (a : Addr) :
    (c.linkAfter prev i a).accessCount = c.accessCount ∧
    (c.linkAfter prev i a).freeMemory = c.freeMemory ∧
    (c.linkAfter prev i a).totalMemory = c.totalMemory ∧
    (c.linkAfter prev i a).freed = c.freed := by
  cases prev <;> exact ⟨rfl, rfl, rfl, rfl⟩

/-- A new item linked in and used. -/
theorem Rep.link_table (h : c.Rep chains free) {i : UInt32} (hi : i.toNat < c.hashTableSize.toNat)
    (ha : ∀ j, a ∉ chains j) :
    ((c.linkAfter (chains i.toNat).getLast? i a).touch a).table
        (Function.update chains i.toNat (chains i.toNat ++ [a])) free =
      { c.table chains free with
        entries := { (c.heap a).entry with accessCount := c.accessCount + 1 } ::ₘ c.entries chains
        accessCount := c.accessCount + 1 } := by
  obtain ⟨hcount, hmem, htotal, hfreed⟩ := linkAfter_ledger c (chains i.toNat).getLast? i a
  have hentries := h.entries_link hi ha (chains i.toNat).getLast?
  simp only [table, hentries]
  simp [Lruc.touch, hcount, hmem, htotal, hfreed]

/-- An item inserted, when the free list has at most one item. -/
theorem Rep.insertItem_refines (h : c.Rep chains free) (hfree : free.length ≤ 1) {i : UInt32}
    (hi : lrucHash c key keyLength = i) (hkey : key.isSome) (hlen : keyLength ≠ 0)
    (hnew : ∀ j, ∀ b ∈ chains j, itemKey (c.heap b) ≠ readBytes key keyLength.toNat) :
    ((c.insertItem i (chains i.toNat).getLast? key keyLength value valueLength).1.touch
      (c.insertItem i (chains i.toNat).getLast? key keyLength value valueLength).2.1).Refines
      ((c.table chains free).insert key keyLength value valueLength) := by
  obtain ⟨hpop, ha, haf, hbrk, hnext⟩ := h.pop
  obtain ⟨f₁, f₂, f₃, f₄, f₅, f₆⟩ := pop_fields c
  have hheap := fun b hb => pop_heap c (b := b) hb
  unfold insertItem
  generalize lrucPopOrCreateItem c = p at *
  obtain ⟨a, c₁⟩ := p
  simp only at *
  have htail : free.tail = [] := List.eq_nil_of_length_eq_zero (by simp; omega)
  rw [htail, List.head?_nil] at hnext
  -- `c₂`: the fields of the new item are set; it is not linked in yet.
  generalize hc₂ : c₁.setItem a { c₁.heap a with value, key, valueLength, keyLength } = c₂
  have hrep : c₂.Rep chains free.tail := hc₂ ▸ hpop.setItem_fresh ha haf _
  have hne : ∀ j, ∀ b ∈ chains j, b ≠ a := fun j b hb => ne_of_mem_of_not_mem hb (ha j)
  have hother : ∀ j, ∀ b ∈ chains j, c₂.heap b = c.heap b := by
    intro j b hb
    rw [← hheap b (hne j b hb), ← hc₂]
    simp [setItem, hne j b hb]
  have hself : c₂.heap a = { c₁.heap a with value, key, valueLength, keyLength } := by
    rw [← hc₂]; simp [setItem]
  have hsize : c₂.hashTableSize = c.hashTableSize := by rw [← hc₂]; exact f₁
  have hseed : c₂.seed = c.seed := by rw [← hc₂]; exact f₂
  have hlink : (c₂.linkAfter (chains i.toNat).getLast? i a).Rep
      (Function.update chains i.toNat (chains i.toNat ++ [a])) free.tail := by
    refine hrep.link ha haf ?_ ?_ ?_ ?_ ?_ fun j b hb => ?_
    · rw [← hc₂]; exact hbrk
    · rw [next, hself]; exact hnext
    · rw [hself]; exact hkey
    · rw [hself]; exact hlen
    · rw [hself, ← hi]
      exact lrucHash_congr hseed hsize rfl
    · rw [hother j b hb, hself]
      exact hnew j b hb
  refine ⟨_, _, hlink.touch a, ?_⟩
  have hlt : i.toNat < c₂.hashTableSize.toNat := by
    rw [hsize, ← hi]
    exact lrucHash_lt h.nonempty _ _
  have hentries : c₂.entries chains = c.entries chains :=
    h.entries_congr hsize fun j b hb => by rw [hother j b hb]
  rw [hrep.link_table hlt ha, hentries, hself]
  subst hc₂
  simp [table, Table.insert, setItem, LrucItem.entry, f₃, f₄, f₅, f₆]

/-- `lruc_set` up to its eviction loop. -/
theorem Refines.linkItem (h : c.Refines t) {s : Option Addr × Option Addr}
    (hs : c.seek fuel key keyLength (c.bucket (lrucHash c key keyLength).toNat) = .ok s)
    (hkey : key.isSome) (hlen : keyLength ≠ 0)
    (hspare : (∀ e ∈ t.entries, itemKey e ≠ readBytes key keyLength.toNat) → t.spare ≤ 1) :
    ∃ t₁, t.Linked key keyLength value valueLength t₁
        (c.linkItem (lrucHash c key keyLength) s.1 s.2 key keyLength value valueLength).2.2 ∧
      ((c.linkItem (lrucHash c key keyLength) s.1 s.2 key keyLength value valueLength).1.touch
        (c.linkItem (lrucHash c key keyLength) s.1 s.2 key keyLength value valueLength).2.1).Refines
        t₁ := by
  obtain ⟨chains, free, h, rfl⟩ := h
  rcases h.seek hs with ⟨l₁, a, l₂, e, hk, rfl⟩ | ⟨hk, rfl⟩
  · have ha : a ∈ chains (lrucHash c key keyLength).toNat := by simp [e]
    exact ⟨_, .replaced (e := (c.heap a).entry) (h.mem_entries.mpr ⟨_, a, ha, rfl⟩) hk,
      h.updateItem_refines ha⟩
  · have hnew : ∀ j, ∀ b ∈ chains j, itemKey (c.heap b) ≠ readBytes key keyLength.toNat :=
      fun j b hb hkb => hk b (h.mem_bucket hb hkb ▸ hb) hkb
    have hnone : ∀ e ∈ (c.table chains free).entries, itemKey e ≠ readBytes key keyLength.toNat := by
      intro e he
      obtain ⟨j, b, hb, rfl⟩ := h.mem_entries.mp he
      exact hnew j b hb
    exact ⟨_, .inserted hnone, h.insertItem_refines (hspare hnone) rfl hkey hlen hnew⟩

/-- **The eviction loop**, when it ends. -/
theorem Refines.makeRoom (h : c.Refines t) {required : UInt32}
    (hr : c.makeRoom fuel required = .ok c') :
    ∃ t', Table.Evicts required.toUInt64 t t' ∧ c'.Refines t' := by
  unfold Lruc.makeRoom at hr
  split at hr
  · -- Every table of the loop is reached from `t`: what it evicts to, `t` evicts to.
    obtain ⟨⟨t', ht', hev⟩, hc⟩ := whileLoop_inv
      (fun s => ∃ t', s.Refines t' ∧ ∀ t'', Table.Evicts required.toUInt64 t' t'' →
        Table.Evicts required.toUInt64 t t'')
      (fun s s' ⟨t', hs, hev⟩ hc hb => by
        obtain ⟨chains, free, -, rfl⟩ := id hs
        rcases hs.evict hb with ⟨-, rfl⟩ | ⟨e, he, hmin, hs'⟩
        · exact ⟨_, hs, hev⟩
        · exact ⟨_, hs', fun t'' h'' => hev t'' (.step (of_decide_eq_true hc) he hmin h'')⟩)
      _ _ _ ⟨t, h, fun _ h => h⟩ hr
    obtain ⟨chains, free, -, rfl⟩ := id ht'
    exact ⟨_, hev _ (.done (UInt64.not_lt.mp (of_decide_eq_false hc))), ht'⟩
  · next hle =>
    cases hr
    obtain ⟨chains, free, -, rfl⟩ := id h
    refine ⟨_, .done (UInt64.not_lt.mp fun hlt => hle ⟨?_, hlt⟩), h⟩
    refine UInt32.pos_iff_ne_zero.mpr fun e => ?_
    subst e
    exact UInt64.not_lt_zero hlt

theorem Refines.makeRoom_returns (h : c.Refines t) {required : UInt32}
    (hroom : t.Room required.toUInt64) (hf : t.entries.card < fuel) :
    ∃ c', c.makeRoom fuel required = .ok c' := by
  unfold Lruc.makeRoom
  split
  · obtain ⟨c', hc', -⟩ := whileLoop_total
      (fun k s => ∃ t', s.Refines t' ∧ t'.entries.card = k ∧ k < fuel ∧ t'.Room required.toUInt64)
      (fun k s ⟨t', hs, hk, hkf, hroom⟩ hc => by
        obtain ⟨s', hb⟩ := hs.evict_returns (hk ▸ hkf)
        refine ⟨s', hb, ?_⟩
        obtain ⟨chains, free, -, rfl⟩ := id hs
        rcases hroom with hle | ⟨hne, hroom⟩
        · exact absurd (of_decide_eq_true hc) (UInt64.not_lt.mpr hle)
        · rcases hs.evict hb with ⟨hnil, -⟩ | ⟨e, he, -, hs'⟩
          · exact absurd hnil hne
          · have hlt := Multiset.card_erase_lt_of_mem he
            exact ⟨_, hk ▸ hlt, _, hs', rfl, by rw [hk] at hlt; exact Nat.lt_trans hlt hkf,
              hroom e he⟩)
      fuel _ c ⟨t, h, rfl, hf, hroom⟩ hf
    exact ⟨c', hc'⟩
  · exact ⟨c, rfl⟩

/-- The argument tests of `lruc_set`. -/
def SetAccepted (c : Lruc) (key : Option Buffer) (keyLength : UInt32) (value : Option Buffer)
    (valueLength : UInt32) : Prop :=
  (key.isSome ∧ keyLength ≠ 0) ∧ (value.isSome ∧ valueLength ≠ 0) ∧
    valueLength.toUInt64 ≤ c.totalMemory

instance : Decidable (c.SetAccepted key keyLength value valueLength) :=
  inferInstanceAs (Decidable (_ ∧ _))

/-- `lruc_set` on arguments that pass the tests. -/
theorem lrucSet_accepted (ha : c.SetAccepted key keyLength value valueLength) :
    lrucSet fuel c key keyLength value valueLength = (do
      let s ← c.seek fuel key keyLength (c.bucket (lrucHash c key keyLength).toNat)
      let r := c.linkItem (lrucHash c key keyLength) s.1 s.2 key keyLength value valueLength
      let c ← (r.1.touch r.2.1).makeRoom fuel r.2.2
      .ok (.noError, { c with freeMemory := c.freeMemory - r.2.2.toUInt64 })) := by
  obtain ⟨⟨hk, hkl⟩, ⟨hv, hvl⟩, hle⟩ := ha
  unfold lrucSet
  rw [if_neg (by simp [hkl, Option.isSome_iff_ne_none.mp hk]),
    if_neg (by simp [hvl, Option.isSome_iff_ne_none.mp hv]), if_neg (UInt64.not_lt.mpr hle)]

/-- `lruc_set` on arguments that fail a test: an error, and the cache is not changed. -/
theorem lrucSet_rejected (ha : ¬ c.SetAccepted key keyLength value valueLength) :
    ∃ e, e ≠ .noError ∧ ∀ fuel, lrucSet fuel c key keyLength value valueLength = .ok (e, c) := by
  unfold lrucSet
  split_ifs with h₁ h₂ h₃
  · exact ⟨.missingKey, by decide, fun _ => rfl⟩
  · exact ⟨.missingValue, by decide, fun _ => rfl⟩
  · exact ⟨.valueTooLarge, by decide, fun _ => rfl⟩
  · rw [not_or] at h₁ h₂
    refine absurd ⟨⟨?_, h₁.2⟩, ⟨?_, h₂.2⟩, UInt64.not_lt.mp h₃⟩ ha
    · simpa [Option.isSome_iff_ne_none] using h₁.1
    · simpa [Option.isSome_iff_ne_none] using h₂.1

/-- **What `lruc_set` does**, when it returns. -/
theorem lrucSet_refines (h : c.Refines t) (ha : c.SetAccepted key keyLength value valueLength)
    (hspare : (∀ e ∈ t.entries, itemKey e ≠ readBytes key keyLength.toNat) → t.spare ≤ 1)
    {r : LrucError × Lruc} (hr : lrucSet fuel c key keyLength value valueLength = .ok r) :
    r.1 = .noError ∧ ∃ t₁ required t₂, t.Linked key keyLength value valueLength t₁ required ∧
      Table.Evicts required.toUInt64 t₁ t₂ ∧ r.2.Refines (t₂.take required) := by
  rw [lrucSet_accepted ha] at hr
  obtain ⟨s, hs, hr⟩ := Exec.bind_ok.mp hr
  obtain ⟨t₁, hl, h₁⟩ := h.linkItem hs ha.1.1 ha.1.2 hspare
  obtain ⟨c₂, hc₂, hr⟩ := Exec.bind_ok.mp hr
  obtain ⟨t₂, hev, h₂⟩ := h₁.makeRoom hc₂
  cases hr
  refine ⟨rfl, t₁, _, t₂, hl, hev, ?_⟩
  obtain ⟨chains, free, h₂, rfl⟩ := h₂
  exact ⟨chains, free, h₂.frame rfl rfl rfl rfl (Nat.le_refl _) fun _ _ => ⟨rfl, rfl, rfl⟩, rfl⟩

theorem lrucSet_returns (h : c.Refines t) (ha : c.SetAccepted key keyLength value valueLength)
    (hspare : (∀ e ∈ t.entries, itemKey e ≠ readBytes key keyLength.toNat) → t.spare ≤ 1)
    (hroom : ∀ t₁ required, t.Linked key keyLength value valueLength t₁ required →
      t₁.Room required.toUInt64)
    (hf : t.entries.card + 1 < fuel) :
    ∃ r, lrucSet fuel c key keyLength value valueLength = .ok r := by
  rw [lrucSet_accepted ha]
  obtain ⟨s, hs⟩ : ∃ s, c.seek fuel key keyLength
      (c.bucket (lrucHash c key keyLength).toNat) = .ok s := by
    obtain ⟨chains, free, h, rfl⟩ := h
    exact h.seek_returns_of_card (Nat.lt_of_succ_lt hf) key keyLength _
  obtain ⟨t₁, hl, h₁⟩ := h.linkItem hs ha.1.1 ha.1.2 hspare
  obtain ⟨c₂, hc₂⟩ := h₁.makeRoom_returns (hroom _ _ hl) (Nat.lt_of_le_of_lt hl.card_le hf)
  exact ⟨_, Exec.bind_ok.mpr ⟨s, hs, Exec.bind_ok.mpr ⟨c₂, hc₂, rfl⟩⟩⟩

end Set

end Lruc

end Cnpv
