import Cnpv.Lru.Rep
import Mathlib.Algebra.BigOperators.Group.Finset.Piecewise
import Mathlib.Algebra.Order.BigOperators.Group.Finset
import Mathlib.Algebra.Order.Group.Multiset
import Mathlib.Tactic.Abel

/-!
# Walks along the chains: looking for a key, and the least recently used item

The loops of `ns_agent/lru.c` that follow the links, on a cache with `Lruc.Rep`, or only with
`Lruc.Links`:

* `Rep.seek`: the search for a key stops at the item with the key, or past the last item of the
  chain.
* `Links.evict`: `lruc_remove_lru_item` removes an item with the least access count, with the
  `prev` and the bucket of that item, or changes nothing when the table is empty
  (`lrucRemoveLruItem_removes_one`).

Fuel above the number of chained items is enough for each of them.
-/

namespace Cnpv

open CLib

namespace Lruc

variable {c c' : Lruc} {chains : Nat → List Addr} {free l l₁ l₂ : List Addr} {a : Addr}
  {i n fuel : Nat}

/-! ## The chained items -/

/-- The items of the chains below `n`. -/
def chained (n : Nat) (chains : Nat → List Addr) : Multiset Addr :=
  ∑ i ∈ Finset.range n, (chains i : Multiset Addr)

theorem mem_chained : a ∈ chained n chains ↔ ∃ i < n, a ∈ chains i := by
  simp [chained, Multiset.mem_sum]

theorem Links.mem_chained (h : c.Links chains free) :
    a ∈ chained c.hashTableSize.toNat chains ↔ ∃ i, a ∈ chains i := by
  rw [Lruc.mem_chained]
  exact ⟨fun ⟨i, _, ha⟩ => ⟨i, ha⟩, fun ⟨i, ha⟩ => ⟨i, h.lt_of_mem ha, ha⟩⟩

/-- How the chained items change with one chain. -/
theorem chained_update (hi : i < n) (l : List Addr) :
    chained n (Function.update chains i l) + chains i = chained n chains + l := by
  have hmem : i ∈ Finset.range n := Finset.mem_range.mpr hi
  have e : (fun j => (Function.update chains i l j : Multiset Addr)) =
      Function.update (fun j => (chains j : Multiset Addr)) i l := by
    funext j
    exact Function.apply_update (fun _ (x : List Addr) => (x : Multiset Addr)) chains i l j
  unfold chained
  rw [e, Finset.sum_update_of_mem hmem, ← Finset.sum_sdiff (Finset.singleton_subset_iff.mpr hmem),
    Finset.sum_singleton]
  abel

theorem chained_remove (hi : i < n) (e : chains i = l₁ ++ a :: l₂) :
    chained n chains = a ::ₘ chained n (Function.update chains i (l₁ ++ l₂)) := by
  have h : chained n (Function.update chains i (l₁ ++ l₂)) + chains i =
      chained n chains + (l₁ ++ l₂ : List Addr) := chained_update hi _
  have hc : ((l₁ ++ a :: l₂ : List Addr) : Multiset Addr) = a ::ₘ ((l₁ ++ l₂ : List Addr)) := by
    rw [Multiset.cons_coe]
    exact Multiset.coe_eq_coe.mpr List.perm_middle
  rw [e, hc, Multiset.add_cons, ← Multiset.cons_add] at h
  exact (add_right_cancel h).symm

theorem chained_append (hi : i < n) :
    chained n (Function.update chains i (chains i ++ [a])) = a ::ₘ chained n chains := by
  have h : chained n (Function.update chains i (chains i ++ [a])) + chains i =
      chained n chains + (chains i ++ [a] : List Addr) := chained_update hi _
  rw [← Multiset.coe_add, Multiset.coe_singleton, ← add_assoc, add_right_comm] at h
  rw [add_right_cancel h, add_comm, Multiset.singleton_add]

theorem Links.chained_nodup (h : c.Links chains free) :
    (chained c.hashTableSize.toNat chains).Nodup := by
  have e : chained c.hashTableSize.toNat chains =
      (Multiset.range c.hashTableSize.toNat).bind fun i => (chains i : Multiset Addr) := rfl
  rw [e, Multiset.nodup_bind]
  refine ⟨fun i _ => Multiset.coe_nodup.mpr (Chain.nodup (h.chain i)), ?_⟩
  refine Multiset.Nodup.pairwise (fun i _ j _ hij => ?_) (Multiset.nodup_range _)
  exact Multiset.disjoint_left.mpr fun hb hb' => h.disjoint i j hij hb hb'

theorem Links.length_le (h : c.Links chains free) (i : Nat) :
    (chains i).length ≤ (chained c.hashTableSize.toNat chains).card := by
  by_cases hi : i < c.hashTableSize.toNat
  · have hle := Finset.single_le_sum (f := fun i => (chains i : Multiset Addr))
      (fun _ _ => Multiset.zero_le _) (Finset.mem_range.mpr hi)
    exact Multiset.card_le_card hle
  · rw [h.chains_eq_nil (by omega)]; exact Nat.zero_le _

/-! ## Looking for a key -/

section Seek

variable {key : Option Buffer} {keyLength : UInt32}

/-- The search from the node after `l₀`, with the nodes `l` left. The induction is on `l`, so that
`prev` is the last node passed. -/
theorem seek_chain {p : Option Addr} (l₀ : List Addr) (hp : Chain c.next p l)
    (hf : l.length < fuel) :
    (∃ l₁ a l₂, l = l₁ ++ a :: l₂ ∧ itemKey (c.heap a) = readBytes key keyLength.toNat ∧
      whileLoop (fun s => s.2.any fun a => lrucCmpKeys (c.heap a) key keyLength != 0)
        (fun s => .ok (s.2, s.2.bind c.next)) fuel (l₀.getLast?, p) =
          .ok ((l₀ ++ l₁).getLast?, some a)) ∨
    ((∀ b ∈ l, itemKey (c.heap b) ≠ readBytes key keyLength.toNat) ∧
      whileLoop (fun s => s.2.any fun a => lrucCmpKeys (c.heap a) key keyLength != 0)
        (fun s => .ok (s.2, s.2.bind c.next)) fuel (l₀.getLast?, p) =
          .ok ((l₀ ++ l).getLast?, none)) := by
  obtain ⟨m, rfl⟩ : ∃ m, fuel = m + 1 := ⟨fuel - 1, by omega⟩
  induction l generalizing l₀ p m with
  | nil =>
    cases hp
    exact .inr ⟨by simp, by simp [whileLoop_succ]⟩
  | cons a l ih =>
    obtain ⟨rfl, hl⟩ := hp
    by_cases hk : itemKey (c.heap a) = readBytes key keyLength.toNat
    · exact .inl ⟨[], a, l, rfl, hk, by simp [whileLoop_succ, lrucCmpKeys_eq_zero.mpr hk]⟩
    · have hne : lrucCmpKeys (c.heap a) key keyLength ≠ 0 := fun e => hk (lrucCmpKeys_eq_zero.mp e)
      obtain ⟨m, rfl⟩ : ∃ k, m = k + 1 := ⟨m - 1, by simp at hf; omega⟩
      have hstep : whileLoop (fun s => s.2.any fun a => lrucCmpKeys (c.heap a) key keyLength != 0)
          (fun s => .ok (s.2, s.2.bind c.next)) (m + 1 + 1) (l₀.getLast?, some a) =
          whileLoop (fun s => s.2.any fun a => lrucCmpKeys (c.heap a) key keyLength != 0)
          (fun s => .ok (s.2, s.2.bind c.next)) (m + 1) ((l₀ ++ [a]).getLast?, c.next a) := by
        rw [whileLoop_succ]
        simp [hne]
      rw [hstep]
      rcases ih (l₀ ++ [a]) hl m (by simp at hf; omega) with ⟨l₁, b, l₂, rfl, hb, hw⟩ | ⟨hl, hw⟩
      · exact .inl ⟨a :: l₁, b, l₂, rfl, hb, by simpa using hw⟩
      · exact .inr ⟨by simpa [hk] using hl, by simpa using hw⟩

/-- **The search for a key** in bucket `i`: it stops at the item with the key, after `prev`, or at
the end of the chain. -/
theorem Rep.seek (h : c.Rep chains free) {r : Option Addr × Option Addr}
    (hr : c.seek fuel key keyLength (c.bucket i) = .ok r) :
    (∃ l₁ a l₂, chains i = l₁ ++ a :: l₂ ∧ itemKey (c.heap a) = readBytes key keyLength.toNat ∧
      r = (l₁.getLast?, some a)) ∨
    ((∀ b ∈ chains i, itemKey (c.heap b) ≠ readBytes key keyLength.toNat) ∧
      r = ((chains i).getLast?, none)) := by
  have hlt : (chains i).length < fuel + ((chains i).length + 1) := by omega
  have hr' := whileLoop_mono (Nat.le_add_right fuel ((chains i).length + 1)) hr
  rcases seek_chain [] (h.chain i) hlt with ⟨l₁, a, l₂, e, hk, hw⟩ | ⟨hl, hw⟩
  · exact .inl ⟨l₁, a, l₂, e, hk, by simpa using (Except.ok.inj (hw.symm.trans hr')).symm⟩
  · exact .inr ⟨hl, by simpa using (Except.ok.inj (hw.symm.trans hr')).symm⟩

theorem Rep.seek_returns (h : c.Rep chains free) (hf : (chains i).length < fuel) :
    ∃ r, c.seek fuel key keyLength (c.bucket i) = .ok r := by
  rcases seek_chain [] (h.chain i) hf with ⟨_, _, _, -, -, hw⟩ | ⟨-, hw⟩ <;> exact ⟨_, hw⟩

end Seek

/-! ## The least recently used item -/

/-- What the scan knows after the items in `S`: it found none, or one with the least access count,
with its place. -/
def ScanInv (c : Lruc) (chains : Nat → List Addr) (S : Addr → Prop) (m : LruScan) : Prop :=
  (m = {} ∧ ∀ a, ¬ S a) ∨ ∃ i l₁ a l₂, i < c.hashTableSize.toNat ∧ chains i = l₁ ++ a :: l₂ ∧
    m = ⟨some a, l₁.getLast?, UInt32.ofNat i, (c.heap a).accessCount⟩ ∧
    ∀ b, S b → (c.heap a).accessCount ≤ (c.heap b).accessCount

theorem ScanInv.congr {S S' : Addr → Prop} {m : LruScan} (h : ScanInv c chains S m)
    (e : ∀ b, S' b ↔ S b) : ScanInv c chains S' m := by
  rcases h with ⟨rfl, hS⟩ | ⟨i, l₁, a, l₂, hi, hl, rfl, hS⟩
  · exact .inl ⟨rfl, fun a => mt (e a).mp (hS a)⟩
  · exact .inr ⟨i, l₁, a, l₂, hi, hl, rfl, fun b hb => hS b ((e b).mp hb)⟩

/-- One item visited. The second test of the loop takes an item when the minimum is still -1. -/
theorem ScanInv.visit {S : Addr → Prop} {m : LruScan} (h : ScanInv c chains S m)
    (hi : i < c.hashTableSize.toNat) (e : chains i = l₁ ++ a :: l₂) :
    ScanInv c chains (fun b => S b ∨ b = a) (m.visit c (UInt32.ofNat i) l₁.getLast? a) := by
  unfold LruScan.visit
  rcases h with ⟨rfl, hS⟩ | ⟨j, l₁', a', l₂', hj, hl, rfl, hS⟩
  · rw [if_pos (.inr rfl)]
    refine .inr ⟨i, l₁, a, l₂, hi, e, rfl, ?_⟩
    rintro b (hb | rfl)
    · exact absurd hb (hS b)
    · exact UInt64.le_refl _
  · split
    · next hlt =>
      have hle : (c.heap a).accessCount ≤ (c.heap a').accessCount := by
        rcases hlt with hlt | heq
        · exact UInt64.le_of_lt hlt
        · have := (c.heap a).accessCount.toNat_lt
          rw [UInt64.le_iff_toNat_le, show (c.heap a').accessCount = _ from heq]
          exact Nat.le_of_lt_succ this
      refine .inr ⟨i, l₁, a, l₂, hi, e, rfl, ?_⟩
      rintro b (hb | rfl)
      · exact UInt64.le_trans hle (hS b hb)
      · exact UInt64.le_refl _
    · next hlt =>
      refine .inr ⟨j, l₁', a', l₂', hj, hl, rfl, ?_⟩
      rintro b (hb | rfl)
      · exact hS b hb
      · exact UInt64.not_lt.mp fun hlt' => hlt (.inl hlt')

/-- The inner loop from the node after `l₁`, with the nodes `l` left. -/
theorem scan_from {S : Addr → Prop} {m : LruScan} {p : Option Addr} (l₁ : List Addr)
    (hi : i < c.hashTableSize.toNat) (e : chains i = l₁ ++ l) (hp : Chain c.next p l)
    (hf : l.length < fuel) (h : ScanInv c chains S m) :
    ∃ s, whileLoop (fun s => s.2.2.isSome) (scanItem c (UInt32.ofNat i)) fuel
        (m, l₁.getLast?, p) = .ok s ∧
      ScanInv c chains (fun b => S b ∨ b ∈ l) s.1 := by
  induction l generalizing S m l₁ p fuel with
  | nil =>
    obtain ⟨k, rfl⟩ : ∃ k, fuel = k + 1 := ⟨fuel - 1, by simp at hf; omega⟩
    cases hp
    exact ⟨_, rfl, h.congr (by simp)⟩
  | cons a l ih =>
    obtain ⟨k, rfl⟩ : ∃ k, fuel = k + 1 := ⟨fuel - 1, by simp at hf; omega⟩
    obtain ⟨rfl, hl⟩ := hp
    obtain ⟨s, hs, hinv⟩ := ih (l₁ ++ [a]) (by simpa using e) hl (by simp at hf; omega)
      (h.visit hi e)
    refine ⟨s, ?_, hinv.congr fun b => by simp [or_assoc]⟩
    rw [List.getLast?_append, List.getLast?_singleton] at hs
    exact hs

theorem Links.scanChain (h : c.Links chains free) {S : Addr → Prop} {m : LruScan}
    (hi : i < c.hashTableSize.toNat) (hf : (chains i).length < fuel) (hm : ScanInv c chains S m) :
    ∃ m', scanChain fuel c (UInt32.ofNat i) m = .ok m' ∧
      ScanInv c chains (fun b => S b ∨ b ∈ chains i) m' := by
  have hc := h.chain i
  have hlt : i < 2 ^ 32 := Nat.lt_trans hi c.hashTableSize.toNat_lt
  obtain ⟨s, hs, hinv⟩ := scan_from [] hi rfl hc hf hm
  refine ⟨s.1, ?_, hinv⟩
  unfold Cnpv.scanChain
  rw [UInt32.toNat_ofNat_of_lt' hlt]
  simp only [List.getLast?_nil] at hs
  rw [hs]
  rfl

/-- The outer loop over the first `k` buckets. -/
theorem Links.scanTable (h : c.Links chains free) (hf : ∀ i, (chains i).length < fuel) (k : Nat)
    (hk : k ≤ c.hashTableSize.toNat) :
    ∃ m, runFrom (fun m i => Cnpv.scanChain fuel c (UInt32.ofNat i) m) {} (List.range k) = .ok m ∧
      ScanInv c chains (fun b => ∃ i < k, b ∈ chains i) m := by
  induction k with
  | zero => exact ⟨{}, rfl, .inl ⟨rfl, by simp⟩⟩
  | succ k ih =>
    obtain ⟨m, hm, hinv⟩ := ih (by omega)
    obtain ⟨m', hm', hinv'⟩ := h.scanChain (i := k) (by omega) (hf k) hinv
    refine ⟨m', ?_, hinv'.congr fun b => ?_⟩
    · rw [List.range_succ, runFrom_append, hm]
      simp [runFrom_cons, hm']
    · simp only [Nat.lt_succ_iff_lt_or_eq, or_and_right, exists_or, exists_eq_left]

theorem lrucRemoveLruItem_mono {m : Nat} (hnm : n ≤ m)
    (hr : lrucRemoveLruItem n c = .ok c') : lrucRemoveLruItem m c = .ok c' := by
  unfold lrucRemoveLruItem at hr ⊢
  obtain ⟨s, hs, hr⟩ := Exec.bind_ok.mp hr
  refine Exec.bind_ok.mpr ⟨s, runFrom_mono (fun s i s' hi => ?_) hs, hr⟩
  obtain ⟨r, hr, hs'⟩ := Exec.bind_ok.mp hi
  exact Exec.bind_ok.mpr ⟨r, whileLoop_mono hnm hr, hs'⟩

/-- `lruc_remove_lru_item` with enough fuel. -/
theorem Links.evict_total (h : c.Links chains free) (hf : ∀ i, (chains i).length < fuel) :
    ((∀ i, chains i = []) ∧ lrucRemoveLruItem fuel c = .ok c) ∨
    ∃ (i : UInt32) (l₁ : List Addr) (a : Addr) (l₂ : List Addr),
      chains i.toNat = l₁ ++ a :: l₂ ∧
      (∀ j, ∀ b ∈ chains j, (c.heap a).accessCount ≤ (c.heap b).accessCount) ∧
      lrucRemoveLruItem fuel c = .ok (lrucRemoveItem c l₁.getLast? a i) := by
  obtain ⟨m, hm, hinv⟩ := h.scanTable hf _ (Nat.le_refl _)
  unfold lrucRemoveLruItem
  rw [hm]
  rcases hinv with ⟨rfl, hS⟩ | ⟨i, l₁, a, l₂, hi, e, rfl, hS⟩
  · refine .inl ⟨fun i => List.eq_nil_iff_forall_not_mem.mpr fun b hb => ?_, rfl⟩
    exact hS b ⟨i, h.lt_of_mem hb, hb⟩
  · have hlt : i < 2 ^ 32 := Nat.lt_trans hi c.hashTableSize.toNat_lt
    refine .inr ⟨UInt32.ofNat i, l₁, a, l₂, ?_, fun j b hb => hS b ⟨j, h.lt_of_mem hb, hb⟩, rfl⟩
    rw [UInt32.toNat_ofNat_of_lt' hlt, e]

/-- **`lruc_remove_lru_item`** removes an item with the least access count, if there is one. -/
theorem Links.evict (h : c.Links chains free) (hr : lrucRemoveLruItem fuel c = .ok c') :
    ((∀ i, chains i = []) ∧ c' = c) ∨
    ∃ (i : UInt32) (l₁ : List Addr) (a : Addr) (l₂ : List Addr),
      chains i.toNat = l₁ ++ a :: l₂ ∧
      (∀ j, ∀ b ∈ chains j, (c.heap a).accessCount ≤ (c.heap b).accessCount) ∧
      c' = lrucRemoveItem c l₁.getLast? a i := by
  have hf : ∀ i, (chains i).length <
      fuel + ((chained c.hashTableSize.toNat chains).card + 1) := by
    intro i
    have := h.length_le i
    omega
  have hr' := lrucRemoveLruItem_mono
    (Nat.le_add_right fuel ((chained c.hashTableSize.toNat chains).card + 1)) hr
  rcases h.evict_total hf with ⟨hnil, he⟩ | ⟨i, l₁, a, l₂, e, hmin, he⟩
  · exact .inl ⟨hnil, Except.ok.inj (hr'.symm.trans he)⟩
  · exact .inr ⟨i, l₁, a, l₂, e, hmin, Except.ok.inj (hr'.symm.trans he)⟩

theorem Links.evict_returns (h : c.Links chains free)
    (hf : (chained c.hashTableSize.toNat chains).card < fuel) :
    ∃ c', lrucRemoveLruItem fuel c = .ok c' := by
  have hf' : ∀ i, (chains i).length < fuel := fun i => Nat.lt_of_le_of_lt (h.length_le i) hf
  rcases h.evict_total hf' with ⟨-, he⟩ | ⟨_, _, _, _, -, -, he⟩ <;> exact ⟨_, he⟩

/-- **Eviction removes exactly the least recently used item.** With enough fuel, on a cache whose links
are in order: an empty table stays as it is; else one item with the least access count leaves its
chain, the other items keep their chains, their order and their fields, the free memory grows by the
length of the value, and the item is the first of the free list. -/
theorem lrucRemoveLruItem_removes_one (h : c.Links chains free) :
    ∃ n, ∀ fuel, n ≤ fuel →
      ((∀ i, chains i = []) → lrucRemoveLruItem fuel c = .ok c) ∧
      ((∃ i, chains i ≠ []) → ∃ (i : UInt32) (l₁ : List Addr) (a : Addr) (l₂ : List Addr) (c' : Lruc),
        chains i.toNat = l₁ ++ a :: l₂ ∧
        (∀ j, ∀ b ∈ chains j, (c.heap a).accessCount ≤ (c.heap b).accessCount) ∧
        lrucRemoveLruItem fuel c = .ok c' ∧
        c'.Links (Function.update chains i.toNat (l₁ ++ l₂)) (a :: free) ∧
        c'.freeMemory = c.freeMemory + (c.heap a).valueLength.toUInt64 ∧
        ∀ b, b ≠ a → ∃ p, c'.heap b = { c.heap b with next := p }) := by
  refine ⟨(chained c.hashTableSize.toNat chains).card + 1, fun fuel hn => ?_⟩
  have hf : ∀ i, (chains i).length < fuel := fun i => Nat.lt_of_le_of_lt (h.length_le i) hn
  rcases h.evict_total hf with ⟨hnil, he⟩ | ⟨i, l₁, a, l₂, e, hmin, he⟩
  · exact ⟨fun _ => he, fun ⟨i, hi⟩ => absurd (hnil i) hi⟩
  · refine ⟨fun hnil => ?_, fun _ => ⟨i, l₁, a, l₂, _, e, hmin, he, h.remove e, ?_, ?_⟩⟩
    · have hne : chains i.toNat ≠ [] := by rw [e]; simp
      exact absurd (hnil _) hne
    · exact (h.remove_ledger e).2.1
    · exact fun b hb => lrucRemoveItem_heap hb

/-- A cache with one bucket, whose second item was used least recently. -/
def threeItems : Lruc where
  items := [some 0]
  accessCount := 9
  freeMemory := 0
  totalMemory := 60
  averageItemLength := 60
  hashTableSize := 1
  seed := 0
  heap a :=
    { valueLength := 20, accessCount := if a = 1 then 3 else 7, next := if a < 2 then some (a + 1) else none }
  brk := 3

def threeChains (i : Nat) : List Addr := if i = 0 then [0, 1, 2] else []

theorem links_threeItems : threeItems.Links threeChains [] where
  slots := rfl
  chain i := by
    cases i with
    | zero => exact ⟨rfl, rfl, rfl, rfl⟩
    | succ i => rfl
  freeChain := rfl
  disjoint i j hij := by
    unfold threeChains
    split_ifs with hi hj
    · exact absurd (hi.trans hj.symm) hij
    · simp
    · simp
    · simp
  disjointFree i := List.disjoint_nil_right _

/-- An eviction from it. -/
theorem lrucRemoveLruItem_removes_one_of_three :
    ∃ n, ∀ fuel, n ≤ fuel → ∃ (i : UInt32) (l₁ : List Addr) (a : Addr) (l₂ : List Addr) (c' : Lruc),
      threeChains i.toNat = l₁ ++ a :: l₂ ∧ lrucRemoveLruItem fuel threeItems = .ok c' ∧
      c'.Links (Function.update threeChains i.toNat (l₁ ++ l₂)) [a] ∧ c'.freeMemory = 20 := by
  obtain ⟨n, hn⟩ := lrucRemoveLruItem_removes_one links_threeItems
  refine ⟨n, fun fuel hfuel => ?_⟩
  obtain ⟨i, l₁, a, l₂, c', e, -, he, hlinks, hfree, -⟩ :=
    (hn fuel hfuel).2 ⟨0, List.cons_ne_nil _ _⟩
  exact ⟨i, l₁, a, l₂, c', e, he, hlinks, hfree⟩

end Lruc

end Cnpv
