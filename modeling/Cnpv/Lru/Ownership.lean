import Cnpv.Lru.Budget
import Cnpv.Lru.Buffers

/-!
# Who frees the buffers that `lruc_set` is given

A caller hands over two buffers with each `lruc_set` that replies `LRUC_NO_ERROR`. `Handover` is a
cache with the list of these; `Handover.Owns`: the ones that are not freed are the buffers of the
chained items.

* A set of a key that is cached replaces the value and keeps the key of the item, so that nobody
  has the new key any more (`Linked.handed`).
* `lruc_free` frees the items, and no buffer (`Rep.lrucFree`).

The proofs count buffers: those handed over are those of the table (`Table.handed`) and the lost
ones (`Handover.Accounts`), and a run loses none as long as every set has a new key. With that
`owns_run_iff` says when the caller's buffers are all freed.
-/

namespace Cnpv

open CLib

/-! ## `lruc_free` -/

/-- What `lruc_free` leaves: the items that it freed, in order, and the ledger of the buffers. -/
structure Released where
  items : List Addr
  buffers : List Nat
  deriving DecidableEq, Repr

/-- The body of the inner loop; its state is the items that are freed, and `item`. -/
def freeItem (c : Lruc) (s : List Addr × Option Addr) : Exec (List Addr × Option Addr) :=
  s.2.elim (.ok s) fun a =>
    if a ∈ s.1 then .error (.undefined .useAfterFree) else .ok (s.1 ++ [a], c.next a)

/-- The inner loop, over the chain of bucket `i`. -/
def freeBucket (fuel : Nat) (c : Lruc) (items : List Addr) (i : Nat) : Exec (List Addr) :=
  Prod.fst <$> whileLoop (fun s => s.2.isSome) (freeItem c) fuel (items, c.bucket i)

/-- `lruc_free` -/
def lrucFree (fuel : Nat) (c : Lruc) : Exec (LrucError × Released) := do
  let items ← runFrom (freeBucket fuel c) [] (List.range c.hashTableSize.toNat)
  .ok (.noError, { items, buffers := c.freed })

/-- `lruc_free` frees no buffer. -/
theorem lrucFree_ledger {fuel : Nat} {c : Lruc} {r : LrucError × Released}
    (h : lrucFree fuel c = .ok r) : r.2.buffers = c.freed := by
  obtain ⟨items, -, h⟩ := Exec.bind_ok.mp h
  cases h
  rfl

namespace Lruc

variable {c : Lruc} {chains : Nat → List Addr} {free items l : List Addr} {p : Option Addr}
  {fuel : Nat}

theorem freeItems_ok (h : Chain c.next p l) (hnd : (items ++ l).Nodup) (hf : l.length < fuel) :
    whileLoop (fun s => s.2.isSome) (freeItem c) fuel (items, p) = .ok (items ++ l, none) := by
  induction l generalizing items p fuel with
  | nil =>
    obtain ⟨n, rfl⟩ : ∃ n, fuel = n + 1 := ⟨fuel - 1, by simp at hf; omega⟩
    rw [Seg.nil_iff.mp h, List.append_nil]
    rfl
  | cons a l ih =>
    obtain ⟨n, rfl⟩ : ∃ n, fuel = n + 1 := ⟨fuel - 1, by simp at hf; omega⟩
    obtain ⟨rfl, hl⟩ := h
    have hnd' : (items ++ [a] ++ l).Nodup := by rwa [List.append_assoc]
    have ha : a ∉ items := fun ha => (List.nodup_append.mp hnd).2.2 a ha a (by simp) rfl
    have hbody : freeItem c (items, some a) = .ok (items ++ [a], c.next a) := if_neg ha
    rw [whileLoop_succ, if_pos (by rfl), hbody, Exec.ok_bind,
      ih hl hnd' (Nat.lt_of_succ_lt_succ hf), List.append_assoc]
    rfl

/-- The outer loop frees the items of the chains. -/
theorem Links.freeTable (h : c.Links chains free) (hf : ∀ i, (chains i).length < fuel)
    {is : List Nat} (hnd : (items ++ is.flatMap chains).Nodup) :
    runFrom (freeBucket fuel c) items is = .ok (items ++ is.flatMap chains) := by
  induction is generalizing items with
  | nil => rw [List.flatMap_nil, List.append_nil]; rfl
  | cons i is ih =>
    rw [List.flatMap_cons, ← List.append_assoc] at hnd
    have hchain : freeBucket fuel c items i = .ok (items ++ chains i) :=
      Exec.map_ok.mpr ⟨_, freeItems_ok (h.chain i) (List.nodup_append.mp hnd).1 (hf i), rfl⟩
    rw [runFrom_cons, hchain, Exec.ok_bind, ih hnd, List.flatMap_cons, List.append_assoc]

/-- **`lruc_free`** frees each item once. The buffers of the items stay as they are. -/
theorem Links.lrucFree (h : c.Links chains free)
    (hf : (chained c.hashTableSize.toNat chains).card < fuel) :
    lrucFree fuel c =
      .ok (.noError, { items := (List.range c.hashTableSize.toNat).flatMap chains, buffers := c.freed }) := by
  have hitems : chained c.hashTableSize.toNat chains =
      ↑((List.range c.hashTableSize.toNat).flatMap chains) := Multiset.coe_bind _ _
  have hnd : ([] ++ (List.range c.hashTableSize.toNat).flatMap chains).Nodup :=
    Multiset.coe_nodup.mp (hitems ▸ h.chained_nodup)
  have hloop := h.freeTable (fun i => Nat.lt_of_le_of_lt (h.length_le i) hf) hnd
  exact Exec.bind_ok.mpr ⟨_, hloop, rfl⟩

end Lruc

/-! ## The buffers handed over -/

namespace LrucCall

/-- The reply of a call, and the cache after it. -/
def serve (fuel : Nat) (c : Lruc) : LrucCall → Exec (LrucError × Lruc)
  | .set key keyLength value valueLength => lrucSet fuel c key keyLength value valueLength
  | .get key keyLength => (fun r => (r.1, r.2.2)) <$> lrucGet fuel c key keyLength none
  | .delete key keyLength => lrucDelete fuel c key keyLength

/-- The buffers that a call is given for the cache to keep. -/
def buffers : LrucCall → List Nat
  | .set key _ value _ => freeBuffer value ++ freeBuffer key
  | _ => []

/-- An `lruc_set` that passes the argument tests has a key that is not in the cache. -/
def NewKey (c : Lruc) : LrucCall → Prop
  | .set key keyLength value valueLength =>
    c.SetAccepted key keyLength value valueLength → ¬ c.HasKey key keyLength
  | _ => True

end LrucCall

/-- A cache, and the buffers that were handed over to it. -/
structure Handover where
  cache : Lruc
  handed : List Nat := []

namespace Handover

/-- A call; its buffers are handed over if it replies `LRUC_NO_ERROR`. -/
def step (fuel : Nat) (s : Handover) (call : LrucCall) : Exec Handover := do
  let r ← call.serve fuel s.cache
  .ok { cache := r.2, handed := if r.1 = .noError then s.handed ++ call.buffers else s.handed }

/-- The buffers handed over and not yet freed are those of the chained items. -/
def Owns (s : Handover) : Prop :=
  ∀ p, (p ∈ s.handed ∧ p ∉ s.cache.freed) ↔
    ∃ a, s.cache.Chained a ∧ p ∈ (s.cache.heap a).buffers

end Handover

/-! ## What a call does to the buffers -/

namespace Table

variable {t t' t₁ : Table} {key value : Option Buffer} {keyLength valueLength required : UInt32}

theorem Evicts.handed {r : UInt64} (h : Evicts r t t') : t'.handed = t.handed := by
  induction h with
  | done _ => rfl
  | step _ he _ _ ih => exact ih.trans (handed_evict he)

/-- A set loses the key that it is given, unless it inserts it. -/
theorem Linked.handed (h : t.Linked key keyLength value valueLength t₁ required)
    (hkey : key.isSome) :
    ∃ lost : Multiset Nat,
      t.handed + ↑(freeBuffer value ++ freeBuffer key) = t₁.handed + lost ∧
      (lost = 0 ↔ ∀ e ∈ t.entries, itemKey e ≠ readBytes key keyLength.toNat) := by
  cases h with
  | inserted hnone => exact ⟨0, by rw [handed_insert, add_zero], iff_of_true rfl hnone⟩
  | @replaced e he hk =>
    have hne : (↑(freeBuffer key) : Multiset Nat) ≠ 0 := by
      obtain ⟨p, rfl⟩ := Option.isSome_iff_exists.mp hkey
      simp [freeBuffer]
    refine ⟨↑(freeBuffer key), ?_, iff_of_false hne fun hnone => hnone e he hk⟩
    rw [handed_replace he, ← Multiset.coe_add, add_assoc]

end Table

namespace Lruc.Refines

variable {c : Lruc} {t : Table}

theorem hasKey_iff (h : c.Refines t) {key : Option Buffer}
    {keyLength : UInt32} :
    c.HasKey key keyLength ↔ ∃ e ∈ t.entries, itemKey e = readBytes key keyLength.toNat := by
  obtain ⟨chains, free, h, rfl⟩ := h
  exact h.hasKey_iff

theorem lrucFree_returns (h : c.Refines t) :
    ∃ n, ∀ fuel, n ≤ fuel → ∃ r, lrucFree fuel c = .ok r := by
  obtain ⟨chains, free, h, -⟩ := h
  exact ⟨_, fun fuel hfuel => ⟨_, h.links.lrucFree (Nat.lt_of_succ_le hfuel)⟩⟩

theorem freed_eq (h : c.Refines t) : t.freed = c.freed := by
  obtain ⟨chains, free, -, rfl⟩ := h
  rfl

/-- The buffers of the chained items are those of the table. -/
theorem mem_buffers (h : c.Refines t) {p : Nat} :
    (∃ a, c.Chained a ∧ p ∈ (c.heap a).buffers) ↔ p ∈ t.buffers := by
  obtain ⟨chains, free, h, rfl⟩ := h
  rw [Table.buffers, Multiset.mem_bind]
  constructor
  · rintro ⟨a, ha, hp⟩
    obtain ⟨i, hi⟩ := h.chained_iff.mp ha
    exact ⟨(c.heap a).entry, h.mem_entries.mpr ⟨i, a, hi, rfl⟩, hp⟩
  · rintro ⟨e, he, hp⟩
    obtain ⟨i, a, hi, rfl⟩ := h.mem_entries.mp he
    exact ⟨a, h.chained_iff.mpr ⟨i, hi⟩, hp⟩

/-- A chained item has its key, so there are buffers while there are chained items. -/
theorem buffers_eq_zero (h : c.Refines t) : t.buffers = 0 ↔ ∀ a, ¬ c.Chained a := by
  constructor
  · intro hzero a ha
    obtain ⟨k, hk⟩ : ∃ k, (c.heap a).key = some k := by
      obtain ⟨chains, free, h, -⟩ := h
      obtain ⟨i, hi⟩ := h.chained_iff.mp ha
      exact Option.isSome_iff_exists.mp (h.keyed i a hi).1
    have hmem : k.addr ∈ (c.heap a).buffers := by simp [LrucItem.buffers, freeBuffer, hk]
    have hp := h.mem_buffers.mp ⟨a, ha, hmem⟩
    rw [hzero] at hp
    exact Multiset.notMem_zero _ hp
  · intro hnone
    refine Multiset.eq_zero_of_forall_notMem fun p hp => ?_
    obtain ⟨a, ha, -⟩ := h.mem_buffers.mpr hp
    exact hnone a ha

end Lruc.Refines

namespace LrucCall

variable {c : Lruc} {t : Table} {fuel : Nat} {call : LrucCall} {r : LrucError × Lruc}

theorem serve_snd : Prod.snd <$> call.serve fuel c = call.run fuel c := by
  cases call with
  | set key keyLength value valueLength => rfl
  | get key keyLength =>
    rw [serve, run]
    cases lrucGet fuel c key keyLength none <;> rfl
  | delete key keyLength => rfl

/-- **The buffers of one call.** Those that the table has after it, and the lost ones, are those
that it had before and those that the call handed over. -/
theorem serve_handed (h : c.Refines t) (hs : call.SpareOk c) (hr : call.serve fuel c = .ok r) :
    ∃ t' lost, r.2.Refines t' ∧
      t.handed + ↑(if r.1 = .noError then call.buffers else []) = t'.handed + lost ∧
      (lost = 0 ↔ call.NewKey c) := by
  cases call with
  | set key keyLength value valueLength =>
    by_cases ha : c.SetAccepted key keyLength value valueLength
    · obtain ⟨he, t₁, required, t₂, hl, hev, h'⟩ := Lruc.lrucSet_refines h ha (hs.spare_le ha h) hr
      obtain ⟨lost, hlost, hnew⟩ := hl.handed ha.1.1
      have htake : (t₂.take required).handed = t₁.handed := hev.handed
      refine ⟨_, lost, h', ?_, hnew.trans ?_⟩
      · rw [if_pos he, htake]
        exact hlost
      · rw [NewKey, h.hasKey_iff, not_exists]
        exact ⟨fun hnone _ e he => hnone e he.1 he.2, fun hnew e he hk => hnew ha e ⟨he, hk⟩⟩
    · obtain ⟨e, hne, he⟩ := Lruc.lrucSet_rejected ha
      cases (he _).symm.trans hr
      exact ⟨t, 0, h, by rw [if_neg hne, Multiset.coe_nil],
        iff_of_true rfl fun ha' => absurd ha' ha⟩
  | get key keyLength =>
    obtain ⟨r, hget, rfl⟩ := Exec.map_ok.mp hr
    have hnone : (↑(if r.1 = .noError then (get key keyLength).buffers else []) : Multiset Nat) = 0 := by
      split <;> rfl
    simp only [hnone, add_zero]
    rcases Lruc.lrucGet_refines h hget with ⟨-, rfl⟩ | ⟨-, ⟨e, he, -, c', rfl, h'⟩ | ⟨-, rfl⟩⟩
    · exact ⟨t, 0, h, (add_zero _).symm, iff_of_true rfl trivial⟩
    · exact ⟨_, 0, h', by rw [Table.handed_use he, add_zero], iff_of_true rfl trivial⟩
    · exact ⟨t, 0, h, (add_zero _).symm, iff_of_true rfl trivial⟩
  | delete key keyLength =>
    have hnone : (↑(if r.1 = .noError then (delete key keyLength).buffers else []) : Multiset Nat) = 0 := by
      split <;> rfl
    simp only [hnone, add_zero]
    rcases Lruc.lrucDelete_refines h hr with he | ⟨e, he, -, h'⟩
    · exact ⟨t, 0, he ▸ h, (add_zero _).symm, iff_of_true rfl trivial⟩
    · exact ⟨_, 0, h', by rw [Table.handed_evict he, add_zero], iff_of_true rfl trivial⟩

end LrucCall

namespace Handover

variable {s s' : Handover} {lost : Multiset Nat} {fuel : Nat} {call : LrucCall}
  {calls : List LrucCall}

/-- The buffers handed over are those of the table, chained or freed, and the lost ones. -/
def Accounts (s : Handover) (lost : Multiset Nat) : Prop :=
  ∃ t, s.cache.Refines t ∧ (↑s.handed : Multiset Nat) = t.handed + lost

theorem step_cache : Handover.cache <$> s.step fuel call = call.run fuel s.cache := by
  rw [← LrucCall.serve_snd, step]
  cases call.serve fuel s.cache <;> rfl

theorem step_run (h : s.step fuel call = .ok s') : call.run fuel s.cache = .ok s'.cache :=
  step_cache ▸ Exec.map_ok.mpr ⟨s', h, rfl⟩

theorem run_cache : Handover.cache <$> runFrom (Handover.step fuel) s calls =
    runFrom (LrucCall.run fuel) s.cache calls :=
  runFrom_map (fun _ _ _ => step_cache) s

/-- A call keeps the account; it loses nothing if and only if it sets no key again. -/
theorem Accounts.step (h : s.Accounts lost) (hs : call.SpareOk s.cache)
    (hr : s.step fuel call = .ok s') :
    ∃ more, s'.Accounts (lost + more) ∧ (more = 0 ↔ call.NewKey s.cache) := by
  obtain ⟨t, ht, hhanded⟩ := h
  obtain ⟨r, hserve, hr⟩ := Exec.bind_ok.mp hr
  cases hr
  obtain ⟨t', more, ht', hmore, hnew⟩ := LrucCall.serve_handed ht hs hserve
  refine ⟨more, ⟨t', ht', ?_⟩, hnew⟩
  have happend : (if r.1 = .noError then s.handed ++ call.buffers else s.handed) =
      s.handed ++ if r.1 = .noError then call.buffers else [] := by
    split
    · rfl
    · rw [List.append_nil]
  calc (↑(if r.1 = .noError then s.handed ++ call.buffers else s.handed) : Multiset Nat)
      = t.handed + lost + ↑(if r.1 = .noError then call.buffers else []) := by
        rw [happend, ← Multiset.coe_add, hhanded]
    _ = t'.handed + (lost + more) := by
        rw [add_right_comm, hmore, add_assoc, add_comm more]

/-- **A run loses nothing if and only if it sets no key again.** -/
theorem Accounts.run (h : s.Accounts lost)
    (hs : Along (LrucCall.run fuel) LrucCall.SpareOk s.cache calls)
    (hr : runFrom (Handover.step fuel) s calls = .ok s') :
    ∃ more, s'.Accounts (lost + more) ∧
      (more = 0 ↔ Along (LrucCall.run fuel) LrucCall.NewKey s.cache calls) := by
  induction calls generalizing s lost with
  | nil =>
    cases hr
    exact ⟨0, by rwa [add_zero], iff_of_true rfl trivial⟩
  | cons call calls ih =>
    rw [runFrom_cons] at hr
    obtain ⟨s₁, hstep, hr⟩ := Exec.bind_ok.mp hr
    have hrun := step_run hstep
    obtain ⟨more₁, h₁, hnew₁⟩ := h.step hs.1 hstep
    obtain ⟨more₂, h₂, hnew₂⟩ := ih h₁ (hs.2 _ hrun) hr
    refine ⟨more₁ + more₂, by rwa [← add_assoc], ?_⟩
    rw [add_eq_zero, hnew₁, hnew₂]
    refine and_congr_right fun _ => ⟨fun hnew c' hc' => ?_, fun hnew => hnew _ hrun⟩
    cases hrun.symm.trans hc'
    exact hnew

/-- What is handed over comes from the calls. -/
theorem handed_sublist (hr : runFrom (Handover.step fuel) s calls = .ok s') :
    s'.handed.Sublist (s.handed ++ calls.flatMap LrucCall.buffers) := by
  induction calls generalizing s with
  | nil =>
    cases hr
    rw [List.flatMap_nil, List.append_nil]
  | cons call calls ih =>
    rw [runFrom_cons] at hr
    obtain ⟨s₁, hstep, hr⟩ := Exec.bind_ok.mp hr
    have hone : s₁.handed.Sublist (s.handed ++ call.buffers) := by
      obtain ⟨r, -, hstep⟩ := Exec.bind_ok.mp hstep
      cases hstep
      show (if r.1 = .noError then s.handed ++ call.buffers else s.handed).Sublist _
      split
      · exact List.Sublist.refl _
      · exact List.sublist_append_left _ _
    rw [List.flatMap_cons, ← List.append_assoc]
    exact (ih hr).trans (hone.append (List.Sublist.refl _))

/-! ## When the buffers are freed -/

/-- A buffer that was handed over is a chained item's, freed or lost, and not two of these. -/
theorem Accounts.parts (h : s.Accounts lost) (hnd : s.handed.Nodup) :
    ∃ t, s.cache.Refines t ∧
      (∀ p, p ∈ s.handed ↔ (p ∈ t.buffers ∨ p ∈ s.cache.freed) ∨ p ∈ lost) ∧
      (∀ p ∈ t.buffers, p ∉ s.cache.freed) ∧
      (∀ p ∈ lost, p ∉ t.buffers ∧ p ∉ s.cache.freed) ∧ s.cache.freed.Nodup := by
  obtain ⟨t, ht, hhanded⟩ := h
  rw [Table.handed, ht.freed_eq] at hhanded
  have hnd' : (t.buffers + ↑s.cache.freed + lost).Nodup := hhanded ▸ Multiset.coe_nodup.mpr hnd
  obtain ⟨hkept, -, hlost⟩ := Multiset.nodup_add.mp hnd'
  obtain ⟨-, hnodup, hfreed⟩ := Multiset.nodup_add.mp hkept
  refine ⟨t, ht, fun p => ?_, fun p hp hp' => Multiset.disjoint_left.mp hfreed hp hp',
    fun p hp => ?_, Multiset.coe_nodup.mp hnodup⟩
  · rw [← Multiset.mem_coe, hhanded, Multiset.mem_add, Multiset.mem_add, Multiset.mem_coe]
  · have hnot := Multiset.disjoint_right.mp hlost hp
    rwa [Multiset.mem_add, not_or, Multiset.mem_coe] at hnot

/-- **The owners**: the buffers that are not freed are those of the chained items, if none is
lost. -/
theorem Accounts.owns_iff (h : s.Accounts lost) (hnd : s.handed.Nodup) : s.Owns ↔ lost = 0 := by
  obtain ⟨t, ht, hmem, hkept, hlost, -⟩ := h.parts hnd
  constructor
  · intro howns
    refine Multiset.eq_zero_of_forall_notMem fun p hp => ?_
    obtain ⟨hnot, hfreed⟩ := hlost p hp
    exact hnot (ht.mem_buffers.mp ((howns p).mp ⟨(hmem p).mpr (.inr hp), hfreed⟩))
  · rintro rfl p
    rw [ht.mem_buffers, hmem]
    constructor
    · rintro ⟨(hp | hp) | hp, hnot⟩
      · exact hp
      · exact absurd hp hnot
      · cases hp
    · intro hp
      exact ⟨.inl (.inl hp), hkept p hp⟩

/-- After `lruc_free`, which returns, each buffer that was handed over is freed once. -/
def FreesAll (s : Handover) : Prop :=
  ∃ n, ∀ fuel, n ≤ fuel → ∃ r, lrucFree fuel s.cache = .ok r ∧
    ∀ p ∈ s.handed, r.2.buffers.count p = 1

/-- The ledger at the end is the one that `lruc_free` finds. -/
theorem Accounts.freesAll_iff_freed (h : s.Accounts lost) (hnd : s.handed.Nodup) :
    s.FreesAll ↔ ∀ p ∈ s.handed, p ∈ s.cache.freed := by
  obtain ⟨t, ht, -, -, -, hnodup⟩ := h.parts hnd
  have hcount : ∀ p, s.cache.freed.count p = 1 ↔ p ∈ s.cache.freed := fun p =>
    ⟨fun h => List.count_pos_iff.mp (by omega), List.count_eq_one_of_mem hnodup⟩
  obtain ⟨n, hn⟩ := ht.lrucFree_returns
  constructor
  · rintro ⟨m, hm⟩ p hp
    obtain ⟨r, hr, hall⟩ := hm m (Nat.le_refl m)
    exact (hcount p).mp (lrucFree_ledger hr ▸ hall p hp)
  · intro hall
    refine ⟨n, fun fuel hfuel => ?_⟩
    obtain ⟨r, hr⟩ := hn fuel hfuel
    exact ⟨r, hr, fun p hp => lrucFree_ledger hr ▸ (hcount p).mpr (hall p hp)⟩

/-- **The end of the cache**: all buffers are freed if none is lost and no item is left. -/
theorem Accounts.freesAll_iff (h : s.Accounts lost) (hnd : s.handed.Nodup) :
    s.FreesAll ↔ lost = 0 ∧ ∀ a, ¬ s.cache.Chained a := by
  rw [h.freesAll_iff_freed hnd]
  obtain ⟨t, ht, hmem, hkept, hlost, -⟩ := h.parts hnd
  rw [← ht.buffers_eq_zero]
  constructor
  · intro hall
    constructor
    · refine Multiset.eq_zero_of_forall_notMem fun p hp => ?_
      exact (hlost p hp).2 (hall p ((hmem p).mpr (.inr hp)))
    · refine Multiset.eq_zero_of_forall_notMem fun p hp => ?_
      exact hkept p hp (hall p ((hmem p).mpr (.inl (.inl hp))))
  · rintro ⟨rfl, hzero⟩ p hp
    rcases (hmem p).mp hp with (hp | hp) | hp
    · rw [hzero] at hp
      cases hp
    · exact hp
    · cases hp

end Handover

/-! ## Runs -/

theorem LrucCall.NewKey.noShrink {c : Lruc} {call : LrucCall} (h : call.NewKey c) :
    call.NoShrink c := by
  cases call with
  | set key keyLength value valueLength => exact fun ha a hchained hk => absurd ⟨a, hchained, hk⟩ (h ha)
  | get key keyLength => trivial
  | delete key keyLength => trivial

section Run

variable {size seed : UInt64} {len : UInt32} {fuel : Nat} {calls : List LrucCall}

theorem accounts_lrucNew (hnew : (lrucNew size len seed).hashTableSize ≠ 0) :
    Handover.Accounts { cache := lrucNew size len seed } 0 :=
  ⟨_, Lruc.refines_lrucNew hnew, rfl⟩

/-- The buffers are owned before each call, if no key is set again. -/
theorem Handover.Accounts.along {s : Handover} (h : s.Accounts 0)
    (hnd : (s.handed ++ calls.flatMap LrucCall.buffers).Nodup)
    (hspare : Along (LrucCall.run fuel) LrucCall.SpareOk s.cache calls)
    (hkeys : Along (LrucCall.run fuel) LrucCall.NewKey s.cache calls) :
    Along (Handover.step fuel) (fun s _ => s.Owns) s calls := by
  induction calls generalizing s with
  | nil => exact trivial
  | cons call calls ih =>
    refine ⟨(h.owns_iff (List.nodup_append.mp hnd).1).mpr rfl, fun s' hs' => ?_⟩
    have hrun := step_run hs'
    obtain ⟨more, h', hmore⟩ := h.step hspare.1 hs'
    obtain rfl := hmore.mpr hkeys.1
    rw [add_zero] at h'
    refine ih h' ?_ (hspare.2 _ hrun) (hkeys.2 _ hrun)
    have hone : s'.handed.Sublist (s.handed ++ [call].flatMap LrucCall.buffers) :=
      handed_sublist (by rw [runFrom_cons, hs']; rfl)
    rw [List.flatMap_cons, List.flatMap_nil, List.append_nil] at hone
    rw [List.flatMap_cons, ← List.append_assoc] at hnd
    exact hnd.sublist (hone.append (List.Sublist.refl _))

/-- **Buffer ownership over runs**, with all buffers distinct, and every new key inserted with at
most one item in the free list: the buffers that are handed over and not freed are those of the
chained items if and only if no key is set again while it is cached. `lruc_free` leaves none of
them if, besides, it finds no item. -/
theorem owns_run_iff (hnew : (lrucNew size len seed).hashTableSize ≠ 0)
    (hspare : Along (LrucCall.run fuel) LrucCall.SpareOk (lrucNew size len seed) calls)
    (hfresh : (calls.flatMap LrucCall.buffers).Nodup) :
    (size.toNat + 1 < fuel →
      Along (LrucCall.run fuel) LrucCall.NewKey (lrucNew size len seed) calls →
      ∃ s, runFrom (Handover.step fuel) { cache := lrucNew size len seed } calls = .ok s) ∧
    ∀ s, runFrom (Handover.step fuel) { cache := lrucNew size len seed } calls = .ok s →
      s.cache.freed.Nodup ∧
      ((Along (Handover.step fuel) (fun s _ => s.Owns) { cache := lrucNew size len seed } calls ∧
        s.Owns) ↔ Along (LrucCall.run fuel) LrucCall.NewKey (lrucNew size len seed) calls) ∧
      (s.FreesAll ↔ Along (LrucCall.run fuel) LrucCall.NewKey (lrucNew size len seed) calls ∧
        ∀ a, ¬ s.cache.Chained a) := by
  have h₀ := accounts_lrucNew hnew
  constructor
  · intro hfuel hkeys
    obtain ⟨c, hc, -⟩ := budget_run hnew hfuel
      (hspare.and_imp (fun c call hs hk => ⟨hs, hk.noShrink⟩) hkeys)
    rw [← Handover.run_cache (s := { cache := lrucNew size len seed })] at hc
    obtain ⟨s, hs, -⟩ := Exec.map_ok.mp hc
    exact ⟨s, hs⟩
  · intro s hs
    have hnd : s.handed.Nodup := hfresh.sublist (Handover.handed_sublist hs)
    obtain ⟨lost, h, hlost⟩ := h₀.run hspare hs
    rw [zero_add] at h
    obtain ⟨-, -, -, -, -, honce⟩ := h.parts hnd
    refine ⟨honce, ?_, ?_⟩
    · rw [h.owns_iff hnd, hlost]
      exact ⟨And.right, fun hkeys => ⟨h₀.along hfresh hspare hkeys, hkeys⟩⟩
    · rw [h.freesAll_iff hnd, hlost]

/-- A run in which the key that was set is deleted before `lruc_free`. -/
theorem owns_run_iff_deleted :
    ∃ s, runFrom (Handover.step 1026) { cache := lrucNew 1024 512 0 }
      [.set (some ⟨1, [97, 0]⟩) 2 (some ⟨2, [65, 0]⟩) 10, .delete (some ⟨3, [97, 0]⟩) 2] = .ok s ∧
      s.handed = [2, 1] ∧ s.FreesAll := by
  obtain ⟨s, hs, hend⟩ := Exec.of_returned
    (x := runFrom (Handover.step 1026) { cache := lrucNew 1024 512 0 }
      [.set (some ⟨1, [97, 0]⟩) 2 (some ⟨2, [65, 0]⟩) 10, .delete (some ⟨3, [97, 0]⟩) 2])
    (p := fun s => s.handed = [2, 1] ∧ s.cache.items = [none, none]) (by decide)
  obtain ⟨hhanded, hitems⟩ := of_decide_eq_true hend
  have hnew : (lrucNew 1024 512 0).hashTableSize ≠ 0 := by decide
  have hspare : Along (LrucCall.run 1026) LrucCall.SpareOk (lrucNew 1024 512 0)
      [.set (some ⟨1, [97, 0]⟩) 2 (some ⟨2, [65, 0]⟩) 10, .delete (some ⟨3, [97, 0]⟩) 2] :=
    ⟨fun _ a (ha : none = some a) => (by cases ha), fun _ _ => ⟨fun h => h.elim, fun _ _ => trivial⟩⟩
  obtain ⟨-, hrun⟩ := owns_run_iff hnew hspare (by decide)
  obtain ⟨-, -, hfree⟩ := hrun s hs
  refine ⟨s, hs, hhanded, hfree.mpr ⟨⟨fun _ hk => ?_, fun _ _ => ⟨trivial, fun _ _ => trivial⟩⟩, ?_⟩⟩
  · obtain ⟨e, he, -⟩ := (Lruc.refines_lrucNew hnew).hasKey_iff.mp hk
    cases he
  · rintro a ⟨i, l, hl, ha⟩
    have hbucket : s.cache.bucket i = none := by
      rw [Lruc.bucket, hitems]
      rcases i with _ | _ | i <;> rfl
    rw [hbucket, Chain.none_iff] at hl
    subst hl
    cases ha

/-- The failing runs: `lruc_free` leaves the buffers of the item that is in the cache, and the second
set of a key loses the key that it is given. -/
theorem owns_run_fails :
    (∃ s, runFrom (Handover.step 1026) { cache := lrucNew 1024 512 0 }
      [.set (some ⟨1, [97, 0]⟩) 2 (some ⟨2, [65, 0]⟩) 10] = .ok s ∧ ¬ s.FreesAll) ∧
    ∃ s, runFrom (Handover.step 1026) { cache := lrucNew 1024 512 0 }
      [.set (some ⟨1, [97, 0]⟩) 2 (some ⟨2, [65, 0]⟩) 10,
        .set (some ⟨3, [97, 0]⟩) 2 (some ⟨4, [65, 0]⟩) 20] = .ok s ∧ ¬ s.Owns := by
  constructor
  · obtain ⟨s, hs, hend⟩ := Exec.of_returned
      (x := runFrom (Handover.step 1026) { cache := lrucNew 1024 512 0 }
        [.set (some ⟨1, [97, 0]⟩) 2 (some ⟨2, [65, 0]⟩) 10])
      (p := fun s => s.handed = [2, 1] ∧ s.cache.freed = []) (by decide)
    obtain ⟨hhanded, hfreed⟩ := of_decide_eq_true hend
    refine ⟨s, hs, ?_⟩
    rintro ⟨n, hn⟩
    obtain ⟨r, hr, hall⟩ := hn n (Nat.le_refl n)
    have hcount := hall 2 (by simp [hhanded])
    rw [lrucFree_ledger hr, hfreed] at hcount
    cases hcount
  · obtain ⟨s, hs, hend⟩ := Exec.of_returned
      (x := runFrom (Handover.step 1026) { cache := lrucNew 1024 512 0 }
        [.set (some ⟨1, [97, 0]⟩) 2 (some ⟨2, [65, 0]⟩) 10,
          .set (some ⟨3, [97, 0]⟩) 2 (some ⟨4, [65, 0]⟩) 20])
      (p := fun s => s.handed = [2, 1, 4, 3] ∧ s.cache.freed = [2] ∧ s.cache.items = [some 0, none] ∧
        s.cache.next 0 = none ∧ 3 ∉ (s.cache.heap 0).buffers) (by decide)
    obtain ⟨hhanded, hfreed, hitems, hnext, hbuffers⟩ := of_decide_eq_true hend
    refine ⟨s, hs, fun howns => ?_⟩
    obtain ⟨a, ⟨i, l, hl, ha⟩, hp⟩ := (howns 3).mp (by simp [hhanded, hfreed])
    have hbucket : s.cache.bucket i = some 0 ∨ s.cache.bucket i = none := by
      rw [Lruc.bucket, hitems]
      rcases i with _ | _ | i
      · exact .inl rfl
      · exact .inr rfl
      · exact .inr rfl
    rcases hbucket with hbucket | hbucket
    · have hone : Chain s.cache.next (s.cache.bucket i) [0] := ⟨hbucket, hnext⟩
      rw [hl.unique hone, List.mem_singleton] at ha
      exact hbuffers (ha ▸ hp)
    · rw [hbucket, Chain.none_iff] at hl
      subst hl
      cases ha

end Run

end Cnpv
