import Cnpv.Lru.Table

/-!
# The buckets that the cache accesses

`lruc_hash` takes its result modulo the size of the table, and `lruc_new` computes this size in 64
bits and stores it in 32. So the size is 0 when the quotient is a multiple of `2 ^ 32`, which any cache
smaller than its average item has (`lrucHash_inRange_iff`).

The functions here are those of `Cnpv.Lru.Model` with each division and each access to `cache->items`
checked. On a table of the right size they are the same functions (`LrucCall.runChecked_eq`).
-/

namespace Cnpv

open CLib

namespace Lruc

/-- `lruc_hash`, with its modulo. -/
def hashIndex (c : Lruc) (key : Option Buffer) (keyLength : UInt32) : Exec UInt32 :=
  if c.hashTableSize = 0 then .error (.undefined .divisionByZero)
  else .ok (lrucHash c key keyLength)

/-- An access to `cache->items[i]`. -/
def access (c : Lruc) (i : UInt32) : Exec Unit :=
  if i.toNat < c.items.length then .ok () else .error (.undefined .outOfBounds)

/-- `lruc_remove_lru_item`. An item that is the first of its chain is unlinked through its bucket. -/
def removeLruItemChecked (fuel : Nat) (c : Lruc) : Exec Lruc := do
  let m ← runFrom
    (fun m i => do
      c.access (UInt32.ofNat i)
      scanChain fuel c (UInt32.ofNat i) m) {} (List.range c.hashTableSize.toNat)
  m.minItem.elim (.ok c) fun a => do
    if m.minPrev.isNone then c.access m.minIndex else .ok ()
    .ok (lrucRemoveItem c m.minPrev a m.minIndex)

/-- The eviction loop of `lruc_set`. -/
def makeRoomChecked (fuel : Nat) (c : Lruc) (required : UInt32) : Exec Lruc :=
  if required > 0 ∧ required.toUInt64 > c.freeMemory then
    whileLoop (fun c => decide (c.freeMemory < required.toUInt64)) (removeLruItemChecked fuel) fuel c
  else .ok c

end Lruc

/-- `lruc_set`. A new item is linked in through the bucket that was read. -/
def lrucSetChecked (fuel : Nat) (c : Lruc) (key : Option Buffer) (keyLength : UInt32)
    (value : Option Buffer) (valueLength : UInt32) : Exec (LrucError × Lruc) :=
  if key.isNone ∨ keyLength = 0 then .ok (.missingKey, c)
  else if value.isNone ∨ valueLength = 0 then .ok (.missingValue, c)
  else if valueLength.toUInt64 > c.totalMemory then .ok (.valueTooLarge, c)
  else do
    let hashIndex ← c.hashIndex key keyLength
    c.access hashIndex
    let s ← c.seek fuel key keyLength (c.bucket hashIndex.toNat)
    let r := c.linkItem hashIndex s.1 s.2 key keyLength value valueLength
    let c ← (r.1.touch r.2.1).makeRoomChecked fuel r.2.2
    .ok (.noError, { c with freeMemory := c.freeMemory - r.2.2.toUInt64 })

/-- `lruc_get`. It accesses no other bucket than that of the key. -/
def lrucGetChecked (fuel : Nat) (c : Lruc) (key : Option Buffer) (keyLength : UInt32)
    (value : Option Buffer) : Exec (LrucError × Option Buffer × Lruc) :=
  if key.isNone ∨ keyLength = 0 then .ok (.missingKey, value, c)
  else do
    let hashIndex ← c.hashIndex key keyLength
    c.access hashIndex
    lrucGet fuel c key keyLength value

/-- `lruc_delete`. It accesses no other bucket than that of the key. -/
def lrucDeleteChecked (fuel : Nat) (c : Lruc) (key : Option Buffer) (keyLength : UInt32) :
    Exec (LrucError × Lruc) :=
  if key.isNone ∨ keyLength = 0 then .ok (.missingKey, c)
  else do
    let hashIndex ← c.hashIndex key keyLength
    c.access hashIndex
    lrucDelete fuel c key keyLength

/-- The cache after a call. -/
def LrucCall.runChecked (fuel : Nat) (c : Lruc) : LrucCall → Exec Lruc
  | .set key keyLength value valueLength =>
    Prod.snd <$> lrucSetChecked fuel c key keyLength value valueLength
  | .get key keyLength => (fun r => r.2.2) <$> lrucGetChecked fuel c key keyLength none
  | .delete key keyLength => Prod.snd <$> lrucDeleteChecked fuel c key keyLength

/-! ## On a table of the right size, the checks pass -/

namespace Lruc

/-- The table has as many slots as its size says, and at least one. -/
structure Sized (c : Lruc) : Prop where
  size_ne : c.hashTableSize ≠ 0
  slots : c.items.length = c.hashTableSize.toNat

section Sized

variable {c c' : Lruc} {key value : Option Buffer} {keyLength valueLength required i : UInt32}
  {prev found : Option Addr} {a : Addr} {m m' : LruScan} {fuel n : Nat}

theorem Sized.congr (h : c.Sized) (hsize : c'.hashTableSize = c.hashTableSize)
    (hslots : c'.items.length = c.items.length) : c'.Sized :=
  ⟨hsize ▸ h.size_ne, by rw [hslots, hsize]; exact h.slots⟩

theorem Sized.removeItem (h : c.Sized) : (lrucRemoveItem c prev a i).Sized := by
  obtain ⟨hslots, hsize, -⟩ := lrucRemoveItem_fields c prev a i
  exact h.congr hsize hslots

theorem Sized.linkItem (h : c.Sized) :
    (c.linkItem i prev found key keyLength value valueLength).1.Sized := by
  cases found with
  | some item => exact h.congr rfl rfl
  | none =>
    have hpop : (lrucPopOrCreateItem c).2.items = c.items := by
      unfold lrucPopOrCreateItem
      cases c.freeItems <;> rfl
    obtain ⟨hslots, hsize, -⟩ := linkAfter_fields
      ((lrucPopOrCreateItem c).2.setItem (lrucPopOrCreateItem c).1
        { (lrucPopOrCreateItem c).2.heap (lrucPopOrCreateItem c).1 with value, key, valueLength, keyLength })
      prev i (lrucPopOrCreateItem c).1
    refine h.congr (hsize.trans (pop_fields c).1) (hslots.trans ?_)
    exact congrArg List.length hpop

theorem Sized.touch (h : c.Sized) : (c.touch a).Sized := h.congr rfl rfl

/-- The hash of a key is the index of a slot. -/
theorem Sized.hash_lt (h : c.Sized) (key : Option Buffer) (keyLength : UInt32) :
    (lrucHash c key keyLength).toNat < c.items.length := by
  rw [h.slots]
  exact lrucHash_lt h.size_ne key keyLength

theorem Sized.hashIndex (h : c.Sized) (key : Option Buffer) (keyLength : UInt32) :
    c.hashIndex key keyLength = .ok (lrucHash c key keyLength) := if_neg h.size_ne

theorem access_of_lt (h : i.toNat < c.items.length) : c.access i = .ok () := if_pos h

/-! ### The scan for the least recently used item -/

/-- The item of the scan is in one of the first `n` buckets. -/
def InTable (n : Nat) (m : LruScan) : Prop := m.minItem = none ∨ m.minIndex.toNat < n

theorem InTable.scanChain (h : InTable n m) (hi : i.toNat < n)
    (hr : Cnpv.scanChain fuel c i m = .ok m') : InTable n m' := by
  obtain ⟨s, hs, hr⟩ := Exec.bind_ok.mp hr
  cases hr
  refine (whileLoop_inv (fun s => InTable n s.1) (fun s s' hinv _ hbody => ?_) _ _ _ h hs).1
  unfold scanItem at hbody
  split at hbody
  · cases hbody
    unfold LruScan.visit
    split
    · exact .inr hi
    · exact hinv
  · cases hbody
    exact hinv

theorem Sized.index_lt (h : c.Sized) {i : Nat} (hi : i ∈ List.range c.hashTableSize.toNat) :
    (UInt32.ofNat i).toNat < c.items.length := by
  have hlt := List.mem_range.mp hi
  rw [UInt32.toNat_ofNat_of_lt' (Nat.lt_trans hlt c.hashTableSize.toNat_lt), h.slots]
  exact hlt

theorem Sized.scanTable (h : c.Sized)
    (hr : runFrom (fun m i => Cnpv.scanChain fuel c (UInt32.ofNat i) m) {}
      (List.range c.hashTableSize.toNat) = .ok m) : InTable c.items.length m :=
  runFrom_keeps (InTable c.items.length)
    (fun _ hi _ _ hm hscan => hm.scanChain (h.index_lt hi) hscan) (.inl rfl) hr

theorem Sized.removeLruItemChecked (h : c.Sized) (fuel : Nat) :
    c.removeLruItemChecked fuel = lrucRemoveLruItem fuel c := by
  have hscan : runFrom
      (fun m i => do
        c.access (UInt32.ofNat i)
        Cnpv.scanChain fuel c (UInt32.ofNat i) m) {} (List.range c.hashTableSize.toNat) =
      runFrom (fun m i => Cnpv.scanChain fuel c (UInt32.ofNat i) m) {}
        (List.range c.hashTableSize.toNat) := by
    refine runFrom_congr (fun _ => True) (fun i hi m _ => ?_) (fun _ _ _ _ _ _ => trivial) trivial
    rw [access_of_lt (h.index_lt hi), Exec.ok_bind]
  unfold Lruc.removeLruItemChecked lrucRemoveLruItem
  rw [hscan]
  cases hm : runFrom (fun m i => Cnpv.scanChain fuel c (UInt32.ofNat i) m) {}
      (List.range c.hashTableSize.toNat) with
  | error e => rfl
  | ok m =>
    simp only [Exec.ok_bind]
    cases hitem : m.minItem with
    | none => rfl
    | some a =>
      rcases h.scanTable hm with hnone | hlt
      · rw [hnone] at hitem
        cases hitem
      · simp only [access_of_lt hlt, Option.elim_some, Exec.ok_bind, ite_self]

theorem Sized.removeLruItem (h : c.Sized) (hr : lrucRemoveLruItem fuel c = .ok c') : c'.Sized := by
  obtain ⟨m, -, hr⟩ := Exec.bind_ok.mp hr
  split at hr
  · cases hr
    exact h.removeItem
  · cases hr
    exact h

theorem Sized.makeRoomChecked (h : c.Sized) (fuel : Nat) (required : UInt32) :
    c.makeRoomChecked fuel required = c.makeRoom fuel required := by
  unfold Lruc.makeRoomChecked Lruc.makeRoom
  split
  · exact whileLoop_congr Sized (fun s hs => hs.removeLruItemChecked fuel)
      (fun s s' hs hr => hs.removeLruItem hr) fuel h
  · rfl

theorem Sized.makeRoom (h : c.Sized) (hr : c.makeRoom fuel required = .ok c') : c'.Sized := by
  unfold Lruc.makeRoom at hr
  split at hr
  · exact (whileLoop_inv Sized (fun s s' hs _ hbody => hs.removeLruItem hbody) _ _ _ h hr).1
  · cases hr
    exact h

end Sized

end Lruc

/-! ## The public interface -/

section Calls

variable {c c' : Lruc} {fuel : Nat} {call : LrucCall}

theorem lrucSetChecked_eq (h : c.Sized) (fuel : Nat) (key : Option Buffer) (keyLength : UInt32)
    (value : Option Buffer) (valueLength : UInt32) :
    lrucSetChecked fuel c key keyLength value valueLength =
      lrucSet fuel c key keyLength value valueLength := by
  unfold lrucSetChecked lrucSet
  rw [h.hashIndex, Exec.ok_bind, Lruc.access_of_lt (h.hash_lt key keyLength), Exec.ok_bind]
  simp only [h.linkItem.touch.makeRoomChecked]

theorem lrucGetChecked_eq (h : c.Sized) (fuel : Nat) (key : Option Buffer) (keyLength : UInt32)
    (value : Option Buffer) :
    lrucGetChecked fuel c key keyLength value = lrucGet fuel c key keyLength value := by
  unfold lrucGetChecked
  rw [h.hashIndex, Exec.ok_bind, Lruc.access_of_lt (h.hash_lt key keyLength), Exec.ok_bind]
  split
  · next hkey => exact (if_pos hkey).symm
  · rfl

theorem lrucDeleteChecked_eq (h : c.Sized) (fuel : Nat) (key : Option Buffer) (keyLength : UInt32) :
    lrucDeleteChecked fuel c key keyLength = lrucDelete fuel c key keyLength := by
  unfold lrucDeleteChecked
  rw [h.hashIndex, Exec.ok_bind, Lruc.access_of_lt (h.hash_lt key keyLength), Exec.ok_bind]
  split
  · next hkey => exact (if_pos hkey).symm
  · rfl

/-- **The checks pass**: on a table of the right size, a call does what it does without them. -/
theorem LrucCall.runChecked_eq (h : c.Sized) (fuel : Nat) (call : LrucCall) :
    call.runChecked fuel c = call.run fuel c := by
  cases call with
  | set key keyLength value valueLength => rw [runChecked, run, lrucSetChecked_eq h]
  | get key keyLength => rw [runChecked, run, lrucGetChecked_eq h]
  | delete key keyLength => rw [runChecked, run, lrucDeleteChecked_eq h]

theorem LrucCall.sized_run (h : c.Sized) (hr : call.run fuel c = .ok c') : c'.Sized := by
  cases call with
  | set key keyLength value valueLength =>
    obtain ⟨r, hset, rfl⟩ := Exec.map_ok.mp hr
    by_cases ha : c.SetAccepted key keyLength value valueLength
    · rw [Lruc.lrucSet_accepted ha] at hset
      obtain ⟨s, -, hset⟩ := Exec.bind_ok.mp hset
      obtain ⟨c₁, hroom, hset⟩ := Exec.bind_ok.mp hset
      cases hset
      exact (h.linkItem.touch.makeRoom hroom).congr rfl rfl
    · obtain ⟨e, -, he⟩ := Lruc.lrucSet_rejected ha
      cases (he _).symm.trans hset
      exact h
  | get key keyLength =>
    obtain ⟨r, hget, rfl⟩ := Exec.map_ok.mp hr
    unfold lrucGet at hget
    split at hget
    · cases hget
      exact h
    · obtain ⟨s, -, hget⟩ := Exec.bind_ok.mp hget
      rcases s with ⟨prev, - | a⟩
      · cases hget
        exact h
      · cases hget
        exact h.touch
  | delete key keyLength =>
    obtain ⟨r, hdelete, rfl⟩ := Exec.map_ok.mp hr
    unfold lrucDelete at hdelete
    split at hdelete
    · cases hdelete
      exact h
    · obtain ⟨s, -, hdelete⟩ := Exec.bind_ok.mp hdelete
      rcases s with ⟨prev, - | a⟩
      · cases hdelete
        exact h
      · cases hdelete
        exact h.removeItem

/-! ### Without the checks, a call halts only for want of fuel -/

theorem lrucRemoveLruItem_error {e : Halt} (h : lrucRemoveLruItem fuel c = .error e) : e = .outOfFuel := by
  rcases Exec.bind_error.mp h with h | ⟨m, -, h⟩
  · obtain ⟨i, -, m, hscan⟩ := runFrom_error h
    rcases Exec.bind_error.mp hscan with hloop | ⟨s, -, hok⟩
    · rcases whileLoop_error hloop with he | ⟨s, hbody⟩
      · exact he
      · unfold scanItem at hbody
        split at hbody <;> cases hbody
    · cases hok
  · split at h <;> cases h

theorem Lruc.seek_error {e : Halt} {key : Option Buffer} {keyLength : UInt32} {item : Option Addr}
    (h : c.seek fuel key keyLength item = .error e) : e = .outOfFuel := by
  rcases whileLoop_error h with he | ⟨s, hbody⟩
  · exact he
  · cases hbody

theorem Lruc.makeRoom_error {e : Halt} {required : UInt32} (h : c.makeRoom fuel required = .error e) :
    e = .outOfFuel := by
  unfold makeRoom at h
  split at h
  · rcases whileLoop_error h with he | ⟨s, hbody⟩
    · exact he
    · exact lrucRemoveLruItem_error hbody
  · cases h

theorem LrucCall.run_error {e : Halt} (h : call.run fuel c = .error e) : e = .outOfFuel := by
  cases call with
  | set key keyLength value valueLength =>
    have h := Exec.map_error.mp h
    by_cases ha : c.SetAccepted key keyLength value valueLength
    · rw [Lruc.lrucSet_accepted ha] at h
      rcases Exec.bind_error.mp h with h | ⟨s, -, h⟩
      · exact Lruc.seek_error h
      · rcases Exec.bind_error.mp h with h | ⟨c', -, h⟩
        · exact Lruc.makeRoom_error h
        · cases h
    · obtain ⟨error, -, herror⟩ := Lruc.lrucSet_rejected ha
      cases (herror _).symm.trans h
  | get key keyLength =>
    have h := Exec.map_error.mp h
    unfold lrucGet at h
    split at h
    · cases h
    · rcases Exec.bind_error.mp h with h | ⟨s, -, h⟩
      · exact Lruc.seek_error h
      · rcases s with ⟨prev, - | a⟩ <;> cases h
  | delete key keyLength =>
    have h := Exec.map_error.mp h
    unfold lrucDelete at h
    split at h
    · cases h
    · rcases Exec.bind_error.mp h with h | ⟨s, -, h⟩
      · exact Lruc.seek_error h
      · rcases s with ⟨prev, - | a⟩ <;> cases h

/-- The run divides by no zero and accesses no bucket outside of the table. -/
def InRange {α : Type} (x : Exec α) : Prop :=
  x ≠ .error (.undefined .divisionByZero) ∧ x ≠ .error (.undefined .outOfBounds)

/-- Calls on a table of the right size. -/
theorem Lruc.Sized.inRange (h : c.Sized) (calls : List LrucCall) :
    InRange (runFrom (LrucCall.runChecked fuel) c calls) := by
  have hrun : runFrom (LrucCall.runChecked fuel) c calls = runFrom (LrucCall.run fuel) c calls :=
    runFrom_congr Sized (fun call _ s hs => LrucCall.runChecked_eq hs fuel call)
      (fun call _ s s' hs hr => LrucCall.sized_run hs hr) h
  have herror : ∀ fault, runFrom (LrucCall.run fuel) c calls ≠ .error (.undefined fault) := by
    intro fault hr
    obtain ⟨call, -, s, hcall⟩ := runFrom_error hr
    cases LrucCall.run_error hcall
  rw [hrun]
  exact ⟨herror _, herror _⟩

end Calls

section New

variable {cacheSize seed : UInt64} {averageLength : UInt32}

/-- The size is a quotient of 64 bits, in 32 bits. -/
theorem hashTableSize_eq_zero : (lrucNew cacheSize averageLength seed).hashTableSize = 0 ↔
    2 ^ 32 ∣ cacheSize.toNat / averageLength.toNat := by
  have hsize : (lrucNew cacheSize averageLength seed).hashTableSize.toNat =
      cacheSize.toNat / averageLength.toNat % 2 ^ 32 := by
    simp [lrucNew]
  rw [← UInt32.toNat_inj, hsize, Nat.dvd_iff_mod_eq_zero]
  rfl

theorem sized_lrucNew (h : ¬ 2 ^ 32 ∣ cacheSize.toNat / averageLength.toNat) :
    (lrucNew cacheSize averageLength seed).Sized where
  size_ne := mt hashTableSize_eq_zero.mp h
  slots := by simp [lrucNew]

/-- **When hashing is in range**: if the number of average items in the cache is not a multiple of
`2 ^ 32`, and only then, the hash of a key divides by no zero and is the index of a slot, and every
run of the public interface accesses only buckets of the table. -/
theorem lrucHash_inRange_iff (cacheSize : UInt64) (averageLength : UInt32) (seed : UInt64) :
    (∀ key keyLength,
      (∃ i, (lrucNew cacheSize averageLength seed).hashIndex key keyLength = .ok i ∧
        i.toNat < (lrucNew cacheSize averageLength seed).items.length) ↔
      ¬ 2 ^ 32 ∣ cacheSize.toNat / averageLength.toNat) ∧
    ((∀ fuel calls,
      InRange (runFrom (LrucCall.runChecked fuel) (lrucNew cacheSize averageLength seed) calls)) ↔
      ¬ 2 ^ 32 ∣ cacheSize.toNat / averageLength.toNat) := by
  constructor
  · intro key keyLength
    constructor
    · rintro ⟨i, hi, -⟩ hdvd
      rw [Lruc.hashIndex, if_pos (hashTableSize_eq_zero.mpr hdvd)] at hi
      cases hi
    · intro h
      have hsized : (lrucNew cacheSize averageLength seed).Sized := sized_lrucNew h
      exact ⟨_, hsized.hashIndex key keyLength, hsized.hash_lt key keyLength⟩
  · constructor
    · -- Any key that is looked up divides by zero.
      intro h hdvd
      refine (h 0 [.get (some ⟨0, [0]⟩) 1]).1 ?_
      rw [runFrom_cons, LrucCall.runChecked, lrucGetChecked, if_neg (by decide), Lruc.hashIndex,
        if_pos (hashTableSize_eq_zero.mpr hdvd)]
      rfl
    · exact fun h fuel calls => (sized_lrucNew h).inRange calls

/-- A cache smaller than its average item. -/
theorem lrucHash_divides :
    (lrucNew 100 1024 0).hashIndex (some ⟨1, [97, 0]⟩) 2 = .error (.undefined .divisionByZero) := by
  rfl

end New

end Cnpv
