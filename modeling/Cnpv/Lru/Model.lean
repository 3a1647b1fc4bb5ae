import Cnpv.CLib.Exec
import Mathlib.Data.List.TakeDrop
import Mathlib.Logic.Function.Basic

/-!
# The LRU cache (`ns_agent/lru.c`)

The cache as the code keeps it: items in a heap (`Lruc.heap`, an address is a number), linked
through their one `next` field into the bucket chains (`Lruc.items`) and the free list
(`Lruc.freeItems`). Allocations and mutex calls succeed, so a call is one step. The counters have
the widths of the source (`uint32_t` lengths, `uint64_t` memory and access counts).

`Lruc.freed` is a ledger: the addresses of the buffers that the cache gave to `free`, in order.
-/

namespace Cnpv

open CLib

/-- The address of an item. -/
abbrev Addr := Nat

/-- A buffer on the C heap: its address and its bytes. A buffer that the cache owns is not written
to. -/
structure Buffer where
  addr : Nat
  data : List UInt8
  deriving DecidableEq, Repr

/-- The `n` bytes at a pointer. Bytes past the end of the buffer, which C does not define, read
as 0. -/
def readBytes (p : Option Buffer) (n : Nat) : List UInt8 := (p.elim [] Buffer.data).takeD n 0

/-- What `free(p)` adds to the ledger: nothing for `NULL`. -/
def freeBuffer (p : Option Buffer) : List Nat := p.toList.map Buffer.addr

/-- `lruc_error` -/
inductive LrucError
  | noError | missingCache | missingKey | missingValue | pthreadError | valueTooLarge
  deriving DecidableEq, Repr

/-- `lruc_item` -/
structure LrucItem where
  value : Option Buffer := none
  key : Option Buffer := none
  valueLength : UInt32 := 0
  keyLength : UInt32 := 0
  accessCount : UInt64 := 0
  next : Option Addr := none
  deriving DecidableEq, Repr

/-- `lruc`, with the memory its items live in (module doc). -/
structure Lruc where
  items : List (Option Addr)
  accessCount : UInt64 := 0
  freeMemory : UInt64
  totalMemory : UInt64
  averageItemLength : UInt64
  hashTableSize : UInt32
  /-- The bits of the `time_t`. -/
  seed : UInt64
  freeItems : Option Addr := none
  heap : Addr → LrucItem := fun _ => {}
  /-- The address that the next `calloc` of an item returns. -/
  brk : Addr := 0
  freed : List Nat := []

namespace Lruc

/-- `cache->items[i]` -/
def bucket (c : Lruc) (i : Nat) : Option Addr := c.items[i]?.join

def setBucket (c : Lruc) (i : Nat) (p : Option Addr) : Lruc := { c with items := c.items.set i p }

def setItem (c : Lruc) (a : Addr) (it : LrucItem) : Lruc :=
  { c with heap := Function.update c.heap a it }

/-- The links of the items. -/
def next (c : Lruc) (a : Addr) : Option Addr := (c.heap a).next

end Lruc

/-! ## `lruc_hash` -/

/-- The 4 bytes at a `uint32_t *`, on a little-endian machine. -/
def readWord (b₀ b₁ b₂ b₃ : UInt8) : UInt32 :=
  b₀.toUInt32 ||| b₁.toUInt32 <<< 8 ||| b₂.toUInt32 <<< 16 ||| b₃.toUInt32 <<< 24

/-- A `char`, which is signed, promoted to `int`. -/
def promote (b : UInt8) : UInt32 := b.toInt8.toInt32.toUInt32

def murmurM : UInt32 := 0x5bd1e995

/-- The `while (key_length >= 4)` loop and the `switch` on the bytes that are left. -/
def murmurBytes : UInt32 → List UInt8 → UInt32
  | h, b₀ :: b₁ :: b₂ :: b₃ :: data =>
    let k := readWord b₀ b₁ b₂ b₃ * murmurM
    let k := (k ^^^ k >>> 24) * murmurM
    murmurBytes (h * murmurM ^^^ k) data
  | h, [b₀, b₁, b₂] => (h ^^^ promote b₂ <<< 16 ^^^ promote b₁ <<< 8 ^^^ promote b₀) * murmurM
  | h, [b₀, b₁] => (h ^^^ promote b₁ <<< 8 ^^^ promote b₀) * murmurM
  | h, [b₀] => (h ^^^ promote b₀) * murmurM
  | h, [] => h

/-- `lruc_hash`. A table of size 0, where the C code divides by zero, is not excluded here. -/
def lrucHash (c : Lruc) (key : Option Buffer) (keyLength : UInt32) : UInt32 :=
  let h := (c.seed ^^^ keyLength.toUInt64).toUInt32
  let h := murmurBytes h (readBytes key keyLength.toNat)
  let h := (h ^^^ h >>> 13) * murmurM
  (h ^^^ h >>> 15) % c.hashTableSize

/-- `memcmp` of as many bytes as both lists have. -/
def memcmp : List UInt8 → List UInt8 → Int
  | a :: as, b :: bs => if a = b then memcmp as bs else (a.toNat : Int) - b.toNat
  | _, _ => 0

/-- `lruc_cmp_keys` -/
def lrucCmpKeys (item : LrucItem) (key : Option Buffer) (keyLength : UInt32) : Int :=
  if keyLength ≠ item.keyLength then 1
  else memcmp (readBytes key keyLength.toNat) (readBytes item.key keyLength.toNat)

/-! ## Removal and eviction -/

/-- `lruc_remove_item` -/
def lrucRemoveItem (c : Lruc) (prev : Option Addr) (item : Addr) (hashIndex : UInt32) : Lruc :=
  let c := match prev with
    | some p => c.setItem p { c.heap p with next := c.next item }
    | none => c.setBucket hashIndex.toNat (c.next item)
  let it := c.heap item
  { c with
    freeMemory := c.freeMemory + it.valueLength.toUInt64
    freed := c.freed ++ freeBuffer it.value ++ freeBuffer it.key
    heap := Function.update c.heap item { next := c.freeItems }
    freeItems := some item }

/-- The minimum that `lruc_remove_lru_item` carries through its scan. -/
structure LruScan where
  minItem : Option Addr := none
  minPrev : Option Addr := none
  /-- -1 as a `uint32_t`. -/
  minIndex : UInt32 := 0xffffffff
  /-- -1 as a `uint64_t`. -/
  minAccessCount : UInt64 := 0xffffffffffffffff
  deriving DecidableEq

/-- The test of the inner loop for the item `a` after `prev` in bucket `i`. -/
def LruScan.visit (c : Lruc) (i : UInt32) (prev : Option Addr) (a : Addr) (m : LruScan) : LruScan :=
  if (c.heap a).accessCount < m.minAccessCount ∨ m.minAccessCount = 0xffffffffffffffff then
    { minItem := some a, minPrev := prev, minIndex := i, minAccessCount := (c.heap a).accessCount }
  else m

/-- The body of the inner loop; its state is the minimum, `prev` and `item`. -/
def scanItem (c : Lruc) (i : UInt32) (s : LruScan × Option Addr × Option Addr) :
    Exec (LruScan × Option Addr × Option Addr) :=
  match s.2.2 with
  | some a => .ok (s.1.visit c i s.2.1 a, some a, c.next a)
  | none => .ok s

/-- The inner loop, over the chain of bucket `i`. -/
def scanChain (fuel : Nat) (c : Lruc) (i : UInt32) (m : LruScan) : Exec LruScan := do
  let s ← whileLoop (fun s => s.2.2.isSome) (scanItem c i) fuel (m, none, c.bucket i.toNat)
  .ok s.1

/-- `lruc_remove_lru_item` -/
def lrucRemoveLruItem (fuel : Nat) (c : Lruc) : Exec Lruc := do
  let m ← runFrom (fun m i => scanChain fuel c (UInt32.ofNat i) m) {}
    (List.range c.hashTableSize.toNat)
  match m.minItem with
  | some a => .ok (lrucRemoveItem c m.minPrev a m.minIndex)
  | none => .ok c

/-- `lruc_pop_or_create_item` -/
def lrucPopOrCreateItem (c : Lruc) : Addr × Lruc :=
  match c.freeItems with
  | some a => (a, { c with freeItems := c.next a })
  | none => (c.brk, { c.setItem c.brk {} with brk := c.brk + 1 })

/-! ## The public interface -/

/-- `lruc_new`, when every allocation succeeds; `seed` is what `time` returns. -/
def lrucNew (cacheSize : UInt64) (averageLength : UInt32) (seed : UInt64) : Lruc where
  hashTableSize := (cacheSize / averageLength.toUInt64).toUInt32
  averageItemLength := averageLength.toUInt64
  freeMemory := cacheSize
  totalMemory := cacheSize
  seed := seed
  items := List.replicate (cacheSize / averageLength.toUInt64).toUInt32.toNat none

namespace Lruc

/-- The loop that looks for a key along a chain: where it stopped, `prev` and `item`. -/
def seek (fuel : Nat) (c : Lruc) (key : Option Buffer) (keyLength : UInt32) (item : Option Addr) :
    Exec (Option Addr × Option Addr) :=
  whileLoop
    (fun s => s.2.any fun a => lrucCmpKeys (c.heap a) key keyLength != 0)
    (fun s => .ok (s.2, s.2.bind c.next)) fuel (none, item)

/-- `lruc_set`: the value of an existing item is replaced. Returns the bytes required. -/
def updateItem (c : Lruc) (item : Addr) (value : Option Buffer) (valueLength : UInt32) :
    Lruc × Addr × UInt32 :=
  let it := c.heap item
  ({ c.setItem item { it with value, valueLength } with freed := c.freed ++ freeBuffer it.value },
    item, valueLength - it.valueLength)

/-- `prev->next = item`, or `cache->items[hash_index] = item` if there is no `prev`. -/
def linkAfter (c : Lruc) (prev : Option Addr) (hashIndex : UInt32) (item : Addr) : Lruc :=
  match prev with
  | some p => c.setItem p { c.heap p with next := some item }
  | none => c.setBucket hashIndex.toNat (some item)

/-- `lruc_set`: a new item is linked in after `prev`. Returns the bytes required. -/
def insertItem (c : Lruc) (hashIndex : UInt32) (prev : Option Addr) (key : Option Buffer)
    (keyLength : UInt32) (value : Option Buffer) (valueLength : UInt32) : Lruc × Addr × UInt32 :=
  let (item, c) := lrucPopOrCreateItem c
  let c := c.setItem item { c.heap item with value, key, valueLength, keyLength }
  (c.linkAfter prev hashIndex item, item, valueLength)

/-- `lruc_set`: the key is set, in the item where the search stopped or in a new one. Returns the
item and the bytes required. -/
def linkItem (c : Lruc) (hashIndex : UInt32) (prev found : Option Addr) (key : Option Buffer)
    (keyLength : UInt32) (value : Option Buffer) (valueLength : UInt32) : Lruc × Addr × UInt32 :=
  match found with
  | some item => c.updateItem item value valueLength
  | none => c.insertItem hashIndex prev key keyLength value valueLength

/-- `item->access_count = ++cache->access_count` -/
def touch (c : Lruc) (item : Addr) : Lruc :=
  { c with
    accessCount := c.accessCount + 1
    heap := Function.update c.heap item { c.heap item with accessCount := c.accessCount + 1 } }

/-- `lruc_set`: the eviction loop. -/
def makeRoom (fuel : Nat) (c : Lruc) (required : UInt32) : Exec Lruc :=
  if required > 0 ∧ required.toUInt64 > c.freeMemory then
    whileLoop (fun c => decide (c.freeMemory < required.toUInt64)) (lrucRemoveLruItem fuel) fuel c
  else .ok c

end Lruc

/-- `lruc_set` -/
def lrucSet (fuel : Nat) (c : Lruc) (key : Option Buffer) (keyLength : UInt32)
    (value : Option Buffer) (valueLength : UInt32) : Exec (LrucError × Lruc) :=
  if key.isNone ∨ keyLength = 0 then .ok (.missingKey, c)
  else if value.isNone ∨ valueLength = 0 then .ok (.missingValue, c)
  else if valueLength.toUInt64 > c.totalMemory then .ok (.valueTooLarge, c)
  else do
    let hashIndex := lrucHash c key keyLength
    let (prev, found) ← c.seek fuel key keyLength (c.bucket hashIndex.toNat)
    let (c, item, required) := c.linkItem hashIndex prev found key keyLength value valueLength
    let c ← (c.touch item).makeRoom fuel required
    .ok (.noError, { c with freeMemory := c.freeMemory - required.toUInt64 })

/-- `lruc_get`; `value` is what `*value` is before the call, and the result has what it is after
the call. -/
def lrucGet (fuel : Nat) (c : Lruc) (key : Option Buffer) (keyLength : UInt32)
    (value : Option Buffer) : Exec (LrucError × Option Buffer × Lruc) :=
  if key.isNone ∨ keyLength = 0 then .ok (.missingKey, value, c)
  else do
    let (_, item) ← c.seek fuel key keyLength (c.bucket (lrucHash c key keyLength).toNat)
    match item with
    | some a => .ok (.noError, (c.heap a).value, c.touch a)
    | none => .ok (.noError, none, c)

/-- `lruc_delete` -/
def lrucDelete (fuel : Nat) (c : Lruc) (key : Option Buffer) (keyLength : UInt32) :
    Exec (LrucError × Lruc) :=
  if key.isNone ∨ keyLength = 0 then .ok (.missingKey, c)
  else do
    let hashIndex := lrucHash c key keyLength
    let (prev, item) ← c.seek fuel key keyLength (c.bucket hashIndex.toNat)
    match item with
    | some a => .ok (.noError, lrucRemoveItem c prev a hashIndex)
    | none => .ok (.noError, c)

/-- A call of the public interface. -/
inductive LrucCall
  | set (key : Option Buffer) (keyLength : UInt32) (value : Option Buffer) (valueLength : UInt32)
  | get (key : Option Buffer) (keyLength : UInt32)
  | delete (key : Option Buffer) (keyLength : UInt32)

/-- The cache after a call. -/
def LrucCall.run (fuel : Nat) (c : Lruc) : LrucCall → Exec Lruc
  | .set key keyLength value valueLength =>
    Prod.snd <$> lrucSet fuel c key keyLength value valueLength
  | .get key keyLength => (fun r => r.2.2) <$> lrucGet fuel c key keyLength none
  | .delete key keyLength => Prod.snd <$> lrucDelete fuel c key keyLength

end Cnpv
