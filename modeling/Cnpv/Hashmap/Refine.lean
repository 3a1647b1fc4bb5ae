import Cnpv.Hashmap.Resize
import Mathlib.Data.Finmap

/-!
# The hash map is a finite map

`Dict` is what the map is for: a finite map with a size. It is out of memory when it is three
quarters full and does not get the memory for twice its size; then nothing is stored.

`Hashmap.Refines` connects the buckets with it, through the key and the value of an item, and each
call keeps it (`Refines.serve`), so the replies of every run are those of the finite map
(`serve_run`). The hash function is any function of the key.
-/

namespace Cnpv

open CLib CLib.RobinHood

/-- A finite map, its least and its present number of buckets, and whether it is out of memory. -/
structure Dict (κ β : Type) where
  items : Finmap (fun _ : κ => β) := ∅
  cap : Nat
  nbuckets : Nat
  oom : Bool := false

/-- A call of the map; `memory` tells whether the allocations that it makes succeed. -/
inductive HashmapCall (α : Type)
  | set (item : α) (memory : Bool)
  | get (key : α)
  | delete (key : α) (memory : Bool)
  | clear (updateCap memory : Bool)

/-- A call made; the reply is the item that it returns. -/
def HashmapCall.serve {α : Type} (cb : Callbacks α) (fuel : Nat) (map : Hashmap α) :
    HashmapCall α → Exec (Option α × Hashmap α)
  | .set item memory => hashmapSet cb fuel memory map item
  | .get key => do
    let item ← hashmapGet cb fuel map key
    .ok (item, map)
  | .delete key memory => hashmapDelete cb fuel memory map key
  | .clear updateCap memory => do
    let map ← hashmapClear cb memory updateCap map
    .ok (none, map)

namespace Dict

variable {α κ β : Type} [DecidableEq κ]

/-- The number of items. -/
def count (d : Dict κ β) : Nat := d.items.keys.card

/-- The number of items at which the map grows. -/
def growat (d : Dict κ β) : Nat := d.nbuckets * 3 / 4

def set (memory : Bool) (d : Dict κ β) (k : κ) (v : β) : Option β × Dict κ β :=
  if d.count = d.growat then
    if memory then
      (d.items.lookup k, { d with
        items := d.items.insert k v, nbuckets := d.nbuckets * 2, oom := false })
    else (none, { d with oom := true })
  else (d.items.lookup k, { d with items := d.items.insert k v, oom := false })

def delete (memory : Bool) (d : Dict κ β) (k : κ) : Option β × Dict κ β :=
  let d' := { d with items := d.items.erase k, oom := false }
  (d.items.lookup k,
    if k ∈ d.items ∧ d.cap < d.nbuckets ∧ d'.count ≤ d.nbuckets / 10 ∧ memory then
      { d' with nbuckets := d.nbuckets / 2 }
    else d')

def clear (updateCap : Bool) (d : Dict κ β) : Dict κ β :=
  if updateCap then { d with items := ∅, cap := d.nbuckets }
  else { d with items := ∅, nbuckets := d.cap }

/-- A call, on the keys and the values of its items. -/
def serve (key : α → κ) (val : α → β) (d : Dict κ β) : HashmapCall α → Option β × Dict κ β
  | .set item memory => d.set memory (key item) (val item)
  | .get item => (d.items.lookup (key item), d)
  | .delete item memory => d.delete memory (key item)
  | .clear updateCap _ => (none, d.clear updateCap)

/-- The replies of a run. -/
def replies (key : α → κ) (val : α → β) : Dict κ β → List (HashmapCall α) → List (Option β)
  | _, [] => []
  | d, call :: calls => (d.serve key val call).1 :: replies key val (d.serve key val call).2 calls

/-- After the calls. -/
def after (key : α → κ) (val : α → β) (d : Dict κ β) (calls : List (HashmapCall α)) : Dict κ β :=
  calls.foldl (fun d call => (d.serve key val call).2) d

/-- There are fewer than 65535 items before each call that stores one. -/
def Small (key : α → κ) (val : α → β) : Dict κ β → List (HashmapCall α) → Prop
  | _, [] => True
  | d, call :: calls => (∀ item memory, call = .set item memory → d.count + 1 < 2 ^ 16) ∧
    Small key val (d.serve key val call).2 calls

end Dict

namespace Hashmap

variable {α κ β : Type} [DecidableEq κ] {K : Keyed α κ} {val : α → β} {map : Hashmap α}
  {d : Dict κ β} {fuel : Nat} {item : α} {memory updateCap : Bool}

/-- The buckets have the items of the finite map. -/
def Holds (K : Keyed α κ) (val : α → β) (map : Hashmap α) (items : Finmap (fun _ : κ => β)) : Prop :=
  ∀ k v, items.lookup k = some v ↔ ∃ e, Has map.nbuckets map.slots e ∧ K.key e.2 = k ∧ val e.2 = v

/-- The map with its buckets, and the finite map that it is. -/
structure Refines (K : Keyed α κ) (val : α → β) (map : Hashmap α) (d : Dict κ β) : Prop where
  shape : map.Shape
  robin : map.Robin K
  hashed : map.Hashed K
  holds : map.Holds K val d.items
  count : map.count = map.size
  fits : map.count ≤ map.growat
  capPow : ∃ k, 4 ≤ k ∧ map.cap = 2 ^ k
  capLe : map.cap ≤ map.nbuckets
  cap : map.cap = d.cap
  nbuckets : map.nbuckets = d.nbuckets
  oom : map.oom = d.oom

theorem Holds.none_iff {items : Finmap (fun _ : κ => β)} {k : κ} (h : map.Holds K val items) :
    items.lookup k = none ↔
      ∀ i < map.nbuckets, (map.slots i).Full → K.key (map.buckets i).item ≠ k := by
  rw [Option.eq_none_iff_forall_ne_some]
  constructor
  · intro hno i hi hfull hkey
    exact hno _ ((h _ _).mpr ⟨_, ⟨i, hi, hfull, rfl⟩, hkey, rfl⟩)
  · intro hno v hv
    obtain ⟨e, ⟨i, hi, hfull, rfl⟩, hkey, -⟩ := (h _ _).mp hv
    exact hno i hi hfull hkey

/-- The keys of the finite map, one for each item. -/
theorem Holds.card {items : Finmap (fun _ : κ => β)} (h : map.Holds K val items)
    (hT : map.Robin K) : items.keys.card = map.size := by
  have hkeys : items.keys = ((Finset.range map.nbuckets).filter fun i => (map.slots i).Full).image
      fun i => K.key (map.slots i).entry.2 := by
    ext k
    rw [Finmap.mem_keys, ← Finmap.lookup_isSome, Option.isSome_iff_exists, Finset.mem_image]
    constructor
    · rintro ⟨v, hv⟩
      obtain ⟨e, ⟨i, hi, hfull, rfl⟩, hkey, -⟩ := (h k v).mp hv
      exact ⟨i, by simp [hi, hfull], hkey⟩
    · rintro ⟨i, hi, hkey⟩
      obtain ⟨hi, hfull⟩ := Finset.mem_filter.mp hi
      exact ⟨_, (h k _).mpr ⟨_, ⟨i, Finset.mem_range.mp hi, hfull, rfl⟩, hkey, rfl⟩⟩
  rw [hkeys, Finset.card_image_of_injOn]
  · rfl
  · intro i hi j hj hkey
    obtain ⟨hi, hifull⟩ := Finset.mem_filter.mp hi
    obtain ⟨hj, hjfull⟩ := Finset.mem_filter.mp hj
    exact hT.distinct i (Finset.mem_range.mp hi) j (Finset.mem_range.mp hj) hifull hjfull hkey

/-! ## What is stored -/

/-- An entry with a new key added. -/
theorem Holds.insert_of_added {items : Finmap (fun _ : κ => β)} {map' : Hashmap α} {hash : UInt64}
    (h : map.Holds K val items) (hno : items.lookup (K.key item) = none)
    (ha : ∀ e, Has map'.nbuckets map'.slots e ↔ (hash, item) = e ∨ Has map.nbuckets map.slots e) :
    map'.Holds K val (items.insert (K.key item) (val item)) := by
  intro k v
  by_cases hk : k = K.key item
  · subst hk
    rw [Finmap.lookup_insert, Option.some.injEq]
    constructor
    · rintro rfl
      exact ⟨_, (ha _).mpr (.inl rfl), rfl, rfl⟩
    · rintro ⟨e, he, hkey, rfl⟩
      rcases (ha e).mp he with rfl | ⟨i, hi, hfull, rfl⟩
      · rfl
      · exact absurd hkey (h.none_iff.mp hno i hi hfull)
  · rw [Finmap.lookup_insert_of_ne _ hk, h]
    constructor
    · rintro ⟨e, he, hkey, hv⟩
      exact ⟨e, (ha e).mpr (.inr he), hkey, hv⟩
    · rintro ⟨e, he, hkey, hv⟩
      rcases (ha e).mp he with rfl | he
      · exact absurd hkey.symm hk
      · exact ⟨e, he, hkey, hv⟩

/-- The item of a key replaced. -/
theorem Holds.insert_of_found {items : Finmap (fun _ : κ => β)} {i : Nat}
    (h : map.Holds K val items) (hT : map.Robin K) (hi : i < map.nbuckets)
    (hfull : (map.slots i).Full) (hkey : K.key (map.buckets i).item = K.key item) :
    (map.store i { map.buckets i with item }).Holds K val
      (items.insert (K.key item) (val item)) := by
  have hhas : ∀ e, Has map.nbuckets (map.store i { map.buckets i with item }).slots e ↔
      ((map.buckets i).hash, item) = e ∨
        ∃ j < map.nbuckets, j ≠ i ∧ (map.slots j).Full ∧ (map.slots j).entry = e := by
    intro e
    rw [slots_store]
    exact has_update hi hfull
  intro k v
  by_cases hk : k = K.key item
  · subst hk
    rw [Finmap.lookup_insert, Option.some.injEq]
    constructor
    · rintro rfl
      exact ⟨_, (hhas _).mpr (.inl rfl), rfl, rfl⟩
    · rintro ⟨e, he, hkey', rfl⟩
      rcases (hhas e).mp he with rfl | ⟨j, hj, hji, hjfull, rfl⟩
      · rfl
      · exact absurd (hT.distinct j hj i hi hjfull hfull (hkey'.trans hkey.symm)) hji
  · rw [Finmap.lookup_insert_of_ne _ hk, h]
    constructor
    · rintro ⟨e, ⟨j, hj, hjfull, rfl⟩, hkey', hv⟩
      have hji : j ≠ i := fun e => hk (by rw [← hkey', e]; exact hkey)
      exact ⟨_, (hhas _).mpr (.inr ⟨j, hj, hji, hjfull, rfl⟩), hkey', hv⟩
    · rintro ⟨e, he, hkey', hv⟩
      rcases (hhas e).mp he with rfl | ⟨j, hj, -, hjfull, rfl⟩
      · exact absurd hkey'.symm hk
      · exact ⟨_, ⟨j, hj, hjfull, rfl⟩, hkey', hv⟩

/-- The item of a key removed. -/
theorem Holds.erase_of_opened {items : Finmap (fun _ : κ => β)} {map' : Hashmap α} {i : Nat}
    (h : map.Holds K val items) (hT : map.Robin K) (hi : i < map.nbuckets)
    (hfull : (map.slots i).Full) (hkey : K.key (map.buckets i).item = K.key item)
    (hhas : ∀ e, Has map'.nbuckets map'.slots e ↔ Has map.nbuckets (map.opened i) e) :
    map'.Holds K val (items.erase (K.key item)) := by
  intro k v
  by_cases hk : k = K.key item
  · subst hk
    rw [Finmap.lookup_erase]
    refine iff_of_false (fun h => by cases h) ?_
    rintro ⟨e, he, hkey', -⟩
    obtain ⟨j, hj, hji, hjfull, rfl⟩ := has_clear.mp ((hhas e).mp he)
    exact hji (hT.distinct j hj i hi hjfull hfull (hkey'.trans hkey.symm))
  · rw [Finmap.lookup_erase_ne hk, h]
    constructor
    · rintro ⟨e, ⟨j, hj, hjfull, rfl⟩, hkey', hv⟩
      have hji : j ≠ i := fun e => hk (by rw [← hkey', e]; exact hkey)
      exact ⟨_, (hhas _).mpr (has_clear.mpr ⟨j, hj, hji, hjfull, rfl⟩), hkey', hv⟩
    · rintro ⟨e, he, hkey', hv⟩
      obtain ⟨j, hj, -, hjfull, rfl⟩ := has_clear.mp ((hhas e).mp he)
      exact ⟨_, ⟨j, hj, hjfull, rfl⟩, hkey', hv⟩

/-! ## The calls -/

/-- The items given to `iter`, until it returns `false`. -/
def visit {σ : Type} (iter : σ → α → Bool × σ) : σ → List α → Bool × σ
  | s, [] => (true, s)
  | s, a :: l => if (iter s a).1 then visit iter (iter s a).2 l else (false, (iter s a).2)

/-- The loop of `hashmap_scan` skips the empty buckets. -/
theorem scanFrom_eq {σ : Type} (hs : map.Shape) (iter : σ → α → Bool × σ) {is : List Nat}
    (his : ∀ i ∈ is, i < map.nbuckets) (s : σ) :
    scanFrom iter map s is = .ok (visit iter s
      ((is.filter fun i => (map.buckets i).dib ≠ 0).map fun i => (map.buckets i).item)) := by
  induction is generalizing s with
  | nil => rfl
  | cons i is ih =>
    have ih := ih fun j hj => his j (by simp [hj])
    rw [scanFrom, hs.bucketAt (his i (by simp)), Exec.ok_bind, List.filter_cons]
    by_cases hzero : (map.buckets i).dib = 0
    · have hskip : ¬ decide ((map.buckets i).dib ≠ 0) = true := fun h => of_decide_eq_true h hzero
      rw [if_pos hzero, if_neg hskip, ih]
    · rw [if_neg hzero, if_pos (decide_eq_true hzero), List.map_cons, visit]
      split_ifs
      · exact ih _
      · rfl

namespace Refines

/-- There is an empty bucket. -/
theorem exists_empty (h : map.Refines K val d) : ∃ z < map.nbuckets, ¬ (map.slots z).Full := by
  have hge := h.shape.ge
  have hfits := h.fits
  rw [h.count, h.shape.growat] at hfits
  exact RobinHood.exists_empty (Nat.lt_of_le_of_lt hfits (by omega))

theorem card (h : map.Refines K val d) : d.count = map.count :=
  (h.holds.card h.robin).trans h.count.symm

theorem growat (h : map.Refines K val d) : d.growat = map.growat := by
  rw [Dict.growat, ← h.nbuckets, h.shape.growat]

/-- The search finds a key that is in the finite map. -/
theorem find (h : map.Refines K val d) (hfuel : map.nbuckets ≤ fuel) (item : α) :
    (d.items.lookup (K.key item) = none ∧ Cnpv.find K.toCallbacks fuel map item = .ok none) ∨
      ∃ i < map.nbuckets, (map.slots i).Full ∧ K.key (map.buckets i).item = K.key item ∧
        d.items.lookup (K.key item) = some (val (map.buckets i).item) ∧
        Cnpv.find K.toCallbacks fuel map item = .ok (some i) := by
  cases hlookup : d.items.lookup (K.key item) with
  | none =>
    exact .inl ⟨rfl, find_none h.shape h.hashed (h.holds.none_iff.mp hlookup) h.exists_empty hfuel⟩
  | some v =>
    obtain ⟨e, ⟨i, hi, hfull, rfl⟩, hkey, rfl⟩ := (h.holds _ _).mp hlookup
    have hlt := h.robin.ordered.dib_lt h.exists_empty hi hfull
    exact .inr ⟨i, hi, hfull, hkey, rfl,
      find_some h.shape h.robin h.hashed hi hfull hkey (hlt.le.trans hfuel)⟩

/-- **`hashmap_get`** -/
theorem get (h : map.Refines K val d) (hfuel : map.nbuckets ≤ fuel) (item : α) :
    ∃ r, hashmapGet K.toCallbacks fuel map item = .ok r ∧
      r.map val = d.items.lookup (K.key item) := by
  rcases h.find hfuel item with ⟨hlookup, hfind⟩ | ⟨i, -, -, -, hlookup, hfind⟩
  · exact ⟨none, by rw [hashmapGet, hfind]; rfl, hlookup.symm⟩
  · exact ⟨some (map.buckets i).item, by rw [hashmapGet, hfind]; rfl, hlookup.symm⟩

/-- `oom` is no part of the buckets. -/
theorem setOom (h : map.Refines K val d) (oom : Bool) :
    Refines K val { map with oom } { d with oom } :=
  ⟨⟨h.shape.pow, h.shape.mask, h.shape.growat, h.shape.shrinkat, h.shape.room⟩, h.robin, h.hashed,
    h.holds, h.count, h.fits, h.capPow, h.capLe, h.cap, h.nbuckets, rfl⟩

/-- The end of `hashmap_set`, when there is room for the item. -/
theorem put (h : map.Refines K val d) (hsmall : map.count + 1 < 2 ^ 16)
    (hroom : map.count < map.growat) (hfuel : map.nbuckets ≤ fuel) (item : α) :
    ∃ r map', setLoop K.toCallbacks fuel map
        { hash := getHash K.toCallbacks map item, dib := 1, item }
        ((getHash K.toCallbacks map item).toNat &&& map.mask) = .ok (r, map') ∧
      r.map val = d.items.lookup (K.key item) ∧ map'.nbuckets = map.nbuckets ∧
      map'.Refines K val { d with items := d.items.insert (K.key item) (val item) } := by
  rcases h.find hfuel item with ⟨hlookup, -⟩ | ⟨i, hi, hfull, hkey, hlookup, -⟩
  · -- A new key.
    have hhome : homeOf map.nbuckets (getHash K.toCallbacks map item, item) < map.nbuckets :=
      Nat.mod_lt _ h.shape.pos
    obtain ⟨z, hz, hempty⟩ := h.exists_empty
    obtain ⟨t, ht, rfl⟩ := exists_walk hhome hz
    have hcarried : map.Carried K (homeOf map.nbuckets (getHash K.toCallbacks map item, item))
        { hash := getHash K.toCallbacks map item, dib := 1, item } :=
      carries_home h.robin hhome (h.holds.none_iff.mp hlookup)
    obtain ⟨B, -, hB, hadded⟩ := loops_added h.shape hcarried hhome (h.count ▸ hsmall) hempty
      (Nat.lt_of_lt_of_le ht hfuel)
    rw [h.shape.and_mask]
    refine ⟨none, _, hB, hlookup.symm, rfl, ?_⟩
    exact {
      shape := ⟨h.shape.pow, h.shape.mask, h.shape.growat, h.shape.shrinkat, h.shape.room⟩
      robin := hadded.table
      hashed := fun e he => by
        rcases (hadded.has e).mp he with rfl | he
        · rfl
        · exact h.hashed e he
      holds := h.holds.insert_of_added hlookup hadded.has
      count := (congrArg Nat.succ h.count).trans hadded.size.symm
      fits := hroom
      capPow := h.capPow
      capLe := h.capLe
      cap := h.cap
      nbuckets := h.nbuckets
      oom := h.oom }
  · have hlt := h.robin.ordered.dib_lt h.exists_empty hi hfull
    refine ⟨_, _, setLoop_of_found h.shape h.robin h.hashed hi hfull hkey (hlt.le.trans hfuel),
      hlookup.symm, rfl, ?_⟩
    have hslots := slots_store map i { map.buckets i with item }
    have hhash : (map.buckets i).hash = getHash K.toCallbacks map item :=
      ((h.hashed.match_iff hi hfull).mpr hkey).1
    exact {
      shape := h.shape.store _ _
      robin := by
        rw [Robin, hslots]
        refine ⟨h.robin.ordered.replace hi hfull rfl, fun j hj m hm hjfull hmfull hkeys => ?_⟩
        have hkeep : ∀ j, (Function.update map.slots i (Bucket.slot { map.buckets i with item })
            j).Full → (map.slots j).Full ∧ K.key (Function.update map.slots i
              (Bucket.slot { map.buckets i with item }) j).entry.2 = K.key (map.slots j).entry.2 := by
          intro j hj
          by_cases hji : j = i
          · subst hji
            rw [Function.update_self]
            exact ⟨hfull, hkey.symm⟩
          · rw [Function.update_of_ne hji] at hj ⊢
            exact ⟨hj, rfl⟩
        obtain ⟨hjfull, hjkey⟩ := hkeep j hjfull
        obtain ⟨hmfull, hmkey⟩ := hkeep m hmfull
        exact h.robin.distinct j hj m hm hjfull hmfull (hjkey.symm.trans (hkeys.trans hmkey))
      hashed := fun e he => by
        rw [hslots] at he
        rcases (has_update hi (show (Bucket.slot { map.buckets i with item }).Full from hfull)).mp he
          with rfl | ⟨j, hj, -, hjfull, rfl⟩
        · exact hhash
        · exact h.hashed _ ⟨j, hj, hjfull, rfl⟩
      holds := h.holds.insert_of_found h.robin hi hfull hkey
      count := by
        rw [size, hslots]
        exact h.count.trans (size_update_full hfull
          (show (Bucket.slot { map.buckets i with item }).Full from hfull)).symm
      fits := h.fits
      capPow := h.capPow
      capLe := h.capLe
      cap := h.cap
      nbuckets := h.nbuckets
      oom := h.oom }

/-- A map with the same items in `2 ^ k` buckets. -/
theorem resize {k : Nat} (h : map.Refines K val d) (hk : 4 ≤ k) (hk' : k ≤ 30)
    (hsmall : map.count < 2 ^ 16) (hroom : map.count ≤ 2 ^ k * 3 / 4) (hcap : map.cap ≤ 2 ^ k)
    (hfuel : 2 ^ k ≤ fuel) :
    ∃ map', Cnpv.resize K.toCallbacks fuel true map (2 ^ k) = .ok (some map') ∧
      map'.count = map.count ∧ map'.growat = 2 ^ k * 3 / 4 ∧ map'.seed0 = map.seed0 ∧
      map'.seed1 = map.seed1 ∧ map'.Refines K val { d with nbuckets := 2 ^ k } := by
  have h16 := Nat.pow_le_pow_right Nat.zero_lt_two hk
  obtain ⟨B, hB, hre⟩ := resize_some h.shape h.robin (h.count ▸ hsmall) hk hk'
    (h.count ▸ Nat.lt_of_le_of_lt hroom (by omega)) hfuel
  refine ⟨_, hB, rfl, rfl, rfl, rfl, ?_⟩
  exact {
    shape := hre.shape
    robin := hre.robin
    hashed := fun e he => h.hashed e ((hre.has e).mp he)
    holds := fun k v => (h.holds k v).trans (exists_congr fun e => and_congr_left' (hre.has e).symm)
    count := h.count.trans hre.size.symm
    fits := hroom
    capPow := h.capPow
    capLe := hcap
    cap := h.cap
    nbuckets := rfl
    oom := h.oom }

/-- **`hashmap_set`** -/
theorem set (h : map.Refines K val d) (hsmall : map.count + 1 < 2 ^ 16)
    (hfuel : map.nbuckets ≤ fuel) (hfuel' : 2 ^ 17 ≤ fuel) (memory : Bool) (item : α) :
    ∃ r map', hashmapSet K.toCallbacks fuel memory map item = .ok (r, map') ∧
      r.map val = (d.set memory (K.key item) (val item)).1 ∧ map'.nbuckets ≤ fuel ∧
      map'.Refines K val (d.set memory (K.key item) (val item)).2 := by
  have hclear := h.setOom false
  rw [hashmapSet, Dict.set, h.card, h.growat]
  by_cases hfull : map.count = map.growat
  · rw [if_pos hfull, if_pos hfull]
    obtain ⟨k, hk, -, hn⟩ := h.shape.pow
    have hdouble : map.nbuckets * 2 = 2 ^ (k + 1) := by rw [hn, Nat.pow_succ]
    have hge := h.shape.ge
    have hgrow := h.shape.growat
    -- Fewer than 65536 items are three quarters of at most 65536 buckets.
    have hk16 : k ≤ 16 := by
      by_contra hlt
      have := Nat.pow_le_pow_right Nat.zero_lt_two (Nat.lt_of_not_le hlt)
      omega
    have hle17 := Nat.pow_le_pow_right Nat.zero_lt_two (Nat.succ_le_succ hk16)
    rw [hdouble]
    cases memory with
    | true =>
      obtain ⟨map', hmap', hcount, hgrow', hs0, hs1, h'⟩ := hclear.resize (k := k + 1) (by omega)
        (by omega) (show map.count < _ by omega) (show map.count ≤ _ by omega)
        (show map.cap ≤ _ by have := h.capLe; omega) (hle17.trans hfuel')
      have hcount : map'.count = map.count := hcount
      obtain ⟨r, map'', hset, hr, hn'', h''⟩ := h'.put (by omega) (by omega)
        (h'.nbuckets.trans_le (hle17.trans hfuel')) item
      refine ⟨r, map'', ?_, hr, hn''.trans_le (h'.nbuckets.trans_le (hle17.trans hfuel')), ?_⟩
      · rw [hmap']
        exact hset
      · rw [← hdouble, h.nbuckets] at h''
        exact h''
    | false =>
      rw [resize_none (by omega) (by omega)]
      exact ⟨none, _, rfl, rfl, hfuel, h.setOom true⟩
  · rw [if_neg hfull, if_neg hfull]
    obtain ⟨r, map', hset, hr, hn, h'⟩ := hclear.put hsmall (Nat.lt_of_le_of_ne h.fits hfull) hfuel item
    exact ⟨r, map', hset, hr, hn.trans_le hfuel, h'⟩

/-- The end of `hashmap_delete`, with the item at the bucket `i`, before the map shrinks. -/
theorem remove {i : Nat} (h : map.Refines K val d) (hi : i < map.nbuckets)
    (hfull : (map.slots i).Full) (hkey : K.key (map.buckets i).item = K.key item)
    (hfuel : map.nbuckets ≤ fuel) :
    ∃ map', shiftLoop fuel (map.store i { map.buckets i with dib := 0 }) i = .ok map' ∧
      Refines K val { map' with count := map'.count - 1 }
        { d with items := d.items.erase (K.key item) } := by
  have hge := h.shape.ge
  have hslots := slots_empty map i
  have hopened : (map.store i { map.buckets i with dib := 0 }).opened i = map.opened i := by
    rw [opened, hslots, opened, Function.update_self, Function.update_idem]
    rfl
  have hhole := h.robin.hole hi (by omega)
  obtain ⟨z, hz, hempty⟩ := h.exists_empty
  obtain ⟨t, ht, rfl⟩ := exists_walk hi hz
  have ht0 : t ≠ 0 := by
    rintro rfl
    rw [walk_zero hi] at hempty
    exact hempty hfull
  have hstop : ((map.store i { map.buckets i with dib := 0 }).slots
      (walk map.nbuckets i t)).dib ≤ 1 := by
    rw [hslots, opened, update_dib]
    split
    · exact Nat.zero_le 1
    · rw [not_not.mp hempty]
      exact Nat.zero_le 1
  obtain ⟨B, hB, hT, hsize, hhas⟩ := shiftLoop_table (h.shape.store _ _)
    (show Hole _ _ _ ((map.store i { map.buckets i with dib := 0 }).opened i) i by
      rw [hopened]; exact hhole) hi (Nat.pos_of_ne_zero ht0) ht hstop
    (Nat.le_of_lt (Nat.lt_of_lt_of_le ht hfuel))
  rw [hopened] at hsize hhas
  have hcount : map.count - 1 = RobinHood.size map.nbuckets (map.opened i) := by
    have hclear := size_clear hi hfull
    rw [h.count, size, ← hclear]
    rfl
  refine ⟨_, hB, ?_⟩
  exact {
    shape := ⟨h.shape.pow, h.shape.mask, h.shape.growat, h.shape.shrinkat, h.shape.room⟩
    robin := hT
    hashed := fun e he => by
      obtain ⟨j, hj, -, hjfull, he⟩ := has_clear.mp ((hhas e).mp he)
      exact h.hashed e ⟨j, hj, hjfull, he⟩
    holds := h.holds.erase_of_opened h.robin hi hfull hkey hhas
    count := hcount.trans hsize.symm
    fits := (Nat.sub_le _ _).trans h.fits
    capPow := h.capPow
    capLe := h.capLe
    cap := h.cap
    nbuckets := h.nbuckets
    oom := h.oom }

/-- The end of `hashmap_delete`: a map that is a tenth full shrinks, down to its capacity. -/
theorem shrink (h : map.Refines K val d) (hsmall : map.count < 2 ^ 16)
    (hfuel : map.nbuckets ≤ fuel) (memory : Bool) (r : Option α) :
    ∃ map', (if map.cap < map.nbuckets ∧ map.count ≤ map.shrinkat then do
        let shrunk ← Cnpv.resize K.toCallbacks fuel memory map (map.nbuckets / 2)
        (.ok (r, shrunk.getD map) : Exec (Option α × Hashmap α))
      else .ok (r, map)) = .ok (r, map') ∧ map'.nbuckets ≤ fuel ∧
      map'.Refines K val (if d.cap < d.nbuckets ∧ d.count ≤ d.nbuckets / 10 ∧ memory then
        { d with nbuckets := d.nbuckets / 2 } else d) := by
  have hshrink := h.shape.shrinkat
  rw [← h.nbuckets, h.card, ← hshrink]
  by_cases hcond : map.cap < map.nbuckets ∧ map.count ≤ map.shrinkat
  · obtain ⟨k, -, hk', hn⟩ := h.shape.pow
    obtain ⟨j, hj, hcap⟩ := h.capPow
    have hjk : j < k := by
      have hlt := hcond.1
      rwa [hcap, hn, Nat.pow_lt_pow_iff_right (Nat.lt_succ_self 1)] at hlt
    obtain ⟨k, rfl⟩ : ∃ m, k = m + 1 := ⟨k - 1, by omega⟩
    have hhalf : map.nbuckets / 2 = 2 ^ k := by
      rw [hn, Nat.pow_succ, Nat.mul_div_cancel _ Nat.zero_lt_two]
    have hcap' : map.cap ≤ 2 ^ k := by
      rw [hcap]
      exact Nat.pow_le_pow_right Nat.zero_lt_two (Nat.le_of_lt_succ hjk)
    have hge := h.shape.ge
    rw [if_pos hcond, hhalf]
    cases memory with
    | true =>
      have hfuel' : 2 ^ k ≤ fuel := by omega
      obtain ⟨map', hmap', -, -, -, -, h'⟩ := h.resize (by omega) (by omega) hsmall (by omega) hcap'
        hfuel'
      rw [hmap', if_pos ⟨h.cap ▸ hcond.1, hcond.2, rfl⟩]
      exact ⟨map', rfl, by rw [h'.nbuckets]; show 2 ^ k ≤ fuel; omega, h'⟩
    | false =>
      rw [resize_none (by omega) (by omega), if_neg fun e => Bool.false_ne_true e.2.2]
      exact ⟨map, rfl, hfuel, h⟩
  · rw [if_neg hcond, if_neg fun e => hcond ⟨h.cap.trans_lt e.1, e.2.1⟩]
    exact ⟨map, rfl, hfuel, h⟩

/-- **`hashmap_delete`** -/
theorem delete (h : map.Refines K val d) (hsmall : map.count < 2 ^ 16)
    (hfuel : map.nbuckets ≤ fuel) (memory : Bool) (item : α) :
    ∃ r map', hashmapDelete K.toCallbacks fuel memory map item = .ok (r, map') ∧
      r.map val = (d.delete memory (K.key item)).1 ∧ map'.nbuckets ≤ fuel ∧
      map'.Refines K val (d.delete memory (K.key item)).2 := by
  have hclear := h.setOom false
  rw [hashmapDelete]
  rcases hclear.find hfuel item with ⟨hlookup, hfind⟩ | ⟨i, hi, hfull, hkey, hlookup, hfind⟩
  · have hmem : K.key item ∉ d.items := Finmap.lookup_eq_none.mp hlookup
    refine ⟨none, { map with oom := false }, by rw [hfind]; rfl, hlookup.symm, hfuel, ?_⟩
    rw [Dict.delete, if_neg fun e => hmem e.1]
    have hsame : d.items.erase (K.key item) = d.items := by
      refine Finmap.ext_lookup fun k => ?_
      by_cases hk : k = K.key item
      · rw [hk, Finmap.lookup_erase]
        exact hlookup.symm
      · exact Finmap.lookup_erase_ne hk
    rw [hsame]
    exact hclear
  · obtain ⟨map', hmap', h'⟩ := hclear.remove hi hfull hkey hfuel
    have hmem : K.key item ∈ d.items := Finmap.mem_of_lookup_eq_some hlookup
    have hless : map'.count - 1 < 2 ^ 16 := by
      refine Nat.lt_of_le_of_lt (h'.card.symm.trans_le ?_) hsmall
      rw [← h.card, Dict.count, Dict.count, Finmap.keys_erase]
      exact Finset.card_le_card (Finset.erase_subset _ _)
    have hn : map'.nbuckets = map.nbuckets := h'.nbuckets.trans h.nbuckets.symm
    obtain ⟨map'', hmap'', hn'', h''⟩ := h'.shrink hless (hn.trans_le hfuel) memory
      (some (map.buckets i).item)
    refine ⟨some (map.buckets i).item, map'', ?_, hlookup.symm, hn'', ?_⟩
    · rw [hfind, Exec.ok_bind, Option.elim_some]
      simp only [hmap', Exec.ok_bind]
      exact hmap''
    · rw [Dict.delete]
      simp only [hmem, true_and]
      exact h''

/-- A map that is zeroed. -/
theorem zeroed {n : Nat} (hs : map.Shape) (hcap : ∃ k, 4 ≤ k ∧ map.cap = 2 ^ k)
    (hle : map.cap ≤ map.nbuckets) (hcount : map.count = 0)
    (hzero : ∀ i < map.nbuckets, map.buckets i = zeroBucket K.toCallbacks)
    (hn : map.nbuckets = n) :
    map.Refines K val { items := ∅, cap := map.cap, nbuckets := n, oom := map.oom } := by
  have hempty : ∀ i < map.nbuckets, ¬ (map.slots i).Full := fun i hi hfull =>
    not_full_zero K.toCallbacks (hzero i hi ▸ hfull)
  exact {
    shape := hs
    robin := table_empty hempty
    hashed := fun e ⟨i, hi, hfull, _⟩ => absurd hfull (hempty i hi)
    holds := fun k v => by
      rw [Finmap.lookup_empty]
      refine iff_of_false (fun h => by cases h) ?_
      rintro ⟨e, ⟨i, hi, hfull, -⟩, -⟩
      exact hempty i hi hfull
    count := hcount.trans (size_empty hempty).symm
    fits := by
      rw [hcount]
      exact Nat.zero_le _
    capPow := hcap
    capLe := hle
    cap := rfl
    nbuckets := hn
    oom := rfl }

/-- **`hashmap_clear`** -/
theorem clear (h : map.Refines K val d) (hfuel : map.nbuckets ≤ fuel) (updateCap memory : Bool) :
    ∃ map', hashmapClear K.toCallbacks memory updateCap map = .ok map' ∧ map'.nbuckets ≤ fuel ∧
      map'.Refines K val (d.clear updateCap) := by
  obtain ⟨k, hk, hk', hn⟩ := h.shape.pow
  obtain ⟨j, hj, hcap⟩ := h.capPow
  have hj' : j ≤ 30 := by
    have hle := h.capLe
    rw [hcap, hn, Nat.pow_le_pow_iff_right (Nat.lt_succ_self 1)] at hle
    exact hle.trans hk'
  have hzero : ∀ n (f : Nat → Bucket α), ∀ i < n,
      (if i < n then zeroBucket K.toCallbacks else f i) = zeroBucket K.toCallbacks :=
    fun n f i hi => if_pos hi
  rw [hashmapClear, Dict.clear, ← h.cap, ← h.nbuckets, ← h.oom]
  cases updateCap with
  | true =>
    simp only [if_true]
    rw [if_pos h.shape.room]
    refine ⟨_, rfl, hfuel, ?_⟩
    exact zeroed ⟨⟨k, hk, hk', hn⟩, rfl, rfl, rfl, h.shape.room⟩ ⟨k, hk, hn⟩ (Nat.le_refl _) rfl
      (hzero _ _) rfl
  | false =>
    simp only [Bool.false_eq_true, if_false]
    by_cases hsame : map.nbuckets ≠ map.cap
    · simp only [if_pos hsame]
      have hroom : map.cap ≤ if memory then map.cap else map.room := by
        split
        · exact Nat.le_refl _
        · exact h.capLe.trans h.shape.room
      rw [if_pos hroom]
      refine ⟨_, rfl, h.capLe.trans hfuel, ?_⟩
      exact zeroed ⟨⟨j, hj, hj', hcap⟩, rfl, rfl, rfl, hroom⟩ h.capPow (Nat.le_refl _) rfl
        (hzero _ _) rfl
    · simp only [if_neg hsame]
      rw [if_pos h.shape.room]
      refine ⟨_, rfl, hfuel, ?_⟩
      exact zeroed ⟨⟨k, hk, hk', hn⟩, rfl, rfl, rfl, h.shape.room⟩ h.capPow h.capLe rfl
        (hzero _ _) (not_not.mp hsame)

/-- The items, in the order of their buckets. -/
theorem scanned (h : map.Refines K val d) :
    ∃ l : List α, (∀ {σ : Type} (iter : σ → α → Bool × σ) s, hashmapScan iter map s = .ok (visit iter s l)) ∧
      (l.map K.key).Nodup ∧ ∀ k v, d.items.lookup k = some v ↔ ∃ a ∈ l, K.key a = k ∧ val a = v := by
  have hmem : ∀ i, i ∈ (List.range map.nbuckets).filter (fun i => (map.buckets i).dib ≠ 0) ↔
      i < map.nbuckets ∧ (map.slots i).Full := by
    intro i
    rw [List.mem_filter, List.mem_range, decide_eq_true_iff, Ne, dib_eq_zero_iff, not_not]
    rfl
  refine ⟨((List.range map.nbuckets).filter fun i => (map.buckets i).dib ≠ 0).map
    fun i => (map.buckets i).item, fun iter s => ?_, ?_, fun k v => ?_⟩
  · exact scanFrom_eq h.shape iter (fun i hi => List.mem_range.mp hi) s
  · rw [List.map_map]
    refine List.Nodup.map_on ?_ (List.nodup_range.filter _)
    intro i hi j hj hkey
    obtain ⟨hi, hifull⟩ := (hmem i).mp hi
    obtain ⟨hj, hjfull⟩ := (hmem j).mp hj
    exact h.robin.distinct i hi j hj hifull hjfull hkey
  · rw [h.holds]
    constructor
    · rintro ⟨e, ⟨i, hi, hfull, rfl⟩, hkey, hv⟩
      exact ⟨_, List.mem_map_of_mem ((hmem i).mpr ⟨hi, hfull⟩), hkey, hv⟩
    · rintro ⟨a, ha, hkey, hv⟩
      obtain ⟨i, hi, rfl⟩ := List.mem_map.mp ha
      obtain ⟨hi, hfull⟩ := (hmem i).mp hi
      exact ⟨_, ⟨i, hi, hfull, rfl⟩, hkey, hv⟩

/-- **Each call** gives the reply of the finite map, and keeps the connection. -/
theorem serve (h : map.Refines K val d) (hfuel : map.nbuckets ≤ fuel) (hfuel' : 2 ^ 17 ≤ fuel)
    (hsmall : map.count < 2 ^ 16) (call : HashmapCall α)
    (hset : ∀ item memory, call = .set item memory → d.count + 1 < 2 ^ 16) :
    ∃ r map', call.serve K.toCallbacks fuel map = .ok (r, map') ∧
      r.map val = (d.serve K.key val call).1 ∧ map'.nbuckets ≤ fuel ∧
      map'.Refines K val (d.serve K.key val call).2 := by
  cases call with
  | set item memory => exact h.set (h.card ▸ hset item memory rfl) hfuel hfuel' memory item
  | get key =>
    obtain ⟨r, hr, hval⟩ := h.get hfuel key
    exact ⟨r, map, by rw [HashmapCall.serve, hr]; rfl, hval, hfuel, h⟩
  | delete key memory => exact h.delete hsmall hfuel memory key
  | clear updateCap memory =>
    obtain ⟨map', hmap', hn, h'⟩ := h.clear hfuel updateCap memory
    exact ⟨none, map', by rw [HashmapCall.serve, hmap']; rfl, rfl, hn, h'⟩

end Refines

end Hashmap

namespace Dict

variable {α κ β : Type} [DecidableEq κ] {key : α → κ} {val : α → β} {d : Dict κ β}

theorem card_insert_le (items : Finmap fun _ : κ => β) (k : κ) (v : β) :
    (items.insert k v).keys.card ≤ items.keys.card + 1 := by
  have hkeys : (items.insert k v).keys ⊆ insert k items.keys := by
    intro k' hk'
    rw [Finmap.mem_keys, Finmap.mem_insert] at hk'
    rw [Finset.mem_insert, Finmap.mem_keys]
    exact hk'
  exact (Finset.card_le_card hkeys).trans (Finset.card_insert_le _ _)

/-- A call adds at most the item that it stores. -/
theorem count_serve (key : α → κ) (val : α → β) (d : Dict κ β) (call : HashmapCall α) :
    (d.serve key val call).2.count ≤ d.count ∨
      ∃ item memory, call = .set item memory ∧ (d.serve key val call).2.count ≤ d.count + 1 := by
  cases call with
  | set item memory =>
    refine .inr ⟨item, memory, rfl, ?_⟩
    have hinsert := card_insert_le d.items (key item) (val item)
    rw [serve, set]
    split_ifs
    · exact hinsert
    · exact Nat.le_succ _
    · exact hinsert
  | get key => exact .inl (Nat.le_refl _)
  | delete item memory =>
    refine .inl ?_
    have herase : (d.items.erase (key item)).keys.card ≤ d.items.keys.card := by
      rw [Finmap.keys_erase]
      exact Finset.card_le_card (Finset.erase_subset _ _)
    rw [serve, delete]
    split_ifs <;> exact herase
  | clear updateCap memory =>
    refine .inl ?_
    rw [serve, clear]
    split <;> exact Nat.zero_le _

end Dict

section Run

variable {α κ β : Type} [DecidableEq κ] {K : Keyed α κ} {val : α → β} {map : Hashmap α}
  {d : Dict κ β} {fuel cap : Nat} {seed0 seed1 : UInt64} {calls : List (HashmapCall α)}

/-- A new map is empty. -/
theorem refines_hashmapNew (K : Keyed α κ) (val : α → β) (seed0 seed1 : UInt64)
    (hcap : cap ≤ 2 ^ 30) :
    ∃ map, hashmapNew K.toCallbacks true cap seed0 seed1 = .ok (some map) ∧
      map.nbuckets = map.cap ∧ (map.cap = 16 ∨ map.cap < 2 * cap) ∧
      map.Refines K val { cap := map.cap, nbuckets := map.cap } := by
  obtain ⟨k, hk, hk', hround, -, hbound⟩ := roundCap_ok hcap
  exact ⟨_, Hashmap.hashmapNew_ok hround, rfl, hbound,
    .zeroed (Hashmap.shape_fresh _ hk hk' _ _) ⟨k, hk, rfl⟩ (Nat.le_refl _) rfl (fun _ _ => rfl) rfl⟩

/-- What every run of calls keeps. -/
theorem Hashmap.Refines.run (h : map.Refines K val d) (hfuel : map.nbuckets ≤ fuel)
    (hfuel' : 2 ^ 17 ≤ fuel) (hsmall : d.count < 2 ^ 16) (hcalls : d.Small K.key val calls) :
    (trace (fun map call => HashmapCall.serve K.toCallbacks fuel map call) map calls).map
        (fun e => e.2.2.map val) = d.replies K.key val calls ∧
      ∃ map', runFrom (fun map call => Prod.snd <$> call.serve K.toCallbacks fuel map) map calls =
        .ok map' ∧ map'.Refines K val (d.after K.key val calls) := by
  induction calls generalizing map d with
  | nil => exact ⟨rfl, map, rfl, h⟩
  | cons call calls ih =>
    obtain ⟨r, map', hr, hval, hn, h'⟩ := h.serve hfuel hfuel' (h.card ▸ hsmall) call hcalls.1
    have hsmall' : (d.serve K.key val call).2.count < 2 ^ 16 := by
      rcases Dict.count_serve K.key val d call with hle | ⟨item, memory, hcall, hle⟩
      · exact Nat.lt_of_le_of_lt hle hsmall
      · exact Nat.lt_of_le_of_lt hle (hcalls.1 item memory hcall)
    obtain ⟨hreplies, map'', hrun, h''⟩ := ih h' hn hsmall' hcalls.2
    constructor
    · simp only [trace, hr, List.map_cons, hval, hreplies]
      rfl
    · refine ⟨map'', ?_, h''⟩
      rw [runFrom_cons, hr]
      exact hrun

end Run

/-- **The hash map is a finite map**, in every run of its calls, with allocations that fail or not:
each call returns, with the reply of the finite map, if there are fewer than 65536 items. -/
theorem hashmap_run {α κ β : Type} [DecidableEq κ] (K : Keyed α κ) (val : α → β) {fuel cap : Nat}
    (seed0 seed1 : UInt64) (calls : List (HashmapCall α)) (hcap : cap ≤ 2 ^ 30)
    (hfuel : 2 * cap ≤ fuel) (hfuel' : 2 ^ 17 ≤ fuel) :
    ∃ map, hashmapNew K.toCallbacks true cap seed0 seed1 = .ok (some map) ∧
      let d : Dict κ β := { cap := map.cap, nbuckets := map.cap }
      (d.Small K.key val calls →
        (trace (fun map call => HashmapCall.serve K.toCallbacks fuel map call) map calls).map
          (fun e => e.2.2.map val) = d.replies K.key val calls ∧
        ∃ map', runFrom (fun map call => Prod.snd <$> call.serve K.toCallbacks fuel map) map calls =
          .ok map' ∧ map'.Refines K val (d.after K.key val calls)) := by
  obtain ⟨map, hnew, hn, hbound, h⟩ := refines_hashmapNew K val seed0 seed1 hcap
  refine ⟨map, hnew, fun hsmall => h.run (hn.trans_le (by omega)) hfuel' ?_ hsmall⟩
  exact Nat.lt_of_le_of_lt (Nat.le_of_eq rfl) (by decide : 0 < 2 ^ 16)

/-- Numbers, each with itself as its hash. -/
def natKeyed : Keyed Nat Nat where
  hash := fun n _ _ => n.toUInt64
  compare := fun a b => (a : Int) - b
  zero := 0
  key := id
  compare_iff := fun _ _ => Int.sub_eq_zero.trans Int.natCast_inj
  hash_eq := fun _ _ _ _ h => congrArg Nat.toUInt64 h

/-- A number that is stored, and then found. -/
theorem hashmap_run_two :
    ∃ map, hashmapNew natKeyed.toCallbacks true 0 0 0 = .ok (some map) ∧
      (trace (fun map call => HashmapCall.serve natKeyed.toCallbacks (2 ^ 17) map call) map
        [.set 7 true, .get 7]).map (fun e => e.2.2.map id) =
          ({ cap := map.cap, nbuckets := map.cap } : Dict Nat Nat).replies id id
            [.set 7 true, .get 7] := by
  obtain ⟨map, hnew, hrun⟩ := hashmap_run natKeyed id 0 0 [.set 7 true, .get 7]
    (show 0 ≤ 2 ^ 30 by decide) (show 2 * 0 ≤ 2 ^ 17 by decide) (Nat.le_refl _)
  exact ⟨map, hnew, (hrun ⟨fun _ _ _ => (by decide : 0 + 1 < 2 ^ 16), fun _ _ h => (by cases h),
    trivial⟩).1⟩

/-- **`hashmap_scan` visits each item once**, after every run of calls. -/
theorem hashmap_scan_run {α κ β : Type} [DecidableEq κ] (K : Keyed α κ) (val : α → β)
    {fuel cap : Nat} (seed0 seed1 : UInt64) (calls : List (HashmapCall α)) (hcap : cap ≤ 2 ^ 30)
    (hfuel : 2 * cap ≤ fuel) (hfuel' : 2 ^ 17 ≤ fuel) :
    ∃ map, hashmapNew K.toCallbacks true cap seed0 seed1 = .ok (some map) ∧
      let d : Dict κ β := { cap := map.cap, nbuckets := map.cap }
      (d.Small K.key val calls → ∃ map' l,
        runFrom (fun map call => Prod.snd <$> call.serve K.toCallbacks fuel map) map calls = .ok map' ∧
        (∀ {σ : Type} (iter : σ → α → Bool × σ) s,
          hashmapScan iter map' s = .ok (Hashmap.visit iter s l)) ∧
        (l.map K.key).Nodup ∧ ∀ k v, (d.after K.key val calls).items.lookup k = some v ↔
          ∃ a ∈ l, K.key a = k ∧ val a = v) := by
  obtain ⟨map, hnew, hn, hbound, h⟩ := refines_hashmapNew K val seed0 seed1 hcap
  refine ⟨map, hnew, fun hsmall => ?_⟩
  obtain ⟨-, map', hrun, h'⟩ := h.run (hn.trans_le (by omega)) hfuel'
    (Nat.lt_of_le_of_lt (Nat.le_of_eq rfl) (by decide : 0 < 2 ^ 16)) hsmall
  obtain ⟨l, hscan, hnodup, hmem⟩ := h'.scanned
  exact ⟨map', l, hrun, hscan, hnodup, hmem⟩

/-- Of three numbers one is deleted, and one is stored twice. -/
theorem hashmap_scan_run_deleted :
    ∃ map map' l, hashmapNew natKeyed.toCallbacks true 0 0 0 = .ok (some map) ∧
      runFrom (fun map call => Prod.snd <$> HashmapCall.serve natKeyed.toCallbacks (2 ^ 17) map call)
        map [.set 7 true, .set 8 true, .delete 7 true, .set 9 true, .set 8 true] = .ok map' ∧
      l.Nodup ∧ (∀ n, n ∈ l ↔ n = 8 ∨ n = 9) ∧
      hashmapScan (fun s n => (true, s + n)) map' 0 = .ok (Hashmap.visit (fun s n => (true, s + n)) 0 l) := by
  obtain ⟨map, hnew, hrun⟩ := hashmap_scan_run natKeyed id 0 0
    [.set 7 true, .set 8 true, .delete 7 true, .set 9 true, .set 8 true]
    (show 0 ≤ 2 ^ 30 by decide) (show 2 * 0 ≤ 2 ^ 17 by decide) (Nat.le_refl _)
  obtain ⟨m, hm, hcap⟩ := Exec.of_returned (x := hashmapNew natKeyed.toCallbacks true 0 0 0)
    (p := fun m => m.map Hashmap.cap = some 16) (by decide)
  obtain rfl := Except.ok.inj (hnew.symm.trans hm)
  have hcap : map.cap = 16 := Option.some.inj (of_decide_eq_true hcap)
  rw [hcap] at hrun
  obtain ⟨map', l, hmap', hscan, hnodup, hmem⟩ := hrun ⟨fun _ _ _ => by decide, fun _ _ _ => by decide,
    fun _ _ _ => by decide, fun _ _ _ => by decide, fun _ _ _ => by decide, trivial⟩
  refine ⟨map, map', l, hnew, hmap', List.map_id l ▸ hnodup, fun n => ?_, hscan _ _⟩
  have hitems : (({ cap := 16, nbuckets := 16 } : Dict Nat Nat).after natKeyed.key id
      [.set 7 true, .set 8 true, .delete 7 true, .set 9 true, .set 8 true]).items =
      (Finmap.singleton 8 8).insert 9 9 := by decide
  have hn : n ∈ l ↔ ∃ a ∈ l, natKeyed.key a = n ∧ id a = n :=
    ⟨fun h => ⟨n, h, rfl, rfl⟩, fun ⟨_, ha, h, _⟩ => h ▸ ha⟩
  rw [hn, ← hmem n n, hitems]
  by_cases h9 : n = 9
  · subst h9
    exact iff_of_true (Finmap.lookup_insert _) (.inr rfl)
  · rw [Finmap.lookup_insert_of_ne _ h9]
    by_cases h8 : n = 8
    · subst h8
      exact iff_of_true (Finmap.lookup_singleton_eq) (.inl rfl)
    · have hnone : (Finmap.singleton 8 8 : Finmap fun _ : Nat => Nat).lookup n = none :=
        Finmap.lookup_eq_none.mpr fun h => h8 ((Finmap.mem_singleton _ _ _).mp h)
      simp [hnone, h8, h9]

end Cnpv
