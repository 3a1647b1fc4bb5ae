import Cnpv.Agent.Cache
import Cnpv.CLib.Recency

/-!
# The verdict cache is an exact LRU map of 64 keys

`Tracks c r`: the entries of the cache `c`, in the order of their access counts, are the 64 most
recently used keys of the history `r`, with their latest values. Every operation keeps this
(`Tracks.run`), so a lookup after any run answers from the history (`cacheGet_recent`).

The length of a key goes to the cache as a `uint32_t`: a key of `2 ^ 32 - 1` bytes has length 0
there, and looking it up ends the process (`cacheGet_exits`).
-/

namespace Cnpv

open CLib

/-- An operation of the verdict cache. -/
inductive CacheOp
  | insert (key value : CStr)
  | get (key : CStr)

namespace CacheOp

def key : CacheOp → CStr
  | .insert key _ => key
  | .get key => key

/-- The cache after an operation. -/
def run (fuel : Nat) (c : VerdictCache) : CacheOp → Exec VerdictCache
  | .insert key value => cacheInsert fuel c key value
  | .get key => Prod.snd <$> cacheGet fuel c key none

/-- The history after an operation: an insertion is a use of its key, and so is a lookup of one of
the 64 most recently used keys. -/
def record (r : Recency CStr CStr) : CacheOp → Recency CStr CStr
  | .insert key value => r.insert key value
  | .get key => (r.get 64 key).2

theorem uses_le_record (r : Recency CStr CStr) (op : CacheOp) : r.uses ≤ (op.record r).uses := by
  cases op with
  | insert key value => exact Nat.le_succ _
  | get key =>
    simp only [record, Recency.get]
    split
    · exact Nat.le_succ _
    · exact Nat.le_refl _

end CacheOp

/-- The history after the operations `ops`. -/
def history (ops : List CacheOp) : Recency CStr CStr := ops.foldl CacheOp.record {}

/-! ## The entries in the order of their use -/

/-- The entries `es` of the table `t`, most recently used first, are those of the history `r`. -/
structure Table.Lists (t : Table) (r : Recency CStr CStr) (es : List LrucItem) : Prop where
  entries : t.entries = es
  sorted : es.Pairwise fun e e' => e'.accessCount < e.accessCount
  count : t.accessCount.toNat = r.uses
  count_le : ∀ e ∈ es, e.accessCount ≤ t.accessCount
  keys : es.map itemKey = (r.recent.take 64).map CStr.buf
  latest : ∀ e ∈ es, ∀ k, itemKey e = k.buf → e.value.map Buffer.str = r.latest k

namespace Table

variable {t t' : Table} {r r' : Recency CStr CStr} {es rest : List LrucItem} {e : LrucItem}
  {k v : CStr} {b b' : Buffer}

theorem Lists.keys_nodup (h : t.Lists r es) : (es.map itemKey).Nodup := by
  rw [h.keys]
  exact List.Nodup.map (fun _ _ e => CStr.buf_inj.mp e) (r.nodup.sublist (List.take_sublist _ _))

theorem Lists.key_inj (h : t.Lists r es) {e' : LrucItem} (he : e ∈ es) (he' : e' ∈ es)
    (hk : itemKey e = itemKey e') : e = e' :=
  List.inj_on_of_nodup_map h.keys_nodup he he' hk

theorem Lists.mem_entries (h : t.Lists r es) : e ∈ t.entries ↔ e ∈ es := by
  rw [h.entries, Multiset.mem_coe]

/-- The key `k` is one of the 64 most recently used keys if it has an entry. -/
theorem Lists.mem_recent (h : t.Lists r es) :
    k ∈ r.recent.take 64 ↔ ∃ e ∈ t.entries, itemKey e = k.buf := by
  have hmem : k.buf ∈ es.map itemKey ↔ k ∈ r.recent.take 64 := by
    rw [h.keys]
    exact List.mem_map_of_injective fun _ _ e => CStr.buf_inj.mp e
  rw [← hmem, List.mem_map]
  simp only [h.mem_entries]

/-- The keys of the entries after a use of the entry `e`. -/
theorem Lists.keys_use (h : t.Lists r es) (he : e ∈ es) (hk : itemKey e = k.buf) :
    (k.buf :: (es.erase e).map itemKey) = ((k :: r.recent.erase k).take 64).map CStr.buf := by
  have hmem : k ∈ r.recent.take 64 := h.mem_recent.mpr ⟨e, h.mem_entries.mpr he, hk⟩
  rw [Recency.take_use_of_mem hmem, List.map_cons,
    Recency.map_erase fun _ _ e => CStr.buf_inj.mp e, ← h.keys, ← hk,
    Recency.map_erase fun e' he' hk' => h.key_inj he' he hk']

/-- The keys of the entries after an insertion: the 64th entry leaves. -/
theorem Lists.keys_insert (h : t.Lists r es) (hnone : ∀ e ∈ t.entries, itemKey e ≠ k.buf) :
    (k.buf :: (es.take 63).map itemKey) = ((k :: r.recent.erase k).take 64).map CStr.buf := by
  have hmem : k ∉ r.recent.take 64 := fun hk =>
    let ⟨e, he, hke⟩ := h.mem_recent.mp hk
    hnone e he hke
  rw [Recency.take_use_of_notMem hmem, List.take_succ_cons, List.map_cons, List.map_take, h.keys,
    ← List.map_take]

theorem Lists.count_next (h : t.Lists r es) (huses : r.uses + 1 < 2 ^ 64) :
    (t.accessCount + 1).toNat = r.uses + 1 := by
  rw [UInt64.toNat_add, h.count]
  exact Nat.mod_eq_of_lt huses

/-- The next access count is new. -/
theorem Lists.lt_next (h : t.Lists r es) (huses : r.uses + 1 < 2 ^ 64) :
    ∀ e ∈ es, e.accessCount < t.accessCount + 1 := by
  intro e he
  have hle := UInt64.le_iff_toNat_le.mp (h.count_le e he)
  rw [UInt64.lt_iff_toNat_lt, h.count_next huses, ← h.count]
  omega

/-- The entry with the least access count is the last one, also beside a newer entry. -/
theorem Lists.least (h : t.Lists r es) {e' new : LrucItem} (hes : es = rest ++ [e'])
    (hnew : ∀ e ∈ es, e.accessCount < new.accessCount) (he : e ∈ new ::ₘ t.entries)
    (hmin : ∀ e' ∈ new ::ₘ t.entries, e.accessCount ≤ e'.accessCount) : e = e' := by
  have hmem : e' ∈ es := by simp [hes]
  have hle := hmin e' (Multiset.mem_cons_of_mem (h.mem_entries.mpr hmem))
  rcases Multiset.mem_cons.mp he with rfl | he
  · exact absurd (hnew e' hmem) (UInt64.not_lt.mpr hle)
  · have he := h.mem_entries.mp he
    rw [hes] at he
    rcases List.mem_append.mp he with he | he
    · have hlt := (List.pairwise_append.mp (hes ▸ h.sorted)).2.2 e he e' (by simp)
      exact absurd hlt (UInt64.not_lt.mpr hle)
    · simpa using he

/-- An edit that puts the entry `e` of the key `k` first, before some of the others. -/
theorem Lists.push (h : t.Lists r es) (hrest : rest.Sublist es) (huses : r.uses + 1 < 2 ^ 64)
    (hne : ∀ e' ∈ rest, itemKey e' ≠ k.buf) (hke : itemKey e = k.buf)
    (hcount : e.accessCount = t.accessCount + 1) (hvalue : e.value.map Buffer.str = r'.latest k)
    (hentries : t'.entries = (e :: rest : List LrucItem))
    (hcount' : t'.accessCount = t.accessCount + 1) (huses' : r'.uses = r.uses + 1)
    (hlatest : ∀ k', k' ≠ k → r'.latest k' = r.latest k')
    (hkeys : k.buf :: rest.map itemKey = (r'.recent.take 64).map CStr.buf) :
    t'.Lists r' (e :: rest) := by
  have hlt : ∀ e' ∈ rest, e'.accessCount < t.accessCount + 1 :=
    fun e' he' => h.lt_next huses e' (hrest.subset he')
  exact {
    entries := hentries
    sorted := List.pairwise_cons.mpr ⟨fun e' he' => hcount ▸ hlt e' he', h.sorted.sublist hrest⟩
    count := by rw [hcount', h.count_next huses, huses']
    count_le := fun e' he' => by
      rw [hcount']
      rcases List.mem_cons.mp he' with rfl | he'
      · exact hcount ▸ UInt64.le_refl _
      · exact UInt64.le_of_lt (hlt e' he')
    keys := by rw [List.map_cons, hke, hkeys]
    latest := fun e' he' k' hk' => by
      rcases List.mem_cons.mp he' with rfl | he'
      · rw [← CStr.buf_inj.mp (hke.symm.trans hk'), hvalue]
      · have hkk : k' ≠ k := fun e => hne e' he' (e ▸ hk')
        rw [hlatest k' hkk]
        exact h.latest e' (hrest.subset he') k' hk' }

/-- The other entries have other keys. -/
theorem Lists.erase_ne (h : t.Lists r es) (he : e ∈ es) (hk : itemKey e = k.buf) :
    ∀ e' ∈ es.erase e, itemKey e' ≠ k.buf := by
  intro e' he' hk'
  obtain rfl := h.key_inj (List.mem_of_mem_erase he') he (hk'.trans hk.symm)
  exact (List.Nodup.of_map _ h.keys_nodup).not_mem_erase he'

/-- A hit. -/
theorem Lists.use (h : t.Lists r es) (huses : r.uses + 1 < 2 ^ 64) (he : e ∈ t.entries)
    (hk : itemKey e = k.buf) : ∃ es', (t.use e).Lists (r.use k) es' := by
  have he' := h.mem_entries.mp he
  refine ⟨_, h.push (e := { e with accessCount := t.accessCount + 1 }) List.erase_sublist huses
    (h.erase_ne he' hk) ?_ rfl ?_ ?_ rfl rfl (fun _ _ => rfl) (h.keys_use he' hk)⟩
  · exact hk
  · exact h.latest e he' k hk
  · simp only [Table.use, h.entries, Multiset.coe_erase]
    rfl

/-- A new entry beside 64 others, the last one first. -/
theorem Lists.cons_entries (h : t.Lists r es) (hes : es = rest ++ [e]) (new : LrucItem) :
    new ::ₘ t.entries = e ::ₘ ((new :: rest : List LrucItem) : Multiset LrucItem) := by
  rw [h.entries, hes, Multiset.cons_coe, Multiset.cons_coe]
  exact Multiset.coe_eq_coe.mpr (List.perm_append_singleton e (new :: rest))

/-- An insertion. -/
theorem Lists.stores (h : t.Lists r es) (huses : r.uses + 1 < 2 ^ 64) (hk : KeyFits k)
    (hb : b.data = k.buf) (hb' : b'.str = v)
    (hs : t.Stores (some b) (keyLength k) (some b') t') :
    ∃ es', t'.Lists (r.insert k v) es' := by
  have hlatest : ∀ k', k' ≠ k → (r.insert k v).latest k' = r.latest k' :=
    fun k' hk' => Function.update_of_ne hk' _ _
  have hvalue : (some b').map Buffer.str = (r.insert k v).latest k := by
    simp [Recency.insert, hb']
  have hkey : readBytes (some b) (keyLength k).toNat = k.buf := by
    obtain ⟨a, data⟩ := b
    cases hb
    exact hk.readBytes a
  cases hs with
  | @replaced e he hke =>
    rw [hkey] at hke
    have he' := h.mem_entries.mp he
    refine ⟨_, h.push (e := { e with
        value := some b', valueLength := AVG_SIZE, accessCount := t.accessCount + 1 })
      List.erase_sublist huses (h.erase_ne he' hke) ?_ rfl hvalue ?_ rfl rfl hlatest
      (h.keys_use he' hke)⟩
    · exact hke
    · simp only [Table.replace, h.entries, Multiset.coe_erase]
      rfl
  | inserted hnone hcard =>
    rw [hkey] at hnone
    have hlen : es.length ≤ 63 := by
      rw [h.entries, Multiset.coe_card] at hcard
      omega
    have hkeys := h.keys_insert hnone
    rw [List.take_of_length_le hlen] at hkeys
    have hne : ∀ e ∈ es, itemKey e ≠ k.buf := fun e he => hnone e (h.mem_entries.mpr he)
    refine ⟨_, h.push (e := ⟨some b', some b, AVG_SIZE, keyLength k, t.accessCount + 1, none⟩)
      (List.Sublist.refl es) huses hne hkey rfl hvalue ?_ rfl rfl hlatest hkeys⟩
    simp only [Table.take, Table.insert, h.entries, Multiset.cons_coe]
  | @evicted e hnone hcard he hmin =>
    rw [hkey] at hnone
    rw [h.entries, Multiset.coe_card] at hcard
    have hlt : 63 < es.length := by omega
    have hes : es = es.take 63 ++ [es[63]] := by
      rw [List.take_concat_get' _ _ hlt, List.take_of_length_le (Nat.le_of_eq hcard)]
    obtain rfl : e = es[63] := h.least hes (h.lt_next huses) he hmin
    have hne : ∀ e' ∈ es.take 63, itemKey e' ≠ k.buf := fun e' he' =>
      hnone e' (h.mem_entries.mpr (List.mem_of_mem_take he'))
    refine ⟨_, h.push (e := ⟨some b', some b, AVG_SIZE, keyLength k, t.accessCount + 1, none⟩)
      (List.take_sublist 63 es) huses hne hkey rfl hvalue ?_ rfl rfl hlatest (h.keys_insert hnone)⟩
    simp only [Table.take, Table.evict, Table.insert, h.cons_entries hes, Multiset.erase_cons_head]

end Table

/-! ## Runs -/

/-- The entries of the cache are those of the history. -/
def Tracks (c : VerdictCache) (r : Recency CStr CStr) : Prop :=
  ∃ t es, c.Holds t ∧ t.Lists r es

variable {fuel : Nat} {c : VerdictCache} {r : Recency CStr CStr}

theorem tracks_cacheInit (seed : UInt64) : Tracks (cacheInit seed) {} :=
  ⟨_, [], holds_cacheInit seed, by simp, by simp, by simp, by simp, by simp, by simp⟩

theorem Tracks.get (h : Tracks c r) (huses : r.uses + 1 < 2 ^ 64) (hf : 65 < fuel) {k : CStr}
    (hk : KeyFits k) :
    ∃ ret c', cacheGet fuel c k none = .ok (ret, c') ∧ Tracks c' (r.get 64 k).2 ∧
      ret.map Buffer.str = (r.get 64 k).1 := by
  obtain ⟨t, es, h, hl⟩ := h
  obtain ⟨ret, c', hget, hspec⟩ := cacheGet_spec h (Nat.lt_of_succ_lt hf) hk none
  refine ⟨ret, c', hget, ?_⟩
  unfold Recency.get
  rcases hspec with ⟨e, he, hke, rfl, h'⟩ | ⟨hnone, rfl, rfl⟩
  · obtain ⟨es', hl'⟩ := hl.use huses he hke
    rw [if_pos (hl.mem_recent.mpr ⟨e, he, hke⟩)]
    exact ⟨⟨_, es', h', hl'⟩, hl.latest e (hl.mem_entries.mp he) k hke⟩
  · rw [if_neg fun hmem =>
      let ⟨e, he, hke⟩ := hl.mem_recent.mp hmem
      hnone e he hke]
    exact ⟨⟨t, es, h, hl⟩, rfl⟩

/-- One operation. -/
theorem Tracks.run (h : Tracks c r) (huses : r.uses + 1 < 2 ^ 64) (hf : 65 < fuel) {op : CacheOp}
    (hk : KeyFits op.key) : ∃ c', op.run fuel c = .ok c' ∧ Tracks c' (op.record r) := by
  cases op with
  | get k =>
    obtain ⟨ret, c', hget, h', -⟩ := h.get huses hf hk
    exact ⟨c', Exec.map_ok.mpr ⟨_, hget, rfl⟩, h'⟩
  | insert k v =>
    obtain ⟨t, es, h, hl⟩ := h
    obtain ⟨c', hinsert, t', h', hs⟩ := cacheInsert_spec h hf hk v
    have hstr : Buffer.str ⟨c.brk + 1, v.buf⟩ = v := CStr.ofBytes_buf v
    obtain ⟨es', hl'⟩ := hl.stores huses hk rfl hstr hs
    exact ⟨c', hinsert, t', es', h', hl'⟩

/-- Every run of the operations tracks its history. The induction adds the last operation. -/
theorem tracks_run {seed : UInt64} {ops : List CacheOp} (hf : 65 < fuel)
    (hkeys : ∀ op ∈ ops, KeyFits op.key) (huses : (history ops).uses < 2 ^ 64 - 1) :
    ∃ c, runFrom (CacheOp.run fuel) (cacheInit seed) ops = .ok c ∧ Tracks c (history ops) := by
  induction ops using List.reverseRecOn with
  | nil => exact ⟨_, rfl, tracks_cacheInit seed⟩
  | append_singleton ops op ih =>
    have hstep : history (ops ++ [op]) = op.record (history ops) := List.foldl_append
    rw [hstep] at huses ⊢
    have hle := CacheOp.uses_le_record (history ops) op
    obtain ⟨c, hc, h⟩ := ih (fun op hop => hkeys op (by simp [hop])) (by omega)
    obtain ⟨c', hc', h'⟩ := h.run (by omega) hf (hkeys op (by simp))
    exact ⟨c', by rw [runFrom_append, hc]; simp [runFrom_cons, hc'], h'⟩

/-- **The verdict cache is an exact LRU map**: after every run of the operations, `cache_get`
returns the latest value of a key that is one of the 64 most recently used, and `NULL` for every
other key. -/
theorem cacheGet_recent {seed : UInt64} {ops : List CacheOp} {k : CStr} (hf : 65 < fuel)
    (hkeys : ∀ op ∈ ops, KeyFits op.key) (huses : (history ops).uses < 2 ^ 64 - 1)
    (hk : KeyFits k) :
    ∃ c ret c', runFrom (CacheOp.run fuel) (cacheInit seed) ops = .ok c ∧
      cacheGet fuel c k none = .ok (ret, c') ∧
      ret.map Buffer.str =
        if k ∈ (history ops).recent.take 64 then (history ops).latest k else none := by
  obtain ⟨c, hc, h⟩ := tracks_run hf hkeys huses
  obtain ⟨ret, c', hget, -, hret⟩ := h.get (by omega) hf hk
  refine ⟨c, ret, c', hc, hget, ?_⟩
  rw [hret, Recency.get]
  split <;> rfl

/-- 64 files are opened, the first of them again, and then one more: its verdict takes the place of that
of the second one. -/
theorem cacheGet_recent_evicted :
    ∃ c ret₀ ret₁ c₀ c₁, runFrom (CacheOp.run 66) (cacheInit 0)
        (((List.range 64).map fun i => .insert (.ofChars ['/', .ofNat (64 + i)]) (.ofChars ['A'])) ++
          [.get (.ofChars ['/', '@']), .insert (.ofChars ['/', 'n', 'e', 'w']) (.ofChars ['F'])]) = .ok c ∧
      cacheGet 66 c (.ofChars ['/', '@']) none = .ok (ret₀, c₀) ∧
      ret₀.map Buffer.str = some (.ofChars ['A']) ∧
      cacheGet 66 c (.ofChars ['/', 'A']) none = .ok (ret₁, c₁) ∧ ret₁.map Buffer.str = none := by
  have h := fun key => @cacheGet_recent 66 0
    (((List.range 64).map fun i => .insert (.ofChars ['/', .ofNat (64 + i)]) (.ofChars ['A'])) ++
      [.get (.ofChars ['/', '@']), .insert (.ofChars ['/', 'n', 'e', 'w']) (.ofChars ['F'])])
    key (by decide) (by decide) (by decide)
  obtain ⟨c, ret₀, c₀, hc, hget₀, hret₀⟩ := h (.ofChars ['/', '@']) (by decide)
  obtain ⟨c', ret₁, c₁, hc', hget₁, hret₁⟩ := h (.ofChars ['/', 'A']) (by decide)
  obtain rfl := Except.ok.inj (hc.symm.trans hc')
  exact ⟨c, ret₀, ret₁, c₀, c₁, hc, hget₀, hret₀.trans (by decide), hget₁, hret₁.trans (by decide)⟩

/-- There are strings of every length. -/
theorem exists_strlen (n : Nat) : ∃ s : CStr, s.strlen = n := by
  refine ⟨⟨List.replicate n 97, fun h => ?_⟩, List.length_replicate⟩
  exact absurd (List.eq_of_mem_replicate h) (by decide)

/-- A key of `2 ^ 32 - 1` bytes, as the argument of `cache_get` on the empty cache: the claimed
result is `NULL`, but the process exits. -/
theorem cacheGet_exits :
    ∃ key : CStr, ∀ fuel seed, cacheGet fuel (cacheInit seed) key none = .error (.exit (-1)) := by
  obtain ⟨key, hkey⟩ := exists_strlen (2 ^ 32 - 1)
  have hlen : keyLength key = 0 := by
    rw [keyLength, hkey]
    rfl
  exact ⟨key, fun fuel seed => by simp [cacheGet, lrucGet, hlen]⟩

end Cnpv
