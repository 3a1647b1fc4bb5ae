import Cnpv.Config.Agreement

/-!
# Loading rules when memory runs out (`ns_agent/config.c`, `kernel_module/cnpv.c`)

`hashmap_set` grows a map that is three quarters full, before it looks for the key. When it cannot,
it sets `oom` and leaves the map as it was. Neither loader looks at `oom` or at the result: so a
rule is in the map after it was stored if and only if the map was not full, or could grow, or had
this rule before (`rules_kept_iff`). When the agent's map is full depends on the entries alone: it
has 12, 24, 48, .. paths, and the last rule that was stored brought it there (`Fills`).

The maps are the finite maps of the other modules, with the number of their buckets. When every
allocation succeeds, the two loaders are the ones of `Cnpv.Config.Model` (`configInit_items`,
`receive_toKernel`).
-/

namespace Cnpv

open CLib

/-! ## The hash map -/

/-- `struct hashmap`: its items, as a finite map, and its size. -/
structure HashMap where
  items : PolicyMap := ∅
  nbuckets : Nat := 16
  oom : Bool := false

namespace HashMap

/-- `map->count` -/
def count (m : HashMap) : Nat := m.items.keys.card

/-- `map->growat` -/
def growat (m : HashMap) : Nat := m.nbuckets * 3 / 4

/-- The item stored in its bucket. -/
def put (m : HashMap) (u : User) : HashMap :=
  { m with items := m.items.insert u.pathname u.permission }

/-- `hashmap_set`; `grow` tells whether `resize` finds the memory that it needs. -/
def hashmapSet (grow : Bool) (m : HashMap) (u : User) : HashMap :=
  let m := { m with oom := false }
  if m.count = m.growat then
    if grow then { m with nbuckets := m.nbuckets * 2 }.put u else { m with oom := true }
  else m.put u

/-- `hashmap_clear(map, 0)` -/
def clear (m : HashMap) : HashMap := { m with items := ∅, nbuckets := 16 }

/-- After `hashmap_set` the map has the rule: it is not full, or can grow, or has the rule. -/
def Keeps (grow : Bool) (m : HashMap) (u : User) : Prop :=
  m.count = m.growat → grow = false → m.items.lookup u.pathname = some u.permission

variable {grow : Bool} {m : HashMap} {u : User} {q : CStr}

theorem items_hashmapSet (grow : Bool) (m : HashMap) (u : User) :
    (m.hashmapSet grow u).items = if m.count = m.growat ∧ grow = false then m.items
      else m.items.insert u.pathname u.permission := by
  unfold hashmapSet
  by_cases hfull : m.count = m.growat
  · have hfull' : ({ m with oom := false } : HashMap).count = ({ m with oom := false } : HashMap).growat :=
      hfull
    cases grow with
    | false => simp [hfull, hfull']
    | true => simp [hfull', put]
  · have hfull' : ({ m with oom := false } : HashMap).count ≠ ({ m with oom := false } : HashMap).growat :=
      hfull
    simp [hfull, hfull', put]

theorem lookup_hashmapSet_of_ne (h : u.pathname ≠ q) :
    (m.hashmapSet grow u).items.lookup q = m.items.lookup q := by
  rw [items_hashmapSet]
  split_ifs
  · rfl
  · exact Finmap.lookup_insert_of_ne _ h.symm

/-- When a rule is in the map after it was stored. -/
theorem lookup_hashmapSet_iff :
    (m.hashmapSet grow u).items.lookup u.pathname = some u.permission ↔ m.Keeps grow u := by
  rw [items_hashmapSet, Keeps]
  split_ifs with h
  · exact ⟨fun hlookup _ _ => hlookup, fun hkeeps => hkeeps h.1 h.2⟩
  · exact iff_of_true (Finmap.lookup_insert _) fun hfull hgrow => absurd ⟨hfull, hgrow⟩ h

end HashMap

/-! ## The agent -/

/-- The global `map` while it is loaded, and how many rules were stored. -/
structure Loading where
  map : HashMap := {}
  sets : Nat := 0

namespace Loading

/-- `hashmap_set(map, &tmp)`; `alloc` tells which of the calls could grow the map. -/
def hashmapSet (alloc : Nat → Bool) (s : Loading) (tmp : User) : Loading where
  map := s.map.hashmapSet (alloc s.sets) tmp
  sets := s.sets + 1

/-- `process_pair` -/
def processPair (alloc : Nat → Bool) (opendir : CStr → Option (List Dirent)) (fuel : Nat) (s : Loading) :
    JsonValue → Exec Loading
  | .object values => do
    let tmp ← runFrom (readMember MAX_PATH) { pathname := default, permission := 0 } values
    let last ← lastChar tmp.pathname
    if last = '/'.toUInt8 then
      dirContent opendir MAX_PATH (hashmapSet alloc) tmp.permission fuel tmp.pathname s
    else .ok (s.hashmapSet alloc tmp)
  | _ => .error (.exit (-1))

end Loading

/-- `config_init`, after the file is parsed: the map that it leaves. -/
def configInit (alloc : Nat → Bool) (opendir : CStr → Option (List Dirent)) (fuel : Nat)
    (progName : CStr) (value : JsonValue) : Exec HashMap :=
  Loading.map <$> processRoot (Loading.processPair alloc opendir fuel) progName {} value

section Agent

variable {alloc : Nat → Bool} {opendir : CStr → Option (List Dirent)} {fuel : Nat} {progName : CStr}
  {value : JsonValue} {s : Loading} {e : Entry} {pre post es : List Entry} {q : CStr}

section Map

variable {σ τ : Type} {f : σ → τ}

/-- A directory read with two kinds of `emit` that agree. -/
theorem dirContent_map {size : Nat} {emit : σ → User → σ} {emit' : τ → User → τ} {permission : CInt}
    (h : ∀ s u, f (emit s u) = emit' (f s) u) (fuel : Nat) (path : CStr) (s : σ) :
    f <$> dirContent opendir size emit permission fuel path s =
      dirContent opendir size emit' permission fuel path (f s) := by
  induction fuel generalizing path s with
  | zero => rfl
  | succ fuel ih =>
    rw [dirContent, dirContent]
    cases opendir path with
    | none => rfl
    | some entries =>
      refine runFrom_map (fun d _ s => ?_) s
      rw [dirEntry, dirEntry]
      split_ifs
      · cases (path ++ d.name).store size with
        | error e => rfl
        | ok pathname => exact congrArg Except.ok (h s _)
      · cases (path ++ d.name).store 512 with
        | error e => rfl
        | ok dPath => exact ih dPath s
      · rfl

/-- The loops over sections and entries with two kinds of `process_pair` that agree. -/
theorem processRoot_map {processPair : σ → JsonValue → Exec σ} {processPair' : τ → JsonValue → Exec τ}
    (h : ∀ s v, f <$> processPair s v = processPair' (f s) v) (progName : CStr) (value : JsonValue)
    (s : σ) :
    f <$> processRoot processPair progName s value = processRoot processPair' progName (f s) value := by
  rw [processRoot_eq_runFrom, processRoot_eq_runFrom]
  refine runFrom_map (fun v _ s => ?_) s
  cases v with
  | none => rfl
  | some v => exact h s v

end Map

/-- When every allocation succeeds, the agent loads the rules of its configuration. -/
theorem configInit_items (halloc : ∀ n, alloc n = true) (progName : CStr) (value : JsonValue) :
    HashMap.items <$> configInit alloc opendir fuel progName value =
      Config.processRoot opendir fuel progName ∅ value := by
  have hset : ∀ (s : Loading) u, (s.hashmapSet alloc u).map.items = Config.hashmapSet s.map.items u := by
    intro s u
    rw [Loading.hashmapSet, HashMap.items_hashmapSet, if_neg (by simp [halloc])]
    rfl
  have hpair : ∀ (s : Loading) v, (fun s : Loading => s.map.items) <$>
      Loading.processPair alloc opendir fuel s v = Config.processPair opendir fuel s.map.items v := by
    intro s v
    cases v with
    | object values =>
      rw [Loading.processPair, Config.processPair]
      cases runFrom (readMember MAX_PATH) { pathname := default, permission := 0 } values with
      | error e => rfl
      | ok tmp =>
        simp only [Exec.ok_bind]
        cases lastChar tmp.pathname with
        | error e => rfl
        | ok last =>
          simp only [Exec.ok_bind]
          split_ifs
          · exact dirContent_map hset fuel tmp.pathname s
          · exact congrArg Except.ok (hset s tmp)
    | _ => rfl
  rw [configInit, ← LawfulFunctor.comp_map]
  exact processRoot_map hpair progName value {}

/-- The rules of the entries, stored one after the other. -/
def loaded (alloc : Nat → Bool) (es : List Entry) : Loading :=
  es.foldl (fun s e => s.hashmapSet alloc (userOf 0 e)) {}

theorem sets_loaded (alloc : Nat → Bool) (es : List Entry) : (loaded alloc es).sets = es.length := by
  induction es using List.reverseRecOn with
  | nil => rfl
  | append_singleton es e ih =>
    rw [loaded, List.foldl_append, List.length_append]
    exact congrArg (· + 1) ih

/-- `config_init` on a configuration of file rules. -/
theorem configInit_eq (hroot : ConfigOk MAX_PATH value) (progName : CStr) :
    configInit alloc opendir fuel progName value =
      .ok (loaded alloc (selectedEntries progName value)).map := by
  have hpair : ∀ e ∈ selectedEntries progName value, ∀ s : Loading,
      Loading.processPair alloc opendir fuel s (.object e) = .ok (s.hashmapSet alloc (userOf 0 e)) := by
    intro e he s
    obtain ⟨hread, b, hlast, hb⟩ := (entryOk_of_selected hroot e he).readMembers (Nat.le_refl _) 0
    simp only [Loading.processPair, hread, Exec.ok_bind, hlast]
    rw [if_neg hb]
  rw [configInit, processRoot_selected hroot hpair]
  rfl

/-! ### Which entries are stored -/

/-- The paths that the entries have rules for. -/
def paths (es : List Entry) : Finset CStr := (es.filterMap (lastMember PATH)).toFinset

/-- The entries fill the map: they have 12, 24, 48, .. paths, and the path of the last one is new. -/
def Fills (es : List Entry) : Prop :=
  (∃ t < (paths es).card, (paths es).card = 12 * 2 ^ t) ∧ paths es.dropLast ≠ paths es

instance (es : List Entry) : Decidable (Fills es) := inferInstanceAs (Decidable (_ ∧ _))

/-- The entries that are stored: one that finds the map full needs memory. -/
def stored (alloc : Nat → Bool) (es : List Entry) : List Entry :=
  es.zipIdx.foldl (fun l e => if Fills l ∧ alloc e.2 = false then l else l ++ [e.1]) []

/-- There is memory for the rules: an entry that is the last one for its path and needs memory that
there is not has the permission that its path has already. -/
def MemoryFor (alloc : Nat → Bool) (es : List Entry) : Prop :=
  ∀ pre e post, es = pre ++ e :: post → (∀ e' ∈ post, lastMember PATH e' ≠ lastMember PATH e) →
    Fills (stored alloc pre) → alloc pre.length = false →
      ∀ q, lastMember PATH e = some q → ruleOf (stored alloc pre) q = ruleOf [e] q

instance (alloc : Nat → Bool) (es : List Entry) : Decidable (MemoryFor alloc es) :=
  decidable_of_iff _ (@forall_split_iff _ (fun pre e post =>
    (∀ e' ∈ post, lastMember PATH e' ≠ lastMember PATH e) → Fills (stored alloc pre) →
      alloc pre.length = false →
        ∀ q ∈ lastMember PATH e, ruleOf (stored alloc pre) q = ruleOf [e] q) es).symm

theorem stored_snoc (alloc : Nat → Bool) (es : List Entry) (e : Entry) :
    stored alloc (es ++ [e]) =
      if Fills (stored alloc es) ∧ alloc es.length = false then stored alloc es
      else stored alloc es ++ [e] := by
  rw [stored, List.zipIdx_append, List.foldl_append, Nat.zero_add]
  rfl

theorem mem_of_mem_stored (he : e ∈ stored alloc es) : e ∈ es := by
  induction es using List.reverseRecOn with
  | nil => cases he
  | append_singleton es e' ih =>
    rw [stored_snoc] at he
    split_ifs at he
    · exact List.mem_append_left _ (ih he)
    · rcases List.mem_append.mp he with he | he
      · exact List.mem_append_left _ (ih he)
      · exact List.mem_append_right _ he

/-- The entry `e` comes next. -/
theorem paths_snoc (hq : lastMember PATH e = some q) : paths (es ++ [e]) = insert q (paths es) := by
  have hsnoc : (es ++ [e]).filterMap (lastMember PATH) = es.filterMap (lastMember PATH) ++ [q] := by
    simp [hq]
  rw [paths, hsnoc, List.toFinset_append, Finset.union_comm]
  rfl

theorem fills_snoc (hq : lastMember PATH e = some q) :
    Fills (es ++ [e]) ↔ q ∉ paths es ∧ ∃ t, (paths es).card + 1 = 12 * 2 ^ t := by
  rw [Fills, List.dropLast_concat, paths_snoc hq]
  by_cases hmem : q ∈ paths es
  · rw [Finset.insert_eq_of_mem hmem]
    exact iff_of_false (fun h => h.2 rfl) fun h => h.1 hmem
  · rw [Finset.card_insert_of_notMem hmem]
    constructor
    · rintro ⟨⟨t, -, ht⟩, -⟩
      exact ⟨hmem, t, ht⟩
    · rintro ⟨-, t, ht⟩
      have hlt : t < 2 ^ t := Nat.lt_two_pow_self
      exact ⟨⟨t, by omega, ht⟩, fun heq => hmem (heq ▸ Finset.mem_insert_self q _)⟩

/-! ### The size of the map -/

/-- The map `m` holds the rules of the entries `l`: its size is what they need. -/
structure Holds (m : HashMap) (l : List Entry) : Prop where
  items : m.items = (l.map (userOf 0)).foldl Config.hashmapSet ∅
  keys : m.items.keys = paths l
  size : ∃ t, m.nbuckets = 16 * 2 ^ t ∧ m.count ≤ 12 * 2 ^ t ∧ (t = 0 ∨ 6 * 2 ^ t ≤ m.count)
  full : m.count = m.growat ↔ Fills l

theorem growat_eq {m : HashMap} {t : Nat} (h : m.nbuckets = 16 * 2 ^ t) : m.growat = 12 * 2 ^ t := by
  rw [HashMap.growat, h]
  omega

theorem keys_insert (map : PolicyMap) (q : CStr) (permission : CInt) :
    (map.insert q permission).keys = insert q map.keys := by
  ext q'
  simp [Finmap.mem_keys]

/-- Three quarters of a size, between the half and the whole of it, is that of the size. -/
theorem fill_eq {c t t' : Nat} (hle : c + 1 ≤ 12 * 2 ^ t) (hhalf : t = 0 ∨ 6 * 2 ^ t ≤ c)
    (hfill : c + 1 = 12 * 2 ^ t') : t' = t := by
  have hle' : t' ≤ t := by
    refine (Nat.pow_le_pow_iff_right (a := 2) (by decide)).mp ?_
    omega
  rcases hhalf with rfl | hhalf
  · exact Nat.le_zero.mp hle'
  · have hlt : 2 ^ t < 2 ^ (t' + 1) := by
      rw [Nat.pow_succ]
      omega
    have := (Nat.pow_lt_pow_iff_right (a := 2) (by decide)).mp hlt
    omega

/-- The rule of an entry is put in its bucket. -/
theorem Holds.put {m m' : HashMap} {l : List Entry} (h : Holds m l) (hq : lastMember PATH e = some q)
    (hitems : m'.items = m.items.insert q (userOf 0 e).permission) {t : Nat}
    (hsize : m'.nbuckets = 16 * 2 ^ t) (hlt : m.count < 12 * 2 ^ t)
    (hhalf : t = 0 ∨ 6 * 2 ^ t ≤ m.count) : Holds m' (l ++ [e]) := by
  have hpath : (userOf 0 e).pathname = q := by simp [userOf, hq]
  have hkeys : m'.items.keys = insert q m.items.keys := by rw [hitems, keys_insert]
  have hcount : m'.count = if q ∈ paths l then m.count else m.count + 1 := by
    unfold HashMap.count
    rw [hkeys, h.keys]
    split_ifs with hmem
    · rw [Finset.insert_eq_of_mem hmem]
    · rw [Finset.card_insert_of_notMem hmem]
  have hcard : m.count = (paths l).card := by rw [HashMap.count, h.keys]
  refine ⟨?_, by rw [hkeys, h.keys, paths_snoc hq], ⟨t, hsize, ?_, ?_⟩, ?_⟩
  · rw [hitems, h.items, List.map_append, List.foldl_append, ← hpath]
    rfl
  · split_ifs at hcount <;> omega
  · split_ifs at hcount <;> omega
  · rw [growat_eq hsize, fills_snoc hq, ← hcard, hcount]
    split_ifs with hmem
    · exact iff_of_false (Nat.ne_of_lt hlt) fun hf => hf.1 hmem
    · constructor
      · intro hfill
        exact ⟨hmem, t, hfill⟩
      · rintro ⟨-, t', ht'⟩
        rw [ht', fill_eq hlt hhalf ht']

/-- The rule of an entry is stored. -/
theorem Holds.hashmapSet {m : HashMap} {l : List Entry} {grow : Bool} (h : Holds m l)
    (hq : lastMember PATH e = some q) :
    Holds (m.hashmapSet grow (userOf 0 e)) (if Fills l ∧ grow = false then l else l ++ [e]) := by
  have hpath : (userOf 0 e).pathname = q := by simp [userOf, hq]
  obtain ⟨t, hsize, hle, hhalf⟩ := h.size
  have hgrowat := growat_eq hsize
  by_cases hfull : m.count = m.growat
  · have hfills := h.full.mp hfull
    have hfull' : ({ m with oom := false } : HashMap).count = ({ m with oom := false } : HashMap).growat :=
      hfull
    cases grow with
    | false =>
      rw [if_pos ⟨hfills, rfl⟩, HashMap.hashmapSet, if_pos hfull', if_neg Bool.false_ne_true]
      exact ⟨h.items, h.keys, h.size, h.full⟩
    | true =>
      rw [if_neg (by simp), HashMap.hashmapSet, if_pos hfull', if_pos rfl]
      refine h.put hq (by rw [← hpath]; rfl) (t := t + 1) ?_ ?_ ?_
      · show m.nbuckets * 2 = _
        rw [hsize, Nat.pow_succ]
        omega
      · rw [Nat.pow_succ]
        have : 0 < 2 ^ t := Nat.two_pow_pos t
        omega
      · rw [Nat.pow_succ]
        omega
  · have hfull' : ({ m with oom := false } : HashMap).count ≠ ({ m with oom := false } : HashMap).growat :=
      hfull
    rw [if_neg fun hf => hfull (h.full.mpr hf.1), HashMap.hashmapSet, if_neg hfull']
    exact h.put hq (by rw [← hpath]; rfl) hsize (by omega) hhalf

/-- The map of the agent holds the rules of the entries that are stored. -/
theorem holds_loaded (hes : ∀ e ∈ es, EntryOk MAX_PATH e) :
    Holds (loaded alloc es).map (stored alloc es) := by
  induction es using List.reverseRecOn with
  | nil =>
    refine ⟨rfl, rfl, ⟨0, rfl, Nat.zero_le _, .inl rfl⟩, ?_⟩
    show ({} : HashMap).count = ({} : HashMap).growat ↔ Fills []
    decide
  | append_singleton es e ih =>
    obtain ⟨q, hq, -⟩ := (hes e (by simp)).path
    have h : Holds ((loaded alloc es).map.hashmapSet (alloc es.length) (userOf 0 e)) _ :=
      (ih fun e he => hes e (by simp [he])).hashmapSet hq
    rw [stored_snoc, loaded, List.foldl_append]
    rw [← sets_loaded alloc es] at h ⊢
    exact h

/-! ### When the rules are kept -/

theorem lookup_loaded (hes : ∀ e ∈ es, EntryOk MAX_PATH e) (q : CStr) :
    (loaded alloc es).map.items.lookup q = ruleOf (stored alloc es) q := by
  rw [(holds_loaded hes).items]
  exact lookup_rules (fun e he => hes e (mem_of_mem_stored he)) q

/-- Rules for other paths leave the rule for `q`. -/
theorem lookup_foldl_of_ne (h : ∀ e ∈ es, (userOf 0 e).pathname ≠ q) (s : Loading) :
    (es.foldl (fun s e => s.hashmapSet alloc (userOf 0 e)) s).map.items.lookup q =
      s.map.items.lookup q := by
  induction es generalizing s with
  | nil => rfl
  | cons e es ih =>
    rw [List.foldl_cons, ih (fun e he => h e (by simp [he]))]
    exact HashMap.lookup_hashmapSet_of_ne (h e (by simp))

/-- The rule of the last entry for its path. -/
theorem lookup_loaded_iff (hpost : ∀ e' ∈ post, (userOf 0 e').pathname ≠ (userOf 0 e).pathname) :
    (loaded alloc (pre ++ e :: post)).map.items.lookup (userOf 0 e).pathname =
        some (userOf 0 e).permission ↔
      (loaded alloc pre).map.Keeps (alloc pre.length) (userOf 0 e) := by
  rw [loaded, List.foldl_append, List.foldl_cons, lookup_foldl_of_ne hpost, ← sets_loaded alloc pre]
  exact HashMap.lookup_hashmapSet_iff

/-- When every file rule is in the map. -/
theorem rules_loaded_iff (hes : ∀ e ∈ es, EntryOk MAX_PATH e) :
    (∀ e ∈ es, ∀ q, lastMember PATH e = some q →
        (loaded alloc es).map.items.lookup q = ruleOf es q) ↔ MemoryFor alloc es := by
  have hlast : ∀ pre e post, es = pre ++ e :: post →
      (∀ e' ∈ post, lastMember PATH e' ≠ lastMember PATH e) → ∀ q, lastMember PATH e = some q →
      ((loaded alloc es).map.items.lookup q = ruleOf es q ↔
        (Fills (stored alloc pre) → alloc pre.length = false →
          ruleOf (stored alloc pre) q = ruleOf [e] q)) := by
    rintro pre e post rfl hpost q hq
    have hpre : ∀ e' ∈ pre, EntryOk MAX_PATH e' := fun e' he' => hes e' (by simp [he'])
    have hpath : (userOf 0 e).pathname = q := by simp [userOf, hq]
    have hpost' : ∀ e' ∈ post, (userOf 0 e').pathname ≠ (userOf 0 e).pathname := fun e' he' =>
      mt (pathname_userOf_inj (hes e' (by simp [he'])) (hes e (by simp)) 0 0).mp (hpost e' he')
    have hrule : ruleOf (pre ++ e :: post) q = some (userOf 0 e).permission := by
      rw [← lookup_rules hes, ← hpath]
      exact lookup_users hes hpost
    have hself : ruleOf [e] q = some (userOf 0 e).permission := by
      rw [← lookup_rules (fun e' he' => hes e' (by simp [List.mem_singleton.mp he'])), ← hpath]
      exact Finmap.lookup_insert _
    rw [hrule, hself, ← hpath, lookup_loaded_iff hpost', HashMap.Keeps, (holds_loaded hpre).full,
      lookup_loaded hpre]
  constructor
  · intro h pre e post hsplit hpost hfills halloc q hq
    exact (hlast pre e post hsplit hpost q hq).mp (h e (by simp [hsplit]) q hq) hfills halloc
  · intro h e he q hq
    -- The last entry for `q` decides.
    obtain ⟨pre, e', post, hsplit, he', hpost⟩ :=
      exists_last (P := fun e => lastMember PATH e = some q) ⟨e, he, hq⟩
    have hpost' : ∀ e'' ∈ post, lastMember PATH e'' ≠ lastMember PATH e' := fun e'' he'' heq =>
      hpost e'' he'' (heq.trans he')
    exact (hlast pre e' post hsplit hpost' q he').mpr fun hfills halloc =>
      h pre e' post hsplit hpost' hfills halloc q he'

end Agent

/-! ## The kernel module -/

/-- The globals of the kernel module, with its hash map. -/
structure KernelMem where
  map : Option HashMap := none
  target : CStr

/-- Which allocations of a call of `hello_nl_recv_msg` succeed: of `hashmap_new`, of `resize` and of the
reply. -/
structure Allocs where
  new : Bool
  grow : Bool
  reply : Bool

namespace KernelMem

/-- The hash map that the call works on: a new one, if there is none. -/
def mapOrNew (allocs : Allocs) (k : KernelMem) : Option HashMap :=
  match k.map with
  | none => if allocs.new then some {} else none
  | some m => some m

/-- `*map`, in the functions of the hash map. -/
def deref (map : Option HashMap) : Exec HashMap :=
  match map with
  | none => .error (.undefined .nullPointer)
  | some m => .ok m

/-- `hello_nl_recv_msg`; `true` if it sends its reply. -/
def receive (allocs : Allocs) (k : KernelMem) (u : MyUser) : Exec (Bool × KernelMem) := do
  let map := k.mapOrNew allocs
  match u.type with
  | .myuser => do
    let m ← deref map
    let mapuser : User := { pathname := u.pathname.take KERNEL_MAX_PATH, permission := u.permission }
    .ok (allocs.reply, { k with map := some (m.hashmapSet allocs.grow mapuser) })
  | .cmd =>
    if u.pathname = clearCmd then do
      let m ← deref map
      .ok (allocs.reply, { k with map := some m.clear })
    else if (strstr u.pathname.bytes tarCmd.bytes).isSome then
      .ok (allocs.reply, { map := map, target := u.pathname.drop 4 })
    else .ok (allocs.reply, { k with map := map })
  | _ => .ok (allocs.reply, { k with map := map })

/-- The globals without the size of the hash map. -/
def toKernel (k : KernelMem) : Kernel where
  map := k.map.map HashMap.items
  target := k.target

end KernelMem

section Kernel

variable {allocs : Allocs} {k k' : KernelMem} {u : MyUser}

theorem KernelMem.mapOrNew_of_new (h : allocs.new = true) :
    ∃ m, k.mapOrNew allocs = some m ∧ m.items = k.toKernel.map.getD ∅ := by
  unfold mapOrNew toKernel
  cases k.map with
  | none => exact ⟨{}, if_pos h, rfl⟩
  | some m => exact ⟨m, rfl, rfl⟩

/-- When every allocation succeeds, the kernel module receives the message. -/
theorem receive_toKernel (hnew : allocs.new = true) (hgrow : allocs.grow = true) :
    ∃ k', k.receive allocs u = .ok (allocs.reply, k') ∧ k'.toKernel = helloNlRecvMsg k.toKernel u := by
  obtain ⟨m, hm, hitems⟩ := KernelMem.mapOrNew_of_new (k := k) hnew
  unfold KernelMem.receive helloNlRecvMsg
  rw [hm, ← hitems]
  cases u.type with
  | myuser =>
    refine ⟨_, rfl, ?_⟩
    simp only [KernelMem.toKernel, Option.map_some, HashMap.items_hashmapSet]
    rw [if_neg (by simp [hgrow])]
  | str => exact ⟨_, rfl, rfl⟩
  | cmd =>
    simp only
    split_ifs <;> exact ⟨_, rfl, rfl⟩

/-- When the rule of a message is in the map. -/
theorem receive_rule_iff (hu : u.type = .myuser) (h : k.receive allocs u = .ok (true, k')) :
    (∃ m, k'.map = some m ∧ m.items.lookup (u.pathname.take KERNEL_MAX_PATH) = some u.permission) ↔
      (k.map.getD {}).Keeps allocs.grow ⟨u.pathname.take KERNEL_MAX_PATH, u.permission⟩ := by
  unfold KernelMem.receive at h
  rw [hu] at h
  obtain ⟨m, hm, h⟩ := Exec.bind_ok.mp h
  obtain ⟨-, rfl⟩ := Prod.mk.inj (Except.ok.inj h)
  have hmap : k.map.getD {} = m := by
    unfold KernelMem.mapOrNew at hm
    cases hk : k.map with
    | none =>
      simp only [hk] at hm
      split_ifs at hm
      · cases hm; rfl
      · cases hm
    | some m' =>
      simp only [hk] at hm
      cases hm
      rfl
  rw [hmap, ← HashMap.lookup_hashmapSet_iff]
  simp

end Kernel

/-- An entry that forbids the file `/c`. -/
def forbids (c : Char) : Entry :=
  [(PATH.buf, .string (CStr.ofChars ['/', c]).buf), (AUTHORITY.buf, .string (CStr.ofChars ['F']).buf)]

/-- Thirteen files that are forbidden. -/
def fullConfig : JsonValue :=
  .object [((CStr.ofChars ['a']).buf, .array
    (['a', 'b', 'c', 'd', 'e', 'f', 'g', 'h', 'i', 'j', 'k', 'l', 'm'].map fun c => .object (forbids c)))]

theorem configOk_fullConfig : ConfigOk MAX_PATH fullConfig :=
  @configOk_section MAX_PATH _
    (['a', 'b', 'c', 'd', 'e', 'f', 'g', 'h', 'i', 'j', 'k', 'l', 'm'].map forbids) (by decide)

/-- **When no rule is dropped**: in the agent, every file rule of the selected sections is in the map
after `config_init` if and only if there is memory for the rules (`MemoryFor`); in the kernel module,
the rule of a message that is acknowledged is in the map if and only if the map was not full before
the message, or could grow, or had the rule. -/
theorem rules_kept_iff {value : JsonValue} (hroot : ConfigOk MAX_PATH value)
    (alloc : Nat → Bool) (opendir : CStr → Option (List Dirent)) (fuel : Nat) (progName : CStr) :
    (∃ m, configInit alloc opendir fuel progName value = .ok m ∧
      ((∀ e ∈ selectedEntries progName value, ∀ q, lastMember PATH e = some q →
          m.items.lookup q = ruleOf (selectedEntries progName value) q) ↔
        MemoryFor alloc (selectedEntries progName value))) ∧
    ∀ (allocs : Allocs) (k k' : KernelMem) (u : MyUser), u.type = .myuser →
      k.receive allocs u = .ok (true, k') →
      ((∃ m, k'.map = some m ∧
          m.items.lookup (u.pathname.take KERNEL_MAX_PATH) = some u.permission) ↔
        (k.map.getD {}).Keeps allocs.grow ⟨u.pathname.take KERNEL_MAX_PATH, u.permission⟩) := by
  refine ⟨⟨_, configInit_eq hroot progName, rules_loaded_iff (entryOk_of_selected hroot)⟩, ?_⟩
  intro allocs k k' u hu h
  exact receive_rule_iff hu h

/-- The map with the first twelve of them. -/
def fullMap : HashMap :=
  (loaded (fun _ => false) ((selectedEntries (.ofChars ['a']) fullConfig).take 12)).map

/-- The map is full at the thirteenth file, and grows: the agent has its rule. So has the kernel module
when it receives it with a full map. -/
theorem rules_kept_iff_grow :
    (∃ m, configInit (fun n => n = 12) (fun _ => none) 0 (.ofChars ['a']) fullConfig = .ok m ∧
      m.items.lookup (.ofChars ['/', 'm']) = some O_FORBIDDEN) ∧
    fullMap.count = fullMap.growat ∧
    ∃ k', (⟨some fullMap, .ofChars ['a']⟩ : KernelMem).receive ⟨true, true, true⟩
        (Message.rule (.ofChars ['/', 'm']) O_FORBIDDEN).record = .ok (true, k') ∧
      ∃ m', k'.map = some m' ∧ m'.items.lookup (.ofChars ['/', 'm']) = some O_FORBIDDEN := by
  have hmemory : MemoryFor (fun n => n = 12) (selectedEntries (.ofChars ['a']) fullConfig) := by decide
  obtain ⟨⟨m, hm, hiff⟩, hkernel⟩ := rules_kept_iff configOk_fullConfig (fun n => n = 12)
    (fun _ => none) 0 (.ofChars ['a'])
  refine ⟨⟨m, hm, ?_⟩, by decide, _, rfl, ?_⟩
  · have hmem : forbids 'm' ∈ selectedEntries (.ofChars ['a']) fullConfig :=
      List.mem_of_getElem? (i := 12) rfl
    exact (hiff.mpr hmemory _ hmem (.ofChars ['/', 'm']) (by decide)).trans (by decide)
  · exact (hkernel ⟨true, true, true⟩ ⟨some fullMap, .ofChars ['a']⟩ _
      (Message.rule (.ofChars ['/', 'm']) O_FORBIDDEN).record rfl rfl).mpr fun _ h => by cases h

/-- The map has 16 buckets and cannot grow at the thirteenth file: it has no rule, and so is allowed. -/
theorem rules_dropped :
    ConfigOk MAX_PATH fullConfig ∧
    ruleOf (selectedEntries (.ofChars ['a']) fullConfig) (.ofChars ['/', 'm']) = some O_FORBIDDEN ∧
    ∃ m, configInit (fun _ => false) (fun _ => none) 0 (.ofChars ['a']) fullConfig = .ok m ∧
      m.items.lookup (.ofChars ['/', 'm']) = none ∧
      checkPermissionUncached m.items slash (.ofChars ['/', 'm']) O_RDONLY = .ok true := by
  obtain ⟨m, hm, h⟩ := Exec.of_returned
    (x := configInit (fun _ => false) (fun _ => none) 0 (.ofChars ['a']) fullConfig)
    (p := fun m => m.items.lookup (.ofChars ['/', 'm']) = none ∧
      checkPermissionUncached m.items slash (.ofChars ['/', 'm']) O_RDONLY = .ok true) (by decide)
  exact ⟨configOk_fullConfig, by decide, m, hm, of_decide_eq_true h⟩

end Cnpv
