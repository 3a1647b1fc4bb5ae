import Cnpv.Agent.Check
import Cnpv.Lru.Buffers
import Cnpv.Lru.Invariant

/-!
# Threads that share the cache

`check_permission` in any number of threads. `lruc_get` and `lruc_set` run under the mutex of the
cache, so each is one step; the read of `*cache_value` is a step of its own, after the mutex is
released. Another thread can free the buffer in between (`threads_useAfterFree`). No thread reads
a buffer that was freed if no `lruc_set` is made while another thread holds the value that it frees:
the value of its own key or, when the cache is full, that of the least recently used item
(`threads_safe`).
-/

namespace Cnpv

open CLib

/-- Where a thread is in `check_permission`. -/
inductive Place
  /-- Before a call. -/
  | idle
  /-- `cache_get` has returned. -/
  | got (buf : CStr) (oflag : CInt) (cacheValue : Option Buffer)
  /-- The cache gave no verdict. -/
  | missed (buf : CStr) (oflag : CInt)

/-- The buffer that a thread holds. -/
def Place.held : Place → Option Buffer
  | .got _ _ cacheValue => cacheValue
  | _ => none

def Place.name : Place → Option CStr
  | .idle => none
  | .got buf _ _ => some buf
  | .missed buf _ => some buf

/-- The threads `ι` and what they share. -/
structure Threads (ι : Type) where
  agent : Agent
  place : ι → Place

/-- The next step of a thread; the arguments are those of its next call, if it is before one. -/
structure Turn (ι : Type) where
  thread : ι
  pathname : CStr
  oflag : CInt

/-- `*cache_value`, if it is not `NULL`. -/
def readCacheValue (c : VerdictCache) : Option Buffer → Exec (Option UInt8)
  | none => .ok none
  | some p => if p.addr ∈ c.lruc.freed then .error (.undefined .useAfterFree) else .ok (some p.char)

namespace Threads

variable {ι : Type} [DecidableEq ι]

/-- The thread `i` goes to `place`. -/
def move (s : Threads ι) (i : ι) (place : Place) (cache : VerdictCache) : Threads ι where
  agent := { s.agent with cache }
  place := Function.update s.place i place

/-- One step of `check_permission`: the verdict, if it returns. -/
def step (fuel : Nat) (s : Threads ι) (turn : Turn ι) : Exec (Option Bool × Threads ι) :=
  match s.place turn.thread with
  | .idle => do
    let buf ← checkName s.agent.cwd turn.pathname
    let r ← cacheGet fuel s.agent.cache buf none
    .ok (none, s.move turn.thread (.got buf turn.oflag r.1) r.2)
  | .got buf oflag cacheValue => do
    let char ← readCacheValue s.agent.cache cacheValue
    if char = some 'A'.toUInt8 then .ok (some true, s.move turn.thread .idle s.agent.cache)
    else if char = some 'F'.toUInt8 then .ok (some false, s.move turn.thread .idle s.agent.cache)
    else .ok (none, s.move turn.thread (.missed buf oflag) s.agent.cache)
  | .missed buf oflag => do
    let ret := verdict s.agent.map buf oflag
    let cache ← cacheInsert fuel s.agent.cache buf (verdictStr ret)
    .ok (some ret, s.move turn.thread .idle cache)

/-- The threads after a step. -/
def run (fuel : Nat) (s : Threads ι) (turn : Turn ι) : Exec (Threads ι) := Prod.snd <$> s.step fuel turn

/-- All threads before their first call. -/
def start (agent : Agent) : Threads ι where
  agent := agent
  place _ := .idle

end Threads

/-- `lruc_set` with this key frees the value of the item at `a`: the item has the key, or no item
has it, there is no room, and the item is a least recently used one. -/
def Lruc.SetFrees (c : Lruc) (key : CStr) (a : Addr) : Prop :=
  c.Chained a ∧ (itemKey (c.heap a) = key.buf ∨
    (∀ b, c.Chained b → itemKey (c.heap b) ≠ key.buf ∧
      (c.heap a).accessCount ≤ (c.heap b).accessCount) ∧ c.freeMemory < AVG_SIZE.toUInt64)

/-- If the step is an `lruc_set`, no thread holds a value that it frees. -/
def Threads.SetOk {ι : Type} (s : Threads ι) (turn : Turn ι) : Prop :=
  ∀ buf oflag, s.place turn.thread = .missed buf oflag → ∀ a, s.agent.cache.lruc.SetFrees buf a →
    ∀ i p, (s.place i).held = some p → (s.agent.cache.lruc.heap a).value ≠ some p

/-! ## The table -/

section Table

variable {t t' : Table} {e : LrucItem} {key value : Option Buffer} {keyLength : UInt32}
  {c c' : VerdictCache} {n : CStr} {fuel brk : Nat} {l l' : List UInt8}

theorem cacheGet_brk {ret : Option Buffer} {r : Option Buffer × VerdictCache}
    (h : cacheGet fuel c n ret = .ok r) : r.2.brk = c.brk := by
  obtain ⟨⟨error, ret, lruc⟩, -, h⟩ := Exec.bind_ok.mp h
  simp only at h
  split_ifs at h
  cases h
  rfl

theorem cacheInsert_brk {val : CStr} (h : cacheInsert fuel c n val = .ok c') : c'.brk = c.brk + 2 := by
  obtain ⟨⟨error, lruc⟩, -, h⟩ := Exec.bind_ok.mp h
  cases h
  rfl

/-- A use keeps the values. -/
theorem Table.exists_value_use (he : e ∈ t.entries) {v : Option Buffer}
    (h : ∃ e' ∈ t.entries, e'.value = v) : ∃ e' ∈ (t.use e).entries, e'.value = v := by
  obtain ⟨e', he', hv⟩ := h
  by_cases hne : e' = e
  · subst hne
    exact ⟨_, Multiset.mem_cons_self _ _, hv⟩
  · exact ⟨e', Multiset.mem_cons_of_mem ((Multiset.mem_erase_of_ne hne).mpr he'), hv⟩

/-- An entry that is not replaced and does not leave. -/
theorem Table.Stores.keeps (h : t.Stores key keyLength value t') (he : e ∈ t.entries)
    (hkey : itemKey e ≠ readBytes key keyLength.toNat)
    (hleast : t.entries.card = 64 → (∀ e' ∈ t.entries, itemKey e' ≠ readBytes key keyLength.toNat) →
      ¬ ∀ e' ∈ t.entries, e.accessCount ≤ e'.accessCount) : e ∈ t'.entries := by
  cases h with
  | @replaced e' _ hk =>
    have hne : e ≠ e' := by
      rintro rfl
      exact hkey hk
    exact Multiset.mem_cons_of_mem ((Multiset.mem_erase_of_ne hne).mpr he)
  | inserted _ _ => exact Multiset.mem_cons_of_mem he
  | @evicted e' hnone hcard _ hmin =>
    have hne : e ≠ e' := by
      rintro rfl
      exact hleast hcard hnone fun e' he' => hmin e' (Multiset.mem_cons_of_mem he')
    exact (Multiset.mem_erase_of_ne hne).mpr (Multiset.mem_cons_of_mem he)

/-- A key and a value that were allocated just before are stored. -/
theorem Table.Stores.owned (h : t.Stores (some ⟨brk, l⟩) keyLength (some ⟨brk + 1, l'⟩) t')
    (hown : t.Owned brk) : t'.Owned (brk + 2) := by
  have hinsert : (t.insert (some ⟨brk, l⟩) keyLength (some ⟨brk + 1, l'⟩) AVG_SIZE).Owned (brk + 2) :=
    hown.store (l := [brk + 1, brk]) (by simp) (by simp) (by omega) Table.handed_insert
  cases h with
  | replaced he _ =>
    exact hown.store (l := [brk + 1]) (by simp) (by simp) (by omega) (Table.handed_replace he)
  | inserted _ _ => exact hinsert.congr rfl
  | evicted _ _ he _ => exact hinsert.congr (Table.handed_evict he)

end Table

/-! ## The invariant -/

/-- The only way in which a name can fail. -/
theorem checkName_ok_or (cwd pathname : CStr) :
    (∃ n, checkName cwd pathname = .ok n) ∨ checkName cwd pathname = .error (.undefined .overflow) := by
  unfold checkName CStr.store
  split_ifs
  · exact .inl ⟨_, rfl⟩
  · exact .inr rfl
  · exact .inl ⟨_, rfl⟩
  · exact .inr rfl

namespace Threads

section

variable {ι : Type} {s : Threads ι} {t : Table} {turn : Turn ι} {a : Addr} {p : Buffer} {buf : CStr}
  {oflag : CInt}

/-- The invariant: each buffer that a thread holds is the value of an entry. -/
structure Safe (s : Threads ι) (t : Table) : Prop where
  holds : s.agent.cache.Holds t
  owned : t.Owned s.agent.cache.brk
  held : ∀ i p, (s.place i).held = some p → ∃ e ∈ t.entries, e.value = some p
  keyFits : ∀ i n, (s.place i).name = some n → KeyFits n

theorem safe_start (map : PolicyMap) (cwd : CStr) (seed : UInt64) :
    (start (agentInit map cwd seed) : Threads ι).Safe ⟨0, 0, 0, CACHE_SIZE, CACHE_SIZE, []⟩ where
  holds := holds_cacheInit seed
  owned := ⟨Multiset.nodup_zero, fun p hp => absurd hp (Multiset.notMem_zero p)⟩
  held _ _ h := by cases h
  keyFits _ _ h := by cases h

/-- A buffer that a thread holds is not freed. -/
theorem Safe.notMem_freed (h : s.Safe t) {i : ι} (hp : (s.place i).held = some p) :
    p.addr ∉ s.agent.cache.lruc.freed := by
  obtain ⟨e, he, hvalue⟩ := h.held i p hp
  obtain ⟨⟨chains, free, -, rfl⟩, -⟩ := h.holds
  exact h.owned.notMem_freed he hvalue

/-- Before an `lruc_set` that frees no value that a thread holds, the entries with such values are
not those that the table loses. -/
theorem Safe.not_setFrees (h : s.Safe t) (hset : s.SetOk turn)
    (hplace : s.place turn.thread = .missed buf oflag) {i : ι} (hp : (s.place i).held = some p)
    {e : LrucItem} (he : e ∈ t.entries) (hvalue : e.value = some p) :
    itemKey e ≠ buf.buf ∧ (t.entries.card = 64 → (∀ e' ∈ t.entries, itemKey e' ≠ buf.buf) →
      ¬ ∀ e' ∈ t.entries, e.accessCount ≤ e'.accessCount) := by
  have hfree := h.holds.uniform.free
  obtain ⟨⟨chains, free, hrep, rfl⟩, -⟩ := h.holds
  obtain ⟨j, a, ha, rfl⟩ := hrep.mem_entries.mp he
  have hchained : s.agent.cache.lruc.Chained a := hrep.chained_iff.mpr ⟨j, ha⟩
  have hnot : ¬ s.agent.cache.lruc.SetFrees buf a := fun hfrees => hset buf oflag hplace a hfrees i p hp hvalue
  refine ⟨fun hkey => hnot ⟨hchained, .inl hkey⟩, fun hcard hnone hmin => hnot ⟨hchained, .inr ⟨?_, ?_⟩⟩⟩
  · intro b hb
    obtain ⟨k, hk⟩ := hrep.chained_iff.mp hb
    have hentry : (s.agent.cache.lruc.heap b).entry ∈ (s.agent.cache.lruc.table chains free).entries :=
      hrep.mem_entries.mpr ⟨k, b, hk, rfl⟩
    exact ⟨hnone (s.agent.cache.lruc.heap b).entry hentry,
      hmin (s.agent.cache.lruc.heap b).entry hentry⟩
  · refine UInt64.lt_iff_toNat_lt.mpr ?_
    have hzero : s.agent.cache.lruc.freeMemory.toNat = 0 := by
      have : (s.agent.cache.lruc.table chains free).freeMemory.toNat = 0 := by omega
      exact this
    rw [hzero]
    decide

end

section Step

variable {ι : Type} [DecidableEq ι] {s : Threads ι} {t t' : Table} {turn : Turn ι} {fuel : Nat}
  {place : Place} {cache : VerdictCache} {buf : CStr} {oflag : CInt} {cacheValue : Option Buffer}

/-- A thread moves; the values that the threads hold are kept. -/
theorem Safe.move (h : s.Safe t) (hholds : cache.Holds t') (howned : t'.Owned cache.brk)
    (hkept : ∀ j p, (s.place j).held = some p → ∃ e ∈ t'.entries, e.value = some p)
    (hheld : ∀ p, place.held = some p → ∃ e ∈ t'.entries, e.value = some p)
    (hname : ∀ n, place.name = some n → KeyFits n) (i : ι) : (s.move i place cache).Safe t' where
  holds := hholds
  owned := howned
  held j p hp := by
    by_cases hj : j = i
    · subst hj
      exact hheld p (by simpa [Threads.move] using hp)
    · exact hkept j p (by simpa [Threads.move, hj] using hp)
  keyFits j n hn := by
    by_cases hj : j = i
    · subst hj
      exact hname n (by simpa [Threads.move] using hn)
    · exact h.keyFits j n (by simpa [Threads.move, hj] using hn)

@[simp] theorem move_place (s : Threads ι) (i : ι) (place : Place) (cache : VerdictCache) :
    (s.move i place cache).place i = place := Function.update_self _ _ _

@[simp] theorem move_cache (s : Threads ι) (i : ι) (place : Place) (cache : VerdictCache) :
    (s.move i place cache).agent.cache = cache := rfl

/-- A thread moves without the cache. -/
theorem Safe.leave (h : s.Safe t) (hheld : place.held = none)
    (hname : ∀ n, place.name = some n → KeyFits n) (i : ι) : (s.move i place s.agent.cache).Safe t := by
  apply h.move h.holds h.owned h.held _ hname
  intro p hp
  rw [hheld] at hp
  cases hp

/-- What a step gives: the invariant, or a name that does not fit its buffer. -/
def Steps (fuel : Nat) (s : Threads ι) (turn : Turn ι) : Prop :=
  (∃ r, s.step fuel turn = .ok r ∧ ∃ t', r.2.Safe t') ∨
    s.step fuel turn = .error (.undefined .overflow)

/-- `cache_get` -/
theorem Safe.get (h : s.Safe t) (hf : 65 < fuel) (hplace : s.place turn.thread = .idle) :
    s.Steps fuel turn := by
  unfold Steps
  simp only [Threads.step, hplace]
  rcases checkName_ok_or s.agent.cwd turn.pathname with ⟨n, hn⟩ | hn
  · have hk := keyFits_of_checkName hn
    obtain ⟨ret, c', hget, hspec⟩ := cacheGet_spec h.holds (Nat.lt_of_succ_lt hf) hk none
    have hbrk : c'.brk = s.agent.cache.brk := cacheGet_brk hget
    have hname : ∀ n', (Place.got n turn.oflag ret).name = some n' → KeyFits n' := by
      rintro n' ⟨⟩
      exact hk
    refine .inl ⟨_, Exec.bind_ok.mpr ⟨n, hn, Exec.bind_ok.mpr ⟨_, hget, rfl⟩⟩, ?_⟩
    rcases hspec with ⟨e, he, -, rfl, h'⟩ | ⟨-, rfl, rfl⟩
    · refine ⟨t.use e, h.move h' (hbrk ▸ h.owned.congr (Table.handed_use he)) ?_ ?_ hname _⟩
      · exact fun j p hp => Table.exists_value_use he (h.held j p hp)
      · exact fun p hp => Table.exists_value_use he ⟨e, he, hp⟩
    · exact ⟨t, h.move h.holds h.owned h.held (fun p hp => by cases hp) hname _⟩
  · exact .inr (by rw [hn]; rfl)

/-- `*cache_value` -/
theorem Safe.read (h : s.Safe t) (hplace : s.place turn.thread = .got buf oflag cacheValue) :
    s.Steps fuel turn := by
  have hread : ∃ char, readCacheValue s.agent.cache cacheValue = .ok char := by
    cases hvalue : cacheValue with
    | none => exact ⟨_, rfl⟩
    | some p =>
      have hp : (s.place turn.thread).held = some p := by rw [hplace, hvalue]; rfl
      exact ⟨_, if_neg (h.notMem_freed hp)⟩
  have hidle : (s.move turn.thread .idle s.agent.cache).Safe t :=
    h.leave rfl (fun n hn => by cases hn) _
  have hmissed : (s.move turn.thread (.missed buf oflag) s.agent.cache).Safe t := by
    apply h.leave rfl
    rintro n ⟨⟩
    exact h.keyFits turn.thread buf (by rw [hplace]; rfl)
  obtain ⟨char, hread⟩ := hread
  unfold Steps
  simp only [Threads.step, hplace, hread, Exec.ok_bind]
  split_ifs
  · exact .inl ⟨_, rfl, t, hidle⟩
  · exact .inl ⟨_, rfl, t, hidle⟩
  · exact .inl ⟨_, rfl, t, hmissed⟩

/-- `cache_insert` -/
theorem Safe.set (h : s.Safe t) (hf : 65 < fuel) (hset : s.SetOk turn)
    (hplace : s.place turn.thread = .missed buf oflag) : s.Steps fuel turn := by
  have hk : KeyFits buf := h.keyFits turn.thread buf (by rw [hplace]; rfl)
  obtain ⟨c', hinsert, t', h', hs⟩ :=
    cacheInsert_spec h.holds hf hk (verdictStr (verdict s.agent.map buf oflag))
  have hbrk : c'.brk = s.agent.cache.brk + 2 := cacheInsert_brk hinsert
  unfold Steps
  simp only [Threads.step, hplace]
  refine .inl ⟨_, Exec.bind_ok.mpr ⟨c', hinsert, rfl⟩, t', ?_⟩
  refine h.move h' (hbrk ▸ hs.owned h.owned) (fun j p hp => ?_) (fun p hp => by cases hp)
    (fun n hn => by cases hn) _
  -- The value that thread `j` holds is neither replaced nor evicted.
  obtain ⟨e, he, hvalue⟩ := h.held j p hp
  obtain ⟨hkey, hleast⟩ := h.not_setFrees hset hplace hp he hvalue
  refine ⟨e, hs.keeps he ?_ ?_, hvalue⟩
  · rwa [hk.readBytes]
  · rwa [hk.readBytes]

/-- One step of one thread. -/
theorem Safe.step (h : s.Safe t) (hf : 65 < fuel) (hset : s.SetOk turn) : s.Steps fuel turn := by
  cases hplace : s.place turn.thread with
  | idle => exact h.get hf hplace
  | got buf oflag cacheValue => exact h.read hplace
  | missed buf oflag => exact h.set hf hset hplace

end Step

end Threads

/-- Without other threads, the steps are those of `check_permission`. -/
theorem Threads.step_checkPermission {ι : Type} [DecidableEq ι] {s : Threads ι} {t : Table} {fuel : Nat}
    (h : s.Safe t) (hf : 65 < fuel) {turn : Turn ι} (hplace : s.place turn.thread = .idle) :
    (do
      let r₁ ← s.step fuel turn
      let r₂ ← r₁.2.step fuel turn
      match r₂.1 with
      | some ret => .ok (ret, r₂.2.agent)
      | none => do
        let r₃ ← r₂.2.step fuel turn
        .ok (r₃.1.getD false, r₃.2.agent)) =
      checkPermission fuel s.agent turn.pathname turn.oflag := by
  rcases checkName_ok_or s.agent.cwd turn.pathname with ⟨n, hn⟩ | hn
  · obtain ⟨ret, c, hget, -⟩ := cacheGet_spec h.holds (Nat.lt_of_succ_lt hf) (keyFits_of_checkName hn) none
    have hfirst : s.step fuel turn = .ok (none, s.move turn.thread (.got n turn.oflag ret) c) := by
      simp only [Threads.step, hplace]
      exact Exec.bind_ok.mpr ⟨n, hn, Exec.bind_ok.mpr ⟨_, hget, rfl⟩⟩
    -- The buffer is not freed: no step of another thread comes in between.
    have hread : readCacheValue c ret = .ok (ret.map Buffer.char) := by
      cases hret : ret with
      | none => rfl
      | some p =>
        rcases h.get hf hplace with ⟨r, hr, t', h'⟩ | hr
        · cases hfirst.symm.trans hr
          have hheld : ((s.move turn.thread (.got n turn.oflag ret) c).place turn.thread).held = some p := by
            rw [Threads.move_place, hret]
            rfl
          exact if_neg (h'.notMem_freed hheld)
        · cases hfirst.symm.trans hr
    rw [hfirst, Exec.ok_bind, checkPermission, hn, Exec.ok_bind, hget, Exec.ok_bind]
    simp only [Threads.step, Threads.move_place, Threads.move_cache, hread, Exec.ok_bind]
    split_ifs
    · rfl
    · rfl
    · simp only [Exec.ok_bind, Threads.move_place, bind_assoc]
      rfl
  · simp only [Threads.step, hplace, checkPermission, hn, Exec.error_bind]

/-- **No verdict is read from freed memory**, in every interleaving in which no `lruc_set` frees a value
that a thread holds: the run returns, or ends at a name that does not fit its buffer. -/
theorem threads_safe {ι : Type} [DecidableEq ι] {map : PolicyMap} {cwd : CStr} {seed : UInt64}
    {fuel : Nat} {turns : List (Turn ι)} (hf : 65 < fuel)
    (hset : Along (Threads.run fuel) Threads.SetOk (Threads.start (agentInit map cwd seed)) turns) :
    (∃ s, runFrom (Threads.run fuel) (Threads.start (agentInit map cwd seed)) turns = .ok s) ∨
      runFrom (Threads.run fuel) (Threads.start (agentInit map cwd seed)) turns =
        .error (.undefined .overflow) := by
  have hstep : ∀ (s : Threads ι) turn, (∃ t, s.Safe t) → s.SetOk turn →
      (∃ s', s.run fuel turn = .ok s' ∧ ∃ t, s'.Safe t) ∨
        s.run fuel turn = .error (.undefined .overflow) := by
    rintro s turn ⟨t, h⟩ hset
    rcases h.step hf hset with ⟨r, hr, h'⟩ | hr
    · exact .inl ⟨r.2, Exec.map_ok.mpr ⟨r, hr, rfl⟩, h'⟩
    · exact .inr (by rw [Threads.run, hr]; rfl)
  rcases runFrom_ok_or (fun s => ∃ t, s.Safe t) hstep ⟨_, Threads.safe_start map cwd seed⟩ hset with
    ⟨s, hs, -⟩ | h
  · exact .inl ⟨s, hs⟩
  · exact .inr h

/-- Of a cache whose chains have at most one item each, these are the items. -/
theorem Lruc.mem_items_of_chained {c : Lruc} {a : Addr}
    (h : ∀ p ∈ c.items, ∀ b ∈ p, c.next b = none) (ha : c.Chained a) : some a ∈ c.items := by
  obtain ⟨i, l, hl, ha⟩ := ha
  cases hb : c.bucket i with
  | none =>
    rw [hb, Chain.none_iff] at hl
    rw [hl] at ha
    cases ha
  | some b =>
    have hmem : some b ∈ c.items := List.mem_of_getElem? (Option.join_eq_some_iff.mp hb)
    have hsingle : Chain c.next (c.bucket i) [b] := ⟨hb, h _ hmem b rfl⟩
    rw [Chain.unique hl hsingle, List.mem_singleton] at ha
    rwa [ha]

/-- If the step is an `lruc_set`, no item has its key and there is room for another item. -/
def Threads.SetsNew {ι : Type} (s : Threads ι) (turn : Turn ι) : Bool :=
  match s.place turn.thread with
  | .missed buf _ => AVG_SIZE.toUInt64 ≤ s.agent.cache.lruc.freeMemory &&
      s.agent.cache.lruc.items.all fun p => p.all fun b =>
        s.agent.cache.lruc.next b = none && itemKey (s.agent.cache.lruc.heap b) ≠ buf.buf
  | _ => true

/-- Such an `lruc_set` frees nothing. -/
theorem Threads.setOk_of_setsNew {ι : Type} {s : Threads ι} {turn : Turn ι} (h : s.SetsNew turn) :
    s.SetOk turn := by
  intro buf oflag hplace a hfrees
  simp only [SetsNew, hplace, Bool.and_eq_true, List.all_eq_true, Option.all_eq_true,
    decide_eq_true_eq] at h
  obtain ⟨hroom, hitems⟩ := h
  obtain ⟨hchained, hkey | ⟨-, hfull⟩⟩ := hfrees
  · have hmem := Lruc.mem_items_of_chained (fun p hp b hb => (hitems p hp b hb).1) hchained
    exact absurd hkey (hitems _ hmem a rfl).2
  · exact absurd hfull (UInt64.not_lt.mpr hroom)

/-- The turn of a thread that opens the file to read. -/
def openTurn {ι : Type} (i : ι) (file : Char) : Turn ι := ⟨i, .ofChars ['/', file], O_RDONLY⟩

/-- While the first thread holds the value of `/f`, the second one sets that of `/g`. -/
theorem threads_safe_two :
    (∃ s, runFrom (Threads.run 66) (Threads.start (agentInit ∅ slash 0))
      [openTurn true 'f', openTurn true 'f', openTurn true 'f', openTurn true 'f'] = .ok s ∧
      (s.place true).held ≠ none) ∧
    ((∃ s, runFrom (Threads.run 66) (Threads.start (agentInit ∅ slash 0))
      [openTurn true 'f', openTurn true 'f', openTurn true 'f', openTurn true 'f',
        openTurn false 'g', openTurn false 'g', openTurn false 'g', openTurn true 'f'] = .ok s) ∨
      runFrom (Threads.run 66) (Threads.start (agentInit ∅ slash 0))
        [openTurn true 'f', openTurn true 'f', openTurn true 'f', openTurn true 'f',
          openTurn false 'g', openTurn false 'g', openTurn false 'g', openTurn true 'f'] =
        .error (.undefined .overflow)) := by
  constructor
  · obtain ⟨s, hs, hheld⟩ := Exec.of_returned
      (x := runFrom (Threads.run 66) (Threads.start (agentInit ∅ slash 0))
        [openTurn true 'f', openTurn true 'f', openTurn true 'f', openTurn true 'f'])
      (p := fun s => (s.place true).held ≠ none) (by decide)
    exact ⟨s, hs, of_decide_eq_true hheld⟩
  · have hnew : Along (Threads.run 66) (fun s turn => s.SetsNew turn = true)
        (Threads.start (agentInit ∅ slash 0))
        [openTurn true 'f', openTurn true 'f', openTurn true 'f', openTurn true 'f',
          openTurn false 'g', openTurn false 'g', openTurn false 'g', openTurn true 'f'] := by
      decide
    exact threads_safe (by decide) (hnew.imp fun _ _ => Threads.setOk_of_setsNew)

/-- Another thread frees the buffer: both threads miss, the first one sets its verdict and finds it by
its next call, the second one sets the same key, and the first one reads. -/
theorem threads_useAfterFree :
    runFrom (Threads.run 66) (Threads.start (agentInit ∅ slash 0))
      [openTurn true 'f', openTurn false 'f', openTurn true 'f', openTurn false 'f',
        openTurn true 'f', openTurn true 'f', openTurn false 'f', openTurn true 'f'] =
      .error (.undefined .useAfterFree) := by
  rfl

end Cnpv
