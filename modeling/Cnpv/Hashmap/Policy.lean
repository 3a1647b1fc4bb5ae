import Cnpv.Agent.Genuine
import Cnpv.Kernel.Lookup
import Cnpv.Hashmap.User

/-!
# The rules in the buckets

The loaders and the checks of the other modules have a finite map for `map`. Here they have the
buckets, with SipHash and `strcmp`, and each call is one of `hashmap.c`. The agent loads the same
rules and takes the same decisions, with its cache and without (`checkPermission_buckets`), and so
does the kernel module in every run of messages (`receive_buckets`), whichever allocations of
`hashmap_set` and of the messages fail. A map stays below 65536 rules: `dib` has 16 bits.
-/

namespace Cnpv

open CLib

/-- The finite map that a `HashMap` is. -/
def HashMap.dict (m : HashMap) : Dict CStr CInt where
  items := m.items
  cap := 16
  nbuckets := m.nbuckets
  oom := m.oom

/-- The buckets have the rules of `m`. -/
structure Hashmap.Stores (fuel : Nat) (map : Hashmap User) (m : HashMap) : Prop where
  refines : map.Refines userKeyed User.permission m.dict
  fuel : map.nbuckets ≤ fuel

variable {map : Hashmap User} {m : HashMap} {u : User} {fuel : Nat} {grow : Bool}

/-! ## One call -/

theorem HashMap.dict_hashmapSet (grow : Bool) (m : HashMap) (u : User) :
    (m.hashmapSet grow u).dict = (m.dict.set grow u.pathname u.permission).2 := by
  have hcount : ({ m with oom := false } : HashMap).count = m.dict.count := rfl
  have hgrowat : ({ m with oom := false } : HashMap).growat = m.dict.growat := rfl
  rw [hashmapSet, Dict.set]
  simp only [hcount, hgrowat]
  by_cases hfull : m.dict.count = m.dict.growat
  · rw [if_pos hfull, if_pos hfull]
    cases grow <;> rfl
  · rw [if_neg hfull, if_neg hfull]
    rfl

/-- No rule is lost when one is stored. -/
theorem HashMap.count_le_hashmapSet (grow : Bool) (m : HashMap) (u : User) :
    m.count ≤ (m.hashmapSet grow u).count := by
  rw [count, count, items_hashmapSet]
  split_ifs
  · exact Nat.le_refl _
  · refine Finset.card_le_card fun q hq => ?_
    rw [Finmap.mem_keys] at hq ⊢
    exact Finmap.mem_insert.mpr (.inr hq)

namespace Hashmap.Stores

theorem new (hfuel : 16 ≤ fuel) :
    ∃ map, hashmapNew userKeyed.toCallbacks true 0 0 0 = .ok (some map) ∧ map.Stores fuel {} := by
  have hround : roundCap 0 = .ok (2 ^ 4) := rfl
  refine ⟨_, Hashmap.hashmapNew_ok hround, ?_, hfuel⟩
  exact .zeroed (Hashmap.shape_fresh _ (Nat.le_refl 4) (by decide) _ _) ⟨4, Nat.le_refl 4, rfl⟩
    (Nat.le_refl _) rfl (fun _ _ => rfl) rfl

theorem set (h : map.Stores fuel m) (hfuel : 2 ^ 17 ≤ fuel) (hsmall : m.count + 1 < 2 ^ 16)
    (grow : Bool) (u : User) :
    ∃ r map', hashmapSet userKeyed.toCallbacks fuel grow map u = .ok (r, map') ∧
      map'.Stores fuel (m.hashmapSet grow u) := by
  have hcount : map.count = m.count := h.refines.card.symm
  obtain ⟨r, map', hset, -, hn, h'⟩ := h.refines.set (hcount ▸ hsmall) h.fuel hfuel grow u
  exact ⟨r, map', hset, HashMap.dict_hashmapSet grow m u ▸ h', hn⟩

theorem clear (h : map.Stores fuel m) (memory : Bool) :
    ∃ map', hashmapClear userKeyed.toCallbacks memory false map = .ok map' ∧
      map'.Stores fuel m.clear := by
  obtain ⟨map', hclear, hn, h'⟩ := h.refines.clear h.fuel false memory
  exact ⟨map', hclear, h', hn⟩

theorem get (h : map.Stores fuel m) (user : User) :
    ∃ r, hashmapGet userKeyed.toCallbacks fuel map user = .ok r ∧
      r.map User.permission = m.items.lookup user.pathname := h.refines.get h.fuel user

end Hashmap.Stores

/-! ## The agent -/

section Agent

variable {σ : Type} {emit : σ → User → σ} {alloc : Nat → Bool}
  {opendir : CStr → Option (List Dirent)} {depth : Nat} {progName cwd pathname : CStr}
  {value : JsonValue} {oflag : CInt}

/-- `process_pair`, with its `hashmap_set`. -/
def processPairWith (emit : σ → User → σ) (opendir : CStr → Option (List Dirent)) (depth : Nat) (s : σ) :
    JsonValue → Exec σ
  | .object values => do
    let tmp ← runFrom (readMember MAX_PATH) { pathname := default, permission := 0 } values
    let last ← lastChar tmp.pathname
    if last = '/'.toUInt8 then dirContent opendir MAX_PATH emit tmp.permission depth tmp.pathname s
    else .ok (emit s tmp)
  | _ => .error (.exit (-1))

/-- The buckets while they are loaded, and how many rules were stored. -/
structure LoadingBuckets where
  map : Exec (Hashmap User)
  sets : Nat := 0

/-- `hashmap_set(map, &tmp)` -/
def LoadingBuckets.hashmapSet (fuel : Nat) (alloc : Nat → Bool) (s : LoadingBuckets) (tmp : User) :
    LoadingBuckets where
  map := s.map >>= fun map =>
    Prod.snd <$> Cnpv.hashmapSet userKeyed.toCallbacks fuel (alloc s.sets) map tmp
  sets := s.sets + 1

/-- `config_init`, after the file is parsed: the buckets that it leaves. Its `hashmap_new` succeeds. -/
def configInitBuckets (fuel : Nat) (alloc : Nat → Bool) (opendir : CStr → Option (List Dirent))
    (depth : Nat) (progName : CStr) (value : JsonValue) : Exec (Hashmap User) := do
  let map ← hashmapNew userKeyed.toCallbacks true 0 0 0
  let s ← processRoot (processPairWith (LoadingBuckets.hashmapSet fuel alloc) opendir depth) progName
    { map := map.elim (.error (.undefined .nullPointer)) .ok } value
  s.map

/-- The verdict of the buckets on a name in `buf`. -/
def verdictBuckets (fuel : Nat) (map : Hashmap User) (buf : CStr) (oflag : CInt) : Exec Bool := do
  let user ← hashmapGet userKeyed.toCallbacks fuel map
    { pathname := buf.take (MAX_PATH - 1), permission := 0 }
  .ok (user.elim true fun user => allows user.permission oflag)

/-- `check_permission` without `USE_CACHE`, on the buckets. -/
def uncachedBuckets (fuel : Nat) (map : Hashmap User) (cwd pathname : CStr) (oflag : CInt) :
    Exec Bool := do
  let buf ← checkName cwd pathname
  verdictBuckets fuel map buf oflag

/-- `check_permission(pathname, oflag)` with `USE_CACHE`, on the buckets, for
`call = (pathname, oflag)`. -/
def checkBuckets (fuel : Nat) (map : Hashmap User) (cwd : CStr) (cache : VerdictCache)
    (call : CStr × CInt) : Exec (Bool × VerdictCache) := do
  let buf ← checkName cwd call.1
  let (cacheValue, cache) ← cacheGet fuel cache buf none
  if cacheValue.map Buffer.char = some 'A'.toUInt8 then .ok (true, cache)
  else if cacheValue.map Buffer.char = some 'F'.toUInt8 then .ok (false, cache)
  else do
    let ret ← verdictBuckets fuel map buf call.2
    let cache ← cacheInsert fuel cache buf (verdictStr ret)
    .ok (ret, cache)

/-- Calls after `cache_init`, one after the other, each with its verdict. -/
def checksBuckets (fuel : Nat) (map : Hashmap User) (cwd : CStr) (seed : UInt64)
    (calls : List (CStr × CInt)) : List ((CStr × CInt) × Bool) :=
  (trace (checkBuckets fuel map cwd) (cacheInit seed) calls).map Prod.snd

/-- The rules that `config_init` stores, in order. -/
def storedUsers (opendir : CStr → Option (List Dirent)) (depth : Nat) (progName : CStr)
    (value : JsonValue) : Exec (List User) :=
  processRoot (processPairWith (fun us u => us ++ [u]) opendir depth) progName [] value

/-- What is stored does not depend on where it is stored. -/
theorem processRoot_storedUsers (s : σ) :
    processRoot (processPairWith emit opendir depth) progName s value =
      (fun us => us.foldl emit s) <$> storedUsers opendir depth progName value := by
  have hemit : ∀ (us : List User) u, (us ++ [u]).foldl emit s = emit (us.foldl emit s) u := fun us u =>
    List.foldl_concat emit s u us
  have hpair : ∀ (us : List User) v, (fun us : List User => us.foldl emit s) <$>
      processPairWith (fun us u => us ++ [u]) opendir depth us v =
        processPairWith emit opendir depth (us.foldl emit s) v := by
    intro us v
    cases v with
    | object values =>
      rw [processPairWith, processPairWith]
      cases runFrom (readMember MAX_PATH) { pathname := default, permission := 0 } values with
      | error e => rfl
      | ok tmp =>
        simp only [Exec.ok_bind]
        cases lastChar tmp.pathname with
        | error e => rfl
        | ok last =>
          simp only [Exec.ok_bind]
          split_ifs
          · exact dirContent_map hemit depth tmp.pathname us
          · exact congrArg Except.ok (hemit us tmp)
    | _ => rfl
  exact (processRoot_map hpair progName value []).symm

theorem configInit_storedUsers :
    configInit alloc opendir depth progName value =
      (fun us => (us.foldl (Loading.hashmapSet alloc) {}).map) <$>
        storedUsers opendir depth progName value := by
  have hpair : Loading.processPair alloc opendir depth =
      processPairWith (Loading.hashmapSet alloc) opendir depth := by
    funext s v
    cases v <;> rfl
  rw [configInit, hpair, processRoot_storedUsers]
  exact (LawfulFunctor.comp_map _ _ _).symm

/-- The rules stored one after the other. The number of rules only grows, so a bound at the end is
one for each call. -/
theorem Hashmap.Stores.foldl (h : map.Stores fuel m) (hfuel : 2 ^ 17 ≤ fuel) (us : List User)
    (sets : Nat) (hsmall : (us.foldl (Loading.hashmapSet alloc) ⟨m, sets⟩).map.count + 1 < 2 ^ 16) :
    ∃ map', (us.foldl (LoadingBuckets.hashmapSet fuel alloc) ⟨.ok map, sets⟩).map = .ok map' ∧
      map'.Stores fuel (us.foldl (Loading.hashmapSet alloc) ⟨m, sets⟩).map := by
  have hle : ∀ (us : List User) (s : Loading),
      s.map.count ≤ (us.foldl (Loading.hashmapSet alloc) s).map.count := by
    intro us
    induction us with
    | nil => exact fun s => Nat.le_refl _
    | cons u us ih => exact fun s => (HashMap.count_le_hashmapSet _ _ u).trans (ih (s.hashmapSet alloc u))
  induction us generalizing map m sets with
  | nil => exact ⟨map, rfl, h⟩
  | cons u us ih =>
    have hcount : m.count + 1 < 2 ^ 16 :=
      Nat.lt_of_le_of_lt (Nat.succ_le_succ (hle (u :: us) ⟨m, sets⟩)) hsmall
    obtain ⟨r, map', hset, h'⟩ := h.set hfuel hcount (alloc sets) u
    have hnext : LoadingBuckets.hashmapSet fuel alloc ⟨.ok map, sets⟩ u = ⟨.ok map', sets + 1⟩ := by
      rw [LoadingBuckets.hashmapSet, Exec.ok_bind, hset]
      rfl
    rw [List.foldl_cons, hnext]
    exact ih h' (sets + 1) hsmall

/-- The check looks the name up in the buckets. -/
theorem Hashmap.Stores.verdict (h : map.Stores fuel m) (buf : CStr) (oflag : CInt) :
    verdictBuckets fuel map buf oflag = .ok (Cnpv.verdict m.items buf oflag) := by
  obtain ⟨user, hget, hlookup⟩ := h.get { pathname := buf.take (MAX_PATH - 1), permission := 0 }
  simp only [verdictBuckets, Exec.ok_bind, hget, Cnpv.verdict, ← hlookup]
  cases user <;> rfl

theorem Hashmap.Stores.uncached (h : map.Stores fuel m) (cwd pathname : CStr) (oflag : CInt) :
    uncachedBuckets fuel map cwd pathname oflag =
      checkPermissionUncached m.items cwd pathname oflag := by
  rw [uncachedBuckets, checkPermissionUncached]
  cases checkName cwd pathname with
  | error e => rfl
  | ok buf => exact h.verdict buf oflag

/-- With the cache, a call is one of the agent with the rules. -/
theorem Hashmap.Stores.check (h : map.Stores fuel m) (cwd : CStr) (cache : VerdictCache)
    (call : CStr × CInt) :
    (fun r => (r.1, (⟨m.items, cwd, r.2⟩ : Agent))) <$> checkBuckets fuel map cwd cache call =
      Agent.check fuel ⟨m.items, cwd, cache⟩ call := by
  rw [checkBuckets, Agent.check, checkPermission]
  cases checkName cwd call.1 with
  | error e => rfl
  | ok buf =>
    rw [Exec.ok_bind, Exec.ok_bind]
    cases cacheGet fuel cache buf none with
    | error e => rfl
    | ok r =>
      simp only [Exec.ok_bind, h.verdict]
      split_ifs
      · rfl
      · rfl
      · cases cacheInsert fuel r.2 buf (verdictStr (Cnpv.verdict m.items buf call.2)) <;> rfl

/-- The calls of a run have the same verdicts. -/
theorem Hashmap.Stores.checks (h : map.Stores fuel m) (cwd : CStr) (seed : UInt64)
    (calls : List (CStr × CInt)) :
    checksBuckets fuel map cwd seed calls =
      (trace (Agent.check fuel) (agentInit m.items cwd seed) calls).map Prod.snd :=
  (trace_map (h.check cwd) (cacheInit seed) calls).symm

/-- `config_init` fills the buckets as it fills a finite map. -/
theorem configInitBuckets_stores (hfuel : 2 ^ 17 ≤ fuel)
    (hm : configInit alloc opendir depth progName value = .ok m) (hsmall : m.count + 1 < 2 ^ 16) :
    ∃ map, configInitBuckets fuel alloc opendir depth progName value = .ok map ∧ map.Stores fuel m := by
  have hfuel' : 16 ≤ fuel := Nat.le_trans (by decide) hfuel
  obtain ⟨map, hnew, h⟩ := Hashmap.Stores.new hfuel'
  rw [configInit_storedUsers] at hm
  obtain ⟨us, hus, rfl⟩ := Exec.map_ok.mp hm
  obtain ⟨map', hmap', h'⟩ := h.foldl hfuel us 0 hsmall
  refine ⟨map', ?_, h'⟩
  rw [configInitBuckets, hnew, Exec.ok_bind, Option.elim_some, processRoot_storedUsers, hus]
  exact hmap'

/-- **The agent decides by its buckets as by its rules**: it loads a configuration into them as it
does into a finite map, whichever allocations fail, and each check has the same result, without the
cache and, in every run of calls, with it. -/
theorem checkPermission_buckets (hfuel : 2 ^ 17 ≤ fuel) :
    (∀ e, configInit alloc opendir depth progName value = .error e →
      configInitBuckets fuel alloc opendir depth progName value = .error e) ∧
    ∀ m, configInit alloc opendir depth progName value = .ok m → m.count + 1 < 2 ^ 16 →
      ∃ map, configInitBuckets fuel alloc opendir depth progName value = .ok map ∧
        map.count = m.count ∧ map.oom = m.oom ∧
        (∀ cwd pathname oflag, uncachedBuckets fuel map cwd pathname oflag =
          checkPermissionUncached m.items cwd pathname oflag) ∧
        ∀ cwd seed calls, checksBuckets fuel map cwd seed calls =
          (trace (Agent.check fuel) (agentInit m.items cwd seed) calls).map Prod.snd := by
  constructor
  · intro e he
    have hround : roundCap 0 = .ok (2 ^ 4) := rfl
    rw [configInit_storedUsers] at he
    rw [configInitBuckets, Hashmap.hashmapNew_ok hround, Exec.ok_bind, processRoot_storedUsers,
      Exec.map_error.mp he]
    rfl
  · intro m hm hsmall
    obtain ⟨map, hmap, h⟩ := configInitBuckets_stores hfuel hm hsmall
    exact ⟨map, hmap, h.refines.card.symm, h.refines.oom, h.uncached, h.checks⟩

end Agent

/-- One file that may be read, when nothing can be allocated. Once it was opened to read, the cache lets
it be opened to write. -/
theorem checkPermission_buckets_read :
    ∃ map, configInitBuckets (2 ^ 17) (fun _ => false) (fun _ => none) 0 (.ofChars ['a']) readConfig =
        .ok map ∧
      uncachedBuckets (2 ^ 17) map slash (.ofChars ['/', 'f']) O_WRONLY = .ok false ∧
      checksBuckets (2 ^ 17) map slash 0
        [(.ofChars ['/', 'f'], O_RDONLY), (.ofChars ['/', 'f'], O_WRONLY)] =
        [((.ofChars ['/', 'f'], O_RDONLY), true), ((.ofChars ['/', 'f'], O_WRONLY), true)] := by
  obtain ⟨m, hm, hp⟩ := Exec.of_returned
    (x := configInit (fun _ => false) (fun _ => none) 0 (.ofChars ['a']) readConfig)
    (p := fun m => m.count + 1 < 2 ^ 16 ∧
      checkPermissionUncached m.items slash (.ofChars ['/', 'f']) O_WRONLY = .ok false ∧
      (trace (Agent.check (2 ^ 17)) (agentInit m.items slash 0)
        [(.ofChars ['/', 'f'], O_RDONLY), (.ofChars ['/', 'f'], O_WRONLY)]).map Prod.snd =
        [((.ofChars ['/', 'f'], O_RDONLY), true), ((.ofChars ['/', 'f'], O_WRONLY), true)]) (by decide)
  obtain ⟨hsmall, huncached, hcached⟩ := of_decide_eq_true hp
  obtain ⟨map, hmap, -, -, hagree, hruns⟩ := (checkPermission_buckets (Nat.le_refl (2 ^ 17))).2 m hm hsmall
  exact ⟨map, hmap, (hagree _ _ _).trans huncached, (hruns _ _ _).trans hcached⟩

/-! ## The kernel module -/

/-- Which allocations of a call succeed, with that of `hashmap_clear`. -/
structure BucketAllocs extends Allocs where
  clear : Bool

/-- The globals of the kernel module, with the buckets. -/
structure KernelBuckets where
  map : Option (Hashmap User) := none
  target : CStr

namespace KernelBuckets

/-- The kernel module when it is loaded. -/
def init : KernelBuckets where
  target := Kernel.init.target

/-- `*map` -/
def deref (map : Option (Hashmap User)) : Exec (Hashmap User) :=
  map.elim (.error (.undefined .nullPointer)) .ok

/-- The map that the call works on: a new one, if there is none. -/
def mapOrNew (allocs : BucketAllocs) (k : KernelBuckets) : Exec (Option (Hashmap User)) :=
  k.map.elim (hashmapNew userKeyed.toCallbacks allocs.new 0 0 0) fun map => .ok (some map)

/-- `hello_nl_recv_msg`; `true` if it sends its reply. -/
def receive (fuel : Nat) (allocs : BucketAllocs) (k : KernelBuckets) (u : MyUser) :
    Exec (Bool × KernelBuckets) := do
  let map ← k.mapOrNew allocs
  match u.type with
  | .myuser => do
    let map ← deref map
    let mapuser : User := { pathname := u.pathname.take KERNEL_MAX_PATH, permission := u.permission }
    let r ← hashmapSet userKeyed.toCallbacks fuel allocs.grow map mapuser
    .ok (allocs.reply, { k with map := some r.2 })
  | .cmd =>
    if u.pathname = clearCmd then do
      let map ← deref map
      let map ← hashmapClear userKeyed.toCallbacks allocs.clear false map
      .ok (allocs.reply, { k with map := some map })
    else if (strstr u.pathname.bytes tarCmd.bytes).isSome then
      .ok (allocs.reply, { map := map, target := u.pathname.drop 4 })
    else .ok (allocs.reply, { k with map := map })
  | _ => .ok (allocs.reply, { k with map := map })

/-- `check_permission` -/
def checkPermission (fuel : Nat) (k : KernelBuckets) (pathname : CStr) (oflag : CInt) : Exec CInt := do
  let buf ← pathname.store KERNEL_MAX_PATH
  let map ← deref k.map
  let user ← hashmapGet userKeyed.toCallbacks fuel map
    { pathname := buf.take (KERNEL_MAX_PATH - 1), permission := 0 }
  .ok (user.elim 1 fun user => Kernel.allows user.permission oflag)

/-- The check of both hooks, and the real call if it gives 1. -/
def checkMsg (fuel : Nat) (b : KernelBuckets) (msg : List UInt8) (call : KernelCall) :
    Exec HookReply := do
  let pathname ← bufferStr msg
  let ret ← b.checkPermission fuel pathname call.flags
  if ret = 1 then .ok (.real call) else .ok .refused

/-- `my_open` -/
def myOpen (fuel : Nat) (b : KernelBuckets) (comm pathname : CStr) (flags mode : CInt) :
    Exec HookReply :=
  let msg := userMsg pathname
  if comm = b.target then b.checkMsg fuel msg (.open pathname flags mode)
  else .ok (.real (.open pathname flags mode))

/-- `my_openat` -/
def myOpenat (fuel : Nat) (b : KernelBuckets) (comm : CStr) (dfd : CInt) (filename : CStr)
    (flags mode : CInt) : Exec HookReply :=
  let msg := userMsg filename
  if msg.head? = some '/'.toUInt8 ∧ comm = b.target then
    b.checkMsg fuel msg (.openat dfd filename flags mode)
  else .ok (.real (.openat dfd filename flags mode))

/-- The hook of a system call. -/
def hook (fuel : Nat) (b : KernelBuckets) (comm : CStr) : KernelCall → Exec HookReply
  | .open pathname flags mode => b.myOpen fuel comm pathname flags mode
  | .openat dfd filename flags mode => b.myOpenat fuel comm dfd filename flags mode

/-- One message. -/
def handle (fuel : Nat) (b : KernelBuckets) (message : BucketAllocs × MyUser) : Exec KernelBuckets :=
  Prod.snd <$> b.receive fuel message.1 message.2

end KernelBuckets

/-- One message. -/
def KernelMem.handle (k : KernelMem) (message : BucketAllocs × MyUser) : Exec KernelMem :=
  Prod.snd <$> k.receive message.1.toAllocs message.2

section Kernel

/-- The maps are both `NULL`, or the buckets have the rules. -/
inductive StoresMap (fuel : Nat) : Option (Hashmap User) → Option HashMap → Prop
  | none : StoresMap fuel none none
  | some {map : Hashmap User} {m : HashMap} (h : map.Stores fuel m) :
    StoresMap fuel (some map) (some m)

/-- The kernel module with its buckets, and with its rules. -/
structure KernelBuckets.Stores (fuel : Nat) (b : KernelBuckets) (k : KernelMem) : Prop where
  target : b.target = k.target
  map : StoresMap fuel b.map k.map

variable {b : KernelBuckets} {k : KernelMem} {allocs : BucketAllocs}

/-- The map that a call works on. -/
theorem KernelBuckets.Stores.mapOrNew (h : b.Stores fuel k) (hfuel : 16 ≤ fuel)
    (allocs : BucketAllocs) :
    ∃ map, b.mapOrNew allocs = .ok map ∧ StoresMap fuel map (k.mapOrNew allocs.toAllocs) := by
  obtain ⟨bmap, btarget⟩ := b
  obtain ⟨kmap, ktarget⟩ := k
  obtain ⟨-, hmap⟩ := h
  cases hmap with
  | none =>
    unfold KernelBuckets.mapOrNew KernelMem.mapOrNew
    cases allocs.new with
    | false => exact ⟨none, rfl, .none⟩
    | true =>
      obtain ⟨map, hnew, h⟩ := Hashmap.Stores.new hfuel
      exact ⟨some map, hnew, .some h⟩
  | some h => exact ⟨_, rfl, .some h⟩

/-- One message. -/
theorem KernelBuckets.Stores.receive (h : b.Stores fuel k) (hfuel : 2 ^ 17 ≤ fuel)
    (hsmall : (k.map.getD {}).count + 1 < 2 ^ 16) (allocs : BucketAllocs) (u : MyUser) :
    (∃ e, k.receive allocs.toAllocs u = .error e ∧ b.receive fuel allocs u = .error e) ∨
      ∃ reply k' b', k.receive allocs.toAllocs u = .ok (reply, k') ∧
        b.receive fuel allocs u = .ok (reply, b') ∧ b'.Stores fuel k' := by
  obtain ⟨map, hmap, hstores⟩ := h.mapOrNew (by omega) allocs
  have hcount : ∀ m, k.mapOrNew allocs.toAllocs = some m → m.count + 1 < 2 ^ 16 := by
    intro m hm
    unfold KernelMem.mapOrNew at hm
    cases hk : k.map with
    | none =>
      rw [hk] at hm
      simp only [Option.ite_none_right_eq_some] at hm
      rw [← Option.some.inj hm.2]
      decide
    | some m' =>
      rw [hk] at hm hsmall
      exact Option.some.inj hm ▸ hsmall
  unfold KernelBuckets.receive KernelMem.receive
  rw [hmap, Exec.ok_bind]
  generalize k.mapOrNew allocs.toAllocs = m at *
  cases u.type with
  | myuser =>
    cases hstores with
    | none => exact .inl ⟨_, rfl, rfl⟩
    | @some map m hstores =>
      obtain ⟨r, map', hset, h'⟩ := hstores.set hfuel (hcount m rfl) allocs.grow
        { pathname := u.pathname.take KERNEL_MAX_PATH, permission := u.permission }
      refine .inr ⟨allocs.reply, _, { b with map := some map' }, rfl, ?_, h.target, .some h'⟩
      simp only [KernelBuckets.deref, Option.elim_some, Exec.ok_bind, hset]
  | cmd =>
    simp only
    split_ifs with hclear htar
    · cases hstores with
      | none => exact .inl ⟨_, rfl, rfl⟩
      | some hstores =>
        obtain ⟨map', hmap', h'⟩ := hstores.clear allocs.clear
        refine .inr ⟨allocs.reply, _, { b with map := some map' }, rfl, ?_, h.target, .some h'⟩
        simp only [KernelBuckets.deref, Option.elim_some, Exec.ok_bind, hmap']
    · exact .inr ⟨_, _, _, rfl, rfl, rfl, hstores⟩
    · exact .inr ⟨_, _, _, rfl, rfl, h.target, hstores⟩
  | str => exact .inr ⟨_, _, _, rfl, rfl, h.target, hstores⟩

/-- The check looks the path up in the buckets. -/
theorem KernelBuckets.Stores.checkPermission (h : b.Stores fuel k) (pathname : CStr) (oflag : CInt) :
    b.checkPermission fuel pathname oflag = k.toKernel.checkPermission pathname oflag := by
  rw [KernelBuckets.checkPermission, Kernel.checkPermission]
  cases pathname.store KERNEL_MAX_PATH with
  | error e => rfl
  | ok buf =>
    obtain ⟨bmap, btarget⟩ := b
    obtain ⟨kmap, ktarget⟩ := k
    obtain ⟨-, hmap⟩ := h
    cases hmap with
    | none => rfl
    | some h =>
      obtain ⟨user, hget, hlookup⟩ :=
        h.get { pathname := buf.take (KERNEL_MAX_PATH - 1), permission := 0 }
      simp only [KernelBuckets.deref, KernelMem.toKernel, Kernel.hashmapGet, Option.elim_some,
        Option.map_some, Exec.ok_bind, hget, ← hlookup]
      cases user <;> rfl

/-- The hooks use the globals for their check, and for the target. -/
theorem KernelBuckets.Stores.hook (h : b.Stores fuel k) (comm : CStr) (call : KernelCall) :
    b.hook fuel comm call = k.toKernel.hook comm call := by
  have hmsg : ∀ msg call, b.checkMsg fuel msg call = k.toKernel.checkMsg msg call := by
    intro msg call
    simp only [checkMsg, Kernel.checkMsg, h.checkPermission]
  have htarget : b.target = k.toKernel.target := h.target
  cases call with
  | «open» pathname flags mode =>
    simp only [KernelBuckets.hook, myOpen, Kernel.hook, Kernel.myOpen, hmsg, htarget]
  | openat dfd filename flags mode =>
    simp only [KernelBuckets.hook, myOpenat, Kernel.hook, Kernel.myOpenat, hmsg, htarget]

/-- What every run of messages keeps. -/
theorem KernelBuckets.Stores.run {messages : List (BucketAllocs × MyUser)} (h : b.Stores fuel k)
    (hfuel : 2 ^ 17 ≤ fuel)
    (hsmall : Along KernelMem.handle (fun k _ => (k.map.getD {}).count + 1 < 2 ^ 16) k messages) :
    (∃ e, runFrom KernelMem.handle k messages = .error e ∧
      runFrom (KernelBuckets.handle fuel) b messages = .error e) ∨
    ∃ k' b', runFrom KernelMem.handle k messages = .ok k' ∧
      runFrom (KernelBuckets.handle fuel) b messages = .ok b' ∧ b'.Stores fuel k' := by
  induction messages generalizing b k with
  | nil => exact .inr ⟨k, b, rfl, rfl, h⟩
  | cons message messages ih =>
    rw [runFrom_cons, runFrom_cons]
    rcases h.receive hfuel hsmall.1 message.1 message.2 with
      ⟨e, hk, hb⟩ | ⟨reply, k', b', hk, hb, h'⟩
    · exact .inl ⟨e, by rw [KernelMem.handle, hk]; rfl, by rw [KernelBuckets.handle, hb]; rfl⟩
    · have hk' : k.handle message = .ok k' := by
        rw [KernelMem.handle, hk]
        rfl
      have hb' : b.handle fuel message = .ok b' := by
        rw [KernelBuckets.handle, hb]
        rfl
      rw [hk', hb']
      exact ih h' (hsmall.2 k' hk')

/-- **The kernel module decides by its buckets as by its rules**, in every run of messages from its
loading, whichever allocations fail: the run ends in the same way, and then each hook does the
same. -/
theorem receive_buckets (messages : List (BucketAllocs × MyUser)) (hfuel : 2 ^ 17 ≤ fuel)
    (hsmall : Along KernelMem.handle (fun k _ => (k.map.getD {}).count + 1 < 2 ^ 16) KernelMem.init
      messages) :
    (∃ e, runFrom KernelMem.handle KernelMem.init messages = .error e ∧
      runFrom (KernelBuckets.handle fuel) KernelBuckets.init messages = .error e) ∨
    ∃ k b, runFrom KernelMem.handle KernelMem.init messages = .ok k ∧
      runFrom (KernelBuckets.handle fuel) KernelBuckets.init messages = .ok b ∧
      b.target = k.target ∧ ∀ comm call, b.hook fuel comm call = k.toKernel.hook comm call := by
  have hinit : KernelBuckets.init.Stores fuel KernelMem.init := ⟨rfl, .none⟩
  rcases hinit.run hfuel hsmall with herr | ⟨k, b, hk, hb, h⟩
  · exact .inl herr
  · exact .inr ⟨k, b, hk, hb, h.target, h.hook⟩

/-- A rule, stored when the map cannot grow. -/
theorem receive_buckets_rule :
    ∃ b, runFrom (KernelBuckets.handle (2 ^ 17)) KernelBuckets.init
        [(⟨⟨true, false, true⟩, false⟩, (Message.rule (.ofChars ['/', 'f']) O_READ).record)] = .ok b ∧
      b.hook (2 ^ 17) Kernel.init.target (.open (.ofChars ['/', 'f']) O_WRONLY 0) = .ok .refused := by
  rcases receive_buckets
      [(⟨⟨true, false, true⟩, false⟩, (Message.rule (.ofChars ['/', 'f']) O_READ).record)]
      (Nat.le_refl (2 ^ 17)) ⟨by decide, fun _ _ => trivial⟩ with ⟨e, he, -⟩ | ⟨k, b, hk, hb, -, hagree⟩
  · cases he
  · refine ⟨b, hb, (hagree _ _).trans ?_⟩
    obtain rfl := Except.ok.inj hk
    decide

end Kernel

end Cnpv
