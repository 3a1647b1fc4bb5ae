import Cnpv.Config.Loader
import Cnpv.Policy.Document

/-!
# From the text of a policy to the calls that are refused

The agent reads the text of a policy into its hash table, and `nluser` sends it to the kernel module,
which has its own. Both then decide by the policy: the agent in each check, where its cache can bring
the flag word of an earlier call on the same name (`agent_enforces`), the kernel module in each hook
of the target, with any messages before those of `nluser -r` and `nluser -t` (`kernel_enforces`).

No allocation fails, the text and the number of rules are within the limits of `json.c` and of `dib`,
the paths fit the buffers (`Rule.Fits`), and no section of another program is taken for one of the
program (`Policy.Apart`).
-/

namespace Cnpv

open CLib

/-! ## The programs, from the contents of the file -/

/-- `config_init`, when it has read the file. -/
def configInitFile (D : Doubles) (fuel : Nat) (alloc : Nat → Bool)
    (opendir : CStr → Option (List Dirent)) (depth : Nat) (progName : CStr) (contents : List UInt8) :
    Exec (Hashmap User) := do
  let value ← jsonParse D contents
  value.elim (.error (.exit 1)) (configInitBuckets fuel alloc opendir depth progName)

/-- `main` of `nluser`: the messages that it sends, and how it ends. -/
def NlMain.mainFile (D : Doubles) (opendir : CStr → Option (List Dirent)) (depth : Nat)
    (options : List NlOption) (files : CStr → Option (List UInt8)) : Exec (List MyUser × NlExit) := do
  let opts ← ({} : NlMain).getopts options
  let g := opts.2
  if opts.1 then
    (files g.configPath).elim (.ok (g.sent, .exited (-1))) fun contents => do
      let value ← jsonParse D contents
      value.elim (.ok (g.sent, .exited 1)) fun value => do
        let n ← Nluser.jsonProcess opendir depth g.target g.toNluser value
        .ok (n.sent, .loaded g.target value)
  else .ok (g.sent, .returned)

variable {D : Doubles} {P : Policy} {text : List UInt8} {opendir : CStr → Option (List Dirent)}
  {depth fuel : Nat}

theorem Policy.parse (htext : Json.Written D P.json text) (hlen : 24 * text.length < 2 ^ 31) :
    jsonParse D text = .ok (some P.json) := by
  rw [jsonParse, Json.passes_eq D _ (Json.length_skipBom hlen), Json.stackParse_iff]
  exact htext.document hlen

/-! ## A policy: a file that one program may read, and another one may not open -/

def readRule : Rule where
  path := ⟨['/', 'f'], by simp⟩
  authority := ⟨['r'], by simp⟩
  ne := by decide

def forbiddenRule : Rule where
  path := ⟨['/', 'f'], by simp⟩
  authority := ⟨['f'], by simp⟩
  ne := by decide

def readPolicy : Policy := [⟨⟨['a'], by simp⟩, [readRule]⟩, ⟨⟨['b'], by simp⟩, [forbiddenRule]⟩]

def readText : List UInt8 :=
  Json.text ['\x7b', '\"', 'a', '\"', ':', '[', '\x7b', '\"', 'P', 'A', 'T', 'H', '\"', ':', '\"',
    '/', 'f', '\"', ',', '\"', 'A', 'U', 'T', 'H', 'O', 'R', 'I', 'T', 'Y', '\"', ':', '\"', 'r',
    '\"', '\x7d', ']', ',', '\"', 'b', '\"', ':', '[', '\x7b', '\"', 'P', 'A', 'T', 'H', '\"', ':',
    '\"', '/', 'f', '\"', ',', '\"', 'A', 'U', 'T', 'H', 'O', 'R', 'I', 'T', 'Y', '\"', ':', '\"',
    'f', '\"', '\x7d', ']', '\x7d']

theorem written_readText : Json.Written noDoubles readPolicy.json readText := by
  have hnone : Json.Spaces [] := fun b hb => by cases hb
  have hPATH : Json.Spelled ['P', 'A', 'T', 'H'] _ := .plain (by simp)
  have hAUTHORITY : Json.Spelled ['A', 'U', 'T', 'H', 'O', 'R', 'I', 'T', 'Y'] _ :=
    .plain (by simp)
  have hpath : Json.Spelled ['/', 'f'] _ := .plain (by simp)
  have hread : Json.Spelled ['r'] _ := .plain (by simp)
  have hforbidden : Json.Spelled ['f'] _ := .plain (by simp)
  have ha : Json.Spelled ['a'] _ := .plain (by simp)
  have hb : Json.Spelled ['b'] _ := .plain (by simp)
  have hreadRule : Json.Writes noDoubles (.value readRule.json) _ := .object hnone
    (.member hPATH hnone hnone (.string hpath) hnone hnone
      (.lastMember hAUTHORITY hnone hnone (.string hread) hnone))
  have hforbiddenRule : Json.Writes noDoubles (.value forbiddenRule.json) _ := .object hnone
    (.member hPATH hnone hnone (.string hpath) hnone hnone
      (.lastMember hAUTHORITY hnone hnone (.string hforbidden) hnone))
  exact .mk (.inl rfl) hnone (.object hnone
    (.member ha hnone hnone (.array hnone (.lastElement hreadRule hnone)) hnone hnone
      (.lastMember hb hnone hnone (.array hnone (.lastElement hforbiddenRule hnone)) hnone))) hnone

/-! ## The agent -/

section Agent

variable {alloc : Nat → Bool} {program : CStr}

/-- One more record is at most one more rule. -/
theorem HashMap.count_hashmapSet_le (grow : Bool) (m : HashMap) (u : User) :
    (m.hashmapSet grow u).count ≤ m.count + 1 := by
  rw [count, count, items_hashmapSet]
  split_ifs
  · exact Nat.le_succ _
  · exact Dict.card_insert_le _ _ _

theorem Loading.count_foldl_le (alloc : Nat → Bool) (us : List User) (s : Loading) :
    (us.foldl (hashmapSet alloc) s).map.count ≤ s.map.count + us.length := by
  induction us generalizing s with
  | nil => exact Nat.le_refl _
  | cons u us ih =>
    have hset : (s.hashmapSet alloc u).map.count ≤ s.map.count + 1 :=
      HashMap.count_hashmapSet_le (alloc s.sets) s.map u
    have hrest := ih (s.hashmapSet alloc u)
    rw [List.foldl_cons, List.length_cons]
    omega

/-- The finite map that the agent has for a policy. -/
theorem Policy.configInit (hapart : P.Apart program) (hP : ∀ r ∈ P.rules program, r.Fits opendir MAX_PATH)
    (halloc : ∀ n, alloc n = true) :
    ∃ m, Cnpv.configInit alloc opendir (depth + 1) program P.json = .ok m ∧
      m.count ≤ P.size opendir program ∧
      ∀ q, m.items.lookup q =
        ((P.rules program).reverse.find? fun r => q ∈ r.covers opendir).map Rule.permission := by
  have hloading : Loading.processPair alloc opendir (depth + 1) =
      processPairWith (Loading.hashmapSet alloc) opendir (depth + 1) := by
    funext s v
    cases v <;> rfl
  have hconfig : Config.processPair opendir (depth + 1) =
      processPairWith Config.hashmapSet opendir (depth + 1) := by
    funext s v
    cases v <;> rfl
  have hm : Cnpv.configInit alloc opendir (depth + 1) program P.json =
      .ok ((P.users opendir program).foldl (Loading.hashmapSet alloc) {}).map := by
    rw [Cnpv.configInit, hloading, Policy.processRoot_users hapart hP]
    rfl
  refine ⟨_, hm, ?_, fun q => ?_⟩
  · have hcount := Loading.count_foldl_le alloc (P.users opendir program) {}
    rw [Policy.length_users] at hcount
    exact hcount.trans (Nat.le_of_eq (Nat.zero_add _))
  · have hitems := @configInit_items alloc opendir (depth + 1) halloc program P.json
    rw [hm, Config.processRoot, hconfig, Policy.processRoot_users hapart hP] at hitems
    rw [Except.ok.inj hitems]
    exact Policy.lookup_users q

/-- **The agent enforces the policy in its file**, if no allocation fails: it loads it into the
buckets, and a check without `USE_CACHE` has the verdict of the policy. With `USE_CACHE`, every call of
a run returns, with the verdict of the policy on the flag word of this call or of an earlier one on
the same name. -/
theorem agent_enforces (htext : Json.Written D P.json text) (hlen : 24 * text.length < 2 ^ 31)
    (hapart : P.Apart program) (hP : ∀ r ∈ P.rules program, r.Fits opendir MAX_PATH)
    (hsize : P.size opendir program + 1 < 2 ^ 16) (halloc : ∀ n, alloc n = true)
    (hfuel : 2 ^ 17 ≤ fuel) :
    ∃ map, configInitFile D fuel alloc opendir (depth + 1) program text = .ok map ∧
      (∀ cwd pathname name oflag, checkName cwd pathname = .ok name →
        uncachedBuckets fuel map cwd pathname oflag = .ok (P.verdict opendir program name oflag)) ∧
      ∀ cwd seed calls, (∀ call ∈ calls, NameFits cwd call.1) →
        (checksBuckets fuel map cwd seed calls).map Prod.fst = calls ∧
        ∀ pre r post, checksBuckets fuel map cwd seed calls = pre ++ r :: post →
          ∃ name, ∃ call ∈ (pre ++ [r]).map Prod.fst, checkName cwd r.1.1 = .ok name ∧
            checkName cwd call.1 = .ok name ∧ r.2 = P.verdict opendir program name call.2 := by
  obtain ⟨m, hm, hcount, hlookup⟩ := @Policy.configInit P opendir depth alloc program hapart hP halloc
  obtain ⟨map, hmap, h⟩ := configInitBuckets_stores hfuel hm (by omega)
  have hverdict : ∀ {cwd pathname name}, checkName cwd pathname = .ok name → ∀ oflag,
      verdict m.items name oflag = P.verdict opendir program name oflag := by
    intro cwd pathname name hname oflag
    rw [verdict_of_checkName hname, hlookup, Policy.allows_lookup]
  have hfuel' : 65 < fuel := Nat.lt_of_lt_of_le (by decide) hfuel
  refine ⟨map, ?_, fun cwd pathname name oflag hname => ?_, fun cwd seed calls hfits => ⟨?_, ?_⟩⟩
  · rw [configInitFile, Policy.parse htext hlen]
    exact hmap
  · rw [h.uncached, uncached_eq hname, hverdict hname]
  · rw [h.checks, List.map_map]
    exact check_complete hfuel' hfits
  · intro pre r post hr
    rw [h.checks] at hr
    obtain ⟨name, call, hcall, hname, hname', hret⟩ := exists_call_of_check hfuel' hfits hr
    exact ⟨name, call, hcall, hname, hname', hret.trans (hverdict hname' call.2)⟩

/-- The file is not written, now or later. -/
theorem agent_enforces_read :
    ∃ map, configInitFile noDoubles (2 ^ 17) (fun _ => true) (fun _ => none) 1 (.ofChars ['a']) readText =
        .ok map ∧
      uncachedBuckets (2 ^ 17) map slash (.ofChars ['/', 'f']) O_WRONLY = .ok false ∧
      checksBuckets (2 ^ 17) map slash 0
        [(.ofChars ['/', 'f'], O_WRONLY), (.ofChars ['/', 'f'], O_WRONLY)] =
        [((.ofChars ['/', 'f'], O_WRONLY), false), ((.ofChars ['/', 'f'], O_WRONLY), false)] := by
  have hapart : readPolicy.Apart (.ofChars ['a']) := by decide
  have hP : ∀ r ∈ readPolicy.rules (.ofChars ['a']), r.Fits (fun _ => none) MAX_PATH := by
    intro r hr
    have hr : r ∈ [readRule] := hr
    obtain rfl := List.mem_singleton.mp hr
    exact ⟨by decide, by decide, by decide⟩
  obtain ⟨map, hmap, huncached, hcached⟩ := @agent_enforces noDoubles readPolicy readText (fun _ => none) 0
    (2 ^ 17) (fun _ => true) (.ofChars ['a']) written_readText (by decide) hapart hP (by decide)
    (fun _ => rfl) (Nat.le_refl _)
  refine ⟨map, hmap, huncached slash (.ofChars ['/', 'f']) (.ofChars ['/', 'f']) O_WRONLY (by decide), ?_⟩
  obtain ⟨hcalls, hverdicts⟩ := hcached slash 0
    [(.ofChars ['/', 'f'], O_WRONLY), (.ofChars ['/', 'f'], O_WRONLY)] (by decide)
  generalize checksBuckets _ _ _ _ _ = replies at *
  obtain ⟨r₁, rest, rfl, h₁, hrest⟩ := List.map_eq_cons_iff.mp hcalls
  obtain ⟨r₂, rest, rfl, h₂, hnil⟩ := List.map_eq_cons_iff.mp hrest
  obtain rfl := List.map_eq_nil_iff.mp hnil
  have hret : ∀ pre r post, [r₁, r₂] = pre ++ r :: post → r.2 = false := by
    intro pre r post hr
    obtain ⟨name, call, hcall, -, hname, hret⟩ := hverdicts pre r post hr
    have hmem : call ∈ [r₁, r₂].map Prod.fst := by
      rw [hr, List.append_cons, List.map_append]
      exact List.mem_append_left _ hcall
    obtain rfl : call = (.ofChars ['/', 'f'], O_WRONLY) := by
      rw [hcalls] at hmem
      simpa using hmem
    have hf : checkName slash (.ofChars ['/', 'f']) = .ok (.ofChars ['/', 'f']) := by decide
    obtain rfl := Except.ok.inj (hf.symm.trans hname)
    rw [hret]
    decide
  have hret₁ := hret [] r₁ [r₂] rfl
  have hret₂ := hret [r₁] r₂ [] rfl
  simp [Prod.ext_iff, h₁, h₂, hret₁, hret₂]

end Agent

/-! ## The kernel module -/

section Kernel

/-- The kernel module has a map after a message. -/
theorem helloNlRecvMsg_map (k : Kernel) (u : MyUser) : ∃ map, (helloNlRecvMsg k u).map = some map := by
  unfold helloNlRecvMsg
  cases u.type with
  | myuser | str => exact ⟨_, rfl⟩
  | cmd =>
    simp only
    split_ifs <;> exact ⟨_, rfl⟩

theorem Kernel.map_foldl (us : List MyUser) {k : Kernel} (h : ∃ map, k.map = some map) :
    ∃ map, (us.foldl helloNlRecvMsg k).map = some map := by
  induction us generalizing k with
  | nil => exact h
  | cons u us ih => exact ih (helloNlRecvMsg_map k u)

/-- A message brings at most one more rule. -/
theorem KernelMem.count_handle {k k' : KernelMem} {message : BucketAllocs × MyUser}
    (h : k.handle message = .ok k') : (k'.map.getD {}).count ≤ (k.map.getD {}).count + 1 := by
  obtain ⟨⟨reply, k''⟩, hr, rfl⟩ := Exec.map_ok.mp h
  have hnew : ((k.mapOrNew message.1.toAllocs).getD {}).count ≤ (k.map.getD {}).count := by
    unfold mapOrNew
    cases k.map with
    | none => split_ifs <;> exact Nat.le_refl _
    | some m => exact Nat.le_refl _
  unfold receive at hr
  generalize k.mapOrNew message.1.toAllocs = m at *
  cases htype : message.2.type with
  | myuser =>
    simp only [htype] at hr
    obtain ⟨m', hm, hr⟩ := Exec.bind_ok.mp hr
    cases hr
    cases m with
    | none => cases hm
    | some m =>
      cases hm
      exact (HashMap.count_hashmapSet_le _ _ _).trans (Nat.succ_le_succ hnew)
  | str =>
    simp only [htype] at hr
    cases hr
    exact hnew.trans (Nat.le_succ _)
  | cmd =>
    simp only [htype] at hr
    split_ifs at hr
    · obtain ⟨m, hm, hr⟩ := Exec.bind_ok.mp hr
      cases hr
      exact Nat.zero_le _
    all_goals
      cases hr
      exact hnew.trans (Nat.le_succ _)

theorem KernelMem.count_clear {k k' : KernelMem} {allocs : BucketAllocs} {permission : CInt}
    (h : k.handle (allocs, (Message.clear permission).record) = .ok k') : (k'.map.getD {}).count = 0 := by
  obtain ⟨⟨reply, k''⟩, hr, rfl⟩ := Exec.map_ok.mp h
  simp only [receive, Message.record, if_true] at hr
  obtain ⟨m, -, hr⟩ := Exec.bind_ok.mp hr
  cases hr
  rfl

/-- Few messages bring few rules. -/
theorem KernelMem.along_handle {k : KernelMem} {messages : List (BucketAllocs × MyUser)}
    (h : (k.map.getD {}).count + messages.length < 2 ^ 16) :
    Along KernelMem.handle (fun k _ => (k.map.getD {}).count + 1 < 2 ^ 16) k messages := by
  induction messages generalizing k with
  | nil => exact trivial
  | cons message messages ih =>
    rw [List.length_cons] at h
    refine ⟨by omega, fun k' hk' => ih ?_⟩
    have := KernelMem.count_handle hk'
    omega

/-- The allocations of a message that can lose a rule do not fail. -/
def BucketAllocs.Succeed (allocs : BucketAllocs) : Prop := allocs.new = true ∧ allocs.grow = true

/-- The kernel module then receives the messages. -/
theorem KernelMem.runFrom_handle {messages : List (BucketAllocs × MyUser)}
    (h : ∀ m ∈ messages, m.1.Succeed) (k : KernelMem) :
    ∃ k', runFrom KernelMem.handle k messages = .ok k' ∧
      k'.toKernel = (messages.map Prod.snd).foldl helloNlRecvMsg k.toKernel := by
  induction messages generalizing k with
  | nil => exact ⟨k, rfl, rfl⟩
  | cons message messages ih =>
    obtain ⟨hnew, hgrow⟩ := h message (by simp)
    obtain ⟨k₁, h₁, hk₁⟩ := @receive_toKernel message.1.toAllocs k message.2 hnew hgrow
    obtain ⟨k', h', hk'⟩ := ih (fun m hm => h m (by simp [hm])) k₁
    refine ⟨k', ?_, ?_⟩
    · rw [runFrom_cons, KernelMem.handle, h₁]
      exact h'
    · rw [hk', hk₁]
      rfl

/-- So does the module with its buckets, and then its rules are the fold of the messages. -/
theorem KernelBuckets.Stores.run_succeed {k : KernelMem} {b : KernelBuckets}
    {messages : List (BucketAllocs × MyUser)} (h : b.Stores fuel k) (hfuel : 2 ^ 17 ≤ fuel)
    (hsmall : Along KernelMem.handle (fun k _ => (k.map.getD {}).count + 1 < 2 ^ 16) k messages)
    (hsucceed : ∀ m ∈ messages, m.1.Succeed) :
    ∃ k' b', runFrom (KernelBuckets.handle fuel) b messages = .ok b' ∧ b'.Stores fuel k' ∧
      k'.toKernel = (messages.map Prod.snd).foldl helloNlRecvMsg k.toKernel := by
  obtain ⟨k', hk', htoKernel⟩ := KernelMem.runFrom_handle hsucceed k
  rcases h.run hfuel hsmall with ⟨e, herr, -⟩ | ⟨k₁, b', hk₁, hb', h'⟩
  · rw [hk'] at herr
    cases herr
  · obtain rfl := Except.ok.inj (hk'.symm.trans hk₁)
    exact ⟨k', b', hb', h', htoKernel⟩

/-- A message that clears the map, and few messages after it. -/
theorem KernelMem.along_clear {k : KernelMem} {allocs : BucketAllocs} {permission : CInt}
    {messages : List (BucketAllocs × MyUser)} (hk : (k.map.getD {}).count + 1 < 2 ^ 16)
    (hlen : messages.length < 2 ^ 16) :
    Along KernelMem.handle (fun k _ => (k.map.getD {}).count + 1 < 2 ^ 16) k
      ((allocs, (Message.clear permission).record) :: messages) := by
  refine ⟨hk, fun k' hk' => KernelMem.along_handle ?_⟩
  rw [KernelMem.count_clear hk']
  omega

variable {options : List NlOption} {g : NlMain} {files : CStr → Option (List UInt8)}

/-- What `nluser` sends for a policy. -/
theorem NlMain.mainFile_policy (htext : Json.Written D P.json text) (hlen : 24 * text.length < 2 ^ 31)
    (hopts : ({} : NlMain).getopts options = .ok (true, g)) (hfile : files g.configPath = some text)
    (hapart : P.Apart g.target) (hP : ∀ r ∈ P.rules g.target, r.Fits opendir KERNEL_MAX_PATH) :
    NlMain.mainFile D opendir (depth + 1) options files =
      .ok ((options.filterMap NlOption.name?).map (fun name => (Message.target name 0).record) ++
        (P.users opendir g.target).map (fun u => { u with type := .myuser }), .loaded g.target P.json) := by
  obtain ⟨-, -, hsent⟩ := NlMain.getopts_eq hopts
  obtain ⟨n, hn, hn'⟩ := Policy.jsonProcess_users depth hapart hP g.toNluser
  rw [mainFile, hopts, Exec.ok_bind, if_pos rfl, hfile, Option.elim_some, Policy.parse htext hlen,
    Exec.ok_bind, Option.elim_some, hn, Exec.ok_bind, hn', Nluser.sends, hsent]
  rfl

/-- The kernel module after `nluser -r` and the messages for a policy. -/
theorem Kernel.receives_policy (hopts : ({} : NlMain).getopts options = .ok (true, g))
    (hnames : options.filterMap NlOption.name? ≠ [])
    (hP : ∀ r ∈ P.rules g.target, r.Fits opendir KERNEL_MAX_PATH) (k : Kernel) (permission : CInt) :
    ∃ map, ((Message.clear permission).record ::
        ((options.filterMap NlOption.name?).map (fun name => (Message.target name 0).record) ++
          (P.users opendir g.target).map fun u => { u with type := .myuser })).foldl helloNlRecvMsg k =
        ⟨some map, g.target⟩ ∧
      ∀ q, map.lookup q =
        ((P.rules g.target).reverse.find? fun r => q ∈ r.covers opendir).map Rule.permission := by
  have hfits : ∀ u ∈ P.users opendir g.target, u.pathname.strlen < KERNEL_MAX_PATH := by
    intro u hu
    obtain ⟨r, hr, hu⟩ := List.mem_flatMap.mp hu
    obtain ⟨q, hq, rfl⟩ := List.mem_map.mp hu
    exact (hP r hr).covers q hq
  obtain ⟨hopt, -, -⟩ := NlMain.getopts_eq hopts
  generalize options.filterMap NlOption.name? = names at hnames hopt ⊢
  rw [List.foldl_cons, helloNlRecvMsg_clear, List.foldl_append]
  obtain ⟨htarget, hempty⟩ := foldl_targets names 0 { k with map := some ∅ }
  have hsome := Kernel.map_foldl (names.map fun name => (Message.target name 0).record)
    (show ∃ map, ({ k with map := some ∅ } : Kernel).map = some map from ⟨_, rfl⟩)
  generalize (names.map fun name => (Message.target name 0).record).foldl helloNlRecvMsg
    { k with map := some ∅ } = k₁ at *
  obtain ⟨hkeep, hrules⟩ := foldl_rules hfits k₁
  obtain ⟨map, hmap⟩ := Kernel.map_foldl ((P.users opendir g.target).map fun u =>
    ({ u with type := .myuser } : MyUser)) hsome
  generalize ((P.users opendir g.target).map fun u =>
    ({ u with type := .myuser } : MyUser)).foldl helloNlRecvMsg k₁ = k' at *
  refine ⟨map, ?_, fun q => ?_⟩
  · obtain ⟨map', target⟩ := k'
    have hg : target = g.target :=
      (hkeep.trans htarget).trans ((targets_eq_iff names _ _).mpr (.inl hnames) |>.trans hopt.symm)
    rw [← hg, ← hmap]
  · rw [hmap, hempty] at hrules
    rw [show map = _ from hrules]
    exact Policy.lookup_users q

/-- A hook decides by the policy, if the map of the kernel module has its rules. -/
theorem Kernel.hook_permits {map : PolicyMap} {program : CStr} {call : KernelCall} {a : Access}
    (hmap : ∀ q, map.lookup q =
      ((P.rules program).reverse.find? fun r => q ∈ r.covers opendir).map Rule.permission)
    (hhooked : call.Hooked) (hshort : call.pathname.strlen < KERNEL_MAX_PATH)
    (ha : Access.asked call.flags = some a) :
    (⟨some map, program⟩ : Kernel).hook program call =
      .ok (if P.permits opendir program call.pathname a then .real call else .refused) := by
  have hcheck : (⟨some map, program⟩ : Kernel).checkPermission call.pathname call.flags =
      .ok (if P.permits opendir program call.pathname a then 1 else 0) := by
    rw [Kernel.checkPermission_eq rfl hshort, hmap, Policy.permits]
    cases (P.rules program).reverse.find? fun r => call.pathname ∈ r.covers opendir with
    | none => rfl
    | some r => exact congrArg Except.ok (Rule.kernel_allows ha)
  have hverdict := Kernel.hook_verdict hhooked (Nat.lt_trans hshort (by decide)) hcheck
  rw [show (⟨some map, program⟩ : Kernel).hook program call = _ from hverdict, hookReply]
  cases P.permits opendir program call.pathname a <;> rfl

/-- **The kernel module enforces the policy that `nluser` loads**, if no allocation fails, whatever
messages it had before: after `nluser -r`, and a run of `nluser` with a `-t`, a hook refuses the calls
that the policy does not permit the target, and no others. -/
theorem kernel_enforces (htext : Json.Written D P.json text) (hlen : 24 * text.length < 2 ^ 31)
    (hopts : ({} : NlMain).getopts options = .ok (true, g))
    (hnames : options.filterMap NlOption.name? ≠ []) (hfile : files g.configPath = some text)
    (hapart : P.Apart g.target) (hP : ∀ r ∈ P.rules g.target, r.Fits opendir KERNEL_MAX_PATH)
    (hsize : options.length + P.size opendir g.target + 1 < 2 ^ 16) (hfuel : 2 ^ 17 ≤ fuel)
    {earlier : List (BucketAllocs × MyUser)} {allocs : BucketAllocs} (permission : CInt)
    (hearlier : Along KernelMem.handle (fun k _ => (k.map.getD {}).count + 1 < 2 ^ 16) KernelMem.init
      (earlier ++ [(allocs, (Message.clear permission).record)]))
    (hclear : allocs.Succeed) {b : KernelBuckets}
    (hb : runFrom (KernelBuckets.handle fuel) KernelBuckets.init earlier = .ok b) :
    ∃ sent, NlMain.mainFile D opendir (depth + 1) options files = .ok (sent, .loaded g.target P.json) ∧
      ∀ messages : List (BucketAllocs × MyUser), messages.map Prod.snd = sent →
        (∀ m ∈ messages, m.1.Succeed) →
        ∃ b', runFrom (KernelBuckets.handle fuel) b
            ((allocs, (Message.clear permission).record) :: messages) = .ok b' ∧
          (∀ call a, call.Hooked → call.pathname.strlen < KERNEL_MAX_PATH →
            Access.asked call.flags = some a → b'.hook fuel g.target call =
              .ok (if P.permits opendir g.target call.pathname a then .real call else .refused)) ∧
          ∀ comm call, ¬ (comm = g.target ∧ call.Hooked) → b'.hook fuel comm call = .ok (.real call) := by
  refine ⟨_, NlMain.mainFile_policy htext hlen hopts hfile hapart hP, fun messages hmessages hsucceed => ?_⟩
  have hinit : KernelBuckets.init.Stores fuel KernelMem.init := ⟨rfl, .none⟩
  obtain ⟨hbefore, hlast⟩ := along_append.mp hearlier
  rcases hinit.run hfuel hbefore with ⟨e, -, herr⟩ | ⟨k, b₁, hk, hb₁, h⟩
  · rw [hb] at herr
    cases herr
  obtain rfl : b = b₁ := Except.ok.inj (hb.symm.trans hb₁)
  -- The messages of both runs of `nluser`
  have hall : ∀ m ∈ (allocs, (Message.clear permission).record) :: messages, m.1.Succeed :=
    List.forall_mem_cons.mpr ⟨hclear, hsucceed⟩
  have hlength : messages.length < 2 ^ 16 := by
    have hsent := congrArg List.length hmessages
    simp only [List.length_map, List.length_append, Policy.length_users] at hsent
    have := List.length_filterMap_le NlOption.name? options
    omega
  obtain ⟨k', b', hb', h', htoKernel⟩ :=
    h.run_succeed hfuel (KernelMem.along_clear (hlast k hk).1 hlength) hall
  obtain ⟨map, hmap, hlookup⟩ := Kernel.receives_policy hopts hnames hP k.toKernel permission
  rw [List.map_cons, hmessages, hmap] at htoKernel
  refine ⟨b', hb', fun call a hhooked hshort ha => ?_, fun comm call hcall => ?_⟩
  · rw [h'.hook, htoKernel]
    exact Kernel.hook_permits hlookup hhooked hshort ha
  · rw [h'.hook, htoKernel]
    exact Kernel.hook_of_not hcall

/-- A rule from before does not count. -/
theorem kernel_enforces_read :
    ∃ sent, NlMain.mainFile noDoubles (fun _ => none) 1 [.t (.ofChars ['a'])] (fun _ => some readText) =
        .ok (sent, .loaded (.ofChars ['a']) readPolicy.json) ∧
      ∃ b b', runFrom (KernelBuckets.handle (2 ^ 17)) KernelBuckets.init
          [(⟨⟨true, true, true⟩, true⟩, (Message.rule (.ofChars ['/', 'f']) O_WRITE).record)] = .ok b ∧
        runFrom (KernelBuckets.handle (2 ^ 17)) b ((⟨⟨true, true, true⟩, true⟩, (Message.clear 0).record) ::
          sent.map fun u => (⟨⟨true, true, true⟩, true⟩, u)) = .ok b' ∧
        b'.hook (2 ^ 17) (.ofChars ['a']) (.open (.ofChars ['/', 'f']) O_WRONLY 0) = .ok .refused := by
  have hP : ∀ r ∈ readPolicy.rules (.ofChars ['a']), r.Fits (fun _ => none) KERNEL_MAX_PATH := by
    intro r hr
    have hr : r ∈ [readRule] := hr
    obtain rfl := List.mem_singleton.mp hr
    exact ⟨by decide, by decide, by decide⟩
  have hopts : ∃ g, ({} : NlMain).getopts [.t (.ofChars ['a'])] = .ok (true, g) ∧
      g.target = .ofChars ['a'] := ⟨_, rfl, rfl⟩
  obtain ⟨g, hopts, htarget⟩ := hopts
  have hsmall : Along KernelMem.handle (fun k _ => (k.map.getD {}).count + 1 < 2 ^ 16) KernelMem.init
      ([(⟨⟨true, true, true⟩, true⟩, (Message.rule (.ofChars ['/', 'f']) O_WRITE).record)] ++
        [(⟨⟨true, true, true⟩, true⟩, (Message.clear 0).record)]) := KernelMem.along_handle (by decide)
  have hinit : KernelBuckets.init.Stores (2 ^ 17) KernelMem.init := ⟨rfl, .none⟩
  rcases hinit.run (Nat.le_refl _) (along_append.mp hsmall).1 with ⟨e, he, -⟩ | ⟨k, b, -, hb, -⟩
  · cases he
  obtain ⟨sent, hmain, hall⟩ := @kernel_enforces noDoubles readPolicy readText (fun _ => none) 0 (2 ^ 17)
    [.t (.ofChars ['a'])] g (fun _ => some readText) written_readText (by decide) hopts (by decide) rfl
    (by rw [htarget]; decide) (by rwa [htarget]) (by rw [htarget]; decide) (Nat.le_refl _) _ _ 0 hsmall
    ⟨rfl, rfl⟩ b hb
  obtain ⟨b', hb', hhook, -⟩ := hall (sent.map fun u => (⟨⟨true, true, true⟩, true⟩, u))
    (by rw [List.map_map]; exact List.map_id sent) fun m hm => by
      obtain ⟨u, -, rfl⟩ := List.mem_map.mp hm
      exact ⟨rfl, rfl⟩
  rw [htarget] at hmain hhook
  exact ⟨sent, hmain, b, b', hb, hb', hhook (.open (.ofChars ['/', 'f']) O_WRONLY 0) .write trivial
    (by decide) (by decide)⟩

end Kernel

end Cnpv
