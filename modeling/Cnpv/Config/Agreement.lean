import Cnpv.Config.Reference
import Cnpv.Kernel.Messages

/-!
# When the two loaders agree

The agent starts every entry with the permission 0; `nluser` starts it with the permission of the
entry before, because it clears only the pathname of its global record. So an entry without an
`AUTHORITY` gets the permission of the nearest entry before it that has one, and the two maps are
equal if and only if no such permission decides for a path (`loaders_agree_iff`).
-/

namespace Cnpv

open CLib

variable {opendir : CStr → Option (List Dirent)} {fuel bound : Nat} {e : Entry} {es : List Entry}

/-! ## What `nluser` sends -/

/-- The records that `nluser` sends, when its global record has the permission `p`. -/
def carriedUsers (p : CInt) : List Entry → List User
  | [] => []
  | e :: es => userOf p e :: carriedUsers (userOf p e).permission es

/-- The permission that the entries `es` leave in the global record: that of the last `AUTHORITY`. -/
def carriedPermission (p : CInt) (es : List Entry) : CInt :=
  ((es.filterMap (lastMember AUTHORITY)).getLast?.map getModeValue).getD p

theorem carriedPermission_cons (p : CInt) (e : Entry) (es : List Entry) :
    carriedPermission p (e :: es) = carriedPermission (userOf p e).permission es := by
  unfold carriedPermission userOf
  rw [List.filterMap_cons]
  cases hA : lastMember AUTHORITY e with
  | none => rfl
  | some A =>
    rw [List.getLast?_cons]
    cases (es.filterMap (lastMember AUTHORITY)).getLast? <;> rfl

theorem carriedUsers_append (p : CInt) (pre es : List Entry) :
    carriedUsers p (pre ++ es) =
      carriedUsers p pre ++ carriedUsers (carriedPermission p pre) es := by
  induction pre generalizing p with
  | nil => rfl
  | cons e pre ih => rw [List.cons_append, carriedUsers, ih, carriedPermission_cons]; rfl

theorem pathname_carriedUsers (p : CInt) (es : List Entry) :
    (carriedUsers p es).map User.pathname = es.map fun e => (lastMember PATH e).getD default := by
  induction es generalizing p with
  | nil => rfl
  | cons e es ih => rw [carriedUsers, List.map_cons, List.map_cons, ih]; rfl

namespace Nluser

/-- The globals of `nluser` after an entry for a file. -/
def record (n : Nluser) (e : Entry) : Nluser :=
  let user : MyUser := { userOf n.user.permission e with type := .myuser }
  { n with user }.mysendmsg user

/-- `process_pair` of `nluser` on an entry for a file. -/
theorem processPair_entry (h : EntryOk bound e) (hb : bound ≤ KERNEL_MAX_PATH) (n : Nluser) :
    processPair opendir fuel n (.object e) = .ok (n.record e) := by
  obtain ⟨hread, b, hlast, hb⟩ := h.readMembers hb n.user.permission
  simp only [processPair, hread, Exec.ok_bind, hlast]
  rw [if_neg hb]
  rfl

theorem sent_foldl_record (es : List Entry) (n : Nluser) :
    (es.foldl record n).sent = n.sent ++
      (carriedUsers n.user.permission es).map fun u => { u with type := .myuser } := by
  induction es generalizing n with
  | nil => simp [carriedUsers]
  | cons e es ih => rw [List.foldl_cons, ih, carriedUsers]; simp [record, mysendmsg]

end Nluser

/-- The kernel module stores the rules that it receives. -/
theorem foldl_helloNlRecvMsg {users : List User} (h : ∀ u ∈ users, u.pathname.strlen < KERNEL_MAX_PATH)
    (map : PolicyMap) (target : CStr) :
    (users.map fun u => ({ u with type := .myuser } : MyUser)).foldl helloNlRecvMsg
      { map := some map, target } = { map := some (users.foldl Config.hashmapSet map), target } := by
  induction users generalizing map with
  | nil => rfl
  | cons u users ih =>
    have hmsg : helloNlRecvMsg { map := some map, target } { u with type := .myuser } =
        { map := some (Config.hashmapSet map u), target } := helloNlRecvMsg_rule (h u (by simp))
    rw [List.map_cons, List.foldl_cons, List.foldl_cons, hmsg]
    exact ih (fun u hu => h u (by simp [hu])) _

/-! ## The two maps -/

/-- An entry that decides for its path, without an `AUTHORITY`, comes after no `AUTHORITY`, or the
nearest one before it has none of the letters. -/
def NoLeak (es : List Entry) : Prop :=
  ∀ pre e post, es = pre ++ e :: post →
    (∀ e' ∈ post, lastMember PATH e' ≠ lastMember PATH e) → lastMember AUTHORITY e = none →
    ∀ A, (pre.filterMap (lastMember AUTHORITY)).getLast? = some A → getModeValue A = 0

/-- The splits of a list are given by the places of its elements. -/
theorem forall_split_iff {α : Type} {P : List α → α → List α → Prop} {l : List α} :
    (∀ pre e post, l = pre ++ e :: post → P pre e post) ↔
      ∀ i < l.length, ∀ e ∈ l[i]?, P (l.take i) e (l.drop (i + 1)) := by
  constructor
  · intro h i hi e he
    refine h _ e _ ?_
    obtain ⟨-, rfl⟩ := List.getElem?_eq_some_iff.mp he
    rw [List.getElem_cons_drop, List.take_append_drop]
  · rintro h pre e post rfl
    have hdrop : (pre ++ e :: post).drop (pre.length + 1) = post := by
      rw [List.append_cons, List.drop_left' (by simp)]
    have hplace := h pre.length (by simp) e (by simp)
    rwa [List.take_left, hdrop] at hplace

instance (es : List Entry) : Decidable (NoLeak es) :=
  decidable_of_iff _ (@forall_split_iff _ (fun pre e post =>
    (∀ e' ∈ post, lastMember PATH e' ≠ lastMember PATH e) → lastMember AUTHORITY e = none →
      ∀ A ∈ (pre.filterMap (lastMember AUTHORITY)).getLast?, getModeValue A = 0) es).symm

/-- Without a rule for `q`, the map keeps what it had. -/
theorem lookup_of_none {users : List User} {q : CStr} (h : ∀ u ∈ users, u.pathname ≠ q)
    (map : PolicyMap) : (users.foldl Config.hashmapSet map).lookup q = map.lookup q := by
  have hnone : users.reverse.find? (fun u => u.pathname = q) = none := by
    refine List.find?_eq_none.mpr fun u hu => ?_
    simpa using h u (List.mem_reverse.mp hu)
  rw [lookup_foldl_hashmapSet, hnone]
  rfl

/-- The rule that decides for a path is the last one. -/
theorem lookup_of_last {pre post : List User} {u : User} (h : ∀ u' ∈ post, u'.pathname ≠ u.pathname)
    (map : PolicyMap) :
    ((pre ++ u :: post).foldl Config.hashmapSet map).lookup u.pathname = some u.permission := by
  rw [List.foldl_append, List.foldl_cons, lookup_of_none h, Config.hashmapSet]
  exact Finmap.lookup_insert _

/-- The last element with a property. -/
theorem exists_last {α : Type} {P : α → Prop} {l : List α} (h : ∃ a ∈ l, P a) :
    ∃ pre a post, l = pre ++ a :: post ∧ P a ∧ ∀ b ∈ post, ¬ P b := by
  induction l with
  | nil => simp at h
  | cons x l ih =>
    by_cases hl : ∃ a ∈ l, P a
    · obtain ⟨pre, a, post, rfl, ha, hpost⟩ := ih hl
      exact ⟨x :: pre, a, post, rfl, ha, hpost⟩
    · have hx : P x := by simpa [hl] using h
      exact ⟨[], x, l, rfl, hx, fun b hb hPb => hl ⟨b, hb, hPb⟩⟩

/-- Entries for files have the same path if and only if they have the same last `PATH`. -/
theorem pathname_userOf_inj {e e' : Entry} (h : EntryOk bound e) (h' : EntryOk bound e') (p p' : CInt) :
    (userOf p e).pathname = (userOf p' e').pathname ↔ lastMember PATH e = lastMember PATH e' := by
  obtain ⟨path, hpath, -⟩ := h.path
  obtain ⟨path', hpath', -⟩ := h'.path
  simp [userOf, hpath, hpath']

theorem exists_of_mem_carriedUsers {u : User} {p : CInt} (hu : u ∈ carriedUsers p es) (p' : CInt) :
    ∃ e ∈ es, (userOf p' e).pathname = u.pathname := by
  have hmem := List.mem_map_of_mem (f := User.pathname) hu
  rw [pathname_carriedUsers] at hmem
  exact List.mem_map.mp hmem

/-- The paths of the records are those of the entries. -/
theorem strlen_carriedUsers (hes : ∀ e ∈ es, EntryOk bound e) (p : CInt) :
    ∀ u ∈ carriedUsers p es, u.pathname.strlen < bound := by
  intro u hu
  obtain ⟨e, he, hpath⟩ := exists_of_mem_carriedUsers hu 0
  obtain ⟨path, hp, -, hlt, -⟩ := (hes e he).path
  have hu' : u.pathname = path := by rw [← hpath]; simp [userOf, hp]
  rwa [hu']

section Deciding

variable {pre post : List Entry}

/-- The agent's rule for the path of an entry that decides for it. -/
theorem lookup_users (hes : ∀ e' ∈ pre ++ e :: post, EntryOk bound e')
    (hpost : ∀ e' ∈ post, lastMember PATH e' ≠ lastMember PATH e) :
    (((pre ++ e :: post).map (userOf 0)).foldl Config.hashmapSet ∅).lookup (userOf 0 e).pathname =
      some (userOf 0 e).permission := by
  rw [List.map_append, List.map_cons]
  refine lookup_of_last (fun u hu => ?_) ∅
  obtain ⟨e', he', rfl⟩ := List.mem_map.mp hu
  exact mt (pathname_userOf_inj (hes e' (by simp [he'])) (hes e (by simp)) 0 0).mp (hpost e' he')

/-- The kernel's rule for it. -/
theorem lookup_carriedUsers (hes : ∀ e' ∈ pre ++ e :: post, EntryOk bound e')
    (hpost : ∀ e' ∈ post, lastMember PATH e' ≠ lastMember PATH e) :
    ((carriedUsers 0 (pre ++ e :: post)).foldl Config.hashmapSet ∅).lookup (userOf 0 e).pathname =
      some (userOf (carriedPermission 0 pre) e).permission := by
  rw [carriedUsers_append, carriedUsers]
  refine lookup_of_last (fun u hu => ?_) ∅
  obtain ⟨e', he', hpath⟩ := exists_of_mem_carriedUsers hu 0
  rw [← hpath]
  exact mt (pathname_userOf_inj (hes e' (by simp [he'])) (hes e (by simp)) 0 _).mp (hpost e' he')

end Deciding

/-- The permission that is left over decides only for an entry without an `AUTHORITY`. -/
theorem permission_userOf_eq_iff (p : CInt) (e : Entry) :
    (userOf p e).permission = (userOf 0 e).permission ↔ lastMember AUTHORITY e = none → p = 0 := by
  cases hA : lastMember AUTHORITY e <;> simp [userOf, hA]

theorem carriedPermission_eq_zero_iff (es : List Entry) :
    carriedPermission 0 es = 0 ↔
      ∀ A, (es.filterMap (lastMember AUTHORITY)).getLast? = some A → getModeValue A = 0 := by
  unfold carriedPermission
  cases (es.filterMap (lastMember AUTHORITY)).getLast? <;> simp

/-- The maps of the two loaders. -/
theorem maps_eq_iff (hes : ∀ e ∈ es, EntryOk bound e) :
    (carriedUsers 0 es).foldl Config.hashmapSet ∅ = (es.map (userOf 0)).foldl Config.hashmapSet ∅ ↔
      NoLeak es := by
  constructor
  · rintro heq pre e post rfl hpost hA
    have hlookup := lookup_carriedUsers hes hpost
    rw [heq, lookup_users hes hpost, Option.some_inj] at hlookup
    exact (carriedPermission_eq_zero_iff pre).mp ((permission_userOf_eq_iff _ e).mp hlookup.symm hA)
  · intro hleak
    refine Finmap.ext_lookup fun q => ?_
    by_cases hq : ∃ e ∈ es, (userOf 0 e).pathname = q
    · obtain ⟨pre, e, post, rfl, rfl, hlast⟩ := exists_last hq
      have hpost : ∀ e' ∈ post, lastMember PATH e' ≠ lastMember PATH e := fun e' he' =>
        mt (pathname_userOf_inj (hes e' (by simp [he'])) (hes e (by simp)) 0 0).mpr (hlast e' he')
      rw [lookup_carriedUsers hes hpost, lookup_users hes hpost,
        (permission_userOf_eq_iff _ e).mpr fun hA =>
          (carriedPermission_eq_zero_iff pre).mpr (hleak pre e post rfl hpost hA)]
    · rw [lookup_of_none (fun u hu hu' => ?_), lookup_of_none (fun u hu hu' => ?_)]
      · obtain ⟨e, he, rfl⟩ := List.mem_map.mp hu
        exact hq ⟨e, he, hu'⟩
      · obtain ⟨e, he, hpath⟩ := exists_of_mem_carriedUsers hu 0
        exact hq ⟨e, he, hpath.trans hu'⟩

/-- **When the two loaders agree**: the map of the agent and the map of the kernel module, after it
has received the messages of `nluser`, are equal if and only if no permission that is left over
decides for a path. -/
theorem loaders_agree_iff {root : JsonValue} (hroot : ConfigOk 254 root) (progName target : CStr) :
    ∃ map n, Config.processRoot opendir fuel progName ∅ root = .ok map ∧
      Nluser.jsonProcess opendir fuel progName {} root = .ok n ∧
      ((n.sent.foldl helloNlRecvMsg { map := some ∅, target }).map = some map ↔
        NoLeak (selectedEntries progName root)) := by
  have hes : ∀ e ∈ selectedEntries progName root, EntryOk 254 e := entryOk_of_selected hroot
  have hsend : Nluser.jsonProcess opendir fuel progName {} root =
      .ok ((selectedEntries progName root).foldl Nluser.record {}) :=
    processRoot_selected hroot (fun e he n => Nluser.processPair_entry (hes e he) (by decide) n) {}
  refine ⟨_, _, Config.processRoot_eq hroot (by decide) progName, hsend, ?_⟩
  have hlen : ∀ u ∈ carriedUsers 0 (selectedEntries progName root),
      u.pathname.strlen < KERNEL_MAX_PATH := fun u hu =>
    Nat.lt_trans (strlen_carriedUsers hes 0 u hu) (by decide)
  rw [Nluser.sent_foldl_record, List.nil_append, foldl_helloNlRecvMsg hlen, Option.some_inj]
  exact maps_eq_iff hes

/-- The permission that is left over for `/g` does not decide: there is a later rule for it. -/
theorem loaders_agree_iff_read :
    ∃ map n, Config.processRoot (fun _ => none) 0 (.ofChars ['a']) ∅ readConfig = .ok map ∧
      Nluser.jsonProcess (fun _ => none) 0 (.ofChars ['a']) {} readConfig = .ok n ∧
      (n.sent.foldl helloNlRecvMsg { map := some ∅, target := .ofChars ['a'] }).map = some map := by
  obtain ⟨map, n, hmap, hn, hiff⟩ := @loaders_agree_iff (fun _ => none) 0 readConfig configOk_readConfig
    (.ofChars ['a']) (.ofChars ['a'])
  exact ⟨map, n, hmap, hn, hiff.mpr (by decide)⟩

/-- A file that is forbidden, then one without an `AUTHORITY`. -/
def leakConfig : JsonValue :=
  .object [((CStr.ofChars ['a']).buf, .array [
    .object [(PATH.buf, .string (CStr.ofChars ['/', 'f']).buf),
      (AUTHORITY.buf, .string (CStr.ofChars ['F']).buf)],
    .object [(PATH.buf, .string (CStr.ofChars ['/', 'g']).buf)]])]

theorem configOk_leakConfig : ConfigOk 254 leakConfig :=
  @configOk_section 254 _ [_, _] (by decide)

/-- The kernel forbids the second file too; the agent has the permission 0 for it. -/
theorem loaders_agree_fails :
    ConfigOk 254 leakConfig ∧
    ∃ map n, Config.processRoot (fun _ => none) 0 (.ofChars ['a']) ∅ leakConfig = .ok map ∧
      Nluser.jsonProcess (fun _ => none) 0 (.ofChars ['a']) {} leakConfig = .ok n ∧
      map.lookup (.ofChars ['/', 'g']) = some 0 ∧
      (n.sent.foldl helloNlRecvMsg { map := some ∅, target := .ofChars ['a'] }).map ≠ some map := by
  obtain ⟨map, hmap, hagent⟩ := Exec.of_returned
    (x := Config.processRoot (fun _ => none) 0 (.ofChars ['a']) ∅ leakConfig)
    (p := fun map => map.lookup (.ofChars ['/', 'g']) = some 0) (by decide)
  obtain ⟨n, hn, hkernel⟩ := Exec.of_returned
    (x := Nluser.jsonProcess (fun _ => none) 0 (.ofChars ['a']) {} leakConfig)
    (p := fun n => ((n.sent.foldl helloNlRecvMsg
      { map := some ∅, target := .ofChars ['a'] }).map.bind fun map =>
        map.lookup (.ofChars ['/', 'g'])) = some O_FORBIDDEN) (by decide)
  have hagent := of_decide_eq_true hagent
  have hkernel := of_decide_eq_true hkernel
  refine ⟨configOk_leakConfig, map, n, hmap, hn, hagent, fun heq => ?_⟩
  rw [heq, Option.bind_some, hagent] at hkernel
  exact absurd hkernel (by decide)

end Cnpv
