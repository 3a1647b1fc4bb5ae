import Cnpv.Hashmap.Policy
import Cnpv.Policy.Model

/-!
# The documents of policies

Both loaders find the rules of a program in the document of a policy, and emit a record for each
file of a rule, in order. So a map that stores these records has, for a file, the authority of the
last rule for it (`lookup_users`).
-/

namespace Cnpv

open CLib

/-! ## Strings -/

section Strings

variable {s : Name} {d : Char}

theorem Name.mem_cstr (hd : d.val.toNat < 0x80) : d.toUInt8 ∈ s.cstr.bytes ↔ d ∈ s.chars := by
  constructor
  · intro h
    obtain ⟨c, hc, hb⟩ := List.mem_flatMap.mp h
    rwa [← Json.eq_of_mem_utf8 hd hb]
  · intro h
    refine List.mem_flatMap.mpr ⟨d, h, ?_⟩
    rw [String.utf8EncodeChar, if_pos (by omega), List.mem_singleton]
    show d.val.toUInt8 = _
    rw [← UInt8.toNat_inj, UInt32.toNat_toUInt8, UInt8.toNat_ofNat']

/-- The last character, as C sees it. -/
theorem Name.lastChar (h : s.chars ≠ []) :
    ∃ b, Cnpv.lastChar s.cstr = .ok b ∧ (b = '/'.toUInt8 ↔ s.chars.getLast? = some '/') := by
  obtain ⟨cs, c, hcs⟩ := (List.eq_nil_or_concat s.chars).resolve_left h
  rw [List.concat_eq_append] at hcs
  have hbytes : s.cstr.bytes = Json.encoded cs ++ String.utf8EncodeChar c := by
    show Json.encoded s.chars = _
    simp [hcs, Json.encoded]
  have hne : String.utf8EncodeChar c ≠ [] := fun h => by
    have := congrArg List.length h
    simp [String.length_utf8EncodeChar, c.utf8Size_pos.ne'] at this
  have hlast : s.cstr.bytes.getLast? = some ((String.utf8EncodeChar c).getLast hne) := by
    rw [hbytes, List.getLast?_append_of_ne_nil _ hne, List.getLast?_eq_some_getLast hne]
  refine ⟨_, by rw [Cnpv.lastChar, hlast], ?_⟩
  rw [hcs, List.getLast?_concat, Option.some_inj]
  constructor
  · intro hb
    exact Json.eq_of_mem_utf8 (by decide) (hb ▸ List.getLast_mem hne)
  · rintro rfl
    rfl

end Strings

/-! ## Authorities -/

namespace Rule

variable {r : Rule} {a : Access} {oflag : CInt}

theorem has_iff {upper lower : Char} (hu : upper.val.toNat < 0x80) (hl : lower.val.toNat < 0x80) :
    r.has upper lower = true ↔ contains r.authority.cstr upper lower := by
  rw [has, decide_eq_true_iff, contains, Name.mem_cstr hu, Name.mem_cstr hl]

/-- The permission that the loaders give the files of the rule. -/
def permission (r : Rule) : CInt := getModeValue r.authority.cstr

theorem allows_permission (ha : Access.asked oflag = some a) :
    allows r.permission oflag = r.grants a := by
  have hF : r.has 'F' 'f' = true ↔ contains r.authority.cstr 'F' 'f' :=
    has_iff (by decide) (by decide)
  have hR : r.has 'R' 'r' = true ↔ contains r.authority.cstr 'R' 'r' :=
    has_iff (by decide) (by decide)
  have hW : r.has 'W' 'w' = true ↔ contains r.authority.cstr 'W' 'w' :=
    has_iff (by decide) (by decide)
  have hflag : oflag ≠ FOPEN_MODE_FLAG := by
    rintro rfl
    cases ha
  rw [permission, allows_getModeValue hflag, Cnpv.grants, grants.eq_def]
  simp only [← hF, ← hR, ← hW]
  rw [Access.asked] at ha
  rcases accessMode_cases oflag with h | h | h | h <;> rw [h] at ha ⊢ <;> cases ha
  all_goals cases r.has 'F' 'f' <;> simp [O_RDONLY, O_WRONLY, O_RDWR]

/-- A flag word without an access mode, whatever the permission is. -/
theorem allows_unasked (ha : Access.asked oflag = none) (permission : CInt) :
    allows permission oflag = decide (oflag = FOPEN_MODE_FLAG) := by
  rw [Access.asked] at ha
  split_ifs at ha with hread hwrite hreadWrite
  rw [allows, if_neg hread, if_neg hwrite, if_neg hreadWrite, ite_self]
  split_ifs with hfopen <;> simp [hfopen]

/-- The check of the kernel module gives 1 or 0. -/
theorem kernel_allows (ha : Access.asked oflag = some a) :
    Kernel.allows r.permission oflag = if r.grants a = true then 1 else 0 := by
  have hmode : oflag &&& 0x03 ≠ 0x03 := by
    intro h
    rw [Access.asked, h] at ha
    cases ha
  have hiff := (allows_agree_iff r.permission oflag).mpr fun h => absurd h hmode
  rw [allows_permission ha] at hiff
  have hbit : Kernel.allows r.permission oflag = 0 ∨ Kernel.allows r.permission oflag = 1 := by
    unfold Kernel.allows
    split_ifs <;> simp
  split_ifs with hgrants
  · exact hbit.resolve_left (hiff.mp hgrants)
  · exact not_not.mp (mt hiff.mpr hgrants)

end Rule

/-! ## The loaders -/

namespace Rule

variable {opendir : CStr → Option (List Dirent)} {r : Rule} {σ : Type} {emit : σ → User → σ}
  {size depth : Nat} {s : σ}

/-- The records of the rule. -/
def users (opendir : CStr → Option (List Dirent)) (r : Rule) : List User :=
  (r.covers opendir).map fun q => { pathname := q, permission := r.permission }

/-- The records of one rule give its files its permission. -/
theorem lookup_users (map : PolicyMap) (q : CStr) :
    ((r.users opendir).foldl Config.hashmapSet map).lookup q =
      if q ∈ r.covers opendir then some r.permission else map.lookup q := by
  rw [users]
  generalize r.covers opendir = qs
  induction qs using List.reverseRecOn with
  | nil => rfl
  | append_singleton qs q' ih =>
    rw [List.map_append, List.foldl_append, List.map_singleton, List.foldl_cons, List.foldl_nil,
      Config.hashmapSet]
    by_cases hq : q' = q
    · subst hq
      simp [Finmap.lookup_insert]
    · rw [Finmap.lookup_insert_of_ne _ (Ne.symm hq), ih]
      simp [Ne.symm hq]

/-- The loop over the members of the rule's object. -/
theorem readMembers (h : r.path.cstr.strlen < size) (u : User) :
    runFrom (readMember size) u
        [(PATH.buf, .string r.path.cstr.buf), (AUTHORITY.buf, .string r.authority.cstr.buf)] =
      .ok { pathname := r.path.cstr, permission := r.permission } := by
  rw [runFrom_cons, readMember_path (CStr.ofBytes_buf _) rfl, Exec.ok_bind, runFrom_cons,
    readMember_authority (CStr.ofBytes_buf _) rfl, CStr.ofBytes_buf, CStr.ofBytes_buf,
    CStr.take_of_le (Nat.le_sub_one_of_lt h)]
  rfl

theorem flatMap_files {α β : Type} (p : α → Bool) (f : α → β) (l : List α) :
    (l.flatMap fun a => if p a then [] else [f a]) = (l.filter fun a => !p a).map f := by
  induction l with
  | nil => rfl
  | cons a l ih => cases h : p a <;> simp [h, ih]

/-- `get_dir_content` on the directory of the rule. -/
theorem dirContent (h : r.Fits opendir size) (hdir : r.IsDir) :
    Cnpv.dirContent opendir size emit r.permission (depth + 1) r.path.cstr s =
      .ok ((r.users opendir).foldl emit s) := by
  have hcovers := h.covers
  rw [users]
  rw [covers, if_pos hdir] at hcovers ⊢
  rw [Cnpv.dirContent]
  cases hopen : opendir r.path.cstr with
  | none => rfl
  | some entries =>
    rw [hopen, Option.getD_some] at hcovers
    have hentry : ∀ d ∈ entries, ∀ s, dirEntry size emit r.permission r.path.cstr
        (Cnpv.dirContent opendir size emit r.permission depth) s d =
          .ok ((if d.isDir then [] else [(⟨r.path.cstr ++ d.name, r.permission⟩ : User)]).foldl emit s) := by
      intro d hd s
      rw [dirEntry]
      cases hd' : d.isDir with
      | false =>
        have hlt := hcovers _ (List.mem_map_of_mem (List.mem_filter.mpr ⟨hd, by simp [hd']⟩))
        rw [if_pos rfl, CStr.store_of_lt hlt]
        rfl
      | true =>
        have hdots : ¬ (d.name ≠ dot ∧ d.name ≠ dotDot) := fun hne =>
          (h.flat hdir entries hopen d hd hd').elim hne.1 hne.2
        rw [if_neg (by simp), if_neg hdots]
        rfl
    rw [Option.getD_some, List.map_map, ← flatMap_files]
    exact runFrom_emit _ hentry s

/-- `process_pair` of the agent. -/
theorem processPairWith (h : r.Fits opendir MAX_PATH) :
    Cnpv.processPairWith emit opendir (depth + 1) s r.json = .ok ((r.users opendir).foldl emit s) := by
  obtain ⟨last, hlast, hslash⟩ := r.path.lastChar r.ne
  rw [json, Cnpv.processPairWith, readMembers h.path, Exec.ok_bind, hlast, Exec.ok_bind]
  by_cases hdir : r.IsDir
  · rw [if_pos (hslash.mpr hdir)]
    exact dirContent h hdir
  · rw [if_neg (mt hslash.mp hdir), users, covers, if_neg hdir]
    rfl

end Rule

/-- The messages for records. -/
def Nluser.sends (n : Nluser) (us : List User) : List MyUser :=
  n.sent ++ us.map fun u => { u with type := .myuser }

theorem Nluser.foldl_mysendmsg (us : List User) (n : Nluser) :
    us.foldl (fun n u => n.mysendmsg { u with type := .myuser }) n =
      { n with sent := n.sends us } := by
  induction us generalizing n with
  | nil => simp [sends]
  | cons u us ih => rw [List.foldl_cons, ih]; simp [sends, mysendmsg]

/-- `process_pair` of `nluser`. -/
theorem Rule.nluser_processPair {opendir : CStr → Option (List Dirent)} {r : Rule} {depth : Nat}
    (h : r.Fits opendir KERNEL_MAX_PATH) (n : Nluser) :
    ∃ n', Nluser.processPair opendir (depth + 1) n r.json = .ok n' ∧
      n'.sent = n.sends (r.users opendir) := by
  obtain ⟨last, hlast, hslash⟩ := r.path.lastChar r.ne
  rw [json, Nluser.processPair, readMembers h.path, Exec.ok_bind, hlast, Exec.ok_bind]
  by_cases hdir : r.IsDir
  · rw [if_pos (hslash.mpr hdir)]
    refine ⟨_, dirContent h hdir, ?_⟩
    rw [Nluser.foldl_mysendmsg]
    rfl
  · rw [if_neg (mt hslash.mp hdir), users, covers, if_neg hdir]
    exact ⟨_, rfl, rfl⟩

namespace Policy

variable {opendir : CStr → Option (List Dirent)} {P : Policy} {program : CStr} {σ : Type}
  {processPair : σ → JsonValue → Exec σ}

/-- The loops over sections and rules visit the rules of the program, in order. -/
theorem processRoot (hapart : P.Apart program) (s : σ) : Cnpv.processRoot processPair program s P.json =
    runFrom (fun s r => processPair s r.json) s (P.rules program) := by
  rw [json, Cnpv.processRoot, runFrom_map_list, rules, runFrom_flatMap]
  refine runFrom_congr (fun _ => True) (fun sec hsec s _ => ?_) (fun _ _ _ _ _ _ => trivial) trivial
  rw [CStr.ofBytes_buf]
  by_cases hname : sec.program.cstr = program
  · have hinfix : program.bytes <:+: sec.program.cstr.bytes := hname ▸ List.infix_rfl
    rw [if_pos (strstr_isSome.mpr hinfix), if_pos hname, processArray, runFrom_map_list]
  · have hinfix : ¬ program.bytes <:+: sec.program.cstr.bytes := mt (hapart sec hsec) hname
    rw [if_neg (mt strstr_isSome.mp hinfix), if_neg hname]
    rfl

/-- The records for a program. -/
def users (opendir : CStr → Option (List Dirent)) (P : Policy) (program : CStr) : List User :=
  (P.rules program).flatMap (Rule.users opendir)

theorem length_users : (P.users opendir program).length = P.size opendir program := by
  simp [users, size, List.length_flatMap, Rule.users]

/-- The agent emits the records. -/
theorem processRoot_users {emit : σ → User → σ} {depth : Nat} (hapart : P.Apart program)
    (hP : ∀ r ∈ P.rules program, r.Fits opendir MAX_PATH) (s : σ) :
    Cnpv.processRoot (processPairWith emit opendir (depth + 1)) program s P.json =
      .ok ((P.users opendir program).foldl emit s) := by
  rw [processRoot hapart, users]
  exact runFrom_emit (Rule.users opendir) (fun r hr s => Rule.processPairWith (hP r hr)) s

/-- `nluser` sends them. -/
theorem jsonProcess_users (depth : Nat) (hapart : P.Apart program)
    (hP : ∀ r ∈ P.rules program, r.Fits opendir KERNEL_MAX_PATH) (n : Nluser) :
    ∃ n', Nluser.jsonProcess opendir (depth + 1) program n P.json = .ok n' ∧
      n'.sent = n.sends (P.users opendir program) := by
  rw [Nluser.jsonProcess, processRoot hapart, users]
  generalize P.rules program = rules at hP
  induction rules generalizing n with
  | nil => exact ⟨n, rfl, by simp [Nluser.sends]⟩
  | cons r rules ih =>
    obtain ⟨n₁, h₁, hsent₁⟩ := Rule.nluser_processPair (hP r (by simp)) n
    obtain ⟨n', h', hsent'⟩ := ih n₁ fun r hr => hP r (by simp [hr])
    refine ⟨n', ?_, ?_⟩
    · rw [runFrom_cons, h₁]
      exact h'
    · rw [hsent', Nluser.sends, hsent₁, Nluser.sends, Nluser.sends, List.flatMap_cons, List.map_append,
        List.append_assoc]

/-- **The last rule for a file decides** in a map that stores the records. -/
theorem lookup_users (q : CStr) :
    ((P.users opendir program).foldl Config.hashmapSet ∅).lookup q =
      ((P.rules program).reverse.find? fun r => q ∈ r.covers opendir).map Rule.permission := by
  rw [users]
  generalize P.rules program = rules
  induction rules using List.reverseRecOn with
  | nil => rfl
  | append_singleton rules r ih =>
    rw [List.flatMap_append, List.foldl_append, List.flatMap_singleton, Rule.lookup_users, ih,
      List.reverse_append, List.reverse_singleton, List.singleton_append, List.find?_cons]
    by_cases hq : q ∈ r.covers opendir
    · simp [hq]
    · simp [hq]

/-- The check of the agent with the permission of that rule. -/
theorem allows_lookup (q : CStr) (oflag : CInt) :
    ((((P.rules program).reverse.find? fun r => q ∈ r.covers opendir).map Rule.permission).elim true
      fun permission => allows permission oflag) = P.verdict opendir program q oflag := by
  unfold verdict
  cases ha : Access.asked oflag with
  | some a =>
    show _ = P.permits opendir program q a
    rw [permits]
    cases (P.rules program).reverse.find? fun r => q ∈ r.covers opendir with
    | none => rfl
    | some r => exact Rule.allows_permission ha
  | none =>
    cases hfind : (P.rules program).reverse.find? fun r => q ∈ r.covers opendir with
    | none =>
      have hrule : ∀ r ∈ P.rules program, q ∉ r.covers opendir := by simpa using hfind
      exact (decide_eq_true (.inr hrule)).symm
    | some r =>
      have hr : r ∈ P.rules program := List.mem_reverse.mp (List.mem_of_find?_eq_some hfind)
      have hq : q ∈ r.covers opendir := by simpa using List.find?_some hfind
      have hrule : ¬ ∀ r ∈ P.rules program, q ∉ r.covers opendir := fun h => h r hr hq
      simp only [Option.map_some, Option.elim_some, Rule.allows_unasked ha, hrule, or_false]

end Policy

end Cnpv
