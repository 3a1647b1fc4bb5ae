import Cnpv.Kernel.Check

/-!
# The messages of the kernel module

The state of the kernel module is the fold of its messages (`messages_fold`): the target is that of
the last `tar-` command, and a path has the permission of the last rule for it after the last
`clear` command. The map is `NULL` until the first message.
-/

namespace Cnpv

open CLib

/-- A message of `nluser`. The permission of a command is what the record has. -/
inductive Message
  | rule (pathname : CStr) (permission : CInt)
  | clear (permission : CInt)
  | target (name : CStr) (permission : CInt)

namespace Message

/-- The record of the message. -/
def record : Message → MyUser
  | .rule pathname permission => { pathname, permission, type := .myuser }
  | .clear permission => { pathname := clearCmd, permission, type := .cmd }
  | .target name permission => { pathname := tarCmd ++ name, permission, type := .cmd }

/-- The pathname of the record fits its buffer. -/
def Fits : Message → Prop
  | .rule pathname _ => pathname.strlen < KERNEL_MAX_PATH
  | .clear _ => True
  | .target name _ => name.strlen ≤ 250

def isClear : Message → Bool
  | .clear _ => true
  | _ => false

/-- The target that the message sets. -/
def target? : Message → Option CStr
  | .target name _ => some name
  | _ => none

/-- The permission that the message gives the path `q`. -/
def rule? (q : CStr) : Message → Option CInt
  | .rule pathname permission => if pathname = q then some permission else none
  | _ => none

end Message

/-- The kernel module when it is loaded. -/
def Kernel.init : Kernel where
  target := .ofChars ['m', 'y', 't', 'e', 's', 't']

/-- The kernel module after the messages. -/
def Kernel.after (messages : List Message) : Kernel :=
  (messages.map Message.record).foldl helloNlRecvMsg Kernel.init

/-- The name in the last `tar-` command. -/
def lastTarget (messages : List Message) : CStr :=
  (messages.reverse.findSome? Message.target?).getD Kernel.init.target

/-- The permission of the last rule for `q` after the last `clear` command. -/
def assigned (messages : List Message) (q : CStr) : Option CInt :=
  (messages.reverse.takeWhile fun m => !m.isClear).findSome? (Message.rule? q)

/-! ## One message -/

variable {k : Kernel} {messages : List Message} {m : Message} {pathname name q : CStr}
  {permission : CInt}

theorem helloNlRecvMsg_rule (h : pathname.strlen < KERNEL_MAX_PATH) :
    helloNlRecvMsg k (Message.rule pathname permission).record =
      { k with map := some ((k.map.getD ∅).insert pathname permission) } := by
  have htake : pathname.take KERNEL_MAX_PATH = pathname := CStr.take_of_le (Nat.le_of_lt h)
  simp [helloNlRecvMsg, Message.record, htake]

theorem helloNlRecvMsg_clear :
    helloNlRecvMsg k (Message.clear permission).record = { k with map := some ∅ } := rfl

theorem helloNlRecvMsg_target :
    helloNlRecvMsg k (Message.target name permission).record =
      { map := some (k.map.getD ∅), target := name } := by
  have hne : tarCmd ++ name ≠ clearCmd := by
    intro h
    have hhead := congrArg (fun s : CStr => s.bytes.head?) h
    rw [CStr.append_bytes, List.head?_append_of_ne_nil _ (by decide)] at hhead
    exact absurd hhead (by decide)
  have htar : (strstr (tarCmd ++ name).bytes tarCmd.bytes).isSome :=
    strstr_isSome.mpr (List.prefix_append _ _).isInfix
  have hdrop : (tarCmd ++ name).bytes.drop 4 = name.bytes := List.drop_left' (by decide)
  simp only [helloNlRecvMsg, Message.record, if_neg hne, if_pos htar, hdrop]

/-! ## All messages -/

/-- One message more. -/
theorem Kernel.after_snoc (messages : List Message) (m : Message) :
    Kernel.after (messages ++ [m]) = helloNlRecvMsg (Kernel.after messages) m.record := by
  simp [Kernel.after]

theorem lastTarget_snoc (messages : List Message) (m : Message) :
    lastTarget (messages ++ [m]) = m.target?.getD (lastTarget messages) := by
  rw [lastTarget, List.reverse_append, List.reverse_singleton, List.singleton_append,
    List.findSome?_cons]
  cases m.target? <;> rfl

theorem assigned_snoc (messages : List Message) (m : Message) (q : CStr) :
    assigned (messages ++ [m]) q =
      if m.isClear then none else (m.rule? q).or (assigned messages q) := by
  rw [assigned, List.reverse_append, List.reverse_singleton, List.singleton_append,
    List.takeWhile_cons]
  cases m.isClear with
  | true => rfl
  | false =>
    rw [Bool.not_false, if_pos rfl, List.findSome?_cons]
    cases m.rule? q <;> rfl

/-- After a message the map is not `NULL`. -/
theorem Kernel.after_map (h : messages ≠ []) : ∃ map, (Kernel.after messages).map = some map := by
  obtain ⟨messages, m, rfl⟩ := (List.eq_nil_or_concat messages).resolve_left h
  rw [List.concat_eq_append, Kernel.after_snoc]
  unfold helloNlRecvMsg
  cases m.record.type with
  | myuser => exact ⟨_, rfl⟩
  | str => exact ⟨_, rfl⟩
  | cmd =>
    simp only
    split_ifs <;> exact ⟨_, rfl⟩

/-- The target and the map after the messages. The induction adds the last message. -/
theorem Kernel.after_eq (h : ∀ m ∈ messages, m.Fits) :
    (Kernel.after messages).target = lastTarget messages ∧
    ∀ q, ((Kernel.after messages).map.getD ∅).lookup q = assigned messages q := by
  induction messages using List.reverseRecOn with
  | nil => exact ⟨rfl, fun q => rfl⟩
  | append_singleton messages m ih =>
    obtain ⟨htarget, hmap⟩ := ih fun m hm => h m (by simp [hm])
    have hm : m.Fits := h m (by simp)
    rw [Kernel.after_snoc, lastTarget_snoc]
    simp only [assigned_snoc]
    cases m with
    | rule pathname permission =>
      rw [helloNlRecvMsg_rule hm]
      refine ⟨htarget, fun q => ?_⟩
      by_cases hq : pathname = q
      · subst hq
        simp [Finmap.lookup_insert, Message.isClear, Message.rule?]
      · rw [Option.getD_some, Finmap.lookup_insert_of_ne _ (Ne.symm hq), hmap]
        simp [Message.isClear, Message.rule?, hq]
    | clear permission =>
      rw [helloNlRecvMsg_clear]
      exact ⟨htarget, fun q => rfl⟩
    | target name permission =>
      rw [helloNlRecvMsg_target]
      exact ⟨rfl, hmap⟩

/-- **The state of the kernel module is the fold of its messages**, and once it has received one, the
check decides by the permission that they assign: a path with none is allowed, and a path with one is
if it is not forbidden and has the bits that the access mode asks for. -/
theorem messages_fold (h : ∀ m ∈ messages, m.Fits) :
    (Kernel.after messages).target = lastTarget messages ∧
    (∀ q, ((Kernel.after messages).map.getD ∅).lookup q = assigned messages q) ∧
    (messages ≠ [] → ∀ q oflag, q.strlen < KERNEL_MAX_PATH →
      ∃ ret, (Kernel.after messages).checkPermission q oflag = .ok ret ∧
        (ret ≠ 0 ↔ ∀ permission, assigned messages q = some permission →
          permission &&& O_FORBIDDEN = 0 ∧
          (oflag &&& 0x03 = O_RDONLY → permission &&& O_READ ≠ 0) ∧
          (oflag &&& 0x03 = O_WRONLY → permission &&& O_WRITE ≠ 0) ∧
          (oflag &&& 0x03 = O_RDWR → permission &&& O_READ ≠ 0 ∧ permission &&& O_WRITE ≠ 0))) := by
  obtain ⟨htarget, hmap⟩ := Kernel.after_eq h
  refine ⟨htarget, hmap, fun hne q oflag hq => ?_⟩
  obtain ⟨map, hsome⟩ := Kernel.after_map hne
  have hlookup : map.lookup q = assigned messages q := by
    rw [← hmap, hsome, Option.getD_some]
  refine ⟨_, Kernel.checkPermission_eq hsome hq oflag, ?_⟩
  rw [hlookup]
  cases assigned messages q with
  | none => simp
  | some permission =>
    rw [Option.map_some, Option.getD_some, Kernel.allows_ne_zero]
    simp only [Option.some.injEq, forall_eq']

/-- A target and two rules for one file: the last one lets it be read, and so not be written. -/
theorem messages_fold_two :
    (Kernel.after [.rule (.ofChars ['/', 'f']) O_WRITE, .target (.ofChars ['a']) 0,
      .rule (.ofChars ['/', 'f']) O_READ]).target = .ofChars ['a'] ∧
    (∃ ret, (Kernel.after [.rule (.ofChars ['/', 'f']) O_WRITE, .target (.ofChars ['a']) 0,
      .rule (.ofChars ['/', 'f']) O_READ]).checkPermission (.ofChars ['/', 'f']) O_RDONLY = .ok ret ∧
      ret ≠ 0) ∧
    (Kernel.after [.rule (.ofChars ['/', 'f']) O_WRITE, .target (.ofChars ['a']) 0,
      .rule (.ofChars ['/', 'f']) O_READ]).checkPermission (.ofChars ['/', 'f']) O_WRONLY = .ok 0 := by
  have hfits : ∀ m ∈ [Message.rule (.ofChars ['/', 'f']) O_WRITE, .target (.ofChars ['a']) 0,
      .rule (.ofChars ['/', 'f']) O_READ], m.Fits := by
    intro m hm
    simp only [List.mem_cons, List.not_mem_nil, or_false] at hm
    rcases hm with rfl | rfl | rfl <;> unfold Message.Fits <;> decide
  have hassigned : assigned [.rule (.ofChars ['/', 'f']) O_WRITE, .target (.ofChars ['a']) 0,
      .rule (.ofChars ['/', 'f']) O_READ] (.ofChars ['/', 'f']) = some O_READ := by decide
  obtain ⟨htarget, -, hcheck⟩ := messages_fold hfits
  refine ⟨htarget.trans (by decide), ?_, ?_⟩
  · obtain ⟨ret, hret, hiff⟩ := hcheck (by simp) (.ofChars ['/', 'f']) O_RDONLY (by decide)
    rw [hassigned] at hiff
    exact ⟨ret, hret, hiff.mpr fun permission hp => by cases hp; decide⟩
  · obtain ⟨ret, hret, hiff⟩ := hcheck (by simp) (.ofChars ['/', 'f']) O_WRONLY (by decide)
    rw [hassigned] at hiff
    have hzero : ret = 0 := by
      by_contra hne
      exact absurd ((hiff.mp hne _ rfl).2.2.1 (by decide)) (by decide)
    rw [hret, hzero]

end Cnpv
