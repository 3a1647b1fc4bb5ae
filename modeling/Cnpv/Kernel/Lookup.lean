import Cnpv.Config.Memory
import Cnpv.Kernel.Hooks

/-!
# Lookups in a missing map (`kernel_module/cnpv.c`)

The hooks are live when the module is loaded, but the map is created by the first message. In a run
of messages and calls, no hook looks up in a `NULL` map if and only if each call that is checked
comes after a message whose `hashmap_new` succeeded (`lookups_iff`).
-/

namespace Cnpv

open CLib

/-- What the kernel module reacts to. -/
inductive KernelEvent
  | message (allocs : Allocs) (u : MyUser)
  | call (comm : CStr) (call : KernelCall)

/-- A message for which `hashmap_new` succeeds, if it is called. -/
def KernelEvent.Creates : KernelEvent → Prop
  | .message allocs _ => allocs.new = true
  | .call _ _ => False

namespace KernelMem

/-- The kernel module when it is loaded. -/
def init : KernelMem where
  target := Kernel.init.target

/-- One event. A call does not change the globals. -/
def step (k : KernelMem) : KernelEvent → Exec KernelMem
  | .message allocs u => Prod.snd <$> k.receive allocs u
  | .call comm call => (fun _ => k) <$> k.toKernel.hook comm call

end KernelMem

/-- The hook looks up the pathname of the call. -/
def Kernel.Looks (k : Kernel) (comm : CStr) (call : KernelCall) : Prop :=
  (comm = k.target ∧ call.Hooked) ∧ call.pathname.strlen < KERNEL_MAX_PATH

variable {k k' : KernelMem} {allocs : Allocs} {u : MyUser} {comm : CStr} {call : KernelCall}
  {events : List KernelEvent}

/-- When a hook looks up in no map. -/
theorem Kernel.hook_nullPointer_iff (k : Kernel) (comm : CStr) (call : KernelCall) :
    k.hook comm call = .error (.undefined .nullPointer) ↔ k.map = none ∧ k.Looks comm call := by
  by_cases hcall : comm = k.target ∧ call.Hooked
  · obtain ⟨rfl, hhooked⟩ := hcall
    rw [Kernel.hook_target hhooked]
    by_cases hlen : call.pathname.strlen < 256
    · rw [Kernel.checkMsg_userMsg_of_lt hlen]
      rcases k.checkPermission_cases call.pathname call.flags with
        ⟨hle, hcheck⟩ | ⟨hlt, hmap, hcheck⟩ | ⟨-, hmap, ret, hcheck⟩
      · rw [hcheck]
        exact iff_of_false (by simp) fun h => absurd h.2.2 (Nat.not_lt.mpr hle)
      · rw [hcheck]
        exact iff_of_true rfl ⟨hmap, ⟨rfl, hhooked⟩, hlt⟩
      · rw [hcheck, Exec.ok_bind]
        refine iff_of_false ?_ fun h => hmap h.1
        split_ifs <;> simp
    · have hle : 256 ≤ call.pathname.strlen := Nat.le_of_not_lt hlen
      rw [Kernel.checkMsg, bufferStr_userMsg_of_le hle]
      refine iff_of_false (by simp) fun h => ?_
      have hlt := h.2.2
      unfold KERNEL_MAX_PATH at hlt
      omega
  · rw [Kernel.hook_of_not hcall]
    exact iff_of_false (by simp) fun h => hcall h.2.1

/-- A message leaves no map only if there was none, and `hashmap_new` fails. -/
theorem KernelMem.map_receive {reply : Bool} (h : k.receive allocs u = .ok (reply, k')) :
    k'.map = none ↔ k.map = none ∧ ¬ allocs.new = true := by
  have hnew : k.mapOrNew allocs = none ↔ k.map = none ∧ ¬ allocs.new = true := by
    unfold mapOrNew
    cases k.map with
    | none => simp
    | some m => simp
  rw [← hnew]
  unfold receive at h
  cases htype : u.type with
  | myuser =>
    simp only [htype] at h
    obtain ⟨m, hm, h⟩ := Exec.bind_ok.mp h
    obtain ⟨-, rfl⟩ := Prod.mk.inj (Except.ok.inj h)
    exact iff_of_false (by simp) fun hnone => by simp [hnone, deref] at hm
  | str =>
    simp only [htype] at h
    cases h
    rfl
  | cmd =>
    simp only [htype] at h
    split_ifs at h
    · obtain ⟨m, hm, h⟩ := Exec.bind_ok.mp h
      obtain ⟨-, rfl⟩ := Prod.mk.inj (Except.ok.inj h)
      exact iff_of_false (by simp) fun hnone => by simp [hnone, deref] at hm
    · cases h; rfl
    · cases h; rfl

/-- There is no map until a message creates it. -/
theorem KernelMem.map_eq_none_iff (h : runFrom step init events = .ok k) :
    k.map = none ↔ ∀ e ∈ events, ¬ e.Creates := by
  induction events using List.reverseRecOn generalizing k with
  | nil => cases h; simp [init]
  | append_singleton events e ih =>
    rw [runFrom_append] at h
    obtain ⟨k₁, h₁, h⟩ := Exec.bind_ok.mp h
    obtain ⟨k₂, h₂, h⟩ := Exec.bind_ok.mp h
    cases h
    have hsplit : (∀ e' ∈ events ++ [e], ¬ e'.Creates) ↔ (∀ e' ∈ events, ¬ e'.Creates) ∧ ¬ e.Creates := by
      simp [or_imp, forall_and]
    rw [hsplit, ← ih h₁]
    cases e with
    | message allocs u =>
      obtain ⟨⟨reply, k₃⟩, hreceive, rfl⟩ := Exec.map_ok.mp h₂
      exact KernelMem.map_receive hreceive
    | call comm call =>
      obtain ⟨reply, -, rfl⟩ := Exec.map_ok.mp h₂
      simp [KernelEvent.Creates]

/-- **When no hook looks up in a missing map**, in every run of messages and calls from the loading of
the module: if each call that is checked comes after a message that creates the map, and only
then. -/
theorem lookups_iff (events : List KernelEvent) :
    (∀ pre comm call post k, events = pre ++ .call comm call :: post →
      runFrom KernelMem.step KernelMem.init pre = .ok k →
      k.toKernel.hook comm call ≠ .error (.undefined .nullPointer)) ↔
    ∀ pre comm call post k, events = pre ++ .call comm call :: post →
      runFrom KernelMem.step KernelMem.init pre = .ok k → k.toKernel.Looks comm call →
      ∃ e ∈ pre, e.Creates := by
  have hstep : ∀ pre comm call k, runFrom KernelMem.step KernelMem.init pre = .ok k →
      (k.toKernel.hook comm call ≠ .error (.undefined .nullPointer) ↔
        (k.toKernel.Looks comm call → ∃ e ∈ pre, e.Creates)) := by
    intro pre comm call k hpre
    have hmap : k.toKernel.map = none ↔ ∀ e ∈ pre, ¬ e.Creates := by
      rw [← KernelMem.map_eq_none_iff hpre, KernelMem.toKernel, Option.map_eq_none_iff]
    rw [Ne, Kernel.hook_nullPointer_iff, hmap, not_and']
    simp only [not_forall, not_not, exists_prop]
  constructor
  · intro h pre comm call post k hsplit hpre
    exact (hstep pre comm call k hpre).mp (h pre comm call post k hsplit hpre)
  · intro h pre comm call post k hsplit hpre
    exact (hstep pre comm call k hpre).mpr (h pre comm call post k hsplit hpre)

/-- The target process opens a file before the first message. -/
theorem lookup_fails :
    runFrom KernelMem.step KernelMem.init
      [.call (.ofChars ['m', 'y', 't', 'e', 's', 't']) (.open (.ofChars ['/', 'f']) O_RDONLY 0)] =
        .error (.undefined .nullPointer) := by
  rfl

end Cnpv
