import Cnpv.Agent.Check

/-!
# When the cache is transparent

A run of `check_permission` calls, each compared with the call without the cache. The verdict of a
cached name is that for the flag word of the call that put it there, so a call is transparent if
and only if the policy gives its own flag word the same verdict
(`checkPermission_transparent_iff`). A file that may be read may be written after it was read
(`checkPermission_stale`).
-/

namespace Cnpv

open CLib

/-- The agent in a run, with the flag word that decided the latest call for each name. While the
cache has a name, that is the flag word of the call that put it there (`Agent.decided`). -/
structure Observed where
  agent : Agent
  flags : CStr → Option CInt := fun _ => none

namespace Observed

/-- `check_permission(pathname, oflag)` for `call = (pathname, oflag)`. -/
def check (fuel : Nat) (o : Observed) (call : CStr × CInt) : Exec (Bool × Observed) := do
  let buf ← checkName o.agent.cwd call.1
  let (ret, agent) ← checkPermission fuel o.agent call.1 call.2
  let flag := o.agent.decided fuel o.flags buf call.2
  .ok (ret, { agent, flags := Function.update o.flags buf (some flag) })

/-- The cache does not have the name, or the policy gives the flag word of the call that put it there
the same verdict as the flag word of this call. -/
def Agrees (fuel : Nat) (o : Observed) (call : CStr × CInt) : Prop :=
  ∀ n, checkName o.agent.cwd call.1 = .ok n → o.agent.cached fuel n →
    ∀ f ∈ o.flags n, verdict o.agent.map n f = verdict o.agent.map n call.2

variable {map : PolicyMap} {cwd : CStr} {o : Observed} {fuel : Nat} {call : CStr × CInt} {n : CStr}

/-- One call. -/
theorem check_spec (h : Running map cwd o.agent o.flags) (hf : 65 < fuel)
    (hn : checkName cwd call.1 = .ok n) :
    ∃ o', o.check fuel call = .ok (verdict map n (o.agent.decided fuel o.flags n call.2), o') ∧
      Running map cwd o'.agent o'.flags := by
  obtain ⟨a', hcheck, h'⟩ := h.check hf hn call.2
  exact ⟨_, Exec.bind_ok.mpr ⟨n, h.cwd_eq ▸ hn, Exec.bind_ok.mpr ⟨_, hcheck, rfl⟩⟩, h'⟩

theorem agrees_iff (hn : checkName o.agent.cwd call.1 = .ok n) :
    o.Agrees fuel call ↔ verdict o.agent.map n (o.agent.decided fuel o.flags n call.2) =
      verdict o.agent.map n call.2 := by
  unfold Agrees Agent.decided
  constructor
  · intro h
    split
    · next hc =>
      cases hflags : o.flags n with
      | none => rfl
      | some f => exact h n hn hc f hflags
    · rfl
  · intro h n' hn' hc f hflags
    obtain rfl : n = n' := Except.ok.inj (hn.symm.trans hn')
    rwa [if_pos hc, show o.flags n = some f from hflags] at h

end Observed

/-- **When the cache is transparent**: in every run of calls whose names fit the buffer every call
returns, and its verdict is the one without the cache if and only if the call agrees with the cached
flag word. -/
theorem checkPermission_transparent_iff {map : PolicyMap} {cwd : CStr} {seed : UInt64} {fuel : Nat}
    {calls : List (CStr × CInt)} (hf : 65 < fuel) (hfits : ∀ call ∈ calls, NameFits cwd call.1) :
    (trace (Observed.check fuel) ⟨agentInit map cwd seed, fun _ => none⟩ calls).map (fun e => e.2.1) =
      calls ∧
    ∀ e ∈ trace (Observed.check fuel) ⟨agentInit map cwd seed, fun _ => none⟩ calls,
      checkPermissionUncached map cwd e.2.1.1 e.2.1.2 = .ok e.2.2 ↔ e.1.Agrees fuel e.2.1 := by
  have hstep : ∀ o : Observed, Running map cwd o.agent o.flags → ∀ call ∈ calls,
      ∃ ret o', o.check fuel call = .ok (ret, o') ∧ Running map cwd o'.agent o'.flags := by
    intro o h call hcall
    obtain ⟨n, hn⟩ := nameFits_iff.mp (hfits call hcall)
    exact ⟨_, Observed.check_spec h hf hn⟩
  have hcomplete := trace_complete (s := ⟨agentInit map cwd seed, fun _ => none⟩)
    (fun o : Observed => Running map cwd o.agent o.flags) hstep running_agentInit
  refine ⟨hcomplete, fun e he => ?_⟩
  have hmem : ∀ e ∈ trace (Observed.check fuel) ⟨agentInit map cwd seed, fun _ => none⟩ calls,
      e.2.1 ∈ calls := fun e he => by rw [← hcomplete]; exact List.mem_map_of_mem he
  obtain ⟨h, o', hreply⟩ := trace_inv (fun _ call => call ∈ calls)
    (fun o : Observed => Running map cwd o.agent o.flags)
    (fun o call ret o' h hcall hr => by
      obtain ⟨ret', o'', hr', h'⟩ := hstep o h call hcall
      cases hr.symm.trans hr'
      exact h') running_agentInit hmem e he
  obtain ⟨n, hn⟩ := nameFits_iff.mp (hfits _ (hmem e he))
  obtain ⟨o'', hcheck, -⟩ := Observed.check_spec h hf hn
  obtain ⟨hret, -⟩ := Prod.mk.inj (Except.ok.inj (hreply.symm.trans hcheck))
  rw [Observed.agrees_iff (h.cwd_eq ▸ hn), h.map_eq, hret]
  have huncached : checkPermissionUncached map cwd e.2.1.1 e.2.1.2 = .ok (verdict map n e.2.1.2) :=
    Exec.bind_ok.mpr ⟨n, hn, rfl⟩
  rw [huncached, Except.ok.injEq]
  exact eq_comm

/-- A file that may only be read, opened to read and then, with its name in the cache, to write. -/
theorem checkPermission_transparent_iff_two :
    (trace (Observed.check 66)
      ⟨agentInit (Finmap.singleton (.ofChars ['/', 'f']) O_READ) slash 0, fun _ => none⟩
      [(.ofChars ['/', 'f'], O_RDONLY), (.ofChars ['/', 'f'], O_WRONLY)]).map (fun e => e.2.1) =
        [(.ofChars ['/', 'f'], O_RDONLY), (.ofChars ['/', 'f'], O_WRONLY)] ∧
    ∀ e ∈ trace (Observed.check 66)
      ⟨agentInit (Finmap.singleton (.ofChars ['/', 'f']) O_READ) slash 0, fun _ => none⟩
      [(.ofChars ['/', 'f'], O_RDONLY), (.ofChars ['/', 'f'], O_WRONLY)],
      checkPermissionUncached (Finmap.singleton (.ofChars ['/', 'f']) O_READ) slash e.2.1.1 e.2.1.2 =
        .ok e.2.2 ↔ e.1.Agrees 66 e.2.1 :=
  checkPermission_transparent_iff (by decide) (by decide)

/-- A file that may only be read: once it was opened to read, the cache lets it be opened to
write. -/
theorem checkPermission_stale :
    ∃ a a', checkPermission 66
        (agentInit (Finmap.singleton (.ofChars ['/', 'f']) O_READ) slash 0)
        (.ofChars ['/', 'f']) O_RDONLY = .ok (true, a) ∧
      checkPermission 66 a (.ofChars ['/', 'f']) O_WRONLY = .ok (true, a') ∧
      checkPermissionUncached (Finmap.singleton (.ofChars ['/', 'f']) O_READ) slash
        (.ofChars ['/', 'f']) O_WRONLY = .ok false := by
  obtain ⟨⟨ret, a⟩, h, hret⟩ := Exec.of_returned
    (x := checkPermission 66 (agentInit (Finmap.singleton (.ofChars ['/', 'f']) O_READ) slash 0)
      (.ofChars ['/', 'f']) O_RDONLY)
    (p := fun r => r.1 &&
      (checkPermission 66 r.2 (.ofChars ['/', 'f']) O_WRONLY).returned fun r' => r'.1) (by decide)
  obtain ⟨rfl, hsecond⟩ := (Bool.and_eq_true _ _).mp hret
  obtain ⟨⟨ret', a'⟩, h', rfl⟩ := Exec.of_returned hsecond
  exact ⟨a, a', h, h', by decide⟩

end Cnpv
