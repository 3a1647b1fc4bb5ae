import Cnpv.Agent.Check

/-!
# The intercepted calls (`ns_agent/agent.c`)

`open`, `open64`, `openat`, `openat64` and `fopen` check their pathname and then make the real call,
or fail with `errno` 134. `fopen` passes `FOPEN_MODE_FLAG` to the check, which tests for it before
it tests for `O_FORBIDDEN`: a forbidden file stays closed if and only if no call with this flag word
finds its name uncached (`forbidden_iff`). The first call for the file can be an `fopen`
(`forbidden_fails`).

The check looks at the access mode alone. So a file without the write right is not modified by an
`open`, but for the flag word of `fopen` and for `O_TRUNC` on a file that may be read
(`writeRight_iff`).
-/

namespace Cnpv

open CLib

def O_CREAT : CInt := 0o100
def O_TMPFILE_BITS : CInt := 0o20200000

/-- `__OPEN_NEEDS_MODE`; `O_TMPFILE_BITS` is `__O_TMPFILE`. -/
def openNeedsMode (oflag : CInt) : Bool :=
  oflag &&& O_CREAT ≠ 0 ∨ oflag &&& O_TMPFILE_BITS = O_TMPFILE_BITS

/-- `FUNC_TYPE` -/
inductive FuncType
  | open | open64 | openat | openat64 | fopen
  deriving DecidableEq, Repr

/-- `struct handle_args` -/
structure HandleArgs where
  type : FuncType
  pathname : CStr
  flags : CInt
  mode : CInt
  dirfd : CInt := 0

/-- A call of the real function. The mode is passed if the flags need it. -/
inductive RealCall
  | open (pathname : CStr) (flags : CInt) (mode : Option CInt)
  | open64 (pathname : CStr) (flags : CInt) (mode : Option CInt)
  | openat (dirfd : CInt) (pathname : CStr) (flags : CInt) (mode : Option CInt)
  | openat64 (dirfd : CInt) (pathname : CStr) (flags : CInt) (mode : Option CInt)
  | fopen (pathname mode : CStr)
  deriving DecidableEq

/-- What an intercepted call does: it returns what the real call returns, or it fails (-1 or
`NULL`) and sets `errno`. -/
inductive Reply
  | real (call : RealCall)
  | failed (errno : CInt)
  deriving DecidableEq

/-- `handle_request`, with the `check_permission` that it calls. -/
def handleRequest {σ : Type} (check : σ → CStr → CInt → Exec (Bool × σ)) (s : σ) (args : HandleArgs) :
    Exec (Reply × σ) := do
  let (ok, s) ← check s args.pathname args.flags
  let mode := if openNeedsMode args.flags then some args.mode else none
  if ok = false then .ok (.failed 134, s)
  else match args.type with
    | .open => .ok (.real (.open args.pathname args.flags mode), s)
    | .openat => .ok (.real (.openat args.dirfd args.pathname args.flags mode), s)
    | .open64 => .ok (.real (.open64 args.pathname args.flags mode), s)
    | .openat64 => .ok (.real (.openat64 args.dirfd args.pathname args.flags mode), s)
    | .fopen => .ok (.failed 134, s)

/-- An intercepted call. The last argument of the first four is the variadic one. -/
inductive Call
  | open (pathname : CStr) (flags mode : CInt)
  | open64 (pathname : CStr) (flags mode : CInt)
  | openat (dirfd : CInt) (pathname : CStr) (flags mode : CInt)
  | openat64 (dirfd : CInt) (pathname : CStr) (flags mode : CInt)
  | fopen (pathname mode : CStr)

namespace Call

def pathname : Call → CStr
  | .open pathname _ _ => pathname
  | .open64 pathname _ _ => pathname
  | .openat _ pathname _ _ => pathname
  | .openat64 _ pathname _ _ => pathname
  | .fopen pathname _ => pathname

/-- The flag word that is checked. -/
def oflag : Call → CInt
  | .open _ flags _ => flags
  | .open64 _ flags _ => flags
  | .openat _ _ flags _ => flags
  | .openat64 _ _ flags _ => flags
  | .fopen _ _ => FOPEN_MODE_FLAG

/-- `data.mode` -/
def modeArg (flags mode : CInt) : CInt := if openNeedsMode flags then mode else 0

/-- The call, after `init_preload`, with the `check_permission` that it calls. -/
def runWith {σ : Type} (check : σ → CStr → CInt → Exec (Bool × σ)) (s : σ) : Call → Exec (Reply × σ)
  | .open pathname flags mode =>
    handleRequest check s { type := .open, pathname, flags, mode := modeArg flags mode }
  | .open64 pathname flags mode =>
    handleRequest check s { type := .open64, pathname, flags, mode := modeArg flags mode }
  | .openat dirfd pathname flags mode =>
    handleRequest check s { type := .openat, pathname, flags, mode := modeArg flags mode, dirfd }
  | .openat64 dirfd pathname flags mode =>
    handleRequest check s { type := .openat64, pathname, flags, mode := modeArg flags mode, dirfd }
  | .fopen pathname mode => do
    let (ok, s) ← check s pathname FOPEN_MODE_FLAG
    if ok = false then .ok (.failed 134, s) else .ok (.real (.fopen pathname mode), s)

/-- The call, after `init_preload`. -/
def run (fuel : Nat) (a : Agent) (call : Call) : Exec (Reply × Agent) :=
  call.runWith (checkPermission fuel) a

/-- Every call checks its pathname, and makes the real call if the check allows it. -/
theorem runWith_of_check {σ : Type} {check : σ → CStr → CInt → Exec (Bool × σ)} {s s' : σ} {call : Call}
    {ret : Bool} (h : check s call.pathname call.oflag = .ok (ret, s')) :
    ∃ reply, call.runWith check s = .ok (reply, s') ∧
      (ret = true ∧ (∃ real, reply = .real real) ∨ ret = false ∧ reply = .failed 134) := by
  cases call <;> simp only [pathname, oflag] at h <;>
    cases ret <;> simp [runWith, handleRequest, h]

section Map

variable {σ τ : Type} {check : σ → CStr → CInt → Exec (Bool × σ)}
  {check' : τ → CStr → CInt → Exec (Bool × τ)} {f : τ → σ}
  (h : ∀ t pathname oflag, (fun r => (r.1, f r.2)) <$> check' t pathname oflag =
    check (f t) pathname oflag)

include h

theorem handleRequest_map (t : τ) (args : HandleArgs) :
    (fun r => (r.1, f r.2)) <$> handleRequest check' t args = handleRequest check (f t) args := by
  unfold handleRequest
  rw [← h]
  cases check' t args.pathname args.flags with
  | error e => rfl
  | ok r =>
    obtain ⟨ret, t'⟩ := r
    cases ret with
    | false => rfl
    | true => cases args.type <;> rfl

/-- Checks that differ only in their globals give the same calls. -/
theorem runWith_map (t : τ) (call : Call) :
    (fun r => (r.1, f r.2)) <$> call.runWith check' t = call.runWith check (f t) := by
  cases call with
  | «open» | open64 | openat | openat64 => exact handleRequest_map h t _
  | fopen pathname mode =>
    simp only [runWith, ← h]
    cases check' t pathname FOPEN_MODE_FLAG with
    | error e => rfl
    | ok r =>
      obtain ⟨ret, t'⟩ := r
      cases ret <;> rfl

end Map

/-- A call that returns was checked. -/
theorem check_of_runWith {σ : Type} {check : σ → CStr → CInt → Exec (Bool × σ)} {s : σ} {call : Call}
    {r : Reply × σ} (h : call.runWith check s = .ok r) :
    ∃ ret, check s call.pathname call.oflag = .ok (ret, r.2) := by
  obtain ⟨ret, s', hcheck⟩ : ∃ ret s', check s call.pathname call.oflag = .ok (ret, s') := by
    cases call <;> obtain ⟨r', hr', -⟩ := Exec.bind_ok.mp h <;> exact ⟨r'.1, r'.2, hr'⟩
  obtain ⟨reply, hrun, -⟩ := runWith_of_check hcheck
  cases h.symm.trans hrun
  exact ⟨ret, hcheck⟩

variable {fuel : Nat} {a a' : Agent} {call : Call}

/-- **An intercepted call** makes the real call if the policy allows the flag word that decides it,
and fails if not. -/
theorem run_spec {map : PolicyMap} {cwd : CStr} {flags : CStr → Option CInt}
    (h : Running map cwd a flags) (hf : 65 < fuel) {n : CStr}
    (hn : checkName cwd call.pathname = .ok n) :
    ∃ reply a', call.run fuel a = .ok (reply, a') ∧
      ((∃ errno, reply = .failed errno) ↔
        verdict map n (a.decided fuel flags n call.oflag) = false) ∧
      Running map cwd a' (Function.update flags n (some (a.decided fuel flags n call.oflag))) := by
  obtain ⟨a', hcheck, h'⟩ := h.check hf hn call.oflag
  obtain ⟨reply, hrun, ⟨hret, real, rfl⟩ | ⟨hret, rfl⟩⟩ := runWith_of_check hcheck
  · exact ⟨_, a', hrun, by simp [hret], h'⟩
  · exact ⟨_, a', hrun, by simp [hret], h'⟩

/-- A call that returns has a name. -/
theorem checkName_of_run {r : Reply × Agent} (h : call.run fuel a = .ok r) :
    ∃ n, checkName a.cwd call.pathname = .ok n := by
  obtain ⟨ret, hcheck⟩ := check_of_runWith h
  obtain ⟨n, hn, -⟩ := Exec.bind_ok.mp hcheck
  exact ⟨n, hn⟩

end Call

/-! ## A forbidden file -/

section Forbidden

variable {map : PolicyMap} {cwd P : CStr} {permission : CInt} {seed : UInt64} {fuel : Nat} {a : Agent}
  {calls : List Call}

/-- The policy on a forbidden name: the flag word of `fopen` is tested first. -/
theorem verdict_forbidden (hP : map.lookup P = some permission) (hforb : permission &&& O_FORBIDDEN ≠ 0)
    {pathname : CStr} (hn : checkName cwd pathname = .ok P) (oflag : CInt) :
    verdict map P oflag = decide (oflag = FOPEN_MODE_FLAG) := by
  rw [verdict_of_checkName hn, hP]
  show allows permission oflag = _
  unfold allows
  by_cases h : oflag = FOPEN_MODE_FLAG
  · rw [if_pos h, decide_eq_true h]
  · rw [if_neg h, if_pos hforb, decide_eq_false h]

theorem Running.run {flags : CStr → Option CInt} (h : Running map cwd a flags) (hf : 65 < fuel)
    {call : Call} {reply : Reply} {a' : Agent} (hr : call.run fuel a = .ok (reply, a')) :
    ∃ n, checkName cwd call.pathname = .ok n ∧
      ((∃ errno, reply = .failed errno) ↔
        verdict map n (a.decided fuel flags n call.oflag) = false) ∧
      Running map cwd a' (Function.update flags n (some (a.decided fuel flags n call.oflag))) := by
  obtain ⟨n, hn⟩ := Call.checkName_of_run hr
  rw [h.cwd_eq] at hn
  obtain ⟨reply', a'', hr', hfailed, h'⟩ := Call.run_spec h hf hn
  cases hr.symm.trans hr'
  exact ⟨n, hn, hfailed, h'⟩

/-- A call for `P` with the flag word of `fopen` finds `P` in the cache. -/
def FindsCached (fuel : Nat) (cwd P : CStr) (a : Agent) (call : Call) : Prop :=
  checkName cwd call.pathname = .ok P → call.oflag = FOPEN_MODE_FLAG → a.cached fuel P

/-- While such calls find `P` cached, no other flag word than theirs decides a call for `P`. -/
theorem FindsCached.decided_ne {flags : CStr → Option CInt} {call : Call}
    (h : FindsCached fuel cwd P a call) (hs : a.Sound flags) (hf : 65 < fuel)
    (hn : checkName cwd call.pathname = .ok P) (hflags : ∀ f ∈ flags P, f ≠ FOPEN_MODE_FLAG) :
    a.decided fuel flags P call.oflag ≠ FOPEN_MODE_FLAG := by
  unfold Agent.decided
  split
  · next hcached =>
    obtain ⟨f, hf'⟩ :=
      hs.flags_of_cached (Nat.lt_of_succ_lt hf) (keyFits_of_checkName hn) hcached
    rw [hf']
    exact hflags f hf'
  · next hcached => exact fun e => hcached (h hn e)

/-- Before each call of a run, the agent runs. -/
theorem running_trace (hf : 65 < fuel) :
    ∀ e ∈ trace (Call.run fuel) (agentInit map cwd seed) calls,
      (∃ flags, Running map cwd e.1 flags) ∧ ∃ a', e.2.1.run fuel e.1 = .ok (e.2.2, a') := by
  refine trace_inv (fun _ _ => True) (fun a => ∃ flags, Running map cwd a flags) ?_
    ⟨_, running_agentInit⟩ fun _ _ => trivial
  rintro a call reply a' ⟨flags, h⟩ - hr
  obtain ⟨n, -, -, h'⟩ := h.run hf hr
  exact ⟨_, h'⟩

/-- While each call for `P` with the flag word of `fopen` finds it cached, the flag word that decided
the latest call for `P` is another one. -/
theorem running_trace_of_findsCached (hf : 65 < fuel)
    (h : ∀ e ∈ trace (Call.run fuel) (agentInit map cwd seed) calls,
      FindsCached fuel cwd P e.1 e.2.1) :
    ∀ e ∈ trace (Call.run fuel) (agentInit map cwd seed) calls,
      (∃ flags, Running map cwd e.1 flags ∧ ∀ f ∈ flags P, f ≠ FOPEN_MODE_FLAG) ∧
        ∃ a', e.2.1.run fuel e.1 = .ok (e.2.2, a') := by
  refine trace_inv (FindsCached fuel cwd P)
    (fun a => ∃ flags, Running map cwd a flags ∧ ∀ f ∈ flags P, f ≠ FOPEN_MODE_FLAG) ?_
    ⟨_, running_agentInit, by simp⟩ h
  rintro a call reply a' ⟨flags, hrunning, hflags⟩ hcond hr
  obtain ⟨n, hn, -, h'⟩ := hrunning.run hf hr
  refine ⟨_, h', fun f hfl => ?_⟩
  by_cases hnP : P = n
  · subst hnP
    rw [Function.update_self, Option.mem_def, Option.some.injEq] at hfl
    exact hfl ▸ hcond.decided_ne hrunning.sound hf hn hflags
  · rw [Function.update_of_ne hnP] at hfl
    exact hflags f hfl

/-- **When a forbidden file stays closed**: every call for it fails if and only if every call for it
with the flag word of `fopen` finds it in the cache. -/
theorem forbidden_iff (hf : 65 < fuel) (hP : map.lookup P = some permission)
    (hforb : permission &&& O_FORBIDDEN ≠ 0) :
    (∀ e ∈ trace (Call.run fuel) (agentInit map cwd seed) calls,
      checkName cwd e.2.1.pathname = .ok P → ∃ errno, e.2.2 = .failed errno) ↔
    ∀ e ∈ trace (Call.run fuel) (agentInit map cwd seed) calls,
      FindsCached fuel cwd P e.1 e.2.1 := by
  constructor
  · intro h e he hn hoflag
    obtain ⟨⟨flags, hrunning⟩, a', hr⟩ := running_trace hf e he
    obtain ⟨n, hn', hfailed, -⟩ := hrunning.run hf hr
    obtain rfl : n = P := Except.ok.inj (hn'.symm.trans hn)
    by_contra hcached
    have hv := hfailed.mp (h e he hn)
    rw [verdict_forbidden hP hforb hn, Agent.decided, if_neg hcached, hoflag] at hv
    exact absurd hv (by decide)
  · intro h e he hn
    obtain ⟨⟨flags, hrunning, hflags⟩, a', hr⟩ := running_trace_of_findsCached hf h e he
    obtain ⟨n, hn', hfailed, -⟩ := hrunning.run hf hr
    obtain rfl : n = P := Except.ok.inj (hn'.symm.trans hn)
    have hne := (h e he).decided_ne hrunning.sound hf hn hflags
    rw [hfailed, verdict_forbidden hP hforb hn]
    exact decide_eq_false hne

/-- A run of `open` and `fopen` on a forbidden file. -/
theorem forbidden_iff_two :
    (∀ e ∈ trace (Call.run 66)
        (agentInit (Finmap.singleton (.ofChars ['/', 'p']) O_FORBIDDEN) slash 0)
        [.open (.ofChars ['/', 'p']) O_RDONLY 0, .fopen (.ofChars ['/', 'p']) (.ofChars ['r'])],
      checkName slash e.2.1.pathname = .ok (.ofChars ['/', 'p']) → ∃ errno, e.2.2 = .failed errno) ↔
    ∀ e ∈ trace (Call.run 66)
        (agentInit (Finmap.singleton (.ofChars ['/', 'p']) O_FORBIDDEN) slash 0)
        [.open (.ofChars ['/', 'p']) O_RDONLY 0, .fopen (.ofChars ['/', 'p']) (.ofChars ['r'])],
      FindsCached 66 slash (.ofChars ['/', 'p']) e.1 e.2.1 :=
  forbidden_iff (by decide) Finmap.lookup_singleton_eq (by decide)

/-- The first call for a forbidden file is an `fopen`: it reaches the real `fopen`. -/
theorem forbidden_fails :
    ∃ a, (Call.fopen (.ofChars ['/', 'p']) (.ofChars ['r'])).run 66
        (agentInit (Finmap.singleton (.ofChars ['/', 'p']) O_FORBIDDEN) slash 0) =
      .ok (.real (.fopen (.ofChars ['/', 'p']) (.ofChars ['r'])), a) := by
  obtain ⟨⟨reply, a⟩, h, hreply⟩ := Exec.of_returned
    (x := (Call.fopen (.ofChars ['/', 'p']) (.ofChars ['r'])).run 66
      (agentInit (Finmap.singleton (.ofChars ['/', 'p']) O_FORBIDDEN) slash 0))
    (p := fun r => r.1 = .real (.fopen (.ofChars ['/', 'p']) (.ofChars ['r']))) (by decide)
  obtain rfl := of_decide_eq_true hreply
  exact ⟨a, h⟩

end Forbidden

/-! ## The write right -/

section WriteRight

variable {map : PolicyMap} {cwd pathname n : CStr} {permission : CInt}

def O_TRUNC : CInt := 0o1000

/-- What is allowed without the write right. -/
theorem allows_of_not_write (hwrite : permission &&& O_WRITE = 0) (oflag : CInt) :
    allows permission oflag = true ↔ oflag = FOPEN_MODE_FLAG ∨
      permission &&& O_FORBIDDEN = 0 ∧ oflag &&& 0x03 = O_RDONLY ∧ permission &&& O_READ ≠ 0 := by
  unfold allows
  by_cases hflag : oflag = FOPEN_MODE_FLAG
  · rw [if_pos hflag]
    exact iff_of_true rfl (.inl hflag)
  rw [if_neg hflag]
  by_cases hforb : permission &&& O_FORBIDDEN = 0
  · rw [if_neg (not_not.mpr hforb)]
    by_cases hmode : oflag &&& 0x03 = O_RDONLY
    · rw [if_pos hmode, decide_eq_true_iff]
      exact ⟨fun hread => .inr ⟨hforb, hmode, hread⟩, fun h => (h.resolve_left hflag).2.2⟩
    · -- The other access modes need the write right.
      rw [if_neg hmode]
      refine iff_of_false ?_ fun h => hmode (h.resolve_left hflag).2.1
      split_ifs
      · exact fun h => of_decide_eq_true h hwrite
      · exact fun h => (of_decide_eq_true h).2 hwrite
      · exact not_false
  · rw [if_pos hforb]
    exact iff_of_false Bool.false_ne_true fun h => hforb (h.resolve_left hflag).1

/-- **When a file without the write right is not modified**, by a call with the flag word `oflag` that
the check allows: if `oflag` is not the flag word of `fopen`, and does not truncate a file that may be
read, and only then. -/
theorem writeRight_iff (hname : checkName cwd pathname = .ok n) (hrule : map.lookup n = some permission)
    (hwrite : permission &&& O_WRITE = 0) (oflag : CInt) :
    (checkPermissionUncached map cwd pathname oflag = .ok true →
      oflag &&& 0x03 = O_RDONLY ∧ oflag &&& O_TRUNC = 0) ↔
    oflag ≠ FOPEN_MODE_FLAG ∧ (oflag &&& 0x03 = O_RDONLY → oflag &&& O_TRUNC ≠ 0 →
      permission &&& O_FORBIDDEN = 0 → permission &&& O_READ = 0) := by
  have hallows : checkPermissionUncached map cwd pathname oflag = .ok true ↔
      allows permission oflag = true := by
    rw [checkPermissionUncached, hname, Exec.ok_bind, verdict_of_checkName hname, hrule, Except.ok.injEq]
    rfl
  rw [hallows, allows_of_not_write hwrite]
  constructor
  · intro h
    refine ⟨?_, fun hmode htrunc hforb => ?_⟩
    · rintro rfl
      exact absurd (h (.inl rfl)).1 (by decide)
    · by_contra hread
      exact htrunc (h (.inr ⟨hforb, hmode, hread⟩)).2
  · rintro ⟨hflag, htrunc⟩ (heq | ⟨hforb, hmode, hread⟩)
    · exact absurd heq hflag
    · refine ⟨hmode, ?_⟩
      by_contra hne
      exact hread (htrunc hmode hne hforb)

/-- A file that may be read, opened to read. -/
theorem writeRight_iff_read :
    (checkPermissionUncached (Finmap.singleton (.ofChars ['/', 'f']) O_READ) slash
        (.ofChars ['/', 'f']) O_RDONLY = .ok true →
      O_RDONLY &&& 0x03 = O_RDONLY ∧ O_RDONLY &&& O_TRUNC = 0) ↔
    O_RDONLY ≠ FOPEN_MODE_FLAG ∧ (O_RDONLY &&& 0x03 = O_RDONLY → O_RDONLY &&& O_TRUNC ≠ 0 →
      O_READ &&& O_FORBIDDEN = 0 → O_READ &&& O_READ = 0) :=
  writeRight_iff (n := .ofChars ['/', 'f']) (by decide) Finmap.lookup_singleton_eq (by decide) O_RDONLY

/-- Without the write right, the check allows `O_TRUNC` and, through the flag word of `fopen`, an access
mode that is not `O_RDONLY`. -/
theorem writeRight_fails :
    checkPermissionUncached (Finmap.singleton (.ofChars ['/', 'f']) O_READ) slash
      (.ofChars ['/', 'f']) (O_RDONLY ||| O_TRUNC) = .ok true ∧
    (O_RDONLY ||| O_TRUNC) &&& O_TRUNC ≠ 0 ∧
    checkPermissionUncached (Finmap.singleton (.ofChars ['/', 'f']) O_READ) slash
      (.ofChars ['/', 'f']) 0xffff = .ok true ∧
    (0xffff : CInt) &&& 0x03 ≠ O_RDONLY := by
  decide

end WriteRight

end Cnpv
