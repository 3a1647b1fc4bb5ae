import Cnpv.Agent.Check
import Cnpv.Lru.Invariant

/-!
# Where the verdicts come from

Every verdict of a run of `check_permission` calls is the one that the policy gives the name of the
call, with the flag word of the latest call on this name that consulted the policy
(`checkPermission_genuine`). The invariant says it of the flag words that `Agent.Sound` has for the
cached names: they are those of these calls.
-/

namespace Cnpv

open CLib

/-- `check_permission(pathname, oflag)` for `call = (pathname, oflag)`. -/
def Agent.check (fuel : Nat) (a : Agent) (call : CStr × CInt) : Exec (Bool × Agent) :=
  checkPermission fuel a call.1 call.2

/-- A call of a trace: the agent before it, its arguments and its verdict. -/
abbrev Checked := Agent × (CStr × CInt) × Bool

/-- The call is on the name `n`, and does not find it in the cache: it consults the policy. -/
def Consults (fuel : Nat) (n : CStr) (e : Checked) : Prop :=
  checkName e.1.cwd e.2.1.1 = .ok n ∧ e.1.cached fuel n = false

instance (fuel : Nat) (n : CStr) (e : Checked) : Decidable (Consults fuel n e) :=
  inferInstanceAs (Decidable (_ ∧ _))

/-- The latest call on the name `n` that consulted the policy. -/
def lastConsult (fuel : Nat) (n : CStr) (es : List Checked) : Option Checked :=
  (es.filter fun e => Consults fuel n e).getLast?

/-- The flag word of that call. -/
def consultFlags (fuel : Nat) (es : List Checked) (n : CStr) : Option CInt :=
  (lastConsult fuel n es).map fun e => e.2.1.2

variable {map : PolicyMap} {cwd n n' : CStr} {a : Agent} {fuel : Nat} {es : List Checked} {e : Checked}

/-! ## The flag words -/

theorem lastConsult_snoc (fuel : Nat) (n : CStr) (es : List Checked) (e : Checked) :
    lastConsult fuel n (es ++ [e]) = if Consults fuel n e then some e else lastConsult fuel n es := by
  unfold lastConsult
  rw [List.filter_append, List.filter_singleton]
  by_cases h : Consults fuel n e <;> simp [h]

/-- A call on another name does not consult the policy about `n`. -/
theorem not_consults_of_ne (hn : checkName e.1.cwd e.2.1.1 = .ok n) (hne : n' ≠ n) :
    ¬ Consults fuel n' e := by
  rintro ⟨hn', -⟩
  exact hne (Except.ok.inj (hn'.symm.trans hn))

/-- The flag words after a call: its name has the one that decides it. -/
theorem consultFlags_snoc (h : e.1.Sound (consultFlags fuel es)) (hf : 64 < fuel)
    (hn : checkName e.1.cwd e.2.1.1 = .ok n) :
    consultFlags fuel (es ++ [e]) = Function.update (consultFlags fuel es) n
      (some (e.1.decided fuel (consultFlags fuel es) n e.2.1.2)) := by
  funext n'
  by_cases hne : n' = n
  · subst hne
    rw [Function.update_self, consultFlags, lastConsult_snoc, Agent.decided]
    cases hc : e.1.cached fuel n' with
    | false => rw [if_pos ⟨hn, hc⟩]; rfl
    | true =>
      have hcons : ¬ Consults fuel n' e := fun h => absurd (hc.symm.trans h.2) (by decide)
      obtain ⟨f, hflags⟩ := h.flags_of_cached hf (keyFits_of_checkName hn) hc
      rw [if_neg hcons, if_pos rfl, hflags]
      exact hflags
  · rw [Function.update_of_ne hne, consultFlags, lastConsult_snoc, if_neg (not_consults_of_ne hn hne)]
    rfl

/-! ## The stored values -/

/-- Every value in the cache is the string of a verdict. -/
def Agent.StoresVerdicts (a : Agent) : Prop :=
  ∃ t, a.cache.Holds t ∧ ∀ e ∈ t.entries, ∃ ret, e.value.map Buffer.str = some (verdictStr ret)

/-- On the items of the cache. -/
theorem Agent.StoresVerdicts.chained (h : a.StoresVerdicts) {p : Addr} (hp : a.cache.lruc.Chained p) :
    ∃ ret, (a.cache.lruc.heap p).value.map Buffer.str = some (verdictStr ret) := by
  obtain ⟨t, ⟨⟨chains, free, hrep, rfl⟩, -⟩, hvalues⟩ := h
  obtain ⟨i, hi⟩ := hrep.chained_iff.mp hp
  exact hvalues (a.cache.lruc.heap p).entry (hrep.mem_entries.mpr ⟨i, p, hi, rfl⟩)

/-- A call keeps it. -/
theorem Agent.StoresVerdicts.check (h : a.StoresVerdicts) (hf : 65 < fuel) {pathname : CStr}
    {oflag : CInt} {ret : Bool} {a' : Agent}
    (hr : checkPermission fuel a pathname oflag = .ok (ret, a')) : a'.StoresVerdicts := by
  obtain ⟨t, ht, hvalues⟩ := h
  obtain ⟨n, hn, hr⟩ := Exec.bind_ok.mp hr
  have hk := keyFits_of_checkName hn
  obtain ⟨⟨value, c⟩, hget, hr⟩ := Exec.bind_ok.mp hr
  obtain ⟨value', c', hget', hspec⟩ := cacheGet_spec ht (Nat.lt_of_succ_lt hf) hk none
  cases hget.symm.trans hget'
  have huse : ∃ t, c.Holds t ∧ ∀ e ∈ t.entries, ∃ ret, e.value.map Buffer.str = some (verdictStr ret) := by
    rcases hspec with ⟨e, he, -, -, h'⟩ | ⟨-, -, rfl⟩
    · refine ⟨t.use e, h', fun e' he' => ?_⟩
      rcases Multiset.mem_cons.mp he' with rfl | he'
      · exact hvalues e he
      · exact hvalues e' (Multiset.mem_of_mem_erase he')
    · exact ⟨t, ht, hvalues⟩
  simp only at hr
  split_ifs at hr
  · cases hr; exact huse
  · cases hr; exact huse
  · obtain ⟨c₂, hinsert, hr⟩ := Exec.bind_ok.mp hr
    cases hr
    obtain ⟨t', ht', hvalues'⟩ := huse
    obtain ⟨c₃, hinsert', t'', ht'', hs⟩ := cacheInsert_spec ht' hf hk (verdictStr (verdict a.map n oflag))
    cases hinsert.symm.trans hinsert'
    refine ⟨t'', ht'', fun e he => ?_⟩
    rcases hs.mem_or he with he | hvalue
    · exact hvalues' e he
    · exact ⟨verdict a.map n oflag, by rw [hvalue]; exact congrArg some (CStr.ofBytes_buf _)⟩

/-! ## All calls -/

section Run

variable {seed : UInt64} {calls : List (CStr × CInt)}

/-- Every call of a run returns. -/
theorem check_complete (hf : 65 < fuel) (hfits : ∀ call ∈ calls, NameFits cwd call.1) :
    (trace (Agent.check fuel) (agentInit map cwd seed) calls).map (fun e => e.2.1) = calls := by
  refine trace_complete (fun a => ∃ flags, Running map cwd a flags) ?_ ⟨_, running_agentInit⟩
  rintro a ⟨flags, h⟩ call hmem
  obtain ⟨n, hn⟩ := nameFits_iff.mp (hfits call hmem)
  obtain ⟨a', hcheck, h'⟩ := h.check hf hn call.2
  exact ⟨_, a', hcheck, _, h'⟩

/-- What holds of a call of a run: its verdict is that of the policy on the flag word of the latest call
on its name that consulted it, and the cache stores verdicts. The invariant: the flag words of the
cached names are those of the latest consultations. -/
theorem check_history (hf : 65 < fuel) (hfits : ∀ call ∈ calls, NameFits cwd call.1)
    {pre post : List Checked}
    (htrace : trace (Agent.check fuel) (agentInit map cwd seed) calls = pre ++ e :: post) :
    (∃ n e', checkName cwd e.2.1.1 = .ok n ∧ lastConsult fuel n (pre ++ [e]) = some e' ∧
      e.2.2 = verdict map n e'.2.1.2) ∧
    (∀ e' ∈ pre ++ [e], e'.1.cwd = cwd) ∧
    ∃ a', Agent.check fuel e.1 e.2.1 = .ok (e.2.2, a') ∧ a'.StoresVerdicts := by
  have hcall : ∀ call ∈ calls, ∃ n, checkName cwd call.1 = .ok n := fun call h =>
    nameFits_iff.mp (hfits call h)
  have hstep : ∀ pre a ret a', ∀ call ∈ calls,
      Running map cwd a (consultFlags fuel pre) ∧ a.StoresVerdicts ∧ (∀ e' ∈ pre, e'.1.cwd = cwd) →
      Agent.check fuel a call = .ok (ret, a') →
      Running map cwd a' (consultFlags fuel (pre ++ [(a, call, ret)])) ∧ a'.StoresVerdicts ∧
        ∀ e' ∈ pre ++ [(a, call, ret)], e'.1.cwd = cwd := by
    intro pre a ret a' call hmem ⟨h, hvalues, hcwd⟩ hr
    obtain ⟨n, hn⟩ := hcall call hmem
    obtain ⟨a'', hcheck, h'⟩ := h.check hf hn call.2
    have hflags : consultFlags fuel (pre ++ [(a, call, ret)]) = _ :=
      consultFlags_snoc h.sound (Nat.lt_of_succ_lt hf) (h.cwd_eq ▸ hn)
    cases hr.symm.trans hcheck
    rw [hflags]
    exact ⟨h', hvalues.check hf hr, List.forall_mem_append.mpr ⟨hcwd, by simpa using h.cwd_eq⟩⟩
  have hinit : (agentInit map cwd seed).StoresVerdicts := ⟨_, holds_cacheInit seed, by simp⟩
  obtain ⟨⟨h, -⟩, a', hr, -, hvalues, hcwd⟩ := trace_history
    (fun pre a => Running map cwd a (consultFlags fuel pre) ∧ a.StoresVerdicts ∧
      ∀ e' ∈ pre, e'.1.cwd = cwd)
    hstep ⟨running_agentInit, hinit, fun e' he' => by cases he'⟩ htrace
  refine ⟨?_, hcwd, a', hr, hvalues⟩
  have hmem : e ∈ trace (Agent.check fuel) (agentInit map cwd seed) calls := by simp [htrace]
  obtain ⟨n, hn⟩ := hcall _ (mem_of_mem_trace hmem)
  obtain ⟨a'', hcheck, -⟩ := h.check hf hn e.2.1.2
  have hret : e.2.2 = _ := congrArg Prod.fst (Except.ok.inj (hr.symm.trans hcheck))
  have hflag := congrFun (consultFlags_snoc h.sound (Nat.lt_of_succ_lt hf) (h.cwd_eq ▸ hn)) n
  rw [Function.update_self] at hflag
  obtain ⟨e', hlast, he'⟩ := Option.map_eq_some_iff.mp hflag
  exact ⟨n, e', hn, hlast, by rw [hret, he']⟩

/-- So the verdict is that of the policy on a flag word of the run: that of the call, or that of an
earlier one on its name. -/
theorem exists_call_of_check (hf : 65 < fuel) (hfits : ∀ call ∈ calls, NameFits cwd call.1)
    {pre post : List ((CStr × CInt) × Bool)} {r : (CStr × CInt) × Bool}
    (hr : (trace (Agent.check fuel) (agentInit map cwd seed) calls).map Prod.snd = pre ++ r :: post) :
    ∃ n, ∃ call ∈ (pre ++ [r]).map Prod.fst, checkName cwd r.1.1 = .ok n ∧
      checkName cwd call.1 = .ok n ∧ r.2 = verdict map n call.2 := by
  obtain ⟨pre, rest, htrace, rfl, hrest⟩ := List.map_eq_append_iff.mp hr
  obtain ⟨e, post, rfl, rfl, -⟩ := List.map_eq_cons_iff.mp hrest
  obtain ⟨⟨n, e', hn, hlast, hret⟩, hcwd, -⟩ := check_history hf hfits htrace
  obtain ⟨hmem, hconsults⟩ := List.mem_filter.mp (List.mem_of_getLast? hlast)
  have hn' : checkName e'.1.cwd e'.2.1.1 = .ok n := (of_decide_eq_true hconsults).1
  rw [hcwd e' hmem] at hn'
  refine ⟨n, e'.2.1, ?_, hn, hn', hret⟩
  rw [← List.map_singleton, ← List.map_append, List.map_map]
  exact List.mem_map.mpr ⟨e', hmem, rfl⟩

end Run

/-- **Where the verdicts come from**: in every run of calls whose names fit the buffer every call
returns, and its verdict is the one without the cache for its own name and the flag word of the
latest call on this name, this one included, that consulted the policy; there is such a call. After
each call, every value in the cache is `A` or `F`. -/
theorem checkPermission_genuine {map : PolicyMap} {cwd : CStr} {seed : UInt64} {fuel : Nat}
    {calls : List (CStr × CInt)} (hf : 65 < fuel) (hfits : ∀ call ∈ calls, NameFits cwd call.1) :
    (trace (Agent.check fuel) (agentInit map cwd seed) calls).map (fun e => e.2.1) = calls ∧
    ∀ pre e post, trace (Agent.check fuel) (agentInit map cwd seed) calls = pre ++ e :: post →
      (∃ n e', checkName cwd e.2.1.1 = .ok n ∧ lastConsult fuel n (pre ++ [e]) = some e' ∧
        checkPermissionUncached map cwd e.2.1.1 e'.2.1.2 = .ok e.2.2) ∧
      ∃ a', Agent.check fuel e.1 e.2.1 = .ok (e.2.2, a') ∧ ∀ p, a'.cache.lruc.Chained p →
        ∃ ret, (a'.cache.lruc.heap p).value.map Buffer.str = some (verdictStr ret) := by
  refine ⟨check_complete hf hfits, fun pre e post htrace => ?_⟩
  obtain ⟨⟨n, e', hn, hlast, hret⟩, -, a', hr, hvalues⟩ := check_history hf hfits htrace
  refine ⟨⟨n, e', hn, hlast, ?_⟩, a', hr, fun p hp => hvalues.chained hp⟩
  rw [hret]
  exact Exec.bind_ok.mpr ⟨n, hn, rfl⟩

/-- A file that may only be read, opened to read and then to write: the second verdict is the first
one, from the cache. -/
theorem checkPermission_genuine_two :
    (trace (Agent.check 66) (agentInit (Finmap.singleton (.ofChars ['/', 'f']) O_READ) slash 0)
      [(.ofChars ['/', 'f'], O_RDONLY), (.ofChars ['/', 'f'], O_WRONLY)]).map (fun e => e.2.1) =
        [(.ofChars ['/', 'f'], O_RDONLY), (.ofChars ['/', 'f'], O_WRONLY)] ∧
    ∀ pre e post, trace (Agent.check 66)
      (agentInit (Finmap.singleton (.ofChars ['/', 'f']) O_READ) slash 0)
      [(.ofChars ['/', 'f'], O_RDONLY), (.ofChars ['/', 'f'], O_WRONLY)] = pre ++ e :: post →
      (∃ n e', checkName slash e.2.1.1 = .ok n ∧ lastConsult 66 n (pre ++ [e]) = some e' ∧
        checkPermissionUncached (Finmap.singleton (.ofChars ['/', 'f']) O_READ) slash e.2.1.1
          e'.2.1.2 = .ok e.2.2) ∧
      ∃ a', Agent.check 66 e.1 e.2.1 = .ok (e.2.2, a') ∧ ∀ p, a'.cache.lruc.Chained p →
        ∃ ret, (a'.cache.lruc.heap p).value.map Buffer.str = some (verdictStr ret) :=
  checkPermission_genuine (by decide) (by decide)

end Cnpv
