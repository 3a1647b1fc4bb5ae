import Cnpv.Agent.Calls

/-!
# What a check looks up

`Watched.checkPermission` is `check_permission` with a list of its accesses: the keys that it hands to
the cache and to the hash map of the policy. It can reach both only through functions that note the
key. Without the list it is `checkPermission` (`Watched.checkPermission_agent`). A call looks up one
name, in the cache and, if it is not cached, in the policy (`Watched.lookups_of_check`).
-/

namespace Cnpv

open CLib

/-- A call of the cache or of the hash map, with the key that it gets. -/
inductive CheckAccess
  | cacheGet (key : CStr)
  | hashmapGet (key : CStr)
  | cacheInsert (key : CStr)
  deriving DecidableEq

def CheckAccess.key : CheckAccess → CStr
  | .cacheGet key => key
  | .hashmapGet key => key
  | .cacheInsert key => key

/-- An agent, and its accesses so far. -/
structure Watched where
  agent : Agent
  accesses : List CheckAccess := []

namespace Watched

/-- `cache_get(key, &cache_value)` -/
def cacheGet (fuel : Nat) (w : Watched) (key : CStr) : Exec (Option Buffer × Watched) := do
  let (cacheValue, cache) ← Cnpv.cacheGet fuel w.agent.cache key none
  .ok (cacheValue, { agent := { w.agent with cache }, accesses := w.accesses ++ [.cacheGet key] })

/-- `hashmap_get(map, &tmp)`: the permission of the user. -/
def hashmapGet (w : Watched) (key : CStr) : Option CInt × Watched :=
  (w.agent.map.lookup key, { w with accesses := w.accesses ++ [.hashmapGet key] })

/-- `cache_insert(key, value)` -/
def cacheInsert (fuel : Nat) (w : Watched) (key value : CStr) : Exec Watched := do
  let cache ← Cnpv.cacheInsert fuel w.agent.cache key value
  .ok { agent := { w.agent with cache }, accesses := w.accesses ++ [.cacheInsert key] }

/-- `check_permission` with `USE_CACHE`. -/
def checkPermission (fuel : Nat) (w : Watched) (pathname : CStr) (oflag : CInt) :
    Exec (Bool × Watched) := do
  let buf ← checkName w.agent.cwd pathname
  let (cacheValue, w) ← w.cacheGet fuel buf
  if cacheValue.map Buffer.char = some 'A'.toUInt8 then .ok (true, w)
  else if cacheValue.map Buffer.char = some 'F'.toUInt8 then .ok (false, w)
  else do
    let (user, w) := w.hashmapGet (buf.take (MAX_PATH - 1))
    let ret := user.elim true fun permission => allows permission oflag
    let w ← w.cacheInsert fuel buf (verdictStr ret)
    .ok (ret, w)

/-- `accesses` are those of a check that looks up the name `n`: it asks the cache for `n` and, if the
cache does not have it, the policy, and neither for another name. -/
structure Lookups (fuel : Nat) (a : Agent) (n : CStr) (accesses : List CheckAccess) : Prop where
  cache : accesses.head? = some (.cacheGet n)
  policy : a.cached fuel n = false → .hashmapGet n ∈ accesses
  only : ∀ access ∈ accesses, access.key = n

variable {fuel : Nat} {a : Agent} {w w' : Watched} {pathname : CStr} {oflag : CInt} {ret : Bool}

/-- Without the accesses, it is `check_permission`. -/
theorem checkPermission_agent (fuel : Nat) (w : Watched) (pathname : CStr) (oflag : CInt) :
    (fun r => (r.1, r.2.agent)) <$> w.checkPermission fuel pathname oflag =
      Cnpv.checkPermission fuel w.agent pathname oflag := by
  unfold Watched.checkPermission Cnpv.checkPermission
  cases checkName w.agent.cwd pathname with
  | error e => rfl
  | ok buf =>
    rw [Exec.ok_bind, Exec.ok_bind, cacheGet]
    cases Cnpv.cacheGet fuel w.agent.cache buf none with
    | error e => rfl
    | ok r =>
      simp only [Exec.ok_bind]
      split_ifs
      · rfl
      · rfl
      · have hverdict : (w.agent.map.lookup (buf.take (MAX_PATH - 1))).elim true
            (fun permission => allows permission oflag) = verdict w.agent.map buf oflag := by
          unfold verdict
          cases w.agent.map.lookup (buf.take (MAX_PATH - 1)) <;> rfl
        simp only [hashmapGet, cacheInsert, hverdict]
        cases Cnpv.cacheInsert fuel r.2 buf (verdictStr (verdict w.agent.map buf oflag)) <;> rfl

/-- **A check looks up its name**, and no other one. -/
theorem lookups_of_check (h : (⟨a, []⟩ : Watched).checkPermission fuel pathname oflag = .ok (ret, w')) :
    ∃ n, checkName a.cwd pathname = .ok n ∧ Lookups fuel a n w'.accesses := by
  obtain ⟨buf, hn, h⟩ := Exec.bind_ok.mp h
  obtain ⟨⟨cacheValue, w₁⟩, hget, h⟩ := Exec.bind_ok.mp h
  obtain ⟨⟨value, cache⟩, hcache, hget⟩ := Exec.bind_ok.mp hget
  cases hget
  have htake : buf.take (MAX_PATH - 1) = buf :=
    CStr.take_of_le (Nat.le_sub_one_of_lt (checkName_eq hn).1)
  -- A verdict from the cache: the policy is not asked.
  have hfound : ∀ c, cacheValue.map Buffer.char = some c →
      Lookups fuel a buf ([] ++ [.cacheGet buf]) := by
    intro c hc
    refine ⟨rfl, fun hcached => ?_, by simp [CheckAccess.key]⟩
    rw [Agent.cached, hcache] at hcached
    cases cacheValue with
    | none => cases hc
    | some p => cases hcached
  refine ⟨buf, hn, ?_⟩
  simp only at h
  split_ifs at h with hA hF
  · cases h
    exact hfound _ hA
  · cases h
    exact hfound _ hF
  · obtain ⟨w₂, hinsert, h⟩ := Exec.bind_ok.mp h
    obtain ⟨cache', -, hinsert⟩ := Exec.bind_ok.mp hinsert
    cases hinsert
    cases h
    simp only [hashmapGet, htake]
    exact ⟨rfl, fun _ => by simp, by simp [CheckAccess.key]⟩

/-- A check looks up one name. -/
theorem Lookups.unique {a b : Agent} {n m : CStr} {accesses : List CheckAccess}
    (h : Lookups fuel a n accesses) (h' : Lookups fuel b m accesses) : n = m := by
  have hhead := h.cache.symm.trans h'.cache
  cases hhead
  rfl

/-! ## The calls -/

variable {a' : Agent} {call : Call} {reply : Reply}

theorem run_of_runWith (h : call.runWith (Watched.checkPermission fuel) ⟨a, []⟩ = .ok (reply, w)) :
    call.run fuel a = .ok (reply, w.agent) := by
  have hmap := Call.runWith_map (f := Watched.agent) (checkPermission_agent fuel) ⟨a, []⟩ call
  rw [h] at hmap
  exact hmap.symm

theorem runWith_of_run (h : call.run fuel a = .ok (reply, a')) :
    ∃ w, call.runWith (Watched.checkPermission fuel) ⟨a, []⟩ = .ok (reply, w) ∧ w.agent = a' := by
  have hmap := Call.runWith_map (f := Watched.agent) (checkPermission_agent fuel) ⟨a, []⟩ call
  obtain ⟨⟨reply', w⟩, hw, heq⟩ := Exec.map_ok.mp (hmap.trans h)
  cases heq
  exact ⟨w, hw, rfl⟩

end Watched

end Cnpv
