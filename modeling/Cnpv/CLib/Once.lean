import Cnpv.CLib.Exec
import Cnpv.CLib.Mutex

/-!
# Initialisation by the first caller

Any number of threads `ι` call a function that initialises globals `γ`: a test of a flag without the
lock, the lock, a second test, the steps of a body, the flag, the unlock. A step is what one thread
does at its place, and a run of `Once.step` is an interleaving of the threads.

`Once.Inv` says what the flag and the places tell about the globals. In every run the body is begun
at most once, and when the flag is set the globals are what the whole body makes of the first ones
(`Once.run_inv`); so they are when a thread has returned (`Once.Inv.returned`).
-/

namespace CLib

/-- Where a thread is. -/
inductive OncePlace
  /-- Before its first call. -/
  | outside
  /-- At the test without the lock. -/
  | enter
  | lock
  /-- At the second test. -/
  | test
  /-- At step `k` of the body, or past its last one. -/
  | body (k : Nat)
  /-- At the assignment to the flag. -/
  | set
  | unlock
  | returned
  deriving DecidableEq, Repr

/-- The places at which a thread holds the lock. -/
def OncePlace.locked : OncePlace → Bool
  | .test | .body _ | .set | .unlock => true
  | _ => false

/-- The thread has begun the body, and has not set the flag yet. -/
def OncePlace.inBody : OncePlace → Bool
  | .body _ | .set => true
  | _ => false

theorem OncePlace.locked_of_inBody {p : OncePlace} (h : p.inBody = true) : p.locked = true := by
  cases p <;> first | rfl | cases h

/-- The flag, the lock, the places of the threads and the globals; `bodies` counts how often the body
is begun. -/
structure Once (ι γ : Type) where
  init : Bool := false
  owner : Option ι := none
  place : ι → OncePlace := fun _ => .outside
  globals : γ
  bodies : Nat := 0

/-- The steps of a body, in order. -/
def runBody {γ : Type} (body : List (γ → Exec γ)) (g : γ) : Exec γ :=
  runFrom (fun g assign => assign g) g body

theorem runBody_append {γ : Type} {body : List (γ → Exec γ)} {assign : γ → Exec γ} {g₀ g g' : γ}
    (h : runBody body g₀ = .ok g) (ha : assign g = .ok g') : runBody (body ++ [assign]) g₀ = .ok g' := by
  rw [runBody, runFrom_append]
  exact Exec.bind_ok.mpr ⟨g, h, Exec.bind_ok.mpr ⟨g', ha, rfl⟩⟩

namespace Once

variable {ι γ : Type} [DecidableEq ι]

def move (s : Once ι γ) (t : ι) (p : OncePlace) : Once ι γ :=
  { s with place := Function.update s.place t p }

/-- One step of the thread `t`. A thread that has returned calls again. -/
def step (body : List (γ → Exec γ)) (s : Once ι γ) (t : ι) : Exec (Once ι γ) :=
  match s.place t with
  | .outside => .ok (s.move t .enter)
  | .enter => .ok (s.move t (if s.init then .returned else .lock))
  | .lock =>
    if s.owner = none then .ok { s.move t .test with owner := some t } else .error .blocked
  | .test =>
    .ok (if s.init then s.move t .unlock else { s.move t (.body 0) with bodies := s.bodies + 1 })
  | .body k => body[k]?.elim (.ok (s.move t .set)) fun assign => do
    let globals ← assign s.globals
    .ok { s.move t (.body (k + 1)) with globals }
  | .set => .ok { s.move t .unlock with init := true }
  | .unlock => .ok { s.move t .returned with owner := none }
  | .returned => .ok (s.move t .enter)

/-- What the flag and the places tell about the globals (module doc). -/
structure Inv (body : List (γ → Exec γ)) (g₀ : γ) (s : Once ι γ) : Prop where
  excl : Excl (fun t => (s.place t).locked) s.owner
  fresh : s.init = false → (∀ t, (s.place t).inBody = false) → s.bodies = 0 ∧ s.globals = g₀
  inBody : ∀ t, (s.place t).inBody = true → s.init = false ∧ s.bodies = 1
  atBody : ∀ t k, s.place t = .body k → runBody (body.take k) g₀ = .ok s.globals
  atSet : ∀ t, s.place t = .set → runBody body g₀ = .ok s.globals
  done : s.init = true → s.bodies = 1 ∧ runBody body g₀ = .ok s.globals
  left : ∀ t, s.place t = .unlock ∨ s.place t = .returned → s.init = true

variable {body : List (γ → Exec γ)} {g₀ : γ} {s s' : Once ι γ} {t : ι} {p : OncePlace}

theorem place_move (s : Once ι γ) (t : ι) (p : OncePlace) (u : ι) :
    (s.move t p).place u = if u = t then p else s.place u :=
  Function.update_apply _ _ _ _

theorem locked_move (s : Once ι γ) (t : ι) (p : OncePlace) :
    (fun u => ((s.move t p).place u).locked) =
      Function.update (fun u => (s.place u).locked) t p.locked := by
  funext u
  rw [place_move, Function.update_apply]
  split <;> rfl

omit [DecidableEq ι] in
theorem inv_start : Inv body g₀ ({ globals := g₀ } : Once ι γ) where
  excl t := iff_of_false Bool.false_ne_true fun h => by cases h
  fresh _ _ := ⟨rfl, rfl⟩
  inBody t h := by cases h
  atBody t k h := by cases h
  atSet t h := by cases h
  done h := by cases h
  left t h := by rcases h with h | h <;> cases h

/-! ## One thread that moves -/

omit [DecidableEq ι] in
/-- While a thread has the lock, no other one is in the body. -/
theorem Inv.alone (h : s.Inv body g₀) (ht : (s.place t).locked = true) {u : ι} (hu : u ≠ t) :
    (s.place u).inBody ≠ true := fun hbody =>
  hu (h.excl.unique (OncePlace.locked_of_inBody hbody) ht)

/-- A thread moves outside of the body. -/
theorem Inv.plain {o : Option ι} (h : s.Inv body g₀) (hs : (s.place t).inBody = false)
    (hp : p.inBody = false) (hexcl : Excl (fun u => ((s.move t p).place u).locked) o)
    (hleft : p = .unlock ∨ p = .returned → s.init = true) :
    Inv body g₀ { s.move t p with owner := o } := by
  have hin : ∀ u, ((s.move t p).place u).inBody = (s.place u).inBody := fun u => by
    rw [place_move]
    split
    · next e => rw [e, hp, hs]
    · rfl
  have hold : ∀ u q, q.inBody = true → (s.move t p).place u = q → s.place u = q := by
    intro u q hq hu
    rw [place_move] at hu
    split at hu
    · rw [← hu, hp] at hq
      cases hq
    · exact hu
  exact {
    excl := hexcl
    fresh := fun hinit hnone => h.fresh hinit fun u => (hin u).symm.trans (hnone u)
    inBody := fun u hu => h.inBody u ((hin u).symm.trans hu)
    atBody := fun u k hu => h.atBody u k (hold u _ rfl hu)
    atSet := fun u hu => h.atSet u (hold u _ rfl hu)
    done := h.done
    left := fun u hu => by
      rw [show Once.place _ u = _ from place_move s t p u] at hu
      split at hu
      · exact hleft hu
      · exact h.left u hu }

/-- The thread with the lock moves into the body, or to its next step. -/
theorem Inv.inside {g : γ} {n : Nat} (h : s.Inv body g₀) (ht : (s.place t).locked = true)
    (hp : p.inBody = true) (hinit : s.init = false) (hn : n = 1)
    (hbody : ∀ k, p = .body k → runBody (body.take k) g₀ = .ok g)
    (hset : p = .set → runBody body g₀ = .ok g) :
    Inv body g₀ { s.move t p with globals := g, bodies := n } := by
  have hlocked := OncePlace.locked_of_inBody hp
  have hself : (s.move t p).place t = p := by rw [place_move, if_pos rfl]
  have honly : ∀ u q, q.inBody = true → (s.move t p).place u = q → q = p := by
    intro u q hq hu
    rw [place_move] at hu
    split at hu
    · exact hu.symm
    · next hne => exact absurd (hu ▸ hq) (h.alone ht hne)
  exact {
    excl := by
      rw [show (fun u => (Once.place _ u).locked) = _ from locked_move s t p]
      exact h.excl.stay (ht.trans hlocked.symm)
    fresh := fun _ hnone => by
      have hnone : ((s.move t p).place t).inBody = false := hnone t
      rw [hself, hp] at hnone
      cases hnone
    inBody := fun _ _ => ⟨hinit, hn⟩
    atBody := fun u k hu => hbody k (honly u _ rfl hu).symm
    atSet := fun u hu => hset (honly u _ rfl hu).symm
    done := fun hdone => by cases hinit.symm.trans hdone
    left := fun u hu => by
      rw [show Once.place _ u = _ from place_move s t p u] at hu
      split at hu
      · rcases hu with rfl | rfl <;> cases hp
      · exact h.left u hu }

/-- The thread at the second test begins the body: it has the lock, so nobody else is in it. -/
theorem Inv.begin (h : s.Inv body g₀) (ht : s.place t = .test) (hinit : s.init = false) :
    Inv body g₀ { s.move t (.body 0) with bodies := s.bodies + 1 } := by
  have hlocked : (s.place t).locked = true := by rw [ht]; rfl
  obtain ⟨hbodies, hglobals⟩ := h.fresh hinit fun u => by
    by_cases hu : u = t
    · rw [hu, ht]
      rfl
    · simpa using h.alone hlocked hu
  refine h.inside hlocked rfl hinit (by rw [hbodies]) (fun k hk => ?_) (fun hp => by cases hp)
  cases hk
  exact congrArg Except.ok hglobals.symm

/-- One step of the body. -/
theorem Inv.assign {k : Nat} {assign : γ → Exec γ} {g : γ} (h : s.Inv body g₀)
    (ht : s.place t = .body k) (hk : body[k]? = some assign) (hg : assign s.globals = .ok g) :
    Inv body g₀ { s.move t (.body (k + 1)) with globals := g } := by
  obtain ⟨hinit, hbodies⟩ := h.inBody t (by rw [ht]; rfl)
  refine h.inside (by rw [ht]; rfl) rfl hinit hbodies (fun j hj => ?_) (fun hp => by cases hp)
  cases hj
  rw [List.take_add_one, hk]
  exact runBody_append (h.atBody t k ht) hg

/-- The body is over. -/
theorem Inv.past {k : Nat} (h : s.Inv body g₀) (ht : s.place t = .body k) (hk : body[k]? = none) :
    (s.move t .set).Inv body g₀ := by
  obtain ⟨hinit, hbodies⟩ := h.inBody t (by rw [ht]; rfl)
  have hglobals := h.atBody t k ht
  rw [List.take_of_length_le (List.getElem?_eq_none_iff.mp hk)] at hglobals
  exact h.inside (by rw [ht]; rfl) rfl hinit hbodies (fun k hp => by cases hp) fun _ => hglobals

/-- The flag is set, at the end of the body. -/
theorem Inv.finish (h : s.Inv body g₀) (ht : s.place t = .set) :
    Inv body g₀ { s.move t .unlock with init := true } := by
  have hlocked : (s.place t).locked = true := by rw [ht]; rfl
  have hnone : ∀ u q, q.inBody = true → (s.move t .unlock).place u ≠ q := by
    intro u q hq hu
    rw [place_move] at hu
    split at hu
    · rw [← hu] at hq
      cases hq
    · next hne => exact h.alone hlocked hne (hu ▸ hq)
  exact {
    excl := by
      rw [show (fun u => (Once.place _ u).locked) = _ from locked_move s t .unlock]
      exact h.excl.stay hlocked
    fresh := fun hinit => by cases hinit
    inBody := fun u hu => absurd rfl (hnone u _ hu)
    atBody := fun u k hu => absurd hu (hnone u _ rfl)
    atSet := fun u hu => absurd hu (hnone u _ rfl)
    done := fun _ => ⟨(h.inBody t (by rw [ht]; rfl)).2, h.atSet t ht⟩
    left := fun _ _ => rfl }

/-! ## Runs -/

/-- A thread moves outside of the body and of the lock. -/
theorem Inv.stay (h : s.Inv body g₀) (hs : (s.place t).inBody = false) (hp : p.inBody = false)
    (hlocked : (s.place t).locked = p.locked) (hleft : p = .unlock ∨ p = .returned → s.init = true) :
    (s.move t p).Inv body g₀ := by
  refine h.plain hs hp ?_ hleft
  rw [locked_move]
  exact h.excl.stay hlocked

/-- **One step.** -/
theorem Inv.step (h : s.Inv body g₀) (hr : s.step body t = .ok s') : s'.Inv body g₀ := by
  unfold Once.step at hr
  cases ht : s.place t with
  | outside | returned =>
    rw [ht] at hr
    cases hr
    refine h.stay (ht ▸ rfl) rfl (ht ▸ rfl) ?_
    rintro (hp | hp) <;> cases hp
  | enter =>
    rw [ht] at hr
    cases hr
    by_cases hinit : s.init = true
    · rw [if_pos hinit]
      exact h.stay (ht ▸ rfl) rfl (ht ▸ rfl) fun _ => hinit
    · rw [if_neg hinit]
      refine h.stay (ht ▸ rfl) rfl (ht ▸ rfl) ?_
      rintro (hp | hp) <;> cases hp
  | lock =>
    rw [ht] at hr
    simp only at hr
    split at hr
    · next howner =>
      cases hr
      have hexcl := h.excl
      rw [howner] at hexcl
      refine h.plain (ht ▸ rfl) rfl ?_ ?_
      · rw [locked_move]
        exact hexcl.lock t
      · rintro (hp | hp) <;> cases hp
    · cases hr
  | test =>
    rw [ht] at hr
    cases hr
    by_cases hinit : s.init = true
    · rw [if_pos hinit]
      exact h.stay (ht ▸ rfl) rfl (ht ▸ rfl) fun _ => hinit
    · rw [if_neg hinit]
      exact h.begin ht (by simpa using hinit)
  | body k =>
    rw [ht] at hr
    cases hk : body[k]? with
    | none =>
      simp only [hk] at hr
      cases hr
      exact h.past ht hk
    | some assign =>
      simp only [hk] at hr
      obtain ⟨g, hg, hr⟩ := Exec.bind_ok.mp hr
      cases hr
      exact h.assign ht hk hg
  | set =>
    rw [ht] at hr
    cases hr
    exact h.finish ht
  | unlock =>
    rw [ht] at hr
    cases hr
    have hlocked : (s.place t).locked = true := ht ▸ rfl
    refine h.plain (ht ▸ rfl) rfl ?_ fun _ => h.left t (.inl ht)
    rw [locked_move]
    exact h.excl.unlock hlocked

/-- **Every run**, of any number of threads, in any order of their steps. -/
theorem run_inv {threads : List ι} (hr : runFrom (Once.step body) { globals := g₀ } threads = .ok s) :
    s.Inv body g₀ :=
  runFrom_keeps (Inv body g₀) (fun _ _ _ _ h hr => h.step hr) inv_start hr

omit [DecidableEq ι] in
/-- The body is begun at most once. -/
theorem Inv.bodies_le (h : s.Inv body g₀) : s.bodies ≤ 1 := by
  by_cases hinit : s.init = true
  · exact Nat.le_of_eq (h.done hinit).1
  · have hinit : s.init = false := by simpa using hinit
    by_cases hnone : ∀ u, (s.place u).inBody = false
    · rw [(h.fresh hinit hnone).1]
      exact Nat.zero_le 1
    · obtain ⟨u, hu⟩ := not_forall.mp hnone
      exact Nat.le_of_eq (h.inBody u (by simpa using hu)).2

omit [DecidableEq ι] in
/-- A thread returns after the whole body. -/
theorem Inv.returned (h : s.Inv body g₀) (ht : s.place t = .returned) :
    s.init = true ∧ runBody body g₀ = .ok s.globals :=
  ⟨h.left t (.inr ht), (h.done (h.left t (.inr ht))).2⟩

end Once

end CLib
