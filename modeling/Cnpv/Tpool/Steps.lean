import Cnpv.Tpool.Model

/-!
# Steps of the thread pool, and its lock

The steps that a worker, an adding thread and the thread in `destroy_tpool` can take, each with what
it found and with the state after it (`Tpool.WorkerMove`, `Tpool.AddMove`, `Tpool.DestroyMove`). What
holds of every step is a case split over these; `Tpool.WorkerStep` and `Tpool.AddStep` say what a step
does to the rest of the state.

A thread holds `queue_lock` at the places between its lock and its unlock, but not while it waits for
work (`Tpool.holds`). Every step keeps the owner of the lock the one thread that is at such a place
(`Tpool.Exclusive.step`).
-/

namespace Cnpv

open CLib

/-- How far `destroy_tpool` is. -/
def DestroyPlace.stage : DestroyPlace → Nat
  | .test => 0
  | .set | .left => 1
  | .lock => 2
  | .broadcast => 3
  | .unlock => 4
  | .join _ => 5
  | .drain => 6
  | .freed => 7

namespace Tpool

variable {n : Nat} {κ : Type} {s s' : Tpool n κ} {i : Fin n} {k : κ} {t : PoolThread n κ}
  {b : Bool}

/-! ## What a step has done -/

theorem lock_ok : s.lock t = .ok s' ↔ s.queueLock = none ∧ s' = { s with queueLock := some t } := by
  unfold lock
  split
  · next h => exact ⟨fun e => ⟨h, (Except.ok.inj e).symm⟩, fun e => by rw [e.2]⟩
  · next h => exact ⟨fun e => (by cases e), fun e => absurd e.1 h⟩

theorem lock_error {e : Halt} (h : s.lock t = .error e) : e = .blocked := by
  unfold lock at h
  split at h
  · cases h
  · exact (Except.error.inj h).symm

theorem use_of_live {w : WorkPtr} (h : w ∈ s.live) : s.use w = .ok () := if_pos h

/-- The steps of worker `i` in `work_routine`. -/
inductive WorkerMove (s : Tpool n κ) (i : Fin n) : Tpool n κ → Prop
  | lock (hp : s.workers i = .lock ∨ s.workers i = .woken) (hfree : s.queueLock = none) :
      WorkerMove s i { s.setWorker i .test with queueLock := some (.worker i) }
  | wait (hp : s.workers i = .test) (hhead : s.tpoolHead = none) (hflag : s.shutdown = false) :
      WorkerMove s i (s.setWorker i .wait)
  | check (hp : s.workers i = .test) (hflag : s.tpoolHead = none → s.shutdown = true) :
      WorkerMove s i (s.setWorker i .check)
  | sleep (hp : s.workers i = .wait) : WorkerMove s i (s.setWorker i .asleep).unlock
  | wake (hp : s.workers i = .asleep) : WorkerMove s i (s.setWorker i .woken)
  | quit (hp : s.workers i = .check) (hflag : s.shutdown = true) :
      WorkerMove s i (s.setWorker i .quit)
  | goOn (hp : s.workers i = .check) (hflag : s.shutdown = false) :
      WorkerMove s i (s.setWorker i .take)
  | exit (hp : s.workers i = .quit) : WorkerMove s i (s.setWorker i .exited).unlock
  | take (w : WorkPtr) (hp : s.workers i = .take) (hhead : s.tpoolHead = some w) :
      WorkerMove s i { s.setWorker i (.unlock w) with
        tpoolHead := s.next w
        taken := s.taken ++ [s.task w] }
  | unlock (w : WorkPtr) (hp : s.workers i = .unlock w) : WorkerMove s i (s.setWorker i (.run w)).unlock
  | run (w : WorkPtr) (hp : s.workers i = .run w) : WorkerMove s i (s.setWorker i (.free w))
  | free (w : WorkPtr) (hp : s.workers i = .free w) : WorkerMove s i ((s.setWorker i .lock).free w)

theorem workRoutine_move (h : s.workRoutine i = .ok s') : WorkerMove s i s' := by
  unfold workRoutine at h
  cases hp : s.workers i with
  | lock =>
    rw [hp] at h
    obtain ⟨hfree, rfl⟩ := lock_ok.mp h
    exact .lock (.inl hp) hfree
  | woken =>
    rw [hp] at h
    obtain ⟨hfree, rfl⟩ := lock_ok.mp h
    exact .lock (.inr hp) hfree
  | test =>
    rw [hp] at h
    cases h
    by_cases htest : s.tpoolHead = none ∧ s.shutdown = false
    · rw [if_pos htest]
      exact .wait hp htest.1 htest.2
    · rw [if_neg htest]
      exact .check hp fun hhead => Bool.not_eq_false _ ▸ fun hflag => htest ⟨hhead, hflag⟩
  | wait => rw [hp] at h; cases h; exact .sleep hp
  | asleep => rw [hp] at h; cases h; exact .wake hp
  | check =>
    rw [hp] at h
    cases h
    by_cases hflag : s.shutdown = true
    · rw [if_pos hflag]
      exact .quit hp hflag
    · rw [if_neg hflag]
      exact .goOn hp (Bool.eq_false_iff.mpr hflag)
  | quit => rw [hp] at h; cases h; exact .exit hp
  | take =>
    rw [hp] at h
    simp only [takeWork] at h
    cases hhead : s.tpoolHead with
    | none => rw [hhead] at h; cases h
    | some w =>
      rw [hhead] at h
      obtain ⟨u, -, h⟩ := Exec.bind_ok.mp h
      cases h
      exact .take w hp hhead
  | unlock w => rw [hp] at h; cases h; exact .unlock w hp
  | run w =>
    rw [hp] at h
    obtain ⟨u, -, h⟩ := Exec.bind_ok.mp h
    cases h
    exact .run w hp
  | free w =>
    rw [hp] at h
    obtain ⟨u, -, h⟩ := Exec.bind_ok.mp h
    cases h
    exact .free w hp
  | exited => rw [hp] at h; cases h

/-- The steps of the thread in `destroy_tpool`. -/
inductive DestroyMove (s : Tpool n κ) : Tpool n κ → Prop
  | leave (hp : s.destroyer = .test) (hflag : s.shutdown = true) : DestroyMove s (s.setDestroyer .left)
  | enter (hp : s.destroyer = .test) (hflag : s.shutdown = false) : DestroyMove s (s.setDestroyer .set)
  | set (hp : s.destroyer = .set) : DestroyMove s { s.setDestroyer .lock with shutdown := true }
  | lock (hp : s.destroyer = .lock) (hfree : s.queueLock = none) :
      DestroyMove s { s.setDestroyer .broadcast with queueLock := some .destroyer }
  | broadcast (hp : s.destroyer = .broadcast) : DestroyMove s (s.setDestroyer .unlock).wakeAll
  | unlock (hp : s.destroyer = .unlock) : DestroyMove s (s.setDestroyer (.join 0)).unlock
  | join (j : Nat) (hp : s.destroyer = .join j) (hj : j < n) (hexited : s.workers ⟨j, hj⟩ = .exited) :
      DestroyMove s (s.setDestroyer (.join (j + 1)))
  | joined (j : Nat) (hp : s.destroyer = .join j) (hj : n ≤ j) : DestroyMove s (s.setDestroyer .drain)
  | drain (w : WorkPtr) (hp : s.destroyer = .drain) (hhead : s.tpoolHead = some w) :
      DestroyMove s { s.free w with tpoolHead := s.next w }
  | freed (hp : s.destroyer = .drain) (hhead : s.tpoolHead = none) :
      DestroyMove s (s.setDestroyer .freed)

theorem destroyTpool_move (h : s.destroyTpool = .ok s') : DestroyMove s s' := by
  unfold destroyTpool at h
  cases hp : s.destroyer with
  | test =>
    rw [hp] at h
    cases h
    by_cases hflag : s.shutdown = true
    · rw [if_pos hflag]
      exact .leave hp hflag
    · rw [if_neg hflag]
      exact .enter hp (Bool.eq_false_iff.mpr hflag)
  | set => rw [hp] at h; cases h; exact .set hp
  | lock =>
    rw [hp] at h
    obtain ⟨hfree, rfl⟩ := lock_ok.mp h
    exact .lock hp hfree
  | broadcast => rw [hp] at h; cases h; exact .broadcast hp
  | unlock => rw [hp] at h; cases h; exact .unlock hp
  | join j =>
    rw [hp] at h
    simp only at h
    split at h
    · next hj =>
      split at h
      · next hexited => cases h; exact .join j hp hj hexited
      · cases h
    · next hj => cases h; exact .joined j hp (Nat.le_of_not_lt hj)
  | drain =>
    rw [hp] at h
    simp only at h
    cases hhead : s.tpoolHead with
    | none => rw [hhead] at h; cases h; exact .freed hp hhead
    | some w =>
      rw [hhead] at h
      obtain ⟨u, -, h⟩ := Exec.bind_ok.mp h
      cases h
      exact .drain w hp hhead
  | left | freed => rw [hp] at h; cases h

/-- A signal wakes at most one worker. -/
theorem signal_ok {wakes : Option (Fin n)} (h : s.signal wakes = .ok s') :
    s' = s ∨ ∃ i, s.workers i = .asleep ∧ s' = s.setWorker i .woken := by
  cases wakes with
  | none =>
    simp only [signal, Option.elim_none] at h
    split at h
    · exact .inl (Except.ok.inj h).symm
    · cases h
  | some i =>
    simp only [signal, Option.elim_some] at h
    split at h
    · next hi => exact .inr ⟨i, hi, (Except.ok.inj h).symm⟩
    · cases h

/-- What a step of worker `i` does to the rest, and which places of the worker it leads to. -/
structure WorkerStep (s s' : Tpool n κ) (i : Fin n) : Prop where
  destroyer : s'.destroyer = s.destroyer
  shutdown : s'.shutdown = s.shutdown
  other : ∀ j, j ≠ i → s'.workers j = s.workers j
  asleep : s'.workers i = .asleep → s.workers i = .wait
  wait : s'.workers i = .wait → s.shutdown = false
  take : s'.workers i = .take → s.shutdown = false
  taken : s.workers i ≠ .take → s'.taken = s.taken

/-- A worker that goes to `p`. -/
theorem WorkerStep.of_move {p : WorkerPlace} (hworkers : s'.workers = (s.setWorker i p).workers)
    (hdestroyer : s'.destroyer = s.destroyer) (hshutdown : s'.shutdown = s.shutdown)
    (htaken : s.workers i ≠ .take → s'.taken = s.taken)
    (hasleep : p = .asleep → s.workers i = .wait) (hwait : p = .wait → s.shutdown = false)
    (htake : p = .take → s.shutdown = false) : WorkerStep s s' i := by
  have hself : s'.workers i = p := by rw [hworkers]; exact Function.update_self _ _ _
  refine ⟨hdestroyer, hshutdown, fun j hj => ?_, ?_, ?_, ?_, htaken⟩
  · rw [hworkers]
    exact Function.update_of_ne hj _ _
  · rw [hself]; exact hasleep
  · rw [hself]; exact hwait
  · rw [hself]; exact htake

/-- A worker that goes to a place without a condition. -/
theorem WorkerStep.of_plain {p : WorkerPlace} (hworkers : s'.workers = (s.setWorker i p).workers)
    (hdestroyer : s'.destroyer = s.destroyer) (hshutdown : s'.shutdown = s.shutdown)
    (htaken : s.workers i ≠ .take → s'.taken = s.taken)
    (hp : p ≠ .asleep ∧ p ≠ .wait ∧ p ≠ .take) : WorkerStep s s' i :=
  .of_move hworkers hdestroyer hshutdown htaken (fun h => absurd h hp.1) (fun h => absurd h hp.2.1)
    fun h => absurd h hp.2.2

theorem workRoutine_ok (h : s.workRoutine i = .ok s') : WorkerStep s s' i := by
  cases workRoutine_move h with
  | lock hp hfree => exact .of_plain (p := .test) rfl rfl rfl (fun _ => rfl) (by simp)
  | wait hp hhead hflag => exact .of_move rfl rfl rfl (fun _ => rfl) nofun (fun _ => hflag) nofun
  | check hp hflag => exact .of_plain rfl rfl rfl (fun _ => rfl) (by simp)
  | sleep hp => exact .of_move (p := .asleep) rfl rfl rfl (fun _ => rfl) (fun _ => hp) nofun nofun
  | wake hp => exact .of_plain rfl rfl rfl (fun _ => rfl) (by simp)
  | quit hp hflag => exact .of_plain rfl rfl rfl (fun _ => rfl) (by simp)
  | goOn hp hflag => exact .of_move rfl rfl rfl (fun _ => rfl) nofun nofun fun _ => hflag
  | exit hp => exact .of_plain (p := .exited) rfl rfl rfl (fun _ => rfl) (by simp)
  | take w hp hhead =>
    exact .of_plain (p := .unlock w) rfl rfl rfl (fun hne => absurd hp hne) (by simp)
  | unlock w hp => exact .of_plain (p := .run w) rfl rfl rfl (fun _ => rfl) (by simp)
  | run w hp => exact .of_plain rfl rfl rfl (fun _ => rfl) (by simp)
  | free w hp => exact .of_plain (p := .lock) rfl rfl rfl (fun _ => rfl) (by simp)

theorem signal_error {wakes : Option (Fin n)} {e : Halt} (h : s.signal wakes = .error e) :
    e = .blocked := by
  cases wakes with
  | none =>
    simp only [signal, Option.elim_none] at h
    split at h
    · cases h
    · exact (Except.error.inj h).symm
  | some i =>
    simp only [signal, Option.elim_some] at h
    split at h
    · cases h
    · exact (Except.error.inj h).symm

variable [DecidableEq κ]

/-- The thread that takes a step. -/
theorem of_step {turn : Turn n κ} (h : s.step turn = .ok s') :
    (∃ i, s.workRoutine i = .ok s') ∨
    (∃ k routine args memory, s.callAdd k routine args memory = .ok s') ∨
    (∃ k wakes, s.addTask2Tpool k wakes = .ok s') ∨ s.destroyTpool = .ok s' := by
  unfold step at h
  split at h
  · cases h
  · cases turn with
    | worker i => exact .inl ⟨i, h⟩
    | call k routine args memory => exact .inr (.inl ⟨k, routine, args, memory, h⟩)
    | add k wakes => exact .inr (.inr (.inl ⟨k, wakes, h⟩))
    | destroy => exact .inr (.inr (.inr h))

/-- A call is refused, or it has memory for its work. -/
theorem callAdd_ok {routine : Option Nat} {args : Nat} {memory : Option WorkPtr}
    (h : s.callAdd k routine args memory = .ok s') :
    (s.adders k).usesPool = false ∧ ∃ task, s' = (s.setCalling k task).setAdder k (.returned (-1)) ∨
      ∃ w, w ∉ s.live ∧ s' = (s.setCalling k task).newWork k w task := by
  unfold callAdd at h
  split at h
  · cases h
  · next hplace =>
    refine ⟨Bool.not_eq_true _ ▸ hplace, { workRoutine := routine.getD 0, args }, ?_⟩
    cases routine with
    | none => exact .inl (Except.ok.inj h).symm
    | some r =>
      cases memory with
      | none => exact .inl (Except.ok.inj h).symm
      | some w =>
        simp only [makeWork, Option.elim_some] at h
        split at h
        · cases h
        · next hw => exact .inr ⟨w, hw, (Except.ok.inj h).symm⟩

/-- What a step of an adding thread does to the rest: it may wake workers. -/
structure AddStep (s s' : Tpool n κ) : Prop where
  destroyer : s'.destroyer = s.destroyer
  shutdown : s'.shutdown = s.shutdown
  taken : s'.taken = s.taken
  workers : ∀ i, s'.workers i = s.workers i ∨ s.workers i = .asleep ∧ s'.workers i = .woken

theorem callAdd_step {routine : Option Nat} {args : Nat} {memory : Option WorkPtr}
    (h : s.callAdd k routine args memory = .ok s') : AddStep s s' := by
  obtain ⟨-, task, rfl | ⟨w, -, rfl⟩⟩ := callAdd_ok h
  · exact ⟨rfl, rfl, rfl, fun _ => .inl rfl⟩
  · exact ⟨rfl, rfl, rfl, fun _ => .inl rfl⟩

/-- The steps of the thread `k` in `add_task_2_tpool`. -/
inductive AddMove (s : Tpool n κ) (k : κ) : Tpool n κ → Prop
  | lock (w : WorkPtr) (hp : s.adders k = .lock w) (hfree : s.queueLock = none) :
      AddMove s k { s.setAdder k (.head w) with queueLock := some (.adder k) }
  | first (w : WorkPtr) (hp : s.adders k = .head w) (hhead : s.tpoolHead = none) :
      AddMove s k { s.setAdder k .signal with tpoolHead := some w }
  | head (w m : WorkPtr) (hp : s.adders k = .head w) (hhead : s.tpoolHead = some m) :
      AddMove s k (s.setAdder k (.walk w m))
  | last (w m : WorkPtr) (hp : s.adders k = .walk w m) (hnext : s.next m = none) :
      AddMove s k { s.setAdder k .signal with
        works := Function.update s.works m { s.works m with next := some w } }
  | walk (w m m' : WorkPtr) (hp : s.adders k = .walk w m) (hnext : s.next m = some m') :
      AddMove s k (s.setAdder k (.walk w m'))
  | signal (hp : s.adders k = .signal) : AddMove s k (s.setAdder k .unlock)
  | wake (i : Fin n) (hp : s.adders k = .signal) (hi : s.workers i = .asleep) :
      AddMove s k ((s.setAdder k .unlock).setWorker i .woken)
  | unlock (hp : s.adders k = .unlock) : AddMove s k (s.ret k 0).unlock

theorem addTask2Tpool_move {wakes : Option (Fin n)} (h : s.addTask2Tpool k wakes = .ok s') :
    AddMove s k s' := by
  unfold addTask2Tpool at h
  cases hp : s.adders k with
  | lock w =>
    rw [hp] at h
    obtain ⟨hfree, rfl⟩ := lock_ok.mp h
    exact .lock w hp hfree
  | head w =>
    rw [hp] at h
    cases h
    cases hhead : s.tpoolHead with
    | none => exact .first w hp hhead
    | some m => exact .head w m hp hhead
  | walk w m =>
    rw [hp] at h
    obtain ⟨u, -, h⟩ := Exec.bind_ok.mp h
    cases h
    cases hnext : s.next m with
    | none => exact .last w m hp hnext
    | some m' => exact .walk w m m' hp hnext
  | signal =>
    rw [hp] at h
    rcases signal_ok h with rfl | ⟨i, hi, rfl⟩
    · exact .signal hp
    · exact .wake i hp hi
  | unlock => rw [hp] at h; cases h; exact .unlock hp
  | idle | returned status => rw [hp] at h; cases h

theorem addTask2Tpool_step {wakes : Option (Fin n)} (h : s.addTask2Tpool k wakes = .ok s') :
    AddStep s s' := by
  cases addTask2Tpool_move h with
  | wake i hp hi =>
    refine ⟨rfl, rfl, rfl, fun j => ?_⟩
    by_cases hj : j = i
    · subst hj
      exact .inr ⟨hi, Function.update_self _ _ _⟩
    · exact .inl (Function.update_of_ne hj _ _)
  | _ => exact ⟨rfl, rfl, rfl, fun _ => .inl rfl⟩

omit [DecidableEq κ] in
/-- The thread in `destroy_tpool` goes on by one place or stays, and takes no task. -/
theorem destroyTpool_ok (h : s.destroyTpool = .ok s') :
    s.destroyer.stage ≤ s'.destroyer.stage ∧ s'.destroyer.stage ≤ s.destroyer.stage + 1 ∧
    s'.taken = s.taken := by
  cases destroyTpool_move h with
  | leave hp hflag | enter hp hflag => rw [hp]; exact ⟨Nat.zero_le 1, Nat.le_refl 1, rfl⟩
  | set hp => rw [hp]; exact ⟨Nat.le_succ 1, Nat.le_refl 2, rfl⟩
  | lock hp hfree => rw [hp]; exact ⟨Nat.le_succ 2, Nat.le_refl 3, rfl⟩
  | broadcast hp => rw [hp]; exact ⟨Nat.le_succ 3, Nat.le_refl 4, rfl⟩
  | unlock hp => rw [hp]; exact ⟨Nat.le_succ 4, Nat.le_refl 5, rfl⟩
  | join j hp hj hexited => rw [hp]; exact ⟨Nat.le_refl 5, Nat.le_succ 5, rfl⟩
  | joined j hp hj => rw [hp]; exact ⟨Nat.le_succ 5, Nat.le_refl 6, rfl⟩
  | drain w hp hhead => exact ⟨Nat.le_refl _, Nat.le_succ _, rfl⟩
  | freed hp hhead => rw [hp]; exact ⟨Nat.le_succ 6, Nat.le_refl 7, rfl⟩

theorem stage_of_step {turn : Turn n κ} (h : s.step turn = .ok s') :
    s.destroyer.stage ≤ s'.destroyer.stage := by
  rcases of_step h with ⟨i, hr⟩ | ⟨k, routine, args, memory, hr⟩ | ⟨k, wakes, hr⟩ | hr
  · rw [(workRoutine_ok hr).destroyer]
  · rw [(callAdd_step hr).destroyer]
  · rw [(addTask2Tpool_step hr).destroyer]
  · exact (destroyTpool_ok hr).1

/-! ## Who holds the lock -/

/-- The thread is at a place at which it holds `queue_lock`. -/
def holds (s : Tpool n κ) : PoolThread n κ → Bool
  | .worker i => (s.workers i).locked
  | .adder k => (s.adders k).locked
  | .destroyer => s.destroyer.locked

omit [DecidableEq κ] in
theorem holds_wakeAll : s.wakeAll.holds = s.holds := by
  funext t
  cases t with
  | worker i =>
    simp only [holds, wakeAll]
    split
    · next hi => rw [hi]; rfl
    · rfl
  | adder k => rfl
  | destroyer => rfl

theorem holds_setWorker (s : Tpool n κ) (i : Fin n) (p : WorkerPlace) :
    (s.setWorker i p).holds = Function.update s.holds (.worker i) p.locked := by
  funext t
  cases t with
  | worker j =>
    by_cases hj : j = i
    · subst hj; simp [holds, setWorker]
    · simp [holds, setWorker, hj]
  | adder k => simp [holds, setWorker]
  | destroyer => simp [holds, setWorker]

theorem holds_setAdder (s : Tpool n κ) (k : κ) (p : AddPlace) :
    (s.setAdder k p).holds = Function.update s.holds (.adder k) p.locked := by
  funext t
  cases t with
  | worker j => simp [holds, setAdder]
  | adder j =>
    by_cases hj : j = k
    · subst hj; simp [holds, setAdder]
    · simp [holds, setAdder, hj]
  | destroyer => simp [holds, setAdder]

theorem holds_setDestroyer (s : Tpool n κ) (p : DestroyPlace) :
    (s.setDestroyer p).holds = Function.update s.holds .destroyer p.locked := by
  funext t
  cases t <;> simp [holds, setDestroyer]

/-- The owner of the lock is the thread that holds it. -/
def Exclusive (s : Tpool n κ) : Prop := Excl s.holds s.queueLock

theorem exclusive_createTpool (n : Nat) (κ : Type) [DecidableEq κ] (works : WorkPtr → Work) :
    (createTpool n κ works).Exclusive := by
  intro t
  refine iff_of_false ?_ fun h => by cases h
  cases t <;> exact Bool.false_ne_true

/-! ## One thread that moves -/

namespace Exclusive

theorem stay (h : s.Exclusive) (hholds : s'.holds = Function.update s.holds t b) (hb : s.holds t = b)
    (hlock : s'.queueLock = s.queueLock) : s'.Exclusive := by
  unfold Exclusive
  rw [hholds, hlock]
  exact Excl.stay h hb

theorem lock (h : s.Exclusive) (hholds : s'.holds = Function.update s.holds t true)
    (hfree : s.queueLock = none) : Exclusive { s' with queueLock := some t } := by
  unfold Exclusive at h
  rw [hfree] at h
  show Excl s'.holds (some t)
  rw [hholds]
  exact h.lock t

theorem unlock (h : s.Exclusive) (hholds : s'.holds = Function.update s.holds t false)
    (ht : s.holds t = true) : s'.unlock.Exclusive := by
  show Excl s'.holds none
  rw [hholds]
  exact Excl.unlock h ht

end Exclusive

/-! ## Every step -/

theorem Exclusive.workRoutine (h : s.Exclusive) (hr : s.workRoutine i = .ok s') : s'.Exclusive := by
  have hmove := holds_setWorker s i
  have hat : s.holds (.worker i) = (s.workers i).locked := rfl
  cases workRoutine_move hr with
  | lock hp hfree => exact h.lock (hmove .test) hfree
  | sleep hp | exit hp | unlock w hp =>
    rw [hp] at hat
    exact h.unlock (hmove _) hat
  | wait hp | check hp | wake hp | quit hp | goOn hp | take w hp | run w hp | free w hp =>
    rw [hp] at hat
    exact h.stay (hmove _) hat rfl

theorem Exclusive.callAdd {routine : Option Nat} {args : Nat} {memory : Option WorkPtr}
    (h : s.Exclusive) (hr : s.callAdd k routine args memory = .ok s') : s'.Exclusive := by
  obtain ⟨hplace, hs'⟩ := callAdd_ok hr
  have hat : s.holds (.adder k) = false := by
    show (s.adders k).locked = false
    cases hp : s.adders k <;> first | rfl | (rw [hp] at hplace; cases hplace)
  have hmove := holds_setAdder s k
  obtain ⟨task, rfl | ⟨w, -, rfl⟩⟩ := hs'
  · exact h.stay (hmove _) hat rfl
  · exact h.stay (hmove (.lock w)) hat rfl

theorem Exclusive.addTask2Tpool {wakes : Option (Fin n)} (h : s.Exclusive)
    (hr : s.addTask2Tpool k wakes = .ok s') : s'.Exclusive := by
  have hmove := holds_setAdder s k
  have hat : s.holds (.adder k) = (s.adders k).locked := rfl
  cases addTask2Tpool_move hr with
  | lock w hp hfree => exact h.lock (hmove (.head w)) hfree
  | first w hp | head w m hp | last w m hp | walk w m m' hp | signal hp =>
    rw [hp] at hat
    exact h.stay (hmove _) hat rfl
  | wake i hp hi =>
    rw [hp] at hat
    have hunlock : (s.setAdder k .unlock).Exclusive := h.stay (hmove .unlock) hat rfl
    refine hunlock.stay (holds_setWorker _ i .woken) ?_ rfl
    show (s.workers i).locked = false
    rw [hi]
    rfl
  | unlock hp =>
    rw [hp] at hat
    exact h.unlock (hmove (.returned 0)) hat

theorem Exclusive.destroyTpool (h : s.Exclusive) (hr : s.destroyTpool = .ok s') : s'.Exclusive := by
  have hmove := holds_setDestroyer s
  have hat : s.holds .destroyer = s.destroyer.locked := rfl
  cases destroyTpool_move hr with
  | lock hp hfree => exact h.lock (hmove .broadcast) hfree
  | broadcast hp =>
    rw [hp] at hat
    exact h.stay (holds_wakeAll.trans (hmove .unlock)) hat rfl
  | unlock hp =>
    rw [hp] at hat
    exact h.unlock (hmove (.join 0)) hat
  | drain w hp => exact h
  | leave hp | enter hp | set hp | join j hp | joined j hp | freed hp =>
    rw [hp] at hat
    exact h.stay (hmove _) hat rfl

/-- **Mutual exclusion**: every step keeps one owner of the lock. -/
theorem Exclusive.step {turn : Turn n κ} (h : s.Exclusive) (hr : s.step turn = .ok s') :
    s'.Exclusive := by
  rcases of_step hr with ⟨i, hr⟩ | ⟨k, routine, args, memory, hr⟩ | ⟨k, wakes, hr⟩ | hr
  · exact h.workRoutine hr
  · exact h.callAdd hr
  · exact h.addTask2Tpool hr
  · exact h.destroyTpool hr

end Tpool

end Cnpv
