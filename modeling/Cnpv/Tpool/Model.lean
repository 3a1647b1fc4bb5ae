import Cnpv.CLib.Chain
import Cnpv.CLib.Exec
import Cnpv.CLib.Mutex
import Mathlib.Data.Finset.Basic

/-!
# The thread pool (`ns_agent/src/tpool.c`)

`n` workers run `work_routine`, any number of threads call `add_task_2_tpool`, and one calls
`destroy_tpool`. A step is what one thread does at its place, and the schedule (`Turn`) says which
thread is next, so a run of `step` is an interleaving. A thread that waits for the lock, or for a
worker to exit, cannot take a step (`Halt.blocked`).

A worker in `pthread_cond_wait` has given the lock back. It sleeps until a signal, the broadcast or
a spurious wakeup wakes it, and takes the lock again before it goes on.

Works are in memory that `malloc` gives: `live` are the addresses in use. `taken` are the tasks that
workers took, in order. What the threads that add tasks see is in `calling`, the arguments of the
latest call of each, and in `accepted`, the arguments of the calls that returned 0, in the order in
which they released the lock.

What a routine does is not modelled: every task returns, and its run is one step.
-/

namespace Cnpv

open CLib

/-- The address of a `tpool_work_t`. -/
abbrev WorkPtr := Nat

/-- A call that a worker makes: the function and its argument, as addresses. -/
structure Task where
  workRoutine : Nat
  args : Nat
  deriving DecidableEq, Repr

/-- `tpool_work_t` -/
structure Work where
  task : Task
  next : Option WorkPtr
  deriving DecidableEq, Repr

/-! ## Places -/

/-- Where a worker is in `work_routine`. `w` is its `work`. -/
inductive WorkerPlace
  /-- At `pthread_mutex_lock`. -/
  | lock
  /-- At the condition of the inner loop. -/
  | test
  /-- At `pthread_cond_wait`. -/
  | wait
  | asleep
  /-- Awake, before the wait takes the lock again. -/
  | woken
  /-- At the test of `shutdown`. -/
  | check
  | quit
  | take
  | unlock (w : WorkPtr)
  | run (w : WorkPtr)
  | free (w : WorkPtr)
  | exited
  deriving DecidableEq, Repr

/-- Where a thread is in `add_task_2_tpool`. `w` is its `work`, `m` its `member`. -/
inductive AddPlace
  | idle
  | lock (w : WorkPtr)
  /-- At `member = pool->tpool_head`. -/
  | head (w : WorkPtr)
  /-- At the loop that looks for the last work. -/
  | walk (w m : WorkPtr)
  | signal
  | unlock
  | returned (status : Int)
  deriving DecidableEq, Repr

/-- Where the thread that calls `destroy_tpool` is. -/
inductive DestroyPlace
  | test
  /-- At `pool->shutdown = 1`. -/
  | set
  | lock
  | broadcast
  | unlock
  /-- At `pthread_join` of worker `i`, or past the last one. -/
  | join (i : Nat)
  /-- At the loop that frees the works. -/
  | drain
  /-- It found `shutdown` set. -/
  | left
  /-- It returned, and the pool is freed. -/
  | freed
  deriving DecidableEq, Repr

/-- The places at which a worker holds `queue_lock`. -/
def WorkerPlace.locked : WorkerPlace → Bool
  | .test | .wait | .check | .quit | .take | .unlock _ => true
  | _ => false

def AddPlace.locked : AddPlace → Bool
  | .head _ | .walk _ _ | .signal | .unlock => true
  | _ => false

/-- The places at which a thread has linked its work in and still holds the lock. -/
def AddPlace.linked : AddPlace → Bool
  | .signal | .unlock => true
  | _ => false

def DestroyPlace.locked : DestroyPlace → Bool
  | .broadcast | .unlock => true
  | _ => false

/-- The next step of the worker uses the pool. -/
def WorkerPlace.usesPool : WorkerPlace → Bool
  | .run _ | .free _ | .exited => false
  | _ => true

def AddPlace.usesPool : AddPlace → Bool
  | .idle | .returned _ => false
  | _ => true

/-! ## The state -/

/-- A thread: `n` workers, the threads `κ` that add tasks, and the one that destroys the pool. -/
inductive PoolThread (n : Nat) (κ : Type)
  | worker (i : Fin n)
  | adder (k : κ)
  | destroyer
  deriving DecidableEq

/-- `tpool_t`, the places of the threads, and the memory of the works (module doc). -/
structure Tpool (n : Nat) (κ : Type) where
  shutdown : Bool := false
  tpoolHead : Option WorkPtr := none
  /-- The owner of the lock. -/
  queueLock : Option (PoolThread n κ) := none
  workers : Fin n → WorkerPlace := fun _ => .lock
  adders : κ → AddPlace := fun _ => .idle
  destroyer : DestroyPlace := .test
  works : WorkPtr → Work
  live : Finset WorkPtr := ∅
  calling : κ → Task := fun _ => ⟨0, 0⟩
  accepted : List Task := []
  taken : List Task := []

/-- `create_tpool`, when every call that it makes succeeds: each worker is at the start of
`work_routine`. Memory that is not in use holds anything. -/
def createTpool (n : Nat) (κ : Type) (works : WorkPtr → Work) : Tpool n κ := { works }

namespace Tpool

variable {n : Nat} {κ : Type} [DecidableEq κ]

def next (s : Tpool n κ) (w : WorkPtr) : Option WorkPtr := (s.works w).next

def task (s : Tpool n κ) (w : WorkPtr) : Task := (s.works w).task

def setWorker (s : Tpool n κ) (i : Fin n) (p : WorkerPlace) : Tpool n κ :=
  { s with workers := Function.update s.workers i p }

def setAdder (s : Tpool n κ) (k : κ) (p : AddPlace) : Tpool n κ :=
  { s with adders := Function.update s.adders k p }

def setCalling (s : Tpool n κ) (k : κ) (task : Task) : Tpool n κ :=
  { s with calling := Function.update s.calling k task }

def setDestroyer (s : Tpool n κ) (p : DestroyPlace) : Tpool n κ := { s with destroyer := p }

/-- `pthread_mutex_lock` -/
def lock (s : Tpool n κ) (t : PoolThread n κ) : Exec (Tpool n κ) :=
  if s.queueLock = none then .ok { s with queueLock := some t } else .error .blocked

/-- `pthread_mutex_unlock` -/
def unlock (s : Tpool n κ) : Tpool n κ := { s with queueLock := none }

/-- A use of the work `w`. -/
def use (s : Tpool n κ) (w : WorkPtr) : Exec Unit :=
  if w ∈ s.live then .ok () else .error (.undefined .useAfterFree)

/-- `free(w)` -/
def free (s : Tpool n κ) (w : WorkPtr) : Tpool n κ := { s with live := s.live.erase w }

/-- `pthread_cond_broadcast` -/
def wakeAll (s : Tpool n κ) : Tpool n κ :=
  { s with workers := fun i => if s.workers i = .asleep then .woken else s.workers i }

/-! ## Steps -/

/-- `work = pool->tpool_head; pool->tpool_head = pool->tpool_head->next;` by worker `i`. -/
def takeWork (s : Tpool n κ) (i : Fin n) : Exec (Tpool n κ) :=
  s.tpoolHead.elim (.error (.undefined .nullPointer)) fun w => do
    s.use w
    .ok { s.setWorker i (.unlock w) with
      tpoolHead := s.next w
      taken := s.taken ++ [s.task w] }

/-- A step of worker `i` in `work_routine`. The run of a task is one step: every task returns. -/
def workRoutine (s : Tpool n κ) (i : Fin n) : Exec (Tpool n κ) :=
  match s.workers i with
  | .lock => (s.setWorker i .test).lock (.worker i)
  | .test => .ok (s.setWorker i (if s.tpoolHead = none ∧ s.shutdown = false then .wait else .check))
  | .wait => .ok (s.setWorker i .asleep).unlock
  | .asleep => .ok (s.setWorker i .woken)
  | .woken => (s.setWorker i .test).lock (.worker i)
  | .check => .ok (s.setWorker i (if s.shutdown then .quit else .take))
  | .quit => .ok (s.setWorker i .exited).unlock
  | .take => s.takeWork i
  | .unlock w => .ok (s.setWorker i (.run w)).unlock
  | .run w => do
    s.use w
    .ok (s.setWorker i (.free w))
  | .free w => do
    s.use w
    .ok ((s.setWorker i .lock).free w)
  | .exited => .error .blocked

/-- The call of the thread `k` returns. -/
def ret (s : Tpool n κ) (k : κ) (status : Int) : Tpool n κ :=
  { s.setAdder k (.returned status) with
    accepted := if status = 0 then s.accepted ++ [s.calling k] else s.accepted }

/-- The thread `k` has the memory of the new work `w`, and sets its fields. -/
def newWork (s : Tpool n κ) (k : κ) (w : WorkPtr) (task : Task) : Tpool n κ :=
  { s.setAdder k (.lock w) with
    works := Function.update s.works w { task, next := none }
    live := insert w s.live }

/-- `add_task_2_tpool` up to its lock; `memory` is what `malloc` returns. -/
def makeWork (s : Tpool n κ) (k : κ) (routine : Option Nat) (args : Nat) (memory : Option WorkPtr) :
    Exec (Tpool n κ) :=
  routine.elim (.ok (s.ret k (-1))) fun r =>
    memory.elim (.ok (s.ret k (-1))) fun w =>
      if w ∈ s.live then .error .blocked
      else .ok (s.newWork k w { workRoutine := r, args })

/-- The thread `k` calls `add_task_2_tpool`; the routine `none` is `NULL`. -/
def callAdd (s : Tpool n κ) (k : κ) (routine : Option Nat) (args : Nat) (memory : Option WorkPtr) :
    Exec (Tpool n κ) :=
  if (s.adders k).usesPool then .error .blocked
  else (s.setCalling k { workRoutine := routine.getD 0, args }).makeWork k routine args memory

/-- `pthread_cond_signal`, which wakes one of the workers that sleep, if there is one. -/
def signal (s : Tpool n κ) (wakes : Option (Fin n)) : Exec (Tpool n κ) :=
  wakes.elim (if ∀ i, s.workers i ≠ .asleep then .ok s else .error .blocked) fun i =>
    if s.workers i = .asleep then .ok (s.setWorker i .woken) else .error .blocked

/-- A step of the thread `k` in `add_task_2_tpool`; `wakes` is the worker that a signal wakes. -/
def addTask2Tpool (s : Tpool n κ) (k : κ) (wakes : Option (Fin n)) : Exec (Tpool n κ) :=
  match s.adders k with
  | .lock w => (s.setAdder k (.head w)).lock (.adder k)
  | .head w => .ok (s.tpoolHead.elim { s.setAdder k .signal with tpoolHead := some w } fun m =>
      s.setAdder k (.walk w m))
  | .walk w m => do
    s.use m
    .ok ((s.next m).elim
      { s.setAdder k .signal with works := Function.update s.works m { s.works m with next := some w } }
      fun m' => s.setAdder k (.walk w m'))
  | .signal => (s.setAdder k .unlock).signal wakes
  | .unlock => .ok (s.ret k 0).unlock
  | .idle | .returned _ => .error .blocked

/-- A step of the thread in `destroy_tpool`. -/
def destroyTpool (s : Tpool n κ) : Exec (Tpool n κ) :=
  match s.destroyer with
  | .test => .ok (s.setDestroyer (if s.shutdown then .left else .set))
  | .set => .ok { s.setDestroyer .lock with shutdown := true }
  | .lock => (s.setDestroyer .broadcast).lock .destroyer
  | .broadcast => .ok (s.setDestroyer .unlock).wakeAll
  | .unlock => .ok (s.setDestroyer (.join 0)).unlock
  | .join i =>
    if h : i < n then
      if s.workers ⟨i, h⟩ = .exited then .ok (s.setDestroyer (.join (i + 1))) else .error .blocked
    else .ok (s.setDestroyer .drain)
  | .drain => s.tpoolHead.elim (.ok (s.setDestroyer .freed)) fun w => do
    s.use w
    .ok { s.free w with tpoolHead := s.next w }
  | .left | .freed => .error .blocked

/-- Whose turn it is, and what the calls of the C library do in the step. -/
inductive Turn (n : Nat) (κ : Type)
  | worker (i : Fin n)
  | call (k : κ) (routine : Option Nat) (args : Nat) (memory : Option WorkPtr)
  | add (k : κ) (wakes : Option (Fin n))
  | destroy

/-- The pool is freed, and the step would use it. -/
def usesFreed (s : Tpool n κ) : Turn n κ → Bool
  | .worker i => s.destroyer = .freed && (s.workers i).usesPool
  | .add k _ => s.destroyer = .freed && (s.adders k).usesPool
  | _ => false

/-- One step of one thread. -/
def step (s : Tpool n κ) (turn : Turn n κ) : Exec (Tpool n κ) :=
  if s.usesFreed turn then .error (.undefined .useAfterFree)
  else match turn with
    | .worker i => s.workRoutine i
    | .call k routine args memory => s.callAdd k routine args memory
    | .add k wakes => s.addTask2Tpool k wakes
    | .destroy => s.destroyTpool

end Tpool

end Cnpv
