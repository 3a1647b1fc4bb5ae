import Cnpv.Tpool.Lifecycle
import Cnpv.Tpool.Shutdown
import Mathlib.Algebra.Order.BigOperators.Group.Finset

/-!
# `destroy_tpool` returns

When `destroy_tpool` is at its joins, and no thread adds a task any more (`Tpool.Ending`), every
schedule ends, after at most `Tpool.stepsLeft` steps, with the pool freed (`destroyTpool_returns`):

* each step makes `stepsLeft` smaller (`Ending.stepsLeft_lt`), since no worker waits and none takes a
  task, so a worker does not come back to its lock more than once;
* while the pool is not freed, a worker or `destroy_tpool` can step (`Ending.progress`): the worker
  that it joins, or the owner of the lock that this worker waits for.
-/

namespace Cnpv

open CLib

/-- The steps that a worker has left when it takes no task. -/
def WorkerPlace.stepsLeft : WorkerPlace → Nat
  | .exited => 0
  | .quit => 1
  | .check => 2
  | .test => 3
  | .lock | .woken => 4
  | .free _ => 5
  | .run _ => 6
  | .unlock _ => 7
  | .wait | .asleep | .take => 8

/-- The steps that `destroy_tpool` has left from its first join on, but the works that it frees. -/
def DestroyPlace.stepsLeft (n : Nat) : DestroyPlace → Nat
  | .join j => n - j + 2
  | .drain => 1
  | _ => 0

theorem AddPlace.locked_of_usesPool {p : AddPlace} (h : p.usesPool = false) : p.locked = false := by
  cases p <;> first | rfl | cases h

theorem DestroyPlace.locked_of_released {p : DestroyPlace} (h : p.released = true) :
    p.locked = false := by
  cases p <;> first | rfl | cases h

namespace Tpool

variable {n : Nat} {κ : Type} {s s' : Tpool n κ} {i : Fin n}

/-- The steps that the workers and `destroy_tpool` have left, at most. -/
def stepsLeft (s : Tpool n κ) : Nat :=
  ∑ i, (s.workers i).stepsLeft + s.destroyer.stepsLeft n + s.live.card

/-- `destroy_tpool` is at its joins, or past them, and no thread adds a task. -/
structure Ending (s : Tpool n κ) : Prop where
  life : s.Life
  closing : s.Closing
  released : s.destroyer.released = true
  idle : ∀ k, (s.adders k).usesPool = false

theorem Ending.not_at (h : s.Ending) :
    s.workers i ≠ .wait ∧ s.workers i ≠ .asleep ∧ s.workers i ≠ .take :=
  ⟨(h.closing.closed h.released i).1, h.closing.awake (DestroyPlace.woke_of_released h.released) i,
    (h.closing.closed h.released i).2⟩

/-! ## Every step is one less -/

/-- A worker that does not wait and takes no task is nearer to its exit after a step. -/
theorem Ending.workRoutine_lt (h : s.Ending) (hr : s.workRoutine i = .ok s') :
    (s'.workers i).stepsLeft < (s.workers i).stepsLeft := by
  have hflag := h.closing.shutdown_of_released h.released
  obtain ⟨hwait, hasleep, htake⟩ := h.not_at (i := i)
  cases workRoutine_move hr with
  | wait hp hhead hno | goOn hp hno => cases hflag.symm.trans hno
  | sleep hp => exact absurd hp hwait
  | wake hp => exact absurd hp hasleep
  | take w hp hhead => exact absurd hp htake
  | lock hp hfree =>
    rcases hp with hp | hp
    · simp [setWorker, hp, WorkerPlace.stepsLeft]
    · simp [setWorker, hp, WorkerPlace.stepsLeft]
  | check hp | quit hp | exit hp | unlock w hp | run w hp | free w hp =>
    simp [setWorker, Tpool.unlock, Tpool.free, hp, WorkerPlace.stepsLeft]

theorem live_workRoutine (hr : s.workRoutine i = .ok s') : s'.live ⊆ s.live := by
  cases workRoutine_move hr with
  | free w hp => exact Finset.erase_subset _ _
  | _ => exact Finset.Subset.refl _

theorem adders_workRoutine (hr : s.workRoutine i = .ok s') : s'.adders = s.adders := by
  cases workRoutine_move hr <;> rfl

theorem adders_destroyTpool (hr : s.destroyTpool = .ok s') : s'.adders = s.adders := by
  cases destroyTpool_move hr <;> rfl

/-- A join is one less, and so is a work that `destroy_tpool` frees. -/
theorem Ending.destroyTpool_lt (h : s.Ending) (hr : s.destroyTpool = .ok s') :
    s'.workers = s.workers ∧
    s'.destroyer.stepsLeft n + s'.live.card < s.destroyer.stepsLeft n + s.live.card := by
  have hreleased := h.released
  cases destroyTpool_move hr with
  | leave hp | enter hp | set hp | lock hp | broadcast hp | unlock hp =>
    rw [hp] at hreleased
    cases hreleased
  | join j hp hj hexited =>
    refine ⟨rfl, Nat.add_lt_add_right ?_ _⟩
    rw [hp]
    show n - (j + 1) + 2 < n - j + 2
    omega
  | joined j hp hj =>
    refine ⟨rfl, Nat.add_lt_add_right ?_ _⟩
    rw [hp]
    show 1 < n - j + 2
    omega
  | drain w hp hhead =>
    obtain ⟨q, hchain, hlive⟩ := h.life.chain
    exact ⟨rfl, Nat.add_lt_add_left (Finset.card_erase_lt_of_mem (hlive w (hchain.head_mem hhead))) _⟩
  | freed hp hhead =>
    refine ⟨rfl, Nat.add_lt_add_right ?_ _⟩
    rw [hp]
    exact Nat.zero_lt_one

variable [DecidableEq κ]

theorem Ending.stepsLeft_lt {turn : Turn n κ} (h : s.Ending) (hcalls : turn.calls = false)
    (hr : s.step turn = .ok s') : s'.stepsLeft < s.stepsLeft := by
  unfold Tpool.step at hr
  split at hr
  · cases hr
  · cases turn with
    | worker i =>
      have hstep := workRoutine_ok hr
      have hle : ∀ j, (s'.workers j).stepsLeft ≤ (s.workers j).stepsLeft := fun j => by
        by_cases hj : j = i
        · subst hj
          exact (h.workRoutine_lt hr).le
        · rw [hstep.other j hj]
      have hsum : ∑ j, (s'.workers j).stepsLeft < ∑ j, (s.workers j).stepsLeft :=
        Finset.sum_lt_sum (fun j _ => hle j) ⟨i, Finset.mem_univ i, h.workRoutine_lt hr⟩
      have hlive : s'.live.card ≤ s.live.card := Finset.card_le_card (live_workRoutine hr)
      unfold stepsLeft
      rw [hstep.destroyer]
      omega
    | call k routine args memory => cases hcalls
    | add k wakes => cases (addTask2Tpool_idle (h.idle k)).symm.trans hr
    | destroy =>
      obtain ⟨hworkers, hlt⟩ := h.destroyTpool_lt hr
      unfold stepsLeft
      rw [hworkers]
      omega

theorem Ending.step {turn : Turn n κ} (h : s.Ending) (hcalls : turn.calls = false)
    (hr : s.step turn = .ok s') : s'.Ending where
  life := h.life.step (fun _ => ⟨hcalls, h.idle⟩) hr
  closing := h.closing.step hr
  released := (h.closing.taken_step h.released hr).1
  idle := by
    unfold Tpool.step at hr
    split at hr
    · cases hr
    · cases turn with
      | worker i => exact adders_workRoutine hr ▸ h.idle
      | call k routine args memory => cases hcalls
      | add k wakes => cases (addTask2Tpool_idle (h.idle k)).symm.trans hr
      | destroy => exact adders_destroyTpool hr ▸ h.idle

/-! ## A thread can step -/

omit [DecidableEq κ] in
/-- A worker that has not exited can step, unless it waits for the lock. -/
theorem Ending.worker_enabled (h : s.Ending) (hd : s.destroyer.drains = false)
    (hi : s.workers i ≠ .exited) (hlock : (s.workers i).locked = true ∨ s.queueLock = none) :
    ∃ s', s.workRoutine i = .ok s' := by
  obtain ⟨q, hqueued⟩ := h.life.queued hd
  obtain ⟨hwait, hasleep, htake⟩ := h.not_at (i := i)
  have huse : ∀ w, s.owned (.worker i) = some w → s.use w = .ok () := fun w hw =>
    use_of_live (hqueued.own (.worker i) w hw).1
  unfold Tpool.workRoutine
  cases hp : s.workers i with
  | lock | woken =>
    rw [hp] at hlock
    have hfree : s.queueLock = none := hlock.resolve_left Bool.false_ne_true
    exact ⟨_, lock_ok.mpr ⟨hfree, rfl⟩⟩
  | wait => exact absurd hp hwait
  | asleep => exact absurd hp hasleep
  | take => exact absurd hp htake
  | run w | free w =>
    simp only
    rw [huse w (by rw [owned, hp]; rfl)]
    exact ⟨_, rfl⟩
  | exited => exact absurd hp hi
  | test | check | quit | unlock w => exact ⟨_, rfl⟩

omit [DecidableEq κ] in
/-- The lock is free, or a worker has it. -/
theorem Ending.owner (h : s.Ending) :
    s.queueLock = none ∨ ∃ i, (s.workers i).locked = true := by
  cases hlock : s.queueLock with
  | none => exact .inl rfl
  | some t =>
    have hholds : s.holds t = true := (h.life.lock t).mpr hlock
    cases t with
    | worker i => exact .inr ⟨i, hholds⟩
    | adder k => cases (AddPlace.locked_of_usesPool (h.idle k)).symm.trans hholds
    | destroyer => cases (DestroyPlace.locked_of_released h.released).symm.trans hholds

omit [DecidableEq κ] in
/-- The worker that is joined has exited, or it can step, or it waits for one that can step. -/
theorem Ending.join_enabled {j : Nat} (h : s.Ending) (hp : s.destroyer = .join j) :
    (∃ s', s.destroyTpool = .ok s') ∨ ∃ i s', s.workRoutine i = .ok s' := by
  have hd : s.destroyer.drains = false := by rw [hp]; rfl
  by_cases hj : j < n
  · by_cases hexited : s.workers ⟨j, hj⟩ = .exited
    · refine .inl ⟨s.setDestroyer (.join (j + 1)), ?_⟩
      rw [Tpool.destroyTpool, hp]
      simp only [dif_pos hj, if_pos hexited]
    · rcases h.owner with hfree | ⟨i, hi⟩
      · exact .inr ⟨⟨j, hj⟩, h.worker_enabled hd hexited (.inr hfree)⟩
      · have hrunning : s.workers i ≠ .exited := fun e => by rw [e] at hi; cases hi
        exact .inr ⟨i, h.worker_enabled hd hrunning (.inl hi)⟩
  · refine .inl ⟨s.setDestroyer .drain, ?_⟩
    rw [Tpool.destroyTpool, hp]
    simp only [dif_neg hj]

/-- **No thread waits for ever**: until the pool is freed, a worker or `destroy_tpool` can step. -/
theorem Ending.progress (h : s.Ending) (hfreed : s.destroyer ≠ .freed) :
    ∃ turn s', turn.calls = false ∧ s.step turn = .ok s' := by
  have hdestroy : (∃ s', s.destroyTpool = .ok s') →
      ∃ turn s', turn.calls = false ∧ s.step turn = .ok s' := by
    rintro ⟨s', hs'⟩
    exact ⟨.destroy, s', rfl, hs'⟩
  have hreleased := h.released
  cases hp : s.destroyer with
  | join j =>
    rcases h.join_enabled hp with hs' | ⟨i, s', hs'⟩
    · exact hdestroy hs'
    · exact ⟨.worker i, s', rfl, by simpa [Tpool.step, usesFreed, hfreed] using hs'⟩
  | drain => exact hdestroy (h.life.drain_enabled hp)
  | freed => exact absurd hp hfreed
  | test | set | lock | broadcast | unlock | left => rw [hp] at hreleased; cases hreleased

/-- A run that is not at the last loop yet was quiet. -/
theorem quiet_of_not_drains {turns : List (Turn n κ)} (hrun : runFrom Tpool.step s turns = .ok s')
    (hd : s'.destroyer.drains = false) : Along Tpool.step Tpool.Quiet s turns := by
  have hearlier : ∀ {s : Tpool n κ} {turns}, runFrom Tpool.step s turns = .ok s' →
      s.destroyer.drains = false := fun hrun => by
    rw [DestroyPlace.drains_eq_false] at hd ⊢
    refine Nat.lt_of_le_of_lt ?_ hd
    exact runFrom_keeps (fun s₁ => _ ≤ s₁.destroyer.stage)
      (fun _ _ _ _ hle hr => hle.trans (stage_of_step hr)) (Nat.le_refl _) hrun
  induction turns generalizing s with
  | nil => exact trivial
  | cons turn turns ih =>
    refine ⟨fun hdrains => ?_, fun s₁ h₁ => ?_⟩
    · cases (hearlier hrun).symm.trans hdrains
    · rw [runFrom_cons, h₁] at hrun
      exact ih hrun

end Tpool

/-- **`destroy_tpool` returns.** From its joins on, if no thread adds a task any more, a schedule of the
workers and of `destroy_tpool` is no longer than `stepsLeft`, and one that cannot go on has freed the
pool and every work. -/
theorem destroyTpool_returns {n : Nat} {κ : Type} [DecidableEq κ] {works : WorkPtr → Work}
    {turns : List (Tpool.Turn n κ)} {s : Tpool n κ} {j : Nat}
    (hrun : runFrom Tpool.step (createTpool n κ works) turns = .ok s)
    (hjoin : s.destroyer = .join j) (hidle : ∀ k, (s.adders k).usesPool = false) :
    ∀ more s', (∀ turn ∈ more, turn.calls = false) → runFrom Tpool.step s more = .ok s' →
      more.length ≤ s.stepsLeft ∧
      (s'.destroyer = .freed ∧ s'.live = ∅ ∨
        ∃ turn s'', turn.calls = false ∧ s'.step turn = .ok s'') := by
  have hquiet := Tpool.quiet_of_not_drains hrun (hjoin ▸ rfl)
  have hlife : s.Life := runFrom_inv Tpool.Life (fun _ _ _ h hquiet hr => h.step hquiet hr)
    (Tpool.life_createTpool n κ works) hquiet hrun
  have hending : s.Ending :=
    ⟨hlife, (Tpool.closing_createTpool n κ works).run hrun, hjoin ▸ rfl, hidle⟩
  intro more s' hcalls hmore
  have hnone : Along Tpool.step (fun _ turn => turn.calls = false) s more :=
    along_of_forall fun turn hturn _ => hcalls turn hturn
  obtain ⟨hending', hlength⟩ := runFrom_variant Tpool.Ending Tpool.stepsLeft
    (fun _ _ _ h hcalls hr => ⟨h.step hcalls hr, h.stepsLeft_lt hcalls hr⟩) hending hnone hmore
  refine ⟨(Nat.le_add_right _ _).trans hlength, ?_⟩
  by_cases hfreed : s'.destroyer = .freed
  · exact .inl ⟨hfreed, hending'.life.freed hfreed⟩
  · exact .inr (hending'.progress hfreed)

/-- A task is added, and the worker has not run when `destroy_tpool` is at its join. -/
theorem destroyTpool_returns_one :
    ∃ s, runFrom Tpool.step (createTpool 1 Unit fun _ => ⟨⟨0, 0⟩, none⟩)
      [.call () (some 7) 1 (some 0), .add () none, .add () none, .add () none, .add () none,
        .destroy, .destroy, .destroy, .destroy, .destroy] = .ok s ∧
      s.stepsLeft = 8 ∧
      ∀ more s', (∀ turn ∈ more, turn.calls = false) → runFrom Tpool.step s more = .ok s' →
        more.length ≤ s.stepsLeft ∧
        (s'.destroyer = .freed ∧ s'.live = ∅ ∨
          ∃ turn s'', turn.calls = false ∧ s'.step turn = .ok s'') := by
  obtain ⟨s, hs, hend⟩ := Exec.of_returned
    (x := runFrom Tpool.step (createTpool 1 Unit fun _ => ⟨⟨0, 0⟩, none⟩)
      [.call () (some 7) 1 (some 0), .add () none, .add () none, .add () none, .add () none,
        .destroy, .destroy, .destroy, .destroy, .destroy])
    (p := fun s => s.destroyer = .join 0 ∧ (∀ k, (s.adders k).usesPool = false) ∧ s.stepsLeft = 8)
    (by decide)
  obtain ⟨hjoin, hidle, hleft⟩ := of_decide_eq_true hend
  exact ⟨s, hs, hleft, destroyTpool_returns hs hjoin hidle⟩

end Cnpv
