import Cnpv.Tpool.Steps

/-!
# The shutdown of the thread pool

After `destroy_tpool` has given the lock back, no worker sleeps in `pthread_cond_wait`, and no
worker takes a task (`released_strands_none`), so that its joins wait only for workers that are on
their way out.

The flag is set outside of the lock. A worker that has read the old flag is between its test and its
wait, or between its test and its take (`Tpool.Closing`): it holds the lock there, so it is gone
from these places before `destroy_tpool` has the lock. The broadcast wakes the ones that went to
sleep.
-/

namespace Cnpv

open CLib

/-- `destroy_tpool` is past its broadcast. -/
def DestroyPlace.woke : DestroyPlace → Bool
  | .unlock | .join _ | .drain | .freed => true
  | _ => false

/-- `destroy_tpool` has given the lock back after its broadcast. -/
def DestroyPlace.released : DestroyPlace → Bool
  | .join _ | .drain | .freed => true
  | _ => false

theorem DestroyPlace.locked_or_released {p : DestroyPlace} (h : p.woke = true) :
    p.locked = true ∨ p.released = true := by
  cases p <;> first | exact .inl rfl | exact .inr rfl | cases h

theorem DestroyPlace.woke_of_released {p : DestroyPlace} (h : p.released = true) : p.woke = true := by
  cases p <;> first | rfl | cases h

theorem DestroyPlace.released_eq_true {p : DestroyPlace} : p.released = true ↔ 5 ≤ p.stage := by
  cases p <;> simp [DestroyPlace.released, DestroyPlace.stage]

namespace Tpool

variable {n : Nat} {κ : Type} [DecidableEq κ] {s s' : Tpool n κ} {i : Fin n}

/-- How far the shutdown is. -/
structure Closing (s : Tpool n κ) : Prop where
  lock : s.Exclusive
  flag : s.destroyer = .test ∨ s.destroyer = .set ∨ s.shutdown = true
  awake : s.destroyer.woke = true → ∀ i, s.workers i ≠ .asleep
  closed : s.destroyer.released = true → ∀ i, s.workers i ≠ .wait ∧ s.workers i ≠ .take

omit [DecidableEq κ] in
/-- Before the broadcast there is only the flag to look at. -/
theorem Closing.of_not_woke (hlock : s.Exclusive)
    (hflag : s.destroyer = .test ∨ s.destroyer = .set ∨ s.shutdown = true)
    (hwoke : s.destroyer.woke ≠ true) : s.Closing where
  lock := hlock
  flag := hflag
  awake h := absurd h hwoke
  closed h := absurd (DestroyPlace.woke_of_released h) hwoke

theorem closing_createTpool (n : Nat) (κ : Type) [DecidableEq κ] (works : WorkPtr → Work) :
    (createTpool n κ works).Closing :=
  .of_not_woke (exclusive_createTpool n κ works) (.inl rfl) Bool.false_ne_true

omit [DecidableEq κ] in
theorem Closing.shutdown_of_released (h : s.Closing) (hr : s.destroyer.released = true) :
    s.shutdown = true := by
  rcases h.flag with hp | hp | hflag
  · rw [hp] at hr; cases hr
  · rw [hp] at hr; cases hr
  · exact hflag

omit [DecidableEq κ] in
/-- While `destroy_tpool` has the lock, no worker is at its wait or its take. -/
theorem Closing.not_at (h : s.Closing) (hp : s.destroyer.locked = true) :
    s.workers i ≠ .wait ∧ s.workers i ≠ .take := by
  have hout : s.holds (.worker i) ≠ true := fun hi => by
    cases h.lock.unique hi (show s.holds .destroyer = true from hp)
  constructor
  · exact fun hi => hout (by rw [holds, hi]; rfl)
  · exact fun hi => hout (by rw [holds, hi]; rfl)

omit [DecidableEq κ] in
/-- No worker goes to sleep after the broadcast, and none to its wait or its take once the lock is
given back. -/
theorem Closing.worker (h : s.Closing) (hlock : s'.Exclusive) (hw : WorkerStep s s' i) :
    s'.Closing where
  lock := hlock
  flag := by
    rw [hw.destroyer, hw.shutdown]
    exact h.flag
  awake hwoke j hj := by
    rw [hw.destroyer] at hwoke
    by_cases he : j = i
    · subst he
      have hwait := hw.asleep hj
      rcases DestroyPlace.locked_or_released hwoke with hp | hp
      · exact (h.not_at hp).1 hwait
      · exact (h.closed hp j).1 hwait
    · rw [hw.other j he] at hj
      exact h.awake hwoke j hj
  closed hr j := by
    rw [hw.destroyer] at hr
    by_cases he : j = i
    · subst he
      have hflag := h.shutdown_of_released hr
      refine ⟨fun hj => ?_, fun hj => ?_⟩
      · cases hflag.symm.trans (hw.wait hj)
      · cases hflag.symm.trans (hw.take hj)
    · rw [hw.other j he]
      exact h.closed hr j

omit [DecidableEq κ] in
theorem Closing.add (h : s.Closing) (hlock : s'.Exclusive) (ha : AddStep s s') : s'.Closing where
  lock := hlock
  flag := by
    rw [ha.destroyer, ha.shutdown]
    exact h.flag
  awake hwoke j hj := by
    rw [ha.destroyer] at hwoke
    rcases ha.workers j with he | ⟨-, he⟩
    · exact h.awake hwoke j (he.symm.trans hj)
    · cases he.symm.trans hj
  closed hr j := by
    rw [ha.destroyer] at hr
    rcases ha.workers j with he | ⟨-, he⟩
    · rw [he]
      exact h.closed hr j
    · rw [he]
      exact ⟨nofun, nofun⟩

/-- **The broadcast** is made with the lock, and the lock given back after it. -/
theorem Closing.destroyTpool (h : s.Closing) (hr : s.destroyTpool = .ok s') : s'.Closing := by
  have hlock := h.lock.destroyTpool hr
  cases destroyTpool_move hr with
  | leave hp hflag => exact .of_not_woke hlock (.inr (.inr hflag)) Bool.false_ne_true
  | enter hp hflag => exact .of_not_woke hlock (.inr (.inl rfl)) Bool.false_ne_true
  | set hp => exact .of_not_woke hlock (.inr (.inr rfl)) Bool.false_ne_true
  | lock hp hfree =>
    have hflag : s.shutdown = true := by simpa [hp] using h.flag
    exact .of_not_woke hlock (.inr (.inr hflag)) Bool.false_ne_true
  | broadcast hp =>
    have hflag : s.shutdown = true := by simpa [hp] using h.flag
    refine ⟨hlock, .inr (.inr hflag), fun _ i hi => ?_, fun h => absurd h Bool.false_ne_true⟩
    have hi : (if s.workers i = .asleep then WorkerPlace.woken else s.workers i) = .asleep := hi
    split at hi
    · cases hi
    · next hne => exact hne hi
  | unlock hp =>
    have hflag : s.shutdown = true := by simpa [hp] using h.flag
    exact ⟨hlock, .inr (.inr hflag), fun _ => h.awake (hp ▸ rfl), fun _ i => h.not_at (hp ▸ rfl)⟩
  | join j hp | joined j hp | freed hp =>
    have hflag := h.shutdown_of_released (hp ▸ rfl)
    exact ⟨hlock, .inr (.inr hflag), fun _ => h.awake (hp ▸ rfl), fun _ => h.closed (hp ▸ rfl)⟩
  | drain w hp =>
    have hflag := h.shutdown_of_released (hp ▸ rfl)
    exact ⟨hlock, .inr (.inr hflag), h.awake, h.closed⟩

theorem Closing.step {turn : Turn n κ} (h : s.Closing) (hr : s.step turn = .ok s') : s'.Closing := by
  have hlock := h.lock.step hr
  rcases of_step hr with ⟨i, hr⟩ | ⟨k, routine, args, memory, hr⟩ | ⟨k, wakes, hr⟩ | hr
  · exact h.worker hlock (workRoutine_ok hr)
  · exact h.add hlock (callAdd_step hr)
  · exact h.add hlock (addTask2Tpool_step hr)
  · exact h.destroyTpool hr

/-- After the lock was given back, a step takes no task. -/
theorem Closing.taken_step {turn : Turn n κ} (h : s.Closing) (hreleased : s.destroyer.released = true)
    (hr : s.step turn = .ok s') : s'.destroyer.released = true ∧ s'.taken = s.taken := by
  constructor
  · rw [DestroyPlace.released_eq_true] at hreleased ⊢
    exact hreleased.trans (stage_of_step hr)
  · rcases of_step hr with ⟨i, hr⟩ | ⟨k, routine, args, memory, hr⟩ | ⟨k, wakes, hr⟩ | hr
    · exact (workRoutine_ok hr).taken (h.closed hreleased i).2
    · exact (callAdd_step hr).taken
    · exact (addTask2Tpool_step hr).taken
    · exact (destroyTpool_ok hr).2.2

theorem Closing.run {turns : List (Turn n κ)} (h : s.Closing) (hr : runFrom Tpool.step s turns = .ok s') :
    s'.Closing :=
  runFrom_keeps Closing (fun _ _ _ _ h hr => h.step hr) h hr

end Tpool

/-- **No worker is stranded** once `destroy_tpool` has given the lock back: none sleeps then or
later, and none takes a task any more. -/
theorem released_strands_none {n : Nat} {κ : Type} [DecidableEq κ] {works : WorkPtr → Work}
    {turns : List (Tpool.Turn n κ)} {s : Tpool n κ}
    (hrun : runFrom Tpool.step (createTpool n κ works) turns = .ok s)
    (hreleased : s.destroyer.released = true) :
    (∀ i, s.workers i ≠ .asleep) ∧
    ∀ more s', runFrom Tpool.step s more = .ok s' →
      (∀ i, s'.workers i ≠ .asleep) ∧ s'.taken = s.taken := by
  have hclosing := (Tpool.closing_createTpool n κ works).run hrun
  refine ⟨hclosing.awake (DestroyPlace.woke_of_released hreleased), fun more s' hmore => ?_⟩
  obtain ⟨hclosing', hreleased', htaken⟩ := runFrom_keeps
    (fun s' => s'.Closing ∧ s'.destroyer.released = true ∧ s'.taken = s.taken)
    (fun _ _ s₁ s₂ ⟨h, hreleased, htaken⟩ hr =>
      ⟨h.step hr, (h.taken_step hreleased hr).1, (h.taken_step hreleased hr).2.trans htaken⟩)
    ⟨hclosing, hreleased, rfl⟩ hmore
  exact ⟨hclosing'.awake (DestroyPlace.woke_of_released hreleased'), htaken⟩

/-- A worker that sleeps when `destroy_tpool` is called. -/
theorem released_strands_none_asleep :
    ∃ s, runFrom Tpool.step (createTpool 1 Unit fun _ => ⟨⟨0, 0⟩, none⟩)
      [.worker 0, .worker 0, .worker 0, .destroy, .destroy, .destroy, .destroy, .destroy] = .ok s ∧
      s.workers 0 = .woken ∧ ∀ more s', runFrom Tpool.step s more = .ok s' →
        (∀ i, s'.workers i ≠ .asleep) ∧ s'.taken = s.taken := by
  obtain ⟨s, hs, hend⟩ := Exec.of_returned
    (x := runFrom Tpool.step (createTpool 1 Unit fun _ => ⟨⟨0, 0⟩, none⟩)
      [.worker 0, .worker 0, .worker 0, .destroy, .destroy, .destroy, .destroy, .destroy])
    (p := fun s => s.destroyer.released = true ∧ s.workers 0 = .woken) (by decide)
  obtain ⟨hreleased, hwoken⟩ := of_decide_eq_true hend
  exact ⟨s, hs, hwoken, (released_strands_none hs hreleased).2⟩

end Cnpv
