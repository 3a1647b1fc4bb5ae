import Cnpv.Tpool.Queue
import Mathlib.Data.Fintype.Basic

/-!
# The memory of the thread pool

If no thread is in `add_task_2_tpool` any more, or calls it, once `destroy_tpool` has joined the
workers (`Tpool.Quiet`), no step is undefined, also while the works are freed and after that. When the
pool is freed, so is every work that was allocated (`destroyTpool_frees`): by the worker that ran it,
or by `destroy_tpool`.

`Tpool.Covered`: a work in memory is in the queue, or a thread has it. A step moves a work between the
two, and frees only the work that its thread has. `Tpool.Life` is what every such run keeps.
-/

namespace Cnpv

open CLib

/-- `destroy_tpool` has joined the worker `i`. -/
def DestroyPlace.joined (p : DestroyPlace) (i : Nat) : Bool :=
  match p with
  | .join j => decide (i < j)
  | .drain | .freed => true
  | _ => false

theorem DestroyPlace.joined_of_drains {p : DestroyPlace} (h : p.drains = true) (i : Nat) :
    p.joined i = true := by
  cases p <;> first | rfl | cases h

theorem DestroyPlace.ne_freed {p : DestroyPlace} (h : p.drains = false) : p ≠ .freed := by
  rintro rfl
  cases h

namespace Tpool

variable {n : Nat} {κ : Type} {s s' : Tpool n κ} {q : List WorkPtr} {i : Fin n} {k : κ} {w : WorkPtr}

/-- The turn is a call of `add_task_2_tpool`. -/
def Turn.calls : Turn n κ → Bool
  | .call _ _ _ _ => true
  | _ => false

/-- While the works are freed, and after that, no thread adds a task. -/
def Quiet (s : Tpool n κ) (turn : Turn n κ) : Prop :=
  s.destroyer.drains = true → turn.calls = false ∧ ∀ k, (s.adders k).usesPool = false

instance [Fintype κ] (s : Tpool n κ) (turn : Turn n κ) : Decidable (s.Quiet turn) :=
  inferInstanceAs (Decidable (_ → _ ∧ _))

/-- A work in memory is in the queue, or a thread has it. -/
def Covered (s : Tpool n κ) : Prop :=
  ∀ w ∈ s.live, (∀ q, Chain s.next s.tpoolHead q → w ∈ q) ∨ ∃ t, s.owned t = some w

/-! ## Workers that have exited -/

/-- A worker that has exited takes no step. -/
theorem workRoutine_exited (h : s.workers i = .exited) : s.workRoutine i = .error .blocked := by
  rw [Tpool.workRoutine, h]

theorem not_exited_of_workRoutine (h : s.workRoutine i = .ok s') : s.workers i ≠ .exited :=
  fun hi => by cases (workRoutine_exited hi).symm.trans h

/-- A signal wakes workers that sleep, and no other ones. -/
theorem AddStep.exited (h : AddStep s s') (hi : s.workers i = .exited) : s'.workers i = .exited := by
  rcases h.workers i with he | ⟨hasleep, -⟩
  · exact he.trans hi
  · cases hi.symm.trans hasleep

theorem WorkerStep.exited {j : Fin n} (h : WorkerStep s s' j) (hj : s.workers j ≠ .exited)
    (hi : s.workers i = .exited) : s'.workers i = .exited := by
  have hne : i ≠ j := by
    rintro rfl
    exact hj hi
  exact (h.other i hne).trans hi

/-- The workers that are joined have exited: a join waits for that. -/
theorem joined_destroyTpool (h : ∀ i : Fin n, s.destroyer.joined i = true → s.workers i = .exited)
    (hr : s.destroyTpool = .ok s') (i : Fin n) (hi : s'.destroyer.joined i = true) :
    s'.workers i = .exited := by
  cases destroyTpool_move hr with
  | leave hp | enter hp | set hp | lock hp | broadcast hp => cases hi
  | unlock hp =>
    have hi : decide (i.val < 0) = true := hi
    exact absurd (of_decide_eq_true hi) (Nat.not_lt_zero i)
  | join j hp hj hexited =>
    rw [hp] at h
    rcases Nat.lt_succ_iff_lt_or_eq.mp (of_decide_eq_true hi) with hlt | heq
    · exact h i (decide_eq_true hlt)
    · obtain rfl : i = ⟨j, hj⟩ := Fin.ext heq
      exact hexited
  | joined j hp hj =>
    rw [hp] at h
    exact h i (decide_eq_true (Nat.lt_of_lt_of_le i.isLt hj))
  | drain w hp => exact h i hi
  | freed hp =>
    rw [hp] at h
    exact h i rfl

/-! ## No work is lost -/

/-- A step that keeps the memory, and who has which work. -/
theorem Covered.frame (h : s.Covered) (hworks : s'.works = s.works)
    (hhead : s'.tpoolHead = s.tpoolHead) (hlive : s'.live = s.live) (howned : s'.owned = s.owned) :
    s'.Covered := by
  have hnext : s'.next = s.next := by unfold next; rw [hworks]
  intro w hw
  rw [hnext, hhead, howned]
  exact h w (hlive ▸ hw)

theorem owned_wakeAll (s : Tpool n κ) : s.wakeAll.owned = s.owned := by
  funext t
  cases t with
  | worker i =>
    show (if s.workers i = .asleep then WorkerPlace.woken else s.workers i).work = _
    split
    · next hi => rw [owned, hi]; rfl
    · rfl
  | adder k => rfl
  | destroyer => rfl

theorem owned_setDestroyer (s : Tpool n κ) (p : DestroyPlace) : (s.setDestroyer p).owned = s.owned := by
  funext t
  cases t <;> rfl

theorem Covered.destroyTpool (h : s.Covered) (hr : s.destroyTpool = .ok s')
    (hd : s.destroyer.drains = false) : s'.Covered := by
  have hmove : ∀ p, (s.setDestroyer p).Covered := fun p =>
    h.frame rfl rfl rfl (owned_setDestroyer s p)
  cases destroyTpool_move hr with
  | set hp => exact hmove .lock
  | lock hp => exact hmove .broadcast
  | broadcast hp => exact (hmove .unlock).frame rfl rfl rfl (owned_wakeAll _)
  | unlock hp => exact hmove (.join 0)
  | leave hp | enter hp | join j hp | joined j hp => exact hmove _
  | drain w hp | freed hp => rw [hp] at hd; cases hd

/-- When the pool is freed, no work is in memory: none is in the queue, and no thread has one. -/
theorem Covered.live_eq_empty (h : s.Covered) (hhead : s.tpoolHead = none)
    (hworkers : ∀ i, s.workers i = .exited) (hadders : ∀ k, (s.adders k).usesPool = false) :
    s.live = ∅ := by
  refine Finset.eq_empty_of_forall_notMem fun w hw => ?_
  rcases h w hw with hq | ⟨t, ht⟩
  · have hchain : Chain s.next s.tpoolHead [] := hhead
    cases hq [] hchain
  · cases t with
    | worker i => rw [owned, hworkers i] at ht; cases ht
    | adder k => rw [owned, AddPlace.work_of_usesPool (hadders k)] at ht; cases ht
    | destroyer => cases ht

variable [DecidableEq κ]

theorem owned_setWorker_same {p : WorkerPlace} (h : p.work = (s.workers i).work) :
    (s.setWorker i p).owned = s.owned := by
  rw [owned_setWorker, h]
  exact Function.update_eq_self (PoolThread.worker i) s.owned

/-- A worker moves with the work that it has. -/
theorem Covered.moveWorker (h : s.Covered) {p : WorkerPlace} (hp : p.work = (s.workers i).work) :
    (s.setWorker i p).Covered := h.frame rfl rfl rfl (owned_setWorker_same hp)

/-- The worker `i` takes the first work. -/
theorem Covered.takeWork (h : s.Covered) (hi : s.workers i = .take) (hhead : s.tpoolHead = some w) :
    Covered { s.setWorker i (.unlock w) with
      tpoolHead := s.next w
      taken := s.taken ++ [s.task w] } := by
  have howned : Tpool.owned { s.setWorker i (.unlock w) with
      tpoolHead := s.next w
      taken := s.taken ++ [s.task w] } = Function.update s.owned (.worker i) (some w) := by
    rw [← show WorkerPlace.work (.unlock w) = some w from rfl, ← owned_setWorker]
    funext t
    cases t <;> rfl
  intro m hm
  rw [howned]
  rcases h m hm with hq | ⟨t, ht⟩
  · by_cases hmw : m = w
    · exact .inr ⟨.worker i, by rw [Function.update_self, hmw]⟩
    · exact .inl fun q hchain => (List.mem_cons.mp (hq (w :: q) ⟨hhead, hchain⟩)).resolve_left hmw
  · have hne : t ≠ .worker i := by
      rintro rfl
      rw [owned, hi] at ht
      cases ht
    exact .inr ⟨t, by rw [Function.update_of_ne hne, ht]⟩

/-- The worker `i` frees the work that it ran. -/
theorem Covered.freeWork (h : s.Covered) (hi : s.workers i = .free w) :
    ((s.setWorker i .lock).free w).Covered := by
  have howned : ((s.setWorker i .lock).free w).owned = Function.update s.owned (.worker i) none :=
    owned_setWorker s i .lock
  intro m hm
  obtain ⟨hne, hm⟩ := Finset.mem_erase.mp hm
  rw [howned]
  rcases h m hm with hq | ⟨t, ht⟩
  · exact .inl hq
  · have hti : t ≠ .worker i := by
      rintro rfl
      rw [owned, hi] at ht
      exact hne (Option.some.inj ht).symm
    exact .inr ⟨t, by rw [Function.update_of_ne hti, ht]⟩

theorem Covered.workRoutine (h : s.Covered) (hr : s.workRoutine i = .ok s') : s'.Covered := by
  cases workRoutine_move hr with
  | lock hp =>
    have hmove : (s.setWorker i .test).Covered :=
      h.moveWorker (by rcases hp with hp | hp <;> rw [hp] <;> rfl)
    exact hmove.frame rfl rfl rfl rfl
  | sleep hp | exit hp | unlock w hp =>
    exact (h.moveWorker (i := i) (by rw [hp]; rfl)).frame rfl rfl rfl rfl
  | wait hp | check hp | wake hp | quit hp | goOn hp | run w hp => exact h.moveWorker (by rw [hp]; rfl)
  | take w hp hhead => exact h.takeWork hp hhead
  | free w hp => exact h.freeWork hp

theorem owned_setAdder_same {p : AddPlace} (h : p.work = (s.adders k).work) :
    (s.setAdder k p).owned = s.owned := by
  rw [owned_setAdder, h]
  exact Function.update_eq_self (PoolThread.adder k) s.owned

/-- An adding thread moves with the work that it has. -/
theorem Covered.moveAdder (h : s.Covered) {p : AddPlace} (hp : p.work = (s.adders k).work) :
    (s.setAdder k p).Covered := h.frame rfl rfl rfl (owned_setAdder_same hp)

theorem Covered.callAdd (h : s.Covered) (hqueued : s.Queued q) {routine : Option Nat} {args : Nat}
    {memory : Option WorkPtr} (hr : s.callAdd k routine args memory = .ok s') : s'.Covered := by
  obtain ⟨hplace, task, rfl | ⟨w, hw, rfl⟩⟩ := callAdd_ok hr
  · have hmove : (s.setAdder k (.returned (-1))).Covered :=
      h.moveAdder (AddPlace.work_of_usesPool hplace).symm
    exact hmove.frame rfl rfl rfl rfl
  · have howned : ((s.setCalling k task).newWork k w task).owned =
        Function.update s.owned (.adder k) (some w) := owned_setAdder s k (.lock w)
    have hqueued' : ((s.setCalling k task).newWork k w task).Queued q := hqueued.callAdd hr
    intro m hm
    rw [howned]
    rcases Finset.mem_insert.mp hm with rfl | hm
    · exact .inr ⟨.adder k, Function.update_self _ _ _⟩
    · rcases h m hm with hq | ⟨t, ht⟩
      · refine .inl fun q' hq' => ?_
        rw [← hqueued'.chain.unique hq']
        exact hq q hqueued.chain
      · have hne : t ≠ .adder k := by
          rintro rfl
          rw [owned, AddPlace.work_of_usesPool hplace] at ht
          cases ht
        exact .inr ⟨t, by rw [Function.update_of_ne hne, ht]⟩

/-- The work `w` is linked in: the queue is `q'` after it. -/
theorem Covered.link (h : s.Covered) (hqueued : s.Queued q) (hk : (s.adders k).work = some w)
    {q' : List WorkPtr} (hqueued' : s'.Queued q') (hq : q ⊆ q') (hw : w ∈ q')
    (hlive : s'.live = s.live) (howned : s'.owned = (s.setAdder k .signal).owned) : s'.Covered := by
  have hlinked : ∀ m ∈ q', ∀ q₁, Chain s'.next s'.tpoolHead q₁ → m ∈ q₁ := fun m hm q₁ hq₁ =>
    hqueued'.chain.unique hq₁ ▸ hm
  intro m hm
  rcases h m (hlive ▸ hm) with hmq | ⟨t, ht⟩
  · exact .inl (hlinked m (hq (hmq q hqueued.chain)))
  · by_cases htk : t = .adder k
    · subst htk
      obtain rfl : m = w := Option.some.inj (ht.symm.trans hk)
      exact .inl (hlinked m hw)
    · refine .inr ⟨t, ?_⟩
      rw [howned, owned_setAdder, Function.update_of_ne htk, ht]

theorem Covered.addTask2Tpool (h : s.Covered) (hqueued : s.Queued q) (hlock : s.Exclusive)
    {wakes : Option (Fin n)} (hr : s.addTask2Tpool k wakes = .ok s') : s'.Covered := by
  cases addTask2Tpool_move hr with
  | lock w hp | unlock hp => exact (h.moveAdder (k := k) (by rw [hp]; rfl)).frame rfl rfl rfl rfl
  | head w m hp | walk w m m' hp | signal hp => exact h.moveAdder (by rw [hp]; rfl)
  | first w hp hhead =>
    have hwork : (s.adders k).work = some w := by rw [hp]; rfl
    obtain rfl : q = [] := Chain.none_iff.mp (hhead ▸ hqueued.chain)
    exact h.link hqueued hwork (hqueued.linkFirst hlock hp hhead) (by simp) (by simp) rfl
      (by funext t; cases t <;> rfl)
  | last w m hp hnext =>
    have hwork : (s.adders k).work = some w := by rw [hp]; rfl
    exact h.link hqueued hwork (hqueued.linkLast hlock hp hnext) (by simp) (by simp) rfl
      (by funext t; cases t <;> rfl)
  | wake i hp hi =>
    have hmove : (s.setAdder k .unlock).Covered := h.moveAdder (by rw [hp]; rfl)
    have hasleep : (s.setAdder k .unlock).workers i = .asleep := hi
    exact hmove.moveWorker (by rw [hasleep]; rfl)

/-! ## The whole life of a pool -/

/-- What every run keeps, if no thread adds a task while the works are freed. -/
structure Life (s : Tpool n κ) : Prop where
  lock : s.Exclusive
  queued : s.destroyer.drains = false → ∃ q, s.Queued q
  /-- The works that are left are in memory, also while they are freed. -/
  chain : ∃ q, Chain s.next s.tpoolHead q ∧ ∀ w ∈ q, w ∈ s.live
  covered : s.Covered
  joined : ∀ i : Fin n, s.destroyer.joined i = true → s.workers i = .exited
  freed : s.destroyer = .freed → s.live = ∅
  order : s.taken <+: s.accepted

omit [DecidableEq κ] in
theorem Life.of_queued (hlock : s.Exclusive) (hqueued : s.Queued q) (hcovered : s.Covered)
    (hjoined : ∀ i : Fin n, s.destroyer.joined i = true → s.workers i = .exited)
    (hfreed : s.destroyer ≠ .freed) : s.Life where
  lock := hlock
  queued _ := ⟨q, hqueued⟩
  chain := ⟨q, hqueued.chain, hqueued.live⟩
  covered := hcovered
  joined := hjoined
  freed h := absurd h hfreed
  order := hqueued.taken

theorem life_createTpool (n : Nat) (κ : Type) [DecidableEq κ] (works : WorkPtr → Work) :
    (createTpool n κ works).Life :=
  .of_queued (exclusive_createTpool n κ works) (queued_createTpool n κ works)
    (fun w hw => absurd hw (Finset.notMem_empty w)) (fun i hi => by cases hi) (fun h => by cases h)

omit [DecidableEq κ] in
/-- A worker that can step has not been joined. -/
theorem Life.drains_of_workRoutine (h : s.Life) (hr : s.workRoutine i = .ok s') :
    s.destroyer.drains = false :=
  Bool.eq_false_iff.mpr fun hd =>
    not_exited_of_workRoutine hr (h.joined i (DestroyPlace.joined_of_drains hd i))

theorem Life.workRoutine (h : s.Life) (hr : s.workRoutine i = .ok s') : s'.Life := by
  have hd := h.drains_of_workRoutine hr
  have hstep := workRoutine_ok hr
  obtain ⟨q, hqueued⟩ := h.queued hd
  obtain ⟨q', hqueued'⟩ := hqueued.workRoutine h.lock hr
  refine .of_queued (h.lock.workRoutine hr) hqueued' (h.covered.workRoutine hr) (fun j hj => ?_) ?_
  · rw [hstep.destroyer] at hj
    exact hstep.exited (not_exited_of_workRoutine hr) (h.joined j hj)
  · rw [hstep.destroyer]
    exact DestroyPlace.ne_freed hd

/-- A thread that is not in `add_task_2_tpool` has no step in it. -/
theorem addTask2Tpool_idle {wakes : Option (Fin n)} (h : (s.adders k).usesPool = false) :
    s.addTask2Tpool k wakes = .error .blocked := by
  unfold Tpool.addTask2Tpool
  cases hp : s.adders k <;> first | rfl | (rw [hp] at h; cases h)

omit [DecidableEq κ] in
theorem Life.add (h : s.Life) (hlock : s'.Exclusive) (hqueued : s'.Queued q) (hcovered : s'.Covered)
    (hd : s.destroyer.drains = false) (hstep : AddStep s s') : s'.Life := by
  refine .of_queued hlock hqueued hcovered (fun j hj => ?_) ?_
  · rw [hstep.destroyer] at hj
    exact hstep.exited (h.joined j hj)
  · rw [hstep.destroyer]
    exact DestroyPlace.ne_freed hd

omit [DecidableEq κ] in
/-- `destroy_tpool` frees the first of the works that are left. -/
theorem Life.drain (h : s.Life) (hp : s.destroyer = .drain) (hhead : s.tpoolHead = some w)
    (hlock : Exclusive { s.free w with tpoolHead := s.next w }) :
    Life { s.free w with tpoolHead := s.next w } where
  lock := hlock
  queued hd := by
    have hd : s.destroyer.drains = false := hd
    rw [hp] at hd
    cases hd
  chain := by
    obtain ⟨q, hchain, hlive⟩ := h.chain
    rw [hhead] at hchain
    cases q with
    | nil => cases hchain
    | cons m q =>
      cases hchain.1
      have hw : w ∉ q := (List.nodup_cons.mp (Chain.nodup hchain)).1
      exact ⟨q, hchain.2, fun m hm =>
        Finset.mem_erase.mpr ⟨ne_of_mem_of_not_mem hm hw, hlive m (List.mem_cons_of_mem _ hm)⟩⟩
  covered := by
    intro m hm
    obtain ⟨hne, hm⟩ := Finset.mem_erase.mp hm
    rcases h.covered m hm with hq | ht
    · exact .inl fun q hchain => (List.mem_cons.mp (hq (w :: q) ⟨hhead, hchain⟩)).resolve_left hne
    · exact .inr ht
  joined := h.joined
  freed hf := by
    have hf : s.destroyer = .freed := hf
    cases hp.symm.trans hf
  order := h.order

theorem Life.destroyTpool (h : s.Life) (hquiet : s.destroyer.drains = true →
    ∀ k, (s.adders k).usesPool = false) (hr : s.destroyTpool = .ok s') : s'.Life := by
  have hlock := h.lock.destroyTpool hr
  have hjoined := joined_destroyTpool h.joined hr
  cases hd : s.destroyer.drains with
  | false =>
    have hcovered := h.covered.destroyTpool hr hd
    obtain ⟨q, hqueued⟩ := h.queued hd
    refine .of_queued hlock (hqueued.destroyTpool hr hd) hcovered hjoined fun hfreed => ?_
    have hlt : s.destroyer.stage < 6 := DestroyPlace.drains_eq_false.mp hd
    have hle : s'.destroyer.stage ≤ s.destroyer.stage + 1 := (destroyTpool_ok hr).2.1
    have hlast : s'.destroyer.stage = 7 := congrArg DestroyPlace.stage hfreed
    omega
  | true =>
    have hexited := fun i : Fin n => h.joined i (DestroyPlace.joined_of_drains hd i)
    cases destroyTpool_move hr with
    | drain w hp hhead => exact h.drain hp hhead hlock
    | freed hp hhead =>
      exact {
        lock := hlock
        queued := fun hd => by cases hd
        chain := h.chain
        covered := h.covered.frame rfl rfl rfl (owned_setDestroyer s .freed)
        joined := hjoined
        freed := fun _ => h.covered.live_eq_empty hhead hexited (hquiet hd)
        order := h.order }
    | leave hp | enter hp | set hp | lock hp | broadcast hp | unlock hp | join j hp | joined j hp =>
      rw [hp] at hd
      cases hd

/-- **One step** keeps it. While the works are freed, only `destroy_tpool` can step. -/
theorem Life.step {turn : Turn n κ} (h : s.Life) (hquiet : s.Quiet turn) (hr : s.step turn = .ok s') :
    s'.Life := by
  have hlock := h.lock.step hr
  have hidle := fun hd => (hquiet hd).2
  unfold Tpool.step at hr
  split at hr
  · cases hr
  · cases turn with
    | worker i => exact h.workRoutine hr
    | call k routine args memory =>
      have hd : s.destroyer.drains = false := Bool.eq_false_iff.mpr fun hd => by
        cases (hquiet hd).1
      obtain ⟨q, hqueued⟩ := h.queued hd
      exact h.add hlock (hqueued.callAdd hr) (h.covered.callAdd hqueued hr) hd (callAdd_step hr)
    | add k wakes =>
      have hd : s.destroyer.drains = false := Bool.eq_false_iff.mpr fun hd => by
        cases (addTask2Tpool_idle (hidle hd k)).symm.trans hr
      obtain ⟨q, hqueued⟩ := h.queued hd
      obtain ⟨q', hqueued'⟩ := hqueued.addTask2Tpool h.lock hr
      exact h.add hlock hqueued' (h.covered.addTask2Tpool hqueued h.lock hr) hd (addTask2Tpool_step hr)
    | destroy => exact h.destroyTpool hidle hr

omit [DecidableEq κ] in
/-- The works that are left can be freed. -/
theorem Life.drain_enabled (h : s.Life) (hp : s.destroyer = .drain) :
    ∃ s', s.destroyTpool = .ok s' := by
  obtain ⟨q, hchain, hlive⟩ := h.chain
  unfold Tpool.destroyTpool
  rw [hp]
  cases hhead : s.tpoolHead with
  | none => exact ⟨s.setDestroyer .freed, rfl⟩
  | some w =>
    have huse : s.use w = .ok () := use_of_live (hlive w (hchain.head_mem hhead))
    refine ⟨{ s.free w with tpoolHead := s.next w }, ?_⟩
    simp only [Option.elim_some, huse]
    rfl

omit [DecidableEq κ] in
theorem Life.drain_defined (h : s.Life) (hd : s.destroyer.drains = true) {e : Halt}
    (hr : s.destroyTpool = .error e) : e = .blocked := by
  cases hp : s.destroyer with
  | drain =>
    obtain ⟨s', hs'⟩ := h.drain_enabled hp
    cases hs'.symm.trans hr
  | freed =>
    rw [Tpool.destroyTpool, hp] at hr
    exact (Except.error.inj hr).symm
  | _ => rw [hp] at hd; cases hd

/-- **No step is undefined**, also while the works are freed and when the pool is freed. -/
theorem Life.defined {turn : Turn n κ} (h : s.Life) (hquiet : s.Quiet turn) {e : Halt}
    (hr : s.step turn = .error e) : e = .blocked := by
  cases hd : s.destroyer.drains with
  | false =>
    obtain ⟨q, hqueued⟩ := h.queued hd
    exact hqueued.defined hd hr
  | true =>
    have hexited := fun i : Fin n => h.joined i (DestroyPlace.joined_of_drains hd i)
    have hidle := (hquiet hd).2
    have hfreed : s.usesFreed turn = false := by
      cases turn with
      | worker i => simp [usesFreed, hexited i, WorkerPlace.usesPool]
      | add k wakes => simp [usesFreed, hidle k]
      | call k routine args memory => rfl
      | destroy => rfl
    unfold Tpool.step at hr
    rw [hfreed, if_neg Bool.false_ne_true] at hr
    cases turn with
    | worker i => exact (Except.error.inj ((workRoutine_exited (hexited i)).symm.trans hr)).symm
    | call k routine args memory => exact callAdd_error hr
    | add k wakes => exact (Except.error.inj ((addTask2Tpool_idle (hidle k)).symm.trans hr)).symm
    | destroy => exact h.drain_defined hd hr

end Tpool

/-- **The memory of the thread pool**, if no thread adds a task once the workers are joined: no step
uses a work or a pool that is freed, and the tasks are taken in the order of the calls that added
them. A freed pool has left no work in memory, and its workers have exited. -/
theorem destroyTpool_frees {n : Nat} {κ : Type} [DecidableEq κ] {works : WorkPtr → Work}
    {turns : List (Tpool.Turn n κ)} {s : Tpool n κ}
    (hrun : runFrom Tpool.step (createTpool n κ works) turns = .ok s)
    (hquiet : Along Tpool.step Tpool.Quiet (createTpool n κ works) turns) :
    (∀ turn fault, s.Quiet turn → s.step turn ≠ .error (.undefined fault)) ∧
    s.taken <+: s.accepted ∧
    (s.destroyer = .freed → s.live = ∅ ∧ ∀ i, s.workers i = .exited) := by
  have h : s.Life := runFrom_inv Tpool.Life (fun _ _ _ h hquiet hr => h.step hquiet hr)
    (Tpool.life_createTpool n κ works) hquiet hrun
  refine ⟨fun turn fault hquiet hr => ?_, h.order, fun hfreed => ⟨h.freed hfreed, fun i => ?_⟩⟩
  · cases h.defined hquiet hr
  · exact h.joined i (hfreed ▸ rfl)

/-- Two tasks are added; the worker runs the first one, and `destroy_tpool` frees the second one. -/
theorem destroyTpool_frees_two :
    ∃ s, runFrom Tpool.step (createTpool 1 Unit fun _ => ⟨⟨0, 0⟩, none⟩)
      [.call () (some 7) 1 (some 0), .add () none, .add () none, .add () none, .add () none,
        .call () (some 7) 2 (some 1), .add () none, .add () none, .add () none, .add () none,
        .add () none, .worker 0, .worker 0, .worker 0, .worker 0, .worker 0, .worker 0, .worker 0,
        .destroy, .destroy, .destroy, .destroy, .destroy, .worker 0, .worker 0, .worker 0, .worker 0,
        .destroy, .destroy, .destroy, .destroy] = .ok s ∧
      s.taken = [⟨7, 1⟩] ∧ s.accepted = [⟨7, 1⟩, ⟨7, 2⟩] ∧ s.live = ∅ ∧ ∀ i, s.workers i = .exited := by
  obtain ⟨s, hs, hend⟩ := Exec.of_returned
    (x := runFrom Tpool.step (createTpool 1 Unit fun _ => ⟨⟨0, 0⟩, none⟩)
      [.call () (some 7) 1 (some 0), .add () none, .add () none, .add () none, .add () none,
        .call () (some 7) 2 (some 1), .add () none, .add () none, .add () none, .add () none,
        .add () none, .worker 0, .worker 0, .worker 0, .worker 0, .worker 0, .worker 0, .worker 0,
        .destroy, .destroy, .destroy, .destroy, .destroy, .worker 0, .worker 0, .worker 0, .worker 0,
        .destroy, .destroy, .destroy, .destroy])
    (p := fun s => s.destroyer = .freed ∧ s.taken = [⟨7, 1⟩] ∧ s.accepted = [⟨7, 1⟩, ⟨7, 2⟩])
    (by decide)
  obtain ⟨hfreed, htaken, haccepted⟩ := of_decide_eq_true hend
  exact ⟨s, hs, htaken, haccepted, (destroyTpool_frees hs (by decide)).2.2 hfreed⟩

end Cnpv
