import Cnpv.Tpool.Steps

/-!
# The queue of the thread pool

Until `destroy_tpool` frees the works, the tasks that workers took and then those in the queue are
the accepted tasks, in order (`taken_append_queue`). A call that has linked its work in and has not
yet released the lock is not accepted yet: its task is then the last one in the queue.

`Tpool.Queued s q`: the works `q` are in the queue of `s`. A thread has its own work, outside of the
queue, before it links the work in or after it has taken it (`Tpool.owned`). The lock is what keeps
the other threads from the queue while one walks to its end (`walk`), and what keeps the queue from
becoming empty between the test of a worker and its take (`check`, `take`).
-/

namespace Cnpv

open CLib

/-- The work of a worker that is not in the queue. -/
def WorkerPlace.work : WorkerPlace → Option WorkPtr
  | .unlock w | .run w | .free w => some w
  | _ => none

/-- The work of an adding thread that is not in the queue yet. -/
def AddPlace.work : AddPlace → Option WorkPtr
  | .lock w | .head w | .walk w _ => some w
  | _ => none

theorem AddPlace.work_of_usesPool {p : AddPlace} (h : p.usesPool = false) : p.work = none := by
  cases p <;> first | rfl | cases h

theorem AddPlace.linked_of_usesPool {p : AddPlace} (h : p.usesPool = false) : p.linked = false := by
  cases p <;> first | rfl | cases h

/-- `destroy_tpool` frees the works, or has freed them. -/
def DestroyPlace.drains : DestroyPlace → Bool
  | .drain | .freed => true
  | _ => false

theorem DestroyPlace.drains_eq_false {p : DestroyPlace} : p.drains = false ↔ p.stage < 6 := by
  cases p <;> simp [DestroyPlace.drains, DestroyPlace.stage]

namespace Tpool

variable {n : Nat} {κ : Type} {s s' : Tpool n κ} {q : List WorkPtr} {i : Fin n} {k : κ} {w : WorkPtr}

/-- The work that a thread has for itself. -/
def owned (s : Tpool n κ) : PoolThread n κ → Option WorkPtr
  | .worker i => (s.workers i).work
  | .adder k => (s.adders k).work
  | .destroyer => none

/-- The tasks `l` were linked in: they are the accepted ones, and then that of a call that still has
the lock. -/
def Linked (s : Tpool n κ) (l : List Task) : Prop :=
  ((∀ k, (s.adders k).linked = false) → l = s.accepted) ∧
  ∀ k, (s.adders k).linked = true → l = s.accepted ++ [s.calling k]

/-- The works `q` are in the queue (module doc). -/
structure Queued (s : Tpool n κ) (q : List WorkPtr) : Prop where
  chain : Chain s.next s.tpoolHead q
  live : ∀ w ∈ q, w ∈ s.live
  order : s.Linked (s.taken ++ q.map s.task)
  taken : s.taken <+: s.accepted
  own : ∀ t w, s.owned t = some w → w ∈ s.live ∧ w ∉ q
  ownInj : ∀ t u w, s.owned t = some w → s.owned u = some w → t = u
  /-- A work that is not linked in yet has no link. -/
  fresh : ∀ k w, (s.adders k).work = some w → s.next w = none
  /-- A work that is not linked in yet has the task of its call. -/
  called : ∀ k w, (s.adders k).work = some w → s.task w = s.calling k
  walk : ∀ k w m, s.adders k = .walk w m → m ∈ q
  check : ∀ i, s.workers i = .check → s.tpoolHead = none → s.shutdown = true
  take : ∀ i, s.workers i = .take → s.tpoolHead ≠ none

theorem queued_createTpool (n : Nat) (κ : Type) (works : WorkPtr → Work) :
    (createTpool n κ works).Queued [] where
  chain := rfl
  live := by simp
  order := ⟨fun _ => rfl, fun k h => by cases h⟩
  taken := List.prefix_rfl
  own t w h := by cases t <;> cases h
  ownInj t u w h := by cases t <;> cases h
  fresh k w h := by cases h
  called k w h := by cases h
  walk k w m h := by cases h
  check i h := by cases h
  take i h := by cases h

/-! ## Steps outside of the queue -/

/-- A step that keeps the queue: the threads have no more works than before. -/
theorem Queued.frame (h : s.Queued q) (hworks : s'.works = s.works) (hlive : s'.live = s.live)
    (hhead : s'.tpoolHead = s.tpoolHead) (htaken : s'.taken = s.taken)
    (hcalling : s'.calling = s.calling) (haccepted : s.accepted <+: s'.accepted)
    (hlinked : ∀ l, s.Linked l → s'.Linked l)
    (hown : ∀ t w, s'.owned t = some w → s.owned t = some w)
    (hwalk : ∀ k w m, s'.adders k = .walk w m → m ∈ q)
    (hcheck : ∀ i, s'.workers i = .check → s.tpoolHead = none → s'.shutdown = true)
    (htake : ∀ i, s'.workers i = .take → s.tpoolHead ≠ none) : s'.Queued q where
  chain := by
    have hnext : s'.next = s.next := by unfold next; rw [hworks]
    rw [hnext, hhead]
    exact h.chain
  live := hlive ▸ h.live
  order := by
    have htask : s'.task = s.task := by unfold task; rw [hworks]
    rw [htask, htaken]
    exact hlinked _ h.order
  taken := by
    rw [htaken]
    exact h.taken.trans haccepted
  own t w ht := hlive ▸ h.own t w (hown t w ht)
  ownInj t u w ht hu := h.ownInj t u w (hown t w ht) (hown u w hu)
  fresh k w hk := by
    unfold next
    rw [hworks]
    exact h.fresh k w (hown (.adder k) w hk)
  called k w hk := by
    unfold task
    rw [hworks, hcalling]
    exact h.called k w (hown (.adder k) w hk)
  walk := hwalk
  check := by rw [hhead]; exact hcheck
  take := by rw [hhead]; exact htake

/-- The lock is no part of it. -/
theorem Queued.relock (h : s.Queued q) (o : Option (PoolThread n κ)) :
    Queued { s with queueLock := o } q :=
  h.frame rfl rfl rfl rfl rfl List.prefix_rfl (fun _ hl => hl) (fun _ _ h => h) h.walk h.check h.take

theorem Queued.unlock (h : s.Queued q) : s.unlock.Queued q := h.relock none

theorem Queued.setDestroyer (h : s.Queued q) (p : DestroyPlace) : (s.setDestroyer p).Queued q := by
  refine h.frame rfl rfl rfl rfl rfl List.prefix_rfl (fun _ hl => hl) (fun t w ht => ?_) h.walk
    h.check h.take
  cases t <;> exact ht

theorem Queued.setShutdown (h : s.Queued q) : Queued { s with shutdown := true } q :=
  h.frame rfl rfl rfl rfl rfl List.prefix_rfl (fun _ hl => hl) (fun _ _ ht => ht) h.walk
    (fun _ _ _ => rfl) h.take

theorem Queued.wakeAll (h : s.Queued q) : s.wakeAll.Queued q := by
  have hplace : ∀ i p, s.wakeAll.workers i = p → p ≠ .woken → s.workers i = p := by
    intro i p hi hp
    simp only [Tpool.wakeAll] at hi
    split at hi
    · exact absurd hi.symm hp
    · exact hi
  refine h.frame rfl rfl rfl rfl rfl List.prefix_rfl (fun _ hl => hl) (fun t w ht => ?_) h.walk
    (fun i hi => h.check i (hplace i _ hi (by decide)))
    (fun i hi => h.take i (hplace i _ hi (by decide)))
  cases t with
  | worker i =>
    have hne : s.wakeAll.workers i ≠ .woken := fun e => by
      rw [owned, e] at ht
      cases ht
    rw [owned, hplace i _ rfl hne]
    exact ht
  | adder k => exact ht
  | destroyer => exact ht

theorem Queued.destroyTpool (h : s.Queued q) (hr : s.destroyTpool = .ok s')
    (hd : s.destroyer.drains = false) : s'.Queued q := by
  have hmove := h.setDestroyer
  cases destroyTpool_move hr with
  | set hp => exact (hmove .lock).setShutdown
  | lock hp hfree => exact (hmove .broadcast).relock _
  | broadcast hp => exact (hmove .unlock).wakeAll
  | unlock hp => exact (hmove (.join 0)).unlock
  | leave hp | enter hp | join j hp | joined j hp => exact hmove _
  | drain w hp | freed hp => rw [hp] at hd; cases hd

variable [DecidableEq κ]

theorem owned_setWorker (s : Tpool n κ) (i : Fin n) (p : WorkerPlace) :
    (s.setWorker i p).owned = Function.update s.owned (.worker i) p.work := by
  funext t
  cases t with
  | worker j =>
    by_cases hj : j = i
    · subst hj; simp [owned, setWorker]
    · simp [owned, setWorker, hj]
  | adder k => simp [owned, setWorker]
  | destroyer => simp [owned]

theorem owned_setAdder (s : Tpool n κ) (k : κ) (p : AddPlace) :
    (s.setAdder k p).owned = Function.update s.owned (.adder k) p.work := by
  funext t
  cases t with
  | worker j => simp [owned, setAdder]
  | adder j =>
    by_cases hj : j = k
    · subst hj; simp [owned, setAdder]
    · simp [owned, setAdder, hj]
  | destroyer => simp [owned]

/-- Who has a work after the thread `t` got the works `b`. -/
theorem owned_update {f : PoolThread n κ → Option WorkPtr} {t u : PoolThread n κ}
    {b : Option WorkPtr} (h : Function.update f t b u = some w) :
    u = t ∧ b = some w ∨ u ≠ t ∧ f u = some w := by
  by_cases hu : u = t
  · subst hu
    rw [Function.update_self] at h
    exact .inl ⟨rfl, h⟩
  · rw [Function.update_of_ne hu] at h
    exact .inr ⟨hu, h⟩

/-- A worker moves: with the work that it had, or none. -/
theorem Queued.moveWorker {p : WorkerPlace} (h : s.Queued q)
    (hwork : ∀ w, p.work = some w → (s.workers i).work = some w)
    (hcheck : p = .check → s.tpoolHead = none → s.shutdown = true)
    (htake : p = .take → s.tpoolHead ≠ none) : (s.setWorker i p).Queued q := by
  have hself : (s.setWorker i p).workers i = p := Function.update_self _ _ _
  have hother : ∀ j, j ≠ i → (s.setWorker i p).workers j = s.workers j :=
    fun j hj => Function.update_of_ne hj _ _
  refine h.frame rfl rfl rfl rfl rfl List.prefix_rfl (fun _ hl => hl) (fun t w ht => ?_) h.walk
    (fun j hj => ?_) (fun j hj => ?_)
  · rw [owned_setWorker] at ht
    rcases owned_update ht with ⟨rfl, hw⟩ | ⟨-, ht⟩
    · exact hwork w hw
    · exact ht
  · by_cases he : j = i
    · subst he
      exact hcheck (hself.symm.trans hj)
    · exact h.check j ((hother j he).symm.trans hj)
  · by_cases he : j = i
    · subst he
      exact htake (hself.symm.trans hj)
    · exact h.take j ((hother j he).symm.trans hj)

theorem Linked.move {p : AddPlace} {l : List Task} (hl : s.Linked l)
    (hp : p.linked = (s.adders k).linked) : (s.setAdder k p).Linked l := by
  have hlinked : ∀ j, ((s.setAdder k p).adders j).linked = (s.adders j).linked := by
    intro j
    by_cases hj : j = k
    · subst hj
      rw [← hp]
      exact congrArg AddPlace.linked (Function.update_self _ _ _)
    · exact congrArg AddPlace.linked (Function.update_of_ne hj _ _)
  unfold Linked
  simp only [hlinked]
  exact hl

/-- An adding thread moves: with the work that it had, or none. -/
theorem Queued.moveAdder {p : AddPlace} {accepted : List Task} (h : s.Queued q)
    (hwork : ∀ w, p.work = some w → (s.adders k).work = some w)
    (hwalk : ∀ w m, p = .walk w m → m ∈ q) (haccepted : s.accepted <+: accepted)
    (hlinked : ∀ l, s.Linked l → Linked { s.setAdder k p with accepted } l) :
    Queued { s.setAdder k p with accepted } q := by
  have hself : (s.setAdder k p).adders k = p := Function.update_self _ _ _
  have hother : ∀ j, j ≠ k → (s.setAdder k p).adders j = s.adders j :=
    fun j hj => Function.update_of_ne hj _ _
  refine h.frame rfl rfl rfl rfl rfl haccepted hlinked (fun t w ht => ?_) (fun j w m hj => ?_)
    h.check h.take
  · have ht : (s.setAdder k p).owned t = some w := by cases t <;> exact ht
    rw [owned_setAdder] at ht
    rcases owned_update ht with ⟨rfl, hw⟩ | ⟨-, ht⟩
    · exact hwork w hw
    · exact ht
  · by_cases he : j = k
    · subst he
      exact hwalk w m (hself.symm.trans hj)
    · exact h.walk j w m ((hother j he).symm.trans hj)

/-- An adding thread goes on before its link, or after it. -/
theorem Queued.goAdder {p : AddPlace} (h : s.Queued q)
    (hwork : ∀ w, p.work = some w → (s.adders k).work = some w)
    (hwalk : ∀ w m, p = .walk w m → m ∈ q) (hp : p.linked = (s.adders k).linked) :
    (s.setAdder k p).Queued q :=
  h.moveAdder hwork hwalk List.prefix_rfl fun _ hl => hl.move hp

/-! ## The steps at the queue -/

omit [DecidableEq κ] in
/-- The thread `t₀` got the work `w`, which nobody had. -/
theorem Queued.ownInj_of {own : PoolThread n κ → Option WorkPtr} {t₀ : PoolThread n κ}
    (h : s.Queued q)
    (hown : ∀ t m, own t = some m → t = t₀ ∧ m = w ∨ s.owned t = some m ∧ m ≠ w)
    (t u : PoolThread n κ) (m : WorkPtr) (ht : own t = some m) (hu : own u = some m) : t = u := by
  rcases hown t m ht with ⟨rfl, hm⟩ | ⟨ht, hm⟩ <;> rcases hown u m hu with ⟨rfl, hm'⟩ | ⟨hu, hm'⟩
  · rfl
  · exact absurd hm hm'
  · exact absurd hm' hm
  · exact h.ownInj t u m ht hu

/-- A thread that is in no call makes one. -/
theorem Queued.setCalling {task : Task} (h : s.Queued q) (hplace : (s.adders k).usesPool = false) :
    (s.setCalling k task).Queued q := by
  have hwork := AddPlace.work_of_usesPool hplace
  have hlinked := AddPlace.linked_of_usesPool hplace
  have hother : ∀ j, j ≠ k → (s.setCalling k task).calling j = s.calling j :=
    fun j hj => Function.update_of_ne hj _ _
  exact { h with
    order := ⟨h.order.1, fun j hj => by
      have hne : j ≠ k := by
        rintro rfl
        cases hlinked.symm.trans hj
      rw [hother j hne]
      exact h.order.2 j hj⟩
    called := fun j w hj => by
      have hne : j ≠ k := by
        rintro rfl
        cases hwork.symm.trans hj
      rw [hother j hne]
      exact h.called j w hj }

/-- The memory of a new work is not that of another one. -/
theorem Queued.newWork {task : Task} (h : s.Queued q) (hw : w ∉ s.live)
    (hcall : s.calling k = task) (hk : (s.adders k).linked = false) :
    (s.newWork k w task).Queued q := by
  have hself : (s.newWork k w task).works w = { task, next := none } := Function.update_self _ _ _
  have hworks : ∀ m, m ≠ w → (s.newWork k w task).works m = s.works m :=
    fun m hm => Function.update_of_ne hm _ _
  have hq : ∀ m ∈ q, m ≠ w := fun m hm => ne_of_mem_of_not_mem (h.live m hm) hw
  have hown : ∀ t m, (s.newWork k w task).owned t = some m →
      t = .adder k ∧ m = w ∨ s.owned t = some m ∧ m ≠ w := by
    intro t m ht
    rcases owned_update (owned_setAdder s k (.lock w) ▸ ht) with ⟨rfl, hm⟩ | ⟨-, ht⟩
    · exact .inl ⟨rfl, (Option.some.inj hm).symm⟩
    · exact .inr ⟨ht, ne_of_mem_of_not_mem (h.own t m ht).1 hw⟩
  exact {
    chain := Seg.congr h.chain fun m hm => congrArg Work.next (hworks m (hq m hm))
    live := fun m hm => Finset.mem_insert_of_mem (h.live m hm)
    order := by
      have htask : q.map (s.newWork k w task).task = q.map s.task :=
        List.map_congr_left fun m hm => congrArg Work.task (hworks m (hq m hm))
      rw [htask]
      exact h.order.move hk.symm
    taken := h.taken
    own := fun t m ht => by
      rcases hown t m ht with ⟨-, rfl⟩ | ⟨ht, -⟩
      · exact ⟨Finset.mem_insert_self _ _, fun hm => hq m hm rfl⟩
      · exact ⟨Finset.mem_insert_of_mem (h.own t m ht).1, (h.own t m ht).2⟩
    ownInj := h.ownInj_of hown
    fresh := fun j m hj => by
      rcases hown (.adder j) m hj with ⟨-, rfl⟩ | ⟨hj, hm⟩
      · exact congrArg Work.next hself
      · exact (congrArg Work.next (hworks m hm)).trans (h.fresh j m hj)
    called := fun j m hj => by
      rcases hown (.adder j) m hj with ⟨hjk, rfl⟩ | ⟨hj, hm⟩
      · cases hjk
        exact (congrArg Work.task hself).trans hcall.symm
      · exact (congrArg Work.task (hworks m hm)).trans (h.called j m hj)
    walk := fun j v m hj => by
      by_cases he : j = k
      · subst he
        cases (Function.update_self _ _ _).symm.trans hj
      · exact h.walk j v m ((Function.update_of_ne he _ _).symm.trans hj)
    check := h.check
    take := h.take }

/-- Who has a work after the thread `k` linked in its own, `w`. -/
theorem Queued.owned_signal (h : s.Queued q) (hk : (s.adders k).work = some w) {t : PoolThread n κ}
    {m : WorkPtr} (ht : (s.setAdder k .signal).owned t = some m) : s.owned t = some m ∧ m ≠ w := by
  rcases owned_update (owned_setAdder s k .signal ▸ ht) with ⟨-, hm⟩ | ⟨hne, hold⟩
  · cases hm
  · refine ⟨hold, fun e => ?_⟩
    subst e
    exact hne (h.ownInj t (.adder k) m hold hk)

omit [DecidableEq κ] in
/-- Only a thread that has the lock can have linked its work in without having returned. -/
theorem Exclusive.linked_eq (hlock : s.Exclusive) {t : PoolThread n κ} (ht : s.holds t = true) {j : κ}
    (hj : (s.adders j).linked = true) : t = .adder j := by
  refine hlock.unique ht ?_
  show (s.adders j).locked = true
  cases hp : s.adders j <;> first | rfl | (rw [hp] at hj; cases hj)

/-- The thread `k` links its work in. -/
theorem Linked.link {l : List Task} (hl : s.Linked l) (hlock : s.Exclusive)
    (hk : (s.adders k).locked = true) (hnot : (s.adders k).linked = false) :
    (s.setAdder k .signal).Linked (l ++ [s.calling k]) := by
  have hnone : ∀ j, (s.adders j).linked = false := by
    intro j
    by_contra hj
    rw [Bool.not_eq_false] at hj
    cases hlock.linked_eq (t := .adder k) hk hj
    cases hnot.symm.trans hj
  have hself : (s.setAdder k .signal).adders k = .signal := Function.update_self _ _ _
  refine ⟨fun h => ?_, fun j hj => ?_⟩
  · have hk := h k
    rw [hself] at hk
    cases hk
  · have hjk : j = k := by
      by_contra hne
      have hother : (s.setAdder k .signal).adders j = s.adders j := Function.update_of_ne hne _ _
      rw [hother, hnone j] at hj
      cases hj
    rw [hl.1 hnone, hjk]
    rfl

/-- The call of the thread `k` returns 0. -/
theorem Linked.ret {l : List Task} (hl : s.Linked l) (hlock : s.Exclusive) (hk : s.adders k = .unlock) :
    (s.ret k 0).Linked l := by
  have hlinked : (s.adders k).linked = true := by rw [hk]; rfl
  have hlocked : s.holds (.adder k) = true := by rw [holds, hk]; rfl
  refine ⟨fun _ => hl.2 k hlinked, fun j hj => ?_⟩
  by_cases hjk : j = k
  · subst hjk
    have hself : (s.ret j 0).adders j = .returned 0 := Function.update_self _ _ _
    rw [hself] at hj
    cases hj
  · have hother : (s.ret k 0).adders j = s.adders j := Function.update_of_ne hjk _ _
    rw [hother] at hj
    cases hlock.linked_eq hlocked hj
    exact absurd rfl hjk

theorem walk_signal {j : κ} {v m : WorkPtr} (hj : (s.setAdder k .signal).adders j = .walk v m) :
    s.adders j = .walk v m := by
  by_cases he : j = k
  · subst he
    cases (Function.update_self _ _ _).symm.trans hj
  · exact (Function.update_of_ne he _ _).symm.trans hj

/-- The first work of an empty queue. -/
theorem Queued.linkFirst (h : s.Queued q) (hlock : s.Exclusive) (hp : s.adders k = .head w)
    (hhead : s.tpoolHead = none) : Queued { s.setAdder k .signal with tpoolHead := some w } [w] := by
  obtain rfl : q = [] := Chain.none_iff.mp (hhead ▸ h.chain)
  have hk : (s.adders k).work = some w := by rw [hp]; rfl
  have hown := fun t m (ht : (s.setAdder k .signal).owned t = some m) => h.owned_signal hk ht
  have horder := h.order.link hlock (k := k) (by rw [hp]; rfl) (by rw [hp]; rfl)
  rw [List.map_nil, List.append_nil, ← h.called k w hk] at horder
  exact {
    chain := ⟨rfl, h.fresh k w hk⟩
    live := fun m hm => by
      rw [List.mem_singleton.mp hm]
      exact (h.own (.adder k) w hk).1
    order := horder
    taken := h.taken
    own := fun t m ht =>
      ⟨(h.own t m (hown t m ht).1).1, fun hm => (hown t m ht).2 (List.mem_singleton.mp hm)⟩
    ownInj := fun t u m ht hu => h.ownInj t u m (hown t m ht).1 (hown u m hu).1
    fresh := fun j m hj => h.fresh j m (hown (.adder j) m hj).1
    called := fun j m hj => h.called j m (hown (.adder j) m hj).1
    walk := fun j v m hj => by
      cases h.walk j v m (walk_signal hj)
    check := fun i _ hnone => by cases hnone
    take := fun i _ hnone => by cases hnone }

/-- A work linked in after the last one. -/
theorem Queued.linkLast {m : WorkPtr} (h : s.Queued q) (hlock : s.Exclusive)
    (hk : s.adders k = .walk w m) (hnext : s.next m = none) :
    Queued { s.setAdder k .signal with
      works := Function.update s.works m { s.works m with next := some w } } (q ++ [w]) := by
  have hwork : (s.adders k).work = some w := by rw [hk]; rfl
  have hown := fun t v (ht : (s.setAdder k .signal).owned t = some v) => h.owned_signal hwork ht
  have horder := h.order.link hlock (k := k) (by rw [hk]; rfl) (by rw [hk]; rfl)
  have hm : m ∈ q := h.walk k w m hk
  obtain ⟨hlive, hw⟩ := h.own (.adder k) w hwork
  generalize hs' : ({ s.setAdder k .signal with
      works := Function.update s.works m { s.works m with next := some w } } : Tpool n κ) = s'
  have hlinks : s'.next = Function.update s.next m (some w) := by
    subst hs'
    funext v
    by_cases hv : v = m
    · subst hv; simp [next]
    · simp [next, hv]
  have htasks : s'.task = s.task := by
    subst hs'
    funext v
    by_cases hv : v = m
    · subst hv; simp [task]
    · simp [task, hv]
  subst hs'
  exact {
    chain := by
      obtain ⟨l, rfl⟩ := h.chain.last hm hnext
      rw [hlinks]
      exact h.chain.append hw (h.fresh k w hwork)
    live := fun v hv => by
      rcases List.mem_append.mp hv with hv | hv
      · exact h.live v hv
      · rw [List.mem_singleton.mp hv]
        exact hlive
    order := by
      rw [← h.called k w hwork, List.append_assoc] at horder
      rw [htasks, List.map_append]
      exact horder
    taken := h.taken
    own := fun t v ht => by
      obtain ⟨ht, hne⟩ := hown t v ht
      refine ⟨(h.own t v ht).1, fun hv => ?_⟩
      rcases List.mem_append.mp hv with hv | hv
      · exact (h.own t v ht).2 hv
      · exact hne (List.mem_singleton.mp hv)
    ownInj := fun t u v ht hu => h.ownInj t u v (hown t v ht).1 (hown u v hu).1
    fresh := fun j v hj => by
      have hj := (hown (.adder j) v hj).1
      have hvm : v ≠ m := fun e => (h.own (.adder j) v hj).2 (e ▸ hm)
      rw [hlinks, Function.update_of_ne hvm]
      exact h.fresh j v hj
    called := fun j v hj => by
      rw [htasks]
      exact h.called j v (hown (.adder j) v hj).1
    walk := fun j v v' hj => List.mem_append_left _ (h.walk j v v' (walk_signal hj))
    check := h.check
    take := h.take }

/-- **The first work is taken.** The other threads are not at the queue, since this worker has the
lock. -/
theorem Queued.takeWork (h : s.Queued q) (hlock : s.Exclusive) (hi : s.workers i = .take)
    (hhead : s.tpoolHead = some w) :
    ∃ q', Queued { s.setWorker i (.unlock w) with
      tpoolHead := s.next w
      taken := s.taken ++ [s.task w] } q' := by
  have hchain := h.chain
  rw [hhead] at hchain
  cases q with
  | nil => cases hchain
  | cons v q =>
    cases hchain.1
    have hnd := List.nodup_cons.mp (Chain.nodup h.chain)
    have hlocked : s.holds (.worker i) = true := by rw [holds, hi]; rfl
    have hown : ∀ t m, (s.setWorker i (.unlock w)).owned t = some m →
        t = .worker i ∧ m = w ∨ s.owned t = some m ∧ m ≠ w := by
      intro t m ht
      rcases owned_update (owned_setWorker s i (.unlock w) ▸ ht) with ⟨rfl, hm⟩ | ⟨-, ht⟩
      · exact .inl ⟨rfl, (Option.some.inj hm).symm⟩
      · exact .inr ⟨ht, fun e => (h.own t m ht).2 (e ▸ List.mem_cons_self)⟩
    -- No worker holds the lock now.
    have hout : ∀ j p, (s.setWorker i (.unlock w)).workers j = p → p.locked = true →
        p = .unlock w := by
      intro j p hj hp
      by_cases he : j = i
      · subst he
        exact hj.symm.trans (Function.update_self _ _ _)
      · have hj' : s.workers j = p := (Function.update_of_ne he _ _).symm.trans hj
        have hjlock : s.holds (.worker j) = true := by rw [holds, hj']; exact hp
        cases hlock.unique hjlock hlocked
        exact absurd rfl he
    refine ⟨q, ?_⟩
    exact {
      chain := hchain.2
      live := fun m hm => h.live m (List.mem_cons_of_mem _ hm)
      order := by
        show s.Linked (s.taken ++ [s.task w] ++ q.map s.task)
        rw [List.append_assoc]
        exact h.order
      taken := by
        show s.taken ++ [s.task w] <+: s.accepted
        refine ⟨q.map s.task, ?_⟩
        rw [List.append_assoc]
        refine h.order.1 fun j => ?_
        by_contra hj
        cases hlock.linked_eq hlocked (Bool.not_eq_false _ ▸ hj)
      own := fun t m ht => by
        rcases hown t m ht with ⟨-, rfl⟩ | ⟨ht, -⟩
        · exact ⟨h.live m List.mem_cons_self, hnd.1⟩
        · exact ⟨(h.own t m ht).1, fun hm => (h.own t m ht).2 (List.mem_cons_of_mem _ hm)⟩
      ownInj := h.ownInj_of hown
      fresh := fun j m hj => h.fresh j m hj
      called := fun j m hj => h.called j m hj
      walk := fun j v m hj => by
        have hj : s.adders j = .walk v m := hj
        have hjlock : s.holds (.adder j) = true := by rw [holds, hj]; rfl
        cases hlock.unique hjlock hlocked
      check := fun j hj => by cases hout j _ hj rfl
      take := fun j hj => by cases hout j _ hj rfl }

/-- A worker frees the work that it has run. -/
theorem Queued.freeWork (h : s.Queued q) (hi : s.workers i = .free w) :
    ((s.setWorker i .lock).free w).Queued q := by
  have hwork : s.owned (.worker i) = some w := by rw [owned, hi]; rfl
  have hmove : (s.setWorker i .lock).Queued q :=
    h.moveWorker (fun w h => by cases h) (fun h => by cases h) (fun h => by cases h)
  have hown : ∀ t m, (s.setWorker i .lock).owned t = some m → m ≠ w := by
    intro t m ht
    rcases owned_update (owned_setWorker s i .lock ▸ ht) with ⟨-, hm⟩ | ⟨hne, ht⟩
    · cases hm
    · rintro rfl
      exact hne (h.ownInj t (.worker i) m ht hwork)
  exact { hmove with
    live := fun m hm => by
      have hne : m ≠ w := fun e => (h.own (.worker i) w hwork).2 (e ▸ hm)
      exact Finset.mem_erase.mpr ⟨hne, h.live m hm⟩
    own := fun t m ht =>
      ⟨Finset.mem_erase.mpr ⟨hown t m ht, (hmove.own t m ht).1⟩, (hmove.own t m ht).2⟩ }

/-! ## Every step -/

theorem Queued.workRoutine (h : s.Queued q) (hlock : s.Exclusive) (hr : s.workRoutine i = .ok s') :
    ∃ q', s'.Queued q' := by
  cases workRoutine_move hr with
  | lock hp hfree =>
    have hmove : (s.setWorker i .test).Queued q := h.moveWorker nofun nofun nofun
    exact ⟨q, hmove.relock _⟩
  | wait hp hhead hflag => exact ⟨q, h.moveWorker nofun nofun nofun⟩
  | check hp hflag => exact ⟨q, h.moveWorker nofun (fun _ => hflag) nofun⟩
  | sleep hp =>
    have hmove : (s.setWorker i .asleep).Queued q := h.moveWorker nofun nofun nofun
    exact ⟨q, hmove.unlock⟩
  | wake hp => exact ⟨q, h.moveWorker nofun nofun nofun⟩
  | quit hp hflag => exact ⟨q, h.moveWorker nofun nofun nofun⟩
  | goOn hp hflag =>
    -- The queue is not empty: this worker has the lock since its test.
    refine ⟨q, h.moveWorker nofun nofun fun _ hhead => ?_⟩
    cases (h.check i hp hhead).symm.trans hflag
  | exit hp =>
    have hmove : (s.setWorker i .exited).Queued q := h.moveWorker nofun nofun nofun
    exact ⟨q, hmove.unlock⟩
  | take w hp hhead => exact h.takeWork hlock hp hhead
  | unlock w hp =>
    have hmove : (s.setWorker i (.run w)).Queued q := h.moveWorker (fun _ hw => hp ▸ hw) nofun nofun
    exact ⟨q, hmove.unlock⟩
  | run w hp => exact ⟨q, h.moveWorker (fun _ hw => hp ▸ hw) nofun nofun⟩
  | free w hp => exact ⟨q, h.freeWork hp⟩

theorem Queued.callAdd {routine : Option Nat} {args : Nat} {memory : Option WorkPtr}
    (h : s.Queued q) (hr : s.callAdd k routine args memory = .ok s') : s'.Queued q := by
  obtain ⟨hplace, task, rfl | ⟨w, hw, rfl⟩⟩ := callAdd_ok hr
  · exact (h.setCalling hplace).goAdder nofun nofun (AddPlace.linked_of_usesPool hplace).symm
  · exact (h.setCalling hplace).newWork hw (Function.update_self _ _ _)
      (AddPlace.linked_of_usesPool hplace)

theorem Queued.addTask2Tpool {wakes : Option (Fin n)} (h : s.Queued q) (hlock : s.Exclusive)
    (hr : s.addTask2Tpool k wakes = .ok s') : ∃ q', s'.Queued q' := by
  cases addTask2Tpool_move hr with
  | lock w hp hfree =>
    have hmove : (s.setAdder k (.head w)).Queued q :=
      h.goAdder (fun _ hw => hp ▸ hw) nofun (by rw [hp]; rfl)
    exact ⟨q, hmove.relock _⟩
  | first w hp hhead => exact ⟨[w], h.linkFirst hlock hp hhead⟩
  | head w m hp hhead =>
    refine ⟨q, h.goAdder (fun _ hw => hp ▸ hw) (fun w' m' hm' => ?_) (by rw [hp]; rfl)⟩
    cases hm'
    exact h.chain.head_mem hhead
  | last w m hp hnext => exact ⟨q ++ [w], h.linkLast hlock hp hnext⟩
  | walk w m m' hp hnext =>
    refine ⟨q, h.goAdder (fun _ hw => hp ▸ hw) (fun w' m'' hm'' => ?_) (by rw [hp]; rfl)⟩
    cases hm''
    exact h.chain.next_mem (h.walk k w m hp) hnext
  | signal hp => exact ⟨q, h.goAdder nofun nofun (by rw [hp]; rfl)⟩
  | wake i hp hi =>
    have hmove : (s.setAdder k .unlock).Queued q := h.goAdder nofun nofun (by rw [hp]; rfl)
    exact ⟨q, hmove.moveWorker nofun nofun nofun⟩
  | unlock hp =>
    have hmove : (s.ret k 0).Queued q :=
      h.moveAdder nofun nofun (List.prefix_append _ _) fun _ hl => hl.ret hlock hp
    exact ⟨q, hmove.unlock⟩

/-! ## No undefined behaviour -/

omit [DecidableEq κ] in
theorem Queued.workRoutine_defined (h : s.Queued q) {e : Halt} (hr : s.workRoutine i = .error e) :
    e = .blocked := by
  have huse : ∀ w, s.owned (.worker i) = some w → s.use w = .ok () := fun w hw =>
    use_of_live (h.own (.worker i) w hw).1
  unfold Tpool.workRoutine at hr
  cases hp : s.workers i with
  | lock | woken =>
    rw [hp] at hr
    exact lock_error hr
  | take =>
    rw [hp] at hr
    simp only [Tpool.takeWork] at hr
    cases hhead : s.tpoolHead with
    | none => exact absurd hhead (h.take i hp)
    | some w =>
      rw [hhead, Option.elim_some, use_of_live (h.live w (h.chain.head_mem hhead))] at hr
      cases hr
  | run w | free w =>
    rw [hp] at hr
    simp only at hr
    rw [huse w (by rw [owned, hp]; rfl)] at hr
    cases hr
  | exited => rw [hp] at hr; exact (Except.error.inj hr).symm
  | _ => rw [hp] at hr; cases hr

theorem callAdd_error {routine : Option Nat} {args : Nat} {memory : Option WorkPtr} {e : Halt}
    (hr : s.callAdd k routine args memory = .error e) : e = .blocked := by
  unfold Tpool.callAdd at hr
  split at hr
  · exact (Except.error.inj hr).symm
  · cases routine with
    | none => cases hr
    | some r =>
      cases memory with
      | none => cases hr
      | some w =>
        simp only [makeWork, Option.elim_some] at hr
        split at hr
        · exact (Except.error.inj hr).symm
        · cases hr

theorem Queued.addTask2Tpool_defined (h : s.Queued q) {wakes : Option (Fin n)} {e : Halt}
    (hr : s.addTask2Tpool k wakes = .error e) : e = .blocked := by
  unfold Tpool.addTask2Tpool at hr
  cases hp : s.adders k with
  | lock w =>
    rw [hp] at hr
    exact lock_error hr
  | walk w m =>
    rw [hp] at hr
    simp only at hr
    rw [use_of_live (h.live m (h.walk k w m hp))] at hr
    cases hr
  | signal =>
    rw [hp] at hr
    exact signal_error hr
  | idle | returned status => rw [hp] at hr; exact (Except.error.inj hr).symm
  | _ => rw [hp] at hr; cases hr

omit [DecidableEq κ] in
theorem destroyTpool_error (hd : s.destroyer.drains = false) {e : Halt}
    (hr : s.destroyTpool = .error e) : e = .blocked := by
  unfold Tpool.destroyTpool at hr
  cases hp : s.destroyer with
  | lock =>
    rw [hp] at hr
    exact lock_error hr
  | join j =>
    rw [hp] at hr
    simp only at hr
    split at hr
    · split at hr
      · cases hr
      · exact (Except.error.inj hr).symm
    · cases hr
  | drain | freed => rw [hp] at hd; cases hd
  | left => rw [hp] at hr; exact (Except.error.inj hr).symm
  | _ => rw [hp] at hr; cases hr

/-- **No step is undefined** while the works are in the queue: a thread can step, or it waits. -/
theorem Queued.defined (h : s.Queued q) (hd : s.destroyer.drains = false) {turn : Turn n κ} {e : Halt}
    (hr : s.step turn = .error e) : e = .blocked := by
  have hfreed : s.usesFreed turn = false := by
    have hne : s.destroyer ≠ .freed := fun hp => by rw [hp] at hd; cases hd
    cases turn <;> simp [usesFreed, hne]
  unfold Tpool.step at hr
  rw [hfreed, if_neg Bool.false_ne_true] at hr
  cases turn with
  | worker i => exact h.workRoutine_defined hr
  | call k routine args memory => exact callAdd_error hr
  | add k wakes => exact h.addTask2Tpool_defined hr
  | destroy => exact destroyTpool_error hd hr

/-! ## Runs -/

/-- **One step** keeps the queue, until the works are freed. -/
theorem Queued.step {turn : Turn n κ} (h : s.Queued q) (hlock : s.Exclusive)
    (hr : s.step turn = .ok s') (hd : s.destroyer.drains = false) : ∃ q', s'.Queued q' := by
  rcases of_step hr with ⟨i, hr⟩ | ⟨k, routine, args, memory, hr⟩ | ⟨k, wakes, hr⟩ | hr
  · exact h.workRoutine hlock hr
  · exact ⟨q, h.callAdd hr⟩
  · exact h.addTask2Tpool hlock hr
  · exact ⟨q, h.destroyTpool hr hd⟩

/-- What every run keeps. -/
theorem queued_run {works : WorkPtr → Work} {turns : List (Turn n κ)}
    (hrun : runFrom Tpool.step (createTpool n κ works) turns = .ok s)
    (hd : s.destroyer.drains = false) : s.Exclusive ∧ ∃ q, s.Queued q := by
  have hkeep : s.Exclusive ∧ (s.destroyer.drains = false → ∃ q, s.Queued q) := by
    refine runFrom_keeps (fun s => s.Exclusive ∧ (s.destroyer.drains = false → ∃ q, s.Queued q))
      (fun turn _ s s' ⟨hlock, hq⟩ hr => ⟨hlock.step hr, fun hd => ?_⟩)
      ⟨exclusive_createTpool n κ works, fun _ => ⟨[], queued_createTpool n κ works⟩⟩ hrun
    have hd' : s.destroyer.drains = false := by
      have hle := stage_of_step hr
      rw [DestroyPlace.drains_eq_false] at hd ⊢
      exact Nat.lt_of_le_of_lt hle hd
    obtain ⟨q, h⟩ := hq hd'
    exact h.step hlock hr hd'
  exact ⟨hkeep.1, hkeep.2 hd⟩

end Tpool

/-- **The queue of the thread pool**, before `destroy_tpool` frees the works: the tasks that were
taken and then those in the queue are those of the calls that returned 0, in order, and then, if a
call has linked its work in and still has the lock, the task of this call. No step is undefined. -/
theorem taken_append_queue {n : Nat} {κ : Type} [DecidableEq κ] {works : WorkPtr → Work}
    {turns : List (Tpool.Turn n κ)} {s : Tpool n κ}
    (hrun : runFrom Tpool.step (createTpool n κ works) turns = .ok s)
    (hd : s.destroyer.drains = false) :
    (∃ q, Chain s.next s.tpoolHead q ∧
      ((∀ k, (s.adders k).linked = false) → s.taken ++ q.map s.task = s.accepted) ∧
      ∀ k, (s.adders k).linked = true → s.taken ++ q.map s.task = s.accepted ++ [s.calling k]) ∧
    s.taken <+: s.accepted ∧
    ∀ turn fault, s.step turn ≠ .error (.undefined fault) := by
  obtain ⟨-, q, h⟩ := Tpool.queued_run hrun hd
  refine ⟨⟨q, h.chain, h.order⟩, h.taken, fun turn fault hr => ?_⟩
  cases h.defined hd hr

/-- Two tasks are added while the worker waits; it takes the first one. Another thread has linked in
a third task, and has the lock. -/
theorem taken_append_queue_two :
    ∃ s, runFrom Tpool.step (createTpool 1 Bool fun _ => ⟨⟨0, 0⟩, none⟩)
      [.worker 0, .worker 0, .worker 0, .call true (some 7) 1 (some 0), .add true none,
        .add true none, .add true (some 0), .add true none, .call true (some 7) 2 (some 1),
        .call false (some 7) 3 (some 2), .add true none, .add true none, .add true none,
        .add true none, .add true none, .worker 0, .worker 0, .worker 0, .worker 0, .worker 0,
        .add false none, .add false none, .add false none] = .ok s ∧
      s.taken = [⟨7, 1⟩] ∧ s.accepted = [⟨7, 1⟩, ⟨7, 2⟩] ∧ s.calling false = ⟨7, 3⟩ ∧
      ∃ q, Chain s.next s.tpoolHead q ∧ s.taken ++ q.map s.task = s.accepted ++ [s.calling false] := by
  obtain ⟨s, hs, hend⟩ := Exec.of_returned
    (x := runFrom Tpool.step (createTpool 1 Bool fun _ => ⟨⟨0, 0⟩, none⟩)
      [.worker 0, .worker 0, .worker 0, .call true (some 7) 1 (some 0), .add true none,
        .add true none, .add true (some 0), .add true none, .call true (some 7) 2 (some 1),
        .call false (some 7) 3 (some 2), .add true none, .add true none, .add true none,
        .add true none, .add true none, .worker 0, .worker 0, .worker 0, .worker 0, .worker 0,
        .add false none, .add false none, .add false none])
    (p := fun s => s.destroyer.drains = false ∧ s.taken = [⟨7, 1⟩] ∧
      s.accepted = [⟨7, 1⟩, ⟨7, 2⟩] ∧ s.calling false = ⟨7, 3⟩ ∧ (s.adders false).linked = true)
    (by decide)
  obtain ⟨hd, htaken, haccepted, hcalling, hlinked⟩ := of_decide_eq_true hend
  obtain ⟨⟨q, hq, -, horder⟩, -⟩ := taken_append_queue hs hd
  exact ⟨s, hs, htaken, haccepted, hcalling, q, hq, horder false hlinked⟩

end Cnpv
