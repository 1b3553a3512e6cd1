import TickKernel.Proofs.Processor

/-!
# Every waiter keeps its place

What becomes of the queues of mutexes and semaphores, whichever kernels use them.  A
`Shared.History` is any sequence of moves in which each one finds the shared state as the move
before left it: the moves of one kernel, of several kernels of a process, or of threads that use
a kernel which is not their own.  Whoever is put into a queue finds room in it, so a queue holds
all who were ever put into it but those that were taken out, oldest first.
-/

namespace TickKernel

/-! ## Putting in and taking out -/

inductive WaitQueue.Handled :
    Option ThreadId → Option ThreadId → WaitQueue → WaitQueue → Prop where
  | kept {queue : WaitQueue} : Handled none none queue queue
  /-- The queue has room, and gives nobody up. -/
  | put {id : ThreadId} {queue after : WaitQueue} : id ∉ queue.toList → queue.isFull = false →
      queue.put id = (none, after) → Handled (some id) none queue after
  | got {id : ThreadId} {queue after : WaitQueue} : queue.get = (some id, after) →
      Handled none (some id) queue after

namespace WaitQueue

variable {queue after : WaitQueue} {line : List ThreadId} {put got : Option ThreadId}

theorem Lines.toList_eq (h : queue.Lines line) : queue.Lines queue.toList :=
  h.holds.toList_eq.symm ▸ h

theorem Lines.handled_put (h : queue.Lines line) {id : ThreadId} (hnew : id ∉ line) :
    Handled (some id) none queue (queue.put id).2 := by
  have hroom := h.length_lt hnew
  refine .put (h.holds.toList_eq.symm ▸ hnew) ?_ (Prod.ext (h.holds.put hroom id).1 rfl)
  rw [Bool.eq_false_iff, Ne, h.holds.isFull_iff (by decide)]
  omega

theorem Lines.handled_get (h : queue.Lines line) : Handled none queue.get.1 queue queue.get.2 := by
  cases hgot : queue.get.1 with
  | some id => exact .got (Prod.ext hgot rfl)
  | none =>
      have hempty : queue.isEmpty = true := by
        rw [h.holds.isEmpty_eq, List.isEmpty_iff, ← List.head?_eq_none_iff, ← h.get.1, hgot]
      rw [Ring.get, if_pos hempty]
      exact .kept

/-- Who was in the queue or is put in, is taken out of it or still there. -/
theorem Handled.lines (h : Handled put got queue after) (hlines : queue.Lines queue.toList) :
    after.Lines after.toList ∧ queue.toList ++ put.toList = got.toList ++ after.toList := by
  cases h with
  | kept => exact ⟨hlines, by simp⟩
  | @put id _ _ hnew _ hput =>
      have hafter := hlines.put hnew
      rw [hput] at hafter
      exact ⟨hafter.toList_eq, by simp [hafter.holds.toList_eq]⟩
  | @got id _ _ hget =>
      obtain ⟨hfirst, hafter⟩ := hlines.get
      rw [hget] at hfirst hafter
      obtain ⟨rest, hline⟩ := List.head?_eq_some_iff.1 hfirst.symm
      refine ⟨hafter.toList_eq, ?_⟩
      rw [hafter.holds.toList_eq, hline]
      simp

end WaitQueue

namespace Mutex

variable {mutex : Mutex}

def enqueued? (mutex : Mutex) (me : ThreadId) : Option ThreadId :=
  if mutex.locked && mutex.owner != some me && !mutex.waiters.contains me then some me else none

def dequeued? (mutex : Mutex) (me : ThreadId) : Option ThreadId :=
  match mutex.release me with
  | .refused => none
  | .passed heir _ => heir

theorem Sound.handled_acquire (h : mutex.Sound) (me : ThreadId) :
    ∃ after, (mutex.acquire me = .acquired after ∨ mutex.acquire me = .queued after) ∧
      WaitQueue.Handled (mutex.enqueued? me) none mutex.waiters after.waiters := by
  cases hlocked : mutex.locked with
  | false =>
      refine ⟨{ mutex with locked := true, owner := some me },
        .inl (by simp [acquire, hlocked]), ?_⟩
      simpa [enqueued?, hlocked] using .kept
  | true =>
      by_cases howner : mutex.owner = some me
      · refine ⟨mutex, .inl (by simp [acquire, hlocked, howner]), ?_⟩
        simpa [enqueued?, howner] using .kept
      · cases hcontains : mutex.waiters.contains me with
        | true =>
            refine ⟨mutex, .inr (by simp [acquire, hlocked, howner, hcontains]), ?_⟩
            simpa [enqueued?, hcontains] using .kept
        | false =>
            have hnew : me ∉ mutex.line := by
              rw [← h.lines.contains_iff, hcontains]
              exact Bool.false_ne_true
            refine ⟨{ mutex with waiters := (mutex.waiters.put me).2 },
              .inr (by simp [acquire, hlocked, howner, hcontains]), ?_⟩
            simpa [enqueued?, hlocked, howner, hcontains] using h.lines.handled_put hnew

theorem Sound.handled_release (h : mutex.Sound) (me : ThreadId) :
    mutex.release me = .refused ∧ mutex.dequeued? me = none ∨
      ∃ heir after, mutex.release me = .passed heir after ∧
        WaitQueue.Handled none (mutex.dequeued? me) mutex.waiters after.waiters := by
  unfold dequeued?
  by_cases howner : mutex.owner = some me
  · have hlocked : mutex.locked = true := by rw [h.locked_eq, howner]; rfl
    have hrelease : mutex.release me =
        .passed mutex.waiters.get.1 ⟨mutex.waiters.get.1, mutex.waiters.get.1.isSome,
          mutex.waiters.get.2⟩ := by
      simp [release, hlocked, howner]
    rw [hrelease]
    exact .inr ⟨_, _, rfl, h.lines.handled_get⟩
  · rw [release_of_not_owner howner]
    exact .inl ⟨rfl, rfl⟩

end Mutex

namespace Semaphore

variable {semaphore : Semaphore}

def enqueued? (semaphore : Semaphore) (me : ThreadId) : Option ThreadId :=
  if semaphore.value ≤ 0 ∧ semaphore.waiters.contains me = false then some me else none

theorem Sound.handled_take (h : semaphore.Sound) (me : ThreadId) :
    ∃ after, (semaphore.take me = .taken after ∨ semaphore.take me = .queued after) ∧
      WaitQueue.Handled (semaphore.enqueued? me) none semaphore.waiters after.waiters := by
  by_cases hvalue : 0 < semaphore.value
  · refine ⟨{ semaphore with value := semaphore.value - 1 }, .inl (take_of_pos me hvalue), ?_⟩
    simpa [enqueued?, Int32.not_le.2 hvalue] using .kept
  · cases hcontains : semaphore.waiters.contains me with
    | true =>
        refine ⟨semaphore, .inr (by simp [take, hvalue, hcontains]), ?_⟩
        simpa [enqueued?, hcontains] using .kept
    | false =>
        have hnew : me ∉ semaphore.line := by
          rw [← h.lines.contains_iff, hcontains]
          exact Bool.false_ne_true
        refine ⟨{ semaphore with waiters := (semaphore.waiters.put me).2 },
          .inr (by simp [take, hvalue, hcontains]), ?_⟩
        simpa [enqueued?, Int32.not_lt.1 hvalue, hcontains] using h.lines.handled_put hnew

theorem Sound.handled_release (h : semaphore.Sound) :
    WaitQueue.Handled none semaphore.release.1 semaphore.waiters semaphore.release.2.waiters :=
  h.lines.handled_get

end Semaphore

/-! ## The queue under a lock -/

namespace Shared

def queue? (shared : Shared) : SpinLock → Option WaitQueue
  | .mutex index => shared.mutexes[index]?.map Mutex.waiters
  | .semaphore index => shared.semaphores[index]?.map Semaphore.waiters
  | .table | .console => none

def line (shared : Shared) (lock : SpinLock) : List ThreadId :=
  (shared.queue? lock).elim [] Ring.toList

def enqueued? (shared : Shared) (lock : SpinLock) : Step → Option ThreadId
  | .tryAcquire index me =>
      if lock = .mutex index then shared.mutexes[index]?.bind (·.enqueued? me) else none
  | .tryTake index me =>
      if lock = .semaphore index then shared.semaphores[index]?.bind (·.enqueued? me) else none
  | _ => none

def dequeued? (shared : Shared) (lock : SpinLock) : Step → Option ThreadId
  | .tryRelease index me =>
      if lock = .mutex index then shared.mutexes[index]?.bind (·.dequeued? me) else none
  | .giveBack index _ =>
      if lock = .semaphore index then shared.semaphores[index]?.bind (·.release.1) else none
  | _ => none

inductive Handles (before after : Shared) (lock : SpinLock) (put got : Option ThreadId) :
    Prop where
  /-- There is no such queue. -/
  | absent : before.queue? lock = none → after.queue? lock = none → put = none → got = none →
      Handles before after lock put got
  | present {queue later : WaitQueue} : before.queue? lock = some queue →
      after.queue? lock = some later → queue.Handled put got later →
        Handles before after lock put got

variable {before after : Shared} {lock : SpinLock} {index : Nat}

theorem handles_of_eq (h : after.queue? lock = before.queue? lock) :
    before.Handles after lock none none := by
  cases hqueue : before.queue? lock with
  | none => exact .absent hqueue (h.trans hqueue) rfl rfl
  | some queue => exact .present hqueue (h.trans hqueue) .kept

theorem Sound.lines (h : before.Sound) {queue : WaitQueue}
    (hqueue : before.queue? lock = some queue) : queue.Lines queue.toList := by
  cases lock with
  | table | console => cases hqueue
  | mutex index =>
      obtain ⟨mutex, hmutex, rfl⟩ := Option.map_eq_some_iff.1 hqueue
      exact (h.mutexes index mutex hmutex).lines
  | semaphore index =>
      obtain ⟨semaphore, hsemaphore, rfl⟩ := Option.map_eq_some_iff.1 hqueue
      exact (h.semaphores index semaphore hsemaphore).lines

theorem Sound.line_nodup (h : before.Sound) (lock : SpinLock) : (before.line lock).Nodup := by
  unfold line
  cases hqueue : before.queue? lock with
  | none => exact List.nodup_nil
  | some queue => exact (h.lines hqueue).nodup

theorem line_new (values : List Int32) (mutexes : Nat) (console : Console) (lock : SpinLock) :
    (Shared.new values mutexes console).line lock = [] := by
  cases lock with
  | table | console => rfl
  | mutex index =>
      rw [← mutexLine_new values mutexes console index, line, queue?, mutexLine]
      cases (Shared.new values mutexes console).mutexes[index]? <;> rfl
  | semaphore index =>
      rw [← semaphoreLine_new values mutexes console index, line, queue?, semaphoreLine]
      cases (Shared.new values mutexes console).semaphores[index]? <;> rfl

theorem Handles.line_eq {put got : Option ThreadId} (h : before.Handles after lock put got)
    (hsound : before.Sound) :
    before.line lock ++ put.toList = got.toList ++ after.line lock := by
  cases h with
  | absent hbefore hafter hput hgot => simp [line, hbefore, hafter, hput, hgot]
  | present hqueue hafter hhandled =>
      simpa [line, hqueue, hafter] using (hhandled.lines (hsound.lines hqueue)).2

theorem handles_of_update {own : SpinLock} {queue later : WaitQueue} {put got : Option ThreadId}
    (hqueue : before.queue? own = some queue)
    (hafter : ∀ lock, after.queue? lock = if lock = own then some later else before.queue? lock)
    (h : queue.Handled put got later) (lock : SpinLock) :
    before.Handles after lock (if lock = own then put else none)
      (if lock = own then got else none) := by
  by_cases hlock : lock = own
  · subst hlock
    simp only [if_true]
    exact .present hqueue (by rw [hafter, if_pos rfl]) h
  · simp only [if_neg hlock]
    exact handles_of_eq (by rw [hafter, if_neg hlock])

theorem handles_setMutex {mutex after : Mutex} {put got : Option ThreadId}
    (hmutex : before.mutexes[index]? = some mutex)
    (h : mutex.waiters.Handled put got after.waiters) (lock : SpinLock) :
    before.Handles (before.setMutex index after) lock (if lock = .mutex index then put else none)
      (if lock = .mutex index then got else none) := by
  have hbound := (Array.getElem?_eq_some_iff.1 hmutex).1
  refine handles_of_update (by rw [queue?, hmutex]; rfl) (fun lock => ?_) h lock
  cases lock with
  | mutex other =>
      by_cases hother : index = other
      · subst hother
        simp [queue?, setMutex, hbound]
      · simp [queue?, setMutex, Array.getElem?_setIfInBounds_ne hother, Ne.symm hother]
  | _ => rfl

theorem handles_setSemaphore {semaphore after : Semaphore} {put got : Option ThreadId}
    (hsemaphore : before.semaphores[index]? = some semaphore)
    (h : semaphore.waiters.Handled put got after.waiters) (lock : SpinLock) :
    before.Handles (before.setSemaphore index after) lock
      (if lock = .semaphore index then put else none)
      (if lock = .semaphore index then got else none) := by
  have hbound := (Array.getElem?_eq_some_iff.1 hsemaphore).1
  refine handles_of_update (by rw [queue?, hsemaphore]; rfl) (fun lock => ?_) h lock
  cases lock with
  | semaphore other =>
      by_cases hother : index = other
      · subst hother
        simp [queue?, setSemaphore, hbound]
      · simp [queue?, setSemaphore, Array.getElem?_setIfInBounds_ne hother, Ne.symm hother]
  | _ => rfl

end Shared

/-! ## What moves do to a queue -/

namespace Machine

variable {P : Type} (m : Machine P) (lock : SpinLock)

theorem handles_tryAcquire (h : m.shared.Sound) (index : Nat) (me : ThreadId) :
    m.shared.Handles (m.tryAcquire index me).shared lock
      (m.shared.enqueued? lock (.tryAcquire index me)) none := by
  cases hmutex : m.shared.mutexes[index]? with
  | none =>
      simp only [tryAcquire, Shared.enqueued?, hmutex, Option.bind_none, ite_self]
      exact Shared.handles_of_eq rfl
  | some mutex =>
      obtain ⟨after, hacquire, hhandled⟩ := (h.mutexes index mutex hmutex).handled_acquire me
      have hshared : (m.tryAcquire index me).shared = m.shared.setMutex index after := by
        rcases hacquire with hacquire | hacquire <;>
          simp only [tryAcquire, hmutex, hacquire] <;> rfl
      rw [hshared]
      simpa only [Shared.enqueued?, hmutex, Option.bind_some, ite_self] using
        Shared.handles_setMutex hmutex hhandled lock

theorem handles_tryRelease (h : m.shared.Sound) (index : Nat) (me : ThreadId) :
    m.shared.Handles (m.tryRelease index me).shared lock none
      (m.shared.dequeued? lock (.tryRelease index me)) := by
  cases hmutex : m.shared.mutexes[index]? with
  | none =>
      simp only [tryRelease, Shared.dequeued?, hmutex, Option.map_none, Option.bind_none, ite_self]
      exact Shared.handles_of_eq rfl
  | some mutex =>
      rcases (h.mutexes index mutex hmutex).handled_release me with
        ⟨hrefused, hnobody⟩ | ⟨heir, after, hpassed, hhandled⟩
      · simp only [tryRelease, Shared.dequeued?, hmutex, Option.map_some, hrefused,
          Option.bind_some, hnobody, ite_self]
        exact Shared.handles_of_eq rfl
      · have hshared : (m.tryRelease index me).shared = m.shared.setMutex index after := by
          simp only [tryRelease, hmutex, Option.map_some, hpassed]
          rfl
        rw [hshared]
        simpa only [Shared.dequeued?, hmutex, Option.bind_some, ite_self] using
          Shared.handles_setMutex hmutex hhandled lock

theorem handles_tryTake (h : m.shared.Sound) (index : Nat) (me : ThreadId) :
    m.shared.Handles (m.tryTake index me).shared lock
      (m.shared.enqueued? lock (.tryTake index me)) none := by
  cases hsemaphore : m.shared.semaphores[index]? with
  | none =>
      simp only [tryTake, Shared.enqueued?, hsemaphore, Option.bind_none, ite_self]
      exact Shared.handles_of_eq rfl
  | some semaphore =>
      obtain ⟨after, htake, hhandled⟩ := (h.semaphores index semaphore hsemaphore).handled_take me
      have hshared : (m.tryTake index me).shared = m.shared.setSemaphore index after := by
        rcases htake with htake | htake <;> simp only [tryTake, hsemaphore, htake] <;> rfl
      rw [hshared]
      simpa only [Shared.enqueued?, hsemaphore, Option.bind_some, ite_self] using
        Shared.handles_setSemaphore hsemaphore hhandled lock

theorem handles_giveBack (h : m.shared.Sound) (index : Nat) (andSwitch : Bool) :
    m.shared.Handles (m.giveBack index andSwitch).shared lock none
      (m.shared.dequeued? lock (.giveBack index andSwitch)) := by
  cases hsemaphore : m.shared.semaphores[index]? with
  | none =>
      simp only [giveBack, Shared.dequeued?, hsemaphore, Option.map_none, Option.bind_none,
        ite_self]
      exact Shared.handles_of_eq rfl
  | some semaphore =>
      have hhandled := (h.semaphores index semaphore hsemaphore).handled_release
      have hshared : (m.giveBack index andSwitch).shared =
          m.shared.setSemaphore index semaphore.release.2 := by
        simp only [giveBack, hsemaphore, Option.map_some]
        rfl
      rw [hshared]
      simpa only [Shared.dequeued?, hsemaphore, Option.bind_some, ite_self] using
        Shared.handles_setSemaphore hsemaphore hhandled lock

end Machine

def Transition.enqueued? {P : Type} (t : Transition P) (lock : SpinLock) : Option ThreadId :=
  t.step?.bind (t.before.shared.enqueued? lock)

def Transition.dequeued? {P : Type} (t : Transition P) (lock : SpinLock) : Option ThreadId :=
  t.step?.bind (t.before.shared.dequeued? lock)

section

variable {P : Type} [Backend P] {m after : Machine P} {step : Step} {rest pushed : List Step}
  {move : Move}

theorem Shared.queue?_eq {before after : Shared} (hmutexes : after.mutexes = before.mutexes)
    (hsemaphores : after.semaphores = before.semaphores) (lock : SpinLock) :
    after.queue? lock = before.queue? lock := by
  cases lock <;> simp only [queue?, hmutexes, hsemaphores]

theorem Machine.Stepped.handles (hstepped : m.Stepped step rest pushed after)
    (h : m.shared.Sound) (lock : SpinLock) :
    m.shared.Handles after.shared lock (m.shared.enqueued? lock step)
      (m.shared.dequeued? lock step) := by
  have hafter := hstepped.eq
  cases step
  case tryAcquire index me => exact hafter ▸ (m.setCode rest).handles_tryAcquire lock h index me
  case tryRelease index me => exact hafter ▸ (m.setCode rest).handles_tryRelease lock h index me
  case tryTake index me => exact hafter ▸ (m.setCode rest).handles_tryTake lock h index me
  case giveBack index andSwitch =>
    exact hafter ▸ (m.setCode rest).handles_giveBack lock h index andSwitch
  all_goals
    exact Shared.handles_of_eq
      (Shared.queue?_eq (hstepped.effect.mutexes rfl) (hstepped.effect.semaphores rfl) lock)

theorem Machine.Goes.handles (hgoes : m.Goes move after) (h : m.shared.Sound)
    (lock : SpinLock) :
    m.shared.Handles after.shared lock (Transition.enqueued? ⟨m, move⟩ lock)
      (Transition.dequeued? ⟨m, move⟩ lock) := by
  unfold Transition.enqueued? Transition.dequeued?
  rcases hgoes.steps_or_still with ⟨step, rest, pushed, rfl, hstepped⟩ | ⟨hshared, hswitches⟩
  · rw [hstepped.step?_eq]
    exact hstepped.handles h lock
  · rw [hshared]
    cases hstep : Transition.step? ⟨m, move⟩ with
    | none => exact Shared.handles_of_eq rfl
    | some step =>
        obtain ⟨next, prev, rfl⟩ := Step.eq_switch (hswitches step hstep)
        exact Shared.handles_of_eq rfl

end

/-! ## Histories of the shared state -/

/-- Moves of any kernels, each of which found the shared state as the one before left it. -/
inductive Shared.History {P : Type} [Backend P] (start : Shared) :
    List (Transition P) → Shared → Prop where
  | nil : History start [] start
  | snoc {past : List (Transition P)} {m : Machine P} (move : Move) :
      History start past m.shared → m.Allows move →
        History start (past ++ [⟨m, move⟩]) (m.after move).shared

namespace Shared.History

variable {P : Type} [Backend P] {start shared : Shared} {past : List (Transition P)}

theorem sound (history : History start past shared) (hstart : start.Sound) : shared.Sound := by
  induction history with
  | nil => exact hstart
  | snoc move _ allowed ih => exact Machine.sound_of_goes ih (Machine.goes_after _ allowed)

/-- Every transition of a history deals with the queues in one of the ways above. -/
theorem handles (history : History start past shared) (hstart : start.Sound) (lock : SpinLock) :
    ∀ t ∈ past, t.before.shared.Handles t.after.shared lock (t.enqueued? lock)
      (t.dequeued? lock) := by
  induction history with
  | nil => exact List.forall_mem_nil _
  | @snoc past m move earlier allowed ih =>
      intro t hmem
      rcases List.mem_append.1 hmem with hmem | hmem
      · exact ih t hmem
      · obtain rfl := List.mem_singleton.1 hmem
        exact (m.goes_after allowed).handles (earlier.sound hstart) lock

/-- Who was put into a queue was taken out of it in the same order, or is still in it. -/
theorem enqueued_eq (history : History start past shared) (hstart : start.Sound)
    {lock : SpinLock} (hnobody : start.line lock = []) :
    past.filterMap (·.enqueued? lock) =
      past.filterMap (·.dequeued? lock) ++ shared.line lock := by
  induction history with
  | nil => rw [hnobody]; rfl
  | @snoc past m move earlier allowed ih =>
      have hline := ((m.goes_after allowed).handles (earlier.sound hstart) lock).line_eq
        (earlier.sound hstart)
      rw [filterMap_snoc, filterMap_snoc, ih, List.append_assoc, List.append_assoc]
      exact congrArg _ hline

theorem update {process : Process P} {index : Nat} {m : Machine P} {move : Move}
    (history : History start past process.shared) (hm : process.machine? index = some m)
    (allowed : m.Allows move) :
    History start (past ++ [⟨m, move⟩]) (process.update index (m.after move)).shared := by
  rw [← Process.shared_of_machine? hm] at history
  exact history.snoc move allowed

end Shared.History

/-- What one kernel does is a history of what it shares. -/
theorem Run.history {P : Type} [Backend P] {start m : Machine P} {past : List (Transition P)}
    (run : Run start past m) : Shared.History start.shared past m.shared := by
  induction run with
  | nil => exact .nil
  | snoc move _ allowed ih => exact ih.snoc move allowed

namespace Process

variable {P : Type} [Backend P] {start process : Process P} {past : List (Transition P)}

/-- Whatever the kernels of a process do side by side, what they share has a history. -/
theorem Reaches.exists_history (h : start.Reaches process) :
    ∃ past : List (Transition P), Shared.History start.shared past process.shared := by
  induction h with
  | refl => exact ⟨[], .nil⟩
  | step _ hstep ih =>
      obtain ⟨past, history⟩ := ih
      obtain @⟨index, m, move, hm, allowed⟩ := hstep
      exact ⟨past ++ [⟨m, move⟩], history.update hm allowed⟩

theorem CoreRun.history (run : CoreRun start past process) :
    Shared.History start.shared past process.shared := by
  induction run with
  | nil => exact .nil
  | snoc move _ hm allowed _ ih => exact ih.update hm allowed

end Process

namespace Shared.History

variable {P : Type} [Backend P] {shared : Shared} {past : List (Transition P)}

/--
The queue of a mutex or a semaphore, whatever uses were made of it: by threads of any kernels,
which may have the same identities, under any policies, switched to at any time, and whether or
not somebody lingers in the queue.  It holds nobody twice.  Every thread that was put into it
found it not full, so that nobody was given up for it.  Nothing else changed the queue but that
its oldest thread was taken out, so whoever was put in was taken out in the same order or is
still there.
-/
theorem waiters_kept {values : List Int32} {mutexes : Nat} {console : Console}
    (history : History (.new values mutexes console) past shared) (lock : SpinLock) :
    (shared.line lock).Nodup ∧
      past.filterMap (·.enqueued? lock) =
        past.filterMap (·.dequeued? lock) ++ shared.line lock ∧
      ∀ t ∈ past, t.before.shared.Handles t.after.shared lock (t.enqueued? lock)
        (t.dequeued? lock) := by
  have hstart := Shared.sound_new values mutexes console
  refine ⟨(history.sound hstart).line_nodup lock, ?_, history.handles hstart lock⟩
  exact history.enqueued_eq hstart (line_new values mutexes console lock)

/--
The idle threads of two kernels, which have one identity, wait for the same semaphore, and a
third kernel gives it a unit.  The first one takes the unit and the second one queues up again.
-/
def namesakes : List (Nat × Move) :=
  (0, .call (.wait 0)) :: steps 0 11 ++ (1, .call (.wait 0)) :: steps 1 11
    ++ (2, .call (.signal 0)) :: steps 2 5 ++ steps 0 26 ++ steps 1 26
where
  steps (index count : Nat) : List (Nat × Move) := List.replicate count (index, .exec)

theorem exists_namesakes :
    ∃ (past : List (Transition Host)) (shared : Shared),
      History (.new [0] 0 { sinks := [], installed := none }) past shared ∧
        past.filterMap (·.enqueued? (.semaphore 0)) = [ThreadId.idle, ThreadId.idle] ∧
        past.filterMap (·.dequeued? (.semaphore 0)) = [ThreadId.idle] := by
  let start : Process Host :=
    .boot [.new 1 {} .roundRobin {}, .new 2 {} .roundRobin {}, .new 3 {} .roundRobin {}]
      (.new [0] 0 { sinks := [], installed := none }) {}
  have run : Process.CoreRun start (start.transitions namesakes) (start.play namesakes) :=
    .of_plays (by decide +kernel)
  exact ⟨_, _, run.history, by decide +kernel, by decide +kernel⟩

/-- The identity that two threads have in common was put in twice, and is in the queue once. -/
theorem waiters_kept_of_namesakes :
    ∃ (past : List (Transition Host)) (shared : Shared),
      History (.new [0] 0 { sinks := [], installed := none }) past shared ∧
        past.filterMap (·.enqueued? (.semaphore 0)) = [ThreadId.idle, ThreadId.idle] ∧
        shared.line (.semaphore 0) = [ThreadId.idle] := by
  obtain ⟨past, shared, history, hput, hgot⟩ := exists_namesakes
  obtain ⟨-, haccount, -⟩ := waiters_kept history (.semaphore 0)
  refine ⟨past, shared, history, hput, ?_⟩
  rw [hput, hgot] at haccount
  exact (List.cons_injective haccount).symm

end Shared.History

end TickKernel
