import Mathlib.Data.Fintype.Card
import Mathlib.Data.List.Nodup
import TickKernel.Proofs.RingList
import TickKernel.Sync.Mutex

/-!
# Queues of synchronization objects

What acquiring, releasing, taking and giving back do to a mutex or a semaphore, in
terms of its owner or value and of the list of threads in its queue.  No queue ever
gives a thread up: it has a slot for every thread and holds each one at most once.
-/

namespace TickKernel

/-- The queue holds these threads, oldest first, and none of them twice. -/
structure WaitQueue.Lines (queue : WaitQueue) (line : List ThreadId) : Prop where
  holds : queue.Holds line
  nodup : line.Nodup

namespace WaitQueue.Lines

variable {queue : WaitQueue} {line : List ThreadId}

theorem empty : WaitQueue.Lines Ring.empty [] :=
  ⟨Ring.holds_empty, List.nodup_nil⟩

theorem contains_iff (h : queue.Lines line) (id : ThreadId) :
    queue.contains id = true ↔ id ∈ line := by
  rw [Ring.contains, h.holds.toList_eq]
  simp

theorem nodup_concat (h : queue.Lines line) {id : ThreadId} (hnew : id ∉ line) :
    (line ++ [id]).Nodup := by
  rw [List.nodup_append]
  refine ⟨h.nodup, List.nodup_singleton id, ?_⟩
  rintro other hmem same hsame rfl
  rw [List.mem_singleton.1 hsame] at hmem
  exact hnew hmem

/-- A thread that is not in the queue finds room in it. -/
theorem length_lt (h : queue.Lines line) {id : ThreadId} (hnew : id ∉ line) :
    line.length < maxThreads := by
  have hlength : (line ++ [id]).length ≤ maxThreads := by
    have hcard := List.Nodup.length_le_card (h.nodup_concat hnew)
    rwa [Fintype.card_fin] at hcard
  rw [List.length_append, List.length_singleton] at hlength
  omega

theorem put (h : queue.Lines line) {id : ThreadId} (hnew : id ∉ line) :
    WaitQueue.Lines (Ring.put queue id).2 (line ++ [id]) :=
  ⟨(h.holds.put (h.length_lt hnew) id).2, h.nodup_concat hnew⟩

theorem get (h : queue.Lines line) :
    (Ring.get queue).1 = line.head? ∧ WaitQueue.Lines (Ring.get queue).2 line.tail :=
  ⟨h.holds.get.1, h.holds.get.2, h.nodup.tail⟩

end WaitQueue.Lines

namespace Mutex

/-- The threads in the queue, oldest first. -/
def line (mutex : Mutex) : List ThreadId :=
  mutex.waiters.toList

/-- A mutex is locked when it has an owner; only then is somebody waiting, never the owner. -/
structure Sound (mutex : Mutex) : Prop where
  lines : mutex.waiters.Lines mutex.line
  locked_eq : mutex.locked = mutex.owner.isSome
  line_eq_nil : mutex.owner = none → mutex.line = []
  owner_not_mem : ∀ id, mutex.owner = some id → id ∉ mutex.line

variable {mutex : Mutex}

theorem sound_new : Mutex.new.Sound where
  lines := .empty
  locked_eq := rfl
  line_eq_nil _ := rfl
  owner_not_mem _ h := by cases h

namespace Sound

theorem line_eq {waiters : WaitQueue} {line : List ThreadId} (h : waiters.Lines line)
    (owner : Option ThreadId) (locked : Bool) : Mutex.line ⟨owner, locked, waiters⟩ = line :=
  h.holds.toList_eq

theorem acquire_of_free (h : mutex.Sound) (me : ThreadId) (hfree : mutex.owner = none) :
    ∃ after, mutex.acquire me = .acquired after ∧ after.Sound ∧ after.owner = some me ∧
      after.line = [] := by
  have hline := h.line_eq_nil hfree
  have hlines := h.lines
  rw [hline] at hlines
  have hlocked : mutex.locked = false := by rw [h.locked_eq, hfree]; rfl
  have hafter := line_eq hlines (some me) true
  refine ⟨⟨some me, true, mutex.waiters⟩, by simp [acquire, hlocked], ?_, rfl, hafter⟩
  refine ⟨hafter.symm ▸ hlines, rfl, nofun, fun id _ => ?_⟩
  rw [hafter]
  exact List.not_mem_nil

theorem acquire_of_owner (h : mutex.Sound) {me : ThreadId} (howner : mutex.owner = some me) :
    mutex.acquire me = .acquired mutex := by
  have hlocked : mutex.locked = true := by rw [h.locked_eq, howner]; rfl
  simp [acquire, hlocked, howner]

theorem acquire_of_other (h : mutex.Sound) {me other : ThreadId} (howner : mutex.owner = some other)
    (hother : other ≠ me) :
    ∃ after, mutex.acquire me = .queued after ∧ after.Sound ∧ after.owner = some other ∧
      after.line = if me ∈ mutex.line then mutex.line else mutex.line ++ [me] := by
  have hlocked : mutex.locked = true := by rw [h.locked_eq, howner]; rfl
  by_cases hmem : me ∈ mutex.line
  · have hcontains := (h.lines.contains_iff me).2 hmem
    refine ⟨mutex, by simp [acquire, hlocked, howner, hother, hcontains], h, howner, ?_⟩
    rw [if_pos hmem]
  · have hcontains : ¬ mutex.waiters.contains me = true := fun hc =>
      hmem ((h.lines.contains_iff me).1 hc)
    have hlines := h.lines.put hmem
    have hafter := line_eq hlines (some other) true
    refine ⟨⟨some other, true, (mutex.waiters.put me).2⟩,
      by simp [acquire, hlocked, howner, hother, hcontains], ?_, rfl, ?_⟩
    · refine ⟨hafter.symm ▸ hlines, rfl, nofun, fun id hid => ?_⟩
      obtain rfl : other = id := Option.some.inj hid
      rw [hafter, List.mem_append, List.mem_singleton]
      rintro (hold | rfl)
      · exact h.owner_not_mem other howner hold
      · exact hother rfl
    · rw [if_neg hmem, hafter]

theorem release_of_owner (h : mutex.Sound) {me : ThreadId} (howner : mutex.owner = some me) :
    ∃ after, mutex.release me = .passed mutex.line.head? after ∧ after.Sound ∧
      after.owner = mutex.line.head? ∧ after.line = mutex.line.tail := by
  have hlocked : mutex.locked = true := by rw [h.locked_eq, howner]; rfl
  obtain ⟨hheir, hlines⟩ := h.lines.get
  have hafter := line_eq hlines mutex.line.head? mutex.line.head?.isSome
  refine ⟨⟨mutex.line.head?, mutex.line.head?.isSome, mutex.waiters.get.2⟩, ?_, ?_, rfl, hafter⟩
  · simp [release, hlocked, howner, hheir]
  · refine ⟨hafter.symm ▸ hlines, rfl, fun hnone => ?_, fun id hid => ?_⟩
    · rw [hafter, List.head?_eq_none_iff.1 hnone]
      rfl
    · obtain ⟨rest, hline⟩ := List.head?_eq_some_iff.1 hid
      have hnodup := h.lines.nodup
      rw [hafter, hline]
      rw [hline] at hnodup
      exact (List.nodup_cons.1 hnodup).1

end Sound

end Mutex

namespace Semaphore

def line (semaphore : Semaphore) : List ThreadId :=
  semaphore.waiters.toList

structure Sound (semaphore : Semaphore) : Prop where
  lines : semaphore.waiters.Lines semaphore.line

variable {semaphore : Semaphore}

theorem sound_new (value : Int32) : (Semaphore.new value).Sound :=
  ⟨.empty⟩

theorem take_of_pos (me : ThreadId) (hvalue : 0 < semaphore.value) :
    semaphore.take me = .taken ⟨semaphore.value - 1, semaphore.waiters⟩ := by
  simp [take, hvalue]

namespace Sound

theorem take_of_not_pos (h : semaphore.Sound) (me : ThreadId)
    (hvalue : ¬ 0 < semaphore.value) :
    ∃ after, semaphore.take me = .queued after ∧ after.Sound ∧ after.value = semaphore.value ∧
      after.line = if me ∈ semaphore.line then semaphore.line else semaphore.line ++ [me] := by
  by_cases hmem : me ∈ semaphore.line
  · have hcontains := (h.lines.contains_iff me).2 hmem
    refine ⟨semaphore, by simp [take, hvalue, hcontains], h, rfl, ?_⟩
    rw [if_pos hmem]
  · have hcontains : ¬ semaphore.waiters.contains me = true := fun hc =>
      hmem ((h.lines.contains_iff me).1 hc)
    have hlines := h.lines.put hmem
    have hafter : Semaphore.line ⟨semaphore.value, (semaphore.waiters.put me).2⟩ =
        semaphore.line ++ [me] := hlines.holds.toList_eq
    refine ⟨⟨semaphore.value, (semaphore.waiters.put me).2⟩,
      by simp [take, hvalue, hcontains], ⟨hafter.symm ▸ hlines⟩, rfl, ?_⟩
    rw [if_neg hmem, hafter]

theorem release (h : semaphore.Sound) :
    semaphore.release.1 = semaphore.line.head? ∧ semaphore.release.2.Sound ∧
      semaphore.release.2.line = semaphore.line.tail := by
  obtain ⟨hwoken, hlines⟩ := h.lines.get
  have hafter : semaphore.release.2.line = semaphore.line.tail := hlines.holds.toList_eq
  exact ⟨hwoken, ⟨hafter.symm ▸ hlines⟩, hafter⟩

end Sound

end Semaphore

end TickKernel
