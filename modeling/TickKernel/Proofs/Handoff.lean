import TickKernel.Proofs.Arrival
import TickKernel.Proofs.MutualExclusion
import TickKernel.Proofs.Occupancy

/-!
# Handing a mutex over

An owner that unlocks a contended mutex passes it to the oldest waiter, and passes
the processor on in the same stretch of masked steps.  No third thread executes in
between, so none can overtake the heir.
-/

namespace TickKernel

variable {P : Type}

/-- What has become of a mutex and of the processor when a thread passed both to its heir. -/
structure Machine.PassedOn (m : Machine P) (index : Nat) (heir : ThreadId) (line : List ThreadId)
    (after : Machine P) : Prop where
  executing : after.executing = heir
  current : after.kernel.table.current = heir
  running : after.kernel.table.state heir = .running
  ready : after.kernel.table.state m.executing = .ready
  owner : after.shared.owner index = some heir
  line : after.shared.mutexLine index = line

namespace Machine

variable [Backend P]

def Alone (m : Machine P) (count : Nat) (after : Machine P) : Prop :=
  m.Leads (fun other => other.executing = m.executing ∧ other.interruptsEnabled = false) count after

namespace Alone

variable {m middle after : Machine P} {count more : Nat}

theorem executing (h : m.Alone count after) : after.executing = m.executing := by
  rcases Nat.eq_zero_or_pos count with rfl | hpos
  · exact congrArg Machine.executing (Eq.symm h.reaches)
  · exact h.reaches ▸ (h.keeps count hpos (Nat.le_refl _)).1

theorem of_still (h : m.Still count after) : m.Alone count after :=
  Leads.imp h fun _ hgood => ⟨hgood.1.executing, hgood.2⟩

theorem one (h : m.exec.executing = m.executing) (hmasked : m.exec.interruptsEnabled = false) :
    m.Alone 1 m.exec :=
  Leads.one ⟨h, hmasked⟩

theorem trans (h : m.Alone count middle) (h' : middle.Alone more after) :
    m.Alone (more + count) after :=
  Leads.trans h (Leads.imp h' fun _ hgood => ⟨hgood.1.trans h.executing, hgood.2⟩)

end Alone

namespace At

variable {m : Machine P} {index : Nat} {heir : ThreadId} {line : List ThreadId}

/-- An owner that unlocks comes to where it wakes its heir, which owns the mutex by then. -/
theorem reaches_wake (h : m.At (Request.unlock index).code ⟨0, []⟩)
    (howner : m.shared.owner index = some m.executing)
    (hline : m.shared.mutexLine index = heir :: line) :
    ∃ waking, m.Alone 13 waking ∧ waking.kernel.table = m.kernel.table ∧
      waking.shared.owner index = some heir ∧ waking.shared.mutexLine index = line ∧
        waking.At ([.wake heir, .unmask, .free .table] ++ Code.switchTo heir
          ++ [.unmask] ++ Code.done) ⟨2, [.table]⟩ := by
  obtain ⟨trying, hfirst, hattempt⟩ := h.reaches_tryRelease
  obtain ⟨pushed, hstepped, hpassed⟩ := hattempt.exec_step (by simp [Step.IsDead]) rfl
  have hsame := hfirst.untouched
  have hme : trying.shared.owner index = some trying.executing := by
    rw [hsame.owner, hsame.executing]
    exact howner
  have hold : trying.shared.mutexLine index = heir :: line := by
    rw [hsame.mutexLine]
    exact hline
  have hclaims := (hstepped.claims hattempt.objects rfl).1
  cases hclaims with
  | refused hother _ => exact absurd hme hother
  | freed _ hempty _ _ =>
      rw [hold] at hempty
      cases hempty
  | @passed _ _ next others _ hwaiting hafter hafterLine =>
      obtain ⟨rfl, rfl⟩ := List.cons.inj (hold.symm.trans hwaiting)
      have hsecond := (Alone.of_still hfirst).trans
        (Alone.one hstepped.effect.executing (hpassed.masked (by simp)))
      rw [List.append_nil] at hpassed
      obtain ⟨waking, hthird, hwake⟩ :=
        At.glide [.free (.mutex index), .unmask, .mask, .take .table] hpassed
          (by simp [Step.IsDead])
      have hkept := hthird.untouched
      have hcover : Code.coverAfter ⟨2, [.mutex index]⟩
          [.free (.mutex index), .unmask, .mask, .take .table] = ⟨2, [.table]⟩ := by
        simp
      refine ⟨waking, hsecond.trans (.of_still hthird), ?_, ?_, ?_, hcover ▸ hwake⟩
      · rw [hkept.table, hstepped.effect.table]
        exact hsame.table
      · rw [hkept.owner, hafter, Function.update_self]
      · rw [hkept.mutexLine, hafterLine, Function.update_self]

theorem switches_to {rest : List Step}
    (h : m.At ([.wake heir, .unmask, .free .table] ++ Code.switchTo heir ++ rest) ⟨2, [.table]⟩)
    (hrunning : m.kernel.table.state m.executing = .running) (hother : m.executing ≠ heir) :
    ∃ last, m.Alone 7 last ∧ last.exec.executing = heir ∧
      last.exec.kernel.table.current = heir ∧ last.exec.kernel.table.state heir = .running ∧
        last.exec.kernel.table.state m.executing = .ready ∧
          last.exec.shared.mutexes = m.shared.mutexes := by
  obtain ⟨pushed, hwakes, hwoken⟩ := h.exec_step (by simp [Step.IsDead]) rfl
  rw [hwakes.expands.eq_nil rfl] at hwoken
  have hfirst := Alone.one hwakes.effect.executing (hwoken.masked (by simp))
  obtain ⟨leaving, hsecond, hleave⟩ :=
    At.glide [.unmask, .free .table, .mask, .take .table] hwoken (by simp [Step.IsDead])
  obtain ⟨pushed, hdispatches, hdispatched⟩ := hleave.exec_step (by simp [Step.IsDead]) rfl
  have hseat := hleave.seated.executing_eq hleave.code (by simp) rfl
  have hexecuting : leaving.executing = m.executing :=
    hsecond.untouched.executing.trans hwakes.effect.executing
  have hstill : leaving.kernel.table.state m.executing = .running := by
    rw [hsecond.untouched.table, hwakes.effect.table, Step.state_tableAfter, Step.stateAfter,
      if_neg fun h => hother h.1]
    exact hrunning
  have hnotBack : leaving.kernel.table.handsBack heir = false := by
    rw [Bool.eq_false_iff]
    intro hback
    have hcurrent := ((leaving.kernel.table.handsBack_iff heir).1 hback).1
    exact hother (hexecuting.symm.trans (hseat.trans hcurrent))
  have hpushed : pushed = [.free .table, .switch heir leaving.kernel.table.current, .unmask] := by
    cases hdispatches.expands with
    | nothing hplain => cases hplain
    | answer _ hasks => cases hasks
    | stay => exact absurd (hexecuting.symm.trans hseat) hother
    | leave _ => rfl
  rw [hpushed] at hdispatched
  obtain ⟨last, hthird, hlast⟩ := At.glide [.free .table] hdispatched (by simp [Step.IsDead])
  have hswitched := switched_exec hlast.code
  have htable : last.exec.kernel.table = leaving.kernel.table.dispatch heir := by
    rw [hswitched.kernel]
    show last.kernel.table = _
    rw [hthird.untouched.table, hdispatches.effect.table]
    rfl
  refine ⟨last, ?_, hswitched.executing, ?_, ?_, ?_, ?_⟩
  · have hfourth := Alone.one hdispatches.effect.executing (hdispatched.masked (by simp))
    exact ((hfirst.trans (.of_still hsecond)).trans hfourth).trans (.of_still hthird)
  · rw [htable, ThreadTable.current_dispatch]
  · rw [htable, ThreadTable.state_dispatch_self hnotBack]
  · rw [htable]
    show (Step.tableAfter (.dispatch heir) leaving.kernel.table).state m.executing = .ready
    rw [Step.state_tableAfter, Step.stateAfter, hnotBack, if_neg Bool.false_ne_true,
      if_neg hother, if_pos ⟨hexecuting.symm.trans hseat, hstill⟩]
  · rw [hswitched.shared]
    show last.shared.mutexes = _
    rw [hthird.untouched.mutexes, hdispatches.effect.mutexes rfl, hsecond.untouched.mutexes,
      hwakes.effect.mutexes rfl]

/-- Unlocking a contended mutex makes the oldest waiter its owner and the running thread. -/
theorem hands_over (h : m.At (Request.unlock index).code ⟨0, []⟩)
    (howner : m.shared.owner index = some m.executing)
    (hline : m.shared.mutexLine index = heir :: line)
    (hrunning : m.kernel.table.state m.executing = .running) :
    ∃ last, m.Alone 20 last ∧ m.PassedOn index heir line last.exec := by
  have hother : m.executing ≠ heir := by
    rintro rfl
    have hnot := h.objects.owner_not_mem howner
    rw [hline] at hnot
    exact hnot List.mem_cons_self
  obtain ⟨waking, hfirst, htable, hpassed, hleft, hwake⟩ := h.reaches_wake howner hline
  have hme := hfirst.executing
  obtain ⟨last, hsecond, hexecuting, hcurrent, hruns, hready, hmutexes⟩ :=
    At.switches_to hwake (by rw [htable, hme]; exact hrunning) (hme ▸ hother)
  refine ⟨last, hfirst.trans hsecond, hexecuting, hcurrent, hruns, hme ▸ hready, ?_, ?_⟩
  · rw [Shared.owner, hmutexes]
    exact hpassed
  · rw [Shared.mutexLine, hmutexes]
    exact hleft

end At

/-! ## Who becomes the owner -/

variable [LawfulBackend P] {past : List (Transition P)} {m after : Machine P} {index : Nat}
  {id : ThreadId}

/-- The next owner of a mutex entered it when it was free, or was the oldest waiter. -/
theorem Regular.owner_of_goes {move : Move} (hregular : m.Regular past)
    (hgoes : m.Goes move after) (howner : after.shared.owner index = some id)
    (hnew : m.shared.owner index ≠ some id) :
    m.shared.owner index = none ∧ m.shared.mutexLine index = [] ∧ m.executing = id ∨
      m.shared.owner index = some m.executing ∧
        m.shared.mutexLine index = id :: after.shared.mutexLine index := by
  cases hgoes with
  | spin | call | interrupt => exact absurd howner hnew
  | switch hcode hswitched =>
      rw [hswitched.shared] at howner
      exact absurd howner hnew
  | @step step rest pushed _ hstepped =>
      by_cases hown : step.mutex? = some index
      · have hserved := hregular.served hstepped
        obtain ⟨hclaims, -⟩ := hstepped.claims hregular.objects (Step.asksMutex_of_mutex? hown)
        cases hclaims with
        | absent _ hafter _ | again _ hafter _ | barred _ _ hafter _ =>
            rw [hafter] at howner
            exact absurd howner hnew
        | refused _ hsame =>
            rw [Shared.owner, hsame] at howner
            exact absurd howner hnew
        | entered hfree hempty hafter _ =>
            cases hown
            rw [hafter, Function.update_self] at howner
            exact .inl ⟨hfree, hempty, hserved.2 ▸ Option.some.inj howner⟩
        | freed _ _ hafter _ =>
            cases hown
            rw [hafter, Function.update_self] at howner
            cases howner
        | passed hme hold hafter hline =>
            cases hown
            rw [hafter, Function.update_self] at howner
            obtain rfl := Option.some.inj howner
            rw [hline, Function.update_self, hold, ← hserved.2]
            exact .inr ⟨hme, rfl⟩
      · rw [(hstepped.mutex_other hregular.objects hown).1] at howner
        exact absurd howner hnew

omit [Backend P] [LawfulBackend P] in
theorem owner_of_mem_mutexLine (h : m.shared.Sound) (hmem : id ∈ m.shared.mutexLine index) :
    ∃ other, m.shared.owner index = some other ∧ other ≠ id := by
  cases howner : m.shared.owner index with
  | none =>
      rw [h.mutexLine_eq_nil howner] at hmem
      cases hmem
  | some other =>
      refine ⟨other, rfl, ?_⟩
      rintro rfl
      exact h.owner_not_mem howner hmem

/-- A thread that begins to unlock is running. -/
theorem Governed.running_of_unlock (h : m.Governed past)
    (hcode : m.context.code = (Request.unlock index).code) :
    m.kernel.table.state m.executing = .running := by
  have hat := At.of_unlock h.regular.orderly h.regular.objects h.regular.seated hcode
  refine (h.running_of_unguarded (guards_eq_nil hat.cover) ?_).2
  rw [hcode]
  rfl

end Machine

variable [Backend P] [LawfulBackend P]

/--
A mutex is handed over in the order of arrival.  Its queue holds whoever was turned
away in `lock` and does not own it, each thread once and the oldest first; an owner
that unlocks it makes the oldest of them the owner and the running thread before
another thread can execute; and nobody waits in `lock` for a mutex that is free or
its own, but for a thread that is woken in the same masked steps.
-/
theorem Run.fifo_handoff {config : Config} {policy : Policy} {cpu : P} {values : List Int32}
    {mutexes : Nat} {console : Console} {past : List (Transition P)} {m : Machine P}
    (hpolicy : policy.Sound)
    (run : Run (.fresh config policy cpu values mutexes console) past m)
    {index : Nat} (hindex : index < mutexes) :
    ∃ mutex, m.shared.mutexes[index]? = some mutex ∧
      (∀ id, id ∈ mutex.line ↔
        (arrival past index id).isSome = true ∧ mutex.owner ≠ some id) ∧
      (∀ id, id ∈ mutex.line → asked past id = some (.lock index) ∧
        (m.contextOf id).answer = none) ∧
      mutex.line.Nodup ∧ mutex.line.Pairwise (Precedes past index) ∧
      (∀ id, mutex.owner = some id → id ∉ mutex.line) ∧
      (mutex.locked = false → mutex.line = []) ∧
      (∀ heir line, m.context.code = (Request.unlock index).code →
        mutex.owner = some m.executing → mutex.line = heir :: line →
          ∃ count last, m.Alone count last ∧ m.PassedOn index heir line last.exec) ∧
      (∀ move id, m.Allows move → (m.after move).shared.owner index = some id →
        mutex.owner ≠ some id →
          (mutex.owner = none ∧ mutex.line = [] ∧ m.executing = id ∨
            mutex.owner = some m.executing ∧
              mutex.line = id :: (m.after move).shared.mutexLine index)) ∧
      ∀ id, asked past id = some (.lock index) → m.kernel.table.state id = .waiting →
        (id ∈ mutex.line ∧ ∃ other, mutex.owner = some other ∧ other ≠ id) ∨ m.Wakes id := by
  have hgoverned := run.governed hpolicy
  have hwaiters := run.waiters hpolicy
  have hregular := hgoverned.regular
  have hfifo := run.fifo hpolicy index
  have hbound : index < m.shared.mutexes.size := run.custody.size ▸ hindex
  obtain ⟨mutex, hmutex⟩ : ∃ mutex, m.shared.mutexes[index]? = some mutex :=
    ⟨_, Array.getElem?_eq_getElem hbound⟩
  have howner : m.shared.owner index = mutex.owner := by simp [Shared.owner, hmutex]
  have hline : m.shared.mutexLine index = mutex.line := by simp [Shared.mutexLine, hmutex]
  have hsound := hregular.objects.mutexes index mutex hmutex
  rw [howner, hline] at hfifo
  refine ⟨mutex, hmutex, hfifo.mem_iff, ?_, hsound.lines.nodup, hfifo.ordered,
    hsound.owner_not_mem, ?_, ?_, ?_, ?_⟩
  · intro id hmem
    refine ⟨hfifo.locking id ((hfifo.mem_iff id).1 hmem).1, ?_⟩
    have hseeking := hwaiters.queued index id (hline.symm ▸ hmem)
    exact hregular.employed.unanswered id (Code.isOperation_of_seeking hseeking)
  · intro hunlocked
    refine hsound.line_eq_nil ?_
    rw [hsound.locked_eq] at hunlocked
    simpa using hunlocked
  · intro heir line hcode hme hold
    have hat := Machine.At.of_unlock hregular.orderly hregular.objects hregular.seated hcode
    obtain ⟨last, halone, hpassed⟩ := hat.hands_over (howner.trans hme) (hline.trans hold)
      (hgoverned.running_of_unlock hcode)
    exact ⟨20, last, halone, hpassed⟩
  · intro move id hallowed hafter hnew
    rw [← howner, ← hline] at *
    exact hregular.owner_of_goes (m.goes_after hallowed) hafter hnew
  · intro id hasked hwaiting
    obtain ⟨call, hserves, hlisted⟩ := hwaiters.listed_or_wakes hgoverned hasked hwaiting
    obtain rfl := Blocking.eq_ownership hserves
    rw [← howner, ← hline]
    exact hlisted.imp_left fun hmem =>
      ⟨hmem, Machine.owner_of_mem_mutexLine hregular.objects hmem⟩

/-- The idle thread locks a mutex, lets a new thread wait for it, and begins to unlock it. -/
def contention : List Move :=
  locking ++ .exec :: queueing ++ [.call (.unlock 0)]

/-- A mutex passes from the idle thread to the one that waited for it. -/
theorem Run.fifo_handoff_of_contention :
    ∃ (past : List (Transition Host)) (m last : Machine Host),
      Run (.fresh {} .roundRobin {} [] 1 { sinks := [], installed := none }) past m ∧
        m.executing = ThreadId.idle ∧ m.shared.owner 0 = some ThreadId.idle ∧
          m.shared.mutexLine 0 = [0] ∧ m.PassedOn 0 0 [] last := by
  let start : Machine Host := .fresh {} .roundRobin {} [] 1 { sinks := [], installed := none }
  let m := contention.foldl Machine.after start
  have run : Run start (start.transitions contention) m := .of_plays (by decide +kernel)
  have hme : m.executing = ThreadId.idle := by decide +kernel
  have howner : m.shared.owner 0 = some ThreadId.idle := by decide +kernel
  have hline : m.shared.mutexLine 0 = [0] := by decide +kernel
  obtain ⟨mutex, hmutex, -, -, -, -, -, -, hpasses, -⟩ :=
    Run.fifo_handoff Policy.sound_roundRobin run (show 0 < 1 by decide)
  have hmutexOwner : mutex.owner = some m.executing := by
    rw [hme, ← howner, Shared.owner, hmutex]
    rfl
  have hmutexLine : mutex.line = [0] := by
    rw [← hline, Shared.mutexLine, hmutex]
    rfl
  obtain ⟨count, last, -, hpassed⟩ := hpasses 0 [] (by decide +kernel) hmutexOwner hmutexLine
  exact ⟨_, m, last.exec, run, hme, howner, hline, hpassed⟩

end TickKernel
