import TickKernel.Proofs.Service

/-!
# Threads in the middle of a tick

A tick may go on to another thread, and comes back to the interrupted one after any number of
other interrupts.  Each thread has its ticks accounted for by itself: it counts every tick that
it was interrupted for or asked for once, and has at most one interrupt to return from.
-/

namespace TickKernel

variable {P : Type}

/-! ## Ticks that a thread has before it -/

/-- How often a move puts a step before the executing thread. -/
def Move.begins (step : Step) : Move → Nat
  | .exec => 0
  | .call request => request.code.count step
  | .interrupt => interruptCode.count step

def Step.isGiven : Step → Bool
  | .countTick | .resume => true
  | _ => false

theorem Kernel.Expands.isGiven_eq_false {kernel : Kernel P} {step : Step} {pushed : List Step}
    (h : kernel.Expands step pushed) : ∀ other ∈ pushed, other.isGiven = false := by
  intro other hmem
  have hleads := h.leadsTo hmem
  cases other
  case countTick | resume => cases hleads
  all_goals rfl

theorem Request.count_countTick (request : Request) :
    request.code.count .countTick = if request = .tick then 1 else 0 := by
  cases request
  case sleep ticks =>
      simp only [Request.code]
      split <;> simp
  all_goals simp [Request.code]

theorem count_launchCode {step : Step} (h : step.isGiven = true) (call : Option EntryCall) :
    ((call.map launchCode).getD []).count step = 0 := by
  refine List.count_eq_zero.2 fun hmem => ?_
  cases call with
  | none => cases hmem
  | some call =>
      simp only [Option.map_some, Option.getD_some, launchCode, List.mem_cons, List.not_mem_nil,
        or_false] at hmem
      rcases hmem with rfl | rfl <;> cases h

namespace Machine

variable [Backend P] {past : List (Transition P)} {m after : Machine P} {move : Move}

theorem Stepped.count_code {done step : Step} {rest pushed : List Step}
    (hstepped : m.Stepped done rest pushed after) (hgiven : step.isGiven = true) :
    m.context.code.count step = after.context.code.count step + if done = step then 1 else 0 := by
  have hpushed : pushed.count step = 0 := List.count_eq_zero.2 fun hmem =>
    Bool.noConfusion (hgiven.symm.trans (hstepped.expands.isGiven_eq_false step hmem))
  rw [hstepped.code, hstepped.code_after, List.count_append, hpushed, List.count_cons]
  simp

/-- A step is done as often as it was put before a thread, or it is still there. -/
theorem count_of_goes [LawfulBackend P] (hseated : m.Seated) (hemployed : m.Employed past)
    (hgoes : m.Goes move after) {step : Step} (hgiven : step.isGiven = true) (id : ThreadId) :
    (m.contextOf id).code.count step + (if m.executing = id then move.begins step else 0) =
      (after.contextOf id).code.count step +
        if m.executing = id ∧ Transition.step? ⟨m, move⟩ = some step then 1 else 0 := by
  have hstill (h : Transition.step? ⟨m, move⟩ ≠ some step) :
      (if m.executing = id ∧ Transition.step? ⟨m, move⟩ = some step then 1 else 0) = 0 :=
    if_neg fun hdone => h hdone.2
  cases hgoes with
  | spin hnone => simp [Move.begins, hnone]
  | @step done rest pushed _ hstepped =>
      rw [hstepped.step?_eq]
      by_cases hid : m.executing = id
      · subst hid
        rw [contextOf_executing hstepped.effect.executing, contextOf_executing rfl,
          hstepped.count_code hgiven]
        simp [Move.begins]
      · simp [hid, hstepped.effect.others id (Ne.symm hid)]
  | @switch next prev rest _ hcode hswitched =>
      have hswitch : Step.switch next prev ≠ step := by
        rintro rfl
        cases hgiven
      rw [hstill (by simpa [step?_of_switch hcode] using hswitch)]
      rcases hemployed.contextOf_switched hseated hcode hswitched id with
        ⟨rfl, hafter⟩ | ⟨-, hafter | ⟨-, hnone, call, hafter⟩⟩
      · rw [hafter, contextOf_executing rfl, hcode, List.count_cons_of_ne hswitch]
        simp [Move.begins]
      · simp [Move.begins, hafter]
      · simp [Move.begins, hafter, hnone, count_launchCode hgiven]
  | call request hcode =>
      rw [hstill nofun]
      by_cases hid : m.executing = id
      · subst hid
        rw [contextOf_executing (executing_call m request), contextOf_executing rfl, hcode,
          context_call]
        simp [Move.begins]
      · simp [hid, contextOf_call_of_ne m request (Ne.symm hid)]
  | interrupt henabled =>
      rw [hstill nofun]
      by_cases hid : m.executing = id
      · subst hid
        rw [contextOf_executing (executing_interrupt m), contextOf_executing rfl,
          context_interrupt]
        simp [Move.begins, Nat.add_comm]
      · simp [hid, contextOf_interrupt_of_ne m (Ne.symm hid)]

end Machine

/-! ## What became of the ticks -/

namespace Occurrence

/-- Whether an entry ticks a kernel while one of its threads executes. -/
def ticks (index : Nat) (id : ThreadId) : Occurrence → Bool
  | .entry before =>
      decide (before.hardware.raised = Board.timerInterrupt)
        && before.ticked?.any fun ticked => decide (ticked.1 = index ∧ ticked.2.executing = id)
  | .move .. | .devices => false

def asks (index : Nat) (id : ThreadId) : Occurrence → Bool
  | .move place t =>
      decide (place = index ∧ t.before.executing = id ∧ t.move = .call .tick)
  | .devices | .entry _ => false

def does (step : Step) (index : Nat) (id : ThreadId) : Occurrence → Bool
  | .move place t =>
      decide (place = index ∧ t.before.executing = id ∧ t.step? = some step)
  | .devices | .entry _ => false

end Occurrence

/--
The ticks that a thread was interrupted for or asked for, against those that it counted and has
still to count.  It has an interrupt to return from for each that it did not return from, which
is one at most.
-/
structure Accounted (past : List Occurrence) (index : Nat) (id : ThreadId) (code : List Step) :
    Prop where
  counted : past.countP (Occurrence.ticks index id) + past.countP (Occurrence.asks index id) =
    past.countP (Occurrence.does .countTick index id) + code.count .countTick
  returned : past.countP (Occurrence.ticks index id) =
    past.countP (Occurrence.does .resume index id) + code.count .resume
  once : code.count .resume ≤ 1

namespace Accounted

variable {past : List Occurrence} {index : Nat} {id : ThreadId} {code after : List Step}
  {occurrence : Occurrence}

theorem nil (index : Nat) (id : ThreadId) : Accounted [] index id [] :=
  ⟨rfl, rfl, Nat.zero_le 1⟩

theorem snoc (h : Accounted past index id code)
    (hcounted : code.count .countTick + (occurrence.ticks index id).toNat +
        (occurrence.asks index id).toNat =
      after.count .countTick + (occurrence.does .countTick index id).toNat)
    (hreturned : code.count .resume + (occurrence.ticks index id).toNat =
      after.count .resume + (occurrence.does .resume index id).toNat)
    (honce : after.count .resume ≤ 1) :
    Accounted (past ++ [occurrence]) index id after := by
  have hlast (event : Occurrence → Bool) :
      (past ++ [occurrence]).countP event = past.countP event + (event occurrence).toNat := by
    cases hevent : event occurrence <;> simp [hevent]
  obtain ⟨hbefore, hback, -⟩ := h
  refine ⟨?_, ?_, honce⟩
  · rw [hlast, hlast, hlast]
    omega
  · rw [hlast, hlast]
    omega

theorem still (h : Accounted past index id code) (hticks : occurrence.ticks index id = false)
    (hasks : occurrence.asks index id = false)
    (hdoes : ∀ step, occurrence.does step index id = false) :
    Accounted (past ++ [occurrence]) index id code := by
  refine h.snoc ?_ ?_ h.once <;> simp [hticks, hasks, hdoes]

variable {m : Machine Board}

theorem advance {earlier : List (Transition Board)} {move : Move}
    (h : Accounted past index id (m.contextOf id).code) (hregular : m.secluded.Regular earlier)
    (allowed : m.Allows move) (hmove : move ≠ .interrupt) :
    Accounted (past ++ [.move index ⟨m, move⟩]) index id ((m.after move).contextOf id).code := by
  have hseated : m.Seated := ⟨hregular.seated.home, hregular.seated.away⟩
  have hemployed : m.Employed earlier :=
    ⟨hregular.employed.serves, hregular.employed.unanswered, hregular.employed.kept⟩
  have hcount {step : Step} (hgiven : step.isGiven = true) :=
    m.count_of_goes hseated hemployed (m.goes_after allowed) hgiven id
  have hcounted := @hcount .countTick rfl
  have hreturned := @hcount .resume rfl
  have htick : move.begins .countTick = if move = .call .tick then 1 else 0 := by
    cases move with
    | exec => rfl
    | call request => simp [Move.begins, request.count_countTick]
    | interrupt => exact absurd rfl hmove
  have hresume : move.begins .resume = 0 := by
    cases move with
    | exec => rfl
    | call request => exact List.count_eq_zero.2 request.resume_not_mem
    | interrupt => exact absurd rfl hmove
  have hticks : (Occurrence.move index ⟨m, move⟩).ticks index id = false := rfl
  have hasks : ((Occurrence.move index ⟨m, move⟩).asks index id).toNat =
      if m.executing = id then if move = .call .tick then 1 else 0 else 0 := by
    by_cases hid : m.executing = id <;> by_cases hask : move = .call .tick <;>
      simp [Occurrence.asks, hid, hask]
  have hdoes (step : Step) : ((Occurrence.move index ⟨m, move⟩).does step index id).toNat =
      if m.executing = id ∧ Transition.step? ⟨m, move⟩ = some step then 1 else 0 := by
    by_cases hid : m.executing = id <;>
      by_cases hstep : Transition.step? ⟨m, move⟩ = some step <;>
        simp [Occurrence.does, hid, hstep]
  rw [htick] at hcounted
  rw [hresume, ite_self, Nat.add_zero] at hreturned
  refine h.snoc ?_ ?_ ?_
  · rw [hticks, hasks, hdoes, ← hcounted]
    rfl
  · rw [hticks, hdoes, ← hreturned]
    rfl
  · have honce := h.once
    omega

theorem interrupt {before : Process Board} {earlier : List (Transition Board)}
    (h : Accounted past index id (m.contextOf id).code) (hregular : m.secluded.Regular earlier)
    (htimer : before.hardware.raised = Board.timerInterrupt)
    (hticked : before.ticked? = some (index, m)) (henabled : m.interruptsEnabled = true) :
    Accounted (past ++ [.entry before]) index id (m.interrupt.contextOf id).code := by
  have hticks : (Occurrence.entry before).ticks index id = decide (m.executing = id) := by
    simp [Occurrence.ticks, htimer, hticked]
  have hasks : (Occurrence.entry before).asks index id = false := rfl
  have hdoes (step : Step) : (Occurrence.entry before).does step index id = false := rfl
  by_cases hid : m.executing = id
  · subst hid
    -- whoever is still serving an interrupt takes no other one
    have hout : m.context.code.count .resume = 0 := by
      refine List.count_eq_zero.2 fun hmem => ?_
      have hclosed := (hregular.orderly.nested m.executing).serving hmem
      exact Bool.noConfusion (henabled.symm.trans hclosed.masked)
    have hinterrupt : interruptCode.count .countTick = 1 ∧ interruptCode.count .resume = 1 := by
      decide
    have hown : (m.contextOf m.executing).code = m.context.code := rfl
    rw [decide_eq_true rfl] at hticks
    rw [Machine.contextOf_executing (Machine.executing_interrupt m), Machine.context_interrupt]
    refine h.snoc ?_ ?_ ?_
    · rw [hticks, hasks, hdoes, List.count_append, hinterrupt.1, hown]
      exact Nat.add_comm _ 1
    · rw [hticks, hdoes, List.count_append, hinterrupt.2, hown]
      exact Nat.add_comm _ 1
    · rw [List.count_append, hinterrupt.2, hout]
  · rw [Machine.contextOf_interrupt_of_ne m (Ne.symm hid)]
    exact h.still (by rw [hticks, decide_eq_false hid]) hasks hdoes

end Accounted

namespace Process.ServedRun

variable {kernels : List (Kernel Board)} {values : List Int32} {mutexes : Nat}
  {console : Console} {hardware : Board} {process : Process Board} {past : List Occurrence}

/-- The ticks of every thread are accounted for, in whatever order its threads come back. -/
theorem accounted
    (hnew : ∀ kernel ∈ kernels, ∃ number config policy cpu,
      kernel = .new number config policy cpu)
    (run : ServedRun (.boot kernels (.new values mutexes console) hardware) past process)
    {index : Nat} {m : Machine Board} (hm : process.machine? index = some m) (id : ThreadId) :
    Accounted past index id (m.contextOf id).code := by
  induction run generalizing m with
  | nil =>
      rw [contextOf_machine?_boot hm id]
      exact .nil index id
  | @move past process place own move run hown allowed hmove ih =>
      obtain ⟨earlier, hregular⟩ := (run.ordered hnew).apart place own hown
      rcases machine?_update hm with ⟨rfl, rfl⟩ | ⟨hother, stored, hstored, rfl⟩
      · exact (ih hown).advance hregular allowed hmove
      · have hmine : process.machine? index =
            some ((stored.withShared process.shared).withHardware process.hardware) := by
          rw [machine?, hstored, Option.map_some]
        refine (ih hmine).still rfl ?_ fun step => ?_
        · simp [Occurrence.asks, Ne.symm hother]
        · simp [Occurrence.does, Ne.symm hother]
  | devices words run ih =>
      rw [machine?_withBoard, Option.map_eq_some_iff] at hm
      obtain ⟨mine, hmine, rfl⟩ := hm
      exact (ih hmine).still rfl rfl fun _ => rfl
  | @entry past process run htaken ih =>
      obtain ⟨mine, hmine, hcontexts⟩ := contexts_serve hm
      have hsame {other : Machine Board} (h : m.contexts = other.contexts) :
          m.contextOf id = other.contextOf id := congrArg (Vector.get · id) h
      rcases hcontexts with ⟨htimer, hticked, hcontexts⟩ | ⟨hunticked, hcontexts⟩
      · obtain ⟨earlier, hregular⟩ := (run.ordered hnew).apart index mine hmine
        rw [hsame hcontexts]
        exact (ih hmine).interrupt hregular htimer hticked (htaken htimer index mine hticked)
      · rw [hsame hcontexts]
        refine (ih hmine).still ?_ rfl fun _ => rfl
        rw [Occurrence.ticks, Bool.and_eq_false_iff]
        by_cases htimer : process.hardware.raised = Board.timerInterrupt
        · right
          cases hticked : process.ticked? with
          | none => rfl
          | some ticked => simp [hunticked htimer ticked hticked]
        · exact .inl (decide_eq_false htimer)

/--
Interrupts of a board with kernels on it.  Whatever the devices answer with and whoever is
interrupted, every interrupt that is acknowledged is completed once, before the next one is
acknowledged, and when nothing was raised nothing is completed.  An entry does so at once: a timer
interrupt programs the next tick by the interval in force, is completed, and only then ticks the
kernel that was started first.  No other entry does either, and nobody makes a move with an
interrupt unfinished.  Every thread counts each tick once, and has at most one interrupt to return
from, in whatever order the threads come back.
-/
theorem interrupts_completed
    (hnew : ∀ kernel ∈ kernels, ∃ number config policy cpu,
      kernel = .new number config policy cpu)
    (run : ServedRun (.boot kernels (.new values mutexes console) hardware) past process) :
    process.hardware.exchanges =
        hardware.exchanges ++ (past.filterMap Occurrence.raised?).flatMap Exchange.ofEntry ∧
      process.hardware.unfinished = hardware.unfinished ∧
      (∀ index t, .move index t ∈ past →
        t.before.kernel.cpu.unfinished = hardware.unfinished) ∧
      (∀ before : Process Board, .entry before ∈ past →
        before.serve.hardware.trace = before.hardware.trace ++ before.hardware.service ∧
          ∀ index m, before.ticked? = some (index, m) →
            before.serve.machine? index = some (Board.deliver m)) ∧
      ∀ index m id, process.machine? index = some m →
        Accounted past index id (m.contextOf id).code :=
  ⟨run.exchanges_eq, run.unfinished_eq, fun _ _ => run.unfinished_of_mem,
    fun before _ => ⟨before.served.trace, fun _ _ => machine?_serve⟩,
    fun _ _ id hm => run.accounted hnew hm id⟩

end Process.ServedRun

/-! ## Given occurrences -/

/-- What is to happen next. -/
inductive Cue where
  | move (index : Nat) (move : Move)
  /-- The devices raise an interrupt, and it is entered. -/
  | raise (word : UInt32)

namespace Process

/-- The process once its devices answer an acknowledgement with this word. -/
def raising (process : Process Board) (word : UInt32) : Process Board :=
  process.withBoard
    (process.hardware.poke (process.hardware.interfaceAddress .acknowledge) word)

/-- What happens on some cues, and the process after them, if each is possible in its turn. -/
def follow? (process : Process Board) : List Cue → Option (List Occurrence × Process Board)
  | [] => some ([], process)
  | .move index move :: cues =>
      match process.machine? index with
      | none => none
      | some m =>
          if m.Allows move ∧ move ≠ .interrupt then
            ((process.update index (m.after move)).follow? cues).map fun later =>
              (.move index ⟨m, move⟩ :: later.1, later.2)
          else none
  | .raise word :: cues =>
      if (process.raising word).Enterable then
        ((process.raising word).serve.follow? cues).map fun later =>
          (.devices :: .entry (process.raising word) :: later.1, later.2)
      else none

namespace ServedRun

variable {start middle process : Process Board} {past later : List Occurrence}

theorem trans (run : ServedRun start past middle) (hlater : ServedRun middle later process) :
    ServedRun start (past ++ later) process := by
  induction hlater with
  | nil => rwa [List.append_nil]
  | move move _ hm allowed hmove ih =>
      rw [← List.append_assoc]
      exact ih.move move hm allowed hmove
  | devices words _ ih =>
      rw [← List.append_assoc]
      exact ih.devices words
  | entry _ htaken ih =>
      rw [← List.append_assoc]
      exact ih.entry htaken

theorem of_follow? {cues : List Cue} (h : start.follow? cues = some (past, process)) :
    ServedRun start past process := by
  induction cues generalizing start past with
  | nil =>
      cases h
      exact .nil
  | cons cue cues ih =>
      cases cue with
      | move index move =>
          unfold follow? at h
          cases hm : start.machine? index with
          | none => simp [hm] at h
          | some m =>
              rw [hm] at h
              simp only at h
              split at h
              next allowed =>
                  obtain ⟨⟨rest, last⟩, hrest, heq⟩ := Option.map_eq_some_iff.1 h
                  cases heq
                  exact (ServedRun.nil.move move hm allowed.1 allowed.2).trans (ih hrest)
              next => cases h
      | raise word =>
          unfold follow? at h
          split at h
          next htaken =>
              obtain ⟨⟨rest, last⟩, hrest, heq⟩ := Option.map_eq_some_iff.1 h
              cases heq
              have hraised : ServedRun start [.devices] (start.raising word) := .devices _ .nil
              exact (hraised.entry htaken).trans (ih hrest)
          next => cases h

def quiet : Process Board :=
  .boot [.new 1 {} .roundRobin CoreRun.bench] (.new [] 0 { sinks := [], installed := none })
    CoreRun.bench

/--
Two threads are created and the kernel is started.  A tick interrupts the first thread and goes
on to the second one, which is interrupted for another device, for nothing at all, and for a
tick that goes back to the first one.
-/
def overlap : List Cue :=
  .move 0 (.call (.create "first" ⟨0x3000, 7⟩ 4096 (some 0x10000))) :: steps 20
    ++ .move 0 (.call (.create "second" ⟨0x3000, 9⟩ 4096 (some 0x20000))) :: steps 20
    ++ .move 0 (.call .start) :: steps 31
    ++ .raise 30 :: steps 17 ++ .raise 0xC1B :: .raise 1023 :: .raise 30 :: steps 18
where
  steps (count : Nat) : List Cue := List.replicate count (.move 0 .exec)

theorem exists_overlap :
    ∃ (past : List Occurrence) (process : Process Board),
      ServedRun quiet past process ∧ past.filterMap Occurrence.raised? = [30, 27, 1023, 30] ∧
        past.countP (Occurrence.ticks 0 0) = 1 ∧ past.countP (Occurrence.does .resume 0 0) = 1 ∧
        past.countP (Occurrence.ticks 0 1) = 1 ∧ past.countP (Occurrence.does .resume 0 1) = 0 ∧
        (process.machine? 0).isSome = true := by
  have hfollowed : (quiet.follow? overlap).any (fun later =>
      decide (later.1.filterMap Occurrence.raised? = [30, 27, 1023, 30] ∧
        later.1.countP (Occurrence.ticks 0 0) = 1 ∧
        later.1.countP (Occurrence.does .resume 0 0) = 1 ∧
        later.1.countP (Occurrence.ticks 0 1) = 1 ∧
        later.1.countP (Occurrence.does .resume 0 1) = 0 ∧
        (later.2.machine? 0).isSome = true)) = true := by
    decide +kernel
  obtain ⟨⟨past, process⟩, hrun, hfacts⟩ := (Option.any_eq_true _ _).1 hfollowed
  exact ⟨past, process, .of_follow? hrun, of_decide_eq_true hfacts⟩

/-- The first thread is back from its interrupt before the second one, and all is completed. -/
theorem interrupts_completed_of_overlap :
    ∃ (past : List Occurrence) (process : Process Board) (m : Machine Board),
      ServedRun quiet past process ∧ process.machine? 0 = some m ∧
        (m.contextOf 0).code.count .resume = 0 ∧ (m.contextOf 1).code.count .resume = 1 ∧
          process.hardware.exchanges =
            [.acknowledged 30, .completed 30, .acknowledged 27, .completed 27,
              .acknowledged 1023, .acknowledged 30, .completed 30] ∧
            process.hardware.unfinished = [] := by
  obtain ⟨past, process, run, hraised, hfirst, hback, hsecond, haway, hm⟩ := exists_overlap
  obtain ⟨m, hm⟩ := Option.isSome_iff_exists.1 hm
  have hnew : ∀ kernel ∈ [Kernel.new 1 {} .roundRobin CoreRun.bench],
      ∃ number config policy cpu, kernel = .new number config policy cpu := by
    intro kernel hmem
    exact ⟨_, _, _, _, List.mem_singleton.1 hmem⟩
  obtain ⟨hexchanges, hunfinished, -, -, haccounted⟩ := interrupts_completed hnew run
  have hzero := (haccounted 0 m 0 hm).returned
  have hone := (haccounted 0 m 1 hm).returned
  rw [hraised] at hexchanges
  refine ⟨past, process, m, run, hm, ?_, ?_, hexchanges, hunfinished⟩
  · omega
  · omega

end ServedRun

end Process

end TickKernel
