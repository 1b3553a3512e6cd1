import Mathlib.Data.List.Perm.Basic
import TickKernel.Host.Gates
import TickKernel.Proofs.Calls
import TickKernel.Proofs.Gates

/-!
# Threads start once

A host makes a gate for every slot that takes part in a switch, and the slots that have
one are those that were switched to or away from.  A thread without a gate is launched
from its first frame, any other goes on where it was switched away from; so a thread
calls its entry routine once, with the argument that it was created with.
-/

namespace TickKernel

/-! ## Gates and switches -/

namespace Host.Gates

variable (gates : Gates) (next prev : ThreadId)

theorem slots_switch :
    (gates.switch next prev).2.slots = ((gates.ensure prev).ensure next).slots := by
  rw [switch_eq, slots_setOpen, slots_setOpen]

theorem nodup_switch {gates : Gates} (h : gates.slots.Nodup) :
    (gates.switch next prev).2.slots.Nodup := by
  rw [slots_switch]
  exact nodup_ensure (nodup_ensure h prev) next

theorem length_eq_countP {gates : Gates} (h : gates.slots.Nodup) :
    gates.length = ThreadId.all.countP gates.has := by
  have hall : ThreadId.all.Nodup := List.nodup_finRange maxThreads
  have hslots : gates.slots.Perm (ThreadId.all.filter gates.has) := by
    rw [List.perm_ext_iff_of_nodup h (hall.filter _)]
    intro id
    rw [List.mem_filter, gates.has_iff]
    exact ⟨fun hmem => ⟨ThreadId.mem_all id, hmem⟩, fun hmem => hmem.2⟩
  rw [List.countP_eq_length_filter, ← hslots.length_eq, slots, List.length_map]

end Host.Gates

namespace Machine

variable {past : List (Transition Host)} {m after : Machine Host} {move : Move}

theorem Goes.gates_eq (hgoes : m.Goes move after)
    (hno : ∀ next prev, Transition.step? ⟨m, move⟩ ≠ some (.switch next prev)) :
    after.kernel.cpu.gates = m.kernel.cpu.gates := by
  cases hgoes with
  | spin | call | interrupt => rfl
  | switch hcode => exact absurd (step?_of_switch hcode) (hno _ _)
  | step hstepped =>
      rcases hstepped.effect.cpu with hcpu | ⟨period, hcpu⟩
      · rw [hcpu]
      · rw [hcpu]
        simp only [Backend.startTimer]
        split <;> rfl

/-- The slots that have a gate are those that took part in a switch. -/
structure Gated (past : List (Transition Host)) (m : Machine Host) : Prop where
  nodup : m.kernel.cpu.gates.slots.Nodup
  has_iff : ∀ id, m.kernel.cpu.gates.has id = true ↔ TookPart past id
  idle : ∀ id, TookPart past id → TookPart past ThreadId.idle

namespace Gated

theorem fresh (config : Config) (policy : Policy) (values : List Int32) (mutexes : Nat)
    (console : Console) : (fresh config policy {} values mutexes console).Gated [] := by
  have hnone : ∀ id, ¬ TookPart ([] : List (Transition Host)) id := by
    rintro id ⟨t, hmem, -⟩
    cases hmem
  refine ⟨List.nodup_nil, fun id => ?_, fun id h => absurd h (hnone id)⟩
  constructor
  · intro h
    cases h
  · exact fun h => absurd h (hnone id)

theorem still (h : m.Gated past)
    (hno : ∀ next prev, Transition.step? ⟨m, move⟩ ≠ some (.switch next prev))
    (hgoes : m.Goes move after) : after.Gated (past ++ [⟨m, move⟩]) := by
  have hgates := hgoes.gates_eq hno
  have hsame : ∀ id, TookPart (past ++ [⟨m, move⟩]) id ↔ TookPart past id := by
    intro id
    have hnot : ¬ Transition.Suspends ⟨m, move⟩ id ∧ ¬ Transition.Resumes ⟨m, move⟩ id :=
      not_suspends_resumes hno
    simp [tookPart_append, hnot]
  exact
    { nodup := hgates ▸ h.nodup
      has_iff := fun id => by rw [hgates, hsame, h.has_iff]
      idle := fun id hid => (hsame _).2 (h.idle id ((hsame id).1 hid)) }

theorem switch {next prev : ThreadId} {rest : List Step} (h : m.Gated past)
    (hpartaken : m.Partaken past) (hseated : m.Seated)
    (hcode : m.context.code = .switch next prev :: rest)
    (hswitched : (m.setCode rest).Switched next prev after) :
    after.Gated (past ++ [⟨m, .exec⟩]) := by
  have hstep := step?_of_switch hcode
  obtain ⟨-, rfl, -⟩ := hseated.switch_eq hcode
  have hgates : after.kernel.cpu.gates = (m.kernel.cpu.gates.switch next m.executing).2 := by
    rw [hswitched.kernel]
    rfl
  have htook : ∀ id, TookPart (past ++ [⟨m, .exec⟩]) id ↔
      TookPart past id ∨ m.executing = id ∨ next = id :=
    fun _ => tookPart_append_switch hstep
  constructor
  · rw [hgates]
    exact Host.Gates.nodup_switch next m.executing h.nodup
  · intro id
    rw [hgates, Host.Gates.has_switch, htook, ← h.has_iff]
    simp [or_assoc]
  · intro id _
    rw [htook]
    -- the first switch of all is one away from the idle thread
    rcases hpartaken.executing with hidle | ⟨t, hmem, hresumes⟩
    · exact .inr (.inl hidle)
    · exact .inl (h.idle m.executing ⟨t, hmem, .inr hresumes⟩)

theorem goes (h : m.Gated past) (hpartaken : m.Partaken past) (hseated : m.Seated)
    (hgoes : m.Goes move after) : after.Gated (past ++ [⟨m, move⟩]) := by
  by_cases hswitch : ∃ next prev, Transition.step? ⟨m, move⟩ = some (.switch next prev)
  · obtain ⟨next, prev, hstep⟩ := hswitch
    obtain ⟨rest, rfl, hcode, hswitched⟩ := hgoes.switched_of_step? hstep
    exact h.switch hpartaken hseated hcode hswitched
  · exact h.still (fun next prev hstep => hswitch ⟨next, prev, hstep⟩) hgoes

end Gated

end Machine

theorem ThreadId.perm_all : ThreadId.all.Perm
    (ThreadId.idle :: ThreadId.all.filter fun id => id != ThreadId.idle) := by
  decide

def Transition.switchesTo (t : Transition Host) (id : ThreadId) : Bool :=
  match t.step? with
  | some (.switch next _) => next == id
  | _ => false

theorem Transition.switchesTo_iff {t : Transition Host} {id : ThreadId} :
    t.switchesTo id = true ↔ t.Resumes id := by
  unfold switchesTo Resumes
  split
  next next prev hstep => simp [hstep]
  next hno =>
    constructor
    · intro h
      cases h
    · rintro ⟨prev, hstep⟩
      exact absurd hstep (hno id prev)

def launched (past : List (Transition Host)) : List ThreadId :=
  (ThreadId.all.filter fun id => id != ThreadId.idle).filter fun id =>
    past.any (·.switchesTo id)

theorem mem_launched {past : List (Transition Host)} {id : ThreadId} :
    id ∈ launched past ↔ id ≠ ThreadId.idle ∧ ∃ t ∈ past, t.Resumes id := by
  simp [launched, ThreadId.mem_all, Transition.switchesTo_iff, and_comm]

section

variable {config : Config} {policy : Policy} {values : List Int32} {mutexes : Nat}
  {console : Console} {past : List (Transition Host)} {m : Machine Host} {id : ThreadId}

theorem Run.gated (run : Run (.fresh config policy {} values mutexes console) past m) :
    m.Gated past := by
  refine run.invariant (fun past m => m.Gated past) ?_ ?_
  · exact .fresh config policy values mutexes console
  · exact fun _ _ _ run h hgoes => h.goes (run.partaken Host.blank) run.regular.seated hgoes

/-- Between two switches the created threads that were switched to are those dispatched. -/
theorem Run.resumed_iff (hpolicy : policy.Sound)
    (run : Run (.fresh config policy {} values mutexes console) past m)
    (hsettled : m.executing = m.kernel.table.current) (hid : id ≠ ThreadId.idle) :
    (∃ t ∈ past, t.Resumes id) ↔ ∃ t ∈ past, t.target? = some id := by
  constructor
  · rintro ⟨u, hmem, prev, hstep⟩
    obtain ⟨before, later, rfl⟩ := List.append_of_mem hmem
    obtain ⟨hbefore, -⟩ := run.before
    obtain ⟨earlier, t, between, rfl, htarget, -⟩ :=
      hbefore.dispatch_before_switch (Machine.nextStep?_of_step? hstep)
    exact ⟨t, by simp, htarget⟩
  · rintro ⟨t, hmem, htarget⟩
    have hpartaken := run.partaken Host.blank
    have hberthed := run.berthed hpolicy
    by_cases hexecuting : id = m.executing
    · subst hexecuting
      exact hpartaken.executing.resolve_left hid
    · rcases hberthed.aside id (hberthed.known t hmem id (.inl htarget)) hexecuting with
        hsuspended | hunstarted
      · obtain ⟨before, u, later, rfl, hsuspends, -⟩ := hsuspended
        exact (hpartaken.origin id ⟨u, by simp, .inl hsuspends⟩).resolve_left hid
      · exact absurd htarget (hunstarted.undispatched (hsettled ▸ hexecuting) t hmem)

theorem Run.carriers_eq_zero (run : Run (.fresh config policy {} values mutexes console) past m)
    (hnone : ∀ t ∈ past, ∀ next prev, t.step? ≠ some (.switch next prev)) :
    m.kernel.cpu.carriers = 0 := by
  have hgated := run.gated
  rw [Host.carriers, Host.Gates.length_eq_countP hgated.nodup, List.countP_eq_zero]
  intro id _ hhas
  obtain ⟨t, hmem, htook⟩ := (hgated.has_iff id).1 hhas
  obtain ⟨hsuspends, hresumes⟩ : ¬ t.Suspends id ∧ ¬ t.Resumes id :=
    not_suspends_resumes (hnone t hmem)
  exact htook.elim hsuspends hresumes

/-- From then on there is one of the idle thread, and one of every thread switched to so far. -/
theorem Run.carriers_eq (run : Run (.fresh config policy {} values mutexes console) past m)
    {t : Transition Host} {next prev : ThreadId} (hmem : t ∈ past)
    (hswitch : t.step? = some (.switch next prev)) :
    m.kernel.cpu.carriers = 1 + (launched past).length := by
  have hgated := run.gated
  have hpartaken := run.partaken Host.blank
  have hidle : m.kernel.cpu.gates.has ThreadId.idle = true :=
    (hgated.has_iff _).2 (hgated.idle next ⟨t, hmem, .inr ⟨prev, hswitch⟩⟩)
  have hcreated : ∀ id ∈ ThreadId.all.filter fun id => id != ThreadId.idle,
      m.kernel.cpu.gates.has id = true ↔ past.any (·.switchesTo id) = true := by
    intro id hmem
    have hid : id ≠ ThreadId.idle := by simpa using (List.mem_filter.1 hmem).2
    rw [hgated.has_iff]
    simp only [List.any_eq_true, Transition.switchesTo_iff]
    constructor
    · exact fun htook => (hpartaken.origin id htook).resolve_left hid
    · exact fun ⟨u, humem, hresumes⟩ => ⟨u, humem, .inr hresumes⟩
  rw [Host.carriers, Host.Gates.length_eq_countP hgated.nodup, ThreadId.perm_all.countP_eq,
    List.countP_cons_of_pos hidle, List.countP_congr hcreated, List.countP_eq_length_filter,
    Nat.add_comm]
  rfl

end

/-! ## The whole of it -/

/-- What becomes of the one call for which a thread was created. -/
structure StartsOnce (past : List (Transition Host)) (m : Machine Host) (id : ThreadId)
    (creation : Creation) : Prop where
  /-- It is the only call that the thread makes, with interrupts enabled. -/
  own : ∀ t ∈ past, ∀ call, t.entered? id = some call →
    call = creation.call ∧ t.before.interruptsEnabled = true
  /-- The thread has not made it before it was switched to. -/
  notBefore : (∀ t ∈ past, ¬ t.Resumes id) → m.callsOf past id = []
  /-- From then on the thread has made it once, or has it among its remaining steps once. -/
  once : (∃ t ∈ past, t.Resumes id) → m.callsOf past id = [creation.call]
  /-- The first dispatch leads to it. -/
  dispatched : ∀ before t later, past = before ++ t :: later → t.target? = some id →
    (∀ u ∈ before, u.target? ≠ some id) → t.before.Launches id creation.call
  /-- The first switch to the thread starts it with this call. -/
  launched : ∀ before t later, past = before ++ t :: later → t.Resumes id →
    (∀ u ∈ before, ¬ u.Resumes id) → t.after.contextOf id = { code := launchCode creation.call }
  /-- Every later one goes on where the thread was last switched away from. -/
  resumed : ∀ before t later, past = before ++ t :: later → t.Resumes id →
    (∃ u ∈ before, u.Resumes id) →
      ∃ earlier u between, before = earlier ++ u :: between ∧ u.Suspends id ∧
        (∀ v ∈ between, ¬ v.Resumes id) ∧ t.after.contextOf id = u.leaves id

section

variable {config : Config} {policy : Policy} {values : List Int32} {mutexes : Nat}
  {console : Console} {past : List (Transition Host)} {m : Machine Host} {id : ThreadId}
  {creation : Creation} {t : Transition Host}

theorem Run.switching_of_resumes (hpolicy : policy.Sound) {before later : List (Transition Host)}
    (run : Run (.fresh config policy {} values mutexes console) (before ++ t :: later) m)
    (hallocated : Allocated (before ++ t :: later)) (hresumes : t.Resumes id) :
    Switching before t.before id ∧ t.after = t.before.exec := by
  obtain ⟨prev, hstep⟩ := hresumes
  have hnext := Machine.nextStep?_of_step? hstep
  refine ⟨run.before.1.switching hpolicy Host.blank hallocated.of_append hnext, ?_⟩
  unfold Transition.step? at hstep
  split at hstep
  next hmove => rw [Transition.after, hmove]; rfl
  all_goals cases hstep

theorem Run.startsOnce (hpolicy : policy.Sound)
    (run : Run (.fresh config policy {} values mutexes console) past m)
    (hallocated : Allocated past) (henrolled : Enrolled past id creation) :
    StartsOnce past m id creation := by
  have hid := henrolled.ne_idle
  obtain ⟨-, hunique⟩ := run.enrolled henrolled
  have hstarts := run.starts hpolicy Host.blank hallocated id
  constructor
  · exact fun t hmem call hentered =>
      run.enters hpolicy Host.blank hallocated henrolled hmem hentered
  · intro hnever
    cases hstarts with
    | silent _ hcalls => exact hcalls
    | started _ _ hresumed =>
        obtain ⟨t, hmem, hresumes⟩ := hresumed
        exact absurd hresumes (hnever t hmem)
  · rintro ⟨t, hmem, hresumes⟩
    cases hstarts with
    | silent hquiet => exact absurd hresumes (hquiet.resolve_left hid t hmem)
    | started own _ _ hown hcalls =>
        rw [← hunique own hown]
        exact hcalls
  · rintro before t later rfl htarget hnever
    exact run.first_dispatch hpolicy Host.blank hallocated henrolled htarget hnever
  · rintro before t later rfl hresumes hfirst
    obtain ⟨hswitching, hafter⟩ := run.switching_of_resumes hpolicy hallocated hresumes
    rw [hafter]
    cases hswitching with
    | launched own hown _ _ _ hcontext =>
        rw [← hunique own (hown.append _)]
        exact hcontext
    | resumed hsuspended =>
        obtain ⟨earlier, u, between, rfl, hsuspends, -⟩ := hsuspended
        obtain ⟨v, hmem, hbefore⟩ :=
          ((run.before.1.partaken Host.blank).origin id
            ⟨u, by simp, .inl hsuspends⟩).resolve_left hid
        exact absurd hbefore (hfirst v hmem)
  · rintro before t later rfl hresumes ⟨v, hmem, hbefore⟩
    obtain ⟨hswitching, hafter⟩ := run.switching_of_resumes hpolicy hallocated hresumes
    rw [hafter]
    cases hswitching with
    | launched _ _ _ hapart => exact absurd ⟨v, hmem, .inr hbefore⟩ hapart
    | resumed hsuspended hcontext =>
        obtain ⟨earlier, u, between, rfl, hsuspends, hbetween⟩ := hsuspended
        refine ⟨earlier, u, between, rfl, hsuspends, hbetween, ?_⟩
        rw [hcontext]
        exact (run.before.1.contextOf_suspended hsuspends hbetween).2

/--
On a host whose allocator gives out blocks that do not overlap, every thread that was created
calls its own entry routine with its own argument, once, when it is first dispatched and with
interrupts enabled, and every later dispatch goes on where the thread left the processor.
There are no carriers before the first switch; from then on there are one for the idle thread
and one for every created thread that was switched to at least once, and those are the threads
that were dispatched at least once, but for one whose dispatch has its switch still to do.
-/
theorem Run.starts_once (hpolicy : policy.Sound)
    (run : Run (.fresh config policy {} values mutexes console) past m)
    (hallocated : Allocated past) :
    (∀ id creation, Enrolled past id creation → StartsOnce past m id creation) ∧
      ((∀ t ∈ past, ∀ next prev, t.step? ≠ some (.switch next prev)) →
        m.kernel.cpu.carriers = 0) ∧
      ((∃ t ∈ past, ∃ next prev, t.step? = some (.switch next prev)) →
        m.kernel.cpu.carriers = 1 + (launched past).length) ∧
      (m.executing = m.kernel.table.current → ∀ id, id ∈ launched past ↔
        id ≠ ThreadId.idle ∧ ∃ t ∈ past, t.target? = some id) := by
  refine ⟨fun id creation henrolled => run.startsOnce hpolicy hallocated henrolled,
    run.carriers_eq_zero, ?_, ?_⟩
  · rintro ⟨t, hmem, next, prev, hswitch⟩
    exact run.carriers_eq hmem hswitch
  · intro hsettled id
    rw [mem_launched, and_congr_right_iff]
    exact fun hid => run.resumed_iff hpolicy hsettled hid

end

/-- Two threads are created, dispatched one after the other, and the first one again. -/
def debuts : List Move :=
  .call (.create "first" ⟨0x3000, 7⟩ 4096 (some 0x10000)) :: List.replicate 20 .exec
    ++ .call (.create "second" ⟨0x3000, 9⟩ 4096 (some 0x20000)) :: List.replicate 20 .exec
    ++ .call .yield :: List.replicate 13 .exec ++ .call .yield :: List.replicate 13 .exec
    ++ .call .yield :: List.replicate 14 .exec

/-- Both were called once, each with its own argument. -/
theorem Run.starts_once_of_debuts :
    ∃ (past : List (Transition Host)) (m : Machine Host),
      Run (.fresh {} .roundRobin {} [] 0 { sinks := [], installed := none }) past m ∧
        Allocated past ∧ m.atUserLevel = true ∧ m.executing = 0 ∧
          m.callsOf past 0 = [⟨0x3000, 7⟩] ∧ m.callsOf past 1 = [⟨0x3000, 9⟩] ∧
            m.kernel.cpu.carriers = 3 := by
  let start : Machine Host := .fresh {} .roundRobin {} [] 0 { sinks := [], installed := none }
  let past := start.transitions debuts
  let m := debuts.foldl Machine.after start
  let first : Creation := ⟨"first", ⟨0x3000, 7⟩, 4096, some 0x10000, none⟩
  let second : Creation := ⟨"second", ⟨0x3000, 9⟩, 4096, some 0x20000, none⟩
  have run : Run start past m := .of_plays (by decide +kernel)
  have hstacks : stacksOf past = [⟨0x10000, 4192⟩, ⟨0x20000, 4192⟩] := by decide +kernel
  have hallocated : Allocated past := by
    constructor
    · rw [hstacks]
      intro stack hmem
      simp only [List.mem_cons, List.not_mem_nil, or_false] at hmem
      rcases hmem with rfl | rfl <;> exact ⟨by decide, by decide⟩
    · rw [hstacks]
      simp [Stack.Apart]
  have henrolled : ∀ id creation, (∃ stack, past.any (fun t =>
      t.step? == some (.enroll creation stack) && t.before.kernel.table.isNext id) = true) →
        Enrolled past id creation := by
    rintro id creation ⟨stack, hany⟩
    obtain ⟨t, hmem, hboth⟩ := List.any_eq_true.1 hany
    rw [Bool.and_eq_true, beq_iff_eq] at hboth
    exact ⟨t, hmem, stack, hboth⟩
  have hfirst : Enrolled past 0 first := henrolled 0 first ⟨⟨0x10000, 4192⟩, by decide +kernel⟩
  have hsecond : Enrolled past 1 second := henrolled 1 second ⟨⟨0x20000, 4192⟩, by decide +kernel⟩
  have hswitched : ∀ next prev, past.any (fun t => t.step? == some (.switch next prev)) = true →
      ∃ t ∈ past, t.Resumes next ∧ ∃ next prev, t.step? = some (.switch next prev) := by
    intro next prev hany
    obtain ⟨t, hmem, hstep⟩ := List.any_eq_true.1 hany
    rw [beq_iff_eq] at hstep
    exact ⟨t, hmem, ⟨prev, hstep⟩, next, prev, hstep⟩
  obtain ⟨t, hmem, hresumes, hswitch⟩ := hswitched 0 ThreadId.idle (by decide +kernel)
  obtain ⟨u, humem, huresumes, -⟩ := hswitched 1 0 (by decide +kernel)
  obtain ⟨honce, -, hcarriers, -⟩ := Run.starts_once Policy.sound_roundRobin run hallocated
  refine ⟨past, m, run, hallocated, by decide +kernel, by decide +kernel,
    (honce 0 first hfirst).once ⟨t, hmem, hresumes⟩,
    (honce 1 second hsecond).once ⟨u, humem, huresumes⟩, ?_⟩
  rw [hcarriers ⟨t, hmem, hswitch⟩]
  decide +kernel

end TickKernel
