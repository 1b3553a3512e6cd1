import TickKernel.Proofs.Stretch
import TickKernel.Proofs.Waiters

/-!
# First come, first served

The queue of a mutex holds the threads that found it owned by another one, in the
order in which they first did.  Whoever releases it passes it to the oldest of them,
and passes the processor on in the same masked stretch of steps.
-/

namespace TickKernel

variable {P : Type}

section Arrival

def Transition.turnsAway (t : Transition P) (index : Nat) (id : ThreadId) : Bool :=
  t.step? == some (.tryAcquire index id) && (t.before.shared.owner index).any (· != id)

/-- When a thread was first turned away from a mutex in the operation that it asked for last. -/
def arrival (past : List (Transition P)) (index : Nat) (id : ThreadId) : Option Nat :=
  past.zipIdx.foldl
    (fun since (t, time) =>
      match t.move with
      | .call _ => if t.before.executing = id then none else since
      | .exec => if t.turnsAway index id then some (since.getD time) else since
      | .interrupt => since)
    none

/-- One thread was turned away from a mutex before another one was. -/
def Precedes (past : List (Transition P)) (index : Nat) (first second : ThreadId) : Prop :=
  ∃ early late, arrival past index first = some early ∧
    arrival past index second = some late ∧ early < late

variable (past : List (Transition P)) (m : Machine P) (index : Nat) (id : ThreadId)

@[simp]
theorem arrival_nil : arrival ([] : List (Transition P)) index id = none :=
  rfl

theorem arrival_exec :
    arrival (past ++ [⟨m, .exec⟩]) index id =
      if Transition.turnsAway ⟨m, .exec⟩ index id then
        some ((arrival past index id).getD past.length)
      else arrival past index id := by
  simp [arrival, List.zipIdx_append]

@[simp]
theorem arrival_interrupt :
    arrival (past ++ [⟨m, .interrupt⟩]) index id = arrival past index id := by
  simp [arrival, List.zipIdx_append]

theorem arrival_call (request : Request) :
    arrival (past ++ [⟨m, .call request⟩]) index id =
      if m.executing = id then none else arrival past index id := by
  simp [arrival, List.zipIdx_append]

theorem arrival_exec_of_ne (hstep : Transition.step? ⟨m, .exec⟩ ≠ some (.tryAcquire index id)) :
    arrival (past ++ [⟨m, .exec⟩]) index id = arrival past index id := by
  rw [arrival_exec, if_neg]
  simp [Transition.turnsAway, hstep]

end Arrival

/-- The queue of a mutex holds whoever was turned away, in the order of arrival. -/
structure InOrder (past : List (Transition P)) (index : Nat) (owner : Option ThreadId)
    (line : List ThreadId) : Prop where
  mem_iff : ∀ id, id ∈ line ↔ (arrival past index id).isSome = true ∧ owner ≠ some id
  ordered : line.Pairwise (Precedes past index)
  early : ∀ id time, arrival past index id = some time → time < past.length
  locking : ∀ id, (arrival past index id).isSome = true → asked past id = some (.lock index)

namespace InOrder

variable {past : List (Transition P)} {t : Transition P} {index : Nat} {owner : Option ThreadId}
  {line : List ThreadId} {me : ThreadId}

theorem nil (index : Nat) : InOrder ([] : List (Transition P)) index none [] := by
  constructor
  · simp
  · exact .nil
  · intro id time h
    cases h
  · intro id h
    cases h

theorem later (h : InOrder past index owner line)
    (harrival : ∀ id, arrival (past ++ [t]) index id = arrival past index id)
    (hasked : ∀ id, asked (past ++ [t]) id = asked past id) :
    InOrder (past ++ [t]) index owner line := by
  constructor
  · intro id
    rw [harrival]
    exact h.mem_iff id
  · refine h.ordered.imp ?_
    rintro first second ⟨early, late, hfirst, hsecond, hlt⟩
    exact ⟨early, late, (harrival first).trans hfirst, (harrival second).trans hsecond, hlt⟩
  · intro id time htime
    rw [harrival] at htime
    have hlt := h.early id time htime
    rw [List.length_append]
    omega
  · intro id hsome
    rw [harrival] at hsome
    rw [hasked]
    exact h.locking id hsome

/-- Of a free mutex for which nobody waits, any thread can become the owner. -/
theorem enter (h : InOrder past index none []) (me : ThreadId) :
    InOrder past index (some me) [] := by
  refine { h with mem_iff := fun id => ?_ }
  have hnobody := h.mem_iff id
  simp only [List.not_mem_nil, false_iff, not_and] at hnobody ⊢
  exact fun hsome => absurd (by simp) (hnobody hsome)

/-- A queued thread that came back to look again keeps its place. -/
theorem turnAway_of_mem (h : InOrder past index owner line)
    (hothers : ∀ id, id ≠ me → arrival (past ++ [t]) index id = arrival past index id)
    (hown : arrival (past ++ [t]) index me = some ((arrival past index me).getD past.length))
    (hasked : ∀ id, asked (past ++ [t]) id = asked past id) (hmem : me ∈ line) :
    InOrder (past ++ [t]) index owner line := by
  refine h.later (fun id => ?_) hasked
  by_cases hid : id = me
  · subst hid
    obtain ⟨time, htime⟩ := Option.isSome_iff_exists.1 ((h.mem_iff id).1 hmem).1
    rw [hown, htime, Option.getD_some]
  · exact hothers id hid

theorem pairwise_arrive (h : InOrder past index owner line)
    (hothers : ∀ id, id ≠ me → arrival (past ++ [t]) index id = arrival past index id)
    (hown : arrival (past ++ [t]) index me = some past.length) (hmem : me ∉ line) :
    (line ++ [me]).Pairwise (Precedes (past ++ [t]) index) := by
  have hsame : ∀ id, id ∈ line → arrival (past ++ [t]) index id = arrival past index id :=
    fun id hin => hothers id fun heq => hmem (heq ▸ hin)
  rw [List.pairwise_append]
  refine ⟨?_, List.pairwise_singleton _ _, ?_⟩
  · refine h.ordered.imp_of_mem ?_
    rintro first second hfirstMem hsecondMem ⟨early, late, hfirst, hsecond, hlt⟩
    refine ⟨early, late, ?_, ?_, hlt⟩
    · rw [hsame first hfirstMem, hfirst]
    · rw [hsame second hsecondMem, hsecond]
  · intro first hfirstMem second hsecondMem
    obtain rfl := List.mem_singleton.1 hsecondMem
    obtain ⟨early, hearly⟩ := Option.isSome_iff_exists.1 ((h.mem_iff first).1 hfirstMem).1
    refine ⟨early, past.length, ?_, hown, h.early first early hearly⟩
    rw [hsame first hfirstMem, hearly]

/-- A thread that is turned away for the first time queues up behind those that came before. -/
theorem turnAway_of_not_mem (h : InOrder past index owner line)
    (hothers : ∀ id, id ≠ me → arrival (past ++ [t]) index id = arrival past index id)
    (hown : arrival (past ++ [t]) index me = some past.length)
    (hasked : ∀ id, asked (past ++ [t]) id = asked past id) (howner : owner ≠ some me)
    (hrequest : asked past me = some (.lock index)) (hmem : me ∉ line) :
    InOrder (past ++ [t]) index owner (line ++ [me]) := by
  refine ⟨fun id => ?_, h.pairwise_arrive hothers hown hmem, fun id time htime => ?_,
    fun id hsome => ?_⟩
  · rw [List.mem_append, List.mem_singleton]
    by_cases hid : id = me
    · subst hid
      rw [hown]
      exact ⟨fun _ => ⟨rfl, howner⟩, fun _ => .inr rfl⟩
    · rw [hothers id hid, ← h.mem_iff]
      exact ⟨fun hin => hin.resolve_right hid, .inl⟩
  · rw [List.length_append, List.length_singleton]
    by_cases hid : id = me
    · subst hid
      obtain rfl := Option.some.inj (hown.symm.trans htime)
      omega
    · rw [hothers id hid] at htime
      have hlt := h.early id time htime
      omega
  · rw [hasked]
    by_cases hid : id = me
    · rw [hid]
      exact hrequest
    · rw [hothers id hid] at hsome
      exact h.locking id hsome

theorem turnAway (h : InOrder past index owner line)
    (hothers : ∀ id, id ≠ me → arrival (past ++ [t]) index id = arrival past index id)
    (hown : arrival (past ++ [t]) index me = some ((arrival past index me).getD past.length))
    (hasked : ∀ id, asked (past ++ [t]) id = asked past id) (howner : owner ≠ some me)
    (hrequest : asked past me = some (.lock index)) :
    InOrder (past ++ [t]) index owner (if me ∈ line then line else line ++ [me]) := by
  by_cases hmem : me ∈ line
  · rw [if_pos hmem]
    exact h.turnAway_of_mem hothers hown hasked hmem
  · have hnone : arrival past index me = none := by
      rw [← Option.not_isSome_iff_eq_none]
      exact fun hsome => hmem ((h.mem_iff me).2 ⟨hsome, howner⟩)
    rw [hnone, Option.getD_none] at hown
    rw [if_neg hmem]
    exact h.turnAway_of_not_mem hothers hown hasked howner hrequest hmem

theorem arrival_eq_none (h : InOrder past index owner line)
    (hrequest : asked past me ≠ some (.lock index)) : arrival past index me = none := by
  rw [← Option.not_isSome_iff_eq_none]
  exact fun hsome => hrequest (h.locking me hsome)

theorem free (h : InOrder past index (some me) [])
    (hrequest : asked past me ≠ some (.lock index)) : InOrder past index none [] := by
  refine { h with mem_iff := fun id => ?_ }
  have hnobody := h.mem_iff id
  simp only [List.not_mem_nil, false_iff, not_and, not_not] at hnobody ⊢
  intro hsome
  obtain rfl := Option.some.inj (hnobody hsome)
  rw [h.arrival_eq_none hrequest] at hsome
  cases hsome

theorem pass {heir : ThreadId} (h : InOrder past index (some me) (heir :: line))
    (hnodup : (heir :: line).Nodup) (hrequest : asked past me ≠ some (.lock index)) :
    InOrder past index (some heir) line := by
  refine { h with mem_iff := fun id => ?_, ordered := h.ordered.of_cons }
  have hmember := h.mem_iff id
  have hheir := (List.nodup_cons.1 hnodup).1
  constructor
  · intro hmem
    refine ⟨(hmember.1 (.tail heir hmem)).1, ?_⟩
    rintro heq
    exact hheir (Option.some.inj heq ▸ hmem)
  · rintro ⟨hsome, hne⟩
    have hother : some me ≠ some id := by
      rintro heq
      rw [← Option.some.inj heq, h.arrival_eq_none hrequest] at hsome
      cases hsome
    rcases List.mem_cons.1 (hmember.2 ⟨hsome, hother⟩) with rfl | hmem
    · exact absurd rfl hne
    · exact hmem

theorem call {m : Machine P} {request : Request} (h : InOrder past index owner line)
    (hmem : m.executing ∉ line) :
    InOrder (past ++ [⟨m, .call request⟩]) index owner line := by
  have hne : ∀ id, id ∈ line → ¬ m.executing = id := by
    rintro id hin rfl
    exact hmem hin
  constructor
  · intro id
    rw [arrival_call]
    split
    next heq =>
        subst heq
        simp [hmem]
    next => exact h.mem_iff id
  · refine h.ordered.imp_of_mem ?_
    rintro first second hfirstMem hsecondMem ⟨early, late, hfirst, hsecond, hlt⟩
    refine ⟨early, late, ?_, ?_, hlt⟩
    · rw [arrival_call, if_neg (hne first hfirstMem), hfirst]
    · rw [arrival_call, if_neg (hne second hsecondMem), hsecond]
  · intro id time htime
    rw [arrival_call] at htime
    split at htime
    · cases htime
    · have hlt := h.early id time htime
      rw [List.length_append]
      omega
  · intro id hsome
    rw [arrival_call] at hsome
    rw [asked_call]
    split at hsome
    · cases hsome
    next hid =>
        rw [if_neg hid]
        exact h.locking id hsome

end InOrder

namespace Machine

variable [Backend P] {past : List (Transition P)} {m after : Machine P} {step : Step}
  {rest pushed : List Step}

theorem Stepped.turnsAway_iff (hstepped : m.Stepped step rest pushed after) (index : Nat)
    (id : ThreadId) : Transition.turnsAway ⟨m, .exec⟩ index id = true ↔
      step = .tryAcquire index id ∧ ∃ other, m.shared.owner index = some other ∧ other ≠ id := by
  rw [Transition.turnsAway, hstepped.step?_eq]
  cases m.shared.owner index <;> simp

theorem Stepped.arrival_eq (hstepped : m.Stepped step rest pushed after) {index : Nat}
    {id : ThreadId}
    (hkeeps : step = .tryAcquire index id →
      ∀ other, m.shared.owner index = some other → other = id) :
    arrival (past ++ [⟨m, .exec⟩]) index id = arrival past index id := by
  rw [arrival_exec, if_neg]
  rw [hstepped.turnsAway_iff]
  rintro ⟨hstep, other, howner, hother⟩
  exact hother (hkeeps hstep other howner)

def Fifo (past : List (Transition P)) (m : Machine P) : Prop :=
  ∀ index : Nat, InOrder past index (m.shared.owner index) (m.shared.mutexLine index)

namespace Fifo

theorem later_of_perform (h : m.Fifo past) (hstepped : m.Stepped step rest pushed after)
    (index : Nat)
    (hkeeps : ∀ id other, step = .tryAcquire index id → m.shared.owner index = some other →
      other = id) :
    InOrder (past ++ [⟨m, .exec⟩]) index (m.shared.owner index) (m.shared.mutexLine index) :=
  (h index).later (fun id => hstepped.arrival_eq fun heq other => hkeeps id other heq)
    fun id => asked_exec past m id

theorem acquire (h : m.Fifo past) {me : ThreadId}
    (hstepped : m.Stepped (.tryAcquire index me) rest pushed after)
    (hrequest : asked past me = some (.lock index))
    (hclaims : m.shared.Claims after.shared (.tryAcquire index me) pushed) :
    InOrder (past ++ [⟨m, .exec⟩]) index (after.shared.owner index)
      (after.shared.mutexLine index) := by
  have hlater := later_of_perform h hstepped index
  cases hclaims with
  | absent hnone hafter hline =>
      rw [hafter, hline]
      refine hlater fun id other _ howner => ?_
      simp [Shared.owner, hnone] at howner
  | again hme hafter hline =>
      rw [hafter, hline]
      refine hlater fun id other heq howner => ?_
      obtain ⟨-, rfl⟩ := Step.tryAcquire.inj heq
      exact Option.some.inj (howner.symm.trans hme)
  | entered hfree hempty hafter hline =>
      have hkept := hlater fun id other _ howner => by
        rw [hfree] at howner
        cases howner
      rw [hfree, hempty] at hkept
      rw [hafter, hline, Function.update_self, hempty]
      exact hkept.enter me
  | barred howner hother hafter hline =>
      rw [hafter, hline, Function.update_self]
      refine (h index).turnAway ?_ ?_ (fun id => asked_exec past m id) ?_ hrequest
      · intro id hid
        refine hstepped.arrival_eq fun heq => ?_
        exact absurd (Step.tryAcquire.inj heq).2.symm hid
      · rw [arrival_exec, if_pos]
        exact (hstepped.turnsAway_iff index me).2 ⟨rfl, _, howner, hother⟩
      · rw [howner]
        exact fun heq => hother (Option.some.inj heq)

theorem release (h : m.Fifo past) (hobjects : m.shared.Sound) {me : ThreadId}
    (hstepped : m.Stepped (.tryRelease index me) rest pushed after)
    (hrequest : asked past me = some (.unlock index))
    (hclaims : m.shared.Claims after.shared (.tryRelease index me) pushed) :
    InOrder (past ++ [⟨m, .exec⟩]) index (after.shared.owner index)
      (after.shared.mutexLine index) := by
  have hkept := later_of_perform h hstepped index fun id other heq => by cases heq
  have hunlocks : asked (past ++ [⟨m, .exec⟩]) me ≠ some (.lock index) := by
    rw [asked_exec, hrequest]
    nofun
  cases hclaims with
  | refused hother hsame =>
      rw [Shared.owner, Shared.mutexLine, hsame]
      exact hkept
  | freed hme hempty hafter hline =>
      rw [hme, hempty] at hkept
      rw [hafter, hline, Function.update_self, hempty]
      exact hkept.free hunlocks
  | passed hme hold hafter hline =>
      have hnodup := hobjects.mutexLine_nodup index
      rw [hme, hold] at hkept
      rw [hold] at hnodup
      rw [hafter, hline, Function.update_self, Function.update_self]
      exact hkept.pass hnodup hunlocks

variable [LawfulBackend P]

theorem perform (h : m.Fifo past) (hregular : m.Regular past)
    (hstepped : m.Stepped step rest pushed after) : after.Fifo (past ++ [⟨m, .exec⟩]) := by
  intro index
  have hserved := hregular.served hstepped
  by_cases hown : step.mutex? = some index
  · obtain ⟨hclaims, -⟩ := hstepped.claims hregular.objects (Step.asksMutex_of_mutex? hown)
    cases step <;> cases hown
    case tryAcquire.refl me =>
        obtain ⟨hrequest, rfl⟩ := hserved
        exact h.acquire hstepped hrequest hclaims
    case tryRelease.refl me =>
        obtain ⟨hrequest, rfl⟩ := hserved
        exact h.release hregular.objects hstepped hrequest hclaims
  · obtain ⟨howner, hline⟩ := hstepped.mutex_other hregular.objects hown
    rw [howner, hline]
    exact later_of_perform h hstepped index fun id other heq => absurd (heq ▸ rfl) hown

theorem goes {move : Move} (h : m.Fifo past) (hregular : m.Regular past) (hwaiters : m.Waiters)
    (hgoes : m.Goes move after) : after.Fifo (past ++ [⟨m, move⟩]) := by
  cases hgoes with
  | step hstepped => exact h.perform hregular hstepped
  | spin hnone =>
      intro index
      refine (h index).later (fun id => arrival_exec_of_ne past m index id ?_) (asked_exec past m)
      rw [hnone]
      nofun
  | switch hcode hswitched =>
      intro index
      rw [hswitched.shared]
      refine (h index).later (fun id => arrival_exec_of_ne past m index id ?_) (asked_exec past m)
      simp [Transition.step?, nextStep?, hcode, spins]
  | interrupt =>
      exact fun index => (h index).later (arrival_interrupt past m index) (asked_interrupt past m)
  | call request hcode =>
      intro index
      refine (h index).call fun hmem => ?_
      have hseeking := hwaiters.queued index m.executing hmem
      rw [contextOf_executing rfl, hcode] at hseeking
      cases hseeking

end Fifo

end Machine

theorem Run.fifo [Backend P] [LawfulBackend P] {config : Config} {policy : Policy} {cpu : P}
    {values : List Int32} {mutexes : Nat} {console : Console} {past : List (Transition P)}
    {m : Machine P} (hpolicy : policy.Sound)
    (run : Run (.fresh config policy cpu values mutexes console) past m) : m.Fifo past := by
  refine run.invariant (fun past m => m.Fifo past) ?_ ?_
  · intro index
    have howner : (Machine.fresh config policy cpu values mutexes console).shared.owner index =
        none := Shared.owner_new values mutexes console index
    have hline : (Machine.fresh config policy cpu values mutexes console).shared.mutexLine index =
        [] := Shared.mutexLine_new values mutexes console index
    rw [howner, hline]
    exact .nil index
  · intro past m move run h hgoes
    exact h.goes run.regular (run.waiters hpolicy) hgoes

end TickKernel
