import Mathlib.Data.Fintype.Card
import TickKernel.Proofs.Posture
import TickKernel.Proofs.Prompting
import TickKernel.Proofs.RoundRobin

/-!
# Turns under round robin

While a created thread is ready, every dispatch that the policy chooses goes on along
the slots towards that thread's own, whatever the other threads do in between.  So no
other thread is dispatched twice before it, and the idle thread not at all.
-/

namespace TickKernel

/--
How far on the way to the turn of `id` a slot is: those behind `id` come first, then
the idle thread's, and then those from the first one on.
-/
def ThreadId.turn (id slot : ThreadId) : Nat :=
  if slot.val ≤ id.val then slot.val + maxThreads else slot.val

theorem ThreadId.turn_le (id slot : ThreadId) : id.turn slot ≤ id.turn id := by
  have hslot := slot.isLt
  unfold turn
  split <;> split <;> omega

theorem ThreadTable.createdIds_sorted (table : ThreadTable) :
    table.createdIds.Pairwise fun first second => first.val < second.val :=
  (List.pairwise_lt_finRange maxThreads).sublist (List.take_sublist _ _)

namespace Policy

variable {table : ThreadTable} {id next : ThreadId}

theorem val_le_of_firstReady {candidates : List ThreadId}
    (hsorted : candidates.Pairwise fun first second => first.val < second.val)
    (hfirst : firstReady table candidates = some next) (hmem : id ∈ candidates)
    (hready : table.state id = .ready) : next.val ≤ id.val := by
  obtain ⟨-, front, back, rfl, hfront⟩ := List.find?_eq_some_iff_append.1 hfirst
  rcases List.mem_append.1 hmem with hbefore | hbehind
  · have hnot := hfront id hbefore
    simp [hready] at hnot
  · rcases List.mem_cons.1 hbehind with rfl | hbehind
    · exact Nat.le_refl _
    · have hrest := (List.pairwise_append.1 hsorted).2.1
      exact Nat.le_of_lt ((List.pairwise_cons.1 hrest).1 id hbehind)

/-- From the idle thread the first ready one comes at or before the turn of any other. -/
theorem turn_lt_of_idle (hfirst : firstReady table table.createdIds = some next)
    (hmem : id ∈ table.createdIds) (hready : table.state id = .ready) :
    id.turn ThreadId.idle < id.turn next := by
  have hle := val_le_of_firstReady table.createdIds_sorted hfirst hmem hready
  have hbelow : id.val < maxCreated :=
    Nat.lt_of_lt_of_le (ThreadTable.mem_createdIds.1 hmem) table.count_le
  have hlast : ThreadId.idle.val = maxCreated := rfl
  rw [ThreadId.turn, ThreadId.turn, if_pos hle, if_neg (by omega)]
  omega

theorem firstReady_turnOrder (table : ThreadTable) (start : ThreadId) :
    firstReady table (turnOrder table start) =
      (firstReady table (table.createdIds.drop (start.val + 1))).or
        (firstReady table (table.createdIds.take start.val)) :=
  List.find?_append

theorem turn_lt_of_turnOrder {start : ThreadId}
    (hfirst : firstReady table (turnOrder table start) = some next)
    (hmem : id ∈ table.createdIds) (hready : table.state id = .ready) (hid : id ≠ start) :
    id.turn start < id.turn next := by
  have hval : id.val ≠ start.val := fun heq => hid (Fin.ext heq)
  have hlt := start.isLt
  have hsorted := table.createdIds_sorted
  rw [firstReady_turnOrder] at hfirst
  rw [ThreadId.turn, ThreadId.turn]
  cases hbehind : firstReady table (table.createdIds.drop (start.val + 1)) with
  | some other =>
      rw [hbehind] at hfirst
      obtain rfl : next = other := (Option.some.inj hfirst).symm
      have hnext := (ThreadTable.mem_drop_createdIds.1 (firstReady_eq_some hbehind).1).2
      by_cases hlater : start.val < id.val
      · have hle := val_le_of_firstReady (hsorted.sublist (List.drop_sublist _ _)) hbehind
          (ThreadTable.mem_drop_createdIds.2 ⟨hmem, hlater⟩) hready
        rw [if_pos hle, if_pos (by omega)]
        omega
      · rw [if_neg (by omega), if_neg (by omega)]
        omega
  | none =>
      rw [hbehind, Option.none_or] at hfirst
      have hearlier : id.val < start.val := by
        by_contra hlater
        refine firstReady_eq_none hbehind ?_ hready
        exact ThreadTable.mem_drop_createdIds.2 ⟨hmem, by omega⟩
      have hle := val_le_of_firstReady (hsorted.sublist (List.take_sublist _ _)) hfirst
        (ThreadTable.mem_take_createdIds.2 ⟨hmem, hearlier⟩) hready
      rw [if_pos hle, if_neg (by omega)]
      omega

/-- While another created thread is ready, the choice comes closer to its turn. -/
theorem turn_lt_of_choose (hmem : id ∈ table.createdIds) (hready : table.state id = .ready)
    (hcurrent : id ≠ table.current) :
    roundRobin.choose table ∈ table.createdIds ∧
      id.turn table.current < id.turn (roundRobin.choose table) := by
  simp only [choose, roundRobin]
  split
  next hidle =>
      cases hfirst : firstReady table table.createdIds with
      | none => exact absurd hready (firstReady_eq_none hfirst hmem)
      | some next =>
          rw [Option.getD_some, hidle]
          exact ⟨(firstReady_eq_some hfirst).1, turn_lt_of_idle hfirst hmem hready⟩
  next =>
      cases hfirst : firstReady table (turnOrder table table.current) with
      | none => exact absurd hready (firstReady_eq_none hfirst (mem_turnOrder hmem hcurrent))
      | some next =>
          rw [Option.getD_some]
          exact ⟨mem_createdIds_of_mem_turnOrder (firstReady_eq_some hfirst).1,
            turn_lt_of_turnOrder hfirst hmem hready hcurrent⟩

end Policy

/-! ## Decisions -/

variable {P : Type} [Backend P]

theorem Run.policy_eq {config : Config} {policy : Policy} {cpu : P} {values : List Int32}
    {mutexes : Nat} {console : Console} {past : List (Transition P)} {m : Machine P}
    (run : Run (.fresh config policy cpu values mutexes console) past m) :
    m.kernel.policy = policy := by
  apply run.invariant fun _ m => m.kernel.policy = policy
  · rfl
  · intro past m move run h hgoes
    generalize m.after move = after at hgoes ⊢
    cases hgoes with
    | spin => exact h
    | step hstepped => exact hstepped.effect.policy.trans h
    | switch hcode hswitched =>
        rw [hswitched.kernel]
        exact h
    | call request => exact h
    | interrupt => exact h

section

omit [Backend P]

def targets (later : List (Transition P)) : List ThreadId :=
  later.filterMap Transition.target?

/--
Every dispatch follows a choice that the policy made for it.  Before the transitions
the last one that was not idle was `last`.
-/
def Rescheduled (last : Option (Transition P)) : List (Transition P) → Prop
  | [] => True
  | t :: later =>
      (t.target?.isSome = true → last.bind Transition.step? = some (.choose .dispatch)) ∧
        Rescheduled (if t.isIdle then last else some t) later

instance decidableRescheduled (last : Option (Transition P)) (later : List (Transition P)) :
    Decidable (Rescheduled last later) :=
  match later with
  | [] => inferInstanceAs (Decidable True)
  | t :: later =>
      have := decidableRescheduled (if t.isIdle then last else some t) later
      inferInstanceAs (Decidable ((t.target?.isSome = true →
        last.bind Transition.step? = some (.choose .dispatch)) ∧
          Rescheduled (if t.isIdle then last else some t) later))

theorem Rescheduled.chosen {past before after : List (Transition P)} {t : Transition P}
    (h : Rescheduled (latest past) (before ++ t :: after)) (htarget : t.target?.isSome = true) :
    (latest (past ++ before)).bind Transition.step? = some (.choose .dispatch) := by
  induction before generalizing past with
  | nil =>
      rw [List.append_nil]
      exact h.1 htarget
  | cons first before ih =>
      have hlatest : latest (past ++ [first]) =
          if first.isIdle then latest past else some first := by
        simp [latest]
      rw [← List.singleton_append, ← List.append_assoc]
      apply ih
      rw [hlatest]
      exact h.2

end

namespace Run

variable [LawfulBackend P] {config : Config} {policy : Policy} {cpu : P} {values : List Int32}
  {mutexes : Nat} {console : Console} {past later : List (Transition P)} {m after : Machine P}
  {id : ThreadId}

/-- A dispatch that follows a choice is that of the thread that the policy chose there. -/
theorem eq_choice (run : Run (.fresh config policy cpu values mutexes console) past m)
    {u : Transition P} (hlatest : latest past = some u)
    (hchose : u.step? = some (.choose .dispatch)) {target : ThreadId}
    (hnext : m.nextStep? = some (.dispatch target)) :
    target = u.before.kernel.choice ∧ m.kernel.table = u.before.kernel.table := by
  obtain ⟨t, hlast, hprompts, step, hstep, hurges⟩ := run.prompted.of_nextStep? hnext rfl
  obtain rfl := Option.some.inj (hlatest.symm.trans hlast)
  obtain rfl := Option.some.inj (hchose.symm.trans hstep)
  obtain ⟨earlier, move⟩ := u
  obtain ⟨rfl, ⟨_, rest, pushed, hstepped, -⟩, huntouched⟩ := hprompts
  obtain rfl := Option.some.inj (hstepped.step?_eq.symm.trans hstep)
  constructor
  · cases hurges
    rfl
  · exact huntouched.table.trans hstepped.effect.table

theorem none_ready_of_choice
    (run : Run (.fresh config .roundRobin cpu values mutexes console) past m)
    (hchoice : m.kernel.choice = ThreadId.idle) :
    (∀ id, m.kernel.table.contains id = true → id ≠ ThreadId.idle →
      m.kernel.table.state id ≠ .ready) ∧
    (m.kernel.table.current ≠ ThreadId.idle →
      m.kernel.table.state m.kernel.table.current ≠ .running) := by
  rw [Kernel.choice_of_roundRobin run.policy_eq] at hchoice
  constructor
  · intro id hcontains hid
    by_cases hcurrent : id = m.kernel.table.current
    · rw [hcurrent] at hid ⊢
      exact run.steady Policy.sound_roundRobin hid
    · exact Policy.not_ready_of_choose_idle hchoice
        (ThreadTable.mem_createdIds_of_contains hcontains hid) hcurrent
  · exact Policy.not_running_of_choose_idle hchoice

omit [LawfulBackend P] in
theorem contains_of_run (more : Run m later after) (h : m.kernel.table.contains id = true) :
    after.kernel.table.contains id = true := by
  apply more.invariant fun _ m => m.kernel.table.contains id = true
  · exact h
  · exact fun _ m move _ h hgoes => Machine.contains_of_goes hgoes h

/--
Every dispatch of rescheduled transitions is that of the thread which round robin would
choose there, as the table is still the one that it chose for.
-/
theorem target_eq_choice (run : Run (.fresh config .roundRobin cpu values mutexes console) past m)
    (more : Run m later after) (hrescheduled : Rescheduled (latest past) later)
    {t : Transition P} (hmem : t ∈ later) {target : ThreadId} (htarget : t.target? = some target) :
    target = t.before.kernel.choice := by
  obtain ⟨before, others, rfl⟩ := List.append_of_mem hmem
  have hchosen := hrescheduled.chosen (by rw [htarget]; rfl)
  have hwhole := run.trans more
  rw [← List.append_assoc] at hwhole
  have hearlier := hwhole.before.1
  have hnext := Machine.nextStep?_of_step? (Transition.step?_of_target? htarget)
  obtain ⟨u, hlatest, hchose⟩ := Option.bind_eq_some_iff.1 hchosen
  obtain ⟨rfl, htable⟩ := hearlier.eq_choice hlatest hchose hnext
  have hpolicy : u.before.kernel.policy = .roundRobin := by
    obtain ⟨front, idle, hsplit, -⟩ := split_of_latest hlatest
    rw [hsplit] at hearlier
    exact hearlier.before.1.policy_eq
  rw [Kernel.choice_of_roundRobin hpolicy, Kernel.choice_of_roundRobin hearlier.policy_eq, htable]

end Run

structure Turns (id : ThreadId) (later : List (Transition P)) (after : Machine P) : Prop where
  increasing : (targets later).Pairwise fun first second => id.turn first < id.turn second
  created : ThreadId.idle ∉ targets later
  bounded : ∀ target ∈ targets later, id.turn target ≤ id.turn after.kernel.table.current

namespace Turns

variable {later : List (Transition P)} {m after : Machine P} {id : ThreadId} {move : Move}

theorem goes (h : Turns id later m) (hgoes : m.Goes move after)
    (hchoice : ∀ target, Transition.target? ⟨m, move⟩ = some target →
      target = Policy.roundRobin.choose m.kernel.table)
    (hmem : id ∈ m.kernel.table.createdIds) (hready : m.kernel.table.state id = .ready)
    (hcurrent : id ≠ m.kernel.table.current) : Turns id (later ++ [⟨m, move⟩]) after := by
  have hafter := hgoes.current_eq
  cases htarget : Transition.target? ⟨m, move⟩ with
  | none =>
      have hsame : targets (later ++ [⟨m, move⟩]) = targets later := by
        simp [targets, htarget]
      rw [htarget, Option.getD_none] at hafter
      exact ⟨hsame ▸ h.increasing, hsame ▸ h.created, by rw [hsame, hafter]; exact h.bounded⟩
  | some target =>
      have hmore : targets (later ++ [⟨m, move⟩]) = targets later ++ [target] := by
        simp [targets, htarget]
      rw [htarget, Option.getD_some] at hafter
      obtain ⟨hcreated, hturn⟩ := Policy.turn_lt_of_choose hmem hready hcurrent
      rw [← hchoice target htarget] at hcreated hturn
      have hlater : ∀ other ∈ targets later, id.turn other < id.turn target :=
        fun other hother => Nat.lt_of_le_of_lt (h.bounded other hother) hturn
      constructor
      · rw [hmore]
        apply List.pairwise_append.2
        refine ⟨h.increasing, List.pairwise_singleton _ _, ?_⟩
        intro other hother last hlast
        rw [List.mem_singleton.1 hlast]
        exact hlater other hother
      · rw [hmore, List.mem_append, List.mem_singleton]
        rintro (hidle | rfl)
        · exact h.created hidle
        · exact m.kernel.table.idle_not_mem_createdIds hcreated
      · rw [hmore, hafter]
        intro other hother
        rcases List.mem_append.1 hother with hother | hother
        · exact Nat.le_of_lt (hlater other hother)
        · rw [List.mem_singleton.1 hother]

omit [Backend P] in
theorem nodup (h : Turns id later after) : (targets later).Nodup := by
  apply h.increasing.imp
  rintro first second hlt rfl
  exact Nat.lt_irrefl _ hlt

omit [Backend P] in
theorem length_le (h : Turns id later after) : (targets later).length ≤ maxCreated := by
  have hall : (ThreadId.idle :: targets later).Nodup := List.nodup_cons.2 ⟨h.created, h.nodup⟩
  have hlength := hall.length_le_card
  rw [List.length_cons, Fintype.card_fin] at hlength
  exact Nat.le_of_succ_le_succ hlength

omit [Backend P] in
theorem mem_of_length (h : Turns id later after) (hid : id ≠ ThreadId.idle)
    (hlength : (targets later).length = maxCreated) : id ∈ targets later := by
  by_contra hnever
  have hcreated : ThreadId.idle ∉ id :: targets later := by
    rw [List.mem_cons]
    rintro (hidle | hidle)
    · exact hid hidle.symm
    · exact h.created hidle
  have hall : (ThreadId.idle :: id :: targets later).Nodup :=
    List.nodup_cons.2 ⟨hcreated, List.nodup_cons.2 ⟨hnever, h.nodup⟩⟩
  have hcard := hall.length_le_card
  rw [List.length_cons, List.length_cons, Fintype.card_fin, hlength] at hcard
  exact Nat.not_succ_le_self _ hcard

omit [Backend P] in
theorem eq_nil_of_mem (h : Turns id later after) {front back : List ThreadId}
    (hsplit : targets later = front ++ id :: back) : back = [] := by
  have hincreasing := h.increasing
  rw [hsplit] at hincreasing
  have hback := (List.pairwise_cons.1 (List.pairwise_append.1 hincreasing).2.1).1
  apply List.eq_nil_iff_forall_not_mem.2
  intro other hother
  have hlt := hback other hother
  have hle := id.turn_le other
  omega

end Turns

namespace Run

variable [LawfulBackend P] {config : Config} {cpu : P} {values : List Int32}
  {mutexes : Nat} {console : Console} {past later : List (Transition P)} {m after : Machine P}
  {id : ThreadId}

theorem turns (run : Run (.fresh config .roundRobin cpu values mutexes console) past m)
    (more : Run m later after)
    (hchoice : ∀ t ∈ later, ∀ target, t.target? = some target → target = t.before.kernel.choice)
    (hid : id ≠ ThreadId.idle) (hcontains : m.kernel.table.contains id = true)
    (hready : ∀ t ∈ later, t.before.kernel.table.state id = .ready) : Turns id later after := by
  induction more with
  | nil => exact ⟨List.Pairwise.nil, List.not_mem_nil, nofun⟩
  | @snoc later middle move more allowed ih =>
      have hlast : (⟨middle, move⟩ : Transition P) ∈ later ++ [⟨middle, move⟩] := by simp
      have hwhole := run.trans more
      have hturns := ih (fun t hmem => hchoice t (List.mem_append_left _ hmem))
        fun t hmem => hready t (List.mem_append_left _ hmem)
      apply hturns.goes (middle.goes_after allowed)
      · intro target htarget
        rw [hchoice _ hlast target htarget, Kernel.choice_of_roundRobin hwhole.policy_eq]
      · exact ThreadTable.mem_createdIds_of_contains (more.contains_of_run hcontains) hid
      · exact hready _ hlast
      · intro hcurrent
        have hsteady := hwhole.steady Policy.sound_roundRobin
        rw [Machine.Steady, ← hcurrent] at hsteady
        exact hsteady hid (hready _ hlast)

/--
Under round robin, whatever was done before, let every dispatch from now on be one
that the policy was asked for.  Each is then that of the thread which the policy
chooses there, and the idle thread is chosen only when no created thread is ready and
the current one, if it was created, does not go on running.  While a created thread
stays ready, no thread is dispatched twice, the idle thread not at all, and nobody
after the thread itself; so by the time as many were dispatched as there are slots for
created threads, the thread itself was the last of them.
-/
theorem bounded_bypass (run : Run (.fresh config .roundRobin cpu values mutexes console) past m)
    (more : Run m later after) (hrescheduled : Rescheduled (latest past) later) :
    (∀ t ∈ later, ∀ target, t.step? = some (.dispatch target) →
      target = t.before.kernel.choice) ∧
    (∀ t ∈ later, t.before.kernel.choice = ThreadId.idle →
      (∀ id, t.before.kernel.table.contains id = true → id ≠ ThreadId.idle →
        t.before.kernel.table.state id ≠ .ready) ∧
      (t.before.kernel.table.current ≠ ThreadId.idle →
        t.before.kernel.table.state t.before.kernel.table.current ≠ .running)) ∧
    ∀ id, id ≠ ThreadId.idle → m.kernel.table.contains id = true →
      (∀ t ∈ later, t.before.kernel.table.state id = .ready) →
        (targets later).Nodup ∧ ThreadId.idle ∉ targets later ∧
          (targets later).length ≤ maxCreated ∧
            (∀ front back, targets later = front ++ id :: back → back = []) ∧
              ((targets later).length = maxCreated → id ∈ targets later) := by
  have hchoice : ∀ t ∈ later, ∀ target, t.target? = some target →
      target = t.before.kernel.choice :=
    fun t hmem target htarget => run.target_eq_choice more hrescheduled hmem htarget
  refine ⟨?_, ?_, ?_⟩
  · intro t hmem target hstep
    exact hchoice t hmem target (by rw [Transition.target?, hstep])
  · intro t hmem hidle
    obtain ⟨before, others, rfl⟩ := List.append_of_mem hmem
    have hwhole := run.trans more
    rw [← List.append_assoc] at hwhole
    exact hwhole.before.1.none_ready_of_choice hidle
  · intro id hid hcontains hready
    have hturns := run.turns more hchoice hid hcontains hready
    exact ⟨hturns.nodup, hturns.created, hturns.length_le,
      fun front back hsplit => hturns.eq_nil_of_mem hsplit, hturns.mem_of_length hid⟩

/-- The idle thread creates three threads. -/
def crew : List Move :=
  .call (.create "first" ⟨0x1000, 0⟩ 4096 (some 0x10000)) :: List.replicate 20 .exec
    ++ .call (.create "second" ⟨0x1000, 0⟩ 4096 (some 0x20000)) :: List.replicate 20 .exec
    ++ .call (.create "third" ⟨0x1000, 0⟩ 4096 (some 0x30000)) :: List.replicate 20 .exec

/-- The idle thread and the first two of them yield, one after the other. -/
def relay : List Move :=
  .call .yield :: List.replicate 13 .exec ++ .call .yield :: List.replicate 13 .exec
    ++ .call .yield :: List.replicate 9 .exec

/-- The third thread gets its turn after one dispatch of each of the others. -/
theorem bounded_bypass_of_relay :
    ∃ (past later : List (Transition Host)) (m after : Machine Host),
      Run (.fresh {} .roundRobin {} [] 0 { sinks := [], installed := none }) past m ∧
        Run m later after ∧ targets later = [0, 1, 2] ∧ (targets later).Nodup ∧
          (targets later).length ≤ maxCreated ∧
            ∀ front back, targets later = front ++ 2 :: back → back = [] := by
  let start : Machine Host := .fresh {} .roundRobin {} [] 0 { sinks := [], installed := none }
  let m := crew.foldl Machine.after start
  have run : Run start (start.transitions crew) m := .of_plays (by decide +kernel)
  have more : Run m (m.transitions relay) (relay.foldl Machine.after m) :=
    .of_plays (by decide +kernel)
  have hrescheduled : Rescheduled (latest (start.transitions crew)) (m.transitions relay) := by
    decide +kernel
  have hready : ∀ t ∈ m.transitions relay, t.before.kernel.table.state 2 = .ready := by
    decide +kernel
  obtain ⟨hnodup, -, hlength, hlast, -⟩ :=
    (bounded_bypass run more hrescheduled).2.2 2 (by decide) (by decide +kernel) hready
  exact ⟨_, _, m, _, run, more, by decide +kernel, hnodup, hlength, hlast⟩

end Run

end TickKernel
