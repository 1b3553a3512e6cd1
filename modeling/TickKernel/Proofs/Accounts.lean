import Mathlib.Algebra.BigOperators.Group.Finset.Basic
import Mathlib.Data.Fintype.Basic
import TickKernel.Proofs.Punctuality
import TickKernel.Proofs.Roster

/-!
# Dispatches and intervals

Every dispatch of a thread is counted in the statistics interval in which it happens.  The
history tells which those are: a list of intervals, each the list of the threads dispatched in
it.  The counters of a control block are two of the lengths, as far as their words go.
-/

namespace TickKernel

variable {P : Type}

/-! ## Intervals -/

def Transition.closes (t : Transition P) : Bool :=
  t.step? == some .closeInterval

/-- The thread for which a dispatch counts: the one that has the slot at that time. -/
def Transition.credited? (t : Transition P) : Option ThreadId :=
  t.dispatched?.filter fun id => t.before.kernel.table.contains id

/--
The threads dispatched in each statistics interval of a run, newest first in both lists.  The
idle thread is counted as dispatched when its kernel is created.
-/
def intervals (past : List (Transition P)) : List (List ThreadId) :=
  past.foldl
    (fun parts t =>
      if t.closes then [] :: parts else parts.modifyHead (t.credited?.toList ++ ·))
    [[ThreadId.idle]]

def thisInterval (past : List (Transition P)) : List ThreadId :=
  (intervals past).headD []

def lastInterval (past : List (Transition P)) : List ThreadId :=
  (intervals past).tail.headD []

section

variable {past : List (Transition P)} {t : Transition P} {id : ThreadId}

theorem intervals_of_closes (h : t.closes = true) :
    intervals (past ++ [t]) = [] :: intervals past := by
  simp [intervals, h]

theorem intervals_of_not_closes (h : t.closes = false) :
    intervals (past ++ [t]) = (intervals past).modifyHead (t.credited?.toList ++ ·) := by
  simp [intervals, h]

theorem intervals_ne_nil (past : List (Transition P)) : intervals past ≠ [] := by
  induction past using List.reverseRecOn with
  | nil => exact List.cons_ne_nil _ _
  | append_singleton past t ih =>
      cases hcloses : t.closes with
      | true =>
          rw [intervals_of_closes hcloses]
          exact List.cons_ne_nil _ _
      | false =>
          rw [intervals_of_not_closes hcloses]
          exact fun hnil => ih (List.modifyHead_eq_nil_iff.1 hnil)

theorem intervals_eq (past : List (Transition P)) :
    ∃ older, intervals past = thisInterval past :: older ∧ lastInterval past = older.headD [] := by
  obtain ⟨part, older, hparts⟩ := List.exists_cons_of_ne_nil (intervals_ne_nil past)
  exact ⟨older, by rw [thisInterval, hparts]; rfl, by rw [lastInterval, hparts]; rfl⟩

theorem interval_of_closes (past : List (Transition P)) (h : t.closes = true) :
    thisInterval (past ++ [t]) = [] ∧ lastInterval (past ++ [t]) = thisInterval past := by
  rw [thisInterval, lastInterval, intervals_of_closes h]
  exact ⟨rfl, rfl⟩

theorem interval_of_not_closes (past : List (Transition P)) (h : t.closes = false) :
    thisInterval (past ++ [t]) = t.credited?.toList ++ thisInterval past ∧
      lastInterval (past ++ [t]) = lastInterval past := by
  obtain ⟨older, hparts, hlast⟩ := intervals_eq past
  have hafter : intervals (past ++ [t]) = _ := intervals_of_not_closes h
  rw [hparts, List.modifyHead_cons] at hafter
  rw [hlast, thisInterval, lastInterval, hafter]
  exact ⟨rfl, rfl⟩

/-- A dispatch counts for its target if that exists and is not handed the processor back. -/
theorem credited?_eq_some_iff : t.credited? = some id ↔
    t.step? = some (.dispatch id) ∧ t.before.kernel.table.handsBack id = false ∧
      t.before.kernel.table.contains id = true := by
  rw [Transition.credited?, Option.filter_eq_some_iff, ← and_assoc]
  refine and_congr_left fun _ => ?_
  unfold Transition.dispatched?
  split
  next target hstep =>
      rw [hstep, Option.some.injEq, Step.dispatch.injEq]
      split
      next hback =>
          simp only [reduceCtorEq, false_iff, not_and, Bool.not_eq_false]
          rintro rfl
          exact hback
      next hback =>
          rw [Option.some.injEq, Bool.not_eq_true] at *
          exact ⟨fun heq => ⟨heq, heq ▸ hback⟩, And.left⟩
  next hother =>
      simp only [reduceCtorEq, false_iff, not_and]
      exact fun hstep => absurd hstep (hother id)

theorem credited?_eq_none (h : ∀ target, t.step? ≠ some (.dispatch target)) :
    t.credited? = none := by
  rw [Option.eq_none_iff_forall_ne_some]
  exact fun id hcredited => h id (credited?_eq_some_iff.1 hcredited).1

/-- No dispatch is lost and none is counted twice. -/
theorem flatten_intervals (past : List (Transition P)) :
    (intervals past).flatten =
      (past.filterMap Transition.credited?).reverse ++ [ThreadId.idle] := by
  induction past using List.reverseRecOn with
  | nil => rfl
  | append_singleton past t ih =>
      rw [List.filterMap_append, List.reverse_append, List.append_assoc, ← ih]
      cases hcloses : t.closes with
      | true =>
          have hnone : t.credited? = none := by
            refine credited?_eq_none fun target hstep => ?_
            rw [Transition.closes, hstep] at hcloses
            cases hcloses
          rw [intervals_of_closes hcloses]
          simp [hnone]
      | false =>
          obtain ⟨older, hparts, -⟩ := intervals_eq past
          rw [intervals_of_not_closes hcloses, hparts]
          cases ht : t.credited? <;> simp [ht]

end

/-! ## Counters after a step -/

def Step.dispatchesAfter (table : ThreadTable) (id : ThreadId) : Step → UInt32
  | .dispatch target =>
      if table.handsBack target = false ∧ id = target then (table.block id).dispatches + 1
      else (table.block id).dispatches
  | .closeInterval => 0
  | .enroll _ _ => if table.isNext id then 0 else (table.block id).dispatches
  | _ => (table.block id).dispatches

def Step.lastDispatchesAfter (table : ThreadTable) (id : ThreadId) : Step → UInt32
  | .closeInterval => (table.block id).dispatches
  | .enroll _ _ => if table.isNext id then 0 else (table.block id).lastDispatches
  | _ => (table.block id).lastDispatches

namespace ControlBlock

def counters (block : ControlBlock) : UInt32 × UInt32 :=
  (block.dispatches, block.lastDispatches)

@[simp]
theorem counters_preempted (block : ControlBlock) : block.preempted.counters = block.counters := by
  unfold preempted
  split <;> rfl

@[simp]
theorem counters_woken (block : ControlBlock) : block.woken.counters = block.counters := by
  unfold woken
  split <;> rfl

@[simp]
theorem counters_countDown (block : ControlBlock) : block.countDown.counters = block.counters := by
  unfold countDown
  split <;> rfl

end ControlBlock

/-- Blocking, waking and sleeping count nothing, and a dispatch counts for its target. -/
theorem Step.counters_tableAfter (step : Step) (table : ThreadTable) (id : ThreadId) :
    ((step.tableAfter table).block id).counters =
      (step.dispatchesAfter table id, step.lastDispatchesAfter table id) := by
  cases step <;> try rfl
  case dispatch target =>
      simp only [tableAfter, ThreadTable.block_dispatch, dispatchesAfter, lastDispatchesAfter]
      cases hback : table.handsBack target with
      | true => simp [ControlBlock.counters]
      | false =>
          by_cases hid : id = target
          · subst hid
            simp only [Bool.false_eq_true, if_false, if_true, and_self]
            -- the current thread may dispatch itself, and is preempted first
            have hsame :
                (if id = table.current then (table.block id).preempted
                  else table.block id).counters = (table.block id).counters := by
              split
              · exact ControlBlock.counters_preempted _
              · rfl
            simp only [ControlBlock.counters, Prod.mk.injEq] at hsame
            simp only [ControlBlock.counters, ControlBlock.dispatched, hsame.1, hsame.2]
          · simp only [Bool.false_eq_true, if_false, hid, and_false]
            split
            · exact ControlBlock.counters_preempted _
            · rfl
  case block =>
      simp only [tableAfter, ThreadTable.block_modifyCurrent]
      split <;> rfl
  case doze ticks =>
      simp only [tableAfter, ThreadTable.block_modifyCurrent]
      split <;> rfl
  case wake woken =>
      simp only [tableAfter, ThreadTable.block_wake]
      split
      · exact ControlBlock.counters_woken _
      · rfl
  case countDown =>
      simp only [tableAfter, ThreadTable.block_countDown]
      split
      · exact ControlBlock.counters_countDown _
      · rfl
  case closeInterval => rw [tableAfter, ThreadTable.block_closeInterval]; rfl
  case enroll creation stack =>
      simp only [tableAfter, ThreadTable.block_insert, dispatchesAfter, lastDispatchesAfter]
      split <;> rfl

/-- Every step but the closing of an interval adds to a counter what it is credited with. -/
theorem Step.dispatchesAfter_eq {t : Transition P} {step : Step} {id : ThreadId}
    (hstep : t.step? = some step) (hcontains : t.before.kernel.table.contains id = true)
    (hcloses : step ≠ .closeInterval) :
    step.dispatchesAfter t.before.kernel.table id =
      UInt32.ofNat (t.credited?.toList.count id) + (t.before.kernel.table.block id).dispatches := by
  have hother : t.credited? ≠ some id → UInt32.ofNat (t.credited?.toList.count id) = 0 := by
    intro hne
    have hcount : t.credited?.toList.count id = 0 :=
      List.count_eq_zero.2 fun hmem => hne (Option.mem_toList.1 hmem)
    rw [hcount]
    rfl
  cases step
  case closeInterval => exact absurd rfl hcloses
  case dispatch target =>
      rw [dispatchesAfter]
      split
      next hgiven =>
          obtain ⟨hback, rfl⟩ := hgiven
          have hcredited : t.credited? = some id :=
            credited?_eq_some_iff.2 ⟨hstep, hback, hcontains⟩
          rw [hcredited, Option.toList_some, List.count_singleton_self, UInt32.add_comm]
          rfl
      next hkept =>
          rw [hother, UInt32.zero_add]
          intro hcredited
          obtain ⟨hdispatch, hback, -⟩ := credited?_eq_some_iff.1 hcredited
          rw [hstep, Option.some.injEq, Step.dispatch.injEq] at hdispatch
          subst hdispatch
          exact hkept ⟨hback, rfl⟩
  case enroll creation stack =>
      rw [credited?_eq_none (by simp [hstep]), dispatchesAfter,
        ThreadTable.isNext_eq_false hcontains]
      exact (UInt32.zero_add _).symm
  all_goals
    rw [credited?_eq_none (by simp [hstep])]
    exact (UInt32.zero_add _).symm

theorem Step.lastDispatchesAfter_eq {step : Step} {table : ThreadTable} {id : ThreadId}
    (hcontains : table.contains id = true) (hcloses : step ≠ .closeInterval) :
    step.lastDispatchesAfter table id = (table.block id).lastDispatches := by
  cases step
  case closeInterval => exact absurd rfl hcloses
  case enroll creation stack =>
      rw [lastDispatchesAfter, ThreadTable.isNext_eq_false hcontains]
      rfl
  all_goals rfl

namespace Machine

/--
The counters of every thread that exists show how often it was dispatched in the open interval
and in the last one, and nobody else was.
-/
structure Credited (past : List (Transition P)) (m : Machine P) : Prop where
  known : ∀ id ∈ (intervals past).flatten, m.kernel.table.contains id = true
  current : ∀ id, m.kernel.table.contains id = true →
    (m.kernel.table.block id).dispatches = UInt32.ofNat ((thisInterval past).count id)
  closed : ∀ id, m.kernel.table.contains id = true →
    (m.kernel.table.block id).lastDispatches = UInt32.ofNat ((lastInterval past).count id)

variable {past : List (Transition P)} {m after : Machine P} {step : Step} {rest pushed : List Step}
  {move : Move} {id : ThreadId}

namespace Credited

theorem count_eq_zero (h : m.Credited past) (hcontains : m.kernel.table.contains id = false) :
    (thisInterval past).count id = 0 ∧ (lastInterval past).count id = 0 := by
  obtain ⟨older, hparts, hlast⟩ := intervals_eq past
  have hnot : ∀ part ∈ intervals past, id ∉ part := by
    intro part hpart hmem
    rw [h.known id (List.mem_flatten.2 ⟨part, hpart, hmem⟩)] at hcontains
    cases hcontains
  rw [hparts, List.forall_mem_cons] at hnot
  refine ⟨List.count_eq_zero.2 hnot.1, List.count_eq_zero.2 ?_⟩
  rw [hlast]
  cases older with
  | nil => exact List.not_mem_nil
  | cons part older => exact hnot.2 part List.mem_cons_self

theorem known_append (h : m.Credited past)
    (hkept : ∀ id, m.kernel.table.contains id = true → after.kernel.table.contains id = true) :
    ∀ id ∈ (intervals (past ++ [⟨m, move⟩])).flatten, after.kernel.table.contains id = true := by
  intro id hmem
  rw [flatten_intervals, List.filterMap_append, List.reverse_append, List.append_assoc,
    ← flatten_intervals, List.mem_append, List.mem_reverse, List.mem_filterMap] at hmem
  refine hkept id ?_
  rcases hmem with ⟨t, ht, hcredited⟩ | hmem
  · obtain rfl := List.mem_singleton.1 ht
    exact (credited?_eq_some_iff.1 hcredited).2.2
  · exact h.known id hmem

theorem of_table (h : m.Credited past) (hcloses : Transition.closes ⟨m, move⟩ = false)
    (hnone : Transition.credited? ⟨m, move⟩ = none)
    (htable : after.kernel.table = m.kernel.table) : after.Credited (past ++ [⟨m, move⟩]) := by
  obtain ⟨hthis, hlast⟩ := interval_of_not_closes past hcloses
  rw [hnone, Option.toList_none, List.nil_append] at hthis
  constructor
  · exact h.known_append fun id hcontains => htable ▸ hcontains
  · rw [hthis, htable]
    exact h.current
  · rw [hlast, htable]
    exact h.closed

/-- Over all threads, the dispatches of an interval are all there were. -/
theorem sum_count (h : m.Credited past) {part : List ThreadId}
    (hpart : part ∈ intervals past) :
    ∑ id with m.kernel.table.contains id, part.count id = part.length := by
  have hsum := Multiset.sum_count_eq_card (s := {id | m.kernel.table.contains id})
    (m := (part : Multiset ThreadId)) fun id hmem => Finset.mem_filter.2
      ⟨Finset.mem_univ id, h.known id (List.mem_flatten.2 ⟨part, hpart, Multiset.mem_coe.1 hmem⟩)⟩
  simpa only [Multiset.coe_count, Multiset.coe_card] using hsum

variable [Backend P]

theorem perform (h : m.Credited past) (hstepped : m.Stepped step rest pushed after) :
    after.Credited (past ++ [⟨m, .exec⟩]) := by
  have hstep := hstepped.step?_eq
  have htable := hstepped.effect.table
  suffices hcounters : ∀ id, after.kernel.table.contains id = true →
      (after.kernel.table.block id).counters =
        (UInt32.ofNat ((thisInterval (past ++ [⟨m, .exec⟩])).count id),
          UInt32.ofNat ((lastInterval (past ++ [⟨m, .exec⟩])).count id)) from
    ⟨h.known_append fun id hcontains => htable ▸ Step.contains_tableAfter hcontains,
      fun id hcontains => congrArg Prod.fst (hcounters id hcontains),
      fun id hcontains => congrArg Prod.snd (hcounters id hcontains)⟩
  intro id hcontains
  rw [htable] at hcontains ⊢
  rw [Step.counters_tableAfter, Prod.mk.injEq]
  by_cases hclose : step = .closeInterval
  · subst hclose
    obtain ⟨hthis, hlast⟩ := interval_of_closes past (t := ⟨m, .exec⟩)
      (by rw [Transition.closes, hstep]; rfl)
    rw [hthis, hlast]
    exact ⟨rfl, h.current id hcontains⟩
  · obtain ⟨hthis, hlast⟩ := interval_of_not_closes past (t := ⟨m, .exec⟩)
      (by rw [Transition.closes, hstep]; simp [hclose])
    rw [hthis, hlast, List.count_append, UInt32.ofNat_add]
    rcases Step.contains_before hcontains with hbefore | ⟨hnext, creation, stack, rfl⟩
    · rw [← h.current id hbefore, ← h.closed id hbefore]
      exact ⟨Step.dispatchesAfter_eq hstep hbefore hclose,
        Step.lastDispatchesAfter_eq hbefore hclose⟩
    · -- whoever is entered now was dispatched in none of the intervals so far
      have hnew : m.kernel.table.contains id = false := by
        rw [← Bool.not_eq_true]
        intro hold
        rw [ThreadTable.isNext_eq_false hold] at hnext
        cases hnext
      obtain ⟨hthis, hlast⟩ := h.count_eq_zero hnew
      rw [hthis, hlast, credited?_eq_none (by simp [hstep]), Step.dispatchesAfter,
        Step.lastDispatchesAfter, if_pos hnext, if_pos hnext]
      exact ⟨rfl, rfl⟩

theorem goes (h : m.Credited past) (hgoes : m.Goes move after) :
    after.Credited (past ++ [⟨m, move⟩]) := by
  cases hgoes with
  | spin hnone =>
      exact h.of_table (by rw [Transition.closes, hnone]; rfl)
        (credited?_eq_none (by simp [hnone])) rfl
  | step hstepped => exact h.perform hstepped
  | switch hcode hswitched =>
      have hstep := step?_of_switch hcode
      refine h.of_table (by rw [Transition.closes, hstep]; rfl)
        (credited?_eq_none (by simp [hstep])) ?_
      rw [hswitched.kernel]
      rfl
  | call | interrupt =>
      exact h.of_table rfl (credited?_eq_none (by simp [Transition.step?])) rfl

end Credited

end Machine

/-! ## Runs -/

section

variable [Backend P] {number : Nat} {config : Config} {policy : Policy} {cpu : P}
  {values : List Int32} {mutexes : Nat} {console : Console} {past : List (Transition P)}
  {m : Machine P}

theorem SharedRun.credited
    (run : SharedRun (.boot (.new number config policy cpu) (.new values mutexes console)) past m) :
    m.Credited past := by
  refine run.invariant (fun past m => m.Credited past) ?_ (fun _ _ _ _ h hgoes => h.goes hgoes)
    fun _ _ _ _ h _ _ => ⟨h.known, h.current, h.closed⟩
  have hblock : ∀ id, ThreadTable.initial.contains id = true → id = ThreadId.idle := by
    intro id hcontains
    simpa [ThreadTable.contains, ThreadTable.initial] using hcontains
  constructor
  · intro id hmem
    obtain rfl : id = ThreadId.idle := by simpa [intervals] using hmem
    exact ThreadTable.contains_idle _
  · intro id hcontains
    rw [hblock id hcontains]
    rfl
  · intro id hcontains
    rw [hblock id hcontains]
    rfl

/--
Dispatches are accounted for, by whatever policy.  Of every thread that exists, the counters show
how often it was dispatched in the open interval and in the last one, as far as their words go.
The closed intervals and the open one make up all the dispatches, and that of the idle thread at
the start.  An interval closes at a tick whose number the configuration divides, between the
countdown of the sleeping threads and the choice of the thread to be dispatched at that tick.
-/
theorem SharedRun.dispatch_accounting [LawfulBackend P]
    (run : SharedRun (.boot (.new number config policy cpu) (.new values mutexes console)) past m) :
    (∀ id, m.kernel.table.contains id = true →
        (m.kernel.table.block id).dispatches.toNat
            = (thisInterval past).count id % UInt32.size ∧
          (m.kernel.table.block id).lastDispatches.toNat
            = (lastInterval past).count id % UInt32.size) ∧
      (intervals past).flatten = (past.filterMap Transition.credited?).reverse ++ [ThreadId.idle] ∧
      ((intervals past).map fun part =>
          ∑ id with m.kernel.table.contains id, part.count id).sum
        = (past.filterMap Transition.credited?).length + 1 ∧
      m.kernel.ticks.ticks = UInt64.ofNat (ticksIn past) ∧
      ∀ before t later, past = before ++ t :: later → t.isIdle = false →
        TickOrder config before t := by
  have hcredited := run.credited
  refine ⟨fun id hcontains => ⟨?_, ?_⟩, flatten_intervals past, ?_, run.ticks_eq, ?_⟩
  · rw [hcredited.current id hcontains]
    exact UInt32.toNat_ofNat'
  · rw [hcredited.closed id hcontains]
    exact UInt32.toNat_ofNat'
  · calc ((intervals past).map fun part =>
          ∑ id with m.kernel.table.contains id, part.count id).sum
        = ((intervals past).map List.length).sum :=
          congrArg List.sum (List.map_congr_left fun part => hcredited.sum_count)
      _ = (intervals past).flatten.length := List.length_flatten.symm
      _ = (past.filterMap Transition.credited?).length + 1 := by
          rw [flatten_intervals, List.length_append, List.length_reverse, List.length_singleton]
  · intro before t later hpast hidle
    subst hpast
    exact run.tickOrder hidle

/-- Under a policy that keeps its contract every dispatch counts for a thread. -/
theorem OwnRun.credited?_eq [LawfulBackend P] (hpolicy : policy.Sound)
    (run : OwnRun (.boot (.new number config policy cpu) (.new values mutexes console)) past m)
    {t : Transition P} (hmem : t ∈ past) : t.credited? = t.dispatched? := by
  rw [Transition.credited?]
  cases hdispatched : t.dispatched? with
  | none => rfl
  | some id =>
      refine Option.filter_some_pos (run.contains_of_names hpolicy hmem (.inl ?_))
      unfold Transition.dispatched? at hdispatched
      split at hdispatched
      next target hstep =>
          split at hdispatched
          next => cases hdispatched
          next =>
              rw [hstep, ← Option.some.inj hdispatched]
              rfl
      next => cases hdispatched

end

/-- A new thread gets the processor at the first tick and gets it again at the second. -/
def shift : List Move :=
  .call (.create "worker" ⟨0x3000, 7⟩ 4096 (some 0x10000)) :: List.replicate 20 .exec
    ++ .call .tick :: List.replicate 17 .exec
    ++ .interrupt :: List.replicate 17 .exec

/-- With an interval of two ticks, the dispatch at the second tick counts for the next one. -/
theorem SharedRun.dispatch_accounting_of_shift :
    ∃ (past : List (Transition Host)) (m : Machine Host),
      SharedRun (.boot (.new 1 { statsInterval := 2 } .roundRobin {})
          (.new [] 0 { sinks := [], installed := none })) past m ∧
        intervals past = [[0], [0, ThreadId.idle]] ∧
        (m.kernel.table.block 0).dispatches.toNat = 1 ∧
        (m.kernel.table.block 0).lastDispatches.toNat = 1 ∧
        m.kernel.ticks.ticks = 2 := by
  let start : Machine Host := .boot (.new 1 { statsInterval := 2 } .roundRobin {})
    (.new [] 0 { sinks := [], installed := none })
  let past := start.transitions shift
  let m := shift.foldl Machine.after start
  have run : SharedRun start past m := Run.sharedRun (.of_plays (by decide +kernel))
  have hintervals : intervals past = [[0], [0, ThreadId.idle]] := by decide +kernel
  have hthis : (thisInterval past).count 0 = 1 := by rw [thisInterval, hintervals]; rfl
  have hlast : (lastInterval past).count 0 = 1 := by rw [lastInterval, hintervals]; rfl
  have hticks : ticksIn past = 2 := by decide +kernel
  obtain ⟨hcounters, -, -, hcounted, -⟩ := SharedRun.dispatch_accounting run
  obtain ⟨hdispatches, hlastDispatches⟩ := hcounters 0 (by decide +kernel)
  rw [hthis] at hdispatches
  rw [hlast] at hlastDispatches
  rw [hticks] at hcounted
  exact ⟨past, m, run, hintervals, hdispatches, hlastDispatches, hcounted⟩

end TickKernel
