import Mathlib.Data.Finset.Card
import TickKernel.Proofs.Waiters

/-!
# Standing in line for a unit

Where a thread stands with a semaphore follows from what happened: it found no unit
and queued up, a signal took it off the queue, or it looked again.  As long as
anybody is queued, a thread was woken for every unit that there is: units are given
back one at a time, and whoever takes one stands in line no more.
-/

namespace TickKernel

inductive Standing where
  /-- It does not wait for a unit, or has not looked for one yet. -/
  | out
  /-- It found no unit and queued up. -/
  | queued
  /-- A signal took it off the queue, and it has not looked again. -/
  | woken
  deriving DecidableEq, Repr

def Shared.isShort (shared : Shared) (index : Nat) : Bool :=
  (shared.stock index).any fun value => !decide (0 < value)

/-- Whose standing with a semaphore a step changes, and what becomes of it. -/
def Step.restands (shared : Shared) (index : Nat) : Step → Option (ThreadId × Standing)
  | .tryTake other me =>
      if other = index then some (me, if shared.isShort index then .queued else .out) else none
  | .giveBack other _ =>
      if other = index then (shared.semaphoreLine index).head?.map (·, .woken) else none
  | _ => none

variable {P : Type}

def Transition.restands (t : Transition P) (index : Nat) : Option (ThreadId × Standing) :=
  match t.move with
  | .call _ => some (t.before.executing, .out)
  | .exec | .interrupt => t.step?.bind (Step.restands t.before.shared index)

def standing (past : List (Transition P)) (index : Nat) : ThreadId → Standing :=
  past.foldl
    (fun standing t => (t.restands index).elim standing fun turn =>
      Function.update standing turn.1 turn.2)
    fun _ => .out

section Standing

variable (past : List (Transition P)) (m : Machine P) (index : Nat)

theorem standing_append (t : Transition P) :
    standing (past ++ [t]) index =
      (t.restands index).elim (standing past index) fun turn =>
        Function.update (standing past index) turn.1 turn.2 := by
  rw [standing, List.foldl_append]
  rfl

@[simp]
theorem standing_interrupt :
    standing (past ++ [⟨m, .interrupt⟩]) index = standing past index :=
  standing_append past index ⟨m, .interrupt⟩

theorem standing_call (request : Request) :
    standing (past ++ [⟨m, .call request⟩]) index =
      Function.update (standing past index) m.executing .out :=
  standing_append past index ⟨m, .call request⟩

theorem standing_exec_of_step? {step : Option Step} (h : Transition.step? ⟨m, .exec⟩ = step) :
    standing (past ++ [⟨m, .exec⟩]) index =
      (step.bind (Step.restands m.shared index)).elim (standing past index) fun turn =>
        Function.update (standing past index) turn.1 turn.2 := by
  rw [standing_append, Transition.restands, h]

end Standing

/-! ## One semaphore in one step -/

/-- What a step does to a semaphore, and whose standing with it changes. -/
inductive Shared.Turns (before after : Shared) (index : Nat) :
    Step → Option (ThreadId × Standing) → Prop where
  | kept {step : Step} : after.stock index = before.stock index →
      after.semaphoreLine index = before.semaphoreLine index → Turns before after index step none
  | absent {me : ThreadId} : after.stock index = none → before.semaphoreLine index = [] →
      after.semaphoreLine index = [] →
        Turns before after index (.tryTake index me) (some (me, .out))
  | taken {me : ThreadId} {value : Int32} : before.stock index = some value → 0 < value →
      after.stock index = some (value - 1) →
        after.semaphoreLine index = before.semaphoreLine index →
          Turns before after index (.tryTake index me) (some (me, .out))
  | short {me : ThreadId} {value : Int32} : before.stock index = some value → ¬ 0 < value →
      after.stock index = some value →
        after.semaphoreLine index =
          (if me ∈ before.semaphoreLine index then before.semaphoreLine index
            else before.semaphoreLine index ++ [me]) →
          Turns before after index (.tryTake index me) (some (me, .queued))
  | given {andSwitch : Bool} : before.semaphoreLine index = [] →
      after.semaphoreLine index = [] → Turns before after index (.giveBack index andSwitch) none
  | woken {andSwitch : Bool} {value : Int32} {heir : ThreadId} {line : List ThreadId} :
      before.stock index = some value → before.semaphoreLine index = heir :: line →
        after.stock index = some (Semaphore.bumped value) → after.semaphoreLine index = line →
          Turns before after index (.giveBack index andSwitch) (some (heir, .woken))

theorem Shared.Deals.turns {before after : Shared} {step : Step} {pushed : List Step} {index : Nat}
    (h : before.Deals after step pushed) (hown : step.semaphore? = some index) :
    before.Turns after index step (step.restands before index) := by
  cases h with
  | @absent _ me hnone hafter hline =>
      cases hown
      have hempty := Shared.semaphoreLine_eq_nil hnone
      rw [Step.restands, if_pos rfl, isShort, hnone]
      refine .absent ?_ hempty ?_
      · rw [hafter, hnone]
      · rw [hline, hempty]
  | @taken _ me value hsome hpos hafter hline =>
      cases hown
      have hrich : before.isShort index = false := by simp [isShort, hsome, hpos]
      rw [Step.restands, if_pos rfl, hrich]
      refine .taken hsome hpos ?_ (by rw [hline])
      rw [hafter, Function.update_self]
  | @short _ me value hsome hnot hafter hline =>
      cases hown
      have hshort : before.isShort index = true := by simpa [isShort, hsome] using hnot
      rw [Step.restands, if_pos rfl, hshort]
      refine .short hsome hnot ?_ ?_
      · rw [hafter, hsome]
      · rw [hline, Function.update_self]
  | lost hnone hafter hline =>
      cases hown
      have hempty := Shared.semaphoreLine_eq_nil hnone
      rw [Step.restands, if_pos rfl, hempty]
      exact .given hempty (by rw [hline, hempty])
  | given hsome hempty hafter hline =>
      cases hown
      rw [Step.restands, if_pos rfl, hempty]
      exact .given hempty (by rw [hline, hempty])
  | woken hsome hold hafter hline =>
      cases hown
      rw [Step.restands, if_pos rfl, hold]
      refine .woken hsome hold ?_ ?_
      · rw [hafter, Function.update_self]
      · rw [hline, Function.update_self]

theorem Machine.Stepped.turns [Backend P] {m after : Machine P} {step : Step}
    {rest pushed : List Step} (hstepped : m.Stepped step rest pushed after)
    (hobjects : m.shared.Sound) (index : Nat) :
    m.shared.Turns after.shared index step (step.restands m.shared index) := by
  by_cases hown : step.semaphore? = some index
  · exact (hstepped.deals hobjects (Step.asksSemaphore_of_semaphore? hown)).1.turns hown
  · have hnobody : step.restands m.shared index = none := by
      cases step <;> first | rfl | exact if_neg fun heq => hown (congrArg some heq)
    obtain ⟨hstock, hline⟩ := hstepped.semaphore_other hobjects hown
    rw [hnobody]
    exact .kept hstock hline

/-! ## Units and woken threads -/

theorem Semaphore.toInt_sub_one {value : Int32} (h : 0 < value) :
    (value - 1).toInt = value.toInt - 1 := by
  have hpos : (0 : Int32).toInt < value.toInt := Int32.lt_iff_toInt_lt.1 h
  exact Int32.toInt_sub_of_le value 1 (by decide) (Int32.le_iff_toInt_le.2 hpos)

/-- A unit that is given back counts, unless the value stands at the greatest. -/
theorem Semaphore.toInt_bumped {value : Int32} (hroom : value ≠ Int32.maxValue) :
    (bumped value).toInt = value.toInt + 1 := by
  have hless : value.toInt < Int32.maxValue.toInt :=
    lt_of_le_of_ne value.toInt_le fun heq => hroom (Int32.toInt_inj.1 heq)
  have hlow := value.le_toInt
  have hmax : Int32.maxValue.toInt = 2 ^ 31 - 1 := rfl
  have hone : (1 : Int32).toInt = 1 := rfl
  rw [bumped, if_neg hroom, Int32.toInt_add, hone, Int.bmod_eq_of_le (by omega) (by omega)]

theorem Semaphore.toInt_bumped_mem (value : Int32) :
    value.toInt ≤ (bumped value).toInt ∧ (bumped value).toInt ≤ value.toInt + 1 := by
  by_cases hroom : value = Int32.maxValue
  · rw [bumped, if_pos hroom]
    omega
  · rw [toInt_bumped hroom]
    omega

/-- The threads that were woken and have not looked again. -/
def woken (standing : ThreadId → Standing) : Finset ThreadId :=
  Finset.univ.filter fun id => standing id = .woken

/-- The queue holds whoever is queued, and for every unit there is a woken thread. -/
structure Supply (stock : Option Int32) (line : List ThreadId) (standing : ThreadId → Standing) :
    Prop where
  mem_iff : ∀ id, id ∈ line ↔ standing id = .queued
  covered : ∀ value, stock = some value → line ≠ [] →
    value.toInt ≤ ((woken standing).card : Int)

namespace Supply

variable {stock : Option Int32} {line : List ThreadId} {standing : ThreadId → Standing}
  {value : Int32} {me : ThreadId}

theorem nil (stock : Option Int32) : Supply stock [] fun _ => .out :=
  ⟨fun _ => by simp, fun _ _ hline => absurd rfl hline⟩

theorem mem_iff_update_out (h : Supply stock line standing) (hmem : me ∉ line) (id : ThreadId) :
    id ∈ line ↔ Function.update standing me .out id = .queued := by
  by_cases hid : id = me
  · subst hid
    simp [hmem]
  · rw [Function.update_of_ne hid]
    exact h.mem_iff id

theorem absent (h : Supply stock [] standing) (me : ThreadId) :
    Supply none [] (Function.update standing me .out) :=
  ⟨h.mem_iff_update_out List.not_mem_nil, fun _ hstock => by cases hstock⟩

/-- Whoever takes a unit stood in line for one unit at most. -/
theorem take (h : Supply (some value) line standing) (hpos : 0 < value) (hmem : me ∉ line) :
    Supply (some (value - 1)) line (Function.update standing me .out) := by
  refine ⟨h.mem_iff_update_out hmem, fun less hless hline => ?_⟩
  have hfewer : woken (Function.update standing me .out) = (woken standing).erase me := by
    ext id
    by_cases hid : id = me
    · subst hid
      simp [woken]
    · simp [woken, hid]
  have hcard := Finset.pred_card_le_card_erase (s := woken standing) (a := me)
  have hcovered := h.covered value rfl hline
  have hvalue : less.toInt = value.toInt - 1 := by
    obtain rfl := Option.some.inj hless
    exact Semaphore.toInt_sub_one hpos
  rw [hfewer, hvalue]
  omega

theorem queue (h : Supply (some value) line standing) (hnot : ¬ 0 < value) :
    Supply (some value) (if me ∈ line then line else line ++ [me])
      (Function.update standing me .queued) := by
  constructor
  · intro id
    by_cases hid : id = me
    · subst hid
      rw [Function.update_self]
      split <;> simp [*]
    · rw [Function.update_of_ne hid, ← h.mem_iff]
      split <;> simp [hid]
  · intro same hsame _
    obtain rfl := Option.some.inj hsame
    have hnone : value.toInt ≤ 0 := Int32.le_iff_toInt_le.1 (Int32.not_lt.1 hnot)
    omega

/-- With each unit that is given back the oldest waiter is woken. -/
theorem wake {heir : ThreadId} (h : Supply (some value) (heir :: line) standing)
    (hnodup : (heir :: line).Nodup) :
    Supply (some (Semaphore.bumped value)) line (Function.update standing heir .woken) := by
  have hheir := (List.nodup_cons.1 hnodup).1
  have hqueued : standing heir = .queued := (h.mem_iff heir).1 List.mem_cons_self
  constructor
  · intro id
    by_cases hid : id = heir
    · subst hid
      simp [hheir]
    · rw [Function.update_of_ne hid, ← h.mem_iff]
      simp [hid]
  · intro more hmore _
    obtain rfl := Option.some.inj hmore
    have hmore : woken (Function.update standing heir .woken) = insert heir (woken standing) := by
      ext id
      by_cases hid : id = heir
      · subst hid
        simp [woken]
      · simp [woken, hid]
    have hnew : heir ∉ woken standing := by simp [woken, hqueued]
    have hcovered := h.covered value rfl (List.cons_ne_nil _ _)
    have hbumped := Semaphore.toInt_bumped_mem value
    rw [hmore, Finset.card_insert_of_notMem hnew]
    push_cast
    omega

end Supply

end TickKernel
