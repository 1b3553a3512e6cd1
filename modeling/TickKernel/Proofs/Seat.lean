import TickKernel.Proofs.Objects
import TickKernel.Proofs.Orderly

/-!
# Who executes and who is current

The executing thread is the table's current one, except between a dispatch and the
switch that completes it: there the only steps left before the switch are the
release of the table lock.  So the identity that an operation reads off the table
is that of the thread that asked for it.
-/

namespace TickKernel

variable {P : Type}

def Code.switches (code : List Step) : Bool :=
  code.any Step.isSwitch

theorem Calm.switches_eq_false {code : List Step} (h : Calm code) :
    Code.switches code = false := by
  rw [Code.switches, List.any_eq_false]
  intro step hmem hswitch
  obtain ⟨next, prev, rfl⟩ := Step.eq_switch hswitch
  exact Bool.noConfusion (h.1 _ hmem)

theorem Code.switches_append (front back : List Step) :
    Code.switches (front ++ back) = (Code.switches front || Code.switches back) :=
  List.any_append

theorem Kernel.Expands.switches_eq_false {kernel : Kernel P} {step : Step}
    {pushed : List Step} (h : kernel.Expands step pushed)
    (hstep : ∀ target, step = .dispatch target → kernel.table.current = target) :
    Code.switches pushed = false := by
  cases h
  case leave target hne => exact absurd (hstep target rfl) hne
  case tick due hdue => rcases hdue with rfl | rfl <;> rfl
  case retry call => cases call <;> rfl
  case noRoom creation _ _ | noStack creation _ | noSlot creation _ _ =>
      cases h : creation.packet <;> simp [Code.switches, Code.refuse, h, Step.isSwitch]
  all_goals rfl

theorem Request.switches_eq_false (request : Request) :
    Code.switches request.code = false :=
  request.calm_code.switches_eq_false

theorem Step.current_tableAfter {step : Step} {table : ThreadTable}
    (h : ∀ target, step = .dispatch target → table.current = target) :
    (step.tableAfter table).current = table.current := by
  cases step
  case dispatch target =>
      rw [tableAfter, table.current_dispatch, h target rfl]
  case enroll creation stack =>
      simp only [tableAfter]
      cases hinsert : table.insert (ControlBlock.created · creation.name creation.call.entry stack)
        with
      | none => rfl
      | some entered =>
          unfold ThreadTable.insert at hinsert
          split at hinsert <;> cases hinsert
          rfl
  case wake id => exact table.current_wake id
  all_goals rfl

def Transition.target? (t : Transition P) : Option ThreadId :=
  match t.step? with
  | some (.dispatch target) => some target
  | _ => none

theorem Transition.step?_of_target? {t : Transition P} {target : ThreadId}
    (h : t.target? = some target) : t.step? = some (.dispatch target) := by
  unfold target? at h
  split at h
  next hstep =>
      cases h
      exact hstep
  next => cases h

namespace Machine

/-- The executing thread is current, or on its way out of the processor. -/
structure Seated (m : Machine P) : Prop where
  home : m.executing = m.kernel.table.current → Code.switches m.context.code = false
  away : m.executing ≠ m.kernel.table.current → ∃ rest, Code.switches rest = false ∧
    (m.context.code =
        .free .table :: .switch m.kernel.table.current m.executing :: .unmask :: rest ∨
      m.context.code = .switch m.kernel.table.current m.executing :: .unmask :: rest)

namespace Seated

variable {struck : Prop} {m after : Machine P}

theorem fresh (config : Config) (policy : Policy) (cpu : P) (values : List Int32) (mutexes : Nat)
    (console : Console) : (fresh config policy cpu values mutexes console).Seated where
  home _ := by simp [Code.switches]
  away h := absurd rfl h

/-- On the way out a thread has a guard, so nothing can come in between. -/
theorem executing_eq_of_calm (h : m.Seated) (hcalm : Calm m.context.code) :
    m.executing = m.kernel.table.current := by
  by_cases hseat : m.executing = m.kernel.table.current
  · exact hseat
  · obtain ⟨rest, -, hcode | hcode⟩ := h.away hseat
    all_goals
      rw [hcode] at hcalm
      exact absurd hcalm.switches_eq_false (by simp [Code.switches, Step.isSwitch])

/-- A step other than a lock's release and a switch is done by the current thread. -/
theorem executing_eq (h : m.Seated) {step : Step} {rest : List Step}
    (hcode : m.context.code = step :: rest) (hfree : step ≠ .free .table)
    (hswitch : step.isSwitch = false) : m.executing = m.kernel.table.current := by
  by_cases hseat : m.executing = m.kernel.table.current
  · exact hseat
  · obtain ⟨others, -, haway | haway⟩ := h.away hseat
    all_goals
      rw [hcode] at haway
      obtain ⟨rfl, -⟩ := List.cons.inj haway
    · exact absurd rfl hfree
    · cases hswitch

theorem calm_of_enabled (horderly : m.Orderly struck) (henabled : m.interruptsEnabled = true) :
    Calm m.context.code := by
  have hown := horderly.own
  rw [horderly.cover_of_enabled henabled] at hown
  exact hown.unguarded.1

theorem call (h : m.Seated) (hcode : m.context.code = []) (request : Request) :
    (m.call request).Seated := by
  have hseat : m.executing = m.kernel.table.current :=
    h.executing_eq_of_calm (hcode ▸ calm_nil)
  refine ⟨fun _ => ?_, fun hne => absurd hseat hne⟩
  rw [context_call]
  exact request.switches_eq_false

theorem interrupt (h : m.Seated) (horderly : m.Orderly struck)
    (henabled : m.interruptsEnabled = true) :
    m.interrupt.Seated := by
  have hcalm := calm_of_enabled horderly henabled
  have hseat := h.executing_eq_of_calm hcalm
  refine ⟨fun _ => ?_, fun hne => absurd hseat hne⟩
  rw [context_interrupt, Code.switches_append, hcalm.switches_eq_false]
  rfl

/-- A switch goes from the executing thread to the current one. -/
theorem switch_eq (h : m.Seated) {next prev : ThreadId} {rest : List Step}
    (hcode : m.context.code = .switch next prev :: rest) :
    next = m.kernel.table.current ∧ prev = m.executing ∧
      m.executing ≠ m.kernel.table.current := by
  by_cases hseat : m.executing = m.kernel.table.current
  · have hhome := h.home hseat
    rw [hcode] at hhome
    cases hhome
  · obtain ⟨others, -, haway | haway⟩ := h.away hseat
    · rw [hcode] at haway
      cases (List.cons.inj haway).1
    · rw [hcode] at haway
      obtain ⟨hstep, -⟩ := List.cons.inj haway
      cases hstep
      exact ⟨rfl, rfl, hseat⟩

variable [Backend P]

theorem pushed_dispatch {target : ThreadId} {rest pushed : List Step}
    (hstepped : m.Stepped (.dispatch target) rest pushed after)
    (htarget : m.kernel.table.current ≠ target) :
    pushed = [.free .table, .switch target m.kernel.table.current, .unmask] := by
  cases hstepped.expands with
  | nothing hplain => cases hplain
  | answer _ hasks => cases hasks
  | stay => exact absurd rfl htarget
  | leave _ => rfl

/-- A thread on the processor stays there, or is now to release the table and switch. -/
theorem perform_home {step : Step} {rest pushed : List Step} (h : m.Seated)
    (hstepped : m.Stepped step rest pushed after) (hseat : m.executing = m.kernel.table.current) :
    after.Seated := by
  have heffect := hstepped.effect
  have hafter := hstepped.code_after
  have hrest : Code.switches rest = false := by
    have hhome := h.home hseat
    rw [hstepped.code] at hhome
    exact (Bool.or_eq_false_iff.1 hhome).2
  by_cases hstays : ∀ target, step = .dispatch target → m.kernel.table.current = target
  · have hcurrent : after.kernel.table.current = m.kernel.table.current := by
      rw [heffect.table, Step.current_tableAfter hstays]
    refine ⟨fun _ => ?_, fun hne => ?_⟩
    · rw [hafter, Code.switches_append, hstepped.expands.switches_eq_false hstays, hrest]
      rfl
    · rw [heffect.executing, hcurrent] at hne
      exact absurd hseat hne
  · push Not at hstays
    obtain ⟨target, rfl, htarget⟩ := hstays
    have hcurrent : after.kernel.table.current = target := by
      rw [heffect.table, Step.tableAfter, ThreadTable.current_dispatch]
    have hleaves : after.executing ≠ after.kernel.table.current := by
      rw [heffect.executing, hcurrent, hseat]
      exact htarget
    refine ⟨fun heq => absurd heq hleaves, fun _ => ⟨rest, hrest, .inl ?_⟩⟩
    rw [hafter, pushed_dispatch hstepped htarget, hcurrent, heffect.executing, hseat]
    rfl

/-- A thread on its way out releases the table, and is then to switch. -/
theorem perform_away {step : Step} {rest pushed : List Step} (h : m.Seated)
    (hstepped : m.Stepped step rest pushed after) (hseat : m.executing ≠ m.kernel.table.current) :
    after.Seated := by
  have heffect := hstepped.effect
  obtain ⟨others, hothers, haway | haway⟩ := h.away hseat
  · rw [hstepped.code] at haway
    obtain ⟨rfl, rfl⟩ := List.cons.inj haway
    have hcurrent : after.kernel.table.current = m.kernel.table.current := by
      rw [heffect.table]
      rfl
    have hleaves : after.executing ≠ after.kernel.table.current := by
      rw [heffect.executing, hcurrent]
      exact hseat
    refine ⟨fun heq => absurd heq hleaves, fun _ => ⟨others, hothers, .inr ?_⟩⟩
    rw [hstepped.code_after, hstepped.expands.eq_nil rfl, hcurrent, heffect.executing]
    rfl
  · rw [hstepped.code] at haway
    obtain ⟨rfl, -⟩ := List.cons.inj haway
    exact Bool.noConfusion hstepped.stays

theorem perform {step : Step} {rest pushed : List Step} (h : m.Seated)
    (hstepped : m.Stepped step rest pushed after) : after.Seated := by
  by_cases hseat : m.executing = m.kernel.table.current
  · exact h.perform_home hstepped hseat
  · exact h.perform_away hstepped hseat

theorem switch {next prev : ThreadId} {rest : List Step} (h : m.Seated)
    (horderly : m.Orderly struck)
    (hcode : m.context.code = .switch next prev :: rest)
    (hswitched : (m.setCode rest).Switched next prev after) : after.Seated := by
  have harrives : after.executing = after.kernel.table.current := by
    rw [hswitched.executing, hswitched.kernel, (h.switch_eq hcode).1]
    rfl
  exact ⟨fun _ => (horderly.calm_of_switched hcode hswitched).switches_eq_false,
    fun hne => absurd harrives hne⟩

theorem goes {move : Move} (h : m.Seated) (horderly : m.Orderly struck)
    (hgoes : m.Goes move after) :
    after.Seated := by
  cases hgoes with
  | spin => exact h
  | step hstepped => exact h.perform hstepped
  | switch hcode hswitched => exact h.switch horderly hcode hswitched
  | call request hcode => exact h.call hcode request
  | interrupt henabled => exact h.interrupt horderly henabled

end Seated

theorem Goes.current_eq [Backend P] {m after : Machine P} {move : Move}
    (hgoes : m.Goes move after) :
    after.kernel.table.current =
      (Transition.target? ⟨m, move⟩).getD m.kernel.table.current := by
  cases hgoes with
  | spin hnone => simp [Transition.target?, hnone]
  | @step step rest pushed _ hstepped =>
      rw [hstepped.effect.table, Transition.target?, hstepped.step?_eq]
      split
      next heq =>
          cases heq
          exact ThreadTable.current_dispatch _ _
      next hother =>
          apply Step.current_tableAfter
          rintro target rfl
          exact absurd rfl (hother target)
  | switch hcode hswitched =>
      rw [hswitched.kernel, Transition.target?, step?_of_switch hcode]
      rfl
  | call | interrupt => rfl

end Machine

end TickKernel
