import TickKernel.Proofs.Requests

/-!
# How a call comes to its end

The last step that a thread has left tells how far it is with the operation that it
asked for: it seeks something, it has found it and is on its way back, or it is back.
Few moves put another step last, and only the thread's own do.
-/

namespace TickKernel

variable {P : Type}

def Step.isReturn : Step → Bool
  | .finish _ => true
  | _ => false

def Code.leaving (code : List Step) : Bool :=
  code.getLast?.any Step.isReturn

theorem Step.Fits.eq_nil {step : Step} {rest : List Step} (h : step.Fits rest)
    (hlast : step.isLast = true) : rest = [] := by
  unfold Step.Fits at h
  rwa [if_pos hlast] at h

/-- The last step of a blocking call finds what the call waits for, or leads on to another one. -/
theorem Kernel.Expands.settles_or_seeks {kernel : Kernel P} {step : Step} {pushed : List Step}
    {call : Blocking} (h : kernel.Expands step pushed) (hseeks : step.seeks = some call) :
    Settles kernel step pushed ∨
      ∃ last, pushed.getLast? = some last ∧ last.seeks = some call := by
  by_cases hsettles : Settles kernel step pushed
  · exact .inl hsettles
  · have hlast : step.isLast = true := by cases step <;> first | rfl | cases hseeks
    have hfits : step.Fits [] := by
      unfold Step.Fits
      rw [if_pos hlast]
    have hseeking : Code.seeking (pushed ++ []) = some call :=
      h.seeking_kept hfits hseeks fun _ _ => hsettles
    rw [List.append_nil] at hseeking
    exact .inr (Option.bind_eq_some_iff.1 hseeking)

namespace Machine

variable [Backend P]

inductive Ending (m : Machine P) (id : ThreadId) : Move → Machine P → Prop where
  | kept {move : Move} {after : Machine P} :
      (after.contextOf id).code.getLast? = (m.contextOf id).code.getLast? →
        (m.executing = id → (∀ request, move ≠ .call request) ∧
          ∀ step, Transition.step? ⟨m, move⟩ = some step → step.isLast = false) →
          Ending m id move after
  | ended {step : Step} {pushed : List Step} {after : Machine P} :
      m.executing = id → m.Stepped step [] pushed after → Ending m id .exec after
  | called (request : Request) : m.executing = id → m.context.code = [] →
      Ending m id (.call request) (m.call request)
  | struck : m.executing = id → m.context.code = [] → Ending m id .interrupt m.interrupt

variable [LawfulBackend P] {past : List (Transition P)} {m after : Machine P} {step : Step}
  {rest pushed : List Step} {id : ThreadId}

theorem Regular.getLast?_of_switched {next prev : ThreadId} (h : m.Regular past)
    (hcode : m.context.code = .switch next prev :: rest)
    (hswitched : (m.setCode rest).Switched next prev after) (hasked : asked past id ≠ none) :
    (after.contextOf id).code.getLast? = (m.contextOf id).code.getLast? := by
  rcases h.employed.contextOf_switched h.seated hcode hswitched id with
    ⟨rfl, hafter⟩ | ⟨-, hafter | ⟨hnone, -⟩⟩
  · obtain ⟨others, -, haway | haway⟩ := h.seated.away (h.seated.switch_eq hcode).2.2
    · rw [hcode] at haway
      cases (List.cons.inj haway).1
    · rw [hcode] at haway
      obtain ⟨-, rfl⟩ := List.cons.inj haway
      rw [hafter, contextOf_executing rfl, hcode]
      exact (List.getLast?_cons_of_ne_nil (List.cons_ne_nil _ _)).symm
  · rw [hafter]
  · exact absurd hnone hasked

/-- Only its own moves put another step last among those that a thread has left. -/
theorem Regular.ending {move : Move} (h : m.Regular past) (hgoes : m.Goes move after)
    (hasked : asked (past ++ [⟨m, move⟩]) id ≠ none) : m.Ending id move after := by
  cases hgoes with
  | spin hnone =>
      refine .kept rfl fun _ => ⟨nofun, fun step hstep => ?_⟩
      rw [hnone] at hstep
      cases hstep
  | @step step rest pushed _ hstepped =>
      by_cases hid : m.executing = id
      · subst hid
        by_cases hrest : rest = []
        · subst hrest
          exact .ended rfl hstepped
        · refine .kept ?_ fun _ => ⟨nofun, fun last hlast => ?_⟩
          · rw [contextOf_executing hstepped.effect.executing, hstepped.code_after,
              contextOf_executing rfl, hstepped.code, List.getLast?_cons_of_ne_nil hrest,
              List.getLast?_append_of_ne_nil pushed hrest]
          · rw [hstepped.step?_eq] at hlast
            obtain rfl := Option.some.inj hlast
            rw [← Bool.not_eq_true]
            exact fun hends => hrest ((h.orderly.fits hstepped).eq_nil hends)
      · refine .kept ?_ fun heq => absurd heq hid
        rw [hstepped.effect.others id (Ne.symm hid)]
  | @switch next prev rest _ hcode hswitched =>
      rw [asked_exec] at hasked
      refine .kept (h.getLast?_of_switched hcode hswitched hasked) fun _ => ⟨nofun, ?_⟩
      intro step hstep
      rw [step?_of_switch hcode] at hstep
      exact Option.some.inj hstep ▸ rfl
  | call request hcode =>
      by_cases hid : m.executing = id
      · exact .called request hid hcode
      · refine .kept ?_ fun heq => absurd heq hid
        rw [contextOf_call_of_ne m request (Ne.symm hid)]
  | interrupt =>
      by_cases hid : m.executing = id
      · by_cases hcode : m.context.code = []
        · exact .struck hid hcode
        · refine .kept ?_ fun _ => ⟨nofun, nofun⟩
          rw [contextOf_executing ((executing_interrupt m).trans hid), context_interrupt,
            contextOf_executing hid, List.getLast?_append_of_ne_nil _ hcode]
      · refine .kept ?_ fun heq => absurd heq hid
        rw [contextOf_interrupt_of_ne m (Ne.symm hid)]

end Machine

end TickKernel
