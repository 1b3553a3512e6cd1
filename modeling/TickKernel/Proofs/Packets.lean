import TickKernel.Proofs.Aftermath
import TickKernel.Proofs.Calls
import TickKernel.Proofs.Roster

/-!
# Packets and their closures

A closure is put in a packet, which passes through the steps of a creation.  If the creation is
refused the packet is dropped there; otherwise the new thread has it, and that thread takes the
closure out when it calls its entry routine.  At any time a packet is in one place only.
-/

namespace TickKernel

variable {P : Type}

/-! ## What a step does to packets -/

def Step.takes (index : Nat) : Step → Bool
  | .enter call => call.entry == closureRoutine && call.argument.toNat == index
  | _ => false

def Step.isPack : Step → Bool
  | .pack _ _ _ _ => true
  | _ => false

theorem Machine.Stepped.pushed_pack [Backend P] {m after : Machine P} {rest pushed : List Step}
    {name : String} {body : Nat} {stackSize : UInt64} {block : Option UInt64}
    (hstepped : m.Stepped (.pack name body stackSize block) rest pushed after) :
    pushed = Code.create
      { name, stackSize, block
        call := ⟨closureRoutine, UInt64.ofNat m.shared.packets.size⟩
        packet := some m.shared.packets.size } := by
  apply hstepped.pushed_eq
  rw [perform, pack, code_push, context_modifyShared, context_setCode]
  rfl

namespace Step

variable {me : ThreadId} {entered : Option EntryCall} {packets : Array Packet} {index : Nat}
  {packet : Packet}

theorem size_packetsAfter (step : Step) :
    (step.packetsAfter me entered packets).size =
      packets.size + if step.isPack then 1 else 0 := by
  cases step
  case pack => exact Array.size_push _
  case discard => exact Array.size_modify
  case enter call =>
      simp only [packetsAfter]
      split
      · exact Array.size_modify
      · rfl
  case leaveBody =>
      cases entered with
      | none => rfl
      | some call =>
          simp only [packetsAfter]
          split
          · exact Array.size_modify
          · rfl
  all_goals rfl

/-- A packet keeps its closure; who took that and how often it was dropped is counted. -/
theorem exists_packetsAfter (step : Step) (h : packets[index]? = some packet) :
    ∃ later, (step.packetsAfter me entered packets)[index]? = some later ∧
      later.body = packet.body ∧
      later.drops = packet.drops + (if step = .discard index then 1 else 0) ∧
      later.takers = (if step.takes index then [me] else []) ++ packet.takers := by
  have hsame : step ≠ .discard index → step.takes index = false →
      (step.packetsAfter me entered packets)[index]? = some packet →
        ∃ later, (step.packetsAfter me entered packets)[index]? = some later ∧
          later.body = packet.body ∧
          later.drops = packet.drops + (if step = .discard index then 1 else 0) ∧
          later.takers = (if step.takes index then [me] else []) ++ packet.takers := by
    intro hdiscard htakes hpacket
    exact ⟨packet, hpacket, rfl, by rw [if_neg hdiscard]; rfl, by rw [htakes]; rfl⟩
  cases step
  case pack name body stackSize block =>
      have hlt := (Array.getElem?_eq_some_iff.1 h).1
      exact hsame (by simp) rfl (by rw [packetsAfter, Array.getElem?_push, if_neg (by omega), h])
  case discard other =>
      by_cases hother : other = index
      · subst hother
        refine ⟨{ packet with drops := packet.drops + 1 }, ?_, rfl, by rw [if_pos rfl], rfl⟩
        rw [packetsAfter, Array.getElem?_modify, if_pos rfl, h]
        rfl
      · refine hsame (by simp [hother]) rfl ?_
        rw [packetsAfter, Array.getElem?_modify, if_neg hother, h]
  case enter call =>
      by_cases htakes : call.entry = closureRoutine ∧ call.argument.toNat = index
      · obtain ⟨hentry, rfl⟩ := htakes
        refine ⟨{ packet with takers := me :: packet.takers }, ?_, rfl, by simp, ?_⟩
        · rw [packetsAfter, if_pos hentry, Array.getElem?_modify, if_pos rfl, h]
          rfl
        · simp [takes, hentry]
      · refine hsame (by simp) (by simpa [takes] using htakes) ?_
        rw [packetsAfter]
        split
        next hentry =>
            rw [Array.getElem?_modify, if_neg fun hindex => htakes ⟨hentry, hindex⟩, h]
        next => exact h
  case leaveBody =>
      cases entered with
      | none => exact hsame (by simp) rfl h
      | some call =>
          rw [packetsAfter]
          split
          next =>
              rw [Array.getElem?_modify]
              split
              next =>
                  rw [h]
                  exact ⟨_, rfl, rfl, rfl, rfl⟩
              next => exact ⟨packet, h, rfl, rfl, rfl⟩
          next => exact ⟨packet, h, rfl, rfl, rfl⟩
  all_goals exact hsame (by simp) rfl h

end Step

/-! ## Packets in the steps of a creation -/

def Step.creation? : Step → Option Creation
  | .checkRoom creation | .allocate creation | .writeFrame creation _ | .enroll creation _ =>
      some creation
  | _ => none

def Step.packet? : Step → Option Nat
  | .checkRoom creation | .allocate creation | .writeFrame creation _ | .enroll creation _ =>
      creation.packet
  | .discard packet => some packet
  | _ => none

def Step.deals : Step → Bool
  | .pack _ _ _ _ | .checkRoom _ | .allocate _ | .writeFrame _ _ | .enroll _ _ | .discard _ => true
  | _ => false

def Code.dealings (code : List Step) : List Step :=
  code.filter Step.deals

/-- A creation with a packet calls the routine for closures, and no other creation does. -/
def Creation.IsProper (creation : Creation) : Prop :=
  match creation.packet with
  | some packet => creation.call = ⟨closureRoutine, UInt64.ofNat packet⟩
  | none => creation.call.entry ≠ closureRoutine

def Request.IsProper : Request → Prop
  | .create _ call _ _ => call.entry ≠ closureRoutine
  | _ => True

theorem Step.packet?_of_creation? {step : Step} {creation : Creation}
    (h : step.creation? = some creation) : step.packet? = creation.packet := by
  cases step <;> cases h <;> rfl

theorem Step.deals_of_creation? {step : Step} {creation : Creation}
    (h : step.creation? = some creation) : step.deals = true := by
  cases step <;> first | rfl | cases h

theorem Step.deals_of_packet? {step : Step} {index : Nat} (h : step.packet? = some index) :
    step.deals = true := by
  cases step <;> first | rfl | cases h

namespace Code

theorem dealings_append (front rest : List Step) :
    dealings (front ++ rest) = dealings front ++ dealings rest :=
  List.filter_append _ _

theorem dealings_cons_of_deals {step : Step} (h : step.deals = true) (rest : List Step) :
    dealings (step :: rest) = step :: dealings rest :=
  List.filter_cons_of_pos h

theorem dealings_cons_of_not {step : Step} (h : step.deals = false) (rest : List Step) :
    dealings (step :: rest) = dealings rest :=
  List.filter_cons_of_neg (by rw [h]; exact Bool.false_ne_true)

theorem mem_dealings {code : List Step} {step : Step} :
    step ∈ dealings code ↔ step ∈ code ∧ step.deals = true :=
  List.mem_filter

theorem dealings_refuse (creation : Creation) (cause : Failure) :
    dealings (refuse creation cause) = (creation.packet.map Step.discard).toList := by
  rw [refuse]
  cases creation.packet <;> rfl

end Code

/-- The dealings to which a step leads. -/
inductive Passes : Step → List Step → Prop where
  | done {step : Step} : (step.packet? = none ∨ (∃ index, step = .discard index) ∨
      ∃ creation stack, step = .enroll creation stack) → Passes step []
  | pack {name : String} {body : Nat} {stackSize : UInt64} {block : Option UInt64}
      (creation : Creation) : Passes (.pack name body stackSize block) [.checkRoom creation]
  | on {step next : Step} {creation : Creation} :
      step.creation? = some creation → next.creation? = some creation → Passes step [next]
  | refused {step : Step} {creation : Creation} :
      step.creation? = some creation → Passes step (creation.packet.map Step.discard).toList

theorem Kernel.Expands.passes {kernel : Kernel P} {step : Step} {pushed : List Step}
    (h : kernel.Expands step pushed) : Passes step (Code.dealings pushed) := by
  cases h
  case nothing hplain =>
      refine .done ?_
      cases step
      case discard index => exact .inr (.inl ⟨index, rfl⟩)
      all_goals first | exact .inl rfl | cases hplain
  case answer reply hasks =>
      refine .done (.inl ?_)
      cases step <;> first | rfl | cases hasks
  case tick due hdue => rcases hdue with rfl | rfl <;> exact .done (.inl rfl)
  case retry call => cases call <;> exact .done (.inl rfl)
  case pack creation => exact .pack creation
  case noRoom creation text cause =>
      rw [Code.dealings_append, Code.dealings_refuse]
      exact .refused rfl
  case room creation => exact .on rfl rfl
  case noStack creation cause =>
      rw [Code.dealings_refuse]
      exact .refused rfl
  case stack creation stack => exact .on rfl rfl
  case frame creation stack => exact .on rfl rfl
  case noSlot creation stack cause =>
      rw [Code.dealings_refuse]
      exact .refused rfl
  case slot creation stack id pointer text => exact .done (.inr (.inr ⟨creation, stack, rfl⟩))
  all_goals exact .done (.inl rfl)

namespace Passes

variable {step other : Step} {next : List Step} {index : Nat} {creation : Creation}

/-- Whatever leads to dealings deals itself, and there is one at most. -/
theorem length_le (h : Passes step next) : next.length ≤ if step.deals then 1 else 0 := by
  cases h with
  | done => exact Nat.zero_le _
  | pack => exact Nat.le_refl _
  | on hown =>
      rw [Step.deals_of_creation? hown]
      exact Nat.le_refl _
  | refused hown =>
      rw [Step.deals_of_creation? hown]
      cases Option.map Step.discard _ <;> simp

theorem creation?_eq (h : Passes step next) (hmem : other ∈ next)
    (hother : other.creation? = some creation) :
    step.creation? = some creation ∨ ∃ name body size block, step = .pack name body size block := by
  cases h with
  | done => cases hmem
  | pack => exact .inr ⟨_, _, _, _, rfl⟩
  | on hown hnext =>
      rw [List.mem_singleton.1 hmem, hnext] at hother
      exact .inl (hown.trans hother)
  | refused hown =>
      obtain ⟨packet, -, rfl⟩ := Option.map_eq_some_iff.1 (Option.mem_toList.1 hmem)
      cases hother

theorem packet?_eq (h : Passes step next) (hmem : other ∈ next)
    (hother : other.packet? = some index) :
    step.packet? = some index ∨ ∃ name body size block, step = .pack name body size block := by
  cases h with
  | done => cases hmem
  | pack => exact .inr ⟨_, _, _, _, rfl⟩
  | on hown hnext =>
      rw [List.mem_singleton.1 hmem, Step.packet?_of_creation? hnext,
        ← Step.packet?_of_creation? hown] at hother
      exact .inl hother
  | refused hown =>
      obtain ⟨packet, hpacket, rfl⟩ := Option.map_eq_some_iff.1 (Option.mem_toList.1 hmem)
      rw [Step.packet?_of_creation? hown, hpacket]
      exact .inl hother

theorem exists_packet? (h : Passes step next) (hstep : step.packet? = some index)
    (hdiscard : step ≠ .discard index) (henroll : ∀ creation stack, step ≠ .enroll creation stack) :
    ∃ other ∈ next, other.packet? = some index := by
  cases h with
  | done hends =>
      rcases hends with hnone | ⟨own, rfl⟩ | ⟨creation, stack, rfl⟩
      · rw [hnone] at hstep
        cases hstep
      · exact absurd (congrArg Step.discard (Option.some.inj hstep)) hdiscard
      · exact absurd rfl (henroll creation stack)
  | pack => cases hstep
  | on hown hnext =>
      rw [Step.packet?_of_creation? hown, ← Step.packet?_of_creation? hnext] at hstep
      exact ⟨_, List.mem_singleton_self _, hstep⟩
  | refused hown =>
      rw [Step.packet?_of_creation? hown] at hstep
      exact ⟨.discard index, by simp [hstep], rfl⟩

end Passes

end TickKernel
