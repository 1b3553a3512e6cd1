import TickKernel.Host.Processor
import TickKernel.Proofs.Aftermath
import TickKernel.Proofs.Orderly

/-!
# What becomes of printed lines

A line is printed in two sections, each with interrupts masked and the console locked: its
text, and its line break.  The output is what was printed piece by piece.  Lines stay
whole as long as no tick comes to a thread between the two sections of a line; there the
thread has interrupts enabled, if it had when it began, and a tick lets others print.
-/

namespace TickKernel

variable {P : Type}

/-! ## Output -/

def Console.sink? (console : Console) : Option Sink :=
  console.installed.bind fun index => console.sinks[index]?

theorem Console.sink?_print {console : Console} {sink : Sink} (hsink : console.sink? = some sink)
    (hall : sink.capacity = none) (piece : String) :
    (console.print piece).sink? = some { sink with text := sink.text ++ piece } := by
  obtain ⟨index, hindex, hget⟩ := Option.bind_eq_some_iff.1 hsink
  have hwrite : sink.write? piece = some { sink with text := sink.text ++ piece } := by
    simp [Sink.write?, hall]
  have hbind : console.sinks[index]?.bind (Sink.write? · piece) =
      some { sink with text := sink.text ++ piece } := by rw [hget, Option.bind_some, hwrite]
  have hlt : index < console.sinks.length := (List.getElem?_eq_some_iff.1 hget).1
  rw [print, hindex]
  simp only [writeTo, hbind, sink?, hindex, Option.bind_some]
  exact List.getElem?_set_self hlt

@[simp]
def Step.prints : Step → Bool
  | .print _ => true
  | _ => false

namespace Transition

def printed? (t : Transition P) : Option (ThreadId × String) :=
  match t.step? with
  | some (.print piece) => some (t.before.executing, piece)
  | _ => none

def swapsSink (t : Transition P) : Bool :=
  t.step?.any Step.swapsSink

def printsPiece (t : Transition P) : Bool :=
  match t.move with
  | .call (.print _) => true
  | _ => false

end Transition

/-- The pieces printed in a run, the earliest first. -/
def printed (past : List (Transition P)) : List (ThreadId × String) :=
  past.filterMap Transition.printed?

theorem printed_append (past : List (Transition P)) (t : Transition P) :
    printed (past ++ [t]) = printed past ++ t.printed?.toList := by
  rw [printed, List.filterMap_append]
  cases h : t.printed? <;> simp [h, printed]

def linesOf (lines : List (ThreadId × String)) : List (ThreadId × String) :=
  lines.flatMap fun line => [line, (line.1, "\n")]

theorem linesOf_append (lines : List (ThreadId × String)) (id : ThreadId) (text : String) :
    linesOf (lines ++ [(id, text)]) = linesOf lines ++ [(id, text), (id, "\n")] := by
  simp [linesOf]

theorem drop_linesOf (lines : List (ThreadId × String)) (count : Nat) :
    (linesOf lines).drop (2 * count) = linesOf (lines.drop count) := by
  induction count generalizing lines with
  | zero => rfl
  | succ count ih =>
      cases lines with
      | nil => simp [linesOf]
      | cons line lines =>
          rw [List.drop_succ_cons, ← ih lines, Nat.mul_succ, linesOf, List.flatMap_cons]
          rfl

/-! ## Code that prints whole lines -/

def Code.closing : List Step :=
  [.free .console, .unmask, .mask, .take .console, .print "\n"]

/-- Steps that first do what is due, and then print whole lines only. -/
@[simp]
def Code.Lined : List Step → List Step → Prop
  | due, [] => due = []
  | [], step :: rest => Lined (if step.prints then Code.closing else []) rest
  | next :: due, step :: rest => step = next ∧ Lined due rest

namespace Code

variable {due front rest : List Step}

theorem Lined.append (h : Lined due front) (h' : Lined [] rest) : Lined due (front ++ rest) := by
  induction front generalizing due with
  | nil =>
      obtain rfl : due = [] := h
      exact h'
  | cons step front ih =>
      cases due with
      | nil => exact ih h
      | cons next due => exact ⟨h.1, ih h.2⟩

theorem lined_attempt (call : Blocking) : Lined [] (attempt call) := by
  cases call <;> simp [attempt]

theorem lined_refuse (creation : Creation) (cause : Failure) :
    Lined [] (refuse creation cause) := by
  cases hpacket : creation.packet <;> simp [refuse, hpacket]

theorem lined_launchCode (call : Option EntryCall) :
    Lined [] ((call.map launchCode).getD []) := by
  cases call <;> simp [launchCode]

/-- Due steps are all that is left of a line, and in the midst of it a print is left over. -/
theorem Lined.countP_prints (h : Lined due rest) (hdue : due <:+ closing) :
    rest.countP Step.prints % 2 = due.countP Step.prints % 2 := by
  induction rest generalizing due with
  | nil =>
      obtain rfl : due = [] := h
      rfl
  | cons step rest ih =>
      cases due with
      | nil =>
          rw [Lined] at h
          rw [List.countP_cons]
          cases hprints : step.prints with
          | true =>
              rw [hprints, if_pos rfl] at h
              have hrest := ih h List.suffix_rfl
              have hone : closing.countP Step.prints = 1 := rfl
              rw [if_pos rfl, List.countP_nil]
              omega
          | false =>
              rw [hprints, if_neg Bool.false_ne_true] at h
              rw [if_neg Bool.false_ne_true]
              exact ih h List.nil_suffix
      | cons next due =>
          obtain ⟨rfl, h⟩ := h
          have hrest := ih h ((List.suffix_cons step due).trans hdue)
          simp only [List.countP_cons]
          omega

theorem cons_suffix_closing {step : Step} (h : step :: due <:+ closing) :
    step.isPlain = true ∧ step.isSwitch = false ∧
      (step = .print "\n" ∧ due = [] ∨ step.prints = false ∧ due ≠ []) := by
  simp only [closing, List.suffix_cons_iff, List.suffix_nil, List.cons.injEq, reduceCtorEq,
    or_false] at h
  rcases h with ⟨rfl, rfl⟩ | ⟨rfl, rfl⟩ | ⟨rfl, rfl⟩ | ⟨rfl, rfl⟩ | ⟨rfl, rfl⟩ <;>
    simp [Step.isPlain, Step.isSwitch]

end Code

theorem Kernel.Expands.lined {kernel : Kernel P} {step : Step} {pushed : List Step}
    (h : kernel.Expands step pushed) : Code.Lined [] pushed := by
  cases h
  case tick due hdue => rcases hdue with rfl | rfl <;> simp
  case retry call => exact Code.lined_attempt call
  case noStack creation cause | noSlot creation _ cause => exact Code.lined_refuse creation cause
  case noRoom creation text cause =>
      refine Code.Lined.append ?_ (Code.lined_refuse creation cause)
      simp [Code.closing]
  all_goals simp [Code.closing]

/-- Every operation but the print of a single piece prints whole lines. -/
theorem Request.lined {request : Request} (h : ∀ piece, request ≠ .print piece) :
    Code.Lined [] request.code := by
  cases request
  case print piece => exact absurd rfl (h piece)
  case sleep ticks =>
      simp only [Request.code]
      split <;> simp
  all_goals simp [Request.code, Code.closing]

/-! ## Runs -/

namespace Machine

/-- The executing thread printed the text of a line, and not yet its line break. -/
def AmidLine (m : Machine P) : Prop :=
  m.context.code.countP Step.prints % 2 = 1

instance (m : Machine P) : Decidable m.AmidLine :=
  inferInstanceAs (Decidable (_ = _))

/-- Lines were printed one after the other, the last of which may want its line break. -/
inductive Prints (past : List (Transition P)) (m : Machine P) : Prop where
  | whole (lines : List (ThreadId × String)) :
      (∀ id : ThreadId, Code.Lined [] (m.contextOf id).code) →
        printed past = linesOf lines → Prints past m
  /-- The executing thread is about to print the line break. -/
  | amid (lines : List (ThreadId × String)) (text : String) (due : List Step) :
      due <:+ Code.closing → due ≠ [] → Code.Lined due m.context.code →
        (∀ id : ThreadId, id ≠ m.executing → Code.Lined [] (m.contextOf id).code) →
          printed past = linesOf lines ++ [(m.executing, text)] → Prints past m

variable {past : List (Transition P)} {m after : Machine P} {due : List Step}

theorem amidLine_iff (hlined : Code.Lined due m.context.code) (hdue : due <:+ Code.closing) :
    m.AmidLine ↔ due ≠ [] := by
  rw [AmidLine, hlined.countP_prints hdue]
  simp only [Code.closing, List.suffix_cons_iff, List.suffix_nil] at hdue
  rcases hdue with rfl | rfl | rfl | rfl | rfl | rfl <;> simp

theorem printed?_exec {step : Step} (hstep : Transition.step? ⟨m, .exec⟩ = some step)
    (hprints : step.prints = false) : Transition.printed? ⟨m, .exec⟩ = none := by
  rw [Transition.printed?, hstep]
  cases step <;> first | rfl | cases hprints

variable [Backend P]

namespace Prints

theorem perform {step : Step} {rest pushed : List Step} (h : m.Prints past)
    (hstepped : m.Stepped step rest pushed after) : after.Prints (past ++ [⟨m, .exec⟩]) := by
  have hothers : ∀ id : ThreadId, id ≠ after.executing → Code.Lined [] (m.contextOf id).code →
      Code.Lined [] (after.contextOf id).code := by
    intro id hid hlined
    rw [hstepped.effect.executing] at hid
    rwa [hstepped.effect.others id hid]
  cases h with
  | whole lines hcodes hprinted =>
      have hown := hcodes m.executing
      rw [contextOf_executing rfl, hstepped.code, Code.Lined] at hown
      cases hprints : step.prints with
      | true =>
          obtain ⟨piece, rfl⟩ : ∃ piece, step = .print piece := by
            cases step <;> first | exact ⟨_, rfl⟩ | cases hprints
          obtain rfl := hstepped.expands.eq_nil rfl
          refine .amid lines piece Code.closing List.suffix_rfl (by simp [Code.closing]) ?_
            (fun id hid => hothers id hid (hcodes id)) ?_
          · rw [hstepped.code_after]
            exact hown
          · rw [printed_append, hprinted, Transition.printed?, hstepped.step?_eq,
              hstepped.effect.executing]
            rfl
      | false =>
          rw [hprints, if_neg Bool.false_ne_true] at hown
          refine .whole lines (forall_contexts (fun _ context => Code.Lined [] context.code)
            hstepped.effect.executing hstepped.effect.others (fun id _ => hcodes id) ?_) ?_
          · rw [hstepped.code_after]
            exact hstepped.expands.lined.append hown
          · rw [printed_append, printed?_exec hstepped.step?_eq hprints, hprinted]
            simp
  | amid lines text due hdue hne hown hcodes hprinted =>
      cases due with
      | nil => exact absurd rfl hne
      | cons next due =>
          rw [hstepped.code] at hown
          obtain ⟨rfl, hown⟩ := hown
          obtain ⟨hplain, -, hlast⟩ := Code.cons_suffix_closing hdue
          have hafter : Code.Lined due after.context.code := by
            rw [hstepped.code_after, hstepped.expands.eq_nil hplain]
            exact hown
          have hrest : ∀ id : ThreadId, id ≠ after.executing →
              Code.Lined [] (after.contextOf id).code := by
            intro id hid
            exact hothers id hid (hcodes id (hstepped.effect.executing ▸ hid))
          rcases hlast with ⟨rfl, rfl⟩ | ⟨hprints, hmore⟩
          · refine .whole (lines ++ [(m.executing, text)])
              (forall_contexts (fun _ context => Code.Lined [] context.code)
                hstepped.effect.executing hstepped.effect.others hcodes hafter) ?_
            rw [printed_append, hprinted, Transition.printed?, hstepped.step?_eq, linesOf_append]
            simp
          · have hsuffix := (List.suffix_cons step due).trans hdue
            refine .amid lines text due hsuffix hmore hafter hrest ?_
            rw [printed_append, printed?_exec hstepped.step?_eq hprints, hprinted,
              hstepped.effect.executing]
            simp

theorem switch {next prev : ThreadId} {rest : List Step} (h : m.Prints past)
    (hcode : m.context.code = .switch next prev :: rest)
    (hswitched : (m.setCode rest).Switched next prev after) :
    after.Prints (past ++ [⟨m, .exec⟩]) := by
  have hsilent : Transition.printed? ⟨m, .exec⟩ = none :=
    printed?_exec (step?_of_switch hcode) rfl
  cases h with
  | whole lines hcodes hprinted =>
      have hown := hcodes m.executing
      rw [contextOf_executing rfl, hcode] at hown
      refine .whole lines ?_ ?_
      · exact hswitched.forall_contexts (fun _ context => Code.Lined [] context.code)
          (fun id _ => hcodes id) hown fun _ => Code.lined_launchCode
      · rw [printed_append, hsilent, hprinted]
        simp
  | amid lines text due hdue hne hown =>
      cases due with
      | nil => exact absurd rfl hne
      | cons next due =>
          rw [hcode] at hown
          obtain ⟨rfl, -⟩ := hown
          cases (Code.cons_suffix_closing hdue).2.1

/-- Lines stay whole if no tick comes amid one. -/
theorem goes {move : Move} (h : m.Prints past) (hgoes : m.Goes move after)
    (hpiece : Transition.printsPiece ⟨m, move⟩ = false)
    (htick : move = .interrupt → ¬ m.AmidLine) : after.Prints (past ++ [⟨m, move⟩]) := by
  cases hgoes with
  | spin hnone =>
      have hprinted : printed (past ++ [⟨m, .exec⟩]) = printed past := by
        simp [printed_append, Transition.printed?, hnone]
      cases h with
      | whole lines hcodes hlines => exact .whole lines hcodes (hprinted.trans hlines)
      | amid lines text due hdue hne hown hcodes hlines =>
          exact .amid lines text due hdue hne hown hcodes (hprinted.trans hlines)
  | step hstepped => exact h.perform hstepped
  | switch hcode hswitched => exact h.switch hcode hswitched
  | call request hcode =>
      cases h with
      | whole lines hcodes hprinted =>
          refine .whole lines (forall_contexts (fun _ context => Code.Lined [] context.code)
            (executing_call m request) (fun id => contextOf_call_of_ne m request)
            (fun id _ => hcodes id) ?_)
            (by simp [printed_append, Transition.printed?, hprinted, Transition.step?])
          rw [context_call]
          refine Request.lined ?_
          rintro piece rfl
          cases hpiece
      | amid lines text due hdue hne hown =>
          rw [hcode] at hown
          exact absurd hown (by simpa using hne)
  | interrupt =>
      cases h with
      | whole lines hcodes hprinted =>
          refine .whole lines (forall_contexts (fun _ context => Code.Lined [] context.code)
            (executing_interrupt m) (fun id => contextOf_interrupt_of_ne m)
            (fun id _ => hcodes id) ?_)
            (by simp [printed_append, Transition.printed?, hprinted, Transition.step?])
          rw [context_interrupt]
          exact Code.Lined.append (by simp [interruptCode]) (hcodes m.executing)
      | amid lines text due hdue hne hown =>
          exact absurd ((amidLine_iff hown hdue).2 hne) (htick rfl)

end Prints

omit [Backend P] in
theorem exists_rest_of_lined {code : List Step} (h : Code.Lined due code) :
    ∃ rest, code = due ++ rest := by
  induction due generalizing code with
  | nil => exact ⟨code, rfl⟩
  | cons next due ih =>
      cases code with
      | nil => cases h
      | cons step code =>
          obtain ⟨rfl, h⟩ := h
          obtain ⟨rest, rfl⟩ := ih h
          exact ⟨rest, rfl⟩

omit [Backend P] in
/-- A tick can come amid a line between its two sections only. -/
theorem Orderly.gap_of_enabled {struck : Prop} (h : m.Orderly struck)
    (henabled : m.interruptsEnabled = true) (hlined : Code.Lined due m.context.code)
    (hdue : due <:+ Code.closing) (hne : due ≠ []) :
    ∃ rest, m.context.code = .mask :: .take .console :: .print "\n" :: rest := by
  obtain ⟨rest, hcode⟩ := exists_rest_of_lined hlined
  have hcover := h.cover_of_enabled henabled
  have hbare : Bare struck m.context.held m.context.code := by
    have hown := h.own
    rw [hcover] at hown
    exact hown.unguarded.2
  simp only [Code.closing, List.suffix_cons_iff, List.suffix_nil] at hdue
  rcases hdue with rfl | rfl | rfl | rfl | rfl | rfl
  case inr.inr.inl => exact ⟨rest, hcode⟩
  -- everywhere else in a line a guard is alive, or the console locked
  case inl =>
      have hstands := h.stands_of_code hcode (by simp [Step.IsDead])
      rcases hbare with hheld | ⟨hheld, -⟩ <;> simp [hcover, hheld] at hstands
  case inr.inr.inr.inr.inr => exact absurd rfl hne
  all_goals
    have hstands := h.stands_of_code hcode (by simp [Step.IsDead])
    simp [hcover] at hstands

end Machine

variable [Backend P] {config : Config} {policy : Policy} {cpu : P} {values : List Int32}
  {mutexes : Nat} {console : Console} {past : List (Transition P)} {m : Machine P} {sink : Sink}

/-- Nothing but what was printed goes to a sink that takes everything. -/
theorem Run.sink?_eq
    (run : Run (.fresh config policy cpu values mutexes console) past m)
    (hsink : console.sink? = some sink) (hall : sink.capacity = none)
    (hstays : ∀ t ∈ past, t.swapsSink = false) :
    m.shared.console.sink? =
      some { sink with text := sink.text ++ String.join ((printed past).map Prod.snd) } := by
  refine run.invariant
    (fun past m => (∀ t ∈ past, t.swapsSink = false) →
      m.shared.console.sink? =
        some { sink with text := sink.text ++ String.join ((printed past).map Prod.snd) })
    (fun _ => ?_) ?_ hstays
  · rw [printed, List.filterMap_nil, List.map_nil, String.join_nil, String.append_empty]
    exact hsink
  intro past m move run ih hgoes hstays
  have hbefore := ih fun t hmem => hstays t (List.mem_append_left _ hmem)
  have hlast : ∀ step, Transition.step? ⟨m, move⟩ = some step → step.swapsSink = false := by
    intro step hstep
    have hsame := hstays ⟨m, move⟩ (by simp)
    rwa [Transition.swapsSink, hstep] at hsame
  rw [printed_append, List.map_append, String.join_append, ← String.append_assoc]
  rcases hgoes.steps_or_still with ⟨step, rest, pushed, rfl, hstepped⟩ | ⟨hshared, hswitch⟩
  · rw [hstepped.aftermath.console (hlast step hstepped.step?_eq)]
    cases hprints : step.prints with
    | true =>
        obtain ⟨piece, rfl⟩ : ∃ piece, step = .print piece := by
          cases step <;> first | exact ⟨_, rfl⟩ | cases hprints
        rw [Step.consoleAfter, Console.sink?_print hbefore hall, Transition.printed?,
          hstepped.step?_eq]
        simp
    | false =>
        rw [Machine.printed?_exec hstepped.step?_eq hprints]
        cases step <;> first | simpa [Step.consoleAfter] using hbefore | cases hprints
  · have hsilent : Transition.printed? ⟨m, move⟩ = none := by
      rw [Transition.printed?]
      split
      next piece hstep => cases hswitch _ hstep
      next => rfl
    rw [hshared, hsilent]
    simpa using hbefore

/--
What was printed, and nothing else, is in a sink that takes everything.  If all threads
print whole lines and no tick comes to a thread amid a line, lines follow one another whole,
the last of which wants its line break while the executing thread is amid it.  A tick can
come there only between the two sections of which printing a line consists.
-/
theorem Run.lines_whole
    (run : Run (.fresh config policy cpu values mutexes console) past m)
    (hsink : console.sink? = some sink) (hall : sink.capacity = none)
    (hstays : ∀ t ∈ past, t.swapsSink = false) :
    m.shared.console.sink? =
        some { sink with text := sink.text ++ String.join ((printed past).map Prod.snd) } ∧
      ((∀ t ∈ past, t.printsPiece = false) →
        (∀ t ∈ past, t.move = .interrupt → ¬ t.before.AmidLine) →
        (¬ m.AmidLine → ∃ lines, printed past = linesOf lines) ∧
        (m.AmidLine → ∃ lines text, printed past = linesOf lines ++ [(m.executing, text)] ∧
          (m.interruptsEnabled = true →
            ∃ rest, m.context.code = .mask :: .take .console :: .print "\n" :: rest))) := by
  refine ⟨run.sink?_eq hsink hall hstays, fun hpieces hticks => ?_⟩
  have hprints : m.Prints past := by
    refine run.invariant
      (fun past m => (∀ t ∈ past, t.printsPiece = false) →
        (∀ t ∈ past, t.move = .interrupt → ¬ t.before.AmidLine) → m.Prints past)
      ?_ ?_ hpieces hticks
    · exact fun _ _ => .whole [] (fun id => by rw [Machine.contextOf_fresh]; rfl) rfl
    · intro past m move run ih hgoes hpieces hticks
      have hbefore := ih (fun t hmem => hpieces t (List.mem_append_left _ hmem))
        (fun t hmem => hticks t (List.mem_append_left _ hmem))
      exact hbefore.goes hgoes (hpieces _ (by simp)) (hticks ⟨m, move⟩ (by simp))
  cases hprints with
  | whole lines hcodes hprinted =>
      have hwhole : ¬ m.AmidLine := by
        rw [Machine.amidLine_iff (hcodes m.executing) List.nil_suffix]
        exact fun hne => hne rfl
      exact ⟨fun _ => ⟨lines, hprinted⟩, fun hamid => absurd hamid hwhole⟩
  | amid lines text due hdue hne hown hcodes hprinted =>
      have hamid : m.AmidLine := (Machine.amidLine_iff hown hdue).2 hne
      have hgap : m.interruptsEnabled = true →
          ∃ rest, m.context.code = .mask :: .take .console :: .print "\n" :: rest :=
        fun henabled => run.orderly.gap_of_enabled henabled hown hdue hne
      exact ⟨fun hwhole => absurd hamid hwhole, fun _ => ⟨lines, text, hprinted, hgap⟩⟩

/-- Two threads are created and the kernel is started, which runs the first of them. -/
def opening : List Move :=
  .call (.create "a" ⟨0x1000, 0⟩ 4096 (some 0x10000)) :: List.replicate 20 .exec
    ++ .call (.create "b" ⟨0x1000, 0⟩ 4096 (some 0x20000)) :: List.replicate 20 .exec
    ++ .call .start :: List.replicate 31 .exec

/-- A tick comes between the two sections of a line, and lets the other thread print its own. -/
def splitting : List Move :=
  .call (.printLine "one") :: List.replicate 5 .exec
    ++ .interrupt :: List.replicate 17 .exec
    ++ .call (.printLine "two") :: List.replicate 11 .exec
    ++ .interrupt :: List.replicate 24 .exec

/-- Both threads printed whole lines, and that of the first is split. -/
theorem Run.lines_whole_of_split :
    ∃ (past : List (Transition Host)) (m : Machine Host) (text : String),
      Run (.fresh {} .roundRobin {} [] 0 { sinks := [{ capacity := none }], installed := some 0 })
          past m ∧
        (∀ t ∈ past, t.swapsSink = false) ∧ (∀ t ∈ past, t.printsPiece = false) ∧
          m.atUserLevel = true ∧
            (printed past).drop 6 = [(0, "one"), (1, "two"), (1, "\n"), (0, "\n")] ∧
              m.shared.console.sink? = some { capacity := none, text := text ++ "onetwo\n\n" } ∧
                (¬ ∃ lines, printed past = linesOf lines) ∧
                  ∃ t ∈ past, t.move = .interrupt ∧ t.before.AmidLine := by
  let start : Machine Host :=
    .fresh {} .roundRobin {} [] 0 { sinks := [{ capacity := none }], installed := some 0 }
  let past := start.transitions (opening ++ splitting)
  let m := (opening ++ splitting).foldl Machine.after start
  have run : Run start past m := .of_plays (by decide +kernel)
  have hstays : ∀ t ∈ past, t.swapsSink = false := by decide +kernel
  have hpieces : ∀ t ∈ past, t.printsPiece = false := by decide +kernel
  have huser : m.atUserLevel = true := by decide +kernel
  have hwhole : ¬ m.AmidLine := by decide +kernel
  have hlast : (printed past).drop 6 = [(0, "one"), (1, "two"), (1, "\n"), (0, "\n")] := by
    decide +kernel
  have hsink : Console.sink? { sinks := [{ capacity := none }], installed := some 0 } =
      some { capacity := none } := rfl
  obtain ⟨htext, hlines⟩ := Run.lines_whole run hsink rfl hstays
  have hsplit : ¬ ∃ lines, printed past = linesOf lines := by
    rintro ⟨lines, hprinted⟩
    rw [hprinted, drop_linesOf lines 3] at hlast
    cases hothers : lines.drop 3 with
    | nil => simp [hothers, linesOf] at hlast
    | cons line others => simp [hothers, linesOf] at hlast
  have htick : ∃ t ∈ past, t.move = .interrupt ∧ t.before.AmidLine := by
    apply Classical.byContradiction
    intro hnone
    refine hsplit ((hlines hpieces fun t hmem hmove hamid => ?_).1 hwhole)
    exact hnone ⟨t, hmem, hmove, hamid⟩
  refine ⟨past, m, String.join (((printed past).take 6).map Prod.snd), run, hstays, hpieces, huser,
    hlast, ?_, hsplit, htick⟩
  have hprinted := List.take_append_drop 6 (printed past)
  rw [hlast] at hprinted
  rw [htext, ← hprinted, List.map_append, String.join_append]
  simp [hprinted]

end TickKernel
