import TickKernel.Proofs.Lineup

/-!
# No wakeup is lost

While anybody is queued for a unit, every unit has a taker: a thread that a signal
took off the queue, that can run, and that has not looked again.
-/

namespace TickKernel

variable {P : Type} [Backend P] [LawfulBackend P]

omit [LawfulBackend P] in
theorem Run.semaphores_size {config : Config} {policy : Policy} {cpu : P} {values : List Int32}
    {mutexes : Nat} {console : Console} {past : List (Transition P)} {m : Machine P}
    (run : Run (.fresh config policy cpu values mutexes console) past m) :
    m.shared.semaphores.size = values.length := by
  refine run.invariant (fun _ m => m.shared.semaphores.size = values.length) ?_ ?_
  · simp [Machine.fresh, Machine.boot, Shared.new]
  · intro past m move _ hsize hgoes
    exact (Machine.semaphores_size_of_goes hgoes).trans hsize

omit [LawfulBackend P] in
theorem Run.exists_semaphore {config : Config} {policy : Policy} {cpu : P} {values : List Int32}
    {mutexes : Nat} {console : Console} {past : List (Transition P)} {m : Machine P}
    (run : Run (.fresh config policy cpu values mutexes console) past m) {index : Nat}
    (hindex : index < values.length) :
    ∃ semaphore, m.shared.semaphores[index]? = some semaphore ∧
      m.shared.semaphoreLine index = semaphore.line := by
  have hbound : index < m.shared.semaphores.size := run.semaphores_size ▸ hindex
  refine ⟨m.shared.semaphores[index], Array.getElem?_eq_getElem hbound, ?_⟩
  simp [Shared.semaphoreLine, hbound]

namespace Machine

variable {past : List (Transition P)} {m : Machine P} {index : Nat} {id : ThreadId}

def takers (past : List (Transition P)) (m : Machine P) (index : Nat) : Finset ThreadId :=
  (woken (standing past index)).filter fun id =>
    m.kernel.table.state id = .ready ∨ m.kernel.table.state id = .running

/-- A woken thread can run, or is being woken. -/
theorem Lineup.taker_or_wakes (h : m.Lineup past) (hgoverned : m.Governed past)
    (hwaiters : m.Waiters) (hwoken : standing past index id = .woken) :
    id ∈ m.takers past index ∨ m.Wakes id := by
  have hmem : id ∈ woken (standing past index) :=
    Finset.mem_filter.2 ⟨Finset.mem_univ id, hwoken⟩
  rcases h.awake hgoverned hwaiters hwoken with hready | hrunning | hwake
  · exact .inl (Finset.mem_filter.2 ⟨hmem, .inl hready⟩)
  · exact .inl (Finset.mem_filter.2 ⟨hmem, .inr hrunning⟩)
  · exact .inr (hgoverned.regular.wakes hwake)

end Machine

/--
A semaphore loses no wakeup, as long as nobody switches to threads of its own choice.
Its queue holds whoever found no unit and was not taken off since, each thread once
and none that has returned.  While anybody is queued there are as many takers as
units, but for a thread that is woken in the same masked steps; so nobody waits for
a unit that nobody is about to take.
-/
theorem Run.no_lost_wakeup {config : Config} {cpu : P} {values : List Int32} {mutexes : Nat}
    {console : Console} {past : List (Transition P)} {m : Machine P}
    (run : Run (.fresh config .roundRobin cpu values mutexes console) past m)
    (hunforced : Unforced past) {index : Nat} (hindex : index < values.length) :
    ∃ semaphore, m.shared.semaphores[index]? = some semaphore ∧
      (∀ id, id ∈ semaphore.line ↔ standing past index id = .queued) ∧
      semaphore.line.Nodup ∧
      (∀ id, standing past index id ≠ .out →
        asked past id = some (.wait index) ∧ (m.contextOf id).answer = none) ∧
      (∀ id, standing past index id = .woken →
        id ∈ m.takers past index ∨ m.Wakes id) ∧
      (semaphore.line ≠ [] →
        semaphore.value.toInt ≤ ((woken (standing past index)).card : Int)) ∧
      (semaphore.line ≠ [] → (∀ id, standing past index id = .woken → ¬ m.Wakes id) →
        semaphore.value.toInt ≤ ((m.takers past index).card : Int)) ∧
      ∀ id, asked past id = some (.wait index) → m.kernel.table.state id = .waiting →
        m.Wakes id ∨ id ∈ semaphore.line ∧ (0 < semaphore.value →
          ∃ other, standing past index other = .woken ∧
            (other ∈ m.takers past index ∨ m.Wakes other)) := by
  have hlineup := run.lineup hunforced
  have hgoverned := run.governed Policy.sound_roundRobin
  have hwaiters := run.waiters Policy.sound_roundRobin
  have hregular := hgoverned.regular
  have hbound : index < m.shared.semaphores.size := run.semaphores_size ▸ hindex
  obtain ⟨semaphore, hsemaphore⟩ : ∃ semaphore, m.shared.semaphores[index]? = some semaphore :=
    ⟨_, Array.getElem?_eq_getElem hbound⟩
  have hstock : m.shared.stock index = some semaphore.value := by
    simp [Shared.stock, hsemaphore]
  have hline : m.shared.semaphoreLine index = semaphore.line := by
    simp [Shared.semaphoreLine, hsemaphore]
  have hsupply := hlineup.supply index
  rw [hstock, hline] at hsupply
  have hcovered := hsupply.covered semaphore.value rfl
  have htaker : ∀ id, standing past index id = .woken → id ∈ m.takers past index ∨ m.Wakes id :=
    fun id hwoken => hlineup.taker_or_wakes hgoverned hwaiters hwoken
  refine ⟨semaphore, hsemaphore, hsupply.mem_iff, ?_, ?_, htaker, hcovered, ?_, ?_⟩
  · exact (hregular.objects.semaphores index semaphore hsemaphore).lines.nodup
  · intro id hin
    have hseeking := hlineup.inside index id hin
    exact ⟨hregular.serves_of_seeking hseeking,
      hregular.employed.unanswered id (Code.isOperation_of_seeking hseeking)⟩
  · intro hwaits hnone
    have hsame : m.takers past index = woken (standing past index) := by
      refine Finset.filter_true_of_mem fun id hmem => ?_
      have hwoken : standing past index id = .woken := (Finset.mem_filter.1 hmem).2
      exact (Finset.mem_filter.1 ((htaker id hwoken).resolve_right (hnone id hwoken))).2
    rw [hsame]
    exact hcovered hwaits
  · intro id hasked hwaiting
    obtain ⟨call, hserves, hlisted⟩ := hwaiters.listed_or_wakes hgoverned hasked hwaiting
    obtain rfl := Blocking.eq_unit hserves
    rcases hlisted with hmem | hwakes
    · have hmem : id ∈ semaphore.line := hline ▸ hmem
      refine .inr ⟨hmem, fun hpos => ?_⟩
      have hcard := hcovered (List.ne_nil_of_mem hmem)
      have hvalue : (0 : Int32).toInt < semaphore.value.toInt := Int32.lt_iff_toInt_lt.1 hpos
      have hzero : (0 : Int32).toInt = 0 := rfl
      have hpositive : 0 < (woken (standing past index)).card := by omega
      obtain ⟨other, hother⟩ := Finset.card_pos.1 hpositive
      have hwoken : standing past index other = .woken := (Finset.mem_filter.1 hother).2
      exact ⟨other, hwoken, htaker other hwoken⟩
    · exact .inl hwakes

/-- Two new threads wait for a unit, and the idle thread gives one back. -/
def shortage : List Move :=
  .call (.create "first" ⟨0x1000, 0⟩ 4096 (some 0x10000)) :: List.replicate 20 .exec
    ++ .call (.create "second" ⟨0x1000, 0⟩ 4096 (some 0x20000)) :: List.replicate 20 .exec
    ++ .call .yield :: List.replicate 13 .exec
    ++ .call (.wait 0) :: List.replicate 27 .exec
    ++ .call (.wait 0) :: List.replicate 28 .exec
    ++ .call (.signal 0) :: List.replicate 13 .exec

/-- The second of two waiters is queued while the first one can take the only unit. -/
theorem Run.no_lost_wakeup_of_shortage :
    ∃ (past : List (Transition Host)) (m : Machine Host) (semaphore : Semaphore),
      Run (.fresh {} .roundRobin {} [0] 0 { sinks := [], installed := none }) past m ∧
        m.shared.semaphores[0]? = some semaphore ∧ semaphore.line = [1] ∧
          semaphore.value = 1 ∧ 1 ≤ (m.takers past 0).card ∧
            m.kernel.table.state 1 = .waiting := by
  let start : Machine Host := .fresh {} .roundRobin {} [0] 0 { sinks := [], installed := none }
  let m := shortage.foldl Machine.after start
  have run : Run start (start.transitions shortage) m := .of_plays (by decide +kernel)
  have hunforced : Unforced (start.transitions shortage) := by
    have hmoves : ∀ move ∈ shortage, ∀ target, move ≠ .call (.switchTo target) := by
      decide +kernel
    rw [← start.map_move_transitions shortage] at hmoves
    exact fun t ht => hmoves t.move (List.mem_map_of_mem ht)
  obtain ⟨semaphore, hsemaphore, -, -, -, -, -, htakers, -⟩ :=
    Run.no_lost_wakeup run hunforced (show 0 < 1 by decide)
  have hline : semaphore.line = [1] := by
    have hqueue : m.shared.semaphoreLine 0 = [1] := by decide +kernel
    rw [← hqueue, Shared.semaphoreLine, hsemaphore]
    rfl
  have hvalue : semaphore.value = 1 := by
    have hstock : m.shared.stock 0 = some 1 := by decide +kernel
    rw [Shared.stock, hsemaphore] at hstock
    exact Option.some.inj hstock
  have henabled : m.interruptsEnabled = true := by decide +kernel
  refine ⟨_, m, semaphore, run, hsemaphore, hline, hvalue, ?_, by decide +kernel⟩
  have hcard := htakers (hline ▸ List.cons_ne_nil _ _) fun id _ hwakes => by
    rw [hwakes.2] at henabled
    cases henabled
  rw [hvalue, show (1 : Int32).toInt = 1 from rfl] at hcard
  omega

end TickKernel
