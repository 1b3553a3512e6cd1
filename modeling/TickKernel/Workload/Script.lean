import TickKernel.Host.Processor
import TickKernel.Kernel.Builder
import TickKernel.Policy

/-!
# Workloads

A workload is a kernel's configuration, the objects its threads share, and a
script for every thread: the list of operations it asks for, one after another.
-/

namespace TickKernel

namespace Workload

/-- One line of a script. -/
inductive Action where
  /-- Create a thread from a plan. -/
  | spawn (plan : Nat)
  | start
  | tick (times : Nat)
  | yield (times : Nat)
  | sleep (ticks : UInt32)
  | park
  | lock (mutex : Nat)
  | unlock (mutex : Nat)
  | wait (semaphore : Nat)
  | signal (semaphore : Nat) (times : Nat)
  | signalHandoff (semaphore : Nat)
  /-- Switch to the thread of a slot, if there is such a slot. -/
  | switchTo (index : Nat)
  | select
  /-- Look at the thread table as the policy sees it. -/
  | table
  | info (index : Nat)
  | stats
  | report
  | policy
  /-- Signal through another kernel. -/
  | peerSignal (semaphore : Nat)
  | elapsed
  | print (text : String)
  | console (on : Bool)
  | interrupts (on : Bool)
  /-- Let a timer interrupt tick the first kernel that was started. -/
  | firstKernelTick
  deriving DecidableEq, Repr

/-- How many calls an action stands for. -/
def Action.weight : Action → Nat
  | tick times | yield times | signal _ times => times + 1
  | _ => 1

/-- What a thread runs and how it is created. -/
structure Plan where
  name : Option String
  stackSize : Option UInt64
  /-- Whether the builder supplies what is left out. -/
  builder : Bool
  /-- Whether the thread runs a closure; otherwise it calls an entry routine. -/
  closure : Bool
  argument : UInt64
  actions : List Action
  deriving DecidableEq, Repr, Inhabited

namespace Plan

/-- Stack size of a plan that names none and does not use the builder. -/
def plainStackSize : UInt64 := 1024

def settings (plan : Plan) : ThreadBuilder :=
  let base : ThreadBuilder :=
    if plan.builder then {} else ThreadBuilder.withStackSize {} plainStackSize
  let named := plan.name.elim base base.withName
  plan.stackSize.elim named named.withStackSize

/-- Entry routines of plans lie at these distances from each other. -/
def routineSpacing : UInt64 := 0x100

def firstRoutine : UInt64 := 0x100000

def routine (index : Nat) : UInt64 :=
  firstRoutine + routineSpacing * UInt64.ofNat index

def indexOfRoutine (address : UInt64) : Nat :=
  ((address - firstRoutine) / routineSpacing).toNat

def request (plan : Plan) (index : Nat) (block : Option UInt64) : Request :=
  if plan.closure then plan.settings.spawn index block
  else plan.settings.create ⟨routine index, plan.argument⟩ block

end Plan

end Workload

/-- A kernel's configuration, shared objects, plans, and the idle thread's script. -/
structure Workload where
  config : Config
  policy : Policy
  semaphores : List Int32
  mutexes : Nat
  /-- Timer ticks that the idle thread may take while it is blocked. -/
  idleTicks : Nat
  plans : List Workload.Plan
  main : List Workload.Action

namespace Workload

def plan (workload : Workload) (index : Nat) : Plan :=
  workload.plans[index]?.getD default

def weight (workload : Workload) : Nat :=
  let actions := workload.main ++ workload.plans.flatMap Plan.actions
  maxThreads * actions.foldl (fun total action => total + action.weight) 0

/-- More steps than the workload can take: every call and every tick costs a few. -/
def fuel (workload : Workload) : Nat :=
  4096 * (workload.weight + workload.idleTicks + 16)

end Workload

end TickKernel
