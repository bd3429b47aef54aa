/-
`com.sun.prism.impl.BaseResourcePool` and `ManagedResource`.

A pool knows its resources by weak references in a linked list, here the list of their
numbers with the sizes that were recorded. A reference that is cleared is a flag of the
resource (`collected`); of a resource itself, there is whether the native one is there and
how often `free()` was called. The amount that a pool with a parent uses is what its parent
uses, a number here. What other threads, the collector and the disposer do while a request
is made comes in between its passes, as a list of effects for each pass. Amounts are
integers, and the sums and differences of `cleanup` are those of `long`s. The printing of
statistics and the tracking of lock sources are left out.
-/
import JavaFx.Lib.Java
import Mathlib.Logic.Function.Basic

set_option autoImplicit false

namespace JavaFx.Prism

open JavaFx.Lib

def FOREVER : ℕ := 1024
def RECENTLY_USEFUL : ℕ := 100
def RECENT : ℕ := 10

structure ManagedResource where
  /-- `resource != null`. -/
  resource : Bool
  /-- What `pool.size(resource)` returns. -/
  size : ℕ
  lockcount : ℕ
  employcount : ℕ
  permanent : Bool
  mismatchDetected : Bool
  disposalRequested : Bool
  age : ℕ
  /-- The collector has cleared the references to it. -/
  collected : Bool
  /-- How often `free()` was called. -/
  frees : ℕ
  /-- It was locked or permanent when it was pruned. -/
  prunedInUse : Bool
  deriving DecidableEq, Repr

namespace ManagedResource

/-- `new ManagedResource(resource, pool)`, with its first lock. -/
def new (size : ℕ) : ManagedResource where
  resource := true
  size := size
  lockcount := 1
  employcount := 0
  permanent := false
  mismatchDetected := false
  disposalRequested := false
  age := 0
  collected := false
  frees := 0
  prunedInUse := false

variable (mr : ManagedResource)

def isValid : Bool := mr.resource && !mr.disposalRequested

def isLocked : Bool := mr.lockcount > 0

def isInteresting : Bool := mr.employcount > 0

/-- `free()`, and the reference to the native resource with it. -/
def free : ManagedResource := { mr with frees := mr.frees + 1, resource := false }

/-- `_isgone`, of what a weak reference leads to. -/
def _isgone : ManagedResource × Bool :=
  if mr.collected then (mr, true)
  else if mr.disposalRequested then ({ mr.free with disposalRequested := false }, true)
  else (mr, !mr.isValid)

def lock : ManagedResource := { mr with lockcount := mr.lockcount + 1, age := 0 }

def unlockall : ManagedResource := { mr with lockcount := 0 }

/-- The calls that assert a lock, and change nothing when they throw. -/
def whenLocked (f : ManagedResource → ManagedResource) : ManagedResource :=
  if mr.lockcount ≤ 0 then mr else f mr

def unlock : ManagedResource := mr.whenLocked fun mr => { mr with lockcount := mr.lockcount - 1 }

def makePermanent : ManagedResource := mr.whenLocked fun mr => { mr with permanent := true }

def contentsUseful : ManagedResource :=
  mr.whenLocked fun mr => { mr with employcount := mr.employcount + 1 }

def contentsNotUseful : ManagedResource :=
  if mr.employcount ≤ 0 then mr else { mr with employcount := mr.employcount - 1 }

def bumpAge (forever : ℕ) : ManagedResource :=
  if mr.age < forever then { mr with age := mr.age + 1 } else mr

end ManagedResource

/-- The errors of the accounting. -/
inductive PoolError
  | negativeAmount
  | unmanagedFreed
  deriving DecidableEq, Repr

structure BaseResourcePool where
  managedSize : ℤ
  origTarget : ℤ
  curTarget : ℤ
  maxSize : ℤ
  /-- What the parent uses, if there is one. -/
  sharedParent : Option ℕ
  /-- How many resources there have been. -/
  allocated : ℕ
  resources : ℕ → ManagedResource
  /-- The linked list, with the sizes of its links. -/
  links : List (ℕ × ℕ)

/-- The predicates of the stages. -/
def stageTesters : List (ManagedResource → Bool) :=
  [fun mr => !mr.isInteresting && decide (mr.age > FOREVER),
    fun mr => !mr.isInteresting && decide (mr.age > FOREVER / 2),
    fun mr => !mr.isInteresting && decide (mr.age > RECENT),
    fun mr => decide (mr.age > FOREVER),
    fun mr => decide (mr.age > FOREVER / 2),
    fun mr => decide (mr.age > RECENTLY_USEFUL)]

/-- What happens to a resource from outside while a request is made. -/
inductive Effect
  /-- `dispose` on the thread of the pool. -/
  | dispose (mr : ℕ)
  /-- `dispose` on another thread. -/
  | requestDisposal (mr : ℕ)
  /-- The collector clears the references to a resource. -/
  | disappear (mr : ℕ)
  /-- The parent of the pool uses no more than this. -/
  | sharedFreed (amount : ℕ)

namespace BaseResourcePool

/-- `new BaseResourcePool(parent, target, max)`. -/
def new (sharedParent : Option ℕ) (target max : ℤ) : BaseResourcePool where
  managedSize := 0
  origTarget := target
  curTarget := target
  maxSize := max
  sharedParent := sharedParent
  allocated := 0
  resources _ := .new 0
  links := []

variable (p : BaseResourcePool)

def used : ℤ :=
  match p.sharedParent with
  | some used => used
  | none => p.managedSize

def max : ℤ := p.maxSize

def target : ℤ := p.curTarget

/-- The pool after a change of a resource. -/
def set (i : ℕ) (mr : ManagedResource) : BaseResourcePool :=
  { p with resources := Function.update p.resources i mr }

def setTarget (newTarget : ℤ) : Except Exn BaseResourcePool :=
  if newTarget > p.maxSize then .error .illegalArgument
  else if newTarget < p.origTarget then .error .illegalArgument
  else .ok { p with curTarget := newTarget }

def recordAllocated (size : ℕ) : BaseResourcePool := { p with managedSize := p.managedSize + size }

def recordFree (size : ℕ) : Except PoolError BaseResourcePool :=
  if p.managedSize - size < 0 then .error .negativeAmount
  else .ok { p with managedSize := p.managedSize - size }

/-- A loop over the links: what a visit does to the resource of each, and whether it unlinks
it. The links that stay are returned. -/
def scan (visit : ManagedResource → ManagedResource × Bool) (p : BaseResourcePool) :
    List (ℕ × ℕ) → Except PoolError (BaseResourcePool × List (ℕ × ℕ))
  | [] => .ok (p, [])
  | (i, size) :: links =>
    let (mr, unlink) := visit (p.resources i)
    let p := p.set i mr
    if unlink then do
      let p ← p.recordFree size
      scan visit p links
    else do
      let (p, rest) ← scan visit p links
      .ok (p, (i, size) :: rest)

/-- A visit of `cleanup(predicate)`. -/
def prune (test : ManagedResource → Bool) (mr : ManagedResource) : ManagedResource × Bool :=
  let (mr, gone) := mr._isgone
  if gone then (mr, true)
  else if !mr.permanent && !mr.isLocked && test mr then
    ({ mr.free with prunedInUse := mr.isLocked || mr.permanent }, true)
  else (mr, false)

/-- `cleanup(predicate)`. -/
def cleanup (test : ManagedResource → Bool) : Except PoolError BaseResourcePool := do
  let (p, links) ← scan (prune test) p p.links
  .ok { p with links := links }

/-- A visit of `freeDisposalRequestedAndCheckResources`. -/
def check (forgiveStaleLocks : Bool) (mr : ManagedResource) : ManagedResource × Bool :=
  let (mr, gone) := mr._isgone
  if gone then (mr, true)
  else if !mr.permanent then
    let mr :=
      if mr.isLocked && !mr.mismatchDetected then
        if forgiveStaleLocks then mr.unlockall else { mr with mismatchDetected := true }
      else mr
    (mr.bumpAge FOREVER, false)
  else (mr, false)

def freeDisposalRequestedAndCheckResources (forgiveStaleLocks : Bool) :
    Except PoolError BaseResourcePool := do
  let (p, links) ← scan (check forgiveStaleLocks) p p.links
  .ok { p with links := links }

/-- The loop of `resourceFreed`. -/
def unlinkFreed (freed : ℕ) (p : BaseResourcePool) :
    List (ℕ × ℕ) → Except PoolError (BaseResourcePool × List (ℕ × ℕ))
  | [] => .error .unmanagedFreed
  | (i, size) :: links =>
    if (p.resources i).collected then do
      let p ← p.recordFree size
      unlinkFreed freed p links
    else if i = freed then do
      let p ← p.recordFree size
      .ok (p, links)
    else do
      let (p, rest) ← unlinkFreed freed p links
      .ok (p, (i, size) :: rest)

def resourceFreed (freed : ℕ) : Except PoolError BaseResourcePool := do
  let (p, links) ← unlinkFreed freed p p.links
  .ok { p with links := links }

def resourceManaged (mr : ManagedResource) : BaseResourcePool :=
  ({ (p.set p.allocated mr) with
    allocated := p.allocated + 1
    links := (p.allocated, mr.size) :: p.links } : BaseResourcePool).recordAllocated mr.size

/-- A resource that a caller still has. -/
def isReferenced (i : ℕ) : Bool := i < p.allocated && !(p.resources i).collected

/-- A call on a resource that does not come to the pool. -/
def call (i : ℕ) (f : ManagedResource → ManagedResource) : BaseResourcePool :=
  if p.isReferenced i then p.set i (f (p.resources i)) else p

/-- `dispose` on the thread of the pool. -/
def dispose (i : ℕ) : Except PoolError BaseResourcePool :=
  if p.isReferenced i && (p.resources i).resource then
    (p.set i { (p.resources i).free with disposalRequested := false }).resourceFreed i
  else .ok p

def applyEffect : Effect → Except PoolError BaseResourcePool
  | .dispose i => p.dispose i
  | .requestDisposal i => .ok (p.call i fun mr => { mr with disposalRequested := true })
  | .disappear i => .ok (p.call i fun mr => { mr with collected := true })
  | .sharedFreed amount => .ok { p with sharedParent := p.sharedParent.map (min amount) }

def applyEffects (p : BaseResourcePool) : List Effect → Except PoolError BaseResourcePool
  | [] => .ok p
  | effect :: effects => do
      let p ← p.applyEffect effect
      applyEffects p effects

/-- A pass of pruning, with what happens before it. -/
def pass (effects : List Effect) (test : ManagedResource → Bool) :
    Except PoolError BaseResourcePool := do
  let p ← p.applyEffects effects
  p.cleanup test

/-- The passes until there is enough room, and whether there is. -/
def pruneStages (wanted : ℤ) (effects : ℕ → List Effect) (p : BaseResourcePool) :
    ℕ → List (ManagedResource → Bool) → Except PoolError (BaseResourcePool × Bool)
  | _, [] => .ok (p, false)
  | k, test :: tests => do
      let p ← p.pass (effects k) test
      if toLong (p.used + wanted) ≤ p.target then .ok (p, true)
      else pruneStages wanted effects p (k + 1) tests

/-- A pool, and what a call returns or throws. -/
abbrev Outcome := BaseResourcePool × Except Exn Bool

/-- The loop of the last chances: two passes that prune everything. -/
def pruneLastChances (needed : ℤ) (effects : ℕ → List Effect) (p : BaseResourcePool) :
    ℕ → ℕ → Except PoolError Outcome
  | _, 0 => .ok (p, .ok false)
  | k, chances + 1 => do
      let p ← p.pass (effects k) fun _ => true
      if toLong (p.used + needed) ≤ p.max then
        if toLong (p.used + needed) > p.target then
          match p.setTarget (toLong (p.used + needed)) with
          | .ok p => .ok (p, .ok true)
          | .error e => .ok (p, .error e)
        else .ok (p, .ok true)
      else pruneLastChances needed effects p (k + 1) chances

/-- `cleanup(needed)` after the stages: the target grows, or everything is pruned. -/
def growOrPrune (needed wanted : ℤ) (effects : ℕ → List Effect) : Except PoolError Outcome :=
  let rem := toLong (p.max - p.used)
  let wanted := if wanted > rem then needed else wanted
  if wanted ≤ rem then
    let grow := (toLong (p.max - p.origTarget)).tdiv 32
    let grow := if grow < wanted then wanted else if grow > rem then rem else grow
    match p.setTarget (toLong (p.used + grow)) with
    | .ok p => .ok (p, .ok true)
    | .error e => .ok (p, .error e)
  else pruneLastChances needed effects p (stageTesters.length + 1) 2

/-- `wanted`, as the stages have it. -/
def hopingFor (needed : ℤ) : ℤ := if p.target.tdiv 16 < needed then needed else p.target.tdiv 16

/-- `prepareForAllocation(needed)`, with what happens before each pass. -/
def prepareForAllocation (needed : ℤ) (effects : ℕ → List Effect) : Except PoolError Outcome :=
  if toLong (p.used + needed) ≤ p.target then .ok (p, .ok true)
  else do
    let (p', enough) ←
      pruneStages (p.hopingFor needed) effects p 0 ((fun _ => false) :: stageTesters)
    if enough then .ok (p', .ok true)
    else p'.growOrPrune needed (p.hopingFor needed) effects

inductive Action
  | allocate (size : ℕ)
  | lock (mr : ℕ)
  | unlock (mr : ℕ)
  | makePermanent (mr : ℕ)
  | contentsUseful (mr : ℕ)
  | contentsNotUseful (mr : ℕ)
  | prepareForAllocation (needed : ℤ) (effects : ℕ → List Effect)
  | freeDisposalRequestedAndCheckResources (forgiveStaleLocks : Bool)
  | effect (effect : Effect)
  /-- The parent of the pool uses this much. -/
  | sharedUsed (amount : ℕ)

/-- A call. What it returns or throws, other than an error of the accounting, is not kept. -/
def step : Action → Except PoolError BaseResourcePool
  | .allocate size => .ok (p.resourceManaged (.new size))
  | .lock i => .ok (p.call i (·.lock))
  | .unlock i => .ok (p.call i (·.unlock))
  | .makePermanent i => .ok (p.call i (·.makePermanent))
  | .contentsUseful i => .ok (p.call i (·.contentsUseful))
  | .contentsNotUseful i => .ok (p.call i (·.contentsNotUseful))
  | .prepareForAllocation needed effects => do
      let (p, _) ← p.prepareForAllocation needed effects
      .ok p
  | .freeDisposalRequestedAndCheckResources forgive =>
    p.freeDisposalRequestedAndCheckResources forgive
  | .effect effect => p.applyEffect effect
  | .sharedUsed amount => .ok { p with sharedParent := p.sharedParent.map fun _ => amount }

end BaseResourcePool

end JavaFx.Prism
