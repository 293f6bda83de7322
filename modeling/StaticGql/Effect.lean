import StaticGql.Json.Basic

/-!
Effects: computations that are ready, that let other work go first, or that need the asynchronous
scheduler. Combining ready effects already computes them.
-/

namespace StaticGql

inductive EvaluationError where
  | failed (message : String)
  | asyncInSync
  deriving DecidableEq, Repr

def EvaluationError.message : EvaluationError → String
  | failed message => message
  | asyncInSync => "asynchronous effect attempted under the synchronous scheduler"

/-- The scheduler under which effects are run. -/
inductive Scheduler where
  | sync
  | async
  deriving DecidableEq, Repr

namespace Scheduler

def name : Scheduler → String
  | sync => "sync"
  | async => "async"

def ofName? (s : String) : Option Scheduler := [sync, async].find? (·.name = s)

end Scheduler

/-- A value or an error. -/
abbrev Outcome (α : Type) := Except EvaluationError α

/-- What becomes of a deferred computation once it is awaited: how many rounds of polling it takes
beyond the first, and its outcome. -/
structure Awaited (α : Type) where
  rounds : Nat
  outcome : Outcome α

inductive Effect (α : Type) where
  | ready (outcome : Outcome α)
  /-- Other work goes first. -/
  | yield (next : Effect α)
  | deferred (awaited : Awaited α)

namespace Effect

variable {α β : Type}

def pure (a : α) : Effect α := ready (.ok a)

def fail (e : EvaluationError) : Effect α := ready (.error e)

/-- Whether only the asynchronous scheduler can run it. -/
def isAsync : Effect α → Bool
  | ready _ => false
  | yield next => next.isAsync
  | deferred _ => true

def runSync : Effect α → Outcome α
  | ready outcome => outcome
  | yield next => next.runSync
  | deferred _ => .error .asyncInSync

/-- Each yield costs one round. -/
def runAsync : Effect α → Awaited α
  | ready outcome => ⟨0, outcome⟩
  | yield next => ⟨next.runAsync.rounds + 1, next.runAsync.outcome⟩
  | deferred awaited => awaited

def run : Scheduler → Effect α → Outcome α
  | .sync, e => e.runSync
  | .async, e => e.runAsync.outcome

def ofAsync (e : Effect α) : Effect α := deferred e.runAsync

def map (f : α → β) : Effect α → Effect β
  | ready outcome => ready (outcome.map f)
  | yield next => yield (next.map f)
  | deferred a => deferred ⟨a.rounds, a.outcome.map f⟩

/-- A ready value is handed on at once. -/
def andThen (f : α → Effect β) : Effect α → Effect β
  | ready (.ok a) => f a
  | ready (.error e) => ready (.error e)
  | yield next => yield (next.andThen f)
  | deferred ⟨rounds, .ok a⟩ =>
    deferred ⟨rounds + (f a).runAsync.rounds, (f a).runAsync.outcome⟩
  | deferred ⟨rounds, .error e⟩ => deferred ⟨rounds, .error e⟩

/-- A failure becomes a value, so that it does not end a group. -/
def attempt : Effect α → Effect (Outcome α)
  | ready outcome => ready (.ok outcome)
  | yield next => yield next.attempt
  | deferred a => deferred ⟨a.rounds, .ok a.outcome⟩

/-- The failure met first when the members are polled in their order, round by round. -/
def firstFailure : List (Awaited α) → Option (Nat × EvaluationError)
  | [] => none
  | a :: rest =>
    match a.outcome, firstFailure rest with
    | .error e, some (rounds, e') => if rounds < a.rounds then some (rounds, e') else some (a.rounds, e)
    | .error e, none => some (a.rounds, e)
    | .ok _, later => later

def oks : List (Outcome α) → List α
  | [] => []
  | .ok a :: rest => a :: oks rest
  | .error _ :: rest => oks rest

/-- A group awaited together: the values in order, or the first failure met. -/
def joinAwaited (members : List (Awaited α)) : Awaited (List α) :=
  match firstFailure members with
  | some (rounds, e) => ⟨rounds, .error e⟩
  | none => ⟨(members.map (·.rounds)).foldl max 0, .ok (oks (members.map (·.outcome)))⟩

/-- A group with no asynchronous member is computed at once, in order. -/
def all (members : List (Effect α)) : Effect (List α) :=
  if members.any isAsync then deferred (joinAwaited (members.map runAsync))
  else ready (members.mapM runSync)

end Effect
end StaticGql
