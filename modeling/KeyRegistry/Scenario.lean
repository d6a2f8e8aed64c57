import KeyRegistry.Scenario.Tasks

/-!
# Running a scenario

The branches of a step run in list order, each until it must wait. Workers run
when every branch waits, and the clock moves on to the next due time when
neither can go on. Between steps the workers run until they must wait, unless
the step says otherwise.
-/

namespace KeyRegistry.Scenario

inductive Step
  | single (c : Command)
  /-- Branches side by side. -/
  | join (steps : List Step)
  /-- Steps one after the other within a branch. -/
  | seq (steps : List Step)

inductive Reply
  | single (answer : Answer) (tally : Option Tally)
  | many (replies : List Reply)

inductive Branch : Type 1
  | untouched (s : Step)
  | running (t : Task Result) (grip : Option Grip)
  | sequence (past : List Reply) (now : Branch) (rest : List Step)
  | parallel (parts : List Branch)
  | finished (r : Reply)

/-- A step as it begins; its names are looked up now. -/
def Step.begin (st : Stage) : Step → Stage × Branch
  | .single c => (st.begin c, .running (c.task st.names) (c.grip? st.names))
  | .join steps => (st, .parallel (steps.map .untouched))
  | .seq [] => (st, .finished (.many []))
  | .seq (first :: rest) => (st, .sequence [] (.untouched first) rest)

def Branch.reply? : Branch → Option Reply
  | .finished r => some r
  | _ => none

mutual

/-- Lets a branch run until it must wait, at most `moves` moves deep. -/
def Branch.poll : Nat → Stage → Branch → Stage × Branch
  | 0, st, b => (st, b)
  | moves + 1, st, b =>
    match b with
    | .finished r => (st, .finished r)
    | .untouched s =>
      let (st, b) := s.begin st
      Branch.poll moves st b
    | .running t grip =>
      let (w, t) := t.run (moves + 1) st.world
      let st := { st with world := w }
      match t.result? with
      | none => (st, .running t grip)
      | some result => (st.finish grip result, .finished (.single result.answer result.tally))
    | .sequence past now rest =>
      let (st, now) := Branch.poll moves st now
      match now.reply? with
      | none => (st, .sequence past now rest)
      | some r =>
        match rest with
        | [] => (st, .finished (.many (past ++ [r])))
        | next :: rest =>
          Branch.poll moves st (.sequence (past ++ [r]) (.untouched next) rest)
    | .parallel parts =>
      let (st, parts) := Branch.pollAll moves st parts
      match parts.mapM Branch.reply? with
      | some replies => (st, .finished (.many replies))
      | none => (st, .parallel parts)

def Branch.pollAll : Nat → Stage → List Branch → Stage × List Branch
  | 0, st, parts => (st, parts)
  | _, st, [] => (st, [])
  | moves + 1, st, b :: rest =>
    let (st, b) := Branch.poll moves st b
    let (st, rest) := Branch.pollAll moves st rest
    (st, b :: rest)

end

mutual

def Branch.dueTimes : Branch → List Nat
  | .running t _ => t.due?.toList
  | .sequence _ now _ => now.dueTimes
  | .parallel parts => Branch.dueTimesAll parts
  | .untouched _ | .finished _ => []

def Branch.dueTimesAll : List Branch → List Nat
  | [] => []
  | b :: rest => b.dueTimes ++ Branch.dueTimesAll rest

end

mutual

def Branch.canMove (w : World) : Branch → Bool
  | .untouched _ => true
  | .running t _ => (t.step w).isSome || t.result?.isSome
  | .sequence _ now _ => now.canMove w
  | .parallel parts => Branch.anyCanMove w parts
  | .finished _ => false

def Branch.anyCanMove (w : World) : List Branch → Bool
  | [] => false
  | b :: rest => b.canMove w || Branch.anyCanMove w rest

end

def nextDue (w : World) (b : Branch) : Option Nat :=
  ((b.dueTimes ++ w.replicas.flatMap Replica.dueTimes).filter fun t => w.now < t).min?

/-- Runs a branch to its end, at most `moves` rounds: the branch as far as it
goes, then the workers, then the clock. -/
def Branch.finish : Nat → Stage → Branch → Stage × Option Reply
  | 0, st, b => (st, b.reply?)
  | moves + 1, st, b =>
    let (st, b) := b.poll (moves + 1) st
    match b.reply? with
    | some r => (st, some r)
    | none =>
      let st := { st with world := st.world.runWorkers (moves + 1) }
      if b.canMove st.world then Branch.finish moves st b
      else match nextDue st.world b with
        | none => (st, none)
        | some due =>
          Branch.finish moves { st with world := { st.world with now := due }.rouse } b

structure Figures where
  nodes : Nat
  sessions : Nat
  watches : Nat
  attempts : Nat
  deriving DecidableEq, Repr

def figures (w : World) : Figures :=
  let e := w.ensemble World.shared
  ⟨e.nodeCount, e.activeSessions, e.watchCount, e.connectAttempts⟩

/-- A finished step: its reply, the figures after it, and what was noted since the last. -/
structure Report where
  reply : Option Reply
  figures : Figures
  notices : List Notice

def runStep (moves : Nat) (st : Stage) (step : Step) (settle : Bool) : Stage × Report :=
  let (st, reply) := (Branch.untouched step).finish moves st
  let st := if settle then { st with world := st.world.runWorkers moves } else st
  ({ st with world := { st.world with journal := [] } },
    ⟨reply, figures st.world, st.world.journal⟩)

/-- Runs steps in a fresh world; each says whether the world settles after it. -/
def runAll (moves : Nat) (st : Stage) : List (Step × Bool) → List Report
  | [] => []
  | (step, settle) :: rest =>
    let (st, report) := runStep moves st step settle
    report :: runAll moves st rest

def ample : Nat := 1000000000

def run (steps : List (Step × Bool)) : List Report := runAll ample {} steps

end KeyRegistry.Scenario
