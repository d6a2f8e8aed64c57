import KeyRegistry.Dialogue
import KeyRegistry.World

/-!
# Tasks

A task is the program of one client in the world: it talks to the service over a
session, acts on the world in an instant, sleeps, and waits for signals.
`Task.step` is its next move, if it has one at the present time.
-/

namespace KeyRegistry

/-- What a task may wait for. -/
inductive Signal
  | workerEnded (replica : Nat)
  | replicaFilled (replica : Nat)
  | turnOf (center ticket : Nat)
  deriving DecidableEq, Repr

def World.shows (w : World) : Signal → Bool
  | .workerEnded i => ((w.replica? i).map Replica.isStopped).getD true
  | .replicaFilled i => ((w.replica? i).map Replica.initialized).getD false
  | .turnOf c ticket => w.hasTurn c ticket

inductive Task (α : Type) : Type 1
  | done (a : α)
  | talk {β : Type} (s : SessionId) (d : Dialogue β) (next : β → Task α)
  /-- A call of a dialogue that has been admitted and not completed. -/
  | serving {β : Type} (s : SessionId) (r : Request) (hold : Hold)
      (rest : r.Answer → Dialogue β) (next : β → Task α)
  | act {β : Type} (f : World → β × World) (next : β → Task α)
  | sleep (ms : Nat) (next : Task α)
  | asleep (due : Nat) (next : Task α)
  /-- Waits for a signal, at most `ms`; says whether the signal came. -/
  | await (signal : Signal) (ms : Option Nat) (next : Bool → Task α)
  | waiting (signal : Signal) (due : Option Nat) (next : Bool → Task α)

namespace Task

variable {α β : Type}

def bind : Task α → (α → Task β) → Task β
  | done a, f => f a
  | talk s d next, f => talk s d fun b => bind (next b) f
  | serving s r hold rest next, f => serving s r hold rest fun b => bind (next b) f
  | act g next, f => act g fun b => bind (next b) f
  | sleep ms next, f => sleep ms (bind next f)
  | asleep due next, f => asleep due (bind next f)
  | await signal ms next, f => await signal ms fun b => bind (next b) f
  | waiting signal due next, f => waiting signal due fun b => bind (next b) f

instance : Monad Task where
  pure := done
  bind := bind

def say (s : SessionId) (d : Dialogue α) : Task α := talk s d done

def perform (f : World → α × World) : Task α := act f done

def look (f : World → α) : Task α := act (fun w => (f w, w)) done

def change (f : World → World) : Task Unit := act (fun w => ((), f w)) done

def tell (n : Notice) : Task Unit := change fun w => w.note n

def pause (ms : Nat) : Task Unit := sleep ms (done ())

def awaitSignal (signal : Signal) (ms : Option Nat) : Task Bool := await signal ms done

def step (w : World) : Task α → Option (World × Task α)
  | done _ => none
  | talk s d next =>
    match d.turn with
    | .done b => some (w, next b)
    | .note n d => some (w.note n, talk s d next)
    | .call r rest =>
      match w.accept s with
      | .error error => some (w, talk s (rest (.error error)) next)
      | .ok (hold, w) => some (w, serving s r hold rest next)
  | serving s r hold rest next =>
    if w.now < hold.due then none
    else
      let (answer, w) := w.complete s hold.fault r
      some (w, talk s (rest answer) next)
  | act f next =>
    let (b, w) := f w
    some (w, next b)
  | sleep ms next => some (w, if ms = 0 then next else asleep (w.now + ms) next)
  | asleep due next => if w.now < due then none else some (w, next)
  | await signal ms next =>
    if w.shows signal then some (w, next true)
    else if ms = some 0 then some (w, next false)
    else some (w, waiting signal (ms.map (w.now + ·)) next)
  | waiting signal due next =>
    if w.shows signal then some (w, next true)
    else match due with
      | none => none
      | some due => if w.now < due then none else some (w, next false)

/-- When a task that cannot move now can go on without a signal. -/
def due? : Task α → Option Nat
  | serving _ _ hold _ _ => some hold.due
  | asleep due _ => some due
  | waiting _ due _ => due
  | _ => none

def result? : Task α → Option α
  | done a => some a
  | _ => none

/-- Moves until no move is possible, at most `moves` times. -/
def run : Nat → World → Task α → World × Task α
  | 0, w, t => (w, t)
  | moves + 1, w, t =>
    match t.step w with
    | none => (w, t)
    | some (w, t) => run moves w.rouse t

@[simp] theorem step_done (w : World) (a : α) : (done a).step w = none := rfl

@[simp] theorem result?_done (a : α) : (done a).result? = some a := rfl

end Task

end KeyRegistry
