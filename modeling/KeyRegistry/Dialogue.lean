import KeyRegistry.Ensemble
import KeyRegistry.Journal

/-!
# Dialogues with the service

A dialogue is a program of calls that one session makes one after the other. It
is data: between two calls anything may happen to the ensemble. `collect` walks
a subtree top down and has no bound of its own, since others may keep adding to
the subtree while it is walked.
-/

namespace KeyRegistry

inductive Dialogue (α : Type)
  | done (a : α)
  | note (n : Notice) (next : Dialogue α)
  | call (r : Request) (next : r.Answer → Dialogue α)
  /-- Asks for the children of each pending path, which queue up in turn. -/
  | collect (visited pending : List String)
      (next : Except ServiceError (List String) → Dialogue α)

namespace Dialogue

variable {α β : Type}

inductive Turn (α : Type)
  | done (a : α)
  | note (n : Notice) (next : Dialogue α)
  | call (r : Request) (next : r.Answer → Dialogue α)

/-- How a walk goes on after the answer for `p`. A vanished root ends it with
nothing, a vanished descendant stays listed. -/
def afterChildren (visited rest : List String) (p : String)
    (next : Except ServiceError (List String) → Dialogue α) :
    Except ServiceError (List String) → Dialogue α
  | .ok children => collect (visited ++ [p]) (rest ++ children.map (Path.join p)) next
  | .error (.noNode _) => if visited = [] then next (.ok []) else collect (visited ++ [p]) rest next
  | .error e => next (.error e)

def turn : Dialogue α → Turn α
  | done a => .done a
  | note n next => .note n next
  | call r next => .call r next
  | collect visited [] next => turn (next (.ok visited))
  | collect visited (p :: rest) next =>
    .call (.getChildren p) (afterChildren visited rest p next)

def bind : Dialogue α → (α → Dialogue β) → Dialogue β
  | done a, f => f a
  | note n next, f => note n (bind next f)
  | call r next, f => call r fun answer => bind (next answer) f
  | collect visited pending next, f => collect visited pending fun found => bind (next found) f

instance : Monad Dialogue where
  pure := done
  bind := bind

def ask (r : Request) : Dialogue r.Answer := call r done

def tell (n : Notice) : Dialogue Unit := note n (done ())

/-! ## Work on subtrees -/

def createEach : List String → Dialogue (Except ServiceError Unit)
  | [] => done (.ok ())
  | p :: ps => do
    match ← ask (.create p [] .persistent) with
    | .ok _ | .error (.nodeExists _) => createEach ps
    | .error e => done (.error e)

def ensureAncestors (p : String) : Dialogue (Except ServiceError Unit) :=
  createEach (Path.ancestors p)

/-- Creates a node, with its missing ancestors if the service asks for them. -/
def createWithParents (p : String) (data : List UInt8) (mode : Mode) :
    Dialogue (Except ServiceError String) := do
  match ← ask (.create p data mode) with
  | .error (.noNode _) =>
    match ← ensureAncestors p with
    | .ok () => ask (.create p data mode)
    | .error e => done (.error e)
  | answer => done answer

def ensurePath (p : String) : Dialogue (Except ServiceError Unit) :=
  if p = Path.root then done (.ok ())
  else do
    match ← createWithParents p [] .persistent with
    | .ok _ | .error (.nodeExists _) => done (.ok ())
    | .error e => done (.error e)

/-- A node and everything under it, parents before children; nothing if it is absent. -/
def collectSubtree (p : String) : Dialogue (Except ServiceError (List String)) :=
  collect [] [p] done

def deleteEach : List String → Dialogue (Except ServiceError Unit)
  | [] => done (.ok ())
  | p :: ps => do
    match ← ask (.delete p none) with
    | .ok () | .error (.noNode _) => deleteEach ps
    | .error e => done (.error e)

def deleteOnce (p : String) : Dialogue (Except ServiceError Unit) := do
  match ← collectSubtree p with
  | .ok found => deleteEach found.reverse
  | .error e => done (.error e)

def deleteAttempts : Nat := 3

/-- Deletes a subtree, once more each time children turn up under a node collected before. -/
def deleteFrom (p : String) (attempt : Nat) : Nat → Dialogue (Except ServiceError Unit)
  | 0 => deleteOnce p
  | again + 1 => do
    match ← deleteOnce p with
    | .error (.notEmpty child) =>
      tell (.deleteRepeated child attempt)
      deleteFrom p (attempt + 1) again
    | answer => done answer

/-- Deletes a node and everything under it; an absent node is no failure. -/
def deleteRecursive (p : String) : Dialogue (Except ServiceError Unit) :=
  deleteFrom p 1 (deleteAttempts - 1)

@[simp] theorem turn_done (a : α) : (done a).turn = .done a := rfl

@[simp] theorem turn_note (n : Notice) (next : Dialogue α) :
    (note n next).turn = .note n next := rfl

@[simp] theorem turn_call (r : Request) (next : r.Answer → Dialogue α) :
    (call r next).turn = .call r next := rfl

theorem bind_done (d : Dialogue α) : bind d done = d := by
  induction d with
  | done a => rfl
  | note n next ih => simp [bind, ih]
  | call r next ih => simp [bind, ih]
  | collect visited pending next ih => simp [bind, ih]

end Dialogue

end KeyRegistry
