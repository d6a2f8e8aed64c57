import KeyRegistry.Center.Strict
import KeyRegistry.Proofs.Namespace.Place
import Mathlib.Algebra.Group.Nat.Defs
import Mathlib.Data.List.Find

/-!
# A registry as its user sees it

To its user a registry is a list of keys with values, in the order in which the
keys were added. `Registry.serve` says what every call answers and what it leaves
there, with nothing of sessions, transactions and replicas in it.
-/

namespace KeyRegistry

open KeyRegistry.Path

structure Item where
  value : String
  ephemeral : Bool
  deriving DecidableEq, Repr

structure Registry where
  started : Bool := false
  items : List (String × Item) := []
  deriving DecidableEq, Repr

inductive Call
  | start (draws : Nat → Nat)
  | stop
  | persist (key value : String)
  | update (key value : String)
  | persistEphemeral (key value : String)
  | remove (key : String)
  | getDirectly (key : String)
  | isPresent (key : String)
  | countChildren (key : String)
  | childNames (key : String)

inductive Reply
  | outcome (r : Except RegistryError Unit)
  | shutdown (s : Shutdown)
  | text (r : Except RegistryError (Option String))
  | flag (r : Except RegistryError Bool)
  | count (r : Except RegistryError Nat)
  | names (r : Except RegistryError (List String))

def Call.key? : Call → Option String
  | .start _ | .stop => none
  | .persist key _ | .update key _ | .persistEphemeral key _ | .remove key | .getDirectly key
  | .isPresent key | .countChildren key | .childNames key => some key

namespace Registry

def item? (r : Registry) (key : String) : Option Item := r.items.lookup key

def has (r : Registry) (key : String) : Bool := (r.item? key).isSome

/-- Adds an absent key, and before it the absent keys above it, which are empty and last. -/
def add (r : Registry) (key : String) (item : Item) : Registry :=
  { r with items := r.items ++ ((above key).filter fun a => !r.has a).map (·, ⟨"", false⟩) ++
      [(key, item)] }

def write (r : Registry) (key value : String) : Registry :=
  { r with items := r.items.map fun x =>
      if x.1 = key then (x.1, { x.2 with value := value }) else x }

def cut (r : Registry) (key : String) : Registry :=
  { r with items := r.items.filter fun x => !isWithin key x.1 }

def blocker? (r : Registry) (key : String) : Option String :=
  (above key).find? fun a => ((r.item? a).map Item.ephemeral).getD false

def names (r : Registry) (key : String) : List String :=
  (r.items.filter fun x => parent? x.1 = some key).map fun x => nodeName x.1

/-! ## Calls -/

variable (ns : Namespace)

def start (r : Registry) : Except RegistryError Unit × Registry :=
  if r.started then (.error .alreadyStarted, r)
  else
    let r := { r with started := true }
    (.ok (), if r.has root then r else r.add root ⟨"", false⟩)

/-- Whether a worker drains in time is not the user's concern. -/
def stop (r : Registry) : Shutdown × Registry :=
  if r.started then (.drained, ⟨false, r.items.filter fun x => !x.2.ephemeral⟩)
  else (.notRunning, r)

def unlessBlocked (r : Registry) (key : String) (r' : Registry) :
    Except RegistryError Unit × Registry :=
  match r.blocker? key with
  | some a => (.error (.service (.noChildrenForEphemerals (ns.place a))), r)
  | none => (.ok (), r')

def persist (r : Registry) (key value : String) : Except RegistryError Unit × Registry :=
  if r.has key then (.ok (), r.write key value)
  else r.unlessBlocked ns key (r.add key ⟨value, false⟩)

/-- The key is added anew, behind its siblings, and nothing is left under it. -/
def persistEphemeral (r : Registry) (key value : String) : Except RegistryError Unit × Registry :=
  r.unlessBlocked ns key ((r.cut key).add key ⟨value, true⟩)

def update (r : Registry) (key value : String) : Except RegistryError Unit × Registry :=
  if r.has key then (.ok (), r.write key value)
  else (.error (.service (.transactionFailed 0 (.noNode (ns.place key)))), r)

def guarded {α : Type} (r : Registry) (result : Except RegistryError α × Registry) :
    Except RegistryError α × Registry :=
  if r.started then result else (.error .notStarted, r)

def serve (r : Registry) : Call → Reply × Registry
  | .start _ => (r.start).map .outcome id
  | .stop => (r.stop).map .shutdown id
  | .persist key value => (r.guarded (r.persist ns key value)).map .outcome id
  | .update key value => (r.guarded (r.update ns key value)).map .outcome id
  | .persistEphemeral key value => (r.guarded (r.persistEphemeral ns key value)).map .outcome id
  | .remove key => (r.guarded (.ok (), r.cut key)).map .outcome id
  | .getDirectly key => (r.guarded (.ok ((r.item? key).map Item.value), r)).map .text id
  | .isPresent key => (r.guarded (.ok (r.has key), r)).map .flag id
  | .countChildren key => (r.guarded (.ok (r.names key).length, r)).map .count id
  | .childNames key => (r.guarded (if r.has key then .ok (r.names key)
      else .error (.service (.noNode (ns.place key))), r)).map .names id

def serveAll (r : Registry) : List Call → List Reply × Registry
  | [] => ([], r)
  | call :: calls =>
    let (reply, r) := r.serve ns call
    let (replies, r) := r.serveAll calls
    (reply :: replies, r)

end Registry

namespace Registry

variable {r : Registry} {key a : String}

theorem started_unlessBlocked {r' : Registry} (ns : Namespace) (key : String)
    (h : r'.started = r.started) : (r.unlessBlocked ns key r').2.started = r.started := by
  unfold unlessBlocked
  split
  · rfl
  · exact h

theorem started_persist (r : Registry) (ns : Namespace) (key value : String) :
    (r.persist ns key value).2.started = r.started := by
  unfold persist
  split_ifs
  · rfl
  · exact started_unlessBlocked ns key rfl

theorem started_persistEphemeral (r : Registry) (ns : Namespace) (key value : String) :
    (r.persistEphemeral ns key value).2.started = r.started :=
  started_unlessBlocked ns key rfl

theorem started_update (r : Registry) (ns : Namespace) (key value : String) :
    (r.update ns key value).2.started = r.started := by
  unfold update
  split_ifs <;> rfl

/-- What does not lie within a key is not cut. -/
theorem item?_cut (h : isWithin key a = false) : (r.cut key).item? a = r.item? a := by
  unfold item? cut
  induction r.items with
  | nil => rfl
  | cons x xs ih =>
    obtain ⟨k, item⟩ := x
    dsimp only at ih ⊢
    by_cases hk : a = k
    · rw [List.filter_cons_of_pos (by simp [← hk, h]), hk, List.lookup_cons_self,
        List.lookup_cons_self]
    · have hne : (a == k) = false := by simpa using hk
      rw [List.lookup_cons, hne]
      by_cases hw : isWithin key k = true
      · rw [List.filter_cons_of_neg (by simp [hw]), ih]
      · rw [List.filter_cons_of_pos (by simp [hw]), List.lookup_cons, hne, ih]

theorem has_cut (h : Valid key) : (r.cut key).has key = false := by
  have hnone : (r.cut key).item? key = none := by
    refine List.lookup_eq_none_iff.2 fun x hx => ?_
    obtain ⟨-, hw⟩ := List.mem_filter.1 hx
    simp only [Bool.not_eq_eq_eq_not, Bool.not_true] at hw
    simp only [bne_iff_ne, ne_eq]
    rintro rfl
    simp [isWithin_refl h] at hw
  simp [has, hnone]

theorem blocker?_cut (h : Valid key) : (r.cut key).blocker? key = r.blocker? key := by
  unfold blocker?
  refine List.find?_congr fun a ha => ?_
  obtain ⟨hw, hne⟩ := (mem_above_iff (valid_of_mem_above h ha) h).1 ha
  rw [item?_cut]
  by_contra hin
  exact hne (isWithin_antisymm (valid_of_mem_above h ha) h hw (by simpa using hin))

end Registry

/-! ## The calls of a center -/

namespace Center

variable (c : Nat)

def call : Call → Task Reply
  | .start draws => do return .outcome (← start c draws)
  | .stop => do return .shutdown (← stop c)
  | .persist key value => do return .outcome (← persist c key value)
  | .update key value => do return .outcome (← update c key value)
  | .persistEphemeral key value => do return .outcome (← persistEphemeral c key value)
  | .remove key => do return .outcome (← remove c key)
  | .getDirectly key => do return .text (← getDirectly c key)
  | .isPresent key => do return .flag (← isPresent c key)
  | .countChildren key => do return .count (← countChildren c key)
  | .childNames key => do return .names (← childNames c key)

def callAll : List Call → Task (List Reply)
  | [] => pure []
  | first :: rest => do
    let reply ← call c first
    let replies ← callAll rest
    return reply :: replies

end Center

/-- Whether a reply is the expected one. A worker may drain in time or not, and the service counts
children in a 32-bit word. -/
def Reply.Agrees (reply expected : Reply) : Prop :=
  match reply, expected with
  | .shutdown s, .shutdown s' => s = .notRunning ↔ s' = .notRunning
  | .count (.ok n), .count (.ok m) => n = (Int32.ofNat m).toInt.toNat
  | _, _ => reply = expected

end KeyRegistry
