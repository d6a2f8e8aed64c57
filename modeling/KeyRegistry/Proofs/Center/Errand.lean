import KeyRegistry.Center.Handle
import KeyRegistry.Proofs.Namespace.Place
import KeyRegistry.Proofs.Task.Alone

/-!
# Errands

What a client may ask about one key: the operations of a started center, and those of
the handle of its session. The key is placed before the service is asked, so an errand on
a text that is no key comes to nothing.
-/

namespace KeyRegistry

open KeyRegistry.Path

inductive Errand
  | get
  | getDirectly
  | childNames
  | countChildren
  | isPresent
  | persist (value : String)
  | update (value : String)
  | persistEphemeral (value : String)
  | persistEphemeralSequential
  | persistSequential (value : String)
  | remove
  | time
  | create (content : List UInt8) (mode : Mode)
  | stat
  | data
  | children
  | delete
  | deleteVersion (version : Int32)
  deriving DecidableEq, Repr

namespace Errand

@[reducible] def Result : Errand → Type
  | .get | .getDirectly => Option String
  | .childNames | .children => List String
  | .countChildren => Nat
  | .isPresent => Bool
  | .persistEphemeralSequential | .persistSequential _ | .create .. => String
  | .stat => Option Stat
  | .data => Option (List UInt8 × Stat)
  | _ => Unit

def task (c : Nat) (h : SessionHandle) (key : String) :
    (op : Errand) → Task (Except RegistryError op.Result)
  | .get => Center.get c key
  | .getDirectly => Center.getDirectly c key
  | .childNames => Center.childNames c key
  | .countChildren => Center.countChildren c key
  | .isPresent => Center.isPresent c key
  | .persist value => Center.persist c key value
  | .update value => Center.update c key value
  | .persistEphemeral value => Center.persistEphemeral c key value
  | .persistEphemeralSequential => Center.persistEphemeralSequential c key
  | .persistSequential value => Center.persistSequential c key value
  | .remove => Center.remove c key
  | .time => Center.time c key
  | .create content mode => h.create key content mode
  | .stat => h.stat key
  | .data => h.data key
  | .children => h.children key
  | .delete => h.delete key
  | .deleteVersion version => h.deleteVersion key version

def Writes : Errand → Prop
  | .persist _ | .update _ | .persistEphemeral _ | .persistEphemeralSequential
  | .persistSequential _ | .remove => True
  | _ => False

def Clears : Errand → Prop
  | .persistEphemeral _ | .remove => True
  | _ => False

def Numbers : Errand → Prop
  | .persistEphemeralSequential | .persistSequential _ => True
  | .create _ mode => mode.sequential = true
  | _ => False

def bytes : Errand → List UInt8
  | .persistSequential value => Text.Utf8.encode value
  | .create content _ => content
  | _ => []

def text : Errand → String
  | .persistSequential value => value
  | .create content _ => Text.Utf8.decodeLossy content
  | _ => ""

def numbered? : (op : Errand) → op.Result → Option String
  | .persistEphemeralSequential, key | .persistSequential _, key => some key
  | .create _ mode, key => if mode.sequential then some key else none
  | _, _ => none

end Errand

/-! ## Placing the key -/

namespace Center

variable {α : Type} {w v : World} {c k : Nat} {a : Active} {e : Ensemble} {key : String}

theorem place_of_active (hactive : w.active? c = some a) (key : String) :
    (Valid key ∧ place w c key = .ok (a, a.scope.place key)) ∨
      (¬Valid key ∧ ∃ error, place w c key = .error error) := by
  unfold place
  rw [hactive]
  rcases a.scope.resolve_cases key with ⟨hk, heq⟩ | ⟨hk, fault, heq⟩
  · exact .inl ⟨hk, by simp [heq]⟩
  · exact .inr ⟨hk, .ofPathFault key fault, by simp [heq]⟩

/-- A center that is alone refuses a text that is no key, and else holds the dialogue about the
place of the key. -/
theorem ends_onKey_alone (hactive : w.active? c = some a) (hv : w.Puts k e v)
    {post : Except RegistryError α → World → Prop}
    {d : Active → String → Dialogue (Except RegistryError α)}
    (hrefused : ¬Valid key → ∀ error v, w.Puts k e v → post (.error error) v)
    (hplaced : Valid key → ∀ v, w.Puts k e v →
      Task.Ends World.later post v (Task.say a.session (d a (a.scope.place key)))) :
    Task.Ends World.later post v (onKey c key d) := by
  refine Task.ends_look (World.stable_puts w k e) hv fun v hv => ?_
  rcases place_of_active ((hv.active?_eq c).trans hactive) key with
    ⟨hk, heq⟩ | ⟨hk, error, heq⟩ <;> rw [heq]
  · exact hplaced hk v hv
  · exact .done (hrefused hk error v hv)

end Center

end KeyRegistry
