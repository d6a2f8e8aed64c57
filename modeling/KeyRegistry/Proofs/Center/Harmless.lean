import KeyRegistry.Proofs.Center.Errand
import KeyRegistry.Proofs.Task.Within
import KeyRegistry.Proofs.World.Ageing

/-!
# Errands are harmless

An errand asks for no watch and alters nothing but at the service. So whatever an errand
does is something that may befall the service anyway.
-/

namespace KeyRegistry

def Request.Plain (r : Request) : Prop := ∀ root, r ≠ .watch root

/-! ## Dialogues -/

namespace Key

open Dialogue

variable {full : String} {value : List UInt8}

theorem plain_createWithParents (full : String) (value : List UInt8) (mode : Mode) :
    (createWithParents full value mode).Only Request.Plain :=
  only_createWithParents (fun _ => nofun) fun _ _ _ => nofun

theorem plain_deleteRecursive (full : String) : (deleteRecursive full).Only Request.Plain :=
  only_deleteFrom (fun _ _ => nofun) (fun _ _ => nofun) ..

theorem plain_read (full : String) : (read full).Only Request.Plain := by
  refine (only_ask fun _ => nofun).bind fun answer => ?_
  split <;> trivial

theorem plain_readRaw (full : String) : (readRaw full).Only Request.Plain := by
  refine (only_ask fun _ => nofun).bind fun answer => ?_
  split <;> trivial

theorem plain_update (full : String) (value : List UInt8) :
    (update full value).Only Request.Plain :=
  (only_ask fun _ => nofun).bind fun _ => trivial

theorem plain_persist (full : String) (value : List UInt8) :
    (persist full value).Only Request.Plain := by
  refine (only_ask fun _ => nofun).bind fun answer => ?_
  split
  · trivial
  · exact plain_update full value
  · refine (plain_createWithParents ..).bind fun made => ?_
    split
    · trivial
    · exact plain_update full value
    · trivial

theorem plain_persistEphemeral (full : String) (value : List UInt8) :
    (persistEphemeral full value).Only Request.Plain := by
  refine (only_ask fun _ => nofun).bind fun answer => ?_
  split
  · trivial
  · exact (plain_createWithParents ..).bind fun _ => trivial
  · refine (plain_deleteRecursive full).bind fun deleted => ?_
    split
    · trivial
    · exact (plain_createWithParents ..).bind fun _ => trivial

theorem plain_touched (full : String) : (touched full).Only Request.Plain := by
  refine (only_ask fun _ => nofun).bind fun answer => ?_
  split <;> trivial

end Key

/-! ## Tasks -/

namespace Task

variable {α : Type} {w w' : World} {t t' : Task α}

def Harmless (t : Task α) : Prop := t.Within Eq Request.Plain

/-- What a harmless task does could befall others anyway. -/
theorem Harmless.step (h : t.Harmless) (hstep : t.step w = some (w', t')) :
    World.Stirs Ensemble.Befalls w w' ∧ t'.Harmless := by
  obtain ⟨hmoving, hrest⟩ := Within.step h hstep
  refine ⟨?_, hrest⟩
  cases hmoving with
  | instant instant =>
    subst instant
    exact .aside rfl rfl rfl rfl
  | nothing => exact .aside rfl rfl rfl rfl
  | note n => exact .aside rfl rfl rfl rfl
  | accept accepted =>
    unfold World.accept at accepted
    split at accepted
    · rename_i he
      obtain ⟨-, rfl⟩ := Prod.ext_iff.1 (Except.ok.inj accepted)
      exact .service (.accept he)
    · cases accepted
  | complete s fault asked => exact .service (.complete _ _ fault asked)

/-- All that happens while a harmless task runs would stir the world as well without it. -/
theorem Harmless.stirring (h : t.Harmless)
    (hexec : Execution (World.Stirring Ensemble.Befalls) w t w' t') :
    World.Stirring Ensemble.Befalls w w' := by
  induction hexec with
  | here => exact .refl
  | move between step _ ih =>
    obtain ⟨hstirs, hrest⟩ := h.step step
    exact (between.tail hstirs).trans (ih hrest)

end Task

/-! ## Errands -/

namespace Center

variable {α : Type} {c : Nat} {h : SessionHandle} {key : String}

theorem harmless_onKey {d : Active → String → Dialogue (Except RegistryError α)}
    (hd : ∀ a full, (d a full).Only Request.Plain) : (onKey c key d).Harmless := by
  refine (Task.within_look (fun _ => rfl) _).bind fun placed => ?_
  split
  · trivial
  · exact Task.within_say _ (hd _ _)

theorem harmless_handle {d : String → Dialogue (Except RegistryError α)}
    (hd : ∀ full, (d full).Only Request.Plain) : (h.onKey key d).Harmless := by
  unfold SessionHandle.onKey
  split
  · trivial
  · exact Task.within_say _ (hd _)

/-- Every operation of a center and of its handle is harmless. -/
theorem harmless_errand (op : Errand) : (op.task c h key).Harmless := by
  have hasked {β : Type} {r : Request} {f : r.Answer → β} (hr : r.Plain) :
      (Dialogue.ask r >>= fun answer => pure (f answer)).Only Request.Plain :=
    (Dialogue.only_ask hr).bind fun _ => trivial
  cases op with
  | get =>
    refine (Task.within_look (fun _ => rfl) _).bind fun placed => ?_
    split
    · trivial
    · refine (Task.within_look (fun _ => rfl) _).bind fun copy => ?_
      split
      · trivial
      · exact Task.within_say _ (Key.plain_read _)
  | getDirectly => exact harmless_onKey fun _ => Key.plain_read
  | childNames => exact harmless_onKey fun _ _ => hasked fun _ => nofun
  | countChildren => exact harmless_onKey fun _ _ => hasked fun _ => nofun
  | isPresent => exact harmless_onKey fun _ _ => hasked fun _ => nofun
  | persist value => exact harmless_onKey fun _ full => Key.plain_persist full _
  | update value => exact harmless_onKey fun _ full => Key.plain_update full _
  | persistEphemeral value => exact harmless_onKey fun _ full => Key.plain_persistEphemeral full _
  | persistEphemeralSequential =>
    exact harmless_onKey fun _ _ => (Key.plain_createWithParents ..).bind fun _ => trivial
  | persistSequential value =>
    exact harmless_onKey fun _ _ => (Key.plain_createWithParents ..).bind fun _ => trivial
  | remove =>
    exact harmless_onKey fun _ _ => (Key.plain_deleteRecursive _).bind fun _ => trivial
  | time =>
    refine (harmless_onKey fun _ full => Key.plain_persist full _).bind fun touched => ?_
    split
    · trivial
    · exact harmless_onKey fun _ => Key.plain_touched
  | create content mode =>
    exact harmless_handle fun _ => (Key.plain_createWithParents ..).bind fun _ => trivial
  | stat => exact harmless_handle fun _ => hasked fun _ => nofun
  | data => exact harmless_handle Key.plain_readRaw
  | children => exact harmless_handle fun _ => hasked fun _ => nofun
  | delete => exact harmless_handle fun _ => (Key.plain_deleteRecursive _).bind fun _ => trivial
  | deleteVersion version => exact harmless_handle fun _ => hasked fun _ => nofun

end Center

end KeyRegistry
