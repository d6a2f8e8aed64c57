import KeyRegistry.Proofs.Scenario.Stages
import KeyRegistry.Proofs.Task.Concert

/-!
# Secrets do not show

Two runs of one list of commands, with settings that differ in their secrets alone, come to
the same: every answer, every notice and all that is kept but the settings themselves.
-/

namespace KeyRegistry

open KeyRegistry.Task (Twin)

namespace Scenario

/-! ## Runs -/

abbrev Order := Names × Command

def Order.task (x : Order) : Task Result := x.2.task x.1

def Order.Alike (x y : Order) : Prop := x.1 = y.1 ∧ x.2.Alike y.2

/-- Runs that nobody can tell apart, unless by reading the settings themselves. -/
structure Indistinct (a b : Concert Order Result) : Prop where
  ended : a.ended = b.ended
  results : ∀ i, (a.outcome? i).map Prod.snd = (b.outcome? i).map Prod.snd
  journal : a.world.journal = b.world.journal
  world : a.world = { b.world with connectors := a.world.connectors }
  connectors : List.Forall₂ (Connector.Akin secrecy) a.world.connectors b.world.connectors

theorem indistinct_of_twins {m : secrecy.Mark} {a b : Concert Order Result}
    (h : Concert.Twins secrecy m a b) : Indistinct a b where
  ended := h.ended
  results := h.result_eq
  journal := h.like.journal
  world := by
    have heq := h.like.eq_with
    rwa [h.like.tallies_eq, show a.world.journal = b.world.journal from h.like.journal] at heq
  connectors := h.like.connectors

/-- Orders that differ in secrets alone make indistinct runs, in whatever order the calls move and
whatever goes on besides, and scenarios that do have the same reports. What is noted of loaded
settings, and of credentials, shows no secret either. -/
theorem secrets_unseen (w : World) {orders orders' : List (Beat Order)}
    (horders : List.Forall₂ (Beat.Alike Order.Alike) orders orders')
    {steps steps' : List (Step × Bool)}
    (hsteps : List.Forall₂ (fun x y => x.1.Alike y.1 ∧ x.2 = y.2) steps steps') :
    Indistinct ((Concert.opening w).play Order.task orders)
        ((Concert.opening w).play Order.task orders') ∧
      run steps = run steps' ∧
      ∀ s s' : Settings, s.Alike s' →
        Settings.loadNotices (.ok s) = Settings.loadNotices (.ok s') ∧
        s.credentials.map Credentials.masked = s'.credentials.map Credentials.masked := by
  have hself : World.Like secrecy () w w := .self w Settings.Alike.same rfl rfl
  have htask (x y : Order) (hxy : x.Alike y) : Twin secrecy Eq x.task y.task := by
    obtain ⟨names, c⟩ := x
    obtain ⟨_, c'⟩ := y
    obtain ⟨rfl, hc⟩ := hxy
    exact hc.twin names
  exact ⟨indistinct_of_twins ((Concert.Twins.opening hself).play htask horders), run_eq hsteps,
    fun s s' hs => ⟨hs.loadNotices_eq, hs.masked_eq⟩⟩

def visit (secret : String) : List (Beat Order) :=
  let settings := (Settings.inMemory "jobs").keyed "ops" secret
  let names : Names := { centers := [("c", .inl 0)] }
  .call ({}, .newCenter "c" settings none false false) :: .move 0 :: .move 0 ::
    .call (names, .center "c" .start) :: List.replicate 40 (.move 1) ++
    .call (names, .center "c" (.persist "/job" "due")) :: List.replicate 20 (.move 2)

def visitSteps (secret : String) : List (Step × Bool) :=
  let settings := (Settings.inMemory "jobs").keyed "ops" secret
  [(.single (.newCenter "c" settings none false false), true),
    (.single (.center "c" .start), true),
    (.single (.center "c" (.persist "/job" "due")), true)]

theorem secrets_unseen_visit :
    List.Forall₂ (Beat.Alike Order.Alike) (visit "alpha") (visit "beta") ∧
    List.Forall₂ (fun x y => x.1.Alike y.1 ∧ x.2 = y.2) (visitSteps "alpha") (visitSteps "beta") ∧
    Indistinct ((Concert.opening {}).play Order.task (visit "alpha"))
      ((Concert.opening {}).play Order.task (visit "beta")) ∧
    run (visitSteps "alpha") = run (visitSteps "beta") := by
  have hsettings : ((Settings.inMemory "jobs").keyed "ops" "alpha").Alike
      ((Settings.inMemory "jobs").keyed "ops" "beta") := .secrets _ (by decide) ..
  have horders : List.Forall₂ (Beat.Alike Order.Alike) (visit "alpha") (visit "beta") :=
    .cons (.call ⟨rfl, .newCenter "c" hsettings none false false⟩)
      (List.forall₂_same.2 fun x _ => .self (fun order => ⟨rfl, .same order.2⟩) x)
  have hsteps : List.Forall₂ (fun x y => x.1.Alike y.1 ∧ x.2 = y.2) (visitSteps "alpha")
      (visitSteps "beta") :=
    .cons ⟨.single (.newCenter "c" hsettings none false false), rfl⟩
      (.cons ⟨.single (.same _), rfl⟩ (.cons ⟨.single (.same _), rfl⟩ .nil))
  obtain ⟨hplay, hrun, -⟩ := secrets_unseen {} horders hsteps
  exact ⟨horders, hsteps, hplay, hrun⟩

/-- The visit comes to its end. -/
example : ((Concert.opening {}).play Order.task (visit "alpha")).ended = [0, 1, 2] := by
  decide +kernel

end Scenario

end KeyRegistry
