import KeyRegistry.Center.Lifecycle
import KeyRegistry.Proofs.Replica.Attending

/-!
# Histories

A history is a course of starts and stops of centers. At every moment, also between
two moves of a start or a stop, time may pass, workers may have their turns, and the
service may take steps, of which kinds is left open here.
-/

namespace KeyRegistry

namespace World

variable {S : Ensemble → Ensemble → Prop} {w w' : World}

/-- What goes on in the world besides starts and stops: nothing that concerns the service and its
clients, a step at the service, or a turn of a worker. -/
inductive Stirs (S : Ensemble → Ensemble → Prop) : World → World → Prop
  | aside {w w' : World} (ensembles : w'.ensembles = w.ensembles)
      (replicas : w'.replicas = w.replicas) (connectors : w'.connectors = w.connectors)
      (centers : w'.centers = w.centers) : Stirs S w w'
  | service {w : World} {k : Nat} {e : Ensemble} (step : S (w.ensemble k) e) :
      Stirs S w (w.setEnsemble k e)
  | worker (moves : Nat) (w : World) (i : Nat) : Stirs S w (w.runWorker moves i)

def Stirring (S : Ensemble → Ensemble → Prop) : World → World → Prop :=
  Relation.ReflTransGen (Stirs S)

inductive Happens (S : Ensemble → Ensemble → Prop) : World → World → Prop
  | stirs {w w' : World} (stirs : Stirs S w w') : Happens S w w'
  | start {w w' : World} {c : Nat} {draws : Nat → Nat} {result : Except RegistryError Unit}
      (known : c < w.centers.length)
      (run : Task.Execution (Stirring S) w (Center.start c draws) w' (.done result)) :
      Happens S w w'
  | stop {w w' : World} {c : Nat} {outcome : Shutdown} (known : c < w.centers.length)
      (run : Task.Execution (Stirring S) w (Center.stop c) w' (.done outcome)) : Happens S w w'

def History (S : Ensemble → Ensemble → Prop) : World → World → Prop :=
  Relation.ReflTransGen (Happens S)

/-- What each stir preserves is stable. -/
theorem stable_stirring {P : World → Prop} (h : ∀ w w', P w → Stirs S w w' → P w') :
    Task.Stable (Stirring S) P := by
  intro w w' hw hs
  induction hs with
  | refl => exact hw
  | tail _ hnext ih => exact h _ _ ih hnext

theorem Stirs.mono {S' : Ensemble → Ensemble → Prop} (h : Stirs S w w')
    (himp : ∀ e e', S e e' → S' e e') : Stirs S' w w' := by
  cases h with
  | aside ensembles replicas connectors centers =>
    exact .aside ensembles replicas connectors centers
  | service step => exact .service (himp _ _ step)
  | worker moves w i => exact .worker moves w i

theorem Stirs.frame (h : Stirs S w w') :
    w'.centers = w.centers ∧ w'.connectors = w.connectors := by
  cases h with
  | aside ensembles replicas connectors centers => exact ⟨centers, connectors⟩
  | service step => exact ⟨rfl, rfl⟩
  | worker moves w i =>
    have hm := meanwhile_runWorker moves w i
    exact ⟨hm.centers, hm.connectors⟩

/-- An ensemble that is replaced is followed by one that is related to it, and so is any other. -/
theorem exists_set_ensemble {R : Ensemble → Ensemble → Prop} (hrefl : ∀ e, R e e) {k : Nat}
    {e : Ensemble} (h : R (w.ensemble k) e) {j : Nat} {e₁ : Ensemble}
    (he : w.ensembles[j]? = some e₁) : ∃ e₂, (w.ensembles.set k e)[j]? = some e₂ ∧ R e₁ e₂ := by
  obtain ⟨hlt, -⟩ := List.getElem?_eq_some_iff.1 he
  by_cases hk : k = j
  · subst hk
    have hens : w.ensemble k = e₁ := by simp [ensemble, he]
    exact ⟨e, List.getElem?_set_self hlt, hens ▸ h⟩
  · exact ⟨e₁, (List.getElem?_set_ne hk).trans he, hrefl e₁⟩

/-- The turn of a worker: nothing happens if there is none, and else its replica and its ensemble
are put back as the turn has left them. -/
theorem runWorker_cases (moves : Nat) (w : World) (i : Nat) : w.runWorker moves i = w ∨
    ∃ m u a v, w.replica? i = some m ∧ m.worker = some u ∧
      Replica.Works m u (w.ensemble u.ensemble) a v ∧ m.Ages v.replica ∧
      (w.runWorker moves i).ensembles = w.ensembles.set u.ensemble v.ensemble ∧
      (w.runWorker moves i).replicas = w.replicas.modify i fun _ => v.replica := by
  unfold runWorker
  split
  · exact .inl rfl
  · rename_i m hm
    split
    · exact .inl rfl
    · rename_i u hu
      obtain ⟨a, hworks⟩ := Replica.works_of_run hu w.now moves Replica.turnEffort []
      exact .inr ⟨m, u, a, _, hm, hu, hworks, Replica.ages_of_run _ _ _ ⟨m, _, []⟩, rfl, rfl⟩

end World

end KeyRegistry
