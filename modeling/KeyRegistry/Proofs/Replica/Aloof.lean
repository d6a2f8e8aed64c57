import KeyRegistry.Proofs.Ensemble.Reception
import KeyRegistry.Proofs.Replica.Working
import KeyRegistry.Proofs.World.History

/-!
# While nobody connects

A worker keeps to the session that it was given. So whatever stirs in the world, nobody is
received at an ensemble unless somebody connects to it.
-/

namespace KeyRegistry

namespace Replica

variable {m : Replica} {e e' : Ensemble} {u : Worker} {v : Move} {s now stored : Nat} {a p : String}
  {r r' : Reading}

theorem Proceeds.unapproached (h : Proceeds e e' s now a r r') : e.Unapproached e' := by
  cases h with
  | asked accepted => exact Ensemble.unapproached_of_accept accepted
  | askedOn accepted => exact Ensemble.unapproached_of_accept accepted
  | read same | skipped same | listed same | vanished same | failed same => exact same ▸ .refl e

theorem unapproached_stop (m : Replica) (u : Worker) (h : e.Unapproached e')
    (notices : List Notice) : e.Unapproached (m.stop u e' notices).ensemble :=
  h.trans (Ensemble.unapproached_of_reads (.drop e'))

theorem unapproached_failRefresh (m : Replica) (u : Worker) (h : e.Unapproached e') (p : String)
    (error : ServiceError) : e.Unapproached (m.failRefresh u e' p error).ensemble := by
  unfold failRefresh
  split_ifs
  · exact unapproached_stop m u h _
  · exact h

theorem unapproached_of_stepFilling {level : List (String × Reading)}
    (h : m.stepFilling now u e stored level = some v) : e.Unapproached v.ensemble := by
  unfold stepFilling at h
  split at h
  · obtain rfl := Option.some.inj h
    unfold closeLevel
    split <;> exact .refl e
  · obtain rfl := Option.some.inj h
    unfold failFilling
    split_ifs
    · exact unapproached_stop m u (.refl e) _
    · exact .refl e
  · obtain ⟨⟨level', e', notices⟩, hlevel, rfl⟩ := Option.map_eq_some_iff.1 h
    obtain ⟨before, b, r, r', after, rfl, hreading, rfl⟩ := stepLevel_cases hlevel
    exact (proceeds_of_stepReading hreading).unapproached

theorem unapproached_of_stepListening (h : m.stepListening now u e = some v) :
    e.Unapproached v.ensemble := by
  unfold stepListening at h
  split at h
  · rename_i event e₁ hnext
    have htaken := Ensemble.unapproached_of_reads (.take hnext)
    split at h
    · obtain rfl := Option.some.inj h
      exact htaken
    · split at h
      · rename_i hold e₂ haccept
        obtain rfl := Option.some.inj h
        exact htaken.trans (Ensemble.unapproached_of_accept haccept)
      · obtain rfl := Option.some.inj h
        exact unapproached_failRefresh m u htaken _ _
  · split at h
    · simp at h
    · obtain rfl := Option.some.inj h
      exact unapproached_stop m u (.refl e) _

theorem unapproached_of_stepRefreshing {hold : Hold}
    (h : m.stepRefreshing now u e p hold = some v) : e.Unapproached v.ensemble := by
  have hsame := Ensemble.complete_getData e u.session hold.fault p
  unfold stepRefreshing at h
  split_ifs at h
  split at h <;> rename_i hread <;> rw [hread] at hsame <;> obtain rfl := hsame.symm <;>
    obtain rfl := Option.some.inj h
  · exact .refl e
  · exact .refl e
  · exact .refl e
  · exact unapproached_failRefresh m u (.refl e) p _

theorem unapproached_of_step (h : m.step now e = some v) : e.Unapproached v.ensemble := by
  obtain ⟨u, -, ⟨-, rfl⟩ | ⟨stored, level, -, hstep⟩ | ⟨-, hstep⟩ | ⟨p, hold, -, hstep⟩⟩ :=
    cases_of_step h
  · exact unapproached_stop m u (.refl e) _
  · exact unapproached_of_stepFilling hstep
  · exact unapproached_of_stepListening hstep
  · exact unapproached_of_stepRefreshing hstep

theorem unapproached_of_run (now moves left : Nat) (v : Move) :
    v.ensemble.Unapproached (run now moves left v).ensemble := by
  induction moves generalizing left v with
  | zero => exact .refl _
  | succ moves ih =>
    unfold run
    split
    · exact .refl _
    · rename_i next hnext
      dsimp only
      split_ifs
      · exact .refl _
      · exact (unapproached_of_step hnext).trans
          (ih _ { next with notices := v.notices ++ next.notices })

end Replica

namespace World

variable {w w' w'' : World} {i k : Nat} {e : Ensemble}

structure Unapproached (i : Nat) (w w' : World) : Prop where
  connector : w'.connectors[i]? = w.connectors[i]?
  ensemble {settings : Settings} {k : Nat} {e : Ensemble} :
    w.connectors[i]? = some ⟨settings, .ensemble k⟩ → w.ensembles[k]? = some e →
    ∃ e', w'.ensembles[k]? = some e' ∧ e.Unapproached e'

theorem Unapproached.trans (h : w.Unapproached i w') (h' : w'.Unapproached i w'') :
    w.Unapproached i w'' where
  connector := h'.connector.trans h.connector
  ensemble hl he := by
    obtain ⟨e', he', hkept⟩ := h.ensemble hl he
    obtain ⟨e'', he'', hkept'⟩ := h'.ensemble (h.connector.trans hl) he'
    exact ⟨e'', he'', hkept.trans hkept'⟩

/-- A connector does not notice what goes on in the world, short of somebody connecting. -/
theorem Stirs.unapproached (h : Stirs Ensemble.Unapproached w w') (i : Nat) :
    w.Unapproached i w' where
  connector := by rw [h.frame.2]
  ensemble _ he := by
    cases h with
    | aside ensembles => exact ⟨_, by rw [ensembles]; exact he, .refl _⟩
    | service step => exact exists_set_ensemble Ensemble.Unapproached.refl step he
    | worker moves w j =>
      unfold runWorker
      split
      · exact ⟨_, he, .refl _⟩
      · split
        · exact ⟨_, he, .refl _⟩
        · exact exists_set_ensemble Ensemble.Unapproached.refl
            (Replica.unapproached_of_run _ _ _ ⟨_, _, []⟩) he

theorem unapproached_of_stirring (h : Stirring Ensemble.Unapproached w w') (i : Nat) :
    w.Unapproached i w' := by
  induction h with
  | refl => exact ⟨rfl, fun _ he => ⟨_, he, .refl _⟩⟩
  | tail _ hnext ih => exact ih.trans (hnext.unapproached i)

end World

end KeyRegistry
