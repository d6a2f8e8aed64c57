import KeyRegistry.Proofs.Replica.Filling
import KeyRegistry.Proofs.Task.Ends

/-!
# While a client waits

Between two moves of a client that has the service to itself, time passes and
the workers of the replicas move. Workers only read, so every tree and every
session stays as it is.
-/

namespace KeyRegistry

namespace Ensemble

variable {e e' e'' : Ensemble}

structure Unwritten (e e' : Ensemble) : Prop where
  tree : e'.tree = e.tree
  sessions : e'.sessions = e.sessions
  faults : e'.faults = e.faults

theorem Unwritten.refl (e : Ensemble) : e.Unwritten e := ⟨rfl, rfl, rfl⟩

theorem Unwritten.trans (h : e.Unwritten e') (h' : e'.Unwritten e'') : e.Unwritten e'' :=
  ⟨h'.tree.trans h.tree, h'.sessions.trans h.sessions, h'.faults.trans h.faults⟩

theorem unwritten_of_reads {i : Nat} (h : Reads i e e') : e.Unwritten e' :=
  ⟨h.frame.1, h.frame.2.1, h.frame.2.2.1⟩

theorem eq_of_accept {now id : Nat} {hold : Hold} (h : e.accept now id = .ok (hold, e'))
    (hpending : e.faults.pending = []) : e' = e := by
  obtain ⟨-, rfl⟩ := accept_eq_ok h
  rw [hpending, List.tail_nil, ← hpending]

theorem complete_getData (e : Ensemble) (id : Nat) (fault : Option ServiceError) (p : String) :
    (e.complete id fault (.getData p)).2 = e := by
  rcases complete_cases e id fault (.getData p) with ⟨_, heq⟩ | ⟨-, heq⟩ <;> rw [heq]
  rfl

theorem complete_getChildren (e : Ensemble) (id : Nat) (fault : Option ServiceError)
    (p : String) : (e.complete id fault (.getChildren p)).2 = e := by
  rcases complete_cases e id fault (.getChildren p) with ⟨_, heq⟩ | ⟨-, heq⟩ <;> rw [heq]
  rfl

end Ensemble

/-! ## The moves of workers -/

namespace Replica

variable {m : Replica} {e e' : Ensemble} {now session stored : Nat} {v : Move} {w : Worker}
  {p : String}

structure ReadsOnly (m : Replica) (e : Ensemble) (v : Move) : Prop where
  root : v.replica.root = m.root
  phase : v.replica.phase = m.phase
  unwritten : e.faults.pending = [] → e.Unwritten v.ensemble

theorem readsOnly_stop (m : Replica) (w : Worker) (h : e.faults.pending = [] → e.Unwritten e')
    (notices : List Notice) : m.ReadsOnly e (m.stop w e' notices) where
  root := rfl
  phase := rfl
  unwritten hpending := (h hpending).trans (Ensemble.unwritten_of_reads (.drop (i := w.watch) e'))

theorem readsOnly_withActivity (m : Replica) (w : Worker) (a : Activity)
    (h : e.faults.pending = [] → e.Unwritten e') (notices : List Notice) :
    m.ReadsOnly e ⟨m.withActivity w a, e', notices⟩ :=
  ⟨rfl, rfl, h⟩

theorem unwritten_of_stepReading {r r' : Reading} {notices : List Notice}
    (h : stepReading now e session p r = some (r', e', notices))
    (hpending : e.faults.pending = []) : e.Unwritten e' := by
  suffices e' = e from this ▸ .refl e
  cases r with
  | untouched =>
    cases haccept : e.accept now session with
    | error error => simp_all [stepReading]
    | ok accepted =>
      obtain ⟨hold, e₁⟩ := accepted
      have := Ensemble.eq_of_accept haccept hpending
      simp_all [stepReading]
  | data hold =>
    have hsame := Ensemble.complete_getData e session hold.fault p
    simp only [stepReading] at h
    split_ifs at h
    split at h <;> simp_all
  | dataRead data stat =>
    cases haccept : e.accept now session with
    | error error => simp_all [stepReading]
    | ok accepted =>
      obtain ⟨hold, e₁⟩ := accepted
      have := Ensemble.eq_of_accept haccept hpending
      simp_all [stepReading]
  | children data stat hold =>
    have hsame := Ensemble.complete_getChildren e session hold.fault p
    simp only [stepReading] at h
    split_ifs at h
    split at h <;> simp_all
  | finished found => simp [stepReading] at h
  | failed error => simp [stepReading] at h

theorem readsOnly_of_stepFilling {level : List (String × Reading)}
    (h : m.stepFilling now w e stored level = some v) : m.ReadsOnly e v := by
  unfold stepFilling at h
  split at h
  · rename_i found _
    obtain rfl := Option.some.inj h
    unfold closeLevel
    split <;> exact ⟨root_storeLevel m found, phase_storeLevel m found, fun _ => .refl e⟩
  · obtain rfl := Option.some.inj h
    unfold failFilling
    split_ifs
    · exact readsOnly_stop m w (fun _ => .refl e) _
    · exact readsOnly_withActivity m w _ (fun _ => .refl e) _
  · obtain ⟨⟨level', e', notices⟩, hlevel, rfl⟩ := Option.map_eq_some_iff.1 h
    obtain ⟨before, a, r, r', after, rfl, hreading, rfl⟩ := stepLevel_cases hlevel
    exact readsOnly_withActivity m w _ (unwritten_of_stepReading hreading) _

theorem readsOnly_failRefresh (m : Replica) (w : Worker)
    (h : e.faults.pending = [] → e.Unwritten e') (p : String) (error : ServiceError) :
    m.ReadsOnly e (m.failRefresh w e' p error) := by
  unfold failRefresh
  split_ifs
  · exact readsOnly_stop m w h _
  · exact readsOnly_withActivity m w _ h _

theorem readsOnly_of_stepListening (h : m.stepListening now w e = some v) : m.ReadsOnly e v := by
  unfold stepListening at h
  split at h
  · rename_i event e₁ hnext
    have htaken : e.Unwritten e₁ := Ensemble.unwritten_of_reads (.take hnext)
    split at h
    · obtain rfl := Option.some.inj h
      exact ⟨rfl, rfl, fun _ => htaken⟩
    · split at h
      · rename_i hold e₂ haccept
        obtain rfl := Option.some.inj h
        refine readsOnly_withActivity m w _ (fun hpending => ?_) _
        rw [Ensemble.eq_of_accept haccept (by rw [htaken.faults, hpending])]
        exact htaken
      · obtain rfl := Option.some.inj h
        exact readsOnly_failRefresh m w (fun _ => htaken) _ _
  · split at h
    · simp at h
    · obtain rfl := Option.some.inj h
      exact readsOnly_stop m w (fun _ => .refl e) _

theorem readsOnly_of_stepRefreshing {hold : Hold}
    (h : m.stepRefreshing now w e p hold = some v) : m.ReadsOnly e v := by
  have hsame := Ensemble.complete_getData e w.session hold.fault p
  unfold stepRefreshing at h
  split_ifs at h
  split at h <;> rename_i hread <;> rw [hread] at hsame <;> obtain rfl := Option.some.inj h
  · exact ⟨rfl, rfl, fun _ => hsame ▸ .refl e⟩
  · exact ⟨rfl, rfl, fun _ => hsame ▸ .refl e⟩
  · exact ⟨rfl, rfl, fun _ => hsame ▸ .refl e⟩
  · exact readsOnly_failRefresh m w (fun _ => hsame ▸ .refl e) _ _

theorem readsOnly_of_step (h : m.step now e = some v) : m.ReadsOnly e v := by
  obtain ⟨w, hw, h⟩ := Option.bind_eq_some_iff.1 h
  split at h
  · simp at h
  · split_ifs at h
    · obtain rfl := Option.some.inj h
      exact readsOnly_stop m w (fun _ => .refl e) _
    · exact readsOnly_of_stepRefreshing h
  · split_ifs at h
    · obtain rfl := Option.some.inj h
      exact readsOnly_stop m w (fun _ => .refl e) _
    · exact readsOnly_of_stepFilling h
  · split_ifs at h
    · obtain rfl := Option.some.inj h
      exact readsOnly_stop m w (fun _ => .refl e) _
    · exact readsOnly_of_stepListening h

theorem readsOnly_of_run (now moves left : Nat) (v₀ : Move) :
    v₀.replica.ReadsOnly v₀.ensemble (run now moves left v₀) := by
  induction moves generalizing left v₀ with
  | zero => exact ⟨rfl, rfl, fun _ => .refl _⟩
  | succ moves ih =>
    unfold run
    split
    · exact ⟨rfl, rfl, fun _ => .refl _⟩
    · rename_i next hnext
      have hfirst := readsOnly_of_step hnext
      dsimp only
      split_ifs
      · exact ⟨rfl, rfl, fun _ => .refl _⟩
      · have hrest := ih (left - v₀.replica.effort now)
          { next with notices := v₀.notices ++ next.notices }
        refine ⟨hrest.root.trans hfirst.root, hrest.phase.trans hfirst.phase, fun hpending => ?_⟩
        have hunwritten := hfirst.unwritten hpending
        exact hunwritten.trans (hrest.unwritten (by rw [← hpending, ← hunwritten.faults]))

end Replica

/-! ## The world meanwhile -/

namespace World

variable {w w' w'' : World} {i k : Nat} {m : Replica} {e : Ensemble}

/-- What stays of the world while clients wait, if no fault is injected: time may pass and workers
may move. -/
structure Meanwhile (w w' : World) : Prop where
  now : w.now ≤ w'.now
  centers : w'.centers = w.centers
  connectors : w'.connectors = w.connectors
  ensemble {k : Nat} {e : Ensemble} : w.ensembles[k]? = some e → e.faults.pending = [] →
    ∃ e', w'.ensembles[k]? = some e' ∧ e.Unwritten e'
  replica {i : Nat} {m : Replica} : w.replicas[i]? = some m →
    ∃ m', w'.replicas[i]? = some m' ∧ m'.root = m.root ∧ m'.phase = m.phase

theorem Meanwhile.refl (w : World) : w.Meanwhile w where
  now := Nat.le_refl _
  centers := rfl
  connectors := rfl
  ensemble he _ := ⟨_, he, .refl _⟩
  replica hm := ⟨_, hm, rfl, rfl⟩

theorem Meanwhile.trans (h : w.Meanwhile w') (h' : w'.Meanwhile w'') : w.Meanwhile w'' where
  now := Nat.le_trans h.now h'.now
  centers := h'.centers.trans h.centers
  connectors := h'.connectors.trans h.connectors
  ensemble he hpending := by
    obtain ⟨e', he', hkept⟩ := h.ensemble he hpending
    obtain ⟨e'', he'', hkept'⟩ := h'.ensemble he' (by rw [hkept.faults, hpending])
    exact ⟨e'', he'', hkept.trans hkept'⟩
  replica hm := by
    obtain ⟨m', hm', hroot, hphase⟩ := h.replica hm
    obtain ⟨m'', hm'', hroot', hphase'⟩ := h'.replica hm'
    exact ⟨m'', hm'', hroot'.trans hroot, hphase'.trans hphase⟩

theorem meanwhile_later (w : World) {now : Nat} (h : w.now ≤ now) :
    w.Meanwhile { w with now := now } :=
  { Meanwhile.refl w with now := h }

/-- A worker's turn, with what it has read and noted put back into the world. -/
theorem meanwhile_runWorker (moves : Nat) (w : World) (i : Nat) :
    w.Meanwhile (w.runWorker moves i) := by
  unfold runWorker
  split
  · exact .refl w
  · rename_i m hm
    split
    · exact .refl w
    · rename_i worker _
      have hreads := Replica.readsOnly_of_run w.now moves Replica.turnEffort
        ⟨m, w.ensemble worker.ensemble, []⟩
      refine ⟨Nat.le_refl _, rfl, rfl, fun {k e} he hpending => ?_, fun {j m'} hm' => ?_⟩
      · obtain ⟨hlt, -⟩ := List.getElem?_eq_some_iff.1 he
        by_cases hk : worker.ensemble = k
        · subst hk
          have he' : w.ensemble worker.ensemble = e := by simp [ensemble, he]
          rw [he'] at hreads ⊢
          exact ⟨_, List.getElem?_set_self hlt, hreads.unwritten hpending⟩
        · exact ⟨e, (List.getElem?_set_ne hk).trans he, .refl e⟩
      · by_cases hj : i = j
        · subst hj
          obtain rfl : m = m' := Option.some.inj (hm.symm.trans hm')
          refine ⟨_, (List.getElem?_modify_eq ..).trans (congrArg _ hm'), hreads.root, hreads.phase⟩
        · exact ⟨m', (List.getElem?_modify_ne _ _ hj).trans hm', rfl, rfl⟩

end World

end KeyRegistry
