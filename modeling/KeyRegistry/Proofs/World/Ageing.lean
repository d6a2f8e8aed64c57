import KeyRegistry.Proofs.Ensemble.Upkeep
import KeyRegistry.Proofs.World.History

/-!
# What does not come back

Every session that there is stays known, a closed session stays closed, and so does a
replica that is closed and whose worker has ended, or that has been emptied. Whatever
moves in the world, the world only ages in this sense.
-/

namespace KeyRegistry

namespace World

variable {w w' w'' : World} {i k : Nat} {s : SessionId} {e : Ensemble}

structure Ages (w w' : World) : Prop where
  ensemble {k : Nat} {e : Ensemble} : w.ensembles[k]? = some e →
    ∃ e', w'.ensembles[k]? = some e' ∧ e.Ages e'
  replica {i : Nat} {m : Replica} : w.replica? i = some m →
    ∃ m', w'.replica? i = some m' ∧ m.Ages m'

theorem ages_of_eq (hensembles : w'.ensembles = w.ensembles)
    (hreplicas : w'.replicas = w.replicas) : w.Ages w' where
  ensemble he := ⟨_, by rw [hensembles, he], Ensemble.ages_of_sessions rfl⟩
  replica hm := ⟨_, by rw [replica?, hreplicas]; exact hm, .refl _⟩

theorem Ages.refl (w : World) : w.Ages w := ages_of_eq rfl rfl

theorem Ages.trans (h : w.Ages w') (h' : w'.Ages w'') : w.Ages w'' where
  ensemble he := by
    obtain ⟨e', he', hages⟩ := h.ensemble he
    obtain ⟨e'', he'', hages'⟩ := h'.ensemble he'
    exact ⟨e'', he'', hages.trans hages'⟩
  replica hm := by
    obtain ⟨m', hm', hages⟩ := h.replica hm
    obtain ⟨m'', hm'', hages'⟩ := h'.replica hm'
    exact ⟨m'', hm'', hages.trans hages'⟩

theorem getElem?_replicas_modify {f : Replica → Replica}
    (h : ∀ m, w.replica? i = some m → m.Ages (f m)) {j : Nat} {m : Replica}
    (hm : w.replica? j = some m) :
    ∃ m', (w.replicas.modify i f)[j]? = some m' ∧ m.Ages m' := by
  by_cases hi : i = j
  · subst hi
    exact ⟨f m, (List.getElem?_modify_eq ..).trans (congrArg _ hm), h m hm⟩
  · exact ⟨m, (List.getElem?_modify_ne _ _ hi).trans hm, .refl m⟩

theorem ages_setEnsemble (h : (w.ensemble k).Ages e) : w.Ages (w.setEnsemble k e) where
  ensemble he := exists_set_ensemble (fun _ => Ensemble.ages_of_sessions rfl) h he
  replica hm := ⟨_, hm, .refl _⟩

theorem ages_modifyReplica {f : Replica → Replica}
    (h : ∀ m, w.replica? i = some m → m.Ages (f m)) : w.Ages (w.modifyReplica i f) where
  ensemble he := ⟨_, he, Ensemble.ages_of_sessions rfl⟩
  replica hm := getElem?_replicas_modify h hm

theorem ages_runWorker (moves : Nat) (w : World) (i : Nat) : w.Ages (w.runWorker moves i) := by
  rcases runWorker_cases moves w i with heq | ⟨m, u, a, v, hm, -, hworks, hages, hes, hms⟩
  · rw [heq]
    exact .refl w
  · refine ⟨fun he => ?_, fun hm' => ?_⟩
    · rw [hes]
      exact exists_set_ensemble (fun _ => Ensemble.ages_of_sessions rfl)
        (Ensemble.ages_of_sessions hworks.heeds.sessions) he
    · rw [replica?, hms]
      refine getElem?_replicas_modify (fun m' hm' => ?_) hm'
      obtain rfl := Option.some.inj (hm.symm.trans hm')
      exact hages

/-! ## What clients do -/

theorem ages_accept {hold : Hold} (h : w.accept s = .ok (hold, w')) : w.Ages w' := by
  unfold accept at h
  split at h
  · rename_i hold' e he
    obtain ⟨-, rfl⟩ := Prod.ext_iff.1 (Except.ok.inj h)
    exact ages_setEnsemble (Ensemble.Step.accept he).ages
  · cases h

theorem ages_complete (w : World) (s : SessionId) (fault : Option ServiceError) (r : Request) :
    w.Ages (w.complete s fault r).2 :=
  ages_setEnsemble (Ensemble.Step.complete ..).ages

theorem set_self (w : World) (k : Nat) : w.ensembles.set k (w.ensemble k) = w.ensembles := by
  cases he : w.ensembles[k]? with
  | none => exact List.set_eq_of_length_le (List.getElem?_eq_none_iff.1 he)
  | some e =>
    have hsame := setEnsemble_self he
    rw [show w.ensemble k = e by simp [ensemble, he]]
    exact congrArg World.ensembles hsame

theorem complete_of_error {fault : Option ServiceError} {r : Request} {error : ServiceError}
    (h : (w.complete s fault r).1 = .error error) : (w.complete s fault r).2 = w := by
  unfold complete at h ⊢
  dsimp only at h ⊢
  rw [Ensemble.complete_of_error h, setEnsemble, set_self]

theorem ensembles_connect (w : World) (k : Nat) (servers : String) (identity : Option String) :
    (w.connect k servers identity).2.ensembles =
      w.ensembles.set k ((w.ensemble k).connect servers identity).2 := by
  unfold connect
  split <;> rename_i heq <;> rw [heq] <;> rfl

theorem connect_eq_ok {servers : String} {identity : Option String}
    (h : (w.connect k servers identity).1 = .ok s) :
    ∃ id, ((w.ensemble k).connect servers identity).1 = .ok id ∧ s = ⟨k, id⟩ := by
  unfold connect at h
  split at h <;> rename_i heq
  · exact ⟨_, by rw [heq], (Except.ok.inj h).symm⟩
  · cases h

theorem ensembles_closeSession (w : World) (s : SessionId) :
    (w.closeSession s).ensembles =
      w.ensembles.set s.ensemble ((w.ensemble s.ensemble).close s.number).2 := by
  unfold closeSession
  split <;> rename_i e heq
  · rw [heq]
    rfl
  · have hsame : ((w.ensemble s.ensemble).close s.number).2 = w.ensemble s.ensemble := by
      unfold Ensemble.close at heq ⊢
      split <;> simp_all
    rw [hsame, set_self]

theorem ages_connect (w : World) (k : Nat) (servers : String) (identity : Option String) :
    w.Ages (w.connect k servers identity).2 := by
  have hstep := (Ensemble.Step.connect (w.ensemble k) servers identity).ages
  unfold connect
  split <;> rename_i heq <;> rw [heq] at hstep
  · exact (ages_setEnsemble hstep).trans (ages_of_eq rfl rfl)
  · exact ages_setEnsemble hstep

theorem ages_closeSession (w : World) (s : SessionId) : w.Ages (w.closeSession s) := by
  unfold closeSession
  split <;> rename_i e heq
  · have hopen : (w.ensemble s.ensemble).phase s.number ≠ .closed := fun hclosed => by
      simp [Ensemble.close, hclosed] at heq
    have hstep := (Ensemble.step_close hopen).ages
    rw [heq] at hstep
    exact (ages_setEnsemble hstep).trans (ages_of_eq rfl rfl)
  · exact .refl w

theorem getElem?_ensembles_append {e' : Ensemble} (he : w.ensembles[k]? = some e) :
    ∃ e₁, (w.ensembles ++ [e'])[k]? = some e₁ ∧ e.Ages e₁ := by
  obtain ⟨hlt, -⟩ := List.getElem?_eq_some_iff.1 he
  exact ⟨e, (List.getElem?_append_left hlt).trans he, Ensemble.ages_of_sessions rfl⟩

theorem ages_resolve (w : World) (connector : Nat) : w.Ages (w.resolve connector).2 := by
  unfold resolve
  split
  · exact .refl w
  · split
    · exact .refl w
    · split_ifs
      · exact ⟨getElem?_ensembles_append, fun hm => ⟨_, hm, .refl _⟩⟩
      · exact .refl w

theorem replica?_addReplica {m : Replica} (hm : w.replica? i = some m) (root : String) :
    (w.addReplica root).2.replica? i = some m := by
  obtain ⟨hlt, -⟩ := List.getElem?_eq_some_iff.1 hm
  exact (List.getElem?_append_left hlt).trans hm

theorem ages_addReplica (w : World) (root : String) : w.Ages (w.addReplica root).2 where
  ensemble he := ⟨_, he, Ensemble.ages_of_sessions rfl⟩
  replica hm := ⟨_, replica?_addReplica hm root, .refl _⟩

theorem ages_setActive (w : World) (c : Nat) (o : Option Active) : w.Ages (w.setActive c o) :=
  ages_of_eq rfl rfl

theorem ages_dropWatch (w : World) (k watch : Nat) :
    w.Ages (w.setEnsemble k ((w.ensemble k).dropWatch watch)) :=
  ages_setEnsemble (Ensemble.ages_of_sessions rfl)

/-- Only a latent replica is given a worker. -/
theorem exists_replica {phase : ReplicaPhase} (h : w.replicaPhase i = phase)
    (hopen : phase ≠ .closed) : ∃ m, w.replica? i = some m ∧ m.phase = phase := by
  cases hm : w.replica? i with
  | none => simp [replicaPhase, hm, hopen.symm] at h
  | some m => exact ⟨m, rfl, by simpa [replicaPhase, hm] using h⟩

theorem ages_spawn (w : World) (i : Nat) (s : SessionId) (watch : Nat) :
    w.Ages (w.spawn i s watch).2 := by
  unfold spawn
  split
  · rename_i m hm
    split_ifs with hlatent
    · refine (ages_modifyReplica fun m' hm' => ?_).trans (ages_of_eq rfl rfl)
      obtain rfl := Option.some.inj (hm.symm.trans hm')
      exact ⟨fun hclosed => by simp [hlatent] at hclosed,
        fun h => absurd h.closed (by simp [hlatent])⟩
    · exact ages_dropWatch w s.ensemble watch
  · exact .refl w

end World

namespace Replica

variable {m : Replica}

theorem isStopped_map {f : Worker → Worker} (hf : ∀ u, (f u).activity = u.activity) {m' : Replica}
    (h : m'.worker = m.worker.map f) : m'.isStopped = m.isStopped := by
  unfold isStopped
  rw [h]
  cases m.worker <;> simp [hf]

theorem ages_askedToStop (m : Replica) : m.Ages m.askedToStop where
  ended _ hstopped := by
    have hsame : m.askedToStop.isStopped = m.isStopped :=
      isStopped_map (f := fun u => { u with stopRequested := true }) (fun _ => rfl) rfl
    exact ⟨rfl, hsame.trans hstopped⟩
  spent h := by
    refine ⟨rfl, h.empty, fun u hu => ?_⟩
    obtain ⟨u', hu', rfl⟩ := Option.map_eq_some_iff.1 hu
    exact h.idle u' hu'

theorem ages_emptied (m : Replica) (ended : Bool) : m.Ages (m.emptied ended) := by
  cases ended with
  | true => exact ⟨fun hclosed hstopped => ⟨hclosed, hstopped⟩, fun h => ⟨h.closed, rfl, h.idle⟩⟩
  | false =>
    refine ⟨fun hclosed hstopped => ⟨hclosed, ?_⟩, fun h => ⟨h.closed, rfl, fun u hu => ?_⟩⟩
    · exact (isStopped_map (f := fun u => { u with cancelled := true }) (fun _ => rfl)
        rfl).trans hstopped
    · obtain ⟨u', hu', rfl⟩ := Option.map_eq_some_iff.1 hu
      exact .inr rfl

/-- A replica is over once it is emptied: its worker has ended, or it is cancelled now. -/
theorem spent_emptied {ended : Bool} (hclosed : m.phase = .closed)
    (hended : ended = true → m.isStopped = true) : (m.emptied ended).Spent := by
  cases ended with
  | true =>
    refine ⟨hclosed, rfl, fun u hu => .inl ?_⟩
    have hstopped := hended rfl
    unfold isStopped at hstopped
    rw [show m.worker = some u from hu] at hstopped
    exact eq_of_beq hstopped
  | false =>
    refine ⟨hclosed, rfl, fun u hu => ?_⟩
    obtain ⟨u', hu', rfl⟩ := Option.map_eq_some_iff.1 hu
    exact .inr rfl

end Replica

namespace World

variable {w w' : World}

theorem ages_requestStop (w : World) (i : Nat) : w.Ages (w.requestStop i).2 :=
  ages_modifyReplica fun m _ => m.ages_askedToStop

theorem frame_finishStop (w : World) (i ms : Nat) (ended : Bool) :
    (w.finishStop i ms ended).2.ensembles = w.ensembles ∧
      (w.finishStop i ms ended).2.connectors = w.connectors ∧
      (w.finishStop i ms ended).2.centers = w.centers := by
  unfold finishStop
  split
  · exact ⟨rfl, rfl, rfl⟩
  · cases ended <;> exact ⟨rfl, rfl, rfl⟩

theorem ages_finishStop (w : World) (i ms : Nat) (ended : Bool) :
    w.Ages (w.finishStop i ms ended).2 where
  ensemble he := ⟨_, by rw [(frame_finishStop w i ms ended).1, he],
    Ensemble.ages_of_sessions rfl⟩
  replica hm := by
    rw [replica?, replicas_finishStop]
    exact getElem?_replicas_modify (fun m _ => m.ages_emptied ended) hm

/-- Whatever stirs, if each step at the service lets its sessions age. -/
theorem Stirs.ages {S : Ensemble → Ensemble → Prop} (hS : ∀ e e', S e e' → e.Ages e')
    (h : Stirs S w w') : w.Ages w' := by
  cases h with
  | aside ensembles replicas connectors centers => exact ages_of_eq ensembles replicas
  | service step => exact ages_setEnsemble (hS _ _ step)
  | worker moves w i => exact ages_runWorker moves w i

end World

end KeyRegistry
