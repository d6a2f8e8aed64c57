import KeyRegistry.Proofs.World.Holdings

/-!
# Moves of holders and workers

A move of a worker, and each move of a start or a stop, leaves the books right. The session
that is opened, the watch that is registered on it and the worker that takes the watch over
are entered one after the other; with the session closed the entry goes.
-/

namespace KeyRegistry

namespace World

variable {w w' : World} {b : Books} {r i j c : Nat} {s : SessionId} {h : Holding} {u : Worker}
  {e : Ensemble}

/-! ## Workers -/

theorem replica?_of_modify {f : Replica → Replica} {m : Replica} (hm : w.replica? i = some m)
    (hreplicas : w'.replicas = w.replicas.modify i f) :
    w'.replica? i = some (f m) ∧ ∀ r, r ≠ i → w'.replica? r = w.replica? r := by
  refine ⟨?_, fun r hr => ?_⟩
  · rw [replica?, hreplicas, List.getElem?_modify_eq]
    exact congrArg _ hm
  · rw [replica?, hreplicas]
    exact List.getElem?_modify_ne _ _ hr.symm

/-- A session that neither the old nor the new worker of a replica works for has the workers that
it had. -/
theorem worker_iff_of_foreign (hothers : ∀ r, r ≠ i → w'.worker? r = w.worker? r)
    (hold : ∀ u, w.worker? i = some u → u.duty.session ≠ s)
    (hnew : ∀ u, w'.worker? i = some u → u.duty.session ≠ s) (hs : u.duty.session = s) :
    w'.worker? r = some u ↔ w.worker? r = some u := by
  by_cases hr : r = i
  · subst hr
    exact iff_of_false (fun hu => hnew u hu hs) fun hu => hold u hu hs
  · rw [hothers r hr]

/-- A move of one worker, which may have to do with its own watch. -/
theorem Booked.touched {u' : Worker} (hb : Booked b w) (hu : w.worker? i = some u)
    (hu' : w'.worker? i = some u') (hsame : u'.duty = u.duty)
    (hothers : ∀ r, r ≠ i → w'.replica? r = w.replica? r)
    (hlatent : ∀ m, w'.replica? i = some m → m.phase ≠ .latent)
    (he : Ensemble.Carries (w.ensemble shared) e) (hfound : w'.ensembles[shared]? = some e)
    (hconnectors : w'.connectors = w.connectors)
    (hkept : ∀ j, j ≠ u.watch → (w.ensemble shared).Registered j → e.Registered j)
    (hphase : ∀ k, e.phase k = (w.ensemble shared).phase k)
    (hown : ∀ c h, b c = some h → h.session = u.duty.session → w'.Keeps h) : Booked b w' := by
  obtain rfl := ensemble_of_found hfound
  have hduty := duty?_of_worker hu
  have hothers' (r : Nat) (hr : r ≠ i) : w'.worker? r = w.worker? r := by
    unfold worker?
    rw [hothers r hr]
  refine hb.moved he.toRetains hfound hconnectors (fun r m hm hphase => ?_) (fun r => ?_)
    (hb.ledger.congr fun k => by rw [hphase]) (fun _ hi => hb.registered (he.registered hi))
    fun c h hc => ?_
  · by_cases hr : r = i
    · subst hr
      exact absurd hphase (hlatent m hm)
    · exact hb.staffed.latent (hothers r hr ▸ hm) hphase
  · by_cases hr : r = i
    · subst hr
      simp [duty?, hu, hu', hsame]
    · rw [duty?, hothers' r hr, duty?]
  · by_cases hne : h.session = u.duty.session
    · exact hown c h hc hne
    -- whatever is held over another session is another watch
    refine (hb.keeps hc).spared hb.staffed ⟨he.live, he.watchOf, fun {j} hj hregistered _ => ?_,
      worker_iff_of_foreign hothers' (fun v hv => ?_) fun v hv => ?_⟩
    · refine hkept j ?_ hregistered
      rintro rfl
      have hnumber : h.session.number = u.session := hj.eq (hb.staffed.watch hduty)
      exact hne (SessionId.eq_of_number (hb.ledger.home (Books.sessions_eq hc))
        (hb.staffed.home hduty) hnumber)
    · obtain rfl := Option.some.inj (hu.symm.trans hv)
      exact Ne.symm hne
    · obtain rfl := Option.some.inj (hu'.symm.trans hv)
      rw [hsame]
      exact Ne.symm hne

/-- What is held over the session of a worker is kept by its turn. -/
theorem Keeps.works {m : Replica} {a : Activity} {v : Move} (hb : Booked b w)
    (hc : b c = some h) (hs : h.session = u.duty.session) (hu : w.worker? i = some u)
    (hworks : Replica.Works m u (w.ensemble shared) a v)
    (hu' : w'.worker? i = some { u with activity := a })
    (hfound : w'.ensembles[shared]? = some v.ensemble) : w'.Keeps h := by
  have hduty := duty?_of_worker hu
  have hensemble := ensemble_of_found hfound
  have hh := hb.keeps hc
  obtain ⟨s, tenure⟩ := h
  obtain rfl : s = u.duty.session := hs
  cases tenure with
  | bare => exact absurd rfl (hh i _ hduty)
  | watched j => exact absurd rfl (hh.1 i _ hduty)
  | fed r =>
    obtain ⟨u₁, hu₁, hsession, hattends⟩ := hh
    obtain rfl := hb.staffed.sole (duty?_of_worker hu₁) hduty hsession
    obtain rfl := Option.some.inj (hu₁.symm.trans hu)
    refine ⟨_, hu', rfl, fun hlive => ?_⟩
    rw [hensemble] at hlive ⊢
    have hlive' := (Ensemble.phase_congr hworks.heeds.sessions _).symm.trans hlive
    obtain ⟨hattends, hregistered⟩ := hattends hlive'
    have hfavours : Replica.Favours (w.ensemble shared) u₁ :=
      ⟨hb.reachable.wellFormed, ⟨hlive', hb.spared⟩, hattends, hregistered⟩
    obtain ⟨hbearable, hregistered⟩ := hworks.keeps hfavours
    exact ⟨⟨hattends.unasked, hattends.uncancelled, hbearable⟩, hregistered⟩
  | parting r =>
    obtain ⟨u₁, hu₁, hsession⟩ := hh
    obtain rfl := hb.staffed.sole (duty?_of_worker hu₁) hduty hsession
    exact ⟨_, hu', rfl⟩

/-- A turn of a worker. As long as its session lives it keeps its watch, unless it was told to
stop. -/
theorem Booked.runWorker (hb : Booked b w) (moves i : Nat) : Booked b (w.runWorker moves i) := by
  rcases runWorker_cases moves w i with heq | ⟨m, u, a, v, hm, hu, hworks, -, hes, hms⟩
  · rwa [heq]
  have hworker : w.worker? i = some u := by simp [worker?, hm, hu]
  have hduty := duty?_of_worker hworker
  have hhome : u.ensemble = shared := hb.staffed.home hduty
  rw [hhome] at hworks hes
  have hconnectors := (meanwhile_runWorker moves w i).connectors
  obtain ⟨hm', hothers⟩ := replica?_of_modify hm hms
  generalize w.runWorker moves i = w' at hes hms hconnectors hm' hothers
  have hworker' : w'.worker? i = some { u with activity := a } := by
    simp [worker?, hm', hworks.worker]
  have hfound : w'.ensembles[shared]? = some v.ensemble := hes ▸ hb.found_set v.ensemble
  refine hb.touched hworker hworker' rfl hothers (fun m' h' hlatent => ?_)
    (Ensemble.carries_of_heeds hworks.heeds (hb.staffed.watch hduty)) hfound hconnectors
    (fun j hj hregistered => ?_) (Ensemble.phase_congr hworks.heeds.sessions)
    fun c h hc hs => Keeps.works hb hc hs hworker hworks hworker' hfound
  · obtain rfl := Option.some.inj (hm'.symm.trans h')
    have hnone := hb.staffed.latent hm (hworks.phase ▸ hlatent)
    simp [hu] at hnone
  · obtain ⟨x, hx, hphase⟩ := hregistered
    exact ⟨x, (hworks.heeds.others hj).trans hx, hphase⟩

/-- A worker that is told to stop, or cancelled. -/
theorem Booked.told (hb : Booked b w) (hc : b c = some ⟨s, .parting r⟩) {f : Replica → Replica}
    (hduty : ∀ m, (f m).worker.map Worker.duty = m.worker.map Worker.duty)
    (hphase : ∀ m, (f m).phase = .latent → m.phase = .latent)
    (hensembles : w'.ensembles = w.ensembles) (hconnectors : w'.connectors = w.connectors)
    (hreplicas : w'.replicas = w.replicas.modify r f) : Booked b w' := by
  obtain ⟨u, hu, rfl⟩ := hb.keeps hc
  obtain ⟨m, hm, hmu⟩ := Option.bind_eq_some_iff.1 hu
  obtain ⟨hm', hothers⟩ := replica?_of_modify hm hreplicas
  obtain ⟨u', hu', hsame⟩ : ∃ u', (f m).worker = some u' ∧ u'.duty = u.duty :=
    Option.map_eq_some_iff.1 (by rw [hduty, hmu, Option.map_some])
  have hworker' : w'.worker? r = some u' := by simp [worker?, hm', hu']
  refine hb.touched hu hworker' hsame hothers (fun m₁ hm₁ hlatent => ?_) (.refl _)
    (hensembles ▸ hb.found) hconnectors (fun _ _ => id) (fun _ => rfl) fun d h hd hs => ?_
  · obtain rfl := Option.some.inj (hm'.symm.trans hm₁)
    have hnone := hb.staffed.latent hm (hphase m hlatent)
    simp [hmu] at hnone
  · have hsession := Books.sessions_eq hd
    rw [hs] at hsession
    obtain rfl := hb.ledger.single hsession (Books.sessions_eq hc)
    obtain rfl := Option.some.inj (hd.symm.trans hc)
    exact ⟨u', hworker', congrArg Duty.session hsame⟩

/-! ## Entries -/

variable {root servers : String} {identity : Option String} {fault : Option ServiceError}

theorem Booked.addReplica (hb : Booked b w) (root : String) : Booked b (w.addReplica root).2 := by
  have hreplica (r : Nat) : (w.addReplica root).2.replica? r =
      if r < w.replicas.length then w.replica? r
        else if r = w.replicas.length then some { root := root } else none := by
    simp only [World.addReplica, replica?, List.getElem?_append, List.getElem?_singleton]
    split_ifs <;> first | rfl | omega
  have hworker (r : Nat) : (w.addReplica root).2.worker? r = w.worker? r := by
    unfold worker?
    rw [hreplica]
    split_ifs with hlt heq
    · rfl
    · subst heq
      simp [replica?]
    · simp [replica?, List.getElem?_eq_none (not_lt.1 hlt)]
  refine hb.moved (Ensemble.Carries.refl _).toRetains hb.found rfl (fun r m hm hlatent => ?_)
    (fun r => congrArg _ (hworker r)) hb.ledger (fun _ => hb.registered) fun c h hc => ?_
  · rw [hreplica] at hm
    split_ifs at hm
    · exact hb.staffed.latent hm hlatent
    · obtain rfl := Option.some.inj hm
      rfl
  · exact (hb.keeps hc).spared hb.staffed ⟨id, id, fun _ hi _ => hi, fun _ => by rw [hworker]⟩

theorem frame_connect (w : World) (k : Nat) (servers : String) (identity : Option String) :
    (w.connect k servers identity).2.replicas = w.replicas ∧
      (w.connect k servers identity).2.connectors = w.connectors := by
  unfold World.connect
  split <;> exact ⟨rfl, rfl⟩

theorem frame_closeSession (w : World) (s : SessionId) :
    (w.closeSession s).replicas = w.replicas ∧ (w.closeSession s).connectors = w.connectors := by
  unfold World.closeSession
  split <;> exact ⟨rfl, rfl⟩

/-- With one entry changed, a registered watch is that of a worker, that of the entry, or held by
another. -/
theorem Booked.registered_cases {o : Option Holding} (hb : Booked (Function.update b c o) w)
    (o' : Option Holding) (hi : (w.ensemble shared).Registered i) :
    ((∃ r q, w.duty? r = some q ∧ q.watch = i) ∨
        ∃ d s, Function.update b c o' d = some ⟨s, .watched i⟩) ∨
      ∃ s, o = some ⟨s, .watched i⟩ := by
  rcases hb.registered hi with hworker | ⟨d, s, hd⟩
  · exact .inl (.inl hworker)
  · rcases update_cases o' hd with ⟨-, hs⟩ | ⟨-, hd⟩
    · exact .inr ⟨s, hs⟩
    · exact .inl (.inr ⟨d, s, hd⟩)

/-- A session that is opened is held by the center that opens it. -/
theorem Booked.connect (hb : Booked (Function.update b c none) w)
    (hs : (w.connect shared servers identity).1 = .ok s) :
    Booked (Function.update b c (some ⟨s, .bare⟩)) (w.connect shared servers identity).2 := by
  obtain ⟨k, hk, rfl⟩ := connect_eq_ok hs
  obtain ⟨hnew, hlive, hphase⟩ := Ensemble.phase_connect hk
  obtain ⟨hreplicas, hconnectors⟩ := w.frame_connect shared servers identity
  have hwatches := (w.ensemble shared).watches_connect servers identity
  have he := Ensemble.retains_connect servers identity hb.reachable
  have hclosed : (w.ensemble shared).phase k = .closed := by simp [Ensemble.phase, hnew]
  have hfound : (w.connect shared servers identity).2.ensembles[shared]? =
      some ((w.ensemble shared).connect servers identity).2 := by
    rw [ensembles_connect]
    exact hb.found_set _
  have hledger := hb.ledger
  rw [Books.sessions_update] at hledger
  refine hb.served he hfound hconnectors hreplicas ?_ (fun i hi => ?_) fun d h hd => ?_
  · rw [Books.sessions_update]
    exact hledger.enter hclosed (by simp [hlive]) hphase
  · rcases hb.registered_cases _ (hi.congr hwatches.symm) with hheld | ⟨_, hnone⟩
    · exact hheld
    · cases hnone
  · rcases update_cases none hd with ⟨-, hh⟩ | ⟨-, hd⟩
    · obtain rfl := Option.some.inj hh
      intro r q hq hsession
      rw [duty?, worker?_congr hreplicas] at hq
      obtain ⟨x, hx⟩ := hb.staffed.known hq
      simp [hsession, hnew] at hx
    · have hopen := hb.ledger.phase (Books.sessions_eq hd)
      have hne : h.session.number ≠ k := fun heq => hopen (heq ▸ hclosed)
      refine (hb.keeps hd).spared hb.staffed
        (spares_of_service he hfound hreplicas ?_ fun i _ hi _ => hi.congr hwatches)
      rw [hphase _ hne]
      exact id

theorem Booked.connect_refused (hb : Booked b w) {error : ServiceError}
    (herror : (w.connect shared servers identity).1 = .error error) :
    Booked b (w.connect shared servers identity).2 := by
  obtain ⟨hrefused, heq⟩ : ((w.ensemble shared).connect servers identity).1 = .error error ∧
      (w.connect shared servers identity).2 =
        w.setEnsemble shared ((w.ensemble shared).connect servers identity).2 := by
    unfold World.connect at herror ⊢
    split at herror <;> rename_i hconnect
    · cases herror
    · exact ⟨by simpa [hconnect] using herror, by simp [hconnect]⟩
  rw [heq]
  exact hb.step (Ensemble.carries_of_refused hb.reachable hrefused) (.connect ..) fun k => by
    rw [Ensemble.phase_congr (Ensemble.sessions_of_refused hrefused)]

/-- A watch that is registered is held until a worker has it. -/
theorem Booked.watch (hb : Booked (Function.update b c (some ⟨s, .bare⟩)) w)
    (hi : (w.complete s fault (.watch root)).1 = .ok i) :
    Booked (Function.update b c (some ⟨s, .watched i⟩)) (w.complete s fault (.watch root)).2 := by
  have hself : Function.update b c (some ⟨s, .bare⟩) c = some ⟨s, .bare⟩ := by simp
  have hhome : s.ensemble = shared := hb.ledger.home (Books.sessions_eq hself)
  unfold World.complete at hi ⊢
  rw [hhome] at hi ⊢
  obtain ⟨hwatch, hregistered⟩ := Ensemble.registered_watch hi
  have hstep := Ensemble.Step.complete (w.ensemble shared) s.number fault (.watch root)
  have hsessions := ((w.ensemble shared).complete_frame s.number fault (.watch root)).1
  have he := Ensemble.retains_of_step hb.reachable hstep fun hspared => by
    rwa [(Ensemble.complete_frame ..).2]
  dsimp only at hwatch hregistered hstep hsessions he ⊢
  generalize ((w.ensemble shared).complete s.number fault (.watch root)).2 = e
    at hwatch hregistered hstep hsessions he
  have hfound : (w.setEnsemble shared e).ensembles[shared]? = some e := hb.found_set e
  have hensemble := ensemble_of_found hfound
  have hspares {t : SessionId} : Spares t w (w.setEnsemble shared e) :=
    spares_of_service he hfound rfl
      (fun hlive => (Ensemble.phase_congr hsessions _).symm.trans hlive)
      fun i => hstep.keeps hb.reachable
  refine hb.served he hfound rfl rfl ?_ (fun n hn => ?_) fun d h hd => ?_
  · rw [← Books.sessions_retenured b c s .bare]
    exact hb.ledger.congr fun k => by rw [Ensemble.phase_congr hsessions]
  · rcases (hregistered n).1 hn with rfl | hn
    · exact .inr ⟨c, s, by simp⟩
    · rcases hb.registered_cases _ hn with hheld | ⟨_, hbare⟩
      · exact hheld
      · cases hbare
  · rcases update_cases (some ⟨s, .bare⟩) hd with ⟨-, hh⟩ | ⟨-, hd⟩
    · obtain rfl := Option.some.inj hh
      have hunmanned : w.Unmanned s := hb.keeps hself
      refine ⟨hunmanned.spared hspares, ?_, fun _ => ?_⟩ <;> rw [hensemble]
      · exact hwatch
      · exact (hregistered i).2 (.inl rfl)
    · exact (hb.keeps hd).spared hb.staffed hspares

/-- A latent replica gets a worker for the watch. -/
theorem spawn_of_latent {m : Replica} (hm : w.replica? i = some m) (hphase : m.phase = .latent)
    (s : SessionId) (j : Nat) : ∃ u : Worker, u.duty = ⟨s, j⟩ ∧ u.Attends ∧
      (w.spawn i s j).2.ensembles = w.ensembles ∧ (w.spawn i s j).2.connectors = w.connectors ∧
      (w.spawn i s j).2.replicas =
        w.replicas.modify i fun m => { m with phase := .started, worker := some u } := by
  let u : Worker := ⟨s.ensemble, s.number, j, .filling 0 [(m.root, .untouched)], false, false⟩
  have hspawned : (w.spawn i s j).2 = (w.modifyReplica i fun m =>
      { m with phase := .started, worker := some u }).note (.replicaStarted m.root) := by
    simp [World.spawn, hm, hphase, u]
  rw [hspawned]
  exact ⟨u, rfl, ⟨rfl, rfl, by simp [u, Activity.Bearable, Reading.Bearable]⟩, rfl, rfl, rfl⟩

/-- A worker comes in for a session that none has worked for. -/
theorem Staffed.enlist (hs : w.Staffed) (hensemble : w'.ensemble shared = w.ensemble shared)
    (hlatent : ∀ r m, w'.replica? r = some m → m.phase = .latent → m.worker = none)
    (hduty : ∀ r q, w'.duty? r = some q ↔ r = i ∧ q = ⟨s, j⟩ ∨ w.duty? r = some q)
    (hhome : s.ensemble = shared) (hopen : (w.ensemble shared).phase s.number ≠ .closed)
    (hwatch : (w.ensemble shared).WatchOf j s.number) (hunmanned : w.Unmanned s) :
    w'.Staffed := by
  constructor
  case latent => exact fun hm => hlatent _ _ hm
  case home =>
    intro r q hq
    rcases (hduty r q).1 hq with ⟨-, rfl⟩ | hq
    · exact hhome
    · exact hs.home hq
  case known =>
    intro r q hq
    rw [hensemble]
    rcases (hduty r q).1 hq with ⟨-, rfl⟩ | hq
    · obtain ⟨h0, x, hx, -⟩ := Ensemble.exists_session_of_phase hopen
      exact ⟨x, by simpa [Ensemble.session?, h0] using hx⟩
    · exact hs.known hq
  case watch =>
    intro r q hq
    rw [hensemble]
    rcases (hduty r q).1 hq with ⟨-, rfl⟩ | hq
    · exact hwatch
    · exact hs.watch hq
  case sole =>
    intro r r' q q' hq hq' hsession
    rcases (hduty r q).1 hq with ⟨rfl, rfl⟩ | hq <;>
      rcases (hduty r' q').1 hq' with ⟨rfl, rfl⟩ | hq'
    · rfl
    · exact absurd hsession.symm (hunmanned _ _ hq')
    · exact absurd hsession (hunmanned _ _ hq)
    · exact hs.sole hq hq' hsession

theorem Keeps.enlisted (hh : w.Keeps h) (hstaffed : w.Staffed)
    (hensemble : w'.ensemble shared = w.ensemble shared)
    (hothers : ∀ r, r ≠ i → w'.worker? r = w.worker? r) (hidle : w.worker? i = none)
    (hu : w'.worker? i = some u) (hforeign : u.duty.session ≠ h.session) : w'.Keeps h := by
  have hworker {r : Nat} {v : Worker} (hv : v.duty.session = h.session) :
      w'.worker? r = some v ↔ w.worker? r = some v := by
    refine worker_iff_of_foreign hothers (fun v hv => ?_) (fun v hv => ?_) hv
    · simp [hidle] at hv
    · obtain rfl := Option.some.inj (hu.symm.trans hv)
      exact hforeign
  refine hh.spared hstaffed ⟨?_, ?_, ?_, hworker⟩ <;> rw [hensemble]
  · exact id
  · exact id
  · exact fun _ hi _ => hi

/-- A worker takes the watch over. -/
theorem Booked.spawn (hb : Booked (Function.update b c (some ⟨s, .watched j⟩)) w)
    (hlatent : w.replicaPhase i = .latent) :
    Booked (Function.update b c (some ⟨s, .fed i⟩)) (w.spawn i s j).2 := by
  have hself : Function.update b c (some ⟨s, .watched j⟩) c = some ⟨s, .watched j⟩ := by simp
  have hsession := Books.sessions_eq hself
  obtain ⟨hunmanned, hwatch, hregistered⟩ := hb.keeps hself
  obtain ⟨m, hm, hphase⟩ := exists_replica hlatent (by decide)
  have hidle : w.worker? i = none := by simp [worker?, hm, hb.staffed.latent hm hphase]
  obtain ⟨u, hu, hattends, hens, hconnectors, hreplicas⟩ := spawn_of_latent hm hphase s j
  obtain ⟨hm', hothers⟩ := replica?_of_modify hm hreplicas
  generalize (w.spawn i s j).2 = w' at hm' hothers hens hconnectors
  have hfound : w'.ensembles[shared]? = some (w.ensemble shared) := hens ▸ hb.found
  have hensemble := ensemble_of_found hfound
  have hworker' : w'.worker? i = some u := by simp [worker?, hm']
  have hothers' (r : Nat) (hr : r ≠ i) : w'.worker? r = w.worker? r := by
    unfold worker?
    rw [hothers r hr]
  have hduty (r : Nat) (q : Duty) : w'.duty? r = some q ↔
      r = i ∧ q = ⟨s, j⟩ ∨ w.duty? r = some q := by
    by_cases hr : r = i
    · subst hr
      simp [duty?, hworker', hidle, hu, eq_comm]
    · simp [duty?, hothers' r hr, hr]
  constructor
  case found => rw [hensemble, hfound]
  case decided => rw [hconnectors]; exact hb.decided
  case reachable => rw [hensemble]; exact hb.reachable
  case spared => rw [hensemble]; exact hb.spared
  case ledger =>
    rw [hensemble, ← Books.sessions_retenured b c s (.watched j)]
    exact hb.ledger
  case staffed =>
    refine hb.staffed.enlist hensemble (fun r m₁ hm₁ hlatent => ?_) hduty
      (hb.ledger.home hsession) (hb.ledger.phase hsession) hwatch hunmanned
    by_cases hr : r = i
    · subst hr
      obtain rfl := Option.some.inj (hm'.symm.trans hm₁)
      cases hlatent
    · exact hb.staffed.latent (hothers r hr ▸ hm₁) hlatent
  case registered =>
    intro n hn
    rw [hensemble] at hn
    rcases hb.registered_cases (some ⟨s, .fed i⟩) hn with (⟨r, q, hq, hqn⟩ | hheld) | ⟨t, ht⟩
    · exact .inl ⟨r, q, (hduty r q).2 (.inr hq), hqn⟩
    · exact .inr hheld
    · obtain ⟨rfl, ⟨⟩⟩ : s = t ∧ Tenure.watched j = .watched n := by simpa using ht
      exact .inl ⟨i, _, (hduty i _).2 (.inl ⟨rfl, rfl⟩), rfl⟩
  case keeps =>
    intro d h hd
    rcases update_cases (some ⟨s, .watched j⟩) hd with ⟨-, hh⟩ | ⟨hne, hd⟩
    · obtain rfl := Option.some.inj hh
      refine ⟨u, hworker', by rw [hu], fun hlive => ?_⟩
      rw [hensemble] at hlive ⊢
      have hown : u.watch = j := congrArg Duty.watch hu
      exact ⟨hattends, hown ▸ hregistered hlive⟩
    · refine (hb.keeps hd).enlisted hb.staffed hensemble hothers' hidle hworker' ?_
      rw [hu]
      rintro rfl
      exact hne (hb.ledger.single (Books.sessions_eq hd) hsession)

theorem Booked.requestStop (hb : Booked (Function.update b c (some ⟨s, .fed r⟩)) w) :
    Booked (Function.update b c (some ⟨s, .parting r⟩)) (w.requestStop r).2 := by
  have hself : Function.update b c (some ⟨s, .fed r⟩) c = some ⟨s, .fed r⟩ := by simp
  obtain ⟨u, hu, hsession, -⟩ := hb.keeps hself
  have hparting : Booked (Function.update b c (some ⟨s, .parting r⟩)) w := by
    have he := Ensemble.Carries.refl (w.ensemble shared)
    refine hb.served he.toRetains hb.found rfl rfl ?_ (fun i hi => ?_) fun d h hd => ?_
    · rw [← Books.sessions_retenured b c s (.fed r)]
      exact hb.ledger
    · rcases hb.registered_cases _ hi with hheld | ⟨_, hfed⟩
      · exact hheld
      · cases hfed
    · rcases update_cases (some ⟨s, .fed r⟩) hd with ⟨-, hh⟩ | ⟨-, hd⟩
      · obtain rfl := Option.some.inj hh
        exact ⟨u, hu, hsession⟩
      · exact hb.keeps hd
  refine hparting.told (c := c) (s := s) (by simp) (f := Replica.askedToStop) (fun m => ?_)
    (fun m => ?_) rfl rfl rfl
  · cases hm : m.worker <;> simp [Replica.askedToStop, hm, Worker.duty]
  · simp [Replica.askedToStop]

theorem Booked.finishStop (hb : Booked b w) (hc : b c = some ⟨s, .parting r⟩) (ms : Nat)
    (ended : Bool) : Booked b (w.finishStop r ms ended).2 := by
  refine hb.told hc ?_ (fun m => ?_) (w.frame_finishStop r ms ended).1
    (w.frame_finishStop r ms ended).2.1 (w.replicas_finishStop r ms ended)
  · intro m
    cases ended <;> cases hu : m.worker <;> simp [Replica.emptied, hu, Worker.duty]
  · exact id

/-- With its session closed a center holds nothing. -/
theorem Booked.closeSession (hb : Booked (Function.update b c (some h)) w) :
    Booked (Function.update b c none) (w.closeSession h.session) := by
  have hself : Function.update b c (some h) c = some h := by simp
  have hhome : h.session.ensemble = shared := hb.ledger.home (Books.sessions_eq hself)
  have hopen := hb.ledger.phase (Books.sessions_eq hself)
  have he := Ensemble.carries_close hb.reachable hopen
  have hstep := Ensemble.step_close hopen
  have hclosed := (w.ensemble shared).phase_close h.session.number
  have hfound : (w.closeSession h.session).ensembles[shared]? =
      some ((w.ensemble shared).close h.session.number).2 := by
    rw [ensembles_closeSession, hhome]
    exact hb.found_set _
  obtain ⟨hreplicas, hconnectors⟩ := w.frame_closeSession h.session
  refine hb.served he.toRetains hfound hconnectors hreplicas ?_ (fun i hi => ?_) fun d g hd => ?_
  · have hledger := hb.ledger
    rw [Books.sessions_update] at hledger ⊢
    exact hledger.leave hclosed fun n hn => Ensemble.phase_close_of_ne hn
  · rcases hb.registered_cases _ (he.registered hi) with hheld | ⟨s, hh⟩
    · exact hheld
    · -- the watch would be registered, its session being closed
      obtain rfl := Option.some.inj hh
      obtain ⟨-, hwatch, -⟩ := hb.keeps hself
      obtain ⟨x, hx, hregistered⟩ := hi
      obtain ⟨y, hy, hsession⟩ := he.watchOf hwatch
      obtain rfl := Option.some.inj (hx.symm.trans hy)
      have hlive := (he.reachable hb.reachable).watchful i x hx hregistered
      rw [hsession] at hlive
      exact absurd (hclosed.symm.trans hlive) (by decide)
  · rcases update_cases (some h) hd with ⟨-, hnone⟩ | ⟨-, hd⟩
    · cases hnone
    · exact (hb.keeps hd).spared hb.staffed (spares_of_service he.toRetains hfound hreplicas
        he.live fun i => hstep.keeps hb.reachable)

/-! ## What stirs -/

/-- Whatever stirs leaves the books right. -/
theorem Booked.stirs (hb : Booked b w) (h : Stirs Ensemble.Befalls w w') : Booked b w' := by
  cases h with
  | aside ensembles replicas connectors centers => exact hb.congr ensembles replicas connectors
  | @service _ k e step =>
    by_cases hk : k = shared
    · subst hk
      exact hb.befalls step
    · have hfound : (w.setEnsemble k e).ensembles[shared]? = some (w.ensemble shared) :=
        (List.getElem?_set_ne hk).trans hb.found
      have he := (Ensemble.Carries.refl (w.ensemble shared)).toRetains
      refine hb.served he hfound rfl rfl hb.ledger (fun _ => hb.registered) fun c h hc => ?_
      exact (hb.keeps hc).spared hb.staffed
        (spares_of_service he hfound rfl id fun _ _ hi _ => hi)
  | worker moves w i => exact hb.runWorker moves i

theorem Stirs.leads (h : Stirs Ensemble.Befalls w w') : Stirs Ensemble.Leads w w' :=
  h.mono fun _ _ hb => .single (.inl hb.step)

end World

end KeyRegistry
