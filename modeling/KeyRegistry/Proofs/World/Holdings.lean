import KeyRegistry.Proofs.World.Ageing

/-!
# Who holds what

Books are kept of the sessions that are open at the shared ensemble. Each is held by one
center, with a watch of it or a worker on that watch as far as the holder has come. The
books are right when every open session, every registered watch and every worker is accounted
for. Whatever befalls the service leaves them right.
-/

namespace KeyRegistry

structure Duty where
  session : SessionId
  watch : Nat

def Worker.duty (u : Worker) : Duty := ⟨⟨u.ensemble, u.session⟩, u.watch⟩

inductive Tenure
  | bare
  /-- A watch is registered that no worker has yet. -/
  | watched (watch : Nat)
  | fed (replica : Nat)
  /-- The worker of the replica may have been told to stop. -/
  | parting (replica : Nat)

structure Holding where
  session : SessionId
  tenure : Tenure

@[reducible] def Books := Nat → Option Holding

def Books.sessions (b : Books) (c : Nat) : Option SessionId := (b c).map Holding.session

theorem Books.sessions_eq {b : Books} {c : Nat} {h : Holding} (hc : b c = some h) :
    b.sessions c = some h.session := by
  simp [sessions, hc]

theorem Books.sessions_update (b : Books) (c : Nat) (o : Option Holding) :
    sessions (Function.update b c o) =
      Function.update b.sessions c (o.map Holding.session) := by
  funext d
  by_cases hd : d = c
  · subst hd
    simp [sessions]
  · simp [sessions, hd]

theorem Books.sessions_retenured (b : Books) (c : Nat) (s : SessionId) (t t' : Tenure) :
    sessions (Function.update b c (some ⟨s, t⟩)) =
      sessions (Function.update b c (some ⟨s, t'⟩)) := by
  simp only [sessions_update, Option.map_some]

/-- An entry of changed books is the one that was changed, or was there before. -/
theorem update_cases {α : Type} {f : Nat → Option α} {o' : Option α} {a : α} {c d : Nat}
    (o : Option α) (hd : Function.update f c o' d = some a) :
    d = c ∧ o' = some a ∨ d ≠ c ∧ Function.update f c o d = some a := by
  by_cases hdc : d = c
  · subst hdc
    simpa using hd
  · simpa [hdc] using hd

namespace World

variable {w w' : World} {b b' : Books} {r i j k c : Nat} {s : SessionId} {h : Holding} {q : Duty}
  {u : Worker} {e : Ensemble}

def worker? (w : World) (r : Nat) : Option Worker := (w.replica? r).bind Replica.worker

def duty? (w : World) (r : Nat) : Option Duty := (w.worker? r).map Worker.duty

def Unmanned (w : World) (s : SessionId) : Prop := ∀ r q, w.duty? r = some q → q.session ≠ s

/-- What there is of a holding in the world. As long as the session lives there is a watch, from
its registration until the worker is told to stop. -/
def Keeps (w : World) : Holding → Prop
  | ⟨s, .bare⟩ => w.Unmanned s
  | ⟨s, .watched i⟩ => w.Unmanned s ∧ (w.ensemble shared).WatchOf i s.number ∧
      ((w.ensemble shared).phase s.number = .live → (w.ensemble shared).Registered i)
  | ⟨s, .fed r⟩ => ∃ u, w.worker? r = some u ∧ u.duty.session = s ∧
      ((w.ensemble shared).phase s.number = .live →
        u.Attends ∧ (w.ensemble shared).Registered u.watch)
  | ⟨s, .parting r⟩ => ∃ u, w.worker? r = some u ∧ u.duty.session = s

/-- Whether the open sessions are those that are held, each by one center. -/
structure Ledger (held : Nat → Option SessionId) (e : Ensemble) : Prop where
  home {c : Nat} {s : SessionId} : held c = some s → s.ensemble = shared
  single {c d : Nat} {s : SessionId} : held c = some s → held d = some s → c = d
  opened {k : Nat} : e.phase k ≠ .closed ↔ ∃ c, held c = some ⟨shared, k⟩

structure Staffed (w : World) : Prop where
  latent {r : Nat} {m : Replica} : w.replica? r = some m → m.phase = .latent → m.worker = none
  home {r : Nat} {q : Duty} : w.duty? r = some q → q.session.ensemble = shared
  known {r : Nat} {q : Duty} : w.duty? r = some q →
    ∃ x, (w.ensemble shared).session? q.session.number = some x
  watch {r : Nat} {q : Duty} : w.duty? r = some q →
    (w.ensemble shared).WatchOf q.watch q.session.number
  sole {r r' : Nat} {q q' : Duty} : w.duty? r = some q → w.duty? r' = some q' →
    q.session = q'.session → r = r'

/-- Whether the books of a world in which every connector leads to the shared ensemble are
right. -/
structure Booked (b : Books) (w : World) : Prop where
  found : w.ensembles[shared]? = some (w.ensemble shared)
  decided : ∀ x ∈ w.connectors, x.backend = .ensemble shared
  reachable : (w.ensemble shared).Reachable
  spared : ∀ error ∈ (w.ensemble shared).faults.pending, error.endsSession = false
  ledger : Ledger b.sessions (w.ensemble shared)
  staffed : w.Staffed
  registered {i : Nat} : (w.ensemble shared).Registered i →
    (∃ r q, w.duty? r = some q ∧ q.watch = i) ∨ ∃ c s, b c = some ⟨s, .watched i⟩
  keeps {c : Nat} {h : Holding} : b c = some h → w.Keeps h

/-! ## The ledger -/

theorem SessionId.eq_of_number {t : SessionId} (hs : s.ensemble = shared) (ht : t.ensemble = shared)
    (hnumber : s.number = t.number) : s = t := by
  obtain ⟨k, n⟩ := s
  obtain ⟨k', n'⟩ := t
  simp_all

section Ledger

variable {held : Nat → Option SessionId} {e' : Ensemble}

theorem Ledger.congr (hb : Ledger held e)
    (hclosed : ∀ k, e'.phase k = .closed ↔ e.phase k = .closed) : Ledger held e' where
  home := hb.home
  single := hb.single
  opened {k} := (not_congr (hclosed k)).trans hb.opened

theorem Ledger.phase (hb : Ledger held e) (hc : held c = some s) : e.phase s.number ≠ .closed := by
  refine hb.opened.2 ⟨c, ?_⟩
  rw [hc, ← hb.home hc]

/-- A session is opened for one that holds none. -/
theorem Ledger.enter (hb : Ledger (Function.update held c none) e) (hnew : e.phase k = .closed)
    (hopen : e'.phase k ≠ .closed) (hphase : ∀ n, n ≠ k → e'.phase n = e.phase n) :
    Ledger (Function.update held c (some ⟨shared, k⟩)) e' := by
  have hothers {d : Nat} {t : SessionId} (hd : Function.update held c none d = some t) :
      t ≠ ⟨shared, k⟩ := by
    rintro rfl
    exact hb.phase hd hnew
  constructor
  case home =>
    intro d t hd
    rcases update_cases none hd with ⟨-, ht⟩ | ⟨-, hd⟩
    · obtain rfl := Option.some.inj ht
      rfl
    · exact hb.home hd
  case single =>
    intro d d' t hd hd'
    rcases update_cases none hd with ⟨hdc, ht⟩ | ⟨-, hold⟩ <;>
      rcases update_cases none hd' with ⟨hdc', ht'⟩ | ⟨-, hold'⟩
    · exact hdc.trans hdc'.symm
    · exact absurd (Option.some.inj ht).symm (hothers hold')
    · exact absurd (Option.some.inj ht').symm (hothers hold)
    · exact hb.single hold hold'
  case opened =>
    intro n
    by_cases hn : n = k
    · subst hn
      exact ⟨fun _ => ⟨c, by simp⟩, fun _ => hopen⟩
    · rw [hphase n hn, hb.opened]
      constructor
      · rintro ⟨d, hd⟩
        rcases update_cases (some ⟨shared, k⟩) hd with ⟨-, hnone⟩ | ⟨-, hd⟩
        · cases hnone
        · exact ⟨d, hd⟩
      · rintro ⟨d, hd⟩
        rcases update_cases none hd with ⟨-, ht⟩ | ⟨-, hd⟩
        · exact absurd (congrArg SessionId.number (Option.some.inj ht)).symm hn
        · exact ⟨d, hd⟩

/-- The session of one holder is closed. -/
theorem Ledger.leave (hb : Ledger (Function.update held c (some s)) e)
    (hclosed : e'.phase s.number = .closed)
    (hphase : ∀ n, n ≠ s.number → e'.phase n = e.phase n) :
    Ledger (Function.update held c none) e' := by
  have hc : Function.update held c (some s) c = some s := by simp
  have hothers {d : Nat} {t : SessionId} (hd : Function.update held c none d = some t) :
      Function.update held c (some s) d = some t ∧ t ≠ s := by
    rcases update_cases (some s) hd with ⟨-, hnone⟩ | ⟨hne, hold⟩
    · cases hnone
    · refine ⟨hold, ?_⟩
      rintro rfl
      exact hne (hb.single hold hc)
  constructor
  case home => exact fun hd => hb.home (hothers hd).1
  case single => exact fun hd hd' => hb.single (hothers hd).1 (hothers hd').1
  case opened =>
    intro n
    by_cases hn : n = s.number
    · subst hn
      refine ⟨fun h => absurd hclosed h, ?_⟩
      rintro ⟨d, hd⟩
      exact absurd (SessionId.eq_of_number (s := ⟨shared, s.number⟩) rfl (hb.home hc) rfl)
        (hothers hd).2
    · rw [hphase n hn, hb.opened]
      constructor
      · rintro ⟨d, hd⟩
        rcases update_cases none hd with ⟨-, ht⟩ | ⟨-, hd⟩
        · exact absurd (congrArg SessionId.number (Option.some.inj ht)).symm hn
        · exact ⟨d, hd⟩
      · rintro ⟨d, hd⟩
        exact ⟨d, (hothers hd).1⟩

end Ledger

/-! ## What is spared by a move -/

structure Spares (s : SessionId) (w w' : World) : Prop where
  live : (w'.ensemble shared).phase s.number = .live → (w.ensemble shared).phase s.number = .live
  watchOf {i : Nat} : (w.ensemble shared).WatchOf i s.number →
    (w'.ensemble shared).WatchOf i s.number
  registered {i : Nat} : (w.ensemble shared).WatchOf i s.number →
    (w.ensemble shared).Registered i → (w'.ensemble shared).phase s.number = .live →
    (w'.ensemble shared).Registered i
  worker {r : Nat} {u : Worker} : u.duty.session = s →
    (w'.worker? r = some u ↔ w.worker? r = some u)

theorem duty?_of_worker (hu : w.worker? r = some u) : w.duty? r = some u.duty := by
  simp [duty?, hu]

theorem exists_worker (hq : w.duty? r = some q) : ∃ u, w.worker? r = some u ∧ u.duty = q :=
  Option.map_eq_some_iff.1 hq

theorem Unmanned.spared (hs : w.Unmanned s) (hw : Spares s w w') : w'.Unmanned s := by
  intro r q hq heq
  obtain ⟨u, hu, rfl⟩ := exists_worker hq
  exact hs r u.duty (duty?_of_worker ((hw.worker heq).1 hu)) heq

theorem Keeps.spared (hh : w.Keeps h) (hstaffed : w.Staffed) (hw : Spares h.session w w') :
    w'.Keeps h := by
  obtain ⟨s, tenure⟩ := h
  cases tenure with
  | bare => exact hh.spared hw
  | watched i =>
    obtain ⟨hunmanned, hwatch, hregistered⟩ := hh
    exact ⟨hunmanned.spared hw, hw.watchOf hwatch,
      fun hlive => hw.registered hwatch (hregistered (hw.live hlive)) hlive⟩
  | fed r =>
    obtain ⟨u, hu, rfl, hattends⟩ := hh
    refine ⟨u, (hw.worker rfl).2 hu, rfl, fun hlive => ?_⟩
    obtain ⟨ha, hregistered⟩ := hattends (hw.live hlive)
    exact ⟨ha, hw.registered (hstaffed.watch (duty?_of_worker hu)) hregistered hlive⟩
  | parting r =>
    obtain ⟨u, hu, rfl⟩ := hh
    exact ⟨u, (hw.worker rfl).2 hu, rfl⟩

/-- Workers that keep their duties are still told apart by their sessions. -/
theorem Staffed.moved (hs : w.Staffed)
    (he : Ensemble.Retains (w.ensemble shared) (w'.ensemble shared))
    (hlatent : ∀ r m, w'.replica? r = some m → m.phase = .latent → m.worker = none)
    (hduty : ∀ r, w'.duty? r = w.duty? r) : w'.Staffed where
  latent hm := hlatent _ _ hm
  home hq := hs.home (hduty _ ▸ hq)
  known hq := by
    obtain ⟨x, hx⟩ := hs.known (hduty _ ▸ hq)
    exact he.known hx
  watch hq := he.watchOf (hs.watch (hduty _ ▸ hq))
  sole hq hq' := hs.sole (hduty _ ▸ hq) (hduty _ ▸ hq')

theorem ensemble_of_found (hfound : w'.ensembles[shared]? = some e) : w'.ensemble shared = e := by
  simp [ensemble, hfound]

theorem Booked.found_set (hb : Booked b w) (e : Ensemble) :
    (w.ensembles.set shared e)[shared]? = some e :=
  List.getElem?_set_self (List.getElem?_eq_some_iff.1 hb.found).1

/-- A move that brings in no worker. -/
theorem Booked.moved (hb : Booked b w) (he : Ensemble.Retains (w.ensemble shared) e)
    (hfound : w'.ensembles[shared]? = some e) (hconnectors : w'.connectors = w.connectors)
    (hlatent : ∀ r m, w'.replica? r = some m → m.phase = .latent → m.worker = none)
    (hduty : ∀ r, w'.duty? r = w.duty? r) (hledger : Ledger b'.sessions e)
    (hregistered : ∀ i, e.Registered i →
      (∃ r q, w.duty? r = some q ∧ q.watch = i) ∨ ∃ c s, b' c = some ⟨s, .watched i⟩)
    (hkeeps : ∀ c h, b' c = some h → w'.Keeps h) : Booked b' w' := by
  obtain rfl := ensemble_of_found hfound
  constructor
  case found => exact hfound
  case decided => rw [hconnectors]; exact hb.decided
  case reachable => exact he.reachable hb.reachable
  case spared => exact he.spared hb.spared
  case ledger => exact hledger
  case staffed => exact hb.staffed.moved he hlatent hduty
  case registered =>
    intro i hi
    simp only [hduty]
    exact hregistered i hi
  case keeps => exact fun hc => hkeeps _ _ hc

theorem worker?_congr (hreplicas : w'.replicas = w.replicas) (r : Nat) :
    w'.worker? r = w.worker? r := by
  unfold worker? replica?
  rw [hreplicas]

/-- A move at the service alone. -/
theorem Booked.served (hb : Booked b w) (he : Ensemble.Retains (w.ensemble shared) e)
    (hfound : w'.ensembles[shared]? = some e) (hconnectors : w'.connectors = w.connectors)
    (hreplicas : w'.replicas = w.replicas) (hledger : Ledger b'.sessions e)
    (hregistered : ∀ i, e.Registered i →
      (∃ r q, w.duty? r = some q ∧ q.watch = i) ∨ ∃ c s, b' c = some ⟨s, .watched i⟩)
    (hkeeps : ∀ c h, b' c = some h → w'.Keeps h) : Booked b' w' := by
  refine hb.moved he hfound hconnectors (fun r m hm => ?_)
    (fun r => congrArg _ (worker?_congr hreplicas r)) hledger hregistered hkeeps
  exact hb.staffed.latent (by rw [replica?, ← hreplicas]; exact hm)

theorem spares_of_service (he : Ensemble.Retains (w.ensemble shared) e)
    (hfound : w'.ensembles[shared]? = some e) (hreplicas : w'.replicas = w.replicas)
    (hlive : e.phase s.number = .live → (w.ensemble shared).phase s.number = .live)
    (hkept : ∀ i, (w.ensemble shared).WatchOf i s.number → (w.ensemble shared).Registered i →
      e.phase s.number = .live → e.Registered i) : Spares s w w' := by
  obtain rfl := ensemble_of_found hfound
  exact ⟨hlive, he.watchOf, hkept _, fun _ => by rw [worker?_congr hreplicas]⟩

theorem Booked.congr (hb : Booked b w) (hensembles : w'.ensembles = w.ensembles)
    (hreplicas : w'.replicas = w.replicas) (hconnectors : w'.connectors = w.connectors) :
    Booked b w' := by
  have hfound : w'.ensembles[shared]? = some (w.ensemble shared) := hensembles ▸ hb.found
  have he := Ensemble.Carries.refl (w.ensemble shared)
  refine hb.served he.toRetains hfound hconnectors hreplicas hb.ledger (fun _ => hb.registered)
    fun c h hc => (hb.keeps hc).spared hb.staffed ?_
  exact spares_of_service he.toRetains hfound hreplicas id fun _ _ hi _ => hi

/-- A step at the service that leaves every session open or closed. -/
theorem Booked.step (hb : Booked b w) (he : Ensemble.Carries (w.ensemble shared) e)
    (hstep : Ensemble.Step (w.ensemble shared) e)
    (hclosed : ∀ k, e.phase k = .closed ↔ (w.ensemble shared).phase k = .closed) :
    Booked b (w.setEnsemble shared e) := by
  have hfound : (w.setEnsemble shared e).ensembles[shared]? = some e := hb.found_set e
  refine hb.served he.toRetains hfound rfl rfl (hb.ledger.congr hclosed)
    (fun _ hi => hb.registered (he.registered hi)) fun c h hc => ?_
  exact (hb.keeps hc).spared hb.staffed
    (spares_of_service he.toRetains hfound rfl he.live fun i => hstep.keeps hb.reachable)

theorem Booked.befalls (hb : Booked b w) (h : (w.ensemble shared).Befalls e) :
    Booked b (w.setEnsemble shared e) :=
  hb.step (h.carries hb.reachable) h.step h.closed_iff

end World

end KeyRegistry
