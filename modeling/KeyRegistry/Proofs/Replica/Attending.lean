import KeyRegistry.Proofs.Ensemble.Upkeep
import KeyRegistry.Proofs.Replica.Struck
import KeyRegistry.Proofs.Replica.Working

/-!
# A worker and its watch

A move of a worker alters nothing at the service but the watch that is its own and the
faults that it takes. As long as its session lives and no fault ends it, a worker that is
not asked to stop keeps its watch. Once it is cancelled it stores nothing.
-/

namespace KeyRegistry

def Activity.Bearable : Activity → Prop
  | .filling _ level => ∀ x ∈ level, x.2.Bearable
  | .listening => True
  | .refreshing _ hold => hold.Bearable
  | .stopped => False

structure Worker.Attends (u : Worker) : Prop where
  unasked : u.stopRequested = false
  uncancelled : u.cancelled = false
  bearable : u.activity.Bearable

namespace Ensemble

variable {e e' : Ensemble} {i s now : Nat}

theorem Bearable.heeds (h : e.Bearable s) (he : Heeds i e e') : e'.Bearable s where
  live := (phase_congr he.sessions s).trans h.live
  spared error herror := h.spared error (he.pending error herror)

/-- What a worker does with its watch neither opens a session nor registers a watch. -/
theorem carries_of_heeds {k : Nat} (h : Heeds i e e') (hi : e.WatchOf i k) : Carries e e' where
  toRetains := {
    reachable := h.reachable
    spared := fun hspared error herror => hspared error (h.pending error herror)
    known := fun {k x} hx => by
      refine ⟨x, ?_⟩
      unfold session? at hx ⊢
      rwa [h.sessions]
    watchOf := watchOf_of_becomes h.becomes }
  live hlive := (phase_congr h.sessions _).symm.trans hlive
  registered {j} hj := by
    by_cases hne : j = i
    · subst hne
      obtain ⟨x, hx, -⟩ := hi
      exact registered_of_becomes h.becomes hx hj
    · obtain ⟨y, hy, hregistered⟩ := hj
      exact ⟨y, (h.others hne).symm.trans hy, hregistered⟩

end Ensemble

namespace Replica

variable {m m' : Replica} {u : Worker} {e e' : Ensemble} {a b : Activity} {v : Move}
  {now stored : Nat} {error : ServiceError} {level : List (String × Reading)}

/-- What gives a worker no reason to give up its watch. -/
structure Favours (e : Ensemble) (u : Worker) : Prop where
  wellFormed : e.tree.WellFormed
  bearable : e.Bearable u.session
  attends : u.Attends
  registered : e.Registered u.watch

structure Works (m : Replica) (u : Worker) (e : Ensemble) (a : Activity) (v : Move) : Prop where
  root : v.replica.root = m.root
  phase : v.replica.phase = m.phase
  worker : v.replica.worker = some { u with activity := a }
  heeds : Ensemble.Heeds u.watch e v.ensemble
  keeps : Favours e u → a.Bearable ∧ v.ensemble.Registered u.watch

theorem works_stop (m : Replica) (he : Ensemble.Heeds u.watch e e') (hnot : ¬Favours e u)
    (notices : List Notice) : Works m u e .stopped (m.stop u e' notices) where
  root := rfl
  phase := rfl
  worker := rfl
  heeds := he.trans (Ensemble.heeds_of_reads (.drop e'))
  keeps h := absurd h hnot

theorem works_failRefresh (m : Replica) (he : Ensemble.Heeds u.watch e e')
    (hkept : e.Registered u.watch → e'.Registered u.watch)
    (herror : Favours e u → error.endsSession = false) (p : String) :
    ∃ a, Works m u e a (m.failRefresh u e' p error) := by
  unfold failRefresh
  split_ifs with hends
  · exact ⟨_, works_stop m he (fun h => by simp [herror h] at hends) _⟩
  · exact ⟨.listening, rfl, rfl, rfl, he, fun h => ⟨trivial, hkept h.registered⟩⟩

theorem works_closeLevel (m : Replica) (u : Worker) (e : Ensemble) (stored : Nat)
    (found : List (String × Option (List UInt8 × Stat × List String))) :
    ∃ a, Works m u e a (m.closeLevel u e stored found) := by
  have hroot := root_storeLevel m found
  have hphase := phase_storeLevel m found
  unfold closeLevel
  cases hnext : nextLevel found with
  | nil =>
    exact ⟨.listening, hroot, hphase, rfl, .refl _ e, fun h => ⟨trivial, h.registered⟩⟩
  | cons first rest =>
    refine ⟨.filling _ (first :: rest), hroot, hphase, rfl, .refl _ e, fun h => ⟨?_, h.registered⟩⟩
    rintro ⟨b, r⟩ hmem
    rw [← hnext] at hmem
    obtain ⟨rfl, -⟩ := mem_nextLevel.1 hmem
    trivial

theorem works_of_stepFilling (hfilling : u.activity = .filling stored level)
    (h : m.stepFilling now u e stored level = some v) : ∃ a, Works m u e a v := by
  have hbearable (hu : Favours e u) : ∀ x ∈ level, x.2.Bearable := by
    have := hu.attends.bearable
    rwa [hfilling] at this
  unfold stepFilling at h
  split at h
  · obtain rfl := Option.some.inj h
    exact works_closeLevel m u e stored _
  · rename_i error _ hfailure
    obtain rfl := Option.some.inj h
    obtain ⟨b, hmem⟩ := mem_of_failureOf hfailure
    unfold failFilling
    split_ifs with hends
    · refine ⟨_, works_stop m (.refl _ e) (fun hu => ?_) _⟩
      have hspared : error.endsSession = false := hbearable hu _ hmem
      simp [hspared] at hends
    · exact ⟨.listening, rfl, rfl, rfl, .refl _ e, fun hu => ⟨trivial, hu.registered⟩⟩
  · obtain ⟨⟨level', e', notices⟩, hlevel, rfl⟩ := Option.map_eq_some_iff.1 h
    obtain ⟨before, b, r, r', after, rfl, hreading, rfl⟩ := stepLevel_cases hlevel
    have hlearns := learns_of_stepReading hreading
    refine ⟨.filling stored (before ++ (b, r') :: after), rfl, rfl, rfl, hlearns.heeds _,
      fun hu => ⟨fun x hx => ?_, hu.registered.congr (by rw [hlearns.same])⟩⟩
    have hendures := endures_of_stepReading hu.wellFormed hu.bearable
      (hbearable hu (b, r) (by simp)) hreading
    rcases mem_level_moved (a := b) (r := r) (show (x.1, x.2) ∈ _ from hx) with hx | ⟨-, hx⟩
    · exact hbearable hu x hx
    · exact hx ▸ hendures.bearable

theorem works_of_stepListening (hworker : m.worker = some u)
    (h : m.stepListening now u e = some v) : ∃ a, Works m u e a v := by
  unfold stepListening at h
  split at h
  · rename_i event e₁ hnext
    have htaken := Ensemble.heeds_of_reads (.take hnext)
    have hkept (hw : e.Registered u.watch) := hw.take hnext
    split at h
    · obtain rfl := Option.some.inj h
      exact ⟨u.activity, rfl, rfl, hworker, htaken,
        fun hu => ⟨hu.attends.bearable, hkept hu.registered⟩⟩
    · split at h
      · rename_i hold e₂ haccept
        obtain rfl := Option.some.inj h
        refine ⟨.refreshing event.path hold, rfl, rfl, rfl,
          htaken.trans (Ensemble.heeds_of_accept _ haccept), fun hu => ⟨?_, ?_⟩⟩
        · exact (hu.bearable.heeds htaken).hold haccept
        · obtain ⟨-, rfl⟩ := Ensemble.accept_eq_ok haccept
          exact hkept hu.registered
      · rename_i error haccept
        obtain rfl := Option.some.inj h
        refine works_failRefresh m htaken hkept (fun hu => ?_) _
        obtain ⟨hold, e₂, hadmitted⟩ :=
          Ensemble.exists_accept (hu.bearable.heeds htaken).live now
        simp [hadmitted] at haccept
  · split at h
    · simp at h
    · rename_i hphase
      obtain rfl := Option.some.inj h
      refine ⟨_, works_stop m (.refl _ e) (fun hu => ?_) _⟩
      obtain ⟨w, hw, hregistered⟩ := hu.registered
      exact hphase (by rw [hw, Option.map_some, hregistered])

theorem works_of_stepRefreshing {p : String} {hold : Hold}
    (hrefreshing : u.activity = .refreshing p hold)
    (h : m.stepRefreshing now u e p hold = some v) : ∃ a, Works m u e a v := by
  have hsame := Ensemble.complete_getData e u.session hold.fault p
  have hspared {error : ServiceError} {e' : Ensemble}
      (hread : e.complete u.session hold.fault (.getData p) = (.error error, e'))
      (hu : Favours e u) : error.endsSession = false := by
    have hhold := hu.attends.bearable
    rw [hrefreshing] at hhold
    rcases read_cases (a := p) hu.bearable.live hhold with
      ⟨error', herror', hread', -⟩ | ⟨n, -, -, hread', -⟩ <;> rw [hread'] at hread
    · obtain ⟨heq, -⟩ := Prod.ext_iff.1 hread
      exact Except.error.inj heq ▸ herror'
    · cases hread
  unfold stepRefreshing at h
  split_ifs at h
  split at h <;> rename_i hread <;> rw [hread] at hsame <;> obtain rfl := hsame.symm <;>
    obtain rfl := Option.some.inj h
  · exact ⟨.listening, rfl, rfl, rfl, .refl _ e, fun hu => ⟨trivial, hu.registered⟩⟩
  · exact ⟨.listening, rfl, rfl, rfl, .refl _ e, fun hu => ⟨trivial, hu.registered⟩⟩
  · exact ⟨.listening, rfl, rfl, rfl, .refl _ e, fun hu => ⟨trivial, hu.registered⟩⟩
  · exact works_failRefresh m (.refl _ e) id (hspared hread) p

/-- Every move of a worker leaves everything but its own watch and the faults to others, and
keeps the watch if there is no reason to give it up. -/
theorem works_of_step (h : m.step now e = some v) :
    ∃ u a, m.worker = some u ∧ Works m u e a v := by
  obtain ⟨u, hu, ⟨hflag, rfl⟩ | ⟨stored, level, hfilling, hstep⟩ | ⟨-, hstep⟩ |
    ⟨p, hold, hrefreshing, hstep⟩⟩ := cases_of_step h
  · refine ⟨u, _, hu, works_stop m (.refl _ e) (fun hfavours => ?_) _⟩
    rcases hflag with hflag | hflag
    · simp [hfavours.attends.unasked] at hflag
    · simp [hfavours.attends.uncancelled] at hflag
  · obtain ⟨a, hworks⟩ := works_of_stepFilling hfilling hstep
    exact ⟨u, a, hu, hworks⟩
  · obtain ⟨a, hworks⟩ := works_of_stepListening hu hstep
    exact ⟨u, a, hu, hworks⟩
  · obtain ⟨a, hworks⟩ := works_of_stepRefreshing hrefreshing hstep
    exact ⟨u, a, hu, hworks⟩

/-! ## Turns -/

theorem Favours.works (h : Favours e u) (hw : Works m u e a v) :
    Favours v.ensemble { u with activity := a } where
  wellFormed := hw.heeds.tree ▸ h.wellFormed
  bearable := h.bearable.heeds hw.heeds
  attends := ⟨h.attends.unasked, h.attends.uncancelled, (hw.keeps h).1⟩
  registered := (hw.keeps h).2

theorem Works.refl (hu : m.worker = some u) (notices : List Notice) :
    Works m u e u.activity ⟨m, e, notices⟩ :=
  ⟨rfl, rfl, hu, .refl _ e, fun h => ⟨h.attends.bearable, h.registered⟩⟩

theorem Works.trans {v' : Move} (h : Works m u e a v)
    (h' : Works v.replica { u with activity := a } v.ensemble b v') : Works m u e b v' where
  root := h'.root.trans h.root
  phase := h'.phase.trans h.phase
  worker := h'.worker
  heeds := h.heeds.trans h'.heeds
  keeps hu := h'.keeps (hu.works h)

/-- A turn of a worker does no more than a move of it. -/
theorem works_of_run (hu : m.worker = some u) (now moves left : Nat) (notices : List Notice) :
    ∃ a, Works m u e a (run now moves left ⟨m, e, notices⟩) := by
  induction moves generalizing m u e left notices with
  | zero => exact ⟨_, .refl hu notices⟩
  | succ moves ih =>
    unfold run
    split
    · exact ⟨_, .refl hu notices⟩
    · rename_i next hnext
      obtain ⟨u', a, hu', hworks⟩ := works_of_step hnext
      obtain rfl : u = u' := Option.some.inj (hu.symm.trans hu')
      dsimp only
      split_ifs
      · exact ⟨_, .refl hu notices⟩
      · obtain ⟨b, hrest⟩ := ih hworks.worker (left - m.effort now) (notices ++ next.notices)
        exact ⟨b, hworks.trans hrest⟩

/-! ## Replicas that are over -/

structure Spent (m : Replica) : Prop where
  closed : m.phase = .closed
  empty : m.entries = []
  idle : ∀ u, m.worker = some u → u.activity = .stopped ∨ u.cancelled = true

/-- What does not go back: a closed replica whose worker has ended, and one that is over. -/
structure Ages (m m' : Replica) : Prop where
  ended : m.phase = .closed → m.isStopped = true → m'.phase = .closed ∧ m'.isStopped = true
  spent : m.Spent → m'.Spent

theorem Ages.refl (m : Replica) : m.Ages m := ⟨fun h h' => ⟨h, h'⟩, id⟩

theorem Ages.trans {m'' : Replica} (h : m.Ages m') (h' : m'.Ages m'') : m.Ages m'' where
  ended hclosed hstopped := (h.ended hclosed hstopped).elim h'.ended
  spent := h'.spent ∘ h.spent

theorem step_of_stopped (h : m.isStopped = true) (now : Nat) (e : Ensemble) :
    m.step now e = none := by
  unfold isStopped at h
  cases hu : m.worker with
  | none => exact step_of_no_worker hu now e
  | some u =>
    rw [hu] at h
    simp [step, hu, eq_of_beq h]

/-- A worker that is cancelled can do nothing but stop. -/
theorem Spent.step (h : m.Spent) (hstep : m.step now e = some v) : v.replica.Spent := by
  obtain ⟨u, hu, hmove⟩ := Option.bind_eq_some_iff.1 hstep
  rcases h.idle u hu with hstopped | hcancelled
  · simp [hstopped] at hmove
  · obtain rfl : v = m.stop u e [] := by
      cases hactivity : u.activity <;> simp_all
    exact ⟨h.closed, h.empty, by rintro _ ⟨⟩; exact .inl rfl⟩

theorem ages_of_step (h : m.step now e = some v) : m.Ages v.replica where
  ended _ hstopped := by simp [step_of_stopped hstopped] at h
  spent hm := hm.step h

theorem ages_of_run (now moves left : Nat) (v : Move) :
    v.replica.Ages (run now moves left v).replica := by
  induction moves generalizing left v with
  | zero => exact .refl _
  | succ moves ih =>
    unfold run
    split
    · exact .refl _
    · rename_i next hnext
      dsimp only
      split_ifs
      · exact .refl _
      · exact (ages_of_step hnext).trans
          (ih _ { next with notices := v.notices ++ next.notices })

end Replica

end KeyRegistry
