import KeyRegistry.Proofs.Ensemble.Ending
import KeyRegistry.Proofs.Ensemble.Subscription
import KeyRegistry.Proofs.Ensemble.Watching

/-!
# Sessions and watches that are kept

A watch is registered only as long as its session lives, and it stays registered that
long unless its holder gives it up. So what befalls the service, short of a fault that ends
a session, takes a watch away from a session only with the session itself.
-/

namespace KeyRegistry

namespace Ensemble

variable {e e' e'' : Ensemble} {i k id : Nat} {x : Watch}

/-! ## Sessions -/

def Ages (e e' : Ensemble) : Prop := ∀ id x, e.session? id = some x →
  ∃ y, e'.session? id = some y ∧ (x.phase = .closed → y.phase = .closed)

theorem ages_of_sessions (h : e'.sessions = e.sessions) : e.Ages e' := by
  intro id x hx
  refine ⟨x, ?_, fun hclosed => hclosed⟩
  unfold session? at hx ⊢
  rwa [h]

theorem Ages.trans (h : e.Ages e') (h' : e'.Ages e'') : e.Ages e'' := by
  intro id x hx
  obtain ⟨y, hy, hclosed⟩ := h id x hx
  obtain ⟨z, hz, hclosed'⟩ := h' id y hy
  exact ⟨z, hz, hclosed' ∘ hclosed⟩

theorem ages_setPhase (hopen : e.phase id ≠ .closed) (phase : SessionPhase) :
    e.Ages (e.setPhase id phase) := by
  intro k x hx
  have h0 := (exists_session_of_phase hopen).1
  by_cases hk : k = id
  · subst hk
    refine ⟨{ x with phase := phase }, ?_, fun hclosed => absurd ?_ hopen⟩
    · rw [session?_setPhase, if_pos rfl, hx, Option.map_some]
    · simp [Ensemble.phase, hx, hclosed]
  · exact ⟨x, (session?_setPhase_of_ne h0 hk).trans hx, fun hclosed => hclosed⟩

theorem ages_endSession (hopen : e.phase id ≠ .closed) (phase : SessionPhase)
    (order : List String) : e.Ages ((e.setPhase id phase).endSession id order) :=
  (ages_setPhase hopen phase).trans (ages_of_sessions rfl)

/-- Every step at the service. -/
theorem Step.ages (h : Step e e') : e.Ages e' := by
  cases h with
  | connect servers identity => exact fun k x hx => ⟨x, session?_connect hx .., id⟩
  | failConnects count => exact ages_of_sessions rfl
  | inject error => exact ages_of_sessions rfl
  | setLatency ms => exact ages_of_sessions rfl
  | accept accepted =>
    obtain ⟨-, rfl⟩ := accept_eq_ok accepted
    exact ages_of_sessions rfl
  | complete k fault r => exact ages_of_sessions (complete_frame e k fault r).1
  | expire live perm => exact ages_endSession (by simp [live]) _ _
  | close live perm => exact ages_endSession (by simp [live]) _ _
  | closeExpired expired => exact ages_setPhase (by simp [expired]) _

theorem phase_close (e : Ensemble) (id : Nat) : (e.close id).2.phase id = .closed := by
  unfold close
  split <;> rename_i hphase
  · exact hphase
  · exact phase_setPhase_self (by simp [hphase])
  · exact (phase_congr rfl id).trans (phase_setPhase_self (by simp [hphase]))

theorem phase_close_of_ne (hk : k ≠ id) : (e.close id).2.phase k = e.phase k := by
  have h0 (hopen : e.phase id ≠ .closed) : id ≠ 0 := (exists_session_of_phase hopen).1
  unfold close
  split <;> rename_i hphase
  · rfl
  · exact phase_setPhase_of_ne (h0 (by simp [hphase])) hk
  · exact (phase_congr rfl k).trans (phase_setPhase_of_ne (h0 (by simp [hphase])) hk)

/-- A session that is opened was not known before. -/
theorem phase_connect {servers : String} {identity : Option String}
    (h : (e.connect servers identity).1 = .ok id) :
    e.session? id = none ∧ (e.connect servers identity).2.phase id = .live ∧
      ∀ k, k ≠ id → (e.connect servers identity).2.phase k = e.phase k := by
  obtain ⟨rfl, hsessions⟩ := connect_eq_ok h
  refine ⟨by simp [session?], by simp [phase, session?, hsessions], fun k hk => ?_⟩
  unfold phase session?
  rw [hsessions, List.getElem?_append]
  split_ifs with h0 hlt
  · rfl
  · rfl
  · rw [List.getElem?_eq_none (not_lt.1 hlt), List.getElem?_singleton, if_neg (by omega)]

theorem Leads.ages (h : e.Leads e') : e.Ages e' := by
  induction h with
  | refl => exact ages_of_sessions rfl
  | tail _ hnext ih =>
    rcases hnext with hs | ⟨i, hr⟩
    · exact ih.trans hs.ages
    · exact ih.trans (ages_of_sessions hr.frame.2.1)

/-! ## Watches of live sessions -/

def Registered (e : Ensemble) (i : Nat) : Prop :=
  ∃ w, e.watches[i]? = some w ∧ w.phase = .registered

theorem Registered.congr (h : e.Registered i) (hwatches : e'.watches = e.watches) :
    e'.Registered i := by
  unfold Registered
  rwa [hwatches]

theorem Registered.take {ev : Event} (h : e.Registered i) (taken : e.nextEvent? i = some (ev, e')) :
    e'.Registered i := by
  obtain ⟨⟨session, root, queue, phase⟩, hw, hphase⟩ := h
  obtain ⟨hlt, -⟩ := List.getElem?_eq_some_iff.1 hw
  cases queue with
  | nil => simp [nextEvent?, hw] at taken
  | cons first rest =>
    simp only [nextEvent?, hw, Option.some.injEq, Prod.mk.injEq] at taken
    obtain ⟨-, rfl⟩ := taken
    exact ⟨_, List.getElem?_set_self hlt, hphase⟩

def WatchOf (e : Ensemble) (i k : Nat) : Prop := ∃ x, e.watches[i]? = some x ∧ x.session = k

theorem WatchOf.eq {k' : Nat} (h : e.WatchOf i k) (h' : e.WatchOf i k') : k = k' := by
  obtain ⟨x, hx, rfl⟩ := h
  obtain ⟨y, hy, rfl⟩ := h'
  rw [Option.some.inj (hx.symm.trans hy)]

theorem exists_watch_of_length (hlength : e'.watches.length = e.watches.length)
    (hx : e'.watches[i]? = some x) : ∃ y, e.watches[i]? = some y := by
  obtain ⟨hlt, -⟩ := List.getElem?_eq_some_iff.1 hx
  exact ⟨_, List.getElem?_eq_getElem (hlength ▸ hlt)⟩

def Watchful (e : Ensemble) : Prop :=
  ∀ (i : Nat) (x : Watch), e.watches[i]? = some x → x.phase = .registered →
    e.phase x.session = .live

theorem Watchful.of_becomes (h : e.Watchful) (hlength : e'.watches.length = e.watches.length)
    (hbecomes : ∀ (i : Nat) (x : Watch), e.watches[i]? = some x →
      ∃ y, e'.watches[i]? = some y ∧ x.Becomes y ∧
      (y.phase = .registered → e.phase x.session = .live → e'.phase x.session = .live)) :
    e'.Watchful := by
  intro i y hy hregistered
  obtain ⟨x, hx⟩ := exists_watch_of_length hlength hy
  obtain ⟨y', hy', hbecomes, hkept⟩ := hbecomes i x hx
  obtain rfl := Option.some.inj (hy.symm.trans hy')
  rw [hbecomes.session]
  exact hkept hregistered (h i x hx (hbecomes.phase hregistered))

theorem Watchful.of_eq (h : e.Watchful) (hwatches : e'.watches = e.watches)
    (hphase : ∀ k, e.phase k = .live → e'.phase k = .live) : e'.Watchful :=
  h.of_becomes (congrArg List.length hwatches) fun i x hx =>
    ⟨x, by rw [hwatches, hx], .refl x, fun _ => hphase _⟩

theorem length_watches_endSession (phase : SessionPhase) (order : List String) :
    ((e.setPhase id phase).endSession id order).watches.length = e.watches.length := by
  simp [endSession, endWatches, dispatch, setPhase]

theorem Watchful.endSession (h : e.Watchful) (ht : e.tree.WellFormed) {phase : SessionPhase}
    {order : List String} (hlive : e.phase id = .live)
    (perm : order.Perm (e.tree.ephemeralsOf id)) :
    ((e.setPhase id phase).endSession id order).Watchful := by
  have h0 := (exists_session_of_phase (show e.phase id ≠ .closed by simp [hlive])).1
  refine h.of_becomes (length_watches_endSession phase order) fun i x hx => ?_
  obtain ⟨y, hy, hbecomes, hended⟩ := becomes_endSession ht phase perm hx
  refine ⟨y, hy, hbecomes, fun hregistered hlive' => ?_⟩
  have hne : x.session ≠ id := fun heq => hended heq hregistered
  exact (phase_setPhase_of_ne h0 hne).trans hlive'

theorem Watchful.perform (h : e.Watchful) (ht : e.tree.WellFormed) (hlive : e.phase id = .live)
    (r : Request) : (e.perform id r).2.Watchful := by
  have hphase (k : Nat) : (e.perform id r).2.phase k = e.phase k :=
    phase_congr (perform_frame e id r).1 k
  rcases perform_cases e id r with heq | ⟨t, evs, hs, heq⟩ | ⟨top, -, heq⟩
  · rwa [heq]
  · refine h.of_becomes (by simp [heq, dispatch]) fun i x hx => ?_
    obtain ⟨y, hy, hbecomes⟩ := becomes_dispatch ht hs hx
    exact ⟨y, by rw [heq, hy], hbecomes, fun _ hlive => (hphase _).trans hlive⟩
  · intro i y hy hregistered
    rw [hphase]
    rw [heq, List.getElem?_append] at hy
    split_ifs at hy
    · exact h i y hy hregistered
    · obtain ⟨-, rfl⟩ : _ ∧ _ := by simpa [List.getElem?_singleton] using hy
      exact hlive

theorem Watchful.step (h : e.Watchful) (ht : e.tree.WellFormed) (hs : Step e e') :
    e'.Watchful := by
  cases hs with
  | connect servers identity =>
    exact h.of_eq (watches_connect ..) fun k hlive => phase_connect_of_live hlive ..
  | failConnects count => exact h
  | inject error => exact h
  | setLatency ms => exact h
  | accept accepted =>
    obtain ⟨-, rfl⟩ := accept_eq_ok accepted
    exact h
  | complete id fault r =>
    rcases complete_cases e id fault r with ⟨_, heq⟩ | ⟨hlive, heq⟩ <;> rw [heq]
    · exact h
    · exact h.perform ht hlive r
  | expire live perm => exact h.endSession ht live perm
  | close live perm => exact h.endSession ht live perm
  | @closeExpired id expired =>
    have h0 := (exists_session_of_phase (show e.phase id ≠ .closed by simp [expired])).1
    refine h.of_eq rfl fun k hlive => ?_
    have hne : k ≠ id := by
      rintro rfl
      simp [hlive] at expired
    exact (phase_setPhase_of_ne h0 hne).trans hlive

theorem Reads.length_watches (h : Reads i e e') : e'.watches.length = e.watches.length := by
  cases h with
  | take taken =>
    unfold nextEvent? at taken
    split at taken
    · obtain ⟨-, rfl⟩ := Prod.ext_iff.1 (Option.some.inj taken)
      exact List.length_set
    · simp at taken
  | drain =>
    unfold Ensemble.drain
    split
    · exact List.length_set
    · rfl
  | drop => exact List.length_modify ..

theorem Reachable.watchful (h : Reachable e) : e.Watchful := by
  induction h with
  | fresh => exact fun i x hx => by simp at hx
  | step before step ih => exact ih.step before.wellFormed step
  | read _ read ih =>
    refine ih.of_becomes read.length_watches fun i x hx => ?_
    obtain ⟨y, hy, hbecomes⟩ := read.becomes hx
    exact ⟨y, hy, hbecomes, fun _ hlive => (phase_congr read.frame.2.1 _).trans hlive⟩

/-! ## What becomes of sessions and watches -/

/-- What stays at the service: a session stays known, a watch stays with its session, and no fault
that ends a session comes up. -/
structure Retains (e e' : Ensemble) : Prop where
  reachable : e.Reachable → e'.Reachable
  spared : (∀ error ∈ e.faults.pending, error.endsSession = false) →
    ∀ error ∈ e'.faults.pending, error.endsSession = false
  known {k : Nat} {s : Session} : e.session? k = some s → ∃ s', e'.session? k = some s'
  watchOf {i k : Nat} : e.WatchOf i k → e'.WatchOf i k

structure Carries (e e' : Ensemble) : Prop extends Retains e e' where
  live {k : Nat} : e'.phase k = .live → e.phase k = .live
  registered {i : Nat} : e'.Registered i → e.Registered i

theorem Carries.refl (e : Ensemble) : Carries e e :=
  ⟨⟨id, id, fun hs => ⟨_, hs⟩, id⟩, id, id⟩

theorem registered_of_becomes
    (hbecomes : ∀ {i : Nat} {x : Watch}, e.watches[i]? = some x →
      ∃ y, e'.watches[i]? = some y ∧ x.Becomes y)
    (hx : e.watches[i]? = some x) (h : e'.Registered i) : e.Registered i := by
  obtain ⟨y, hy, hbecomes⟩ := hbecomes hx
  obtain ⟨y', hy', hregistered⟩ := h
  obtain rfl := Option.some.inj (hy.symm.trans hy')
  exact ⟨x, hx, hbecomes.phase hregistered⟩

theorem watchOf_of_becomes
    (hbecomes : ∀ {i : Nat} {x : Watch}, e.watches[i]? = some x →
      ∃ y, e'.watches[i]? = some y ∧ x.Becomes y)
    (h : e.WatchOf i k) : e'.WatchOf i k := by
  obtain ⟨x, hx, rfl⟩ := h
  obtain ⟨y, hy, hbecomes⟩ := hbecomes hx
  exact ⟨y, hy, hbecomes.session⟩

theorem retains_of_step (hr : e.Reachable) (h : Step e e')
    (hspared : (∀ error ∈ e.faults.pending, error.endsSession = false) →
      ∀ error ∈ e'.faults.pending, error.endsSession = false) : Retains e e' where
  reachable hr := .step hr h
  spared := hspared
  known hs := by
    obtain ⟨s', hs', -⟩ := h.ages _ _ hs
    exact ⟨s', hs'⟩
  watchOf := watchOf_of_becomes (h.becomes hr.wellFormed)

theorem carries_of_step (hr : e.Reachable) (h : Step e e')
    (hspared : (∀ error ∈ e.faults.pending, error.endsSession = false) →
      ∀ error ∈ e'.faults.pending, error.endsSession = false)
    (hlive : ∀ k, e'.phase k = .live → e.phase k = .live)
    (hlength : e'.watches.length = e.watches.length) : Carries e e' where
  toRetains := retains_of_step hr h hspared
  live := hlive _
  registered hi := by
    obtain ⟨y, hy, -⟩ := id hi
    obtain ⟨x, hx⟩ := exists_watch_of_length hlength hy
    exact registered_of_becomes (h.becomes hr.wellFormed) hx hi

/-- At every step at the service a registered watch stays so, unless its session ends. -/
theorem Step.keeps (hr : e.Reachable) (h : Step e e') (hx : e.WatchOf i k)
    (hregistered : e.Registered i) (hlive : e'.phase k = .live) : e'.Registered i := by
  obtain ⟨x, hx, rfl⟩ := hx
  obtain ⟨y, hy, hphase⟩ := hregistered
  obtain rfl := Option.some.inj (hx.symm.trans hy)
  obtain ⟨who, evs, hevolves⟩ := h.evolves hr.wellFormed
  exact ⟨_, hevolves.watch hx hlive, (x.phase_receive evs).trans hphase⟩

/-- One more watch is registered, which is the session's that asked for it. -/
theorem registered_watch {fault : Option ServiceError} {root : String}
    (h : (e.complete k fault (.watch root)).1 = .ok i) :
    (e.complete k fault (.watch root)).2.WatchOf i k ∧
      ∀ j, (e.complete k fault (.watch root)).2.Registered j ↔ j = i ∨ e.Registered j := by
  obtain ⟨rfl, -, heq⟩ := eq_of_watch_answer h
  rw [heq]
  unfold WatchOf Registered
  simp only [List.getElem?_append, List.getElem?_singleton]
  refine ⟨⟨⟨k, root, [], .registered⟩, by simp, rfl⟩, fun j => ?_⟩
  split_ifs with hlt heq
  · simp [hlt.ne]
  · obtain rfl : j = e.watches.length := by omega
    simp
  · have hge := List.getElem?_eq_none (not_lt.1 hlt)
    simp [hge]
    omega

/-! ## What befalls the service -/

theorem length_watches_complete (fault : Option ServiceError) {r : Request}
    (hr : ∀ root, r ≠ .watch root) :
    (e.complete id fault r).2.watches.length = e.watches.length := by
  rcases complete_cases e id fault r with ⟨error, heq⟩ | ⟨-, heq⟩
  · rw [heq]
  · rw [heq]
    rcases perform_cases e id r with hsame | ⟨t, evs, -, hsame⟩ | ⟨top, hwatch, -⟩
    · rw [hsame]
    · simp [hsame, dispatch]
    · exact absurd hwatch (hr top)

/-- What may befall the service by the doing of others: any number of connections fail, faults of
any kind but those that end a session strike, sessions of any number expire, and calls of any kind
but registrations are made over any session. -/
inductive Befalls : Ensemble → Ensemble → Prop
  | failConnects (e : Ensemble) (count : Nat) : Befalls e (e.failConnects count)
  | inject (e : Ensemble) {error : ServiceError} (spares : error.endsSession = false) :
      Befalls e (e.inject error)
  | setLatency (e : Ensemble) (ms : Nat) : Befalls e (e.setLatency ms)
  | accept {e e' : Ensemble} {now id : Nat} {hold : Hold}
      (accepted : e.accept now id = .ok (hold, e')) : Befalls e e'
  | complete (e : Ensemble) (id : Nat) (fault : Option ServiceError) {r : Request}
      (unwatched : ∀ root, r ≠ .watch root) : Befalls e (e.complete id fault r).2
  | expire {e : Ensemble} {id : Nat} {order : List String} (live : e.phase id = .live)
      (perm : order.Perm (e.tree.ephemeralsOf id)) :
      Befalls e ((e.setPhase id .expired).endSession id order)

theorem Befalls.step (h : Befalls e e') : Step e e' := by
  cases h with
  | failConnects count => exact .failConnects e count
  | inject spares => exact .inject e _
  | setLatency ms => exact .setLatency e ms
  | accept accepted => exact .accept accepted
  | complete id fault unwatched => exact .complete e id fault _
  | expire live perm => exact .expire live perm

/-- The phase of a session may change only from live to expired. -/
theorem Befalls.phase (h : Befalls e e') (k : Nat) :
    e'.phase k = e.phase k ∨ e.phase k = .live ∧ e'.phase k = .expired := by
  cases h with
  | failConnects count => exact .inl rfl
  | inject spares => exact .inl rfl
  | setLatency ms => exact .inl rfl
  | accept accepted =>
    obtain ⟨-, rfl⟩ := accept_eq_ok accepted
    exact .inl rfl
  | complete id fault unwatched => exact .inl (phase_congr (complete_frame e id fault _).1 k)
  | @expire id order live perm =>
    have hopen : e.phase id ≠ .closed := by simp [live]
    by_cases hk : k = id
    · subst hk
      exact .inr ⟨live, (phase_congr rfl k).trans (phase_setPhase_self hopen)⟩
    · exact .inl ((phase_congr rfl k).trans
        (phase_setPhase_of_ne (exists_session_of_phase hopen).1 hk))

theorem Befalls.closed_iff (h : Befalls e e') (k : Nat) :
    e'.phase k = .closed ↔ e.phase k = .closed := by
  rcases h.phase k with heq | ⟨hlive, hexpired⟩
  · rw [heq]
  · simp [hlive, hexpired]

theorem Befalls.carries (hr : e.Reachable) (h : Befalls e e') : Carries e e' := by
  have hlive (k : Nat) (hk : e'.phase k = .live) : e.phase k = .live := by
    rcases h.phase k with heq | ⟨hlive, -⟩
    · exact heq ▸ hk
    · exact hlive
  refine carries_of_step hr h.step (fun hspared => ?_) hlive ?_
  · cases h with
    | failConnects count => exact hspared
    | @inject error spares =>
      intro x hx
      rcases List.mem_append.1 hx with hx | hx
      · exact hspared x hx
      · rwa [List.mem_singleton.1 hx]
    | setLatency ms => exact hspared
    | accept accepted =>
      obtain ⟨-, rfl⟩ := accept_eq_ok accepted
      exact fun x hx => hspared x (List.mem_of_mem_tail hx)
    | complete id fault unwatched => rwa [(complete_frame e id fault _).2]
    | expire live perm => exact hspared
  · cases h with
    | failConnects count => rfl
    | inject spares => rfl
    | setLatency ms => rfl
    | accept accepted =>
      obtain ⟨-, rfl⟩ := accept_eq_ok accepted
      rfl
    | complete id fault unwatched => exact length_watches_complete fault unwatched
    | expire live perm => exact length_watches_endSession ..

/-- To close a session ends its watches and leaves the others as they are. -/
theorem carries_close (hr : e.Reachable) (hopen : e.phase id ≠ .closed) :
    Carries e (e.close id).2 := by
  refine carries_of_step hr (step_close hopen) (fun hspared => ?_) (fun k hk => ?_) ?_
  · unfold close
    split <;> exact hspared
  · by_cases hne : k = id
    · subst hne
      simp [phase_close] at hk
    · rwa [phase_close_of_ne hne] at hk
  · unfold close
    split
    · rfl
    · rfl
    · exact length_watches_endSession ..

/-! ## Connections -/

section Connecting

variable {servers : String} {identity : Option String} {error : ServiceError}

theorem pending_connect (e : Ensemble) (servers : String) (identity : Option String) :
    (e.connect servers identity).2.faults.pending = e.faults.pending := by
  unfold connect
  dsimp only
  split_ifs <;> rfl

theorem retains_connect (servers : String) (identity : Option String) (hr : e.Reachable) :
    Retains e (e.connect servers identity).2 :=
  retains_of_step hr (.connect ..) fun hspared => by rwa [pending_connect]

theorem sessions_of_refused (h : (e.connect servers identity).1 = .error error) :
    (e.connect servers identity).2.sessions = e.sessions := by
  unfold connect at h ⊢
  dsimp only at h ⊢
  split_ifs at h ⊢
  rfl

theorem carries_of_refused (hr : e.Reachable) (h : (e.connect servers identity).1 = .error error) :
    Carries e (e.connect servers identity).2 :=
  carries_of_step hr (.connect ..) (fun hspared => by rwa [pending_connect])
    (fun k hk => (phase_congr (sessions_of_refused h) k).symm.trans hk)
    (congrArg List.length (watches_connect ..))

end Connecting

end Ensemble

end KeyRegistry
