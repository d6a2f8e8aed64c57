import KeyRegistry.Ensemble
import KeyRegistry.Proofs.Tree.WellFormed
import Mathlib.Logic.Relation

/-!
# How an ensemble evolves

`Ensemble.Step` is anything that happens at the service: sessions come and go,
faults are set, and the halves of calls are served in any order. Each step
changes the tree by elementary changes, and every watch of a session that stays
receives exactly their events. `Ensemble.Occurs` is a step with these events, read
off what was asked and answered.
-/

namespace KeyRegistry

open KeyRegistry.Path

@[simp] theorem Watch.receive_nil (w : Watch) : w.receive [] = w := by
  unfold receive
  split <;> simp

theorem Watch.receive_receive (w : Watch) (evs evs' : List Event) :
    (w.receive evs).receive evs' = w.receive (evs ++ evs') := by
  obtain ⟨session, root, queue, phase⟩ := w
  cases phase <;> simp [receive]

@[simp] theorem Watch.session_receive (w : Watch) (evs : List Event) :
    (w.receive evs).session = w.session := by
  unfold receive
  split <;> rfl

def Request.events : (r : Request) → r.Answer → List Event
  | .create .., .ok actual => [⟨.created, actual⟩]
  | .setData p _ _, .ok _ => [⟨.dataChanged, p⟩]
  | .delete p _, .ok _ => [⟨.deleted, p⟩]
  | .commit ops, .ok outcomes => Operation.allEvents ops outcomes
  | _, _ => []

@[simp] theorem Request.events_error (r : Request) (error : ServiceError) :
    r.events (.error error) = [] := by
  cases r <;> rfl

namespace Ensemble

variable {e e' : Ensemble} {who : Caller} {evs : List Event} {id : Nat}

/--
A step at the service. The nodes of an ending session are taken out in any
order, and a call is completed with whatever fault it was given.
-/
inductive Step : Ensemble → Ensemble → Prop
  | connect (e : Ensemble) (servers : String) (identity : Option String) :
      Step e (e.connect servers identity).2
  | failConnects (e : Ensemble) (count : Nat) : Step e (e.failConnects count)
  | inject (e : Ensemble) (error : ServiceError) : Step e (e.inject error)
  | setLatency (e : Ensemble) (ms : Nat) : Step e (e.setLatency ms)
  | accept {e e' : Ensemble} {now id : Nat} {hold : Hold}
      (accepted : e.accept now id = .ok (hold, e')) : Step e e'
  | complete (e : Ensemble) (id : Nat) (fault : Option ServiceError) (r : Request) :
      Step e (e.complete id fault r).2
  | expire {e : Ensemble} {id : Nat} {order : List String} (live : e.phase id = .live)
      (perm : order.Perm (e.tree.ephemeralsOf id)) :
      Step e ((e.setPhase id .expired).endSession id order)
  | close {e : Ensemble} {id : Nat} {order : List String} (live : e.phase id = .live)
      (perm : order.Perm (e.tree.ephemeralsOf id)) :
      Step e ((e.setPhase id .closed).endSession id order)
  | closeExpired {e : Ensemble} {id : Nat} (expired : e.phase id = .expired) :
      Step e (e.setPhase id .closed)

/-- A step at the service, with the events of the changes that it makes in the order in which it
makes them. The ephemeral nodes of an ending session go in any order. -/
inductive Occurs : Ensemble → List Event → Ensemble → Prop
  | connect (e : Ensemble) (servers : String) (identity : Option String) :
      Occurs e [] (e.connect servers identity).2
  | failConnects (e : Ensemble) (count : Nat) : Occurs e [] (e.failConnects count)
  | inject (e : Ensemble) (error : ServiceError) : Occurs e [] (e.inject error)
  | setLatency (e : Ensemble) (ms : Nat) : Occurs e [] (e.setLatency ms)
  | accept {e e' : Ensemble} {now id : Nat} {hold : Hold}
      (accepted : e.accept now id = .ok (hold, e')) : Occurs e [] e'
  | complete (e : Ensemble) (id : Nat) (fault : Option ServiceError) (r : Request) :
      Occurs e (r.events (e.complete id fault r).1) (e.complete id fault r).2
  | expire {e : Ensemble} {id : Nat} {order : List String} (live : e.phase id = .live)
      (perm : order.Perm (e.tree.ephemeralsOf id)) :
      Occurs e (order.map (Event.mk .deleted)) ((e.setPhase id .expired).endSession id order)
  | close {e : Ensemble} {id : Nat} {order : List String} (live : e.phase id = .live)
      (perm : order.Perm (e.tree.ephemeralsOf id)) :
      Occurs e (order.map (Event.mk .deleted)) ((e.setPhase id .closed).endSession id order)
  | closeExpired {e : Ensemble} {id : Nat} (expired : e.phase id = .expired) :
      Occurs e [] (e.setPhase id .closed)

inductive Reads (i : Nat) : Ensemble → Ensemble → Prop
  | take {e e' : Ensemble} {ev : Event} (taken : e.nextEvent? i = some (ev, e')) : Reads i e e'
  | drain (e : Ensemble) : Reads i e (e.drain i).2
  | drop (e : Ensemble) : Reads i e (e.dropWatch i)

inductive Reachable : Ensemble → Prop
  | fresh : Reachable {}
  | step {e e' : Ensemble} (before : Reachable e) (step : Step e e') : Reachable e'
  | read {e e' : Ensemble} {i : Nat} (before : Reachable e) (read : Reads i e e') : Reachable e'

def Leads : Ensemble → Ensemble → Prop :=
  Relation.ReflTransGen fun e e' => Step e e' ∨ ∃ i, Reads i e e'

structure Evolves (who : Caller) (evs : List Event) (e e' : Ensemble) : Prop where
  tree : Tree.Steps who e.tree evs e'.tree
  watch {i : Nat} {w : Watch} : e.watches[i]? = some w → e'.phase w.session = .live →
    e'.watches[i]? = some (w.receive evs)
  caller {id : Nat} : e.phase id = .live → e'.caller id = e.caller id

/-! ## Sessions -/

theorem phase_congr (h : e'.sessions = e.sessions) (id : Nat) : e'.phase id = e.phase id := by
  unfold phase session?
  rw [h]

theorem caller_congr (h : e'.sessions = e.sessions) (id : Nat) : e'.caller id = e.caller id := by
  unfold caller session?
  rw [h]

theorem exists_session_of_phase (h : e.phase id ≠ .closed) :
    id ≠ 0 ∧ ∃ s, e.sessions[id - 1]? = some s ∧ s.phase = e.phase id := by
  unfold phase session? at h ⊢
  split_ifs at h ⊢ with h0
  · simp at h
  · cases hs : e.sessions[id - 1]? with
    | none => simp [hs] at h
    | some s => simp [h0]

theorem session?_setPhase (e : Ensemble) (id k : Nat) (phase : SessionPhase) :
    (e.setPhase id phase).session? k =
      if id - 1 = k - 1 then (e.session? k).map fun s => { s with phase := phase }
      else e.session? k := by
  unfold setPhase session?
  by_cases hk : k = 0
  · simp [hk]
  · simp only [if_neg hk, List.getElem?_modify]
    by_cases h : id - 1 = k - 1
    · simp [h]
    · simp [h]

theorem phase_setPhase_self {phase : SessionPhase} (h : e.phase id ≠ .closed) :
    (e.setPhase id phase).phase id = phase := by
  obtain ⟨h0, s, hs, -⟩ := exists_session_of_phase h
  unfold Ensemble.phase
  rw [session?_setPhase, if_pos rfl]
  simp [session?, h0, hs]

theorem caller_setPhase (e : Ensemble) (id k : Nat) (phase : SessionPhase) :
    (e.setPhase id phase).caller k = e.caller k := by
  unfold caller
  rw [session?_setPhase]
  split_ifs with h
  · cases e.session? k <;> rfl
  · rfl

/-! ## The halves of a call -/

theorem exists_accept (hlive : e.phase id = .live) (now : Nat) :
    ∃ hold e', e.accept now id = .ok (hold, e') :=
  ⟨_, _, if_neg (by simp [hlive])⟩

/-- The first half of a call takes the next fault and nothing else. -/
theorem accept_eq_ok {now : Nat} {hold : Hold} (h : e.accept now id = .ok (hold, e')) :
    hold.fault = e.faults.pending.head? ∧
      e' = { e with faults := { e.faults with pending := e.faults.pending.tail } } := by
  unfold accept at h
  split_ifs at h
  obtain ⟨rfl, rfl⟩ := Prod.ext_iff.1 (Except.ok.inj h)
  exact ⟨rfl, rfl⟩

/-- Whether a session is live and no fault waits for a call. -/
structure Calm (e : Ensemble) (s : Nat) : Prop where
  live : e.phase s = .live
  unfaulted : e.faults.pending = []

theorem accept_of_live (hlive : e.phase id = .live) (hpending : e.faults.pending = [])
    (now : Nat) : e.accept now id = .ok (⟨none, now, now + e.faults.latencyMs⟩, e) := by
  have hsame : { e with faults := { e.faults with pending := [] } } = e := by rw [← hpending]
  simp [accept, hlive, hpending, hsame]

theorem complete_of_live (hlive : e.phase id = .live) (r : Request) :
    e.complete id none r = e.perform id r := by
  simp [complete, hlive]

theorem complete_of_struck (hlive : e.phase id = .live) (error : ServiceError) (r : Request) :
    e.complete id (some error) r = (.error error, e) := by
  simp [complete, hlive]

/-- The second half of a call is refused and changes nothing, or the call is served. -/
theorem complete_cases (e : Ensemble) (id : Nat) (fault : Option ServiceError) (r : Request) :
    (∃ error, e.complete id fault r = (.error error, e)) ∨
      e.phase id = .live ∧ e.complete id fault r = e.perform id r := by
  cases hphase : e.phase id with
  | closed => exact .inl ⟨_, complete_of_closed hphase fault r⟩
  | expired => exact .inl ⟨_, complete_of_expired hphase fault r⟩
  | live =>
    cases fault with
    | some error => exact .inl ⟨error, complete_of_struck hphase error r⟩
    | none => exact .inr ⟨rfl, complete_of_live hphase r⟩

/-! ## Each step is an evolution -/

theorem evolves_of_eq (who : Caller) (htree : e'.tree = e.tree) (hwatches : e'.watches = e.watches)
    (hsessions : e'.sessions = e.sessions) : Evolves who [] e e' where
  tree := htree ▸ .nil _
  watch h _ := by simpa [hwatches] using h
  caller _ := caller_congr hsessions _

@[simp] theorem dispatch_nil (e : Ensemble) : e.dispatch [] = e := by
  have hid : Watch.receive [] = id := funext Watch.receive_nil
  simp [dispatch, hid]

theorem getElem?_watches_dispatch (e : Ensemble) (evs : List Event) (i : Nat) :
    (e.dispatch evs).watches[i]? = (e.watches[i]?).map (Watch.receive evs) := by
  simp [dispatch]

theorem evolves_dispatch {t : Tree} (h : Tree.Steps who e.tree evs t) :
    Evolves who evs e (dispatch { e with tree := t } evs) where
  tree := h
  watch hw _ := by simp [getElem?_watches_dispatch, hw]
  caller _ := rfl

/-- What is settled makes the elementary changes of its events, and nothing is altered without
one. -/
theorem evolves_settle {α : Type} {f : Except ServiceError α → List Event}
    {r : Except ServiceError (Change α)} (herror : ∀ error, f (.error error) = [])
    (h : ∀ c, r = .ok c → c.events = f (.ok c.value) ∧ Tree.Steps who e.tree c.events c.tree) :
    Evolves who (f (e.settle r).1) e (e.settle r).2 ∧
      (f (e.settle r).1 = [] → (e.settle r).2 = e) := by
  cases r with
  | error error =>
    rw [settle, herror]
    exact ⟨evolves_of_eq who rfl rfl rfl, fun _ => rfl⟩
  | ok c =>
    obtain ⟨tree, events, value⟩ := c
    obtain ⟨hevents, hsteps⟩ := h _ rfl
    dsimp only at hevents hsteps
    rw [settle, ← hevents]
    refine ⟨evolves_dispatch hsteps, ?_⟩
    rintro rfl
    cases hsteps
    exact dispatch_nil e

theorem evolves_watch (e : Ensemble) (id : Nat) (root : String) :
    Evolves who [] e
      { e with watches := e.watches ++ [⟨id, root, [], .registered⟩] } where
  tree := .nil _
  watch hw _ := by
    obtain ⟨hlt, rfl⟩ := List.getElem?_eq_some_iff.1 hw
    simp [List.getElem?_append_left hlt]
  caller _ := rfl

theorem ok_of_bind_checkPath {α : Type} {p : String} {r : Except ServiceError α} {a : α}
    (h : (do checkPath p; r) = .ok a) : Valid p ∧ r = .ok a := by
  obtain ⟨_, hp, hr⟩ := bind_eq_ok_iff.1 h
  exact ⟨checkPath_eq_ok_iff.1 hp, hr⟩

theorem forM_checkPath_cons (op : Operation) (ops : List Operation) :
    ((op :: ops).forM fun op => checkPath op.path) = (do
      checkPath op.path
      ops.forM fun op => checkPath op.path) := rfl

theorem forM_checkPath_of_valid {ops : List Operation} (h : ∀ op ∈ ops, Valid op.path) :
    (ops.forM fun op => checkPath op.path) = Except.ok () := by
  induction ops with
  | nil => rfl
  | cons op ops ih =>
    rw [forM_checkPath_cons, checkPath_of_valid (h op (by simp))]
    exact ih fun op hop => h op (by simp [hop])

/-- The first path that is none refuses a transaction as a whole. -/
theorem forM_checkPath_of_fault {ops : List Operation} (h : ∃ op ∈ ops, ¬Valid op.path) :
    ∃ op ∈ ops, ∃ fault, fault? op.path = some fault ∧
      (ops.forM fun op => checkPath op.path) = .error (.invalidPath op.path fault.reason) := by
  induction ops with
  | nil => simp at h
  | cons op ops ih =>
    by_cases hop : Valid op.path
    · obtain ⟨bad, hmem, hbad⟩ := h
      have hrest : bad ∈ ops := by
        rcases List.mem_cons.1 hmem with rfl | hmem
        · exact absurd hop hbad
        · exact hmem
      obtain ⟨first, hfirst, fault, hf, he⟩ := ih ⟨bad, hrest, hbad⟩
      refine ⟨first, List.mem_cons_of_mem _ hfirst, fault, hf, ?_⟩
      rw [forM_checkPath_cons, checkPath_of_valid hop]
      exact he
    · obtain ⟨fault, hf⟩ := exists_fault_of_not_valid hop
      refine ⟨op, by simp, fault, hf, ?_⟩
      rw [forM_checkPath_cons, checkPath_of_fault hf]
      rfl

theorem forM_checkPath_eq_ok_iff {ops : List Operation} :
    (ops.forM fun op => checkPath op.path) = Except.ok () ↔ ∀ op ∈ ops, Valid op.path := by
  refine ⟨fun h => ?_, forM_checkPath_of_valid⟩
  by_contra hn
  obtain ⟨op, hop⟩ := not_forall.1 hn
  obtain ⟨first, -, fault, -, he⟩ := forM_checkPath_of_fault ⟨op, Classical.not_imp.1 hop⟩
  rw [he] at h
  cases h

/-- A call that is served makes the elementary changes of what it gives rise to. One that gives
rise to nothing leaves everything as it was, unless it registers a watch. -/
theorem evolves_perform (e : Ensemble) (id : Nat) (r : Request) :
    Evolves (e.caller id) (r.events (e.perform id r).1) e (e.perform id r).2 ∧
      ((∀ top, r ≠ .watch top) → r.events (e.perform id r).1 = [] → (e.perform id r).2 = e) := by
  cases r with
  | stat p => exact ⟨evolves_of_eq _ rfl rfl rfl, fun _ _ => rfl⟩
  | getData p => exact ⟨evolves_of_eq _ rfl rfl rfl, fun _ _ => rfl⟩
  | getChildren p => exact ⟨evolves_of_eq _ rfl rfl rfl, fun _ _ => rfl⟩
  | create p data mode =>
    refine (evolves_settle (f := Request.events (.create p data mode)) (fun _ => rfl)
      fun c hc => ?_).imp_right fun h _ => h
    obtain ⟨hev, hstep⟩ := Tree.step_of_create hc
    exact ⟨hev, hev ▸ .single hstep⟩
  | setData p data version =>
    refine (evolves_settle (f := Request.events (.setData p data version)) (fun _ => rfl)
      fun c hc => ?_).imp_right fun h _ => h
    obtain ⟨hev, hstep⟩ := Tree.step_of_setData (ok_of_bind_checkPath hc).2
    exact ⟨hev, hev ▸ .single hstep⟩
  | delete p version =>
    refine (evolves_settle (f := Request.events (.delete p version)) (fun _ => rfl)
      fun c hc => ?_).imp_right fun h _ => h
    obtain ⟨hp, hc⟩ := ok_of_bind_checkPath hc
    obtain ⟨hev, hstep⟩ := Tree.step_of_delete hp hc
    exact ⟨hev, hev ▸ .single hstep⟩
  | commit ops =>
    refine (evolves_settle (f := Request.events (.commit ops)) (fun _ => rfl)
      fun c hc => ?_).imp_right fun h _ => h
    obtain ⟨_, hops, hc⟩ := bind_eq_ok_iff.1 hc
    exact Tree.steps_of_applyAll (forM_checkPath_eq_ok_iff.1 hops) hc
  | watch root =>
    refine ⟨?_, fun h => absurd rfl (h root)⟩
    dsimp only [perform]
    split
    · exact evolves_of_eq _ rfl rfl rfl
    · exact evolves_watch e id root

theorem evolves_complete (e : Ensemble) (id : Nat) (fault : Option ServiceError) (r : Request) :
    Evolves (e.caller id) (r.events (e.complete id fault r).1) e (e.complete id fault r).2 := by
  rcases complete_cases e id fault r with ⟨error, heq⟩ | ⟨-, heq⟩
  · rw [heq, Request.events_error]
    exact evolves_of_eq _ rfl rfl rfl
  · rw [heq]
    exact (evolves_perform e id r).1

/-- The end of a session takes out its ephemeral nodes, each once. -/
theorem evolves_endSession (ht : e.tree.WellFormed) {phase : SessionPhase} {order : List String}
    (hid : e.phase id = .live) (hphase : phase ≠ .live)
    (horder : order.Perm (e.tree.ephemeralsOf id)) :
    Evolves (e.caller id) (order.map (Event.mk .deleted)) e
      ((e.setPhase id phase).endSession id order) := by
  have howned : ∀ p ∈ order, ∃ n, e.tree.node? p = some n ∧
      n.stat.owner = some (e.caller id).session := fun p hp =>
    ht.mem_ephemeralsOf_iff.1 (horder.mem_iff.1 hp)
  have hsteps : Tree.Steps (e.caller id) e.tree (e.tree.unlinkAll order).2
      (e.tree.unlinkAll order).1 := by
    refine ht.steps_unlinkAll fun p hp n hn => ?_
    obtain ⟨m, hm, howner⟩ := howned p hp
    obtain rfl : m = n := by simpa [hm] using hn
    exact howner
  rw [← ht.events_unlinkAll (horder.nodup_iff.2 (ht.nodup_ephemeralsOf id)) howned]
  refine ⟨hsteps, ?_, fun _ => caller_setPhase e id _ phase⟩
  intro i w hw hlive
  have hne : w.session ≠ id := by
    intro he
    have hself : (e.setPhase id phase).phase id = phase := phase_setPhase_self (by simp [hid])
    exact hphase (hself.symm.trans (he ▸ hlive))
  simp [endSession, endWatches, dispatch, setPhase, hw, hne]

theorem session?_connect {x : Session} (h : e.session? id = some x) (servers : String)
    (identity : Option String) : (e.connect servers identity).2.session? id = some x := by
  unfold session? at h
  split_ifs at h with h0
  obtain ⟨hlt, rfl⟩ := List.getElem?_eq_some_iff.1 h
  unfold connect
  dsimp only
  split_ifs
  · simp [failConnects, session?, h0, hlt]
  · simp [session?, h0, List.getElem?_append_left hlt]

theorem evolves_connect (e : Ensemble) (servers : String) (identity : Option String) :
    Evolves who [] e (e.connect servers identity).2 where
  tree := by
    unfold connect
    dsimp only
    split_ifs <;> exact .nil _
  watch hw _ := by
    unfold connect
    dsimp only
    split_ifs <;> simpa [failConnects] using hw
  caller {id} h := by
    obtain ⟨h0, x, hx, -⟩ := exists_session_of_phase (show e.phase id ≠ .closed by simp [h])
    have hsession : e.session? id = some x := by simp [session?, h0, hx]
    unfold caller
    rw [session?_connect hsession, hsession]

/-- Every step at the service occurs with some events. -/
theorem Step.occurs (h : Step e e') : ∃ evs, Occurs e evs e' := by
  cases h with
  | connect servers identity => exact ⟨_, .connect ..⟩
  | failConnects count => exact ⟨_, .failConnects ..⟩
  | inject error => exact ⟨_, .inject ..⟩
  | setLatency ms => exact ⟨_, .setLatency ..⟩
  | accept accepted => exact ⟨_, .accept accepted⟩
  | complete id fault r => exact ⟨_, .complete ..⟩
  | expire live perm => exact ⟨_, .expire live perm⟩
  | close live perm => exact ⟨_, .close live perm⟩
  | closeExpired expired => exact ⟨_, .closeExpired expired⟩

theorem Occurs.step (h : Occurs e evs e') : Step e e' := by
  cases h with
  | connect servers identity => exact .connect ..
  | failConnects count => exact .failConnects ..
  | inject error => exact .inject ..
  | setLatency ms => exact .setLatency ..
  | accept accepted => exact .accept accepted
  | complete id fault r => exact .complete ..
  | expire live perm => exact .expire live perm
  | close live perm => exact .close live perm
  | closeExpired expired => exact .closeExpired expired

theorem Occurs.evolves (ht : e.tree.WellFormed) (h : Occurs e evs e') :
    ∃ who, Evolves who evs e e' := by
  cases h with
  | connect servers identity => exact ⟨⟨0, none⟩, evolves_connect e servers identity⟩
  | failConnects count => exact ⟨⟨0, none⟩, evolves_of_eq _ rfl rfl rfl⟩
  | inject error => exact ⟨⟨0, none⟩, evolves_of_eq _ rfl rfl rfl⟩
  | setLatency ms => exact ⟨⟨0, none⟩, evolves_of_eq _ rfl rfl rfl⟩
  | accept accepted =>
    obtain ⟨-, rfl⟩ := accept_eq_ok accepted
    exact ⟨⟨0, none⟩, evolves_of_eq _ rfl rfl rfl⟩
  | complete id fault r => exact ⟨_, evolves_complete e id fault r⟩
  | expire live perm => exact ⟨_, evolves_endSession ht live (by decide) perm⟩
  | close live perm => exact ⟨_, evolves_endSession ht live (by decide) perm⟩
  | closeExpired expired =>
    refine ⟨⟨0, none⟩, .nil _, ?_, fun _ => caller_setPhase ..⟩
    intro i w hw _
    simpa [setPhase] using hw

theorem Step.evolves (ht : e.tree.WellFormed) (h : Step e e') :
    ∃ who evs, Evolves who evs e e' := by
  obtain ⟨evs, hevs⟩ := h.occurs
  obtain ⟨who, hwho⟩ := hevs.evolves ht
  exact ⟨who, evs, hwho⟩

theorem ephemerals_perm (e : Ensemble) (id : Nat) :
    (e.ephemerals id).Perm (e.tree.ephemeralsOf id) :=
  List.mergeSort_perm _ _

theorem step_close (h : e.phase id ≠ .closed) : Step e (e.close id).2 := by
  unfold close
  split
  · rename_i hclosed
    exact absurd hclosed h
  · rename_i hexpired
    exact .closeExpired hexpired
  · rename_i hlive
    exact .close hlive (ephemerals_perm e id)

theorem settle_frame {α : Type} (e : Ensemble) (r : Except ServiceError (Change α)) :
    (e.settle r).2.sessions = e.sessions ∧ (e.settle r).2.faults = e.faults := by
  cases r <;> exact ⟨rfl, rfl⟩

theorem perform_frame (e : Ensemble) (id : Nat) (r : Request) :
    (e.perform id r).2.sessions = e.sessions ∧ (e.perform id r).2.faults = e.faults := by
  cases r with
  | stat p => exact ⟨rfl, rfl⟩
  | getData p => exact ⟨rfl, rfl⟩
  | getChildren p => exact ⟨rfl, rfl⟩
  | create p data mode => exact settle_frame e _
  | setData p data version => exact settle_frame e _
  | delete p version => exact settle_frame e _
  | commit ops => exact settle_frame e _
  | watch root =>
    dsimp only [perform]
    split <;> exact ⟨rfl, rfl⟩

theorem complete_frame (e : Ensemble) (id : Nat) (fault : Option ServiceError) (r : Request) :
    (e.complete id fault r).2.sessions = e.sessions ∧
      (e.complete id fault r).2.faults = e.faults := by
  rcases complete_cases e id fault r with ⟨_, heq⟩ | ⟨-, heq⟩
  · rw [heq]
    exact ⟨rfl, rfl⟩
  · rw [heq]
    exact perform_frame e id r

theorem perform_watch_of_valid {root : String} (h : Valid root) :
    e.perform id (.watch root) = (.ok e.watches.length,
      { e with watches := e.watches ++ [⟨id, root, [], .registered⟩] }) := by
  simp [perform, checkPath_of_valid h]

theorem Reachable.perform (h : Reachable e) (hlive : e.phase id = .live) (r : Request) :
    Reachable (e.perform id r).2 := by
  have hstep := Step.complete e id none r
  rw [complete_of_live hlive] at hstep
  exact .step h hstep

/-! ## Calls that succeed and calls that fail -/

theorem ok_of_settle {α : Type} {r : Except ServiceError (Change α)} {a : α}
    (h : (e.settle r).1 = .ok a) : ∃ c, r = .ok c ∧ c.value = a ∧ (e.settle r).2.tree = c.tree := by
  cases r with
  | error error => cases h
  | ok c => exact ⟨c, rfl, Except.ok.inj h, rfl⟩

theorem error_of_settle {α : Type} {r : Except ServiceError (Change α)} {error : ServiceError}
    (h : (e.settle r).1 = .error error) : r = .error error := by
  cases r with
  | error error => exact congrArg Except.error (Except.error.inj h)
  | ok c => cases h

theorem settle_of_error {α : Type} {r : Except ServiceError (Change α)} {error : ServiceError}
    (h : (e.settle r).1 = .error error) : (e.settle r).2 = e := by
  cases r with
  | error error => rfl
  | ok c => simp [settle] at h

theorem perform_of_error {r : Request} {error : ServiceError}
    (h : (e.perform id r).1 = .error error) : (e.perform id r).2 = e := by
  cases r with
  | stat p => rfl
  | getData p => rfl
  | getChildren p => rfl
  | create p data mode => exact settle_of_error h
  | setData p data version => exact settle_of_error h
  | delete p version => exact settle_of_error h
  | commit ops => exact settle_of_error h
  | watch root =>
    dsimp only [perform] at h ⊢
    split at h
    · rfl
    · simp at h

/-- A call that fails changes nothing, whatever it fails for. -/
theorem complete_of_error {fault : Option ServiceError} {r : Request} {error : ServiceError}
    (h : (e.complete id fault r).1 = .error error) : (e.complete id fault r).2 = e := by
  rcases complete_cases e id fault r with ⟨_, heq⟩ | ⟨-, heq⟩
  · rw [heq]
  · rw [heq] at h ⊢
    exact perform_of_error h

/-! ## Reading a watch -/

theorem nextEvent?_of_queue {i s : Nat} {root : String} {ev : Event} {queue : List Event}
    {phase : WatchPhase} (h : e.watches[i]? = some ⟨s, root, ev :: queue, phase⟩) :
    e.nextEvent? i =
      some (ev, { e with watches := e.watches.set i ⟨s, root, queue, phase⟩ }) := by
  simp [nextEvent?, h]

theorem Reads.frame {i : Nat} (h : Reads i e e') :
    e'.tree = e.tree ∧ e'.sessions = e.sessions ∧ e'.faults = e.faults ∧
      ∀ j ≠ i, e'.watches[j]? = e.watches[j]? := by
  cases h with
  | take taken =>
    unfold nextEvent? at taken
    split at taken
    · obtain ⟨-, rfl⟩ := Prod.ext_iff.1 (Option.some.inj taken)
      exact ⟨rfl, rfl, rfl, fun j hj => by simp [List.getElem?_set_ne hj.symm]⟩
    · simp at taken
  | drain =>
    unfold Ensemble.drain
    split
    · exact ⟨rfl, rfl, rfl, fun j hj => by simp [List.getElem?_set_ne hj.symm]⟩
    · exact ⟨rfl, rfl, rfl, fun _ _ => rfl⟩
  | drop => exact ⟨rfl, rfl, rfl, fun j hj => by simp [dropWatch, hj.symm]⟩

/-! ## Every reachable state -/

theorem Reachable.wellFormed (h : Reachable e) : e.tree.WellFormed := by
  induction h with
  | fresh => exact Tree.wellFormed_empty
  | step _ step ih =>
    obtain ⟨who, evs, hev⟩ := step.evolves ih
    exact hev.tree.wellFormed ih
  | read _ read ih => rwa [read.frame.1]

end Ensemble

end KeyRegistry
