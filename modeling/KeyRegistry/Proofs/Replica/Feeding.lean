import KeyRegistry.Proofs.Replica.Filling

/-!
# Feeding a replica

`Course` is every way in which a watch can be registered for a replica, its
worker started, and the moves of the worker interleaved with whatever the service
does, as long as the session lives and no fault is injected. What the copies
miss is always in the queue of the watch.
-/

namespace KeyRegistry

open KeyRegistry.Path

namespace Replica

variable {e e' : Ensemble} {m m' : Replica} {s i : Nat} {root : String} {walk : List Tree}

def spawned (m : Replica) (ensemble session watch : Nat) : Replica :=
  { m with
    phase := .started
    worker := some ⟨ensemble, session, watch, .filling 0 [(m.root, .untouched)], false, false⟩ }

def isFilling (m : Replica) : Bool :=
  match m.worker.map Worker.activity with
  | some (.filling _ _) => true
  | _ => false

/-- One move of an ensemble and of a replica that is fed over watch `i` of session `s`. The
readings of a level may go on in any order. -/
inductive Feeds (s i : Nat) : Ensemble → Replica → Ensemble → Replica → Prop
  | service {e e' : Ensemble} {m : Replica} (step : Ensemble.Step e e') : Feeds s i e m e' m
  | others {e e' : Ensemble} {m : Replica} {j : Nat} (read : Ensemble.Reads j e e')
      (other : j ≠ i) : Feeds s i e m e' m
  | spawn {e : Ensemble} {m : Replica} (ensemble : Nat) (latent : m.worker = none) :
      Feeds s i e m e (m.spawned ensemble s i)
  | worker {e : Ensemble} {m : Replica} {now : Nat} {v : Move} (step : m.step now e = some v) :
      Feeds s i e m v.ensemble v.replica
  | reading {e e' : Ensemble} {m : Replica} {w : Worker} {now stored : Nat}
      {before after : List (String × Reading)} {a : String} {r r' : Reading}
      {notices : List Notice} (working : m.worker = some w)
      (filling : w.activity = .filling stored (before ++ (a, r) :: after))
      (step : stepReading now e w.session a r = some (r', e', notices)) :
      Feeds s i e m e' (m.withActivity w (.filling stored (before ++ (a, r') :: after)))

/-- What a worker that has not been asked to stop is doing when it moves. -/
theorem step_cases {w : Worker} {now : Nat} {v : Move} (hworker : m.worker = some w)
    (hstop : w.stopRequested = false) (hcancel : w.cancelled = false)
    (hstep : m.step now e = some v) :
    (∃ stored level, w.activity = .filling stored level ∧
      m.stepFilling now w e stored level = some v) ∨
    (w.activity = .listening ∧ m.stepListening now w e = some v) ∨
    ∃ p hold, w.activity = .refreshing p hold ∧ m.stepRefreshing now w e p hold = some v := by
  simp only [Replica.step, hworker, hstop, hcancel, bind, Option.bind, Bool.or_self,
    Bool.false_eq_true, if_false] at hstep
  cases hactivity : w.activity with
  | filling stored level => exact .inl ⟨stored, level, rfl, by rwa [hactivity] at hstep⟩
  | listening => exact .inr (.inl ⟨rfl, by rwa [hactivity] at hstep⟩)
  | refreshing p hold => exact .inr (.inr ⟨p, hold, rfl, by rwa [hactivity] at hstep⟩)
  | stopped => simp [hactivity] at hstep

/-- A course of events from the registration of watch `i` by session `s` of the given identity
on. `walk` holds the trees that the service has had while the replica was being filled. -/
inductive Course (s i : Nat) (identity : Option String) (root : String) :
    List Tree → Ensemble → Replica → Prop
  | registered {e : Ensemble} (reachable : e.Reachable) (calm : e.Calm s)
      (caller : (e.caller s).identity = identity) (valid : Valid root)
      (place : i = e.watches.length) :
      Course s i identity root [] (e.perform s (.watch root)).2 { root := root }
  | move {walk : List Tree} {e e' : Ensemble} {m m' : Replica}
      (before : Course s i identity root walk e m) (move : Feeds s i e m e' m')
      (calm : e'.Calm s) :
      Course s i identity root (if m'.isFilling then e'.tree :: walk else walk) e' m'

def Behind (root : String) (identity : Option String) (allowed : String → Prop)
    (es : List Entry) (t : Tree) (queue : List Event) : Activity → Prop
  | .filling _ level => Fills root identity allowed es level t queue
  | .listening => (pathsOf es).Nodup ∧ BackedBy root identity es t queue
  | .refreshing p hold => hold.fault = none ∧ (pathsOf es).Nodup ∧
      BackedBy root identity es t (⟨.dataChanged, p⟩ :: queue)
  | .stopped => False

/-- The state of a replica that is fed: one whose worker is yet to start is about to fill. -/
structure Fed (s i : Nat) (root : String) (identity : Option String) (allowed : String → Prop)
    (e : Ensemble) (m : Replica) : Prop where
  reachable : e.Reachable
  calm : e.Calm s
  caller : (e.caller s).identity = identity
  valid : Valid root
  rooted : m.root = root
  watch : ∃ queue, e.watches[i]? = some ⟨s, root, queue, .registered⟩ ∧
    match m.worker with
    | none => m.entries = [] ∧ Fills root identity allowed [] [(root, .untouched)] e.tree queue
    | some w => w.session = s ∧ w.watch = i ∧ w.stopRequested = false ∧ w.cancelled = false ∧
      Behind root identity allowed m.entries e.tree queue w.activity

section Moves

variable {identity : Option String} {allowed : String → Prop} {es : List Entry} {t t' : Tree}
  {queue : List Event} {evs : List Event} {who : Caller} {activity : Activity} {w : Worker}
  {now stored : Nat} {v : Move}

theorem Behind.steps (hroot : Valid root) (h : Behind root identity allowed es t queue activity)
    (hs : Tree.Steps who t evs t') :
    Behind root identity allowed es t' (queue ++ within root evs) activity := by
  cases activity with
  | filling stored level => exact Fills.steps hroot h hs
  | listening => exact ⟨h.1, h.2.steps hroot hs⟩
  | refreshing p hold => exact ⟨h.1, h.2.1, h.2.2.steps hroot hs⟩
  | stopped => exact h.elim

/-- The tree has moved on, the events are in the queue. -/
theorem Fed.evolves (h : Fed s i root identity allowed e m) (hreach : e'.Reachable)
    (hcalm : e'.Calm s) (hev : Ensemble.Evolves who evs e e') :
    Fed s i root identity allowed e' m where
  reachable := hreach
  calm := hcalm
  caller := by rw [hev.caller h.calm.live, h.caller]
  valid := h.valid
  rooted := h.rooted
  watch := by
    obtain ⟨queue, hw, hm⟩ := h.watch
    refine ⟨queue ++ within root evs, hev.watch hw hcalm.live, ?_⟩
    cases hworker : m.worker with
    | none =>
      rw [hworker] at hm
      exact ⟨hm.1, hm.2.steps h.valid hev.tree⟩
    | some w =>
      rw [hworker] at hm
      obtain ⟨hs, hi, hstop, hcancel, hbehind⟩ := hm
      exact ⟨hs, hi, hstop, hcancel, hbehind.steps h.valid hev.tree⟩

/-- A move that leaves the service alone, but for the queue of the watch. -/
theorem Fed.moved (h : Fed s i root identity allowed e m) (hreach : e'.Reachable)
    (htree : e'.tree = e.tree) (hsessions : e'.sessions = e.sessions)
    (hfaults : e'.faults = e.faults) (hroot : m'.root = root) {queue : List Event}
    (hwatch : e'.watches[i]? = some ⟨s, root, queue, .registered⟩) (hworker : m'.worker = some w)
    (hs : w.session = s) (hi : w.watch = i) (hstop : w.stopRequested = false)
    (hcancel : w.cancelled = false)
    (hbehind : Behind root identity allowed m'.entries e.tree queue w.activity) :
    Fed s i root identity allowed e' m' where
  reachable := hreach
  calm := ⟨(Ensemble.phase_congr hsessions s).trans h.calm.live, by rw [hfaults, h.calm.unfaulted]⟩
  caller := by rw [Ensemble.caller_congr hsessions, h.caller]
  valid := h.valid
  rooted := hroot
  watch := by
    refine ⟨queue, hwatch, ?_⟩
    rw [hworker, htree]
    exact ⟨hs, hi, hstop, hcancel, hbehind⟩

def Permitted (root : String) (identity : Option String) (allowed : String → Prop) (t : Tree) :
    Prop :=
  ∀ p n, isWithin root p = true → t.node? p = some n → (n.acl.permits identity = true ↔ allowed p)

theorem Fed.reading (h : Fed s i root identity allowed e m)
    (hallowed : Permitted root identity allowed e.tree) (hworker : m.worker = some w)
    {before after : List (String × Reading)} {a : String} {r r' : Reading}
    {notices : List Notice} (hfilling : w.activity = .filling stored (before ++ (a, r) :: after))
    (hstep : stepReading now e w.session a r = some (r', e', notices)) :
    Fed s i root identity allowed e'
      (m.withActivity w (.filling stored (before ++ (a, r') :: after))) := by
  obtain ⟨queue, hwatch, hm⟩ := h.watch
  rw [hworker] at hm
  obtain ⟨hs, hi, hstop, hcancel, hbehind⟩ := hm
  rw [hfilling] at hbehind
  have hfills : Fills root (e.caller s).identity allowed m.entries (before ++ (a, r) :: after)
      e.tree queue := h.caller.symm ▸ hbehind
  obtain ⟨ha, hin, hsound⟩ := hfills.sound (a := a) (r := r) (by simp)
  have hperm : ∀ n, e.tree.node? a = some n →
      (n.acl.permits (e.caller s).identity = true ↔ allowed a) := by
    intro n hn
    rw [h.caller]
    exact hallowed a n hin hn
  rw [hs] at hstep
  obtain ⟨rfl, hreads⟩ := readsOn_of_stepReading h.reachable.wellFormed h.calm.live
    h.calm.unfaulted ha hperm hsound hstep
  refine h.moved h.reachable rfl rfl rfl h.rooted hwatch rfl hs hi hstop hcancel ?_
  exact h.caller ▸ hfills.readsOn hreads

theorem Fed.filling (h : Fed s i root identity allowed e m)
    (hallowed : Permitted root identity allowed e.tree) (hworker : m.worker = some w)
    {level : List (String × Reading)} (hfilling : w.activity = .filling stored level)
    (hstep : m.stepFilling now w e stored level = some v) :
    Fed s i root identity allowed v.ensemble v.replica := by
  obtain ⟨queue, hwatch, hm⟩ := h.watch
  rw [hworker] at hm
  obtain ⟨hs, hi, hstop, hcancel, hbehind⟩ := hm
  rw [hfilling] at hbehind
  have hfills : Fills root identity allowed m.entries level e.tree queue := hbehind
  unfold stepFilling at hstep
  rw [failureOf_of_sound fun a r hmem => (hfills.sound hmem).2.2] at hstep
  cases hfound : finishedLevel level with
  | none =>
    rw [hfound] at hstep
    obtain ⟨⟨level', e', notices⟩, hlevel, rfl⟩ := Option.map_eq_some_iff.1 hstep
    obtain ⟨before, a, r, r', after, rfl, hreading, rfl⟩ := stepLevel_cases hlevel
    exact h.reading hallowed hworker hfilling hreading
  | some found =>
    rw [hfound] at hstep
    obtain rfl := Option.some.inj hstep
    have hlevel := eq_of_finishedLevel hfound
    subst hlevel
    have hstored := hfills.storeLevel h.valid
    unfold closeLevel
    cases hnext : nextLevel found with
    | nil =>
      rw [hnext] at hstored
      exact h.moved h.reachable rfl rfl rfl ((root_storeLevel m found).trans h.rooted) hwatch rfl
        hs hi hstop hcancel ⟨hstored.nodup, hstored.backedBy⟩
    | cons first next =>
      rw [hnext] at hstored
      exact h.moved h.reachable rfl rfl rfl ((root_storeLevel m found).trans h.rooted) hwatch rfl
        hs hi hstop hcancel hstored

theorem Fed.listening (h : Fed s i root identity allowed e m) (hworker : m.worker = some w)
    (hlistening : w.activity = .listening) (hstep : m.stepListening now w e = some v) :
    Fed s i root identity allowed v.ensemble v.replica := by
  obtain ⟨queue, hwatch, hm⟩ := h.watch
  rw [hworker] at hm
  obtain ⟨hs, hi, hstop, hcancel, hbehind⟩ := hm
  rw [hlistening] at hbehind
  obtain ⟨hnodup, hbacked⟩ := hbehind
  obtain ⟨hlt, -⟩ := List.getElem?_eq_some_iff.1 hwatch
  unfold stepListening at hstep
  cases queue with
  | nil =>
    simp [Ensemble.nextEvent?, hi, hwatch] at hstep
  | cons ev queue =>
    let e' : Ensemble := { e with watches := e.watches.set i ⟨s, root, queue, .registered⟩ }
    have hnext : e.nextEvent? i = some (ev, e') := Ensemble.nextEvent?_of_queue hwatch
    have hwatch' : e'.watches[i]? = some ⟨s, root, queue, .registered⟩ := by
      simp [e', hlt]
    have hreach : e'.Reachable := .read h.reachable (.take hnext)
    have haccept := Ensemble.accept_of_live (e := e') h.calm.live h.calm.unfaulted now
    rw [hi, hnext, hs] at hstep
    dsimp only at hstep
    rw [haccept] at hstep
    cases hk : ev.kind with
    | deleted =>
      rw [hk] at hstep
      obtain rfl := Option.some.inj hstep
      have hev : ev = ⟨.deleted, ev.path⟩ := by rw [← hk]
      rw [hev] at hbacked
      refine h.moved hreach rfl rfl rfl h.rooted hwatch' hworker hs hi hstop hcancel ?_
      rw [hlistening]
      exact ⟨nodup_evict hnodup, hbacked.deleted⟩
    | created | dataChanged =>
      rw [hk] at hstep
      obtain rfl := Option.some.inj hstep
      exact h.moved hreach rfl rfl rfl h.rooted hwatch' rfl hs hi hstop hcancel
        ⟨rfl, hnodup, hbacked.taken (by simp [hk])⟩

theorem Fed.refreshing (h : Fed s i root identity allowed e m) (hworker : m.worker = some w)
    {p : String} {hold : Hold} (hrefreshing : w.activity = .refreshing p hold)
    (hstep : m.stepRefreshing now w e p hold = some v) :
    Fed s i root identity allowed v.ensemble v.replica := by
  obtain ⟨queue, hwatch, hm⟩ := h.watch
  rw [hworker] at hm
  obtain ⟨hs, hi, hstop, hcancel, hbehind⟩ := hm
  rw [hrefreshing] at hbehind
  obtain ⟨hfault, hnodup, hbacked⟩ := hbehind
  obtain ⟨hp, -⟩ := hbacked.named ⟨.dataChanged, p⟩ List.mem_cons_self
  have hp : Valid p := hp
  simp only [stepRefreshing, hs, hfault, Ensemble.complete_of_live h.calm.live,
    Ensemble.perform] at hstep
  split_ifs at hstep with hdue
  cases hn : e.tree.node? p with
  | none =>
    rw [Ensemble.readable_of_absent hp hn] at hstep
    obtain rfl := Option.some.inj hstep
    exact h.moved h.reachable rfl rfl rfl h.rooted hwatch rfl hs hi hstop hcancel
      ⟨nodup_evict hnodup, hbacked.vanished hn⟩
  | some n =>
    cases hperm : n.acl.permits (e.caller s).identity with
    | false =>
      rw [Ensemble.readable_of_not_permitted hp hn hperm] at hstep
      obtain rfl := Option.some.inj hstep
      exact h.moved h.reachable rfl rfl rfl h.rooted hwatch rfl hs hi hstop hcancel
        ⟨hnodup, hbacked.refused hn (h.caller ▸ hperm)⟩
    | true =>
      rw [Ensemble.readable_of_permitted hp hn hperm] at hstep
      obtain rfl := Option.some.inj hstep
      exact h.moved h.reachable rfl rfl rfl h.rooted hwatch rfl hs hi hstop hcancel
        ⟨nodup_storeIn hnodup, hbacked.refreshed hnodup hn (h.caller ▸ hperm)⟩

/-- Every move keeps a replica fed. While it is filled the access rules have to stay. -/
theorem Fed.feeds (h : Fed s i root identity allowed e m)
    (hallowed : m.isFilling = true → Permitted root identity allowed e.tree)
    (hmove : Feeds s i e m e' m') (hcalm : e'.Calm s) :
    Fed s i root identity allowed e' m' := by
  cases hmove with
  | service step =>
    obtain ⟨who, evs, hev⟩ := step.evolves h.reachable.wellFormed
    exact h.evolves (.step h.reachable step) hcalm hev
  | others read other =>
    obtain ⟨htree, hsessions, hfaults, hwatches⟩ := read.frame
    obtain ⟨queue, hwatch, hm⟩ := h.watch
    refine ⟨.read h.reachable read, hcalm, (Ensemble.caller_congr hsessions s) ▸ h.caller, h.valid,
      h.rooted, queue, (hwatches i (Ne.symm other)).trans hwatch, ?_⟩
    rwa [htree]
  | spawn ensemble latent =>
    obtain ⟨queue, hwatch, hm⟩ := h.watch
    rw [latent] at hm
    refine h.moved h.reachable rfl rfl rfl h.rooted hwatch rfl rfl rfl rfl rfl ?_
    show Fills root identity allowed m.entries [(m.root, .untouched)] e.tree queue
    rw [hm.1, h.rooted]
    exact hm.2
  | worker step =>
    obtain ⟨queue, hwatch, hm⟩ := h.watch
    cases hworker : m.worker with
    | none => simp [Replica.step, hworker] at step
    | some w =>
      rw [hworker] at hm
      obtain ⟨-, -, hstop, hcancel, -⟩ := hm
      rcases step_cases hworker hstop hcancel step with
        ⟨stored, level, hfilling, step⟩ | ⟨hlistening, step⟩ | ⟨p, hold, hrefreshing, step⟩
      · exact h.filling (hallowed (by simp [isFilling, hworker, hfilling])) hworker hfilling step
      · exact h.listening hworker hlistening step
      · exact h.refreshing hworker hrefreshing step
  | reading working filling step =>
    exact h.reading (hallowed (by simp [isFilling, working, filling])) working filling step

end Moves

/-! ## Whole courses -/

section Courses

variable {identity : Option String} {allowed : String → Prop}

theorem Course.mem_walk (h : Course s i identity root walk e m) (hfilling : m.isFilling = true) :
    e.tree ∈ walk := by
  cases h with
  | registered => simp [isFilling] at hfilling
  | move before move calm => simp [hfilling]

/-- The replica is fed in every course over which the access rules of the walk agree with what is
allowed. -/
theorem Course.fed (h : Course s i identity root walk e m)
    (hallowed : ∀ t ∈ walk, Permitted root identity allowed t) :
    Fed s i root identity allowed e m := by
  induction h with
  | @registered e reachable calm caller valid place =>
    have hreach := reachable.perform calm.live (.watch root)
    rw [Ensemble.perform_watch_of_valid valid] at hreach ⊢
    exact ⟨hreach, ⟨calm.live, calm.unfaulted⟩, caller, valid, rfl, [], by simp [place], rfl,
      fills_root reachable.wellFormed valid⟩
  | @move walk e e' m m' before move calm ih =>
    have hwalk : ∀ t ∈ walk, Permitted root identity allowed t := by
      intro t ht
      refine hallowed t ?_
      split_ifs
      · exact List.mem_cons_of_mem _ ht
      · exact ht
    exact (ih hwalk).feeds (fun hfilling => hwalk _ (before.mem_walk hfilling)) move calm

end Courses

end Replica

end KeyRegistry
