import KeyRegistry.Proofs.Replica.Feeding
import KeyRegistry.Proofs.Replica.Struck

/-!
# Feeding a replica under faults

`Trial` is every course in which calls are struck by faults, as long as the
session lives and no fault ends it. A fault may cut the filling short, and it may
make a refresh fail, which leaves what is held as it is. What a copy misses is in
the queue of the watch then, or the last refresh of its path has failed.
-/

namespace KeyRegistry

open KeyRegistry.Path

/-- Whether a refresh that is struck leaves what is held of its path as it is. A node that is
said not to exist is forgotten. -/
def Hold.misses (h : Hold) : Bool :=
  match h.fault with
  | none | some (.noNode _) => false
  | some _ => true

namespace Replica

variable {e e' : Ensemble} {m m' : Replica} {s i now : Nat} {root a p : String} {r r' : Reading}
  {notices : List Notice} {level : List (String × Reading)} {identity : Option String}
  {missed : List String}

abbrev owed (missed : List String) : List Event := missed.map (Event.mk .dataChanged)

/-! ## Trials -/

/-- The paths whose last refresh has failed, after a move. A refresh is over when the worker
listens again. -/
def missedAfter (missed : List String) (m m' : Replica) : List String :=
  match m.worker.map Worker.activity, m'.worker.map Worker.activity with
  | some (.refreshing p hold), some .listening =>
    if hold.misses then p :: missed else missed.filter (· ≠ p)
  | _, _ => missed

/-- A course of events from the registration of watch `i` by session `s` of the given identity
on, in which faults strike calls but end no session. -/
inductive Trial (s i : Nat) (identity : Option String) (root : String) :
    List String → Ensemble → Replica → Prop
  | registered {e : Ensemble} (reachable : e.Reachable) (bearable : e.Bearable s)
      (caller : (e.caller s).identity = identity) (valid : Valid root)
      (place : i = e.watches.length) :
      Trial s i identity root [] (e.perform s (.watch root)).2 { root := root }
  | move {missed : List String} {e e' : Ensemble} {m m' : Replica}
      (before : Trial s i identity root missed e m) (move : Feeds s i e m e' m')
      (bearable : e'.Bearable s) :
      Trial s i identity root (missedAfter missed m m') e' m'

def Lagging (root : String) (identity : Option String) (missed : List String) (es : List Entry)
    (t : Tree) (queue : List Event) : Activity → Prop
  | .filling _ level => Gathers root identity es level t (queue ++ owed missed)
  | .listening => (pathsOf es).Nodup ∧ Lags root identity (· ∈ es) t (queue ++ owed missed)
  | .refreshing p hold => hold.Bearable ∧ (pathsOf es).Nodup ∧
      Lags root identity (· ∈ es) t (⟨.dataChanged, p⟩ :: (queue ++ owed missed))
  | .stopped => False

structure Follows (s i : Nat) (root : String) (identity : Option String) (missed : List String)
    (e : Ensemble) (m : Replica) : Prop where
  reachable : e.Reachable
  bearable : e.Bearable s
  caller : (e.caller s).identity = identity
  valid : Valid root
  rooted : m.root = root
  watch : ∃ queue, e.watches[i]? = some ⟨s, root, queue, .registered⟩ ∧
    match m.worker with
    | none => m.entries = [] ∧
      Gathers root identity [] [(root, .untouched)] e.tree (queue ++ owed missed)
    | some w => w.session = s ∧ w.watch = i ∧ w.stopRequested = false ∧ w.cancelled = false ∧
      Lagging root identity missed m.entries e.tree queue w.activity

section Moves

variable {missed' : List String} {es : List Entry} {t t' : Tree} {queue : List Event}
  {evs : List Event} {who : Caller} {activity : Activity} {w : Worker} {stored : Nat} {v : Move}
  {copies : Entry → Prop} {hold : Hold}

theorem steps_owed (h : Lags root identity copies t (queue ++ owed missed)) (ht : t.WellFormed)
    (hs : Tree.Steps who t evs t') :
    Lags root identity copies t' (queue ++ within root evs ++ owed missed) :=
  (h.steps ht hs).reorder fun ev => by
    simp only [List.mem_append]
    tauto

theorem Lagging.steps (h : Lagging root identity missed es t queue activity) (ht : t.WellFormed)
    (hs : Tree.Steps who t evs t') :
    Lagging root identity missed es t' (queue ++ within root evs) activity := by
  cases activity with
  | filling stored level =>
    have h : Gathers root identity es level t (queue ++ owed missed) := h
    exact ⟨steps_owed h.lags ht hs, h.nodup, h.bearable⟩
  | listening => exact ⟨h.1, steps_owed h.2 ht hs⟩
  | refreshing p hold =>
    obtain ⟨hhold, hnodup, hlags⟩ := h
    rw [← List.cons_append] at hlags
    exact ⟨hhold, hnodup, steps_owed hlags ht hs⟩
  | stopped => exact h.elim

theorem Follows.evolves (h : Follows s i root identity missed e m) (hreach : e'.Reachable)
    (hbear : e'.Bearable s) (hev : Ensemble.Evolves who evs e e') :
    Follows s i root identity missed e' m where
  reachable := hreach
  bearable := hbear
  caller := by rw [hev.caller h.bearable.live, h.caller]
  valid := h.valid
  rooted := h.rooted
  watch := by
    have ht := h.reachable.wellFormed
    obtain ⟨queue, hw, hm⟩ := h.watch
    refine ⟨queue ++ within root evs, hev.watch hw hbear.live, ?_⟩
    cases hworker : m.worker with
    | none =>
      rw [hworker] at hm
      obtain ⟨hempty, hgathers⟩ := hm
      exact ⟨hempty, steps_owed hgathers.lags ht hev.tree, hgathers.nodup, hgathers.bearable⟩
    | some w =>
      rw [hworker] at hm
      obtain ⟨hs, hi, hstop, hcancel, hlagging⟩ := hm
      exact ⟨hs, hi, hstop, hcancel, hlagging.steps ht hev.tree⟩

/-- A move that leaves the tree and the sessions alone. -/
theorem Follows.moved (h : Follows s i root identity missed e m) (hreach : e'.Reachable)
    (hbear : e'.Bearable s) (htree : e'.tree = e.tree) (hsessions : e'.sessions = e.sessions)
    (hroot : m'.root = root) (hwatch : e'.watches[i]? = some ⟨s, root, queue, .registered⟩)
    (hworker : m'.worker = some w) (hs : w.session = s) (hi : w.watch = i)
    (hstop : w.stopRequested = false) (hcancel : w.cancelled = false)
    (hlagging : Lagging root identity missed' m'.entries e.tree queue w.activity) :
    Follows s i root identity missed' e' m' where
  reachable := hreach
  bearable := hbear
  caller := by rw [Ensemble.caller_congr hsessions, h.caller]
  valid := h.valid
  rooted := hroot
  watch := by
    refine ⟨queue, hwatch, ?_⟩
    rw [hworker, htree]
    exact ⟨hs, hi, hstop, hcancel, hlagging⟩

theorem Follows.reading (h : Follows s i root identity missed e m) (hworker : m.worker = some w)
    {before after : List (String × Reading)}
    (hfilling : w.activity = .filling stored (before ++ (a, r) :: after))
    (hstep : stepReading now e w.session a r = some (r', e', notices)) (hbear : e'.Bearable s) :
    Follows s i root identity missed e'
      (m.withActivity w (.filling stored (before ++ (a, r') :: after))) := by
  have ht := h.reachable.wellFormed
  obtain ⟨queue, hwatch, hm⟩ := h.watch
  rw [hworker] at hm
  obtain ⟨hs, hi, hstop, hcancel, hlagging⟩ := hm
  rw [hfilling] at hlagging
  have hgathers : Gathers root (e.caller s).identity m.entries (before ++ (a, r) :: after)
      e.tree (queue ++ owed missed) := h.caller.symm ▸ hlagging
  obtain ⟨ha, -, hr⟩ := hgathers.bearable (a := a) (r := r) (by simp)
  rw [hs] at hstep
  have hendures := endures_of_stepReading ht h.bearable hr hstep
  have hsame := hendures.same
  refine h.moved (hendures.reachable h.reachable) hbear (by rw [hsame]) (by rw [hsame]) h.rooted
    (by rwa [hsame]) rfl hs hi hstop hcancel ?_
  exact h.caller ▸ hgathers.endures ht hendures

theorem Follows.filling (h : Follows s i root identity missed e m) (hworker : m.worker = some w)
    (hfilling : w.activity = .filling stored level)
    (hstep : m.stepFilling now w e stored level = some v) (hbear : v.ensemble.Bearable s) :
    Follows s i root identity missed v.ensemble v.replica := by
  obtain ⟨queue, hwatch, hm⟩ := h.watch
  rw [hworker] at hm
  obtain ⟨hs, hi, hstop, hcancel, hlagging⟩ := hm
  rw [hfilling] at hlagging
  have hgathers : Gathers root identity m.entries level e.tree (queue ++ owed missed) := hlagging
  unfold stepFilling at hstep
  cases hfound : finishedLevel level with
  | some found =>
    rw [hfound] at hstep
    obtain rfl := Option.some.inj hstep
    have hlevel := eq_of_finishedLevel hfound
    subst hlevel
    have hstored := hgathers.storeLevel h.valid
    unfold closeLevel
    cases hnext : nextLevel found with
    | nil =>
      rw [hnext] at hstored
      exact h.moved h.reachable h.bearable rfl rfl ((root_storeLevel m found).trans h.rooted)
        hwatch rfl hs hi hstop hcancel ⟨hstored.nodup, hstored.held⟩
    | cons first next =>
      rw [hnext] at hstored
      exact h.moved h.reachable h.bearable rfl rfl ((root_storeLevel m found).trans h.rooted)
        hwatch rfl hs hi hstop hcancel hstored
  | none =>
    rw [hfound] at hstep
    cases hfailure : failureOf level with
    | some error =>
      rw [hfailure] at hstep
      obtain rfl := Option.some.inj hstep
      obtain ⟨a, hmem⟩ := mem_of_failureOf hfailure
      obtain ⟨-, -, hspared⟩ := hgathers.bearable hmem
      have hspared : error.endsSession = false := hspared
      simp only [failFilling, hspared, Bool.false_eq_true, if_false]
      exact h.moved h.reachable h.bearable rfl rfl h.rooted hwatch rfl hs hi hstop hcancel
        ⟨hgathers.nodup, hgathers.held⟩
    | none =>
      rw [hfailure] at hstep
      obtain ⟨⟨level', e', notices⟩, hlevel, rfl⟩ := Option.map_eq_some_iff.1 hstep
      obtain ⟨before, a, r, r', after, rfl, hreading, rfl⟩ := stepLevel_cases hlevel
      exact h.reading hworker hfilling hreading hbear

theorem Follows.listening (h : Follows s i root identity missed e m) (hworker : m.worker = some w)
    (hlistening : w.activity = .listening) (hstep : m.stepListening now w e = some v)
    (hbear : v.ensemble.Bearable s) : Follows s i root identity missed v.ensemble v.replica := by
  obtain ⟨queue, hwatch, hm⟩ := h.watch
  rw [hworker] at hm
  obtain ⟨hs, hi, hstop, hcancel, hlagging⟩ := hm
  rw [hlistening] at hlagging
  obtain ⟨hnodup, hlags⟩ := hlagging
  obtain ⟨hlt, -⟩ := List.getElem?_eq_some_iff.1 hwatch
  unfold stepListening at hstep
  cases queue with
  | nil => simp [Ensemble.nextEvent?, hi, hwatch] at hstep
  | cons ev queue =>
    let taken : Ensemble := { e with watches := e.watches.set i ⟨s, root, queue, .registered⟩ }
    have hnext : e.nextEvent? i = some (ev, taken) := Ensemble.nextEvent?_of_queue hwatch
    have hwatch' : taken.watches[i]? = some ⟨s, root, queue, .registered⟩ := by
      simp [taken, hlt]
    have hreach : taken.Reachable := .read h.reachable (.take hnext)
    have htaken : taken.Bearable s := ⟨h.bearable.live, h.bearable.spared⟩
    obtain ⟨hold, e', haccept⟩ := Ensemble.exists_accept htaken.live now
    rw [hi, hnext, hs] at hstep
    dsimp only at hstep
    rw [haccept] at hstep
    cases hk : ev.kind with
    | deleted =>
      rw [hk] at hstep
      obtain rfl := Option.some.inj hstep
      refine h.moved hreach hbear rfl rfl h.rooted hwatch' hworker hs hi hstop hcancel ?_
      rw [hlistening]
      exact ⟨nodup_evict hnodup, hlags.evict (hlags.named ev List.mem_cons_self).1
        (List.subset_cons_self ..) fun _ => mem_of_path_ne⟩
    | created | dataChanged =>
      rw [hk] at hstep
      obtain rfl := Option.some.inj hstep
      obtain ⟨-, hspent⟩ := Ensemble.accept_eq_ok haccept
      exact h.moved (.step hreach (.accept haccept)) hbear (by rw [hspent]) (by rw [hspent])
        h.rooted (by rwa [hspent]) rfl hs hi hstop hcancel
        ⟨htaken.hold haccept, hnodup, hlags.taken (by simp [hk])⟩

/-! ## The end of a refresh -/

theorem subset_owed (queue : List Event) (missed : List String) (p : String) :
    queue ++ owed (missed.filter (· ≠ p)) ⊆ ⟨.dataChanged, p⟩ :: (queue ++ owed missed) := by
  intro ev hev
  simp only [List.mem_append, List.mem_map, List.mem_filter] at hev
  rcases hev with hev | ⟨q, ⟨hq, -⟩, rfl⟩
  · simp [hev]
  · simp [hq]

theorem mem_owed_of_ne {ev : Event} (h : ev ∈ ⟨.dataChanged, p⟩ :: (queue ++ owed missed))
    (hp : ev.path = p → ev.kind = .deleted) : ev ∈ queue ++ owed (missed.filter (· ≠ p)) := by
  simp only [List.mem_cons, List.mem_append, List.mem_map] at h
  rcases h with rfl | h | ⟨q, hq, rfl⟩
  · simp at hp
  · exact List.mem_append_left _ h
  · have hne : q ≠ p := fun hqp => by simpa using hp hqp
    exact List.mem_append_right _ (List.mem_map.2 ⟨q, by simp [hq, hne], rfl⟩)

/-- A refresh that has failed is still owed. -/
theorem lags_owed (h : Lags root identity copies t (⟨.dataChanged, p⟩ :: (queue ++ owed missed))) :
    Lags root identity copies t (queue ++ owed (p :: missed)) :=
  h.reorder fun ev => by
    simp only [List.map_cons, List.mem_append, List.mem_cons]
    tauto

/-- A struck refresh either forgets its path, which it is told does not exist, or leaves what is
held as it is. -/
theorem stepRefreshing_of_struck (hlive : e.phase s = .live) (hs : w.session = s)
    {error : ServiceError} (hfault : hold.fault = some error) (hspared : error.endsSession = false)
    (hstep : m.stepRefreshing now w e p hold = some v) :
    v.ensemble = e ∧ (v.replica = (m.evict p).withActivity w .listening ∧ hold.misses = false ∨
      v.replica = m.withActivity w .listening ∧ hold.misses = true) := by
  simp only [stepRefreshing, hs, hfault, Ensemble.complete_of_struck hlive] at hstep
  split_ifs at hstep
  cases error with
  | noNode q =>
    obtain rfl := Option.some.inj hstep
    exact ⟨rfl, .inl ⟨rfl, by simp [Hold.misses, hfault]⟩⟩
  | noAuth q =>
    obtain rfl := Option.some.inj hstep
    exact ⟨rfl, .inr ⟨rfl, by simp [Hold.misses, hfault]⟩⟩
  | _ =>
    obtain rfl := Option.some.inj hstep
    simp only [failRefresh, hspared, Bool.false_eq_true, if_false]
    exact ⟨trivial, .inr ⟨trivial, by simp [Hold.misses, hfault]⟩⟩

/-- How a refresh ends: its path is forgotten, or what is held stays though it was not looked at,
or the node has been looked at, and is stored if it may be read. -/
theorem stepRefreshing_cases (hlive : e.phase s = .live) (hs : w.session = s) (hp : Valid p)
    (hhold : hold.Bearable) (hstep : m.stepRefreshing now w e p hold = some v) :
    v.ensemble = e ∧ (v.replica = (m.evict p).withActivity w .listening ∧ hold.misses = false ∨
      v.replica = m.withActivity w .listening ∧ hold.misses = true ∨
      ∃ n, e.tree.node? p = some n ∧ hold.misses = false ∧
        (n.acl.permits (e.caller s).identity = false ∧
            v.replica = m.withActivity w .listening ∨
          n.acl.permits (e.caller s).identity = true ∧
            v.replica = (m.store ⟨p, n.data, n.stat⟩).withActivity w .listening)) := by
  cases hfault : hold.fault with
  | some error =>
    obtain ⟨he, hends⟩ := stepRefreshing_of_struck hlive hs hfault (hhold error hfault) hstep
    exact ⟨he, hends.imp_right .inl⟩
  | none =>
    have hmisses : hold.misses = false := by simp [Hold.misses, hfault]
    simp only [stepRefreshing, hs, hfault, Ensemble.complete_of_live hlive,
      Ensemble.perform] at hstep
    split_ifs at hstep
    cases hn : e.tree.node? p with
    | none =>
      rw [Ensemble.readable_of_absent hp hn] at hstep
      obtain rfl := Option.some.inj hstep
      exact ⟨rfl, .inl ⟨rfl, hmisses⟩⟩
    | some n =>
      cases hperm : n.acl.permits (e.caller s).identity with
      | false =>
        rw [Ensemble.readable_of_not_permitted hp hn hperm] at hstep
        obtain rfl := Option.some.inj hstep
        exact ⟨rfl, .inr (.inr ⟨n, rfl, hmisses, .inl ⟨hperm, rfl⟩⟩)⟩
      | true =>
        rw [Ensemble.readable_of_permitted hp hn hperm] at hstep
        obtain rfl := Option.some.inj hstep
        exact ⟨rfl, .inr (.inr ⟨n, rfl, hmisses, .inr ⟨hperm, rfl⟩⟩)⟩

theorem missedAfter_of_refreshed (hworker : m.worker = some w)
    (hrefreshing : w.activity = .refreshing p hold)
    (hlistening : m'.worker.map Worker.activity = some .listening) :
    missedAfter missed m m' = if hold.misses then p :: missed else missed.filter (· ≠ p) := by
  simp [missedAfter, hworker, hrefreshing, hlistening]

theorem Follows.refreshing (h : Follows s i root identity missed e m) (hworker : m.worker = some w)
    (hrefreshing : w.activity = .refreshing p hold)
    (hstep : m.stepRefreshing now w e p hold = some v) :
    Follows s i root identity (missedAfter missed m v.replica) v.ensemble v.replica := by
  obtain ⟨queue, hwatch, hm⟩ := h.watch
  rw [hworker] at hm
  obtain ⟨hs, hi, hstop, hcancel, hlagging⟩ := hm
  rw [hrefreshing] at hlagging
  obtain ⟨hhold, hnodup, hlags⟩ := hlagging
  obtain ⟨hp, hin⟩ : Valid p ∧ isWithin root p = true := hlags.named _ List.mem_cons_self
  have hdone {m' : Replica} {missed' : List String} (hroot : m'.root = root)
      (hend : (pathsOf m'.entries).Nodup ∧
        Lags root identity (· ∈ m'.entries) e.tree (queue ++ owed missed')) :
      Follows s i root identity missed' e (m'.withActivity w .listening) :=
    h.moved h.reachable h.bearable rfl rfl hroot hwatch rfl hs hi hstop hcancel hend
  have hleft := subset_owed queue missed p
  have hrest : ∀ ev ∈ (⟨.dataChanged, p⟩ : Event) :: (queue ++ owed missed), ev.path ≠ p →
      ev ∈ queue ++ owed (missed.filter (· ≠ p)) :=
    fun ev hev hne => mem_owed_of_ne hev fun heq => absurd heq hne
  obtain ⟨m', e', notices⟩ := v
  obtain ⟨rfl, ⟨rfl, hmisses⟩ | ⟨rfl, hmisses⟩ | ⟨n, hn, hmisses, ⟨hperm, rfl⟩ | ⟨hperm, rfl⟩⟩⟩ :=
    stepRefreshing_cases h.bearable.live hs hp hhold hstep
  all_goals rw [missedAfter_of_refreshed hworker hrefreshing rfl, hmisses]
  · exact hdone h.rooted ⟨nodup_evict hnodup, hlags.evict hp hleft hrest⟩
  · exact hdone h.rooted ⟨hnodup, lags_owed hlags⟩
  · exact hdone h.rooted
      ⟨hnodup, hlags.refused hn (h.caller ▸ hperm) hleft fun _ => mem_owed_of_ne⟩
  · exact hdone h.rooted ⟨nodup_storeIn hnodup,
      hlags.store h.reachable.wellFormed hnodup hin hn (h.caller ▸ hperm) hleft hrest⟩

/-! ## Whole trials -/

theorem missedAfter_of_not_refreshing
    (h : ∀ p hold, m.worker.map Worker.activity ≠ some (.refreshing p hold)) :
    missedAfter missed m m' = missed := by
  unfold missedAfter
  split
  · rename_i p hold hrefreshing _
    exact absurd hrefreshing (h p hold)
  · rfl

theorem missedAfter_self : missedAfter missed m m = missed := by
  unfold missedAfter
  split
  · rename_i hrefreshing hlistening
    rw [hrefreshing] at hlistening
    simp at hlistening
  · rfl

theorem Follows.feeds (h : Follows s i root identity missed e m) (hmove : Feeds s i e m e' m')
    (hbear : e'.Bearable s) :
    Follows s i root identity (missedAfter missed m m') e' m' := by
  cases hmove with
  | service step =>
    rw [missedAfter_self]
    obtain ⟨who, evs, hev⟩ := step.evolves h.reachable.wellFormed
    exact h.evolves (.step h.reachable step) hbear hev
  | others read other =>
    rw [missedAfter_self]
    obtain ⟨htree, hsessions, -, hwatches⟩ := read.frame
    obtain ⟨queue, hwatch, hm⟩ := h.watch
    refine ⟨.read h.reachable read, hbear, (Ensemble.caller_congr hsessions s) ▸ h.caller, h.valid,
      h.rooted, queue, (hwatches i (Ne.symm other)).trans hwatch, ?_⟩
    rwa [htree]
  | spawn ensemble latent =>
    rw [missedAfter_of_not_refreshing (by simp [latent])]
    obtain ⟨queue, hwatch, hm⟩ := h.watch
    rw [latent] at hm
    refine h.moved h.reachable hbear rfl rfl h.rooted hwatch rfl rfl rfl rfl rfl ?_
    show Gathers root identity m.entries [(m.root, .untouched)] e.tree (queue ++ owed missed)
    rw [hm.1, h.rooted]
    exact hm.2
  | worker step =>
    obtain ⟨queue, hwatch, hm⟩ := h.watch
    cases hworker : m.worker with
    | none => simp [Replica.step, hworker] at step
    | some w =>
      rw [hworker] at hm
      obtain ⟨-, -, hstop, hcancel, -⟩ := hm
      rcases step_cases hworker hstop hcancel step with
        ⟨stored, level, hfilling, step⟩ | ⟨hlistening, step⟩ | ⟨p, hold, hrefreshing, step⟩
      · rw [missedAfter_of_not_refreshing (by simp [hworker, hfilling])]
        exact h.filling hworker hfilling step hbear
      · rw [missedAfter_of_not_refreshing (by simp [hworker, hlistening])]
        exact h.listening hworker hlistening step hbear
      · exact h.refreshing hworker hrefreshing step
  | reading working filling step =>
    rw [missedAfter_of_not_refreshing (by simp [working, filling])]
    exact h.reading working filling step hbear

theorem Trial.follows (h : Trial s i identity root missed e m) :
    Follows s i root identity missed e m := by
  induction h with
  | @registered e reachable bearable caller valid place =>
    have hreach := reachable.perform bearable.live (.watch root)
    rw [Ensemble.perform_watch_of_valid valid] at hreach ⊢
    exact ⟨hreach, ⟨bearable.live, bearable.spared⟩, caller, valid, rfl, [], by simp [place], rfl,
      gathers_root valid⟩
  | move before move bearable ih => exact ih.feeds move bearable

end Moves

end Replica

end KeyRegistry
