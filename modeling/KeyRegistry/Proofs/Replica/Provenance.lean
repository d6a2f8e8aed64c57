import KeyRegistry.Proofs.Replica.Feeding
import KeyRegistry.Proofs.Replica.Working

/-!
# Where copies come from

Faults, the end of the session and the closing of the replica may hit its worker at any
move. Every copy that it holds at any time is still what the session could read at one
moment since the watch was registered, and a copy of a path is never followed by an
older one, not even after the path was forgotten and its node made anew.
-/

namespace KeyRegistry

open KeyRegistry.Path

/-! ## Age -/

/-- A copy is not ahead of a tree: no change to come has its number, and no node at its path is
older. -/
structure Entry.NotAhead (t : Tree) (c : Entry) : Prop where
  known : c.stat.mzxid ≤ t.zxid
  node {n : Node} : t.node? c.path = some n → c.stat.mzxid ≤ n.stat.mzxid

theorem Entry.notAhead_of_node {t : Tree} {c : Entry} {n : Node} (ht : t.WellFormed)
    (hn : t.node? c.path = some n) (hstat : c.stat = n.stat) : c.NotAhead t where
  known := hstat ▸ ht.mzxid_le hn
  node hm := by
    obtain rfl := Option.some.inj (hn.symm.trans hm)
    exact (congrArg Stat.mzxid hstat).le

/-- A node that is written or made anew is newer than every copy there was. -/
theorem Entry.NotAhead.step {t t' : Tree} {who : Caller} {ev : Event} {c : Entry}
    (ht : t.WellFormed) (hs : Tree.Step who t ev t') (h : c.NotAhead t) : c.NotAhead t' where
  known := by
    rw [hs.zxid]
    exact Nat.le_succ_of_le h.known
  node hm := by
    rcases hs.node_cases ht hm with ⟨-, n, hn, hcore⟩ | ⟨-, n, data, -, rfl⟩ |
      ⟨-, -, -, _, _, _, _, -, -, -, -, -, rfl⟩
    · rw [Tree.mzxid_eq_of_core hcore]
      exact h.node hn
    · exact Nat.le_succ_of_le h.known
    · exact Nat.le_succ_of_le h.known

theorem Entry.NotAhead.steps {t t' : Tree} {who : Caller} {evs : List Event} {c : Entry}
    (ht : t.WellFormed) (hs : Tree.Steps who t evs t') (h : c.NotAhead t) : c.NotAhead t' := by
  induction hs with
  | nil => exact h
  | cons first _ ih => exact ih (first.wellFormed ht) (h.step ht first)

/-! ## Runs -/

namespace Replica

/-- One move in the life of a replica: its worker moves or anything happens at the service, the
replica is closed and its worker asked to stop, or it is emptied. -/
inductive Moves (s i : Nat) : Ensemble → Replica → Ensemble → Replica → Prop
  | feeds {e e' : Ensemble} {m m' : Replica} (move : Feeds s i e m e' m') : Moves s i e m e' m'
  | asked (e : Ensemble) (m : Replica) : Moves s i e m e m.askedToStop
  | emptied (e : Ensemble) (m : Replica) (ended : Bool) : Moves s i e m e (m.emptied ended)

/-- The moments of a run, the last one first, from the registration of watch `i` by session `s`
on. -/
inductive Run (s i : Nat) (root : String) : List (Ensemble × Replica) → Prop
  | registered {e : Ensemble} {fault : Option ServiceError} (reachable : e.Reachable)
      (answer : (e.complete s fault (.watch root)).1 = .ok i) :
      Run s i root [((e.complete s fault (.watch root)).2, { root := root })]
  | move {e e' : Ensemble} {m m' : Replica} {past : List (Ensemble × Replica)}
      (before : Run s i root ((e, m) :: past)) (move : Moves s i e m e' m') :
      Run s i root ((e', m') :: (e, m) :: past)

def ReadAt (s : Nat) (moments : List (Ensemble × Replica)) (c : Entry) : Prop :=
  ∃ moment ∈ moments, moment.1.phase s = .live ∧
    ∃ n, moment.1.readable s c.path = .ok n ∧ c.data = n.data ∧ c.stat = n.stat

def level (m : Replica) : List (String × Reading) :=
  match m.worker.map Worker.activity with
  | some (.filling _ level) => level
  | _ => []

end Replica

def Activity.Under (root : String) : Activity → Prop
  | .filling _ level => ∀ a r, (a, r) ∈ level → Valid a ∧ isWithin root a = true ∧ r.Named
  | .refreshing p _ => Valid p ∧ isWithin root p = true
  | .listening | .stopped => True

def Ensemble.Informs (e : Ensemble) (s i : Nat) (root : String) : Prop :=
  ∃ w, e.watches[i]? = some w ∧ w.session = s ∧ w.root = root ∧
    ∀ ev ∈ w.queue, Valid ev.path ∧ isWithin root ev.path = true

theorem Ensemble.Informs.becomes {e e' : Ensemble} {s i : Nat} {root : String}
    (h : e.Informs s i root)
    (hbecomes : ∀ w, e.watches[i]? = some w → ∃ w', e'.watches[i]? = some w' ∧ w.Becomes w') :
    e'.Informs s i root := by
  obtain ⟨w, hw, rfl, rfl, hqueue⟩ := h
  obtain ⟨w', hw', hb⟩ := hbecomes w hw
  exact ⟨w', hw', hb.session, hb.root, fun ev hev => (hb.queue ev hev).elim (hqueue ev) id⟩

namespace Replica

variable {e e' : Ensemble} {m m' : Replica} {s i : Nat} {root : String}
  {past : List (Ensemble × Replica)}

/-- What is known of a replica at a moment of its run: where its copies and those that are about to
be stored come from, and that none of them is older than a copy of its path that was held before. -/
structure Sourced (s i : Nat) (root : String) (past : List (Ensemble × Replica)) (e : Ensemble)
    (m : Replica) : Prop where
  reachable : e.Reachable
  informs : e.Informs s i root
  valid : Valid root
  rooted : m.root = root
  worker {w : Worker} : m.worker = some w → w.session = s ∧ w.watch = i ∧ w.activity.Under root
  nodup : (pathsOf m.entries).Nodup
  origin {c : Entry} : Copied m.entries m.level c → isWithin root c.path = true ∧ ReadAt s past c
  aged {c : Entry} : Copied m.entries m.level c → c.NotAhead e.tree
  seen {moment : Ensemble × Replica} {d : Entry} : moment ∈ past → d ∈ moment.2.entries →
    d.NotAhead e.tree
  newest {moment : Ensemble × Replica} {c d : Entry} : Copied m.entries m.level c →
    moment ∈ (e, m) :: past → d ∈ moment.2.entries → c.path = d.path →
    d.stat.mzxid ≤ c.stat.mzxid

/-- What a move does to a replica: what it stores or reads anew is what the session may read now.
It does not read while it stores. -/
structure Goes (s i : Nat) (root : String) (e : Ensemble) (m : Replica) (e' : Ensemble)
    (m' : Replica) : Prop where
  reachable : e'.Reachable
  informs : e'.Informs s i root
  aged {c : Entry} : c.NotAhead e.tree → c.NotAhead e'.tree
  rooted : m'.root = root
  worker {w : Worker} : m'.worker = some w → w.session = s ∧ w.watch = i ∧ w.activity.Under root
  nodup : (pathsOf m'.entries).Nodup
  copied {c : Entry} : Copied m'.entries m'.level c → Copied m.entries m.level c ∨
    isWithin root c.path = true ∧ e.phase s = .live ∧
      ∃ n, e.readable s c.path = .ok n ∧ c.data = n.data ∧ c.stat = n.stat
  stored : (∀ c ∈ m'.entries, c ∈ m.entries) ∨ ∀ a r, (a, r) ∈ m'.level → r.copy? = none

theorem notAhead_of_readable (hreach : e.Reachable) {c : Entry} {n : Node}
    (hn : e.readable s c.path = .ok n) (hstat : c.stat = n.stat) : c.NotAhead e.tree :=
  Entry.notAhead_of_node hreach.wellFormed (Ensemble.readable_eq_ok_iff.1 hn).2.1 hstat

theorem Sourced.next (h : Sourced s i root past e m) (hgoes : Goes s i root e m e' m') :
    Sourced s i root ((e, m) :: past) e' m' := by
  have hbefore {moment : Ensemble × Replica} {d : Entry} (hmoment : moment ∈ (e, m) :: past)
      (hd : d ∈ moment.2.entries) : d.NotAhead e.tree := by
    rcases List.mem_cons.1 hmoment with rfl | hmoment
    · exact h.aged (.inl hd)
    · exact h.seen hmoment hd
  have haged {c : Entry} (hc : Copied m'.entries m'.level c) : c.NotAhead e.tree := by
    rcases hgoes.copied hc with hc | ⟨-, -, n, hn, -, hstat⟩
    · exact h.aged hc
    · exact notAhead_of_readable h.reachable hn hstat
  have hnewest {moment : Ensemble × Replica} {c d : Entry} (hc : Copied m'.entries m'.level c)
      (hmoment : moment ∈ (e, m) :: past) (hd : d ∈ moment.2.entries) (hpath : c.path = d.path) :
      d.stat.mzxid ≤ c.stat.mzxid := by
    rcases hgoes.copied hc with hc | ⟨-, -, n, hn, -, hstat⟩
    · exact h.newest hc hmoment hd hpath
    · have hnode := (Ensemble.readable_eq_ok_iff.1 hn).2.1
      rw [hstat]
      exact (hbefore hmoment hd).node (hpath ▸ hnode)
  refine ⟨hgoes.reachable, hgoes.informs, h.valid, hgoes.rooted, hgoes.worker, hgoes.nodup,
    fun {c} hc => ?_, fun hc => hgoes.aged (haged hc), fun hmoment hd =>
      hgoes.aged (hbefore hmoment hd), fun {moment c d} hc hmoment hd hpath => ?_⟩
  · rcases hgoes.copied hc with hc | ⟨hin, hlive, n, hread⟩
    · obtain ⟨hin, moment, hmem, hread⟩ := h.origin hc
      exact ⟨hin, moment, List.mem_cons_of_mem _ hmem, hread⟩
    · exact ⟨hin, _, List.mem_cons_self, hlive, n, hread⟩
  · rcases List.mem_cons.1 hmoment with rfl | hmoment
    · -- A copy of the same moment was held before, or nothing is being read.
      rcases hgoes.stored with hkept | hnone
      · exact hnewest hc List.mem_cons_self (hkept d hd) hpath
      · rcases hc with hc | ⟨r, hr, hcopy⟩
        · rw [List.inj_on_of_nodup_map hgoes.nodup hc hd hpath]
        · simp [hnone _ r hr] at hcopy
    · exact hnewest hc hmoment hd hpath

end Replica

/-! ## Moves -/

namespace Replica

variable {e e' : Ensemble} {m m' : Replica} {s i now stored : Nat} {root a : String}
  {past : List (Ensemble × Replica)} {w u : Worker} {v : Move} {r r' : Reading}
  {notices : List Notice}

theorem level_eq_nil (hw : m.worker = some w)
    (h : ∀ stored level, w.activity ≠ .filling stored level) : m.level = [] := by
  unfold level
  rw [hw, Option.map_some]
  cases hactivity : w.activity with
  | filling stored level => exact absurd hactivity (h stored level)
  | _ => rfl

/-- A move after which nothing is being read, and that has stored nothing but what may be read
now. -/
theorem Sourced.goes (h : Sourced s i root past e m) (he : Ensemble.Heeds i e e')
    (hroot : m'.root = m.root)
    (hworker : m'.worker = some u) (hsession : u.session = s) (hwatch : u.watch = i)
    (hunder : u.activity.Under root) (hlevel : m'.level = [])
    (hnodup : (pathsOf m'.entries).Nodup)
    (hentries : ∀ c ∈ m'.entries, Copied m.entries m.level c ∨
      isWithin root c.path = true ∧ e.phase s = .live ∧
        ∃ n, e.readable s c.path = .ok n ∧ c.data = n.data ∧ c.stat = n.stat) :
    Goes s i root e m e' m' where
  reachable := he.reachable h.reachable
  informs := h.informs.becomes fun _ => he.becomes
  aged := by
    rw [he.tree]
    exact id
  rooted := hroot.trans h.rooted
  worker hw := by
    obtain rfl := Option.some.inj (hworker.symm.trans hw)
    exact ⟨hsession, hwatch, hunder⟩
  nodup := hnodup
  copied {c} hc := by
    rcases hc with hc | ⟨r, hr, -⟩
    · exact hentries c hc
    · simp [hlevel] at hr
  stored := .inr (by simp [hlevel])

/-- A move that changes no more than what the worker is doing. -/
theorem Sourced.goes_on (h : Sourced s i root past e m) (he : Ensemble.Heeds i e e')
    (hw : m.worker = some w)
    {activity : Activity} (hunder : activity.Under root)
    (hnone : ∀ stored level, activity ≠ .filling stored level) :
    Goes s i root e m e' (m.withActivity w activity) := by
  obtain ⟨hs, hi, -⟩ := h.worker hw
  exact h.goes (u := { w with activity := activity }) he rfl rfl hs hi hunder
    (level_eq_nil rfl hnone) h.nodup fun c hc => .inl (.inl hc)

theorem Sourced.goes_stop (h : Sourced s i root past e m) (he : Ensemble.Heeds i e e')
    (hw : m.worker = some w) (notices : List Notice) :
    Goes s i root e m (m.stop w e' notices).ensemble (m.stop w e' notices).replica := by
  obtain ⟨-, rfl, -⟩ := h.worker hw
  exact h.goes_on (he.trans (Ensemble.heeds_of_reads (.drop e'))) hw trivial nofun

theorem Sourced.goes_failRefresh (h : Sourced s i root past e m) (he : Ensemble.Heeds i e e')
    (hw : m.worker = some w) (p : String) (error : ServiceError) :
    Goes s i root e m (m.failRefresh w e' p error).ensemble
      (m.failRefresh w e' p error).replica := by
  unfold failRefresh
  split_ifs
  · exact h.goes_stop he hw _
  · exact h.goes_on he hw trivial nofun

/-! ### Filling -/

theorem level_of_filling {level : List (String × Reading)} (hw : m.worker = some w)
    (hfilling : w.activity = .filling stored level) : m.level = level := by
  simp [Replica.level, hw, hfilling]

theorem Sourced.goes_reading (h : Sourced s i root past e m) (hw : m.worker = some w)
    {before after : List (String × Reading)}
    (hfilling : w.activity = .filling stored (before ++ (a, r) :: after))
    (hstep : stepReading now e w.session a r = some (r', e', notices)) :
    Goes s i root e m e' (m.withActivity w (.filling stored (before ++ (a, r') :: after))) := by
  obtain ⟨rfl, hi, hunder⟩ := h.worker hw
  have hlearns := learns_of_stepReading hstep
  have hlevel := level_of_filling hw hfilling
  rw [hfilling] at hunder
  obtain ⟨ha, hin, -⟩ := hunder a r (by simp)
  exact {
    reachable := hlearns.reachable h.reachable
    informs := h.informs.becomes fun _ => (hlearns.heeds i).becomes
    aged := by
      rw [(hlearns.heeds i).tree]
      exact id
    rooted := h.rooted
    worker := by
      rintro _ ⟨⟩
      refine ⟨rfl, hi, fun b q hmem => ?_⟩
      rcases mem_level_moved (r := r) hmem with hmem | ⟨rfl, rfl⟩
      · exact hunder b q hmem
      · exact ⟨ha, hin, hlearns.named h.reachable.wellFormed⟩
    nodup := h.nodup
    copied := fun {c} hc => by
      rw [hlevel]
      rcases copied_moved (r := r) hc with hc | ⟨hpath, hcopy⟩
      · exact .inl hc
      · rcases hlearns.copy hcopy with hold | ⟨hlive, n, hn, hread⟩
        · exact .inl (.inr ⟨r, by simp [hpath], hold⟩)
        · exact .inr ⟨hpath ▸ hin, hlive, n, hpath ▸ hn, hread⟩
    stored := .inl fun _ => id }

/-- A finished level is stored, and nothing of the next one has been read. -/
theorem Sourced.goes_closeLevel (h : Sourced s i root past e m) (hw : m.worker = some w)
    {found : List (String × Option (List UInt8 × Stat × List String))}
    (hfilling : w.activity = .filling stored (found.map fun f => (f.1, .finished f.2))) :
    Goes s i root e m (m.closeLevel w e stored found).ensemble
      (m.closeLevel w e stored found).replica := by
  obtain ⟨hs, hi, hunder⟩ := h.worker hw
  rw [hfilling] at hunder
  have hlevel := level_of_filling hw hfilling
  have hnodup : (pathsOf (m.storeLevel found).entries).Nodup := nodup_storeLevel h.nodup
  have hentries (c : Entry) (hc : c ∈ (m.storeLevel found).entries) :
      Copied m.entries m.level c := by
    rw [hlevel]
    exact copied_storeLevel h.nodup (.inl hc)
  have hnext {b : String} {q : Reading} (hmem : (b, q) ∈ nextLevel found) :=
    within_nextLevel h.valid (fun q data stat names hx =>
      hunder q _ (List.mem_map.2 ⟨_, hx, rfl⟩)) hmem
  unfold closeLevel
  cases hlevel' : nextLevel found with
  | nil =>
    exact h.goes (u := { w with activity := .listening }) (.refl i e) (root_storeLevel m found) rfl
      hs hi trivial (level_eq_nil rfl nofun) hnodup fun c hc => .inl (hentries c hc)
  | cons first rest =>
    rw [hlevel'] at hnext
    exact {
      reachable := h.reachable
      informs := h.informs
      aged := id
      rooted := (root_storeLevel m found).trans h.rooted
      worker := by
        rintro _ ⟨⟩
        refine ⟨hs, hi, fun b q hmem => ?_⟩
        obtain ⟨hb, hin, rfl⟩ := hnext hmem
        exact ⟨hb, hin, trivial⟩
      nodup := hnodup
      copied := fun {c} hc => by
        rcases hc with hc | ⟨q, hmem, hcopy⟩
        · exact .inl (hentries c hc)
        · obtain ⟨-, -, rfl⟩ := hnext hmem
          simp [Reading.copy?] at hcopy
      stored := .inr fun b q hmem => by
        obtain ⟨-, -, rfl⟩ := hnext hmem
        rfl }

theorem Sourced.goes_filling (h : Sourced s i root past e m) (hw : m.worker = some w)
    {level : List (String × Reading)} (hfilling : w.activity = .filling stored level)
    (hstep : m.stepFilling now w e stored level = some v) :
    Goes s i root e m v.ensemble v.replica := by
  unfold stepFilling at hstep
  split at hstep
  · rename_i found hfound
    obtain rfl := Option.some.inj hstep
    exact h.goes_closeLevel hw (eq_of_finishedLevel hfound ▸ hfilling)
  · obtain rfl := Option.some.inj hstep
    unfold failFilling
    split_ifs
    · exact h.goes_stop (.refl i e) hw _
    · exact h.goes_on (.refl i e) hw trivial nofun
  · obtain ⟨⟨level', e', notices⟩, hlevel, rfl⟩ := Option.map_eq_some_iff.1 hstep
    obtain ⟨before, a, r, r', after, rfl, hreading, rfl⟩ := stepLevel_cases hlevel
    exact h.goes_reading hw hfilling hreading

/-! ### Listening -/

theorem Sourced.goes_evict (h : Sourced s i root past e m) (he : Ensemble.Heeds i e e') (p : String)
    (hworker : m'.worker = some u) (hm : m.worker = some w) (hsession : u.session = w.session)
    (hwatch : u.watch = w.watch) (hlistening : u.activity = .listening)
    (hroot : m'.root = m.root) (hentries : m'.entries = (m.evict p).entries) :
    Goes s i root e m e' m' := by
  obtain ⟨hs, hi, -⟩ := h.worker hm
  refine h.goes he hroot hworker (hsession.trans hs) (hwatch.trans hi)
    (by rw [hlistening]; trivial) (level_eq_nil hworker (by simp [hlistening])) ?_ fun c hc => ?_
  · rw [hentries]
    exact nodup_evict h.nodup
  · rw [hentries] at hc
    exact .inl (.inl (mem_evict.1 hc).1)

theorem Sourced.goes_listening (h : Sourced s i root past e m) (hw : m.worker = some w)
    (hlistening : w.activity = .listening) (hstep : m.stepListening now w e = some v) :
    Goes s i root e m v.ensemble v.replica := by
  obtain ⟨-, hi, -⟩ := h.worker hw
  unfold stepListening at hstep
  split at hstep
  · rename_i event e₁ hnext
    rw [hi] at hnext
    have htaken := Ensemble.heeds_of_reads (.take hnext)
    split at hstep
    · obtain rfl := Option.some.inj hstep
      exact h.goes_evict htaken event.path hw hw rfl rfl hlistening rfl rfl
    · split at hstep
      · rename_i hold e₂ haccept
        obtain rfl := Option.some.inj hstep
        refine h.goes_on (htaken.trans (Ensemble.heeds_of_accept i haccept)) hw ?_ nofun
        obtain ⟨watch, hwatch, -, -, hqueue⟩ := h.informs
        obtain ⟨session, top, queue, phase⟩ := watch
        cases queue with
        | nil => simp [Ensemble.nextEvent?, hwatch] at hnext
        | cons first rest =>
          simp only [Ensemble.nextEvent?, hwatch, Option.some.injEq, Prod.mk.injEq] at hnext
          exact hnext.1 ▸ hqueue first List.mem_cons_self
      · obtain rfl := Option.some.inj hstep
        exact h.goes_failRefresh htaken hw _ _
  · split at hstep
    · simp at hstep
    · obtain rfl := Option.some.inj hstep
      exact h.goes_stop (.refl i e) hw _

theorem Sourced.goes_refreshing (h : Sourced s i root past e m) (hw : m.worker = some w)
    {p : String} {hold : Hold} (hrefreshing : w.activity = .refreshing p hold)
    (hstep : m.stepRefreshing now w e p hold = some v) :
    Goes s i root e m v.ensemble v.replica := by
  obtain ⟨rfl, hi, hunder⟩ := h.worker hw
  rw [hrefreshing] at hunder
  have hsame := Ensemble.complete_getData e w.session hold.fault p
  unfold stepRefreshing at hstep
  split_ifs at hstep
  split at hstep <;> rename_i hread <;> rw [hread] at hsame <;> obtain rfl := hsame.symm <;>
    obtain rfl := Option.some.inj hstep
  · rename_i data stat
    refine h.goes (u := { w with activity := .listening }) (.refl i e) rfl rfl rfl hi trivial
      (level_eq_nil rfl nofun) (nodup_storeIn h.nodup) fun c hc => ?_
    rcases mem_storeIn h.nodup hc with rfl | ⟨hc, -⟩
    · exact .inr ⟨hunder.2, Ensemble.readable_of_getData (congrArg Prod.fst hread)⟩
    · exact .inl (.inl hc)
  · exact h.goes_evict (u := { w with activity := .listening }) (.refl i e) p rfl hw rfl rfl rfl rfl
      rfl
  · exact h.goes_on (.refl i e) hw trivial nofun
  · exact h.goes_failRefresh (.refl i e) hw _ _

/-! ### Moves of all kinds -/

theorem Sourced.goes_feeds (h : Sourced s i root past e m) (hmove : Feeds s i e m e' m') :
    Goes s i root e m e' m' := by
  have hkept (he : e'.Reachable) (hold : ∀ c : Entry, c.NotAhead e.tree → c.NotAhead e'.tree)
      (hinforms : e'.Informs s i root) : Goes s i root e m e' m :=
    ⟨he, hinforms, hold _, h.rooted, h.worker, h.nodup, .inl, .inl fun _ => id⟩
  cases hmove with
  | service step =>
    have ht := h.reachable.wellFormed
    obtain ⟨who, evs, hev⟩ := step.evolves ht
    exact hkept (.step h.reachable step) (fun c hc => hc.steps ht hev.tree)
      (h.informs.becomes fun _ => step.becomes ht)
  | others read other =>
    refine hkept (.read h.reachable read) (fun c hc => ?_) (h.informs.becomes fun _ => read.becomes)
    rwa [read.frame.1]
  | spawn ensemble latent =>
    refine ⟨h.reachable, h.informs, id, h.rooted, ?_, h.nodup, fun {c} hc => ?_, .inl fun _ => id⟩
    · rintro _ ⟨⟩
      refine ⟨rfl, rfl, fun a r hmem => ?_⟩
      obtain ⟨rfl, rfl⟩ : a = m.root ∧ r = .untouched := by simpa using hmem
      rw [h.rooted]
      exact ⟨h.valid, isWithin_refl h.valid, trivial⟩
    · rcases hc with hc | ⟨r, hr, hcopy⟩
      · exact .inl (.inl hc)
      · have hlevel : (m.spawned ensemble s i).level = [(m.root, .untouched)] := rfl
        obtain ⟨-, rfl⟩ : c.path = m.root ∧ r = .untouched := by simpa [hlevel] using hr
        simp [Reading.copy?] at hcopy
  | worker step =>
    obtain ⟨w, hw, ⟨-, rfl⟩ | ⟨stored, level, hfilling, step⟩ | ⟨hlistening, step⟩ |
      ⟨p, hold, hrefreshing, step⟩⟩ := cases_of_step step
    · exact h.goes_stop (.refl i e) hw _
    · exact h.goes_filling hw hfilling step
    · exact h.goes_listening hw hlistening step
    · exact h.goes_refreshing hw hrefreshing step
  | reading working filling step => exact h.goes_reading working filling step

def duty (m : Replica) : Option (Nat × Nat × Activity) :=
  m.worker.map fun w => (w.session, w.watch, w.activity)

theorem level_congr (h : m'.duty = m.duty) : m'.level = m.level := by
  have hactivity : m'.worker.map Worker.activity = m.worker.map Worker.activity := by
    simpa [duty, Function.comp_def] using congrArg (Option.map fun d => d.2.2) h
  unfold level
  rw [hactivity]

theorem duty_askedToStop (m : Replica) : m.askedToStop.duty = m.duty := by
  simp [duty, askedToStop, Function.comp_def]

theorem duty_emptied (m : Replica) (ended : Bool) : (m.emptied ended).duty = m.duty := by
  cases ended <;> simp [duty, emptied, Function.comp_def]

/-- A replica may lose copies while its worker is at the same work. -/
theorem Sourced.goes_emptied (h : Sourced s i root past e m) (hroot : m'.root = m.root)
    (hentries : m'.entries.Sublist m.entries) (hduty : m'.duty = m.duty) :
    Goes s i root e m e m' where
  reachable := h.reachable
  informs := h.informs
  aged := id
  rooted := hroot.trans h.rooted
  worker {w'} hw' := by
    obtain ⟨w, hw, heq⟩ : ∃ w, m.worker = some w ∧
        (w.session, w.watch, w.activity) = (w'.session, w'.watch, w'.activity) := by
      rw [duty, hw', Option.map_some, eq_comm] at hduty
      exact Option.map_eq_some_iff.1 hduty
    obtain ⟨hs, hi, hactivity⟩ : w.session = w'.session ∧ w.watch = w'.watch ∧
        w.activity = w'.activity := by simpa using heq
    rw [← hs, ← hi, ← hactivity]
    exact h.worker hw
  nodup := h.nodup.sublist (hentries.map _)
  copied hc := by
    rw [level_congr hduty] at hc
    exact .inl (hc.imp_left (hentries.subset ·))
  stored := .inl fun _ hc => hentries.subset hc

theorem Sourced.goes_moves (h : Sourced s i root past e m) (hmove : Moves s i e m e' m') :
    Goes s i root e m e' m' := by
  cases hmove with
  | feeds move => exact h.goes_feeds move
  | asked => exact h.goes_emptied rfl (.refl _) m.duty_askedToStop
  | emptied => exact h.goes_emptied rfl (List.nil_sublist _) (m.duty_emptied _)

/-! ## Whole runs -/

theorem sourced_registered {fault : Option ServiceError} (hreach : e.Reachable)
    (answer : (e.complete s fault (.watch root)).1 = .ok i) :
    Sourced s i root [] (e.complete s fault (.watch root)).2 { root := root } := by
  have hvalid := Ensemble.valid_of_watch_answer answer
  obtain ⟨rfl, -, hafter⟩ := Ensemble.eq_of_watch_answer answer
  have hnone {c : Entry} (hc : Copied ([] : List Entry) ({ root := root } : Replica).level c) :
      False := by
    simp [Copied, level] at hc
  exact {
    reachable := .step hreach (.complete ..)
    informs := ⟨⟨s, root, [], .registered⟩, by simp [hafter], rfl, rfl, by simp⟩
    valid := hvalid
    rooted := rfl
    worker := fun hworker => by cases hworker
    nodup := List.nodup_nil
    origin := fun hc => (hnone hc).elim
    aged := fun hc => (hnone hc).elim
    seen := fun hmem => by cases hmem
    newest := fun hc => (hnone hc).elim }

/-- The present moment of a run. -/
theorem Run.sourced {moments : List (Ensemble × Replica)} (h : Run s i root moments) :
    ∃ e m past, moments = (e, m) :: past ∧ Sourced s i root past e m := by
  induction h with
  | registered reachable answer => exact ⟨_, _, _, rfl, sourced_registered reachable answer⟩
  | move before move ih =>
    obtain ⟨e, m, past, heq, hsourced⟩ := ih
    obtain ⟨⟨rfl, rfl⟩, rfl⟩ : (_ ∧ _) ∧ _ := by simpa using heq
    exact ⟨_, _, _, rfl, hsourced.next (hsourced.goes_moves move)⟩

/-- At every moment of every run, whatever befalls the worker, the session and the replica: a copy
is held under its own path, which lies within the root, and it is what the session, live at that
moment, could read there at one earlier moment of the run. And over the run the copies of one path
never go back to an older change. -/
theorem Run.copies_read {past : List (Ensemble × Replica)}
    (h : Run s i root ((e, m) :: past)) :
    (∀ p c, m.get? p = some c → c.path = p) ∧
    (∀ c ∈ m.entries, m.get? c.path = some c ∧ isWithin root c.path = true ∧
      ∃ moment ∈ past, moment.1.phase s = .live ∧
        ∃ n, moment.1.readable s c.path = .ok n ∧ c.data = n.data ∧ c.stat = n.stat) ∧
    ((e, m) :: past).Pairwise fun later earlier => ∀ c ∈ later.2.entries,
      ∀ d ∈ earlier.2.entries, c.path = d.path → d.stat.mzxid ≤ c.stat.mzxid := by
  have hordered (moments : List (Ensemble × Replica)) (h : Run s i root moments) :
      moments.Pairwise fun later earlier => ∀ c ∈ later.2.entries,
        ∀ d ∈ earlier.2.entries, c.path = d.path → d.stat.mzxid ≤ c.stat.mzxid := by
    induction h with
    | registered => exact List.pairwise_singleton ..
    | move before move ih =>
      obtain ⟨_, _, _, heq, hsourced⟩ := (before.move move).sourced
      obtain ⟨⟨rfl, rfl⟩, rfl⟩ : (_ ∧ _) ∧ _ := by simpa using heq
      exact List.pairwise_cons.2 ⟨fun moment hmoment c hc d hd hpath =>
        hsourced.newest (.inl hc) (List.mem_cons_of_mem _ hmoment) hd hpath, ih⟩
  obtain ⟨_, _, _, heq, hsourced⟩ := h.sourced
  obtain ⟨⟨rfl, rfl⟩, rfl⟩ : (_ ∧ _) ∧ _ := by simpa using heq
  refine ⟨fun p c hc => ((get?_eq_some_iff hsourced.nodup).1 hc).2, fun c hc => ?_, hordered _ h⟩
  exact ⟨(get?_eq_some_iff hsourced.nodup).2 ⟨hc, rfl⟩, hsourced.origin (.inl hc)⟩

/-- A node is written after it was read and before its copy is stored, and is deleted and made anew
before the worker looks again. Then the session expires. -/
theorem copies_read_reborn : ∃ e m past, Run 1 0 "/a/b" ((e, m) :: past) ∧ e.phase 1 = .expired ∧
    ∃ c ∈ m.entries, c.data = [7] ∧ (∃ moment ∈ past, ∃ n, moment.1.readable 1 c.path = .ok n ∧
      c.data = n.data ∧ c.stat = n.stat) ∧
    ∃ moment ∈ past, ∃ d ∈ moment.2.entries, c.path = d.path ∧ d.data = [1] ∧
      c.stat.czxid ≠ d.stat.czxid ∧ d.stat.mzxid ≤ c.stat.mzxid := by
  have h₀ := @Run.registered 1 0 "/a/b" Ensemble.nested none Ensemble.nested_reachable rfl
  have h₁ := h₀.move (.feeds (.spawn 0 rfl))
  have h₂ := h₁.move (.feeds (@Feeds.worker _ _ _ _ 0 _ rfl))
  have h₃ := h₂.move (.feeds (@Feeds.worker _ _ _ _ 0 _ rfl))
  have h₄ := h₃.move (.feeds (.service (.complete _ 1 none (.setData "/a/b" [9] none))))
  have h₅ := h₄.move (.feeds (@Feeds.worker _ _ _ _ 0 _ rfl))
  have h₆ := h₅.move (.feeds (@Feeds.worker _ _ _ _ 0 _ rfl))
  have h₇ := h₆.move (.feeds (@Feeds.worker _ _ _ _ 0 _ rfl))
  have h₈ := h₇.move (.feeds (.service (.complete _ 1 none (.delete "/a/b" none))))
  have h₉ := h₈.move (.feeds (.service (.complete _ 1 none (.create "/a/b" [7] .persistent))))
  have h₁₀ := h₉.move (.feeds (@Feeds.worker _ _ _ _ 0 _ rfl))
  have h₁₁ := h₁₀.move (.feeds (@Feeds.worker _ _ _ _ 0 _ rfl))
  have h₁₂ := h₁₁.move (.feeds (.service (@Ensemble.Step.expire _ 1 [] rfl (.refl []))))
  obtain ⟨-, hread, hordered⟩ := h₁₂.copies_read
  obtain ⟨-, -, moment, hmoment, -, n, hn⟩ := hread _ (List.mem_singleton_self _)
  have hnewer := (List.pairwise_cons.1 hordered).1 _
    (.tail _ (.tail _ (.tail _ (.tail _ (.head _))))) _ (List.mem_singleton_self _) _
    (List.mem_singleton_self _) rfl
  exact ⟨_, _, _, h₁₂, rfl, _, List.mem_singleton_self _, rfl, ⟨moment, hmoment, n, hn⟩,
    _, .tail _ (.tail _ (.tail _ (.tail _ (.head _)))), _, List.mem_singleton_self _, rfl, rfl,
    by decide, hnewer⟩

end Replica

end KeyRegistry
