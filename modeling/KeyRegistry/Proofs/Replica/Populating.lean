import KeyRegistry.Proofs.Replica.Pacing
import KeyRegistry.Proofs.Replica.Provenance

/-!
# Filling a replica while others change the tree

A node is read with two calls, and between the calls of a filling anything may happen at the
service: nodes vanish, are made anew and change hands. One answer alone cuts the filling short,
a refusal to list the children of a node whose data has been read. Where no listing is refused,
the filling comes to its end, and every node that could be read all the while is held.
-/

namespace KeyRegistry

open KeyRegistry.Path

/-! ## Readings -/

theorem Reading.Sound.mono {P Q : Prop} {r : Reading} (h : r.Sound P) (hpq : P → Q) :
    r.Sound Q := by
  cases r with
  | dataRead => exact hpq h
  | children => exact ⟨h.1, hpq h.2⟩
  | finished found => cases found <;> exact h
  | _ => exact h

namespace Replica

variable {e e' : Ensemble} {s now : Nat} {a : String} {r r' : Reading} {notices : List Notice}

theorem ReadsOn.mono {P Q : Prop} (h : ReadsOn P e s a r r') (hpq : P → Q) :
    ReadsOn Q e s a r r' :=
  ⟨h.sound.mono hpq, h.copy, h.leads⟩

/-- A reading goes on well whatever has become of its node, unless it is refused the listing. -/
theorem readsOn_of_unrefused (ht : e.tree.WellFormed) (hcalm : e.Calm s) (ha : Valid a)
    (hlisting : ∀ data stat hold, r = .children data stat hold →
      ∀ n, e.tree.node? a = some n → n.acl.permits (e.caller s).identity = true)
    (hs : r.Sound True) (hstep : stepReading now e s a r = some (r', e', notices)) :
    e' = e ∧ ReadsOn True e s a r r' := by
  -- Who may read the node may have changed since the last move: the tree is asked as it is now.
  let allowed : Prop := ∀ n, e.tree.node? a = some n → n.acl.permits (e.caller s).identity = true
  have hperm (n : Node) (hn : e.tree.node? a = some n) :
      n.acl.permits (e.caller s).identity = true ↔ allowed := by
    refine ⟨fun hp k hk => ?_, fun hallowed => hallowed n hn⟩
    obtain rfl := Option.some.inj (hn.symm.trans hk)
    exact hp
  cases r with
  | untouched =>
    simp only [stepReading, Ensemble.accept_of_live hcalm.live hcalm.unfaulted, Option.some.injEq,
      Prod.mk.injEq] at hstep
    obtain ⟨rfl, rfl, -⟩ := hstep
    exact ⟨rfl, rfl, by simp [Reading.copy?], fun _ hlead => hlead⟩
  | data hold =>
    obtain ⟨rfl, hreads⟩ := readsOn_data ht hcalm.live ha hperm hs hstep
    exact ⟨rfl, hreads.mono fun _ => trivial⟩
  | dataRead data stat =>
    simp only [stepReading, Ensemble.accept_of_live hcalm.live hcalm.unfaulted, Option.some.injEq,
      Prod.mk.injEq] at hstep
    obtain ⟨rfl, rfl, -⟩ := hstep
    exact ⟨rfl, ⟨rfl, trivial⟩, .inl, fun _ hlead => hlead⟩
  | children data stat hold =>
    obtain ⟨rfl, hreads⟩ := readsOn_children ht hcalm.live ha hperm
      ⟨hs.1, hlisting data stat hold rfl⟩ hstep
    exact ⟨rfl, hreads.mono fun _ => trivial⟩
  | finished | failed => simp [stepReading] at hstep

/-- The children that a reading has found are stored, and none of them was listed twice. -/
theorem Proceeds.found_stored (ht : e.tree.WellFormed) {data : List UInt8} {stat : Stat}
    {names : List String}
    (h : Proceeds e e' s now a r (.finished (some (data, stat, names)))) :
    names.Nodup ∧ ∀ c ∈ names, e.tree.Stored (join a c) := by
  cases h with
  | listed same answer =>
    obtain ⟨n, hn, rfl⟩ := Ensemble.node_of_getChildren answer
    exact ⟨ht.children_nodup hn, fun c hc => ((ht.mem_children_iff hn c).1 hc).2⟩
  | vanished => simp

end Replica

/-! ## Walks -/

namespace Replica

/-- The nodes of which a move has had the listing refused: a reading that was to list the children
of a node has gone on, and the node is not one that the identity may read. -/
def refusals (e : Ensemble) (identity : Option String) (m m' : Replica) : List String :=
  m.level.filterMap fun (a, r) =>
    match r with
    | .children .. =>
      if (a, r) ∉ m'.level ∧ (e.tree.node? a).any fun n => !n.acl.permits identity then some a
      else none
    | _ => none

/-- The filling of a replica by session `s` of the given identity, with whatever happens at the
service in the meantime as long as the session lives and no fault is injected. `trees` are those
that the service has had since the worker was started, `n` is the number of moves of the worker,
and `refused` has the nodes of which it was refused the listing. A walk ends with the filling. -/
inductive Walk (s i : Nat) (identity : Option String) (root : String) :
    List Tree → Nat → List String → Ensemble → Replica → Prop
  | start {e : Ensemble} (ensemble : Nat) (reachable : e.Reachable) (calm : e.Calm s)
      (caller : (e.caller s).identity = identity) (valid : Valid root) :
      Walk s i identity root [e.tree] 0 [] e (({ root := root } : Replica).spawned ensemble s i)
  | service {trees : List Tree} {n : Nat} {refused : List String} {e e' : Ensemble} {m : Replica}
      (before : Walk s i identity root trees n refused e m) (filling : m.isFilling = true)
      (step : Ensemble.Step e e') (calm : e'.Calm s) :
      Walk s i identity root (e'.tree :: trees) n refused e' m
  | others {trees : List Tree} {n j : Nat} {refused : List String} {e e' : Ensemble} {m : Replica}
      (before : Walk s i identity root trees n refused e m) (filling : m.isFilling = true)
      (read : Ensemble.Reads j e e') (other : j ≠ i) :
      Walk s i identity root (e'.tree :: trees) n refused e' m
  | worker {trees : List Tree} {n now : Nat} {refused : List String} {e : Ensemble} {m : Replica}
      {v : Move} (before : Walk s i identity root trees n refused e m)
      (filling : m.isFilling = true) (step : m.step now e = some v) :
      Walk s i identity root (v.ensemble.tree :: trees) (n + 1)
        (refusals e identity m v.replica ++ refused) v.ensemble v.replica
  | reading {trees : List Tree} {n now stored : Nat} {refused : List String} {e e' : Ensemble}
      {m : Replica} {w : Worker} {front rest : List (String × Reading)} {a : String}
      {r r' : Reading} {notices : List Notice}
      (before : Walk s i identity root trees n refused e m) (working : m.worker = some w)
      (filling : w.activity = .filling stored (front ++ (a, r) :: rest))
      (step : stepReading now e w.session a r = some (r', e', notices)) :
      Walk s i identity root (e'.tree :: trees) (n + 1)
        (refusals e identity m (m.withActivity w (.filling stored (front ++ (a, r') :: rest))) ++
          refused)
        e' (m.withActivity w (.filling stored (front ++ (a, r') :: rest)))

/-! ### What is sought -/

variable {e e' : Ensemble} {m : Replica} {s i now stored n : Nat} {root a : String}
  {identity : Option String} {trees trees' : List Tree} {es : List Entry}
  {level : List (String × Reading)} {r r' : Reading} {notices : List Notice} {w : Worker}
  {v : Move} {found : List (String × Option (List UInt8 × Stat × List String))}

/-- The state of a filling that has been refused no listing: what could be read in all the trees is
held or sought, and what is held could be read in one of them. -/
structure Seeks (root : String) (identity : Option String) (trees : List Tree) (es : List Entry)
    (level : List (String × Reading)) : Prop where
  held : (pathsOf es).Nodup
  distinct : (level.map Prod.fst).Nodup
  sound {a : String} {r : Reading} : (a, r) ∈ level →
    Valid a ∧ isWithin root a = true ∧ r.Sound True
  listed {a : String} {data : List UInt8} {stat : Stat} {names : List String} :
    (a, .finished (some (data, stat, names))) ∈ level →
      names.Nodup ∧ ∀ c ∈ names, ∃ t ∈ trees, t.Stored (join a c)
  origin {c : Entry} : Copied es level c → isWithin root c.path = true ∧ ∃ t ∈ trees, ∃ n,
    t.node? c.path = some n ∧ n.acl.permits identity = true ∧ c.data = n.data ∧ c.stat = n.stat
  covers {p : String} : isWithin root p = true → (∀ t ∈ trees, t.Readable identity p) →
    Covered es level p

theorem seeks_root (hroot : Valid root) :
    Seeks root identity trees [] [(root, .untouched)] where
  held := by simp
  distinct := by simp
  sound {a r} hmem := by
    obtain ⟨rfl, rfl⟩ : a = root ∧ r = .untouched := by simpa using hmem
    exact ⟨hroot, isWithin_refl hroot, trivial⟩
  listed hmem := by simp at hmem
  origin := by simp [Copied, Reading.copy?]
  covers hp _ := .inr ⟨root, .untouched, by simp, hp⟩

theorem Seeks.grow (h : Seeks root identity trees es level) (hsub : trees ⊆ trees') :
    Seeks root identity trees' es level where
  held := h.held
  distinct := h.distinct
  sound := h.sound
  listed hmem := by
    obtain ⟨hnodup, hstored⟩ := h.listed hmem
    exact ⟨hnodup, fun c hc => (hstored c hc).imp fun _ ht => ⟨hsub ht.1, ht.2⟩⟩
  origin hc := by
    obtain ⟨hin, t, ht, hn⟩ := h.origin hc
    exact ⟨hin, t, hsub ht, hn⟩
  covers hin hr := h.covers hin fun t ht => hr t (hsub ht)

theorem Seeks.readsOn {front rest : List (String × Reading)}
    (h : Seeks root (e.caller s).identity trees es (front ++ (a, r) :: rest))
    (ht : e.tree ∈ trees) (hreads : ReadsOn True e s a r r')
    (hlisted : ∀ data stat names, r' = .finished (some (data, stat, names)) →
      names.Nodup ∧ ∀ c ∈ names, e.tree.Stored (join a c)) :
    Seeks root (e.caller s).identity trees es (front ++ (a, r') :: rest) where
  held := h.held
  distinct := by simpa using h.distinct
  sound {b q} hmem := by
    rcases mem_level_moved (r := r) hmem with hmem | ⟨rfl, rfl⟩
    · exact h.sound hmem
    · obtain ⟨hb, hin, -⟩ := h.sound (a := b) (r := r) (by simp)
      exact ⟨hb, hin, hreads.sound⟩
  listed hmem := by
    rcases mem_level_moved (r := r) hmem with hmem | ⟨rfl, rfl⟩
    · exact h.listed hmem
    · obtain ⟨hnodup, hstored⟩ := hlisted _ _ _ rfl
      exact ⟨hnodup, fun c hc => ⟨_, ht, hstored c hc⟩⟩
  origin {c} hc := by
    rcases copied_moved (r := r) hc with hc | ⟨rfl, hcopy⟩
    · exact h.origin hc
    · rcases hreads.copy hcopy with hold | ⟨n, hn, hread⟩
      · exact h.origin (.inr ⟨r, by simp, hold⟩)
      · exact ⟨(h.sound (r := r) (by simp)).2.1, _, ht, n, hn, hread⟩
  covers hin hr := covered_moved (h.covers hin hr) (hreads.leads (hr _ ht))

/-- The reading that has moved was the only one of its path. -/
theorem Seeks.not_mem_moved {front rest : List (String × Reading)}
    (h : Seeks root identity trees es (front ++ (a, r) :: rest)) (hne : r ≠ r') :
    (a, r) ∉ front ++ (a, r') :: rest := by
  intro hmem
  have hdistinct : ((front ++ (a, r') :: rest).map Prod.fst).Nodup := by simpa using h.distinct
  have hmoved : (a, r') ∈ front ++ (a, r') :: rest :=
    List.mem_append_right front List.mem_cons_self
  have hsame := List.inj_on_of_nodup_map hdistinct hmem hmoved rfl
  exact hne (Prod.ext_iff.1 hsame).2

/-- What is known of the nodes that a finished level has found. -/
theorem Seeks.yielded
    (h : Seeks root identity trees es (found.map fun f => (f.1, .finished f.2))) {q : String}
    {data : List UInt8} {stat : Stat} {names : List String}
    (hmem : (q, some (data, stat, names)) ∈ found) :
    Valid q ∧ isWithin root q = true ∧ names.Nodup ∧
      ∀ c ∈ names, IsName c ∧ ∃ t ∈ trees, t.Stored (join q c) := by
  have hmem : (q, .finished (some (data, stat, names))) ∈
      found.map fun f => (f.1, Reading.finished f.2) := List.mem_map.2 ⟨_, hmem, rfl⟩
  obtain ⟨hq, hin, hnames⟩ := h.sound hmem
  obtain ⟨hnodup, hstored⟩ := h.listed hmem
  exact ⟨hq, hin, hnodup, fun c hc => ⟨hnames c hc, hstored c hc⟩⟩

theorem Seeks.storeLevel (hroot : Valid root)
    (h : Seeks root identity trees m.entries (found.map fun f => (f.1, .finished f.2))) :
    Seeks root identity trees (m.storeLevel found).entries (nextLevel found) := by
  have hnext {b : String} {q : Reading} (hmem : (b, q) ∈ nextLevel found) :=
    within_nextLevel hroot (fun q data stat names hx => by
      obtain ⟨hq, hin, -, hnames⟩ := h.yielded hx
      exact ⟨hq, hin, fun c hc => (hnames c hc).1⟩) hmem
  exact {
    held := nodup_storeLevel h.held
    distinct := nodup_nextLevel (by simpa [Function.comp_def] using h.distinct)
      fun q data stat names hx => by
        obtain ⟨hq, -, hnodup, hnames⟩ := h.yielded hx
        exact ⟨hq, hnodup, fun c hc => (hnames c hc).1⟩
    sound := fun hmem => by
      obtain ⟨hb, hin, rfl⟩ := hnext hmem
      exact ⟨hb, hin, trivial⟩
    listed := fun hmem => by
      obtain ⟨-, -, hr⟩ := hnext hmem
      cases hr
    origin := fun hc => h.origin (copied_storeLevel h.held hc)
    covers := fun hin hr => covered_storeLevel (h.covers hin hr) }

def reached (root : String) (trees : List Tree) : Finset String :=
  insert root ((trees.flatMap fun t => t.nodes.map Prod.fst).filter (isWithin root)).toFinset

theorem reached_mono (t : Tree) : reached root trees ⊆ reached root (t :: trees) := by
  intro p hp
  simp only [reached, List.flatMap_cons, List.filter_append, List.toFinset_append,
    Finset.mem_insert, Finset.mem_union] at hp ⊢
  exact hp.imp_right .inr

theorem mem_reached {t : Tree} {p : String} (ht : t ∈ trees) (hst : t.Stored p)
    (hin : isWithin root p = true) : p ∈ reached root trees := by
  obtain ⟨n, hn⟩ := hst
  obtain ⟨before, after, heq, -⟩ := List.lookup_eq_some_iff.1 hn
  refine Finset.mem_insert_of_mem (List.mem_toFinset.2 (List.mem_filter.2 ⟨?_, hin⟩))
  exact List.mem_flatMap.2 ⟨t, ht, List.mem_map.2 ⟨(p, n), by simp [heq], rfl⟩⟩

/-- The level below is one level deeper, and all that it holds has been stored. -/
theorem Seeks.paced_nextLevel (hroot : Valid root)
    (h : Seeks root identity trees m.entries (found.map fun f => (f.1, .finished f.2)))
    (hne : found.map (fun f => (f.1, Reading.finished f.2)) ≠ []) {d : Nat}
    (hpaced : Paced (reached root trees) (found.map fun f => (f.1, .finished f.2)) n d) :
    Paced (reached root trees) (nextLevel found) (n + 1) (d + 1) := by
  refine hpaced.closed h.distinct hne fun b q hmem => ?_
  obtain ⟨-, hin, -⟩ := (h.storeLevel hroot).sound hmem
  obtain ⟨-, p, data, stat, names, hfound, c, hc, rfl⟩ := mem_nextLevel.1 hmem
  obtain ⟨hp, -, -, hnames⟩ := h.yielded hfound
  obtain ⟨hname, t, ht, hst⟩ := hnames c hc
  obtain ⟨-, rfl⟩ := hpaced.known (List.mem_map.2 ⟨_, hfound, rfl⟩)
  exact ⟨mem_reached ht hst hin, depth_join hp hname⟩

/-! ### The moves of a walk -/

structure Underway (s : Nat) (identity : Option String) (root : String) (trees : List Tree)
    (n : Nat) (e : Ensemble) (m : Replica) : Prop where
  reachable : e.Reachable
  calm : e.Calm s
  caller : (e.caller s).identity = identity
  valid : Valid root
  current : e.tree ∈ trees
  worker : ∃ w, m.worker = some w ∧ w.session = s ∧ w.stopRequested = false ∧
    w.cancelled = false ∧ ((∃ stored, w.activity = .filling stored m.level ∧ m.level ≠ []) ∨
      w.activity = .listening ∧ m.level = [] ∧ m.initialized = true)
  seeks : Seeks root identity trees m.entries m.level
  paced : ∃ d, Paced (reached root trees) m.level n d

theorem underway_start (ensemble : Nat) (hreach : e.Reachable) (hcalm : e.Calm s)
    (hcaller : (e.caller s).identity = identity) (hroot : Valid root) :
    Underway s identity root [e.tree] 0 e (({ root := root } : Replica).spawned ensemble s i) where
  reachable := hreach
  calm := hcalm
  caller := hcaller
  valid := hroot
  current := List.mem_singleton_self _
  worker := ⟨_, rfl, rfl, rfl, rfl, .inl ⟨0, rfl, by simp [Replica.level, spawned]⟩⟩
  seeks := seeks_root hroot
  paced := by
    refine ⟨depth root, ⟨fun {a r} hmem => ?_, Nat.zero_le _⟩⟩
    obtain ⟨rfl, -⟩ : a = root ∧ r = .untouched := Prod.ext_iff.1 (List.mem_singleton.1 hmem)
    exact ⟨Finset.mem_insert_self _ _, rfl⟩

/-- Whatever others do leaves the walk underway. -/
theorem Underway.evolves (h : Underway s identity root trees n e m) (hreach : e'.Reachable)
    (hcalm : e'.Calm s) (hcaller : (e'.caller s).identity = (e.caller s).identity) :
    Underway s identity root (e'.tree :: trees) n e' m where
  reachable := hreach
  calm := hcalm
  caller := hcaller.trans h.caller
  valid := h.valid
  current := List.mem_cons_self
  worker := h.worker
  seeks := h.seeks.grow (List.subset_cons_self _ _)
  paced := h.paced.imp fun _ hpaced => hpaced.grow (reached_mono _)

/-- A reading that was to list children and may not is told in the refusals. -/
theorem permits_of_unrefused {m' : Replica} (h : refusals e identity m m' = [])
    {data : List UInt8} {stat : Stat} {hold : Hold}
    (hmem : (a, .children data stat hold) ∈ m.level)
    (hgone : (a, .children data stat hold) ∉ m'.level) {k : Node} (hk : e.tree.node? a = some k) :
    k.acl.permits identity = true := by
  have hnone := List.filterMap_eq_nil_iff.1 h _ hmem
  simpa [hgone, hk] using hnone

theorem Underway.reading (h : Underway s identity root trees n e m) (hw : m.worker = some w)
    {front rest : List (String × Reading)}
    (hfilling : w.activity = .filling stored (front ++ (a, r) :: rest))
    (hstep : stepReading now e w.session a r = some (r', e', notices))
    (hrefused : refusals e identity m
      (m.withActivity w (.filling stored (front ++ (a, r') :: rest))) = []) :
    Underway s identity root (e'.tree :: trees) (n + 1) e'
      (m.withActivity w (.filling stored (front ++ (a, r') :: rest))) := by
  obtain ⟨w₀, hw₀, rfl, hstop, hcancel, -⟩ := h.worker
  obtain rfl := Option.some.inj (hw.symm.trans hw₀)
  have hlevel := level_of_filling hw hfilling
  have hseeks := h.seeks
  rw [hlevel] at hseeks
  obtain ⟨ha, -, hsound⟩ := hseeks.sound (a := a) (r := r) (by simp)
  have hproceeds := proceeds_of_stepReading hstep
  have hprogress := hproceeds.progress_lt
  have hne : r ≠ r' := by
    rintro rfl
    exact Nat.lt_irrefl _ hprogress
  obtain ⟨rfl, hreads⟩ := readsOn_of_unrefused h.reachable.wellFormed h.calm ha
    (by
      rintro data stat hold rfl k hk
      rw [h.caller]
      refine permits_of_unrefused hrefused ?_ (hseeks.not_mem_moved hne) hk
      rw [hlevel]
      exact List.mem_append_right _ List.mem_cons_self)
    hsound hstep
  exact {
    reachable := h.reachable
    calm := h.calm
    caller := h.caller
    valid := h.valid
    current := List.mem_cons_self
    worker := ⟨_, rfl, rfl, hstop, hcancel,
      .inl ⟨stored, rfl, by simp [Replica.level, withActivity]⟩⟩
    seeks := by
      rw [← h.caller] at hseeks ⊢
      refine Seeks.grow (hseeks.readsOn h.current hreads fun data stat names hr' => ?_)
        (List.subset_cons_self _ _)
      exact Proceeds.found_stored h.reachable.wellFormed (hr' ▸ hproceeds)
    paced := by
      obtain ⟨d, hpaced⟩ := h.paced
      rw [hlevel] at hpaced
      exact ⟨d, (hpaced.moved hprogress).grow (reached_mono _)⟩ }

/-- A finished level that has been refused nothing leads to the next one, or fills the replica. -/
theorem Underway.closeLevel (h : Underway s identity root trees n e m) (hw : m.worker = some w)
    (hfilling : w.activity = .filling stored (found.map fun f => (f.1, .finished f.2))) :
    Underway s identity root ((m.closeLevel w e stored found).ensemble.tree :: trees) (n + 1)
      (m.closeLevel w e stored found).ensemble (m.closeLevel w e stored found).replica := by
  obtain ⟨w₀, hw₀, rfl, hstop, hcancel, hactivity⟩ := h.worker
  obtain rfl := Option.some.inj (hw.symm.trans hw₀)
  have hlevel := level_of_filling hw hfilling
  have hne : found.map (fun f => (f.1, Reading.finished f.2)) ≠ [] := by
    rcases hactivity with ⟨-, -, hne⟩ | ⟨hlistening, -⟩
    · rwa [hlevel] at hne
    · simp [hfilling] at hlistening
  have hseeks := h.seeks
  rw [hlevel] at hseeks
  have hseeks := hseeks.grow (List.subset_cons_self e.tree trees)
  have hstored := hseeks.storeLevel h.valid
  have hpaced : ∃ d, Paced (reached root (e.tree :: trees)) (nextLevel found) (n + 1) d := by
    obtain ⟨d, hpaced⟩ := h.paced
    rw [hlevel] at hpaced
    exact ⟨d + 1, hseeks.paced_nextLevel h.valid hne (hpaced.grow (reached_mono e.tree))⟩
  unfold Replica.closeLevel
  cases hnext : nextLevel found with
  | nil =>
    rw [hnext] at hstored hpaced
    exact ⟨h.reachable, h.calm, h.caller, h.valid, List.mem_cons_self,
      ⟨_, rfl, rfl, hstop, hcancel, .inr ⟨rfl, rfl, rfl⟩⟩, hstored, hpaced⟩
  | cons first next =>
    rw [hnext] at hstored hpaced
    exact ⟨h.reachable, h.calm, h.caller, h.valid, List.mem_cons_self,
      ⟨_, rfl, rfl, hstop, hcancel, .inl ⟨_, rfl, List.cons_ne_nil _ _⟩⟩, hstored, hpaced⟩

theorem Underway.unfailed (h : Underway s identity root trees n e m) :
    failureOf m.level = none :=
  @failureOf_of_sound m.level (fun _ => True) fun _ _ hmem => (h.seeks.sound hmem).2.2

theorem Underway.step (h : Underway s identity root trees n e m) (hfilling : m.isFilling = true)
    (hstep : m.step now e = some v) (hrefused : refusals e identity m v.replica = []) :
    Underway s identity root (v.ensemble.tree :: trees) (n + 1) v.ensemble v.replica := by
  obtain ⟨w, hw, hs, hstop, hcancel, hactivity⟩ := h.worker
  rcases step_cases hw hstop hcancel hstep with
    ⟨stored, level, hactivity, hstep⟩ | ⟨hlistening, -⟩ | ⟨p, hold, hrefreshing, -⟩
  · have hlevel := level_of_filling hw hactivity
    unfold stepFilling at hstep
    rw [← hlevel, h.unfailed, hlevel] at hstep
    cases hfound : finishedLevel level with
    | none =>
      rw [hfound] at hstep
      obtain ⟨⟨level', e', notices⟩, hmoved, rfl⟩ := Option.map_eq_some_iff.1 hstep
      obtain ⟨front, a, r, r', rest, rfl, hreading, rfl⟩ := stepLevel_cases hmoved
      exact h.reading hw hactivity hreading hrefused
    | some found =>
      rw [hfound] at hstep
      obtain rfl := Option.some.inj hstep
      exact h.closeLevel hw (eq_of_finishedLevel hfound ▸ hactivity)
  · simp [isFilling, hw, hlistening] at hfilling
  · simp [isFilling, hw, hrefreshing] at hfilling

theorem Walk.underway {refused : List String}
    (h : Walk s i identity root trees n refused e m) (hrefused : refused = []) :
    Underway s identity root trees n e m := by
  -- Refusals are only added, so there was none at any move before either.
  induction h with
  | start ensemble reachable calm caller valid =>
    exact underway_start ensemble reachable calm caller valid
  | service before filling step calm ih =>
    have h := ih hrefused
    obtain ⟨who, evs, hev⟩ := step.evolves h.reachable.wellFormed
    exact h.evolves (.step h.reachable step) calm (by rw [hev.caller h.calm.live])
  | others before filling read other ih =>
    have h := ih hrefused
    obtain ⟨-, hsessions, hfaults, -⟩ := read.frame
    refine h.evolves (.read h.reachable read) ⟨?_, ?_⟩ (by rw [Ensemble.caller_congr hsessions])
    · exact (Ensemble.phase_congr hsessions s).trans h.calm.live
    · rw [hfaults, h.calm.unfaulted]
  | worker before filling step ih =>
    obtain ⟨hnow, hrefused⟩ := List.append_eq_nil_iff.1 hrefused
    exact (ih hrefused).step filling step hnow
  | reading before working filling step ih =>
    obtain ⟨hnow, hrefused⟩ := List.append_eq_nil_iff.1 hrefused
    exact (ih hrefused).reading working filling step hnow

theorem Underway.exists_step (h : Underway s identity root trees n e m)
    (hfilling : m.isFilling = true) (hdue : ∀ due ∈ m.dueTimes, due ≤ now) :
    ∃ v, m.step now e = some v := by
  obtain ⟨w, hw, hs, hstop, hcancel, hactivity⟩ := h.worker
  rcases hactivity with ⟨stored, hactivity, -⟩ | ⟨hlistening, -⟩
  · have hstep : m.step now e = m.stepFilling now w e stored m.level := by
      simp [Replica.step, hw, hactivity, hstop, hcancel]
    rw [hstep]
    unfold stepFilling
    rw [h.unfailed]
    cases hfound : finishedLevel m.level with
    | some found => exact ⟨_, rfl⟩
    | none =>
      obtain ⟨a, r, hmem, hover⟩ := exists_unfinished hfound
      obtain ⟨-, -, hsound⟩ := h.seeks.sound hmem
      have hfailed : r.failure? = none := by
        cases r with
        | failed => exact hsound.elim
        | _ => rfl
      have hmoves := endsWait?_of_dueTimes hw hactivity hdue hmem hover hfailed
      obtain ⟨x, hx⟩ := exists_stepReading (e := e) (s := w.session) (a := a) hover hfailed hmoves
      obtain ⟨y, hy⟩ := exists_stepLevel hmem hx
      rw [hy]
      exact ⟨_, rfl⟩
  · simp [isFilling, hw, hlistening] at hfilling

/-! ### Whole walks -/

/-- A filling is cut short by nothing but the refusal of a listing. Whatever nodes there are and
whoever owns them, and whatever is done at the service between the calls of the worker: as long as
it has been refused no listing, it is still filling the replica, or the replica is initialized and
holds every node within the root that could be read all the while. What it holds could be read at
one moment of the walk. While the replica is being filled there is a next move as soon as the calls
under way have come back, and there are at most five for each path of which there has been a
node. -/
theorem populated_of_walk (h : Walk s i identity root trees n [] e m) :
    (m.isFilling = true ∨
      m.worker.map Worker.activity = some .listening ∧ m.initialized = true ∧
        ∀ p, isWithin root p = true → (∀ t ∈ trees, t.Readable identity p) →
          ∃ c, m.get? p = some c) ∧
    (∀ p c, m.get? p = some c → isWithin root p = true ∧ ∃ t ∈ trees, ∃ k, t.node? p = some k ∧
      k.acl.permits identity = true ∧ c.data = k.data ∧ c.stat = k.stat) ∧
    (m.isFilling = true → ∀ now, (∀ due ∈ m.dueTimes, due ≤ now) → ∃ v, m.step now e = some v) ∧
    n ≤ 5 * (reached root trees).card := by
  have hunder := h.underway rfl
  have hseeks := hunder.seeks
  refine ⟨?_, fun p c hc => ?_, fun hfilling now hdue => hunder.exists_step hfilling hdue, ?_⟩
  · obtain ⟨w, hw, -, -, -, ⟨stored, hfilling, -⟩ | ⟨hlistening, hlevel, hinit⟩⟩ := hunder.worker
    · exact .inl (by simp [isFilling, hw, hfilling])
    · refine .inr ⟨by rw [hw, Option.map_some, hlistening], hinit, fun p hin hr => ?_⟩
      rcases hseeks.covers hin hr with hp | ⟨a, r, hmem, -⟩
      · obtain ⟨c, hc, hpath⟩ := List.mem_map.1 hp
        exact ⟨c, (get?_eq_some_iff hseeks.held).2 ⟨hc, hpath⟩⟩
      · simp [hlevel] at hmem
  · obtain ⟨hmem, rfl⟩ := (get?_eq_some_iff hseeks.held).1 hc
    exact hseeks.origin (.inl hmem)
  · obtain ⟨d, hpaced⟩ := hunder.paced
    exact hpaced.le hseeks.distinct

def shared : Ensemble :=
  (((((({} : Ensemble).connect "memory" none).2.connect "memory" (some "alice")).2.complete 1 none
    (.create "/a" [] .persistent)).2.complete 1 none (.create "/a/b" [1] .persistent)).2.complete 1
      none (.create "/a/c" [2] .persistent)).2

theorem shared_reachable : shared.Reachable :=
  .step (.step (.step (.step (.step .fresh (.connect ..)) (.connect ..)) (.complete ..))
    (.complete ..)) (.complete ..)

/-- A child is made anew by another session, for itself alone, before the worker comes to it. -/
theorem populated_beside_secret : ∃ trees n e m, Walk 1 0 none "/a" trees n [] e m ∧
    m.isFilling = false ∧ m.initialized = true ∧ m.get? "/a/b" = none ∧
    (∀ t ∈ trees, t.Readable none "/a/c") ∧
    (∃ c, m.get? "/a/c" = some c) ∧ n ≤ 5 * (reached "/a" trees).card := by
  have h₀ := @Walk.start 1 0 none "/a" shared 0 shared_reachable ⟨rfl, rfl⟩ rfl (by decide)
  have h₁ := @Walk.worker _ _ _ _ _ _ 0 _ _ _ _ h₀ rfl rfl
  have h₂ := @Walk.worker _ _ _ _ _ _ 0 _ _ _ _ h₁ rfl rfl
  have h₃ := @Walk.worker _ _ _ _ _ _ 0 _ _ _ _ h₂ rfl rfl
  have h₄ := @Walk.worker _ _ _ _ _ _ 0 _ _ _ _ h₃ rfl rfl
  have h₅ := @Walk.worker _ _ _ _ _ _ 0 _ _ _ _ h₄ rfl rfl
  have h₆ := h₅.service rfl (.complete _ 2 none (.delete "/a/b" none)) ⟨rfl, rfl⟩
  have h₇ := h₆.service rfl (.complete _ 2 none (.create "/a/b" [] .persistent)) ⟨rfl, rfl⟩
  have h₈ := @Walk.worker _ _ _ _ _ _ 0 _ _ _ _ h₇ rfl rfl
  have h₉ := @Walk.worker _ _ _ _ _ _ 0 _ _ _ _ h₈ rfl rfl
  have h₁₀ := @Walk.worker _ _ _ _ _ _ 0 _ _ _ _ h₉ rfl rfl
  have h₁₁ := @Walk.worker _ _ _ _ _ _ 0 _ _ _ _ h₁₀ rfl rfl
  have h₁₂ := @Walk.worker _ _ _ _ _ _ 0 _ _ _ _ h₁₁ rfl rfl
  have h₁₃ := @Walk.worker _ _ _ _ _ _ 0 _ _ _ _ h₁₂ rfl rfl
  have h₁₄ := @Walk.worker _ _ _ _ _ _ 0 _ _ _ _ h₁₃ rfl rfl
  obtain ⟨hover, -, -, hmoves⟩ := populated_of_walk h₁₄
  obtain ⟨-, hinit, hheld⟩ := hover.resolve_left nofun
  refine ⟨_, _, _, _, h₁₄, rfl, hinit, rfl, ?_, hheld _ rfl ?_, hmoves⟩
  · decide +kernel
  · decide +kernel

/-- The same happens between the two calls for the child. The listing is refused, the whole level is
given up, and a node that could be read all the while is not held. -/
theorem unpopulated_after_refusal : ∃ trees n e m, Walk 1 0 none "/a" trees n ["/a/b"] e m ∧
    m.isFilling = false ∧ m.initialized = false ∧ (∀ t ∈ trees, t.Readable none "/a/c") ∧
    m.get? "/a/c" = none := by
  have h₀ := @Walk.start 1 0 none "/a" shared 0 shared_reachable ⟨rfl, rfl⟩ rfl (by decide)
  have h₁ := @Walk.worker _ _ _ _ _ _ 0 _ _ _ _ h₀ rfl rfl
  have h₂ := @Walk.worker _ _ _ _ _ _ 0 _ _ _ _ h₁ rfl rfl
  have h₃ := @Walk.worker _ _ _ _ _ _ 0 _ _ _ _ h₂ rfl rfl
  have h₄ := @Walk.worker _ _ _ _ _ _ 0 _ _ _ _ h₃ rfl rfl
  have h₅ := @Walk.worker _ _ _ _ _ _ 0 _ _ _ _ h₄ rfl rfl
  have h₆ := @Walk.worker _ _ _ _ _ _ 0 _ _ _ _ h₅ rfl rfl
  have h₇ := @Walk.worker _ _ _ _ _ _ 0 _ _ _ _ h₆ rfl rfl
  have h₈ := h₇.service rfl (.complete _ 2 none (.delete "/a/b" none)) ⟨rfl, rfl⟩
  have h₉ := h₈.service rfl (.complete _ 2 none (.create "/a/b" [] .persistent)) ⟨rfl, rfl⟩
  have h₁₀ := @Walk.worker _ _ _ _ _ _ 0 _ _ _ _ h₉ rfl rfl
  have h₁₁ := @Walk.worker _ _ _ _ _ _ 0 _ _ _ _ h₁₀ rfl rfl
  have h₁₂ := @Walk.worker _ _ _ _ _ _ 0 _ _ _ _ h₁₁ rfl rfl
  exact ⟨_, _, _, _, h₁₂, rfl, rfl, by decide +kernel, rfl⟩

end Replica

end KeyRegistry
