import KeyRegistry.Proofs.Ensemble.Consistency
import KeyRegistry.Proofs.Replica.Store
import KeyRegistry.Replica.Worker

/-!
# Filling a replica

While a replica is filled, its level holds what has been read so far of the nodes
on it. A path that nothing has happened to since the watch was registered is held
already, or a node of the level leads to it.
-/

namespace KeyRegistry

open KeyRegistry.Path

namespace Reading

def copy? : Reading → Option (List UInt8 × Stat)
  | .dataRead bytes stat | .children bytes stat _ | .finished (some (bytes, stat, _)) =>
    some (bytes, stat)
  | _ => none

/-- Whether the reading of the node at `a`, or of a node listed under it, is to cover `p`. -/
def LeadsTo (a p : String) : Reading → Prop
  | .finished (some (_, _, names)) => a = p ∨ ∃ c ∈ names, isWithin (join a c) p = true
  | .finished none | .failed _ => False
  | _ => isWithin a p = true

/-- What is known of a reading if no call of it has failed; `permitted` says whether its node
may be read. -/
def Sound (permitted : Prop) : Reading → Prop
  | .untouched | .finished none => True
  | .data hold => hold.fault = none
  | .dataRead .. => permitted
  | .children _ _ hold => hold.fault = none ∧ permitted
  | .finished (some (_, _, names)) => ∀ c ∈ names, IsName c
  | .failed _ => False

end Reading

namespace Replica

variable {e e' : Ensemble} {s now : Nat} {a p : String} {r r' : Reading}
  {notices : List Notice} {level level' : List (String × Reading)} {permitted : Prop}

structure ReadsOn (permitted : Prop) (e : Ensemble) (s : Nat) (a : String) (r r' : Reading) :
    Prop where
  sound : r'.Sound permitted
  copy {data : List UInt8} {stat : Stat} : r'.copy? = some (data, stat) →
    r.copy? = some (data, stat) ∨ ∃ n, e.tree.node? a = some n ∧
      n.acl.permits (e.caller s).identity = true ∧ data = n.data ∧ stat = n.stat
  leads {p : String} : e.tree.Readable (e.caller s).identity p → r.LeadsTo a p → r'.LeadsTo a p

theorem readsOn_data (ht : e.tree.WellFormed) (hlive : e.phase s = .live) (ha : Valid a)
    (hperm : ∀ n, e.tree.node? a = some n →
      (n.acl.permits (e.caller s).identity = true ↔ permitted)) {hold : Hold}
    (hs : (Reading.data hold).Sound permitted)
    (hstep : stepReading now e s a (.data hold) = some (r', e', notices)) :
    e' = e ∧ ReadsOn permitted e s a (.data hold) r' := by
  have hfault : hold.fault = none := hs
  simp only [stepReading, hfault, Ensemble.complete_of_live hlive] at hstep
  split_ifs at hstep with hdue
  cases hn : e.tree.node? a with
  | none =>
    simp only [Ensemble.perform, Ensemble.readable_of_absent ha hn, Except.map, Option.some.injEq,
      Prod.mk.injEq] at hstep
    obtain ⟨rfl, rfl, -⟩ := hstep
    refine ⟨rfl, trivial, by simp [Reading.copy?], fun hr hlead => ?_⟩
    obtain ⟨n, hn'⟩ := ht.stored_of_isWithin ha hr.stored hlead
    simp [hn] at hn'
  | some n =>
    cases hp : n.acl.permits (e.caller s).identity with
    | false =>
      simp only [Ensemble.perform, Ensemble.readable_of_not_permitted ha hn hp, Except.map,
        Option.some.injEq, Prod.mk.injEq] at hstep
      obtain ⟨rfl, rfl, -⟩ := hstep
      refine ⟨rfl, trivial, by simp [Reading.copy?], fun hr hlead => ?_⟩
      obtain ⟨k, hk, hkp⟩ := ht.readable_of_isWithin ha hr hlead
      obtain rfl : n = k := by simpa [hn] using hk
      simp [hp] at hkp
    | true =>
      simp only [Ensemble.perform, Ensemble.readable_of_permitted ha hn hp, Except.map,
        Option.some.injEq, Prod.mk.injEq] at hstep
      obtain ⟨rfl, rfl, -⟩ := hstep
      refine ⟨rfl, (hperm n hn).1 hp, fun hcopy => .inr ⟨n, hn, hp, ?_⟩, fun _ hlead => hlead⟩
      simpa [Reading.copy?, eq_comm] using hcopy

theorem readsOn_children (ht : e.tree.WellFormed) (hlive : e.phase s = .live) (ha : Valid a)
    (hperm : ∀ n, e.tree.node? a = some n →
      (n.acl.permits (e.caller s).identity = true ↔ permitted)) {data : List UInt8} {stat : Stat}
    {hold : Hold} (hs : (Reading.children data stat hold).Sound permitted)
    (hstep : stepReading now e s a (.children data stat hold) = some (r', e', notices)) :
    e' = e ∧ ReadsOn permitted e s a (.children data stat hold) r' := by
  obtain ⟨hfault, hpermitted⟩ : hold.fault = none ∧ permitted := hs
  simp only [stepReading, hfault, Ensemble.complete_of_live hlive] at hstep
  split_ifs at hstep with hdue
  cases hn : e.tree.node? a with
  | none =>
    simp only [Ensemble.perform, Ensemble.readable_of_absent ha hn, Except.map, Option.some.injEq,
      Prod.mk.injEq] at hstep
    obtain ⟨rfl, rfl, -⟩ := hstep
    refine ⟨rfl, by simp [Reading.Sound], .inl, fun hr hlead => ?_⟩
    obtain ⟨n, hn'⟩ := ht.stored_of_isWithin ha hr.stored hlead
    simp [hn] at hn'
  | some n =>
    have hp := (hperm n hn).2 hpermitted
    simp only [Ensemble.perform, Ensemble.readable_of_permitted ha hn hp, Except.map,
      Option.some.injEq, Prod.mk.injEq] at hstep
    obtain ⟨rfl, rfl, -⟩ := hstep
    refine ⟨rfl, fun c hc => ((ht.mem_children_iff hn c).1 hc).1, .inl, fun {p} hr hlead => ?_⟩
    by_cases hap : a = p
    · exact .inl hap
    · obtain ⟨c, hc, -, hcw⟩ := ht.exists_child_toward hn hr.stored hlead hap
      exact .inr ⟨c, hc, hcw⟩

theorem readsOn_of_stepReading (ht : e.tree.WellFormed) (hlive : e.phase s = .live)
    (hpending : e.faults.pending = []) (ha : Valid a)
    (hperm : ∀ n, e.tree.node? a = some n →
      (n.acl.permits (e.caller s).identity = true ↔ permitted))
    (hs : r.Sound permitted) (hstep : stepReading now e s a r = some (r', e', notices)) :
    e' = e ∧ ReadsOn permitted e s a r r' := by
  cases r with
  | untouched =>
    simp only [stepReading, Ensemble.accept_of_live hlive hpending, Option.some.injEq,
      Prod.mk.injEq] at hstep
    obtain ⟨rfl, rfl, -⟩ := hstep
    exact ⟨rfl, rfl, by simp [Reading.copy?], fun _ hlead => hlead⟩
  | data hold => exact readsOn_data ht hlive ha hperm hs hstep
  | dataRead data stat =>
    simp only [stepReading, Ensemble.accept_of_live hlive hpending, Option.some.injEq,
      Prod.mk.injEq] at hstep
    obtain ⟨rfl, rfl, -⟩ := hstep
    exact ⟨rfl, ⟨rfl, hs⟩, .inl, fun _ hlead => hlead⟩
  | children data stat hold => exact readsOn_children ht hlive ha hperm hs hstep
  | finished found => simp [stepReading] at hstep
  | failed error => simp [stepReading] at hstep

/-- One move on a level is one move of one of its readings. -/
theorem stepLevel_cases (h : stepLevel now e s level = some (level', e', notices)) :
    ∃ before a r r' after, level = before ++ (a, r) :: after ∧
      stepReading now e s a r = some (r', e', notices) ∧
      level' = before ++ (a, r') :: after := by
  induction level generalizing level' e' notices with
  | nil => simp [stepLevel] at h
  | cons first level ih =>
    obtain ⟨a, r⟩ := first
    unfold stepLevel at h
    split at h
    · rename_i r' e'' notices' hr
      obtain ⟨rfl, rfl, rfl⟩ : (a, r') :: level = level' ∧ e'' = e' ∧ notices' = notices := by
        simpa using h
      exact ⟨[], a, r, r', level, rfl, hr, rfl⟩
    · obtain ⟨⟨rest, e'', notices'⟩, hrest, hmap⟩ := Option.map_eq_some_iff.1 h
      obtain ⟨rfl, rfl, rfl⟩ : (a, r) :: rest = level' ∧ e'' = e' ∧ notices' = notices := by
        simpa using hmap
      obtain ⟨before, b, q, q', after, rfl, hstep, rfl⟩ := ih hrest
      exact ⟨(a, r) :: before, b, q, q', after, rfl, hstep, rfl⟩

/-! ## Levels -/

def Copied (es : List Entry) (level : List (String × Reading)) (c : Entry) : Prop :=
  c ∈ es ∨ ∃ r, (c.path, r) ∈ level ∧ r.copy? = some (c.data, c.stat)

/-- What is on a level after one of its readings has moved. -/
theorem mem_level_moved {before after : List (String × Reading)} {b : String} {q : Reading}
    (h : (b, q) ∈ before ++ (a, r') :: after) :
    (b, q) ∈ before ++ (a, r) :: after ∨ b = a ∧ q = r' := by
  rw [List.mem_append, List.mem_cons] at h
  rcases h with h | h | h
  · exact .inl (by simp [h])
  · exact .inr (Prod.ext_iff.1 h)
  · exact .inl (by simp [h])

theorem copied_moved {es : List Entry} {before after : List (String × Reading)} {c : Entry}
    (h : Copied es (before ++ (a, r') :: after) c) :
    Copied es (before ++ (a, r) :: after) c ∨
      c.path = a ∧ r'.copy? = some (c.data, c.stat) := by
  rcases h with h | ⟨q, hmem, hcopy⟩
  · exact .inl (.inl h)
  · rcases mem_level_moved hmem with hmem | ⟨ha, rfl⟩
    · exact .inl (.inr ⟨q, hmem, hcopy⟩)
    · exact .inr ⟨ha, hcopy⟩

def Covered (es : List Entry) (level : List (String × Reading)) (p : String) : Prop :=
  p ∈ pathsOf es ∨ ∃ a r, (a, r) ∈ level ∧ r.LeadsTo a p

theorem covered_moved {es : List Entry} {before after : List (String × Reading)}
    (h : Covered es (before ++ (a, r) :: after) p) (hleads : r.LeadsTo a p → r'.LeadsTo a p) :
    Covered es (before ++ (a, r') :: after) p := by
  rcases h with hp | ⟨b, q, hmem, hlead⟩
  · exact .inl hp
  · rcases mem_level_moved (r := r') hmem with hmem | ⟨rfl, rfl⟩
    · exact .inr ⟨b, q, hmem, hlead⟩
    · exact .inr ⟨b, r', by simp, hleads hlead⟩

structure Fills (root : String) (identity : Option String) (permitted : String → Prop)
    (es : List Entry) (level : List (String × Reading)) (t : Tree) (queue : List Event) :
    Prop where
  backed : Backed root identity (Copied es level) (Covered es level) t queue
  nodup : (pathsOf es).Nodup
  sound {a : String} {r : Reading} : (a, r) ∈ level →
    Valid a ∧ isWithin root a = true ∧ r.Sound (permitted a)

section Fills

variable {root : String} {identity : Option String} {allowed : String → Prop} {es : List Entry}
  {t t' : Tree} {queue : List Event} {evs : List Event} {who : Caller} {m : Replica}
  {found : List (String × Option (List UInt8 × Stat × List String))}

theorem Fills.steps (hroot : Valid root) (h : Fills root identity allowed es level t queue)
    (hs : Tree.Steps who t evs t') :
    Fills root identity allowed es level t' (queue ++ within root evs) :=
  ⟨h.backed.steps hroot hs, h.nodup, h.sound⟩

/-- A filling that begins is to cover everything under its root. -/
theorem fills_root (ht : t.WellFormed) (hroot : Valid root) :
    Fills root identity allowed [] [(root, .untouched)] t [] where
  backed :=
    { wellFormed := ht
      named := by simp
      reborn := by simp [Reborn]
      tracks := by simp [Copied, Reading.copy?]
      covers := fun p hp _ _ => .inr ⟨root, .untouched, by simp, hp⟩ }
  nodup := by simp
  sound {a r} hmem := by
    obtain ⟨rfl, rfl⟩ : a = root ∧ r = .untouched := by simpa using hmem
    exact ⟨hroot, isWithin_refl hroot, trivial⟩

theorem Fills.readsOn {before after : List (String × Reading)}
    (h : Fills root (e.caller s).identity allowed es (before ++ (a, r) :: after) e.tree queue)
    (hreads : ReadsOn (allowed a) e s a r r') :
    Fills root (e.caller s).identity allowed es (before ++ (a, r') :: after) e.tree queue where
  backed := by
    refine h.backed.hold (fun c hc => ?_) fun p hin hr hnot hcov => ?_
    · rcases copied_moved (r := r) hc with hc | ⟨ha, hcopy⟩
      · exact h.backed.tracks c hc
      · rcases hreads.copy hcopy with hold | ⟨n, hn, hperm, hdata, hstat⟩
        · exact h.backed.tracks c (.inr ⟨r, by simp [ha], hold⟩)
        · obtain ⟨path, data, stat⟩ := c
          subst ha hdata hstat
          exact ⟨(h.sound (r := r) (by simp)).2.1,
            tracks_of_node h.backed.wellFormed hn hperm queue⟩
    · exact covered_moved hcov (hreads.leads hr)
  nodup := h.nodup
  sound {b q} hmem := by
    rcases mem_level_moved (r := r) hmem with hmem | ⟨rfl, rfl⟩
    · exact h.sound hmem
    · obtain ⟨hb, hin, -⟩ := h.sound (a := b) (r := r) (by simp)
      exact ⟨hb, hin, hreads.sound⟩

/-- A failure that ends a level is that of one of its readings. -/
theorem mem_of_failureOf {error : ServiceError} (h : failureOf level = some error) :
    ∃ a, (a, .failed error) ∈ level := by
  have hfailed {f : String × Reading} (hmem : f ∈ level) (hf : f.2.failure? = some error) :
      ∃ a, (a, .failed error) ∈ level := by
    obtain ⟨a, r⟩ := f
    cases r <;> simp only [Reading.failure?, Option.some.injEq, reduceCtorEq] at hf
    subst hf
    exact ⟨a, hmem⟩
  unfold failureOf at h
  split_ifs at h
  · obtain ⟨f, hmem, hf⟩ := List.exists_of_findSome?_eq_some h
    exact hfailed hmem hf
  · obtain ⟨f, hfind, hf⟩ := Option.bind_eq_some_iff.1 h
    exact hfailed (List.mem_of_find?_eq_some hfind) hf

theorem failureOf_of_sound (h : ∀ a r, (a, r) ∈ level → r.Sound (allowed a)) :
    failureOf level = none := by
  cases hfailure : failureOf level with
  | none => rfl
  | some error =>
    obtain ⟨a, hmem⟩ := mem_of_failureOf hfailure
    exact (h a _ hmem).elim

theorem eq_of_finishedLevel (h : finishedLevel level = some found) :
    level = found.map fun f => (f.1, .finished f.2) := by
  induction level generalizing found with
  | nil =>
    obtain rfl : [] = found := by simpa [finishedLevel] using h
    rfl
  | cons first level ih =>
    obtain ⟨a, r⟩ := first
    cases r with
    | finished x =>
      obtain ⟨rest, hrest, rfl⟩ := Option.map_eq_some_iff.1 h
      rw [ih hrest]
      rfl
    | _ => simp [finishedLevel] at h

@[simp] theorem root_storeLevel (m : Replica)
    (found : List (String × Option (List UInt8 × Stat × List String))) :
    (m.storeLevel found).root = m.root := by
  induction found generalizing m with
  | nil => rfl
  | cons f found ih =>
    obtain ⟨a, x⟩ := f
    cases x with
    | none => exact ih m
    | some x => exact ih (m.store _)

theorem phase_storeLevel (m : Replica)
    (found : List (String × Option (List UInt8 × Stat × List String))) :
    (m.storeLevel found).phase = m.phase := by
  induction found generalizing m with
  | nil => rfl
  | cons f found ih =>
    obtain ⟨a, x⟩ := f
    cases x with
    | none => exact ih m
    | some x => exact ih (m.store _)

theorem nodup_storeLevel (h : (pathsOf m.entries).Nodup) :
    (pathsOf (m.storeLevel found).entries).Nodup := by
  induction found generalizing m with
  | nil => exact h
  | cons f found ih =>
    obtain ⟨a, x⟩ := f
    cases x with
    | none => exact ih h
    | some x => exact ih (m := m.store _) (nodup_storeIn h)

theorem mem_storeLevel (h : (pathsOf m.entries).Nodup) {c : Entry}
    (hc : c ∈ (m.storeLevel found).entries) :
    c ∈ m.entries ∨ ∃ names, (c.path, some (c.data, c.stat, names)) ∈ found := by
  induction found generalizing m with
  | nil => exact .inl hc
  | cons f found ih =>
    obtain ⟨a, x⟩ := f
    cases x with
    | none =>
      rcases ih h hc with hmem | ⟨names, hmem⟩
      · exact .inl hmem
      · exact .inr ⟨names, List.mem_cons_of_mem _ hmem⟩
    | some x =>
      obtain ⟨data, stat, names⟩ := x
      rcases ih (m := m.store _) (nodup_storeIn h) hc with hmem | ⟨names, hmem⟩
      · rcases mem_storeIn h hmem with rfl | ⟨hmem, -⟩
        · exact .inr ⟨names, List.mem_cons_self⟩
        · exact .inl hmem
      · exact .inr ⟨names, List.mem_cons_of_mem _ hmem⟩

theorem mem_pathsOf_storeLevel :
    p ∈ pathsOf (m.storeLevel found).entries ↔
      p ∈ pathsOf m.entries ∨ ∃ x, (p, some x) ∈ found := by
  induction found generalizing m with
  | nil => simp [storeLevel]
  | cons f found ih =>
    obtain ⟨a, x⟩ := f
    cases x with
    | none => simpa [storeLevel] using ih
    | some x =>
      obtain ⟨data, stat, names⟩ := x
      rw [storeLevel, ih, entries_store, mem_pathsOf_storeIn]
      constructor
      · rintro ((rfl | hp) | ⟨x, hx⟩)
        · exact .inr ⟨_, List.mem_cons_self⟩
        · exact .inl hp
        · exact .inr ⟨x, List.mem_cons_of_mem _ hx⟩
      · rintro (hp | ⟨x, hx⟩)
        · exact .inl (.inr hp)
        · rcases List.mem_cons.1 hx with hx | hx
          · exact .inl (.inl (Prod.ext_iff.1 hx).1)
          · exact .inr ⟨x, hx⟩

theorem mem_nextLevel : (a, r) ∈ nextLevel found ↔ r = .untouched ∧
    ∃ q data stat names, (q, some (data, stat, names)) ∈ found ∧ ∃ c ∈ names, a = join q c := by
  unfold nextLevel
  rw [List.mem_flatMap]
  constructor
  · rintro ⟨⟨q, x⟩, hmem, ha⟩
    cases x with
    | none => simp at ha
    | some x =>
      obtain ⟨c, hc, heq⟩ := List.mem_map.1 ha
      obtain ⟨rfl, rfl⟩ := Prod.ext_iff.1 heq
      exact ⟨rfl, q, x.1, x.2.1, x.2.2, hmem, c, hc, rfl⟩
  · rintro ⟨rfl, q, data, stat, names, hmem, c, hc, rfl⟩
    exact ⟨_, hmem, List.mem_map.2 ⟨c, hc, rfl⟩⟩

/-- What is held after a level has been stored was held or read before. -/
theorem copied_storeLevel (h : (pathsOf m.entries).Nodup) {c : Entry}
    (hc : Copied (m.storeLevel found).entries (nextLevel found) c) :
    Copied m.entries (found.map fun f => (f.1, .finished f.2)) c := by
  rcases hc with hc | ⟨r, hmem, hcopy⟩
  · rcases mem_storeLevel h hc with hc | ⟨names, hmem⟩
    · exact .inl hc
    · exact .inr ⟨_, List.mem_map.2 ⟨_, hmem, rfl⟩, rfl⟩
  · obtain ⟨rfl, -⟩ := mem_nextLevel.1 hmem
    simp [Reading.copy?] at hcopy

/-- The paths of the next level are those of nodes under the root. -/
theorem within_nextLevel (hroot : Valid root)
    (h : ∀ q data stat names, (q, some (data, stat, names)) ∈ found →
      Valid q ∧ isWithin root q = true ∧ ∀ c ∈ names, IsName c)
    (hmem : (a, r) ∈ nextLevel found) : Valid a ∧ isWithin root a = true ∧ r = .untouched := by
  obtain ⟨rfl, q, data, stat, names, hx, c, hc, rfl⟩ := mem_nextLevel.1 hmem
  obtain ⟨hq, hin, hnames⟩ := h q data stat names hx
  have hjoin := valid_join hq (hnames c hc)
  exact ⟨hjoin, isWithin_trans hroot hq hjoin hin (isWithin_join hq (hnames c hc)), rfl⟩

/-- A finished level is stored, and the next one is to cover what lies below it. -/
theorem covered_storeLevel (h : Covered m.entries (found.map fun f => (f.1, .finished f.2)) p) :
    Covered (m.storeLevel found).entries (nextLevel found) p := by
  rcases h with hp | ⟨b, q, hmem, hlead⟩
  · exact .inl (mem_pathsOf_storeLevel.2 (.inl hp))
  · obtain ⟨⟨q, x⟩, hx, heq⟩ := List.mem_map.1 hmem
    obtain ⟨rfl, rfl⟩ := Prod.ext_iff.1 heq
    cases x with
    | none => exact hlead.elim
    | some x =>
      rcases hlead with rfl | ⟨c, hc, hcw⟩
      · exact .inl (mem_pathsOf_storeLevel.2 (.inr ⟨x, hx⟩))
      · exact .inr ⟨join q c, .untouched,
          mem_nextLevel.2 ⟨rfl, q, x.1, x.2.1, x.2.2, hx, c, hc, rfl⟩, hcw⟩

theorem Fills.storeLevel (hroot : Valid root)
    (h : Fills root identity allowed m.entries (found.map fun f => (f.1, .finished f.2)) t queue) :
    Fills root identity allowed (m.storeLevel found).entries (nextLevel found) t queue where
  backed := h.backed.hold (fun c hc => h.backed.tracks c (copied_storeLevel h.nodup hc))
    fun _ _ _ _ => covered_storeLevel
  nodup := nodup_storeLevel h.nodup
  sound hmem := by
    obtain ⟨ha, hin, rfl⟩ := within_nextLevel hroot
      (fun q data stat names hx => h.sound (List.mem_map.2 ⟨_, hx, rfl⟩)) hmem
    exact ⟨ha, hin, trivial⟩

theorem Fills.backedBy (h : Fills root identity allowed es [] t queue) :
    BackedBy root identity es t queue :=
  h.backed.hold (fun c hc => h.backed.tracks c (.inl hc)) fun p _ _ _ hcov => by
    rcases hcov with hp | ⟨_, _, hmem, -⟩
    · exact hp
    · simp at hmem

end Fills

end Replica

end KeyRegistry
