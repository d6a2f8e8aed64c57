import KeyRegistry.Proofs.Replica.Copies

/-!
# Storing and forgetting copies

At most one copy is held of each path. Dealing with the first event of the queue,
by forgetting or by reading its node again, keeps a replica backed by what is left
of the queue.
-/

namespace KeyRegistry

open KeyRegistry.Path

abbrev pathsOf (es : List Entry) : List String := es.map Entry.path

theorem pathsOf_cons (c : Entry) (es : List Entry) : pathsOf (c :: es) = c.path :: pathsOf es := rfl

namespace Replica

variable {new c : Entry} {es : List Entry} {m : Replica} {p : String}

theorem pathsOf_storeIn (new : Entry) (es : List Entry) :
    pathsOf (storeIn new es) =
      if new.path ∈ pathsOf es then pathsOf es else pathsOf es ++ [new.path] := by
  induction es with
  | nil => simp [storeIn, pathsOf]
  | cons old es ih =>
    unfold storeIn
    by_cases hp : old.path = new.path
    · have hmem : new.path ∈ pathsOf (old :: es) := by simp [hp]
      rw [if_pos hp, if_pos hmem, pathsOf_cons, pathsOf_cons]
      split_ifs
      · rw [hp]
      · rfl
    · rw [if_neg hp, pathsOf_cons, pathsOf_cons, ih]
      by_cases hmem : new.path ∈ pathsOf es
      · simp [hmem]
      · simp [hmem, Ne.symm hp]

theorem mem_pathsOf_storeIn : p ∈ pathsOf (storeIn new es) ↔ p = new.path ∨ p ∈ pathsOf es := by
  rw [pathsOf_storeIn]
  split_ifs with hmem
  · exact ⟨.inr, by rintro (rfl | h) <;> assumption⟩
  · rw [List.mem_append, List.mem_singleton, or_comm]

theorem nodup_storeIn (h : (pathsOf es).Nodup) : (pathsOf (storeIn new es)).Nodup := by
  rw [pathsOf_storeIn]
  split_ifs with hmem
  · exact h
  · simpa using h.concat hmem

/-- A copy held after storing is the new one, or an old one that does not give way to it. -/
theorem mem_storeIn (h : (pathsOf es).Nodup) (hc : c ∈ storeIn new es) :
    c = new ∨ c ∈ es ∧ (c.path = new.path → c.yieldsTo new = false) := by
  induction es with
  | nil => exact .inl (by simpa [storeIn] using hc)
  | cons old es ih =>
    rw [pathsOf_cons, List.nodup_cons] at h
    unfold storeIn at hc
    split_ifs at hc with hp hy
    · rcases List.mem_cons.1 hc with rfl | hc
      · exact .inl rfl
      · refine .inr ⟨List.mem_cons_of_mem _ hc, fun hcp => absurd ?_ h.1⟩
        exact List.mem_map.2 ⟨c, hc, hcp.trans hp.symm⟩
    · rcases List.mem_cons.1 hc with rfl | hc
      · exact .inr ⟨List.mem_cons_self, fun _ => by simpa using hy⟩
      · refine .inr ⟨List.mem_cons_of_mem _ hc, fun hcp => absurd ?_ h.1⟩
        exact List.mem_map.2 ⟨c, hc, hcp.trans hp.symm⟩
    · rcases List.mem_cons.1 hc with rfl | hc
      · exact .inr ⟨List.mem_cons_self, fun hcp => absurd hcp hp⟩
      · rcases ih h.2 hc with rfl | ⟨hmem, hy⟩
        · exact .inl rfl
        · exact .inr ⟨List.mem_cons_of_mem _ hmem, hy⟩

theorem mem_evict : c ∈ (m.evict p).entries ↔ c ∈ m.entries ∧ isWithin p c.path = false := by
  simp [evict]

theorem nodup_evict (h : (pathsOf m.entries).Nodup) : (pathsOf (m.evict p).entries).Nodup :=
  h.sublist (List.filter_sublist.map _)

theorem mem_pathsOf_evict {q : String} :
    q ∈ pathsOf (m.evict p).entries ↔ q ∈ pathsOf m.entries ∧ isWithin p q = false := by
  simp only [pathsOf, List.mem_map, mem_evict]
  constructor
  · rintro ⟨c, ⟨hc, hw⟩, rfl⟩
    exact ⟨⟨c, hc, rfl⟩, hw⟩
  · rintro ⟨⟨c, hc, rfl⟩, hw⟩
    exact ⟨c, ⟨hc, hw⟩, rfl⟩

theorem get?_eq_some_iff (h : (pathsOf m.entries).Nodup) :
    m.get? p = some c ↔ c ∈ m.entries ∧ c.path = p := by
  unfold get?
  constructor
  · intro hf
    exact ⟨List.mem_of_find?_eq_some hf, by simpa using List.find?_some hf⟩
  · rintro ⟨hc, rfl⟩
    cases hf : m.entries.find? fun e => e.path == c.path with
    | none => simpa using List.find?_eq_none.1 hf c hc
    | some d =>
      have hd := List.mem_of_find?_eq_some hf
      have hp : d.path = c.path := by simpa using List.find?_some hf
      rw [List.inj_on_of_nodup_map h hd hc hp]

end Replica

/-! ## Copies without the events of one path -/

section Lags

variable {root : String} {identity : Option String} {copies : Entry → Prop} {t : Tree}
  {queue queue' : List Event} {ev ev' : Event} {m : Replica} {p : String} {n : Node}

theorem mem_of_path_ne (h : ev' ∈ ev :: queue) (hne : ev'.path ≠ ev.path) : ev' ∈ queue :=
  (List.mem_cons.1 h).resolve_left fun he => hne (congrArg Event.path he)

/-- What is left when a path is forgotten has nothing to do with the events of that path. -/
theorem Lags.evict (h : Lags root identity (· ∈ m.entries) t queue) (hp : Valid p)
    (hleft : queue' ⊆ queue) (hrest : ∀ ev ∈ queue, ev.path ≠ p → ev ∈ queue') :
    Lags root identity (· ∈ (m.evict p).entries) t queue' where
  named ev hev := h.named ev (hleft hev)
  tracks c hc := by
    obtain ⟨hmem, hw⟩ := Replica.mem_evict.1 hc
    obtain ⟨hin, htracks⟩ := h.tracks c hmem
    refine ⟨hin, htracks.of_own fun ev hev hpath => hrest ev hev ?_⟩
    rintro rfl
    simp [← hpath, isWithin_refl hp] at hw

/-- When a node is stored as it was read, its old copy gives way, for it is not ahead of the
tree. -/
theorem Lags.store (h : Lags root identity (· ∈ m.entries) t queue) (ht : t.WellFormed)
    (hnodup : (pathsOf m.entries).Nodup) (hin : isWithin root p = true) (hn : t.node? p = some n)
    (hperm : n.acl.permits identity = true) (hleft : queue' ⊆ queue)
    (hrest : ∀ ev ∈ queue, ev.path ≠ p → ev ∈ queue') :
    Lags root identity (· ∈ (m.store ⟨p, n.data, n.stat⟩).entries) t queue' where
  named ev hev := h.named ev (hleft hev)
  tracks c hc := by
    rcases Replica.mem_storeIn hnodup hc with rfl | ⟨hmem, hkept⟩
    · exact ⟨hin, tracks_of_node ht hn hperm _⟩
    · obtain ⟨hrc, htracks⟩ := h.tracks c hmem
      have hne : c.path ≠ p := by
        intro hcp
        have hyield : c.stat.czxid = n.stat.czxid ∧ n.stat.mzxid < c.stat.mzxid := by
          simpa [Entry.yieldsTo] using hkept hcp
        obtain ⟨-, hle, -⟩ := htracks.same (by rwa [hcp]) hyield.1.symm
        omega
      exact ⟨hrc, htracks.of_own fun ev hev hpath => hrest ev hev (hpath ▸ hne)⟩

/-- A node that may not be read is none of which a copy is held. -/
theorem Lags.refused (h : Lags root identity copies t queue) (hn : t.node? p = some n)
    (hperm : n.acl.permits identity = false) (hleft : queue' ⊆ queue)
    (hrest : ∀ ev ∈ queue, (ev.path = p → ev.kind = .deleted) → ev ∈ queue') :
    Lags root identity copies t queue' where
  named ev hev := h.named ev (hleft hev)
  tracks c hc := by
    obtain ⟨hin, htracks⟩ := h.tracks c hc
    refine ⟨hin, ?_⟩
    by_cases hcp : c.path = p
    · subst hcp
      have hdiff {k : Node} (hk : t.node? c.path = some k) (hz : k.stat.czxid = c.stat.czxid) :
          False := by
        obtain rfl : n = k := by simpa [hn] using hk
        simpa [hperm] using (htracks.same hk hz).1
      refine ⟨htracks.known, fun hnot => ?_, fun hk hz => (hdiff hk hz).elim⟩
      obtain ⟨k, hk, hz⟩ := htracks.stored fun hmem => hnot (hrest _ hmem fun _ => rfl)
      exact (hdiff hk hz).elim
    · exact htracks.of_own fun ev hev hpath =>
        hrest ev hev fun hp => absurd (hpath.symm.trans hp) hcp

/-- An event that is taken to be dealt with calls for a refresh of its node. -/
theorem Lags.taken (h : Lags root identity copies t (ev :: queue)) (hk : ev.kind ≠ .deleted) :
    Lags root identity copies t (⟨.dataChanged, ev.path⟩ :: queue) where
  named ev' hmem := by
    rcases List.mem_cons.1 hmem with rfl | hmem
    · exact h.named ev List.mem_cons_self
    · exact h.named ev' (List.mem_cons_of_mem _ hmem)
  tracks c hc := by
    obtain ⟨hin, htracks⟩ := h.tracks c hc
    refine ⟨hin, htracks.mono (fun hmem => ?_) ?_⟩
    · rcases List.mem_cons.1 hmem with rfl | hmem
      · exact absurd rfl hk
      · exact List.mem_cons_of_mem _ hmem
    · rintro ⟨ev', hmem, hp, hk'⟩
      rcases List.mem_cons.1 hmem with rfl | hmem
      · exact ⟨_, List.mem_cons_self, hp, by simp⟩
      · exact ⟨ev', List.mem_cons_of_mem _ hmem, hp, hk'⟩

end Lags

/-! ## One event dealt with -/

abbrev BackedBy (root : String) (identity : Option String) (es : List Entry) :
    Tree → List Event → Prop :=
  Backed root identity (· ∈ es) (· ∈ pathsOf es)

section Events

variable {root : String} {identity : Option String} {copies copies' : Entry → Prop}
  {covered covered' : String → Prop} {t : Tree} {queue : List Event} {ev : Event} {m : Replica}
  {p : String} {n : Node}

theorem Backed.tail (h : Backed root identity copies covered t (ev :: queue))
    (hlags : Lags root identity copies' t queue)
    (hcovers : ∀ p, isWithin root p = true → t.Readable identity p → ¬Touches queue p →
      covered' p) :
    Backed root identity copies' covered' t queue where
  wellFormed := h.wellFormed
  named ev' hmem := h.named ev' (List.mem_cons_of_mem _ hmem)
  reborn p rest hsuffix := h.reborn p rest (hsuffix.trans (List.suffix_cons _ _))
  tracks := hlags.tracks
  covers := hcovers

theorem not_touches_cons {q : String} (h : ¬Touches queue q)
    (hne : ev.path = q → ev.kind = .deleted) : ¬Touches (ev :: queue) q := by
  rintro ⟨ev', hmem, hp, hk⟩
  rcases List.mem_cons.1 hmem with rfl | hmem
  · exact hk (hne hp)
  · exact h ⟨ev', hmem, hp, hk⟩

/-- A deletion is dealt with by forgetting what lies within its path. -/
theorem BackedBy.deleted (h : BackedBy root identity m.entries t (⟨.deleted, p⟩ :: queue)) :
    BackedBy root identity (m.evict p).entries t queue := by
  obtain ⟨hp, hin⟩ := h.named ⟨.deleted, p⟩ List.mem_cons_self
  refine h.tail (h.lags.evict hp (List.subset_cons_self ..) fun _ => mem_of_path_ne)
    fun q hrq hr hnot => ?_
  refine Replica.mem_pathsOf_evict.2
    ⟨h.covers q hrq hr (not_touches_cons hnot fun _ => rfl), ?_⟩
  by_contra hw
  have hborn := h.reborn p queue List.suffix_rfl q (by simpa using hw) hr.stored
  exact hnot ⟨_, hborn, rfl, by simp⟩

/-- A copy that is stored over an older state of its node replaces it. -/
theorem BackedBy.refreshed (h : BackedBy root identity m.entries t (⟨.dataChanged, p⟩ :: queue))
    (hnodup : (pathsOf m.entries).Nodup) (hn : t.node? p = some n)
    (hperm : n.acl.permits identity = true) :
    BackedBy root identity (m.store ⟨p, n.data, n.stat⟩).entries t queue := by
  obtain ⟨hp, hin⟩ := h.named ⟨.dataChanged, p⟩ List.mem_cons_self
  refine h.tail (h.lags.store h.wellFormed hnodup hin hn hperm (List.subset_cons_self ..)
    fun _ => mem_of_path_ne) fun q hrq hr hnot => ?_
  rw [Replica.entries_store, Replica.mem_pathsOf_storeIn]
  by_cases hq : q = p
  · exact .inl hq
  · exact .inr (h.covers q hrq hr (not_touches_cons hnot fun hpq => absurd hpq.symm hq))

theorem BackedBy.vanished (h : BackedBy root identity m.entries t (⟨.dataChanged, p⟩ :: queue))
    (hn : t.node? p = none) : BackedBy root identity (m.evict p).entries t queue := by
  obtain ⟨hp, hin⟩ := h.named ⟨.dataChanged, p⟩ List.mem_cons_self
  have hgone {q : String} (hr : t.Readable identity q) : isWithin p q = false := by
    by_contra hw
    obtain ⟨k, hk⟩ := h.wellFormed.stored_of_isWithin hp hr.stored (by simpa using hw)
    simp [hn] at hk
  refine h.tail (h.lags.evict hp (List.subset_cons_self ..) fun _ => mem_of_path_ne)
    fun q hrq hr hnot => ?_
  refine Replica.mem_pathsOf_evict.2 ⟨h.covers q hrq hr (not_touches_cons hnot ?_), hgone hr⟩
  rintro rfl
  obtain ⟨k, hk, -⟩ := hr
  simp [hn] at hk

theorem BackedBy.refused (h : BackedBy root identity m.entries t (⟨.dataChanged, p⟩ :: queue))
    (hn : t.node? p = some n) (hperm : n.acl.permits identity = false) :
    BackedBy root identity m.entries t queue := by
  refine h.tail (h.lags.refused hn hperm (List.subset_cons_self ..) fun ev hmem hk => ?_)
    fun q hrq hr hnot => ?_
  · rcases List.mem_cons.1 hmem with rfl | hmem
    · simp at hk
    · exact hmem
  · refine h.covers q hrq hr (not_touches_cons hnot ?_)
    rintro rfl
    obtain ⟨k, hk, hr⟩ := hr
    obtain rfl : n = k := by simpa [hn] using hk
    simp [hperm] at hr

theorem BackedBy.taken (h : BackedBy root identity m.entries t (ev :: queue))
    (hk : ev.kind ≠ .deleted) :
    BackedBy root identity m.entries t (⟨.dataChanged, ev.path⟩ :: queue) where
  wellFormed := h.wellFormed
  named := (h.lags.taken hk).named
  reborn p rest hsuffix := by
    rcases List.suffix_cons_iff.1 hsuffix with heq | hsuffix
    · simp at heq
    · exact h.reborn p rest (hsuffix.trans (List.suffix_cons _ _))
  tracks := (h.lags.taken hk).tracks
  covers p hin hr hnot := by
    refine h.covers p hin hr ?_
    rintro ⟨ev', hmem, hp, hk'⟩
    rcases List.mem_cons.1 hmem with rfl | hmem
    · exact hnot ⟨_, List.mem_cons_self, hp, by simp⟩
    · exact hnot ⟨ev', List.mem_cons_of_mem _ hmem, hp, hk'⟩

end Events

end KeyRegistry
