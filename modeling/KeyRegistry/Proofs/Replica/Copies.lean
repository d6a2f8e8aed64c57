import KeyRegistry.Proofs.Tree.Ancestry
import KeyRegistry.Replica

/-!
# Copies and the events behind them

A copy of a node goes out of date by changes whose events are still in the queue
of the watch. `Backed` says what the copies held by a replica, the queue and the
tree have to do with each other, and that changes of the tree keep it so.
-/

namespace KeyRegistry

open KeyRegistry.Path

def Touches (queue : List Event) (p : String) : Prop :=
  ∃ ev ∈ queue, ev.path = p ∧ ev.kind ≠ .deleted

theorem Touches.mono {queue queue' : List Event} {p : String} (h : Touches queue p)
    (hsub : ∀ ev ∈ queue, ev.path = p → ev ∈ queue') : Touches queue' p := by
  obtain ⟨ev, hev, hp, hk⟩ := h
  exact ⟨ev, hsub ev hev hp, hp, hk⟩

/-- What a copy and its node have in common as long as the node's data is not written. -/
structure Entry.Shows (c : Entry) (n : Node) : Prop where
  data : c.data = n.data
  czxid : c.stat.czxid = n.stat.czxid
  mzxid : c.stat.mzxid = n.stat.mzxid
  version : c.stat.version = n.stat.version
  owner : c.stat.owner = n.stat.owner

theorem Entry.Shows.of_core {c : Entry} {n m : Node} (h : c.Shows n)
    (hc : Tree.core m = Tree.core n) : c.Shows m where
  data := h.data.trans (Tree.data_eq_of_core hc).symm
  czxid := h.czxid.trans (Tree.czxid_eq_of_core hc).symm
  mzxid := h.mzxid.trans (Tree.mzxid_eq_of_core hc).symm
  version := h.version.trans (Tree.version_eq_of_core hc).symm
  owner := h.owner.trans (Tree.owner_eq_of_core hc).symm

/-- A copy is not ahead of the tree, and what it misses is in the queue. -/
structure Entry.Tracks (identity : Option String) (t : Tree) (queue : List Event) (c : Entry) :
    Prop where
  known : c.stat.czxid ≤ t.zxid
  stored : ⟨.deleted, c.path⟩ ∉ queue →
    ∃ n, t.node? c.path = some n ∧ n.stat.czxid = c.stat.czxid
  same {n : Node} : t.node? c.path = some n → n.stat.czxid = c.stat.czxid →
    n.acl.permits identity = true ∧ c.stat.mzxid ≤ n.stat.mzxid ∧
      (¬Touches queue c.path → c.Shows n)

section Tracks

variable {identity : Option String} {t t' : Tree} {queue queue' : List Event} {c : Entry}
  {who : Caller} {ev : Event} {p : String} {n : Node}

theorem tracks_of_node (h : t.WellFormed) (hn : t.node? p = some n)
    (hperm : n.acl.permits identity = true) (queue : List Event) :
    Entry.Tracks identity t queue ⟨p, n.data, n.stat⟩ where
  known := h.czxid_le hn
  stored _ := ⟨n, hn, rfl⟩
  same := by
    intro m hm _
    obtain rfl : n = m := by simpa [hn] using hm
    exact ⟨hperm, Nat.le_refl _, fun _ => ⟨rfl, rfl, rfl, rfl, rfl⟩⟩

theorem Entry.Tracks.mono (h : c.Tracks identity t queue)
    (hdel : ⟨.deleted, c.path⟩ ∈ queue → ⟨.deleted, c.path⟩ ∈ queue')
    (htouch : Touches queue c.path → Touches queue' c.path) : c.Tracks identity t queue' where
  known := h.known
  stored hnot := h.stored (mt hdel hnot)
  same hn hz := by
    obtain ⟨hperm, hle, hshows⟩ := h.same hn hz
    exact ⟨hperm, hle, fun hnot => hshows (mt htouch hnot)⟩

/-- Only the events of its own path matter to a copy. -/
theorem Entry.Tracks.of_own (h : c.Tracks identity t queue)
    (hsub : ∀ ev ∈ queue, ev.path = c.path → ev ∈ queue') : c.Tracks identity t queue' :=
  h.mono (fun hmem => hsub _ hmem rfl) fun htouch => htouch.mono hsub

theorem Entry.Tracks.step (ht : t.WellFormed) (hs : Tree.Step who t ev t')
    (h : c.Tracks identity t queue) {more : List Event} (hmore : ev.path = c.path → ev ∈ more) :
    c.Tracks identity t' (queue ++ more) where
  known := by
    rw [hs.zxid]
    exact Nat.le_succ_of_le h.known
  stored hnot := by
    obtain ⟨n, hn, hz⟩ := h.stored fun hmem => hnot (List.mem_append_left _ hmem)
    have hst : t'.Stored c.path := by
      rw [hs.stored_iff ht]
      cases hk : ev.kind with
      | created => exact .inr ⟨n, hn⟩
      | dataChanged => exact ⟨n, hn⟩
      | deleted =>
        refine ⟨fun hp => hnot (List.mem_append_right _ ?_), n, hn⟩
        have hev : ev = ⟨.deleted, c.path⟩ := by rw [hp, ← hk]
        exact hev ▸ hmore hp.symm
    obtain ⟨m, hm⟩ := hst
    exact ⟨m, hm, (hs.origin_eq ht hn hm).1.trans hz⟩
  same := by
    intro m hm hz
    have hold (hnot : ¬Touches (queue ++ more) c.path) : ¬Touches queue c.path :=
      mt (fun ht => ht.mono fun _ hmem _ => List.mem_append_left _ hmem) hnot
    rcases hs.node_cases ht hm with ⟨-, n, hn, hc⟩ | ⟨hev, n, data, hn, rfl⟩ |
      ⟨-, -, -, _, _, _, _, -, -, -, -, -, rfl⟩
    · obtain ⟨hperm, hle, hshows⟩ := h.same hn ((Tree.czxid_eq_of_core hc).symm.trans hz)
      exact ⟨Tree.acl_eq_of_core hc ▸ hperm, Tree.mzxid_eq_of_core hc ▸ hle,
        fun hnot => (hshows (hold hnot)).of_core hc⟩
    · obtain ⟨hperm, hle, -⟩ := h.same hn hz
      refine ⟨hperm, Nat.le_succ_of_le (hle.trans (ht.mzxid_le hn)), fun hnot => absurd ?_ hnot⟩
      exact ⟨ev, List.mem_append_right _ (hmore (by rw [hev])), by rw [hev], by simp [hev]⟩
    · have hle := h.known
      have hz : t.zxid + 1 = c.stat.czxid := hz
      omega

end Tracks

/-! ## Copies under a root -/

abbrev within (root : String) (evs : List Event) : List Event :=
  evs.filter fun ev => isWithin root ev.path

/-- Copies under a root that miss nothing but what the queue reports. -/
structure Lags (root : String) (identity : Option String) (copies : Entry → Prop) (t : Tree)
    (queue : List Event) : Prop where
  named : ∀ ev ∈ queue, Valid ev.path ∧ isWithin root ev.path = true
  tracks : ∀ c, copies c → isWithin root c.path = true ∧ c.Tracks identity t queue

section Lags

variable {root : String} {identity : Option String} {copies copies' : Entry → Prop} {t t' : Tree}
  {queue queue' : List Event} {who : Caller} {ev : Event} {evs : List Event}

theorem Lags.step (h : Lags root identity copies t queue) (ht : t.WellFormed)
    (hs : Tree.Step who t ev t') :
    Lags root identity copies t' (queue ++ within root [ev]) where
  named ev' hmem := by
    rcases List.mem_append.1 hmem with hmem | hmem
    · exact h.named ev' hmem
    · obtain ⟨rfl, hin⟩ : ev' = ev ∧ isWithin root ev'.path = true := by simpa using hmem
      exact ⟨hs.valid_path ht, hin⟩
  tracks c hc := by
    obtain ⟨hin, htracks⟩ := h.tracks c hc
    exact ⟨hin, htracks.step ht hs fun hp => by simp [within, hp, hin]⟩

theorem Lags.steps (h : Lags root identity copies t queue) (ht : t.WellFormed)
    (hs : Tree.Steps who t evs t') :
    Lags root identity copies t' (queue ++ within root evs) := by
  induction hs generalizing queue with
  | nil => simpa using h
  | @cons t t' t'' ev evs first _ ih =>
    have hrest := ih (h.step ht first) (first.wellFormed ht)
    rwa [List.append_assoc, ← List.filter_append, List.singleton_append] at hrest

/-- The order of the queue makes no difference. -/
theorem Lags.reorder (h : Lags root identity copies t queue)
    (hmem : ∀ ev, ev ∈ queue' ↔ ev ∈ queue) : Lags root identity copies t queue' where
  named ev hev := h.named ev ((hmem ev).1 hev)
  tracks c hc := by
    obtain ⟨hin, htracks⟩ := h.tracks c hc
    exact ⟨hin, htracks.of_own fun ev hev _ => (hmem ev).2 hev⟩

/-- A copy may be added that has just been made. -/
theorem Lags.hold (h : Lags root identity copies t queue) (ht : t.WellFormed)
    (hcopies : ∀ c, copies' c → copies c ∨ isWithin root c.path = true ∧
      ∃ n, t.node? c.path = some n ∧ n.acl.permits identity = true ∧ c.data = n.data ∧
        c.stat = n.stat) : Lags root identity copies' t queue where
  named := h.named
  tracks c hc := by
    rcases hcopies c hc with hc | ⟨hin, n, hn, hperm, hdata, hstat⟩
    · exact h.tracks c hc
    · obtain ⟨path, data, stat⟩ := c
      subst hdata hstat
      exact ⟨hin, tracks_of_node ht hn hperm queue⟩

end Lags

/-! ## A replica as a whole -/

/-- What was stored within a path that the queue reports deleted, the queue reports created
again. -/
def Reborn (t : Tree) (queue : List Event) : Prop :=
  ∀ p rest, ⟨.deleted, p⟩ :: rest <:+ queue → ∀ q, isWithin p q = true → t.Stored q →
    ⟨.created, q⟩ ∈ rest

/-- The relation between a tree, the events under `root` that a replica has yet to deal with, the
copies it holds and the paths that it holds or is about to read. -/
structure Backed (root : String) (identity : Option String) (copies : Entry → Prop)
    (covered : String → Prop) (t : Tree) (queue : List Event) : Prop where
  wellFormed : t.WellFormed
  named : ∀ ev ∈ queue, Valid ev.path ∧ isWithin root ev.path = true
  reborn : Reborn t queue
  tracks : ∀ c, copies c → isWithin root c.path = true ∧ c.Tracks identity t queue
  covers : ∀ p, isWithin root p = true → t.Readable identity p → ¬Touches queue p → covered p

section Backed

variable {root : String} {identity : Option String} {copies copies' : Entry → Prop}
  {covered covered' : String → Prop} {t t' : Tree} {queue : List Event} {who : Caller}
  {ev : Event} {evs : List Event}

theorem Reborn.step (ht : t.WellFormed) (hs : Tree.Step who t ev t') (hroot : Valid root)
    (hnamed : ∀ ev ∈ queue, Valid ev.path ∧ isWithin root ev.path = true)
    (h : Reborn t queue) : Reborn t' (queue ++ within root [ev]) := by
  have hwithin {p q : String} (hp : Valid p) (hrp : isWithin root p = true)
      (hpq : isWithin p q = true) (hq : t'.Stored q) : isWithin root q = true := by
    obtain ⟨n, hn⟩ := hq
    exact isWithin_trans hroot hp ((hs.wellFormed ht).valid hn) hrp hpq
  have hnew {q : String} (hq : t'.Stored q) (hrq : isWithin root q = true) :
      t.Stored q ∨ ev = ⟨.created, q⟩ ∧ within root [ev] = [ev] := by
    obtain ⟨m, hm⟩ := hq
    rcases hs.old_or_new ht hm with hold | ⟨hev, -⟩
    · exact .inl hold
    · exact .inr ⟨hev, by simp [within, hev, hrq]⟩
  by_cases hin : isWithin root ev.path = true
  · rw [show within root [ev] = [ev] by simp [within, hin]] at hnew ⊢
    intro p rest hsuffix q hpq hq
    rcases List.suffix_concat_iff.1 hsuffix with hnil | ⟨l, hl, hold⟩
    · simp at hnil
    · cases l with
      | nil =>
        obtain ⟨rfl, rfl⟩ : (⟨.deleted, p⟩ : Event) = ev ∧ rest = [] := by simpa using hl
        exact absurd hq (hs.not_stored_of_deleted ht rfl hpq)
      | cons first l =>
        obtain ⟨rfl, rfl⟩ : (⟨.deleted, p⟩ : Event) = first ∧ rest = l ++ [ev] := by simpa using hl
        obtain ⟨hp, hrp⟩ := hnamed ⟨.deleted, p⟩ (hold.mem List.mem_cons_self)
        rcases hnew hq (hwithin hp hrp hpq hq) with hst | ⟨hev, -⟩
        · exact List.mem_append_left _ (h p l hold q hpq hst)
        · exact List.mem_append_right _ (by simp [hev])
  · rw [show within root [ev] = [] by simp [within, hin], List.append_nil]
    intro p rest hsuffix q hpq hq
    obtain ⟨hp, hrp⟩ := hnamed ⟨.deleted, p⟩ (hsuffix.mem List.mem_cons_self)
    rcases hnew hq (hwithin hp hrp hpq hq) with hst | ⟨-, habs⟩
    · exact h p rest hsuffix q hpq hst
    · simp [within, hin] at habs

theorem Backed.lags (h : Backed root identity copies covered t queue) :
    Lags root identity copies t queue :=
  ⟨h.named, h.tracks⟩

theorem Backed.step (hroot : Valid root) (h : Backed root identity copies covered t queue)
    (hs : Tree.Step who t ev t') :
    Backed root identity copies covered t' (queue ++ within root [ev]) where
  wellFormed := hs.wellFormed h.wellFormed
  named := (h.lags.step h.wellFormed hs).named
  reborn := h.reborn.step h.wellFormed hs hroot h.named
  tracks := (h.lags.step h.wellFormed hs).tracks
  covers := by
    rintro p hin ⟨m, hm, hperm⟩ hnot
    rcases hs.old_or_new h.wellFormed hm with ⟨n, hn⟩ | ⟨rfl, -⟩
    · refine h.covers p hin ⟨n, hn, ?_⟩ fun htouch =>
        hnot (htouch.mono fun _ hmem _ => List.mem_append_left _ hmem)
      rwa [← (hs.origin_eq h.wellFormed hn hm).2.1]
    · exact absurd ⟨⟨.created, p⟩, List.mem_append_right _ (by simp [hin]), rfl, by simp⟩ hnot

/-- Whatever happens to the tree, its events make up for it. -/
theorem Backed.steps (hroot : Valid root) (h : Backed root identity copies covered t queue)
    (hs : Tree.Steps who t evs t') :
    Backed root identity copies covered t' (queue ++ within root evs) := by
  induction hs generalizing queue with
  | nil => simpa using h
  | @cons t t' t'' ev evs first _ ih =>
    have hrest := ih (h.step hroot first)
    rwa [List.append_assoc, ← List.filter_append, List.singleton_append] at hrest

/-- Another view of what is held and what is about to be read, under the same queue. -/
theorem Backed.hold (h : Backed root identity copies covered t queue)
    (htracks : ∀ c, copies' c → isWithin root c.path = true ∧ c.Tracks identity t queue)
    (hcovers : ∀ p, isWithin root p = true → t.Readable identity p → ¬Touches queue p →
      covered p → covered' p) :
    Backed root identity copies' covered' t queue :=
  ⟨h.wellFormed, h.named, h.reborn, htracks, fun p hin hr hnot =>
    hcovers p hin hr hnot (h.covers p hin hr hnot)⟩

end Backed

end KeyRegistry
