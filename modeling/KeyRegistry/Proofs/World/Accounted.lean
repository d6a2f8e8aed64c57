import KeyRegistry.Proofs.World.Holdings
import Mathlib.Data.List.Perm.Basic

/-!
# What is accounted for

With no start or stop running, the books hold the sessions of the centers that are started.
When they are right the live sessions, the registered watches and the ephemeral nodes are
those of the centers, none is left over and none is missing.
-/

namespace KeyRegistry

open KeyRegistry.Path

/-! ## Sessions and watches in lists -/

namespace Ensemble

variable {e : Ensemble} {k : Nat}

def living (e : Ensemble) : List Nat := e.sessions.findIdxs (fun x => x.phase == .live) 1

def watching (e : Ensemble) : List Nat :=
  (e.watches.filter fun x => x.phase == .registered).map Watch.session

theorem length_living (e : Ensemble) : e.living.length = e.activeSessions :=
  List.length_findIdxs

theorem length_watching (e : Ensemble) : e.watching.length = e.watchCount := by
  rw [watching, List.length_map, watchCount, List.countP_eq_length_filter]

theorem mem_living : k ∈ e.living ↔ e.phase k = .live := by
  unfold living phase session?
  rw [List.mem_findIdxs_iff_getElem_sub_pos]
  cases k with
  | zero => simp
  | succ k =>
    cases hx : e.sessions[k]? with
    | none => simp_all
    | some x =>
      obtain ⟨hlt, rfl⟩ := List.getElem?_eq_some_iff.1 hx
      simp [hlt]

theorem mem_watching : k ∈ e.watching ↔ ∃ i, e.WatchOf i k ∧ e.Registered i := by
  unfold watching WatchOf Registered
  simp only [List.mem_map, List.mem_filter, beq_iff_eq]
  constructor
  · rintro ⟨x, ⟨hmem, hphase⟩, hsession⟩
    obtain ⟨i, hx⟩ := List.mem_iff_getElem?.1 hmem
    exact ⟨i, ⟨x, hx, hsession⟩, x, hx, hphase⟩
  · rintro ⟨i, ⟨x, hx, hsession⟩, y, hy, hphase⟩
    obtain rfl := Option.some.inj (hx.symm.trans hy)
    exact ⟨x, ⟨List.mem_of_getElem? hx, hphase⟩, hsession⟩

/-- No session is listed twice if no two registered watches are of one session. -/
theorem nodup_watching (h : ∀ i j k, e.WatchOf i k → e.WatchOf j k → e.Registered i →
    e.Registered j → i = j) : e.watching.Nodup := by
  unfold watching
  rw [List.Nodup, List.pairwise_map, List.pairwise_filter, List.pairwise_iff_getElem]
  intro i j hi hj hlt hri hrj heq
  have hgi := List.getElem?_eq_getElem hi
  have hgj := List.getElem?_eq_getElem hj
  have hsame := h i j _ ⟨_, hgi, heq⟩ ⟨_, hgj, rfl⟩ ⟨_, hgi, by simpa using hri⟩
    ⟨_, hgj, by simpa using hrj⟩
  exact absurd hsame hlt.ne

end Ensemble

/-! ## Accounts -/

def Active.holding (a : Active) : Holding := ⟨a.session, .fed a.replica⟩

namespace World

variable {w : World} {c i k : Nat} {s : SessionId} {a : Active}

def holdings (w : World) : Books := fun c => (w.active? c).map Active.holding

def serving (w : World) : List Nat :=
  ((w.centers.filterMap Center.active).map fun a => a.session.number).filter
    fun k => (w.ensemble shared).phase k != .expired

/-- Whether the live sessions of the shared ensemble are those of the started centers that have not
expired, one for each center, the registered watches as many, one for each of these sessions, and
the ephemeral nodes all theirs. -/
structure Accounted (w : World) : Prop where
  home {c : Nat} {a : Active} : w.active? c = some a → a.session.ensemble = shared
  sessions : (w.ensemble shared).living.Perm w.serving
  watches : (w.ensemble shared).watching.Perm w.serving
  nodes {p : String} {n : Node} {k : Nat} : (w.ensemble shared).tree.node? p = some n →
    n.stat.owner = some k → k ∈ w.serving
  activeSessions : (w.ensemble shared).activeSessions = w.serving.length
  watchCount : (w.ensemble shared).watchCount = w.serving.length

theorem holdings_eq (ha : w.active? c = some a) : w.holdings c = some a.holding := by
  simp [holdings, ha]

theorem sessions_holdings (ha : w.active? c = some a) :
    Books.sessions w.holdings c = some a.session := by
  simp [Books.sessions, holdings_eq ha, Active.holding]

theorem exists_active (hc : Books.sessions w.holdings c = some s) :
    ∃ a, w.active? c = some a ∧ a.session = s := by
  cases ha : w.active? c with
  | none => simp [Books.sessions, holdings, ha] at hc
  | some a => exact ⟨a, rfl, Option.some.inj ((sessions_holdings ha).symm.trans hc)⟩

theorem mem_serving : k ∈ w.serving ↔ (∃ c a, w.active? c = some a ∧ a.session.number = k) ∧
    (w.ensemble shared).phase k ≠ .expired := by
  simp only [serving, List.mem_filter, List.mem_map, List.mem_filterMap, bne_iff_ne]
  refine and_congr_left' ⟨?_, ?_⟩
  · rintro ⟨a, ⟨x, hx, ha⟩, hk⟩
    obtain ⟨c, hc⟩ := List.mem_iff_getElem?.1 hx
    exact ⟨c, a, by simp [active?, center?, hc, ha], hk⟩
  · rintro ⟨c, a, ha, hk⟩
    obtain ⟨x, hx, ha⟩ := Option.bind_eq_some_iff.1 ha
    exact ⟨a, ⟨x, List.mem_of_getElem? hx, ha⟩, hk⟩

/-- No session is served twice if no two centers have one session. -/
theorem nodup_serving (h : ∀ c d a a', w.active? c = some a → w.active? d = some a' →
    a.session.number = a'.session.number → c = d) : w.serving.Nodup := by
  refine List.Nodup.filter _ ?_
  rw [List.Nodup, List.pairwise_map, List.pairwise_filterMap, List.pairwise_iff_getElem]
  intro i j hi hj hlt a ha a' ha' heq
  have hsame := h i j a a' (by simpa [active?, center?, hi] using ha)
    (by simpa [active?, center?, hj] using ha') heq
  exact absurd hsame hlt.ne

theorem mem_living_iff_serving (hb : Booked w.holdings w) :
    (w.ensemble shared).phase k = .live ↔ k ∈ w.serving := by
  rw [mem_serving]
  constructor
  · intro hlive
    obtain ⟨c, hc⟩ := hb.ledger.opened.1
      (show (w.ensemble shared).phase k ≠ .closed by simp [hlive])
    obtain ⟨a, ha, hsession⟩ := exists_active hc
    exact ⟨⟨c, a, ha, by rw [hsession]⟩, by simp [hlive]⟩
  · rintro ⟨⟨c, a, ha, rfl⟩, hunexpired⟩
    have hopen := hb.ledger.phase (sessions_holdings ha)
    cases hphase : (w.ensemble shared).phase a.session.number with
    | live => rfl
    | expired => exact absurd hphase hunexpired
    | closed => exact absurd hphase hopen

theorem Booked.nodup_serving (hb : Booked w.holdings w) : w.serving.Nodup := by
  refine World.nodup_serving fun c d a a' ha ha' heq => ?_
  have hc := sessions_holdings ha
  have hd := sessions_holdings ha'
  rw [SessionId.eq_of_number (hb.ledger.home hc) (hb.ledger.home hd) heq] at hc
  exact hb.ledger.single hc hd

/-- With no start running, a registered watch is that of a worker. -/
theorem Booked.exists_duty (hb : Booked w.holdings w) (hw : (w.ensemble shared).WatchOf i k)
    (hi : (w.ensemble shared).Registered i) :
    ∃ r q, w.duty? r = some q ∧ q.watch = i ∧ q.session = ⟨shared, k⟩ := by
  rcases hb.registered hi with ⟨r, q, hq, rfl⟩ | ⟨c, s, hc⟩
  · have hk := hw.eq (hb.staffed.watch hq)
    exact ⟨r, q, hq, rfl, SessionId.eq_of_number (hb.staffed.home hq) rfl hk.symm⟩
  · obtain ⟨a, -, ha⟩ := Option.map_eq_some_iff.1 hc
    cases congrArg Holding.tenure ha

theorem Booked.nodup_watching (hb : Booked w.holdings w) :
    (w.ensemble shared).watching.Nodup := by
  refine Ensemble.nodup_watching fun i j k hwi hwj hi hj => ?_
  obtain ⟨r, q, hq, rfl, hs⟩ := hb.exists_duty hwi hi
  obtain ⟨r', q', hq', rfl, hs'⟩ := hb.exists_duty hwj hj
  obtain rfl := hb.staffed.sole hq hq' (hs.trans hs'.symm)
  rw [Option.some.inj (hq.symm.trans hq')]

theorem mem_watching_iff_serving (hb : Booked w.holdings w) :
    k ∈ (w.ensemble shared).watching ↔ k ∈ w.serving := by
  rw [← mem_living_iff_serving hb, Ensemble.mem_watching]
  constructor
  · rintro ⟨i, ⟨x, hx, rfl⟩, y, hy, hphase⟩
    obtain rfl := Option.some.inj (hx.symm.trans hy)
    exact hb.reachable.watchful i x hx hphase
  · intro hlive
    obtain ⟨c, hc⟩ := hb.ledger.opened.1
      (show (w.ensemble shared).phase k ≠ .closed by simp [hlive])
    obtain ⟨a, ha, hsession⟩ := exists_active hc
    obtain ⟨u, hu, hworks, hattends⟩ := hb.keeps (holdings_eq ha)
    rw [hsession] at hworks hattends
    have hwatch := hb.staffed.watch (duty?_of_worker hu)
    rw [hworks] at hwatch
    exact ⟨u.watch, hwatch, (hattends hlive).2⟩

/-- With the books right and no start or stop running, everything is accounted for. -/
theorem Booked.accounted (hb : Booked w.holdings w) : w.Accounted := by
  have hsessions : (w.ensemble shared).living.Perm w.serving :=
    (List.perm_ext_iff_of_nodup List.nodup_findIdxs hb.nodup_serving).2 fun k =>
      Ensemble.mem_living.trans (mem_living_iff_serving hb)
  have hwatches : (w.ensemble shared).watching.Perm w.serving :=
    (List.perm_ext_iff_of_nodup hb.nodup_watching hb.nodup_serving).2 fun k =>
      mem_watching_iff_serving hb
  exact {
    home := fun ha => hb.ledger.home (sessions_holdings ha)
    sessions := hsessions
    watches := hwatches
    nodes := fun hn howner =>
      (mem_living_iff_serving hb).1 (hb.reachable.tended _ _ _ hn howner).1
    activeSessions := (Ensemble.length_living _).symm.trans hsessions.length_eq
    watchCount := (Ensemble.length_watching _).symm.trans hwatches.length_eq }

end World

end KeyRegistry
