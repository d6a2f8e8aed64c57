import KeyRegistry.Center.Strict
import KeyRegistry.Proofs.Replica.Feeding
import KeyRegistry.Proofs.Task.Asking

/-!
# Convergence of a replica

Once a replica has been filled and the queue of its watch is empty, it holds a
copy of exactly the nodes under its root that its session may read, and whoever
reads from the replica is told what the service would have told.
-/

namespace KeyRegistry

open KeyRegistry.Path

namespace Replica

variable {m : Replica} {root : String} {identity : Option String} {t : Tree} {p : String}
  {n : Node} {c : Entry}

structure Mirrors (m : Replica) (root : String) (identity : Option String) (t : Tree) : Prop where
  nodup : (pathsOf m.entries).Nodup
  sound {c : Entry} : c ∈ m.entries → isWithin root c.path = true ∧
    ∃ n, t.node? c.path = some n ∧ n.acl.permits identity = true ∧ c.Shows n
  complete {p : String} : isWithin root p = true → t.Readable identity p → p ∈ pathsOf m.entries

theorem mirrors_of_backedBy (hnodup : (pathsOf m.entries).Nodup)
    (h : BackedBy root identity m.entries t []) : m.Mirrors root identity t where
  nodup := hnodup
  sound {c} hc := by
    obtain ⟨hin, htracks⟩ := h.tracks c hc
    obtain ⟨n, hn, hz⟩ := htracks.stored (by simp)
    obtain ⟨hperm, -, hshows⟩ := htracks.same hn hz
    exact ⟨hin, n, hn, hperm, hshows (by simp [Touches])⟩
  complete hin hr := h.covers _ hin hr (by simp [Touches])

/-! ## The children that are held -/

theorem bornBefore_trans (a b c : Entry) (hab : bornBefore a b = true)
    (hbc : bornBefore b c = true) : bornBefore a c = true := by
  simp only [bornBefore, Bool.or_eq_true, decide_eq_true_eq, Bool.and_eq_true, beq_iff_eq] at *
  rcases hab with hab | ⟨hab, hname⟩ <;> rcases hbc with hbc | ⟨hbc, hname'⟩
  · exact .inl (by omega)
  · exact .inl (by omega)
  · exact .inl (by omega)
  · exact .inr ⟨hab.trans hbc, String.le_trans hname hname'⟩

theorem bornBefore_total (a b : Entry) : (bornBefore a b || bornBefore b a) = true := by
  simp only [bornBefore, Bool.or_eq_true, decide_eq_true_eq, Bool.and_eq_true, beq_iff_eq]
  rcases Nat.lt_trichotomy a.stat.czxid b.stat.czxid with h | h | h
  · exact .inl (.inl h)
  · rcases String.le_total (nodeName a.path) (nodeName b.path) with hname | hname
    · exact .inl (.inr ⟨h, hname⟩)
    · exact .inr (.inr ⟨h.symm, hname⟩)
  · exact .inr (.inl h)

theorem czxid_le_of_bornBefore {a b : Entry} (h : bornBefore a b = true) :
    a.stat.czxid ≤ b.stat.czxid := by
  simp only [bornBefore, Bool.or_eq_true, decide_eq_true_eq, Bool.and_eq_true, beq_iff_eq] at h
  omega

def childEntries (m : Replica) (p : String) : List Entry :=
  (m.entries.filter fun e => parent? e.path == some p).mergeSort bornBefore

theorem mem_childEntries : c ∈ m.childEntries p ↔ c ∈ m.entries ∧ parent? c.path = some p := by
  simp [childEntries]

theorem childEntries_ordered (m : Replica) (p : String) :
    (m.childEntries p).Pairwise fun a b => a.stat.czxid ≤ b.stat.czxid :=
  (List.pairwise_mergeSort bornBefore_trans bornBefore_total _).imp czxid_le_of_bornBefore

theorem nodup_childEntries (h : (pathsOf m.entries).Nodup) : (m.childEntries p).Nodup :=
  ((List.Nodup.of_map _ h).filter _).perm (List.mergeSort_perm _ _).symm

/-- Two copies that a mirror holds are of nodes created one after the other. -/
theorem Mirrors.czxid_lt (ht : t.WellFormed) (h : m.Mirrors root identity t) {a b : Entry}
    (ha : a ∈ m.entries) (hb : b ∈ m.entries) (hne : a ≠ b)
    (hle : a.stat.czxid ≤ b.stat.czxid) : a.stat.czxid < b.stat.czxid := by
  refine Nat.lt_of_le_of_ne hle fun heq => hne ?_
  obtain ⟨-, n, hn, -, hshows⟩ := h.sound ha
  obtain ⟨-, k, hk, -, hshows'⟩ := h.sound hb
  have hpath := ht.czxid_injective hn hk (by rw [← hshows.czxid, ← hshows'.czxid, heq])
  exact List.inj_on_of_nodup_map h.nodup ha hb hpath

def OlderChild (t : Tree) (p a b : String) : Prop :=
  ∃ i j, t.node? (join p a) = some i ∧ t.node? (join p b) = some j ∧ i.stat.czxid < j.stat.czxid

theorem olderChild_asymm {a b : String} (h : OlderChild t p a b) : ¬OlderChild t p b a := by
  obtain ⟨i, j, hi, hj, hlt⟩ := h
  rintro ⟨j', i', hj', hi', hlt'⟩
  rw [hi] at hi'
  rw [hj] at hj'
  obtain rfl := Option.some.inj hi'
  obtain rfl := Option.some.inj hj'
  omega

theorem olderChild_children (ht : t.WellFormed) (hn : t.node? p = some n) :
    n.children.Pairwise (OlderChild t p) := by
  refine (ht.children_ordered hn).imp_of_mem fun {a b} ha hb hab => ?_
  obtain ⟨-, i, hi⟩ := (ht.mem_children_iff hn a).1 ha
  obtain ⟨-, j, hj⟩ := (ht.mem_children_iff hn b).1 hb
  exact ⟨i, j, hi, hj, hab i j hi hj⟩

theorem Mirrors.path_eq (ht : t.WellFormed) (h : m.Mirrors root identity t)
    (hc : c ∈ m.childEntries p) : join p (nodeName c.path) = c.path := by
  obtain ⟨hmem, hparent⟩ := mem_childEntries.1 hc
  obtain ⟨-, n, hn, -⟩ := h.sound hmem
  exact ((parent?_eq_some_iff (ht.valid hn)).1 hparent).2.2

theorem Mirrors.olderChild_names (ht : t.WellFormed) (h : m.Mirrors root identity t) :
    ((m.childEntries p).map fun e => nodeName e.path).Pairwise (OlderChild t p) := by
  have hordered := (m.childEntries_ordered p).and (nodup_childEntries h.nodup)
  refine List.pairwise_map.2 (hordered.imp_of_mem fun {a b} ha hb hab => ?_)
  have hamem := (mem_childEntries.1 ha).1
  have hbmem := (mem_childEntries.1 hb).1
  obtain ⟨-, i, hi, -, hshows⟩ := h.sound hamem
  obtain ⟨-, j, hj, -, hshows'⟩ := h.sound hbmem
  have hlt := h.czxid_lt ht hamem hbmem hab.2 hab.1
  refine ⟨i, j, ?_, ?_, ?_⟩
  · rwa [h.path_eq ht ha]
  · rwa [h.path_eq ht hb]
  · rwa [← hshows.czxid, ← hshows'.czxid]

/-- The children that are held are those of the service, in its order, as far as they may be
read. -/
theorem Mirrors.children_eq (ht : t.WellFormed) (hroot : Valid root)
    (h : m.Mirrors root identity t) (hin : isWithin root p = true) (hn : t.node? p = some n)
    {f : String → Bool} (hf : ∀ c ∈ n.children, f c = true ↔ t.Readable identity (join p c)) :
    m.children p = n.children.filter f := by
  have hp := ht.valid hn
  have hnames := h.olderChild_names (p := p) ht
  have hlisted : (n.children.filter f).Pairwise (OlderChild t p) :=
    (olderChild_children ht hn).filter _
  have hne {a b : String} (hab : OlderChild t p a b) : a ≠ b := by
    rintro rfl
    exact olderChild_asymm hab hab
  have hperm : (m.children p).Perm (n.children.filter f) := by
    refine (List.perm_ext_iff_of_nodup (hnames.imp hne) (hlisted.imp hne)).2 fun c => ?_
    rw [List.mem_map, List.mem_filter]
    constructor
    · rintro ⟨b, hb, rfl⟩
      obtain ⟨hmem, hparent⟩ := mem_childEntries.1 hb
      obtain ⟨-, k, hk, hkperm, -⟩ := h.sound hmem
      have hlist := ht.nodeName_mem_children hk hparent hn
      exact ⟨hlist, (hf _ hlist).2 ⟨k, by rwa [h.path_eq ht hb], hkperm⟩⟩
    · rintro ⟨hlist, hread⟩
      obtain ⟨hname, -⟩ := (ht.mem_children_iff hn c).1 hlist
      have hwithin := isWithin_trans hroot hp (valid_join hp hname) hin (isWithin_join hp hname)
      obtain ⟨b, hb, hpath⟩ := List.mem_map.1 (h.complete hwithin ((hf c hlist).1 hread))
      refine ⟨b, mem_childEntries.2 ⟨hb, by rw [hpath, parent?_join hp hname]⟩, ?_⟩
      rw [hpath, nodeName_join hp hname]
  exact hperm.eq_of_pairwise (fun a b _ _ hab hba => (olderChild_asymm hab hba).elim) hnames
    hlisted

end Replica

/-! ## Reading a key -/

namespace Key

def textOf : Except ServiceError (List UInt8 × Stat) → Except RegistryError (Option String)
  | .ok (data, _) => .ok (some (Text.Utf8.decodeLossy data))
  | .error (.noNode _) => .ok none
  | .error e => .error (.service e)

theorem read_eq (full : String) :
    read full = .call (.getData full) fun answer => .done (textOf answer) := by
  show Dialogue.call (.getData full) _ = _
  congr 1
  funext answer
  match answer with
  | .ok (data, stat) => rfl
  | .error error => cases error <;> rfl

/-- Reading a key over a calm session, while nothing but the clock goes on, yields what the
service holds. -/
theorem ends_read {w : World} {s : SessionId} {e : Ensemble} (hcalm : w.CalmAt s e)
    (full : String) :
    Task.Ends World.later (fun text _ => text = textOf (e.perform s.number (.getData full)).1) w
      (Task.say s (read full)) := by
  have hends := Task.ends_ask hcalm.1 (.getData full) textOf
  rw [read_eq]
  rwa [Ensemble.call_of_live hcalm.2.live hcalm.2.unfaulted] at hends

end Key

namespace Center

variable {w : World} {c : Nat} {key full : String} {active : Active} {e : Ensemble}

theorem ends_getDirectly (hplace : place w c key = .ok (active, full))
    (hcalm : w.CalmAt active.session e) :
    Task.Ends World.later
      (fun text _ => text = Key.textOf (e.perform active.session.number (.getData full)).1) w
      (getDirectly c key) := by
  refine Task.ends_look w.stable_later ⟨w.now, rfl⟩ fun v hv => ?_
  obtain ⟨now, rfl⟩ := hv
  rw [show place { w with now := now } c key = .ok (active, full) from hplace]
  exact Key.ends_read (w := { w with now := now }) hcalm full

/-- A key is read from the copy that the replica holds of its node, or else with one call. -/
theorem ends_get_of_held (hplace : place w c key = .ok (active, full))
    (he : w.ensembles[active.session.ensemble]? = some e) {m : Replica}
    (hm : w.replica? active.replica = some m) :
    Task.Ends World.later
      (fun text _ => text = match m.get? full with
        | some entry => .ok (some (Text.Utf8.decodeLossy entry.data))
        | none => Key.textOf (e.call 0 active.session.number (.getData full)).1) w
      (get c key) := by
  refine Task.ends_look w.stable_later ⟨w.now, rfl⟩ fun v hv => ?_
  obtain ⟨now, rfl⟩ := hv
  rw [show place { w with now := now } c key = .ok (active, full) from hplace]
  refine Task.ends_look w.stable_later ⟨now, rfl⟩ fun v hv => ?_
  obtain ⟨now, rfl⟩ := hv
  rw [show ({ w with now := now } : World).replica? active.replica = some m from hm,
    Option.bind_some]
  cases hentry : m.get? full with
  | none =>
    dsimp only
    rw [Key.read_eq]
    exact Task.ends_ask (w := { w with now := now }) he (.getData full) Key.textOf
  | some entry => exact .done rfl

theorem ends_get (hplace : place w c key = .ok (active, full))
    (hcalm : w.CalmAt active.session e) {m : Replica} (hm : w.replica? active.replica = some m)
    (hmirror : ∀ entry, m.get? full = some entry →
      ∃ stat, (e.perform active.session.number (.getData full)).1 = .ok (entry.data, stat)) :
    Task.Ends World.later
      (fun text _ => text = Key.textOf (e.perform active.session.number (.getData full)).1) w
      (get c key) := by
  refine (ends_get_of_held hplace hcalm.1 hm).weaken ?_
  rintro text - rfl
  cases hentry : m.get? full with
  | none => rw [Ensemble.call_of_live hcalm.2.live hcalm.2.unfaulted]
  | some entry =>
    obtain ⟨stat, hread⟩ := hmirror entry hentry
    rw [hread]
    rfl

end Center

/-! ## The mirror at rest -/

namespace Replica

variable {e : Ensemble} {m : Replica} {s i : Nat} {root : String} {identity : Option String}
  {walk : List Tree}

/-- No node under the root has changed hands from one of the trees to another. -/
def SameOwners (root : String) (walk : List Tree) : Prop :=
  ∀ t ∈ walk, ∀ t' ∈ walk, ∀ p n n', isWithin root p = true → t.node? p = some n →
    t'.node? p = some n' → n.acl = n'.acl

theorem permitted_of_sameOwners (h : SameOwners root walk) :
    ∀ t ∈ walk, Permitted root identity
      (fun p => ∃ t ∈ walk, ∃ n, t.node? p = some n ∧ n.acl.permits identity = true) t := by
  intro t ht p n hin hn
  refine ⟨fun hperm => ⟨t, ht, n, hn, hperm⟩, ?_⟩
  rintro ⟨t', ht', n', hn', hperm⟩
  rwa [h t ht t' ht' p n n' hin hn hn']

theorem Course.mirrors (h : Course s i identity root walk e m) (hsame : SameOwners root walk)
    {w : Worker} (hworker : m.worker = some w) (hlistening : w.activity = .listening)
    {watch : Watch} (hwatch : e.watches[i]? = some watch) (hempty : watch.queue = []) :
    e.Reachable ∧ e.Calm s ∧ (e.caller s).identity = identity ∧ Valid root ∧
      m.Mirrors root identity e.tree := by
  have hfed := h.fed (permitted_of_sameOwners hsame)
  refine ⟨hfed.reachable, hfed.calm, hfed.caller, hfed.valid, ?_⟩
  obtain ⟨queue, hqueue, hm⟩ := hfed.watch
  rw [hworker] at hm
  obtain ⟨-, -, -, -, hbehind⟩ := hm
  rw [hlistening] at hbehind
  obtain rfl : queue = [] := by
    rw [hwatch] at hqueue
    rw [← hempty, Option.some.inj hqueue]
  exact mirrors_of_backedBy hbehind.1 hbehind.2

theorem readable_isOk_iff (ht : e.tree.WellFormed) {p : String} :
    (e.readable s p).isOk = true ↔ e.tree.Readable (e.caller s).identity p := by
  constructor
  · intro h
    cases hr : e.readable s p with
    | error error => simp [hr, Except.isOk, Except.toBool] at h
    | ok n =>
      obtain ⟨-, hn, hperm⟩ := Ensemble.readable_eq_ok_iff.1 hr
      exact ⟨n, hn, hperm⟩
  · rintro ⟨n, hn, hperm⟩
    rw [Ensemble.readable_eq_ok_iff.2 ⟨ht.valid hn, hn, hperm⟩]
    rfl

/-- Whatever happened while a replica was filled and fed, as long as no node changed hands during
the filling: once its worker listens and no event waits, the replica holds one copy of each node
under its root that the session may read, with the node's data and numbers, and no other copy. It
lists the children that the service lists, in the same order, as far as the session may read them,
and a key is read from it as it is read from the service. -/
theorem converges_of_course (h : Course s i identity root walk e m) (hsame : SameOwners root walk)
    {worker : Worker} (hworker : m.worker = some worker) (hlistening : worker.activity = .listening)
    {watch : Watch} (hwatch : e.watches[i]? = some watch) (hempty : watch.queue = []) :
    (pathsOf m.entries).Nodup ∧
    (∀ c ∈ m.entries, isWithin root c.path = true ∧
      ∃ n, e.readable s c.path = .ok n ∧ c.Shows n) ∧
    (∀ p n, isWithin root p = true → e.readable s p = .ok n → ∃ c ∈ m.entries, c.path = p) ∧
    (∀ p names, isWithin root p = true → (e.perform s (.getChildren p)).1 = .ok names →
      m.children p = names.filter fun c => (e.readable s (join p c)).isOk) ∧
    ∀ (w : World) (center : Nat) (key full : String) (active : Active),
      Center.place w center key = .ok (active, full) → active.session.number = s →
      w.ensembles[active.session.ensemble]? = some e → w.replica? active.replica = some m →
      isWithin root full = true →
      ∃ text, Task.Ends World.later (fun a _ => a = text) w (Center.get center key) ∧
        Task.Ends World.later (fun a _ => a = text) w (Center.getDirectly center key) := by
  obtain ⟨hreach, hcalm, hcaller, hroot, hmirror⟩ :=
    h.mirrors hsame hworker hlistening hwatch hempty
  have ht := hreach.wellFormed
  have hheld : ∀ c ∈ m.entries, isWithin root c.path = true ∧
      ∃ n, e.readable s c.path = .ok n ∧ c.Shows n := by
    intro c hc
    obtain ⟨hin, n, hn, hperm, hshows⟩ := hmirror.sound hc
    exact ⟨hin, n, Ensemble.readable_of_permitted (ht.valid hn) hn (hcaller ▸ hperm), hshows⟩
  refine ⟨hmirror.nodup, hheld, fun p n hin hr => ?_, fun p names hin hnames => ?_,
    fun w center key full active hplace hs he hm hin => ?_⟩
  · obtain ⟨-, hn, hperm⟩ := Ensemble.readable_eq_ok_iff.1 hr
    exact List.mem_map.1 (hmirror.complete hin ⟨n, hn, hcaller ▸ hperm⟩)
  · obtain ⟨n, hp, hn, rfl⟩ := Ensemble.perform_getChildren_eq_ok hnames
    exact hmirror.children_eq ht hroot hin hn fun c _ => hcaller ▸ readable_isOk_iff ht
  · have hcalmAt : w.CalmAt active.session e := ⟨he, hs ▸ hcalm⟩
    refine ⟨_, Center.ends_get hplace hcalmAt hm fun entry hentry => ?_,
      Center.ends_getDirectly hplace hcalmAt⟩
    obtain ⟨hmem, hpath⟩ := (get?_eq_some_iff hmirror.nodup).1 hentry
    obtain ⟨-, n, hr, hshows⟩ := hheld entry hmem
    refine ⟨n.stat, ?_⟩
    rw [hpath, ← hs] at hr
    simp [Ensemble.perform, hr, Except.map, hshows.data]

theorem sameOwners_of_anyone (h : ∀ t ∈ walk, ∀ x ∈ t.nodes, x.2.acl = .anyone) :
    SameOwners root walk := by
  have hopen {t : Tree} (ht : t ∈ walk) {p : String} {n : Node} (hn : t.node? p = some n) :
      n.acl = .anyone := by
    obtain ⟨before, after, heq, -⟩ := List.lookup_eq_some_iff.1 hn
    exact h t ht (p, n) (by simp [heq])
  intro t ht t' ht' p n n' _ hn hn'
  rw [hopen ht hn, hopen ht' hn']

/-- A node is written between the two reads of its filling; the event brings the copy up to date. -/
theorem converges_nested : ∃ walk e m, Course 1 0 none "/a/b" walk e m ∧
    SameOwners "/a/b" walk ∧ m.entries.map (fun c => (c.path, c.data)) = [("/a/b", [9])] ∧
    ∀ c ∈ m.entries, ∃ n, e.readable 1 c.path = .ok n ∧ c.Shows n := by
  have h₀ : Course 1 0 none "/a/b" [] (Ensemble.nested.perform 1 (.watch "/a/b")).2
      { root := "/a/b" } :=
    .registered Ensemble.nested_reachable ⟨rfl, rfl⟩ rfl (by decide) rfl
  have h₁ := h₀.move (.spawn 0 rfl) ⟨rfl, rfl⟩
  have h₂ := h₁.move (@Feeds.worker _ _ _ _ 0 _ rfl) ⟨rfl, rfl⟩
  have h₃ := h₂.move (@Feeds.worker _ _ _ _ 0 _ rfl) ⟨rfl, rfl⟩
  have h₄ := h₃.move (.service (.complete _ 1 none (.setData "/a/b" [9] none))) ⟨rfl, rfl⟩
  have h₅ := h₄.move (@Feeds.worker _ _ _ _ 0 _ rfl) ⟨rfl, rfl⟩
  have h₆ := h₅.move (@Feeds.worker _ _ _ _ 0 _ rfl) ⟨rfl, rfl⟩
  have h₇ := h₆.move (@Feeds.worker _ _ _ _ 0 _ rfl) ⟨rfl, rfl⟩
  have h₈ := h₇.move (@Feeds.worker _ _ _ _ 0 _ rfl) ⟨rfl, rfl⟩
  have h₉ := h₈.move (@Feeds.worker _ _ _ _ 0 _ rfl) ⟨rfl, rfl⟩
  refine ⟨_, _, _, h₉, sameOwners_of_anyone (by decide +kernel), rfl, fun c hc => ?_⟩
  obtain ⟨-, hsound, -⟩ := converges_of_course h₉ (sameOwners_of_anyone (by decide +kernel))
    rfl rfl rfl rfl
  exact (hsound c hc).2

end Replica

end KeyRegistry
