import KeyRegistry.Center.Handle
import KeyRegistry.Proofs.Task.Asking
import KeyRegistry.Proofs.Tree.Sequence

/-!
# Numbered names across sessions

Whatever sessions do under a parent that stays, the numbered names of one prefix
are given out in increasing order, by characters and by bytes, and none twice. A
client that asks for the children and sorts their names sees the nodes of the
prefix in the order in which they were made.
-/

namespace KeyRegistry

open KeyRegistry.Path

def Request.deeds : (r : Request) → r.Answer → List Deed
  | .create p _ mode, .ok actual =>
    [⟨⟨.created, actual⟩, if mode.sequential then some p else none⟩]
  | .setData p _ _, .ok _ => [⟨⟨.dataChanged, p⟩, none⟩]
  | .delete p _, .ok _ => [⟨⟨.deleted, p⟩, none⟩]
  | .commit ops, .ok outcomes => Operation.allDeeds ops outcomes
  | _, _ => []

@[simp] theorem Request.deeds_error (r : Request) (error : ServiceError) :
    r.deeds (.error error) = [] := by
  cases r <;> rfl

namespace Ensemble

variable {e e' e₀ : Ensemble} {q : String} {ds ds' : List Deed} {who : Caller}

/-- A step at the service, told by its deeds. Nodes are made by calls alone. -/
inductive Happens : Ensemble → List Deed → Ensemble → Prop
  | complete (e : Ensemble) (id : Nat) (fault : Option ServiceError) (r : Request) :
      Happens e (r.deeds (e.complete id fault r).1) (e.complete id fault r).2
  | other {e e' : Ensemble} {evs : List Event} (occurs : Occurs e evs e')
      (unmade : ∀ ev ∈ evs, ev.kind ≠ .created) : Happens e (evs.map fun ev => ⟨ev, none⟩) e'

/-- What has happened since `before`, where the node at `q` is not taken out. -/
inductive Chronicle (q : String) (before : Ensemble) : List Deed → Ensemble → Prop
  | start : Chronicle q before [] before
  | happens {e e' : Ensemble} {ds ds' : List Deed} (run : Chronicle q before ds e)
      (happens : Happens e ds' e') (kept : ∀ d ∈ ds', d.event ≠ ⟨.deleted, q⟩) :
      Chronicle q before (ds ++ ds') e'
  | read {e e' : Ensemble} {ds : List Deed} {i : Nat} (run : Chronicle q before ds e)
      (reads : Reads i e e') : Chronicle q before ds e'

/-! ## What is told of a step -/

theorem Step.happens (h : Step e e') : ∃ ds, Happens e ds e' := by
  cases h with
  | connect servers identity => exact ⟨_, .other (.connect ..) (by simp)⟩
  | failConnects count => exact ⟨_, .other (.failConnects ..) (by simp)⟩
  | inject error => exact ⟨_, .other (.inject ..) (by simp)⟩
  | setLatency ms => exact ⟨_, .other (.setLatency ..) (by simp)⟩
  | accept accepted => exact ⟨_, .other (.accept accepted) (by simp)⟩
  | complete id fault r => exact ⟨_, .complete ..⟩
  | expire live perm => exact ⟨_, .other (.expire live perm) (by simp)⟩
  | close live perm => exact ⟨_, .other (.close live perm) (by simp)⟩
  | closeExpired expired => exact ⟨_, .other (.closeExpired expired) (by simp)⟩

theorem Happens.step (h : Happens e ds e') : Step e e' := by
  cases h with
  | complete id fault r => exact .complete ..
  | other occurs unmade => exact occurs.step

theorem deeds_settle {α : Type} {f : Except ServiceError α → List Deed}
    {r : Except ServiceError (Change α)} (herror : ∀ error, f (.error error) = [])
    (h : ∀ c, r = .ok c → Tree.Deeds who e.tree (f (.ok c.value)) c.tree) :
    Tree.Deeds who e.tree (f (e.settle r).1) (e.settle r).2.tree := by
  cases r with
  | error error =>
    rw [settle, herror]
    exact .nil _
  | ok c => exact h c rfl

theorem deeds_perform (e : Ensemble) (id : Nat) (r : Request) :
    Tree.Deeds (e.caller id) e.tree (r.deeds (e.perform id r).1) (e.perform id r).2.tree := by
  cases r with
  | stat p => exact .nil _
  | getData p => exact .nil _
  | getChildren p => exact .nil _
  | create p data mode =>
    exact deeds_settle (f := Request.deeds (.create p data mode)) (fun _ => rfl)
      fun c hc => Tree.deeds_of_create hc
  | setData p data version =>
    exact deeds_settle (f := Request.deeds (.setData p data version)) (fun _ => rfl)
      fun c hc => Tree.deeds_of_setData (ok_of_bind_checkPath hc).2
  | delete p version =>
    refine deeds_settle (f := Request.deeds (.delete p version)) (fun _ => rfl) fun c hc => ?_
    obtain ⟨hp, hc⟩ := ok_of_bind_checkPath hc
    exact Tree.deeds_of_delete hp hc
  | commit ops =>
    refine deeds_settle (f := Request.deeds (.commit ops)) (fun _ => rfl) fun c hc => ?_
    obtain ⟨_, hops, hc⟩ := bind_eq_ok_iff.1 hc
    exact Tree.deeds_of_applyAll (forM_checkPath_eq_ok_iff.1 hops) hc
  | watch root =>
    dsimp only [perform]
    split <;> exact .nil _

theorem Happens.deeds (ht : e.tree.WellFormed) (h : Happens e ds e') :
    ∃ who, Tree.Deeds who e.tree ds e'.tree := by
  cases h with
  | complete id fault r =>
    refine ⟨e.caller id, ?_⟩
    rcases complete_cases e id fault r with ⟨_, heq⟩ | ⟨-, heq⟩
    · rw [heq]
      simpa using .nil _
    · rw [heq]
      exact deeds_perform e id r
  | other occurs unmade =>
    obtain ⟨who, hev⟩ := occurs.evolves ht
    exact ⟨who, hev.tree.deeds⟩

theorem Chronicle.reachable (h₀ : Reachable e₀) (h : Chronicle q e₀ ds e) : Reachable e := by
  induction h with
  | start => exact h₀
  | happens _ happens _ ih => exact .step ih happens.step
  | read _ reads ih => exact .read ih reads

/-- The parent stays. -/
theorem Chronicle.stored (h₀ : Reachable e₀) (hq : e₀.tree.Stored q) (h : Chronicle q e₀ ds e) :
    e.tree.Stored q := by
  induction h with
  | start => exact hq
  | happens run happens kept ih =>
    obtain ⟨who, hdeeds⟩ := happens.deeds (run.reachable h₀).wellFormed
    exact hdeeds.stored (run.reachable h₀).wellFormed ih kept
  | read run reads ih => rwa [reads.frame.1]

/-- Of each prefix the ledger is kept through all that happens. -/
theorem Chronicle.ledger (h₀ : Reachable e₀) {n₀ : Node} (hn₀ : e₀.tree.node? q = some n₀)
    {start : Nat} (hstart : n₀.stat.cversion = Int32.ofNat start) (h : Chronicle q e₀ ds e)
    {p : String} (hp : Valid p) (hq : parent? p = some q) :
    Tree.Ledger q p start ds e.tree := by
  induction h with
  | start => exact Tree.ledger_nil hn₀ hstart p
  | happens run happens kept ih =>
    have ht := (run.reachable h₀).wellFormed
    obtain ⟨who, hdeeds⟩ := happens.deeds ht
    exact ih.deeds ht hp hq hdeeds kept
  | read run reads ih => rwa [reads.frame.1]

end Ensemble

/-! ## What a client sees -/

theorem Key.sortedChildren_eq (full : String) :
    Key.sortedChildren full = .call (.getChildren full) fun answer =>
      .done (Key.lift (fun names => names.mergeSort fun a b => a ≤ b) answer) := rfl

theorem SessionHandle.ends_children {w : World} {h : SessionHandle} {key full : String}
    {e : Ensemble} {n : Node} (hplace : h.scope.resolve key = .ok full)
    (hcalm : w.CalmAt h.session e) (hread : e.readable h.session.number full = .ok n) :
    Task.Ends World.later
      (fun names _ => names = .ok (n.children.mergeSort fun a b => a ≤ b)) w (h.children key) := by
  unfold SessionHandle.children SessionHandle.onKey
  rw [hplace]
  dsimp only
  rw [Key.sortedChildren_eq]
  refine (Task.ends_ask hcalm.1 (.getChildren full) _).weaken fun names _ hnames => ?_
  rw [hnames, Ensemble.call_of_live hcalm.2.live hcalm.2.unfaulted]
  simp [Ensemble.perform, hread, Except.map, Key.lift]

namespace Ensemble

variable {e e₀ : Ensemble} {q : String} {ds : List Deed}

/-- Under a parent that stays and has counted fewer than `2 ^ 31` changes, the numbered paths of
one prefix are given out in increasing order, and those of two prefixes never coincide. The names
of all children, sorted as a client does, have those that are left of a prefix in the order of
their creation. -/
theorem numbered_paths_ordered (h₀ : Reachable e₀) {n₀ : Node}
    (hn₀ : e₀.tree.node? q = some n₀) {start : Nat}
    (hstart : n₀.stat.cversion = Int32.ofNat start) (h : Chronicle q e₀ ds e)
    (hlt : start + Deed.changes q ds < 2 ^ 31) :
    (∀ p, Valid p → parent? p = some q →
      (Deed.granted p ds).Pairwise Text.Precedes ∧ (Deed.granted p ds).Nodup) ∧
    (∀ p p', Valid p → Valid p' → parent? p = some q → parent? p' = some q → p ≠ p' →
      (Deed.granted p ds).Disjoint (Deed.granted p' ds)) ∧
    (∀ e', Step e e' → ∃ ds', Happens e ds' e') ∧
    ∃ n, e.tree.node? q = some n ∧ ∀ p, Valid p → parent? p = some q →
      (n.children.filter fun c => join q c ∈ Deed.standing p ds) =
        (Deed.standing p ds).map nodeName ∧
      ((Deed.standing p ds).Pairwise fun a b => ∀ m k, e.tree.node? a = some m →
        e.tree.node? b = some k → m.stat.czxid < k.stat.czxid) ∧
      ∀ (w : World) (handle : SessionHandle) (key : String),
        handle.scope.resolve key = .ok q → w.CalmAt handle.session e →
        n.acl.permits (e.caller handle.session.number).identity = true →
        Task.Ends World.later (fun names _ => ∃ sorted, names = .ok sorted ∧
          sorted.filter (fun c => join q c ∈ Deed.standing p ds) =
            (Deed.standing p ds).map nodeName) w (handle.children key) := by
  have ht := (h.reachable h₀).wellFormed
  have hledger {p : String} (hp : Valid p) (hq : parent? p = some q) :
      Tree.Ledger q p start ds e.tree := h.ledger h₀ hn₀ hstart hp hq
  have hqv : Valid q := h₀.wellFormed.valid hn₀
  obtain ⟨n, hn⟩ : e.tree.Stored q := h.stored h₀ ⟨n₀, hn₀⟩
  refine ⟨fun p hp hq => ?_, fun p p' hp hp' hq hq' hne x hx hx' => ?_,
    fun e' hs => hs.happens, n, hn, fun p hp hq => ⟨?_, ?_, ?_⟩⟩
  · have hordered := (hledger hp hq).pairwise_granted hlt
    exact ⟨hordered, hordered.imp Text.Precedes.ne⟩
  · exact hne ((hledger hp hq).eq_of_mem_granted hlt (hledger hp' hq') hx hx')
  · exact (hledger hp hq).lists hn
  · exact (hledger hp hq).pairwise_czxid ht hp hq
  · intro w handle key hplace hcalm hperm
    have hread : e.readable handle.session.number q = .ok n :=
      readable_of_permitted hqv hn hperm
    refine (SessionHandle.ends_children hplace hcalm hread).weaken fun names _ hnames => ?_
    refine ⟨_, hnames, ?_⟩
    rw [(hledger hp hq).filter_mergeSort hlt hp hq hn]
    exact (hledger hp hq).lists hn

def queued : Ensemble :=
  ((({} : Ensemble).connect "memory" none).2.complete 1 none (.create "/q" [] .persistent)).2

/-- A node that comes and goes counts for the next number, and the number of a node that is taken
out is not given out again. -/
theorem numbered_paths_ordered_queued :
    ∃ ds e, Chronicle "/q" queued ds e ∧
      Deed.granted "/q/n-" ds = ["/q/n-0000000000", "/q/n-0000000003"] ∧
      (Deed.granted "/q/n-" ds).Pairwise Text.Precedes ∧
      ∃ n, e.tree.node? "/q" = some n ∧
        (n.children.filter fun c => join "/q" c ∈ Deed.standing "/q/n-" ds) = ["n-0000000003"] := by
  have hreach : Reachable queued := .step (.step .fresh (.connect ..)) (.complete ..)
  have hstart : Chronicle "/q" queued [] queued := .start
  have hzero : (Node.new [] .anyone 1 none).stat.cversion = Int32.ofNat 0 := rfl
  have hrun := (((hstart.happens
    (.complete _ 1 none (.create "/q/n-" [] .persistentSequential)) (by decide)).happens
    (.complete _ 1 none (.commit [.create "/q/plain" [] .persistent, .delete "/q/plain" none]))
      (by decide)).happens
    (.complete _ 1 none (.create "/q/n-" [] .ephemeralSequential)) (by decide)).happens
    (.complete _ 1 none (.delete "/q/n-0000000000" none)) (by decide)
  have hvalid : Valid "/q/n-" := by decide
  obtain ⟨hordered, -, -, n, hn, hleft⟩ :=
    numbered_paths_ordered hreach rfl hzero hrun (by decide)
  exact ⟨_, _, hrun, by decide, (hordered "/q/n-" hvalid (by decide)).1, n, hn,
    (hleft "/q/n-" hvalid (by decide)).1.trans (by decide)⟩

end Ensemble

end KeyRegistry
