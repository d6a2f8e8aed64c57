import KeyRegistry.Proofs.Ensemble.Consistency
import KeyRegistry.Proofs.Tree.Versions

/-!
# Versions across sessions

A run of an ensemble is told by the operations that took effect, in calls of their
own and in transactions alike. Whatever sessions do, the version of a node is the
number of the changes of its data, and whoever changes a node in the place of the
version that was read changes it in the place of the data that was read.
-/

namespace KeyRegistry

open KeyRegistry.Path

namespace Request

def operations : Request → List Operation
  | .create p data mode => [.create p data mode]
  | .setData p data version => [.setData p data version]
  | .delete p version => [.delete p version]
  | .commit ops => ops
  | _ => []

def feats : (r : Request) → r.Answer → List Feat
  | .create p data mode, .ok actual => [⟨.create p data mode, .created actual⟩]
  | .setData p data version, .ok written => [⟨.setData p data version, .dataSet written⟩]
  | .delete p version, .ok _ => [⟨.delete p version, .deleted⟩]
  | .commit ops, .ok outcomes => ops.zipWith Feat.mk outcomes
  | _, _ => []

@[simp] theorem feats_error (r : Request) (error : ServiceError) :
    r.feats (.error error) = [] := by
  cases r <;> rfl

end Request

namespace Ensemble

variable {e e' e₀ : Ensemble} {fs fs' done : List Feat} {id : Nat} {r : Request} {op : Operation}
  {t : Tree} {p : String}

inductive Tells : Ensemble → List Feat → Ensemble → Prop
  | complete (e : Ensemble) (id : Nat) (fault : Option ServiceError) (r : Request) :
      Tells e (r.feats (e.complete id fault r).1) (e.complete id fault r).2
  | other {e e' : Ensemble} {evs : List Event} (occurs : Occurs e evs e')
      (lost : ∀ ev ∈ evs, ev.kind = .deleted) :
      Tells e (evs.map fun ev => ⟨.delete ev.path none, .deleted⟩) e'

inductive Saga (before : Ensemble) : List Feat → Ensemble → Prop
  | start : Saga before [] before
  | tells {e e' : Ensemble} {fs fs' : List Feat} (run : Saga before fs e) (tells : Tells e fs' e') :
      Saga before (fs ++ fs') e'
  | read {e e' : Ensemble} {fs : List Feat} {i : Nat} (run : Saga before fs e)
      (reads : Reads i e e') : Saga before fs e'

/-- A session learns the stat of a node: together with the data, or by itself while the data
could be read. -/
inductive Learns (e : Ensemble) (p : String) (data : List UInt8) (s : Stat) : Prop
  | stat {id : Nat} {fault : Option ServiceError}
      (answered : (e.complete id fault (.stat p)).1 = .ok (some s))
      (readable : e.peek p = some (data, s))
  | getData {id : Nat} {fault : Option ServiceError}
      (answered : (e.complete id fault (.getData p)).1 = .ok (data, s))

/-- A call comes to one of its operations: those before it are done and have led to the tree `t`. -/
structure Comes (e : Ensemble) (id : Nat) (r : Request) (done : List Feat) (op : Operation)
    (t : Tree) : Prop where
  listed : ∃ rest, r.operations = done.map Feat.operation ++ op :: rest
  staged : ∃ c, e.tree.applyAll (e.caller id) 0 (done.map Feat.operation) = .ok c ∧
    c.tree = t ∧ c.value = done.map Feat.outcome

/-! ## What calls do to the tree -/

/-- A call that succeeds is the fold over its operations. -/
theorem ok_of_perform {value : r.Value} (h : (e.perform id r).1 = .ok value) :
    (∀ op ∈ r.operations, Valid op.path) ∧
    ∃ c, e.tree.applyAll (e.caller id) 0 r.operations = .ok c ∧
      (e.perform id r).2.tree = c.tree ∧
      r.feats (.ok value) = r.operations.zipWith Feat.mk c.value := by
  have hsingle {op : Operation} {c : Change Outcome}
      (hop : e.tree.apply (e.caller id) op = .ok c) :
      e.tree.applyAll (e.caller id) 0 [op] = .ok ⟨c.tree, c.events ++ [], [c.value]⟩ := by
    rw [Tree.applyAll_cons_ok hop]
    rfl
  cases r with
  | stat p => exact ⟨by simp [Request.operations], ⟨e.tree, [], []⟩, rfl, rfl, rfl⟩
  | getData p => exact ⟨by simp [Request.operations], ⟨e.tree, [], []⟩, rfl, rfl, rfl⟩
  | getChildren p => exact ⟨by simp [Request.operations], ⟨e.tree, [], []⟩, rfl, rfl, rfl⟩
  | create p data mode =>
    obtain ⟨c, hc, rfl, htree⟩ := ok_of_settle h
    obtain ⟨_, _, hp, -⟩ := Tree.create_ok_cases hc
    have hop : e.tree.apply (e.caller id) (.create p data mode) =
        .ok ⟨c.tree, c.events, .created c.value⟩ := by
      simp [Tree.apply, hc, bind, Except.bind, pure, Except.pure]
    exact ⟨List.forall_mem_singleton.2 hp, _, hsingle hop, htree, rfl⟩
  | setData p data version =>
    obtain ⟨c, hc, rfl, htree⟩ := ok_of_settle h
    obtain ⟨hp, hc⟩ := ok_of_bind_checkPath hc
    have hop : e.tree.apply (e.caller id) (.setData p data version) =
        .ok ⟨c.tree, c.events, .dataSet c.value⟩ := by
      simp [Tree.apply, hc, bind, Except.bind, pure, Except.pure]
    exact ⟨List.forall_mem_singleton.2 hp, _, hsingle hop, htree, rfl⟩
  | delete p version =>
    obtain ⟨c, hc, rfl, htree⟩ := ok_of_settle h
    obtain ⟨hp, hc⟩ := ok_of_bind_checkPath hc
    have hop : e.tree.apply (e.caller id) (.delete p version) =
        .ok ⟨c.tree, c.events, .deleted⟩ := by
      simp [Tree.apply, hc, bind, Except.bind, pure, Except.pure]
    exact ⟨List.forall_mem_singleton.2 hp, _, hsingle hop, htree, rfl⟩
  | commit ops =>
    obtain ⟨c, hc, rfl, htree⟩ := ok_of_settle h
    obtain ⟨_, hops, hc⟩ := bind_eq_ok_iff.1 hc
    exact ⟨forM_checkPath_eq_ok_iff.1 hops, c, hc, htree, rfl⟩
  | watch root =>
    refine ⟨by simp [Request.operations], ⟨e.tree, [], []⟩, rfl, ?_, rfl⟩
    dsimp only [perform]
    split <;> rfl

theorem ok_of_complete {fault : Option ServiceError} {value : r.Value}
    (h : (e.complete id fault r).1 = .ok value) : e.complete id fault r = e.perform id r := by
  rcases complete_cases e id fault r with ⟨error, heq⟩ | ⟨-, heq⟩
  · rw [heq] at h
    cases h
  · exact heq

theorem Tells.achievesAll (ht : e.tree.WellFormed) (h : Tells e fs e') :
    Tree.AchievesAll e.tree fs e'.tree := by
  cases h with
  | complete id fault r =>
    cases hanswer : (e.complete id fault r).1 with
    | error error =>
      rw [Request.feats_error, complete_of_error hanswer]
      exact .nil _
    | ok value =>
      have hserved := ok_of_complete hanswer
      rw [hserved] at hanswer ⊢
      obtain ⟨hops, c, hc, htree, hfeats⟩ := ok_of_perform hanswer
      rw [hfeats, htree]
      exact Tree.achievesAll_of_applyAll hops hc
  | other occurs lost =>
    obtain ⟨who, hev⟩ := occurs.evolves ht
    exact hev.tree.achievesAll lost

theorem Step.tells (h : Step e e') : ∃ fs, Tells e fs e' := by
  cases h with
  | connect servers identity => exact ⟨_, .other (.connect ..) (by simp)⟩
  | failConnects count => exact ⟨_, .other (.failConnects ..) (by simp)⟩
  | inject error => exact ⟨_, .other (.inject ..) (by simp)⟩
  | setLatency ms => exact ⟨_, .other (.setLatency ..) (by simp)⟩
  | accept accepted => exact ⟨_, .other (.accept accepted) (by simp)⟩
  | complete id fault r => exact ⟨_, .complete ..⟩
  | expire live perm => exact ⟨_, .other (.expire live perm) (by simp)⟩
  | close live perm => exact ⟨_, .other (.close live perm) (by simp)⟩
  | closeExpired expired => exact ⟨_, .other (.closeExpired expired) (by simp)⟩

theorem Tells.step (h : Tells e fs e') : Step e e' := by
  cases h with
  | complete id fault r => exact .complete ..
  | other occurs lost => exact occurs.step

theorem Saga.reachable (h₀ : Reachable e₀) (h : Saga e₀ fs e) : Reachable e := by
  induction h with
  | start => exact h₀
  | tells _ tells ih => exact .step ih tells.step
  | read _ reads ih => exact .read ih reads

theorem Saga.trans (h : Saga e₀ fs e) (h' : Saga e fs' e') : Saga e₀ (fs ++ fs') e' := by
  induction h' with
  | start => simpa using h
  | tells _ tells ih =>
    rw [← List.append_assoc]
    exact ih.tells tells
  | read _ reads ih => exact ih.read reads

/-- The runs that are told reach every state. -/
theorem reachable_iff_saga : Reachable e ↔ ∃ fs, Saga {} fs e := by
  constructor
  · intro h
    induction h with
    | fresh => exact ⟨[], .start⟩
    | step _ step ih =>
      obtain ⟨fs, hrun⟩ := ih
      obtain ⟨fs', htells⟩ := step.tells
      exact ⟨_, hrun.tells htells⟩
    | read _ read ih =>
      obtain ⟨fs, hrun⟩ := ih
      exact ⟨fs, hrun.read read⟩
  · rintro ⟨fs, h⟩
    exact h.reachable .fresh

theorem Saga.achievesAll (h₀ : Reachable e₀) (h : Saga e₀ fs e) :
    Tree.AchievesAll e₀.tree fs e.tree := by
  induction h with
  | start => exact .nil _
  | tells run tells ih => exact ih.append (tells.achievesAll (run.reachable h₀).wellFormed)
  | read _ reads ih => rwa [reads.frame.1]

/-! ## What a call comes to -/

/-- A call that succeeds comes to each of its operations. -/
theorem exists_comes {fault : Option ServiceError} {value : r.Value}
    (h : (e.complete id fault r).1 = .ok value) {before rest : List Operation}
    (hops : r.operations = before ++ op :: rest) :
    ∃ done t, done.map Feat.operation = before ∧ Comes e id r done op t := by
  have hserved := ok_of_complete h
  rw [hserved] at h
  obtain ⟨-, c, hc, -⟩ := ok_of_perform h
  rw [hops] at hc
  obtain ⟨first, -, hfirst, -⟩ := Tree.ok_of_applyAll_append hc
  have hlength := Tree.length_applyAll hfirst
  obtain ⟨hoperations, houtcomes⟩ := Feat.map_zipWith hlength
  exact ⟨before.zipWith Feat.mk first.value, first.tree, hoperations,
    ⟨rest, by rw [hoperations, hops]⟩, first, by rw [hoperations, hfirst], rfl, houtcomes.symm⟩

/-- In a call that succeeds the operations before one are feats, and it succeeds in its turn. -/
theorem Comes.of_ok {fault : Option ServiceError} {value : r.Value}
    (hcomes : Comes e id r done op t) (h : (e.complete id fault r).1 = .ok value) :
    Tree.AchievesAll e.tree done t ∧ Valid op.path ∧ ∃ c, t.apply (e.caller id) op = .ok c := by
  obtain ⟨⟨rest, hops⟩, staged, hstaged, rfl, hvalue⟩ := hcomes
  have hserved := ok_of_complete h
  rw [hserved] at h
  obtain ⟨hvalid, c, hc, -⟩ := ok_of_perform h
  rw [hops] at hc hvalid
  obtain ⟨first, tail, hfirst, htail⟩ := Tree.ok_of_applyAll_append hc
  obtain rfl := Except.ok.inj (hstaged.symm.trans hfirst)
  obtain ⟨d, -, hd, -⟩ := Tree.ok_of_applyAll_cons htail
  refine ⟨?_, hvalid op (by simp), d, hd⟩
  have hdone := Tree.achievesAll_of_applyAll
    (fun op hop => hvalid op (List.mem_append_left _ hop)) hstaged
  rwa [hvalue, List.zipWith_map, List.zipWith_self, List.map_id'] at hdone

/-! ## Compare and set -/

theorem Learns.stored {data : List UInt8} {s : Stat} (h : Learns e p data s) :
    ∃ n, e.tree.node? p = some n ∧ n.data = data ∧ n.stat = s := by
  cases h with
  | stat answered readable =>
    obtain ⟨n, hn, heq⟩ := Option.map_eq_some_iff.1 readable
    exact ⟨n, hn, congrArg Prod.fst heq, congrArg Prod.snd heq⟩
  | @getData id fault answered =>
    rw [ok_of_complete answered] at answered
    cases hread : e.readable id p with
    | error error => simp [perform, hread, Except.map] at answered
    | ok n =>
      obtain ⟨rfl, rfl⟩ : n.data = data ∧ n.stat = s := by
        simpa [perform, hread, Except.map] using answered
      exact ⟨n, (readable_eq_ok_iff.1 hread).2.1, rfl, rfl⟩

/-- What expects another version than the node has fails, and nothing is changed by the call. -/
theorem Comes.refused (hcomes : Comes e id r done op t) {v : Int32} (hexp : op.expected? = some v)
    (hother : ∀ n, t.node? op.path = some n → n.stat.version ≠ v) (fault : Option ServiceError) :
    ∃ error, e.complete id fault r = (.error error, e) := by
  cases hanswer : (e.complete id fault r).1 with
  | error error => exact ⟨error, Prod.ext hanswer (complete_of_error hanswer)⟩
  | ok value =>
    obtain ⟨-, hvalid, c, hc⟩ := hcomes.of_ok hanswer
    obtain ⟨n, hn, hv⟩ := Tree.expects_of_apply hvalid hc hexp
    exact absurd hv (hother n hn)

/-- In every run the version of a node is the number of the changes of its data since it was made.
While there are fewer than `2 ^ 31` of them: if a call succeeds with an operation that expects the
version which was read of the same node, the data has not been changed in between and is what could
be read; and while the node is not deleted, at most one write succeeds in the place of one version.
A call with an operation that expects another version than the node has fails and changes nothing.
-/
theorem versions_compare_and_set (h : Saga {} fs e) (p : String) :
    (∀ n, e.tree.node? p = some n →
      n.stat.version = Int32.ofNat (Event.rewrites p (Feat.events fs)) ∧
      (Event.rewrites p (Feat.events fs) < 2 ^ 31 →
        n.stat.version.toInt = Event.rewrites p (Feat.events fs))) ∧
    (∀ fs' e', Saga e fs' e' →
      (∀ data s, Learns e p data s → ∀ id fault r value before op rest,
        (e'.complete id fault r).1 = .ok value → r.operations = before ++ op :: rest →
        op.path = p → op.expected? = some s.version →
        ∃ done t n, done.map Feat.operation = before ∧ Comes e' id r done op t ∧
          t.node? p = some n ∧ n.stat.version = s.version ∧
          (n.stat.czxid = s.czxid → Feat.writes p (fs' ++ done) < 2 ^ 31 →
            Feat.writes p (fs' ++ done) = 0 ∧ n.data = data)) ∧
      (⟨.deleted, p⟩ ∉ Feat.events fs' → Feat.writes p fs' < 2 ^ 31 →
        ∀ v, fs'.countP (Feat.replaces p v) ≤ 1)) ∧
    ∀ id fault r done op t v, Comes e id r done op t → op.path = p → op.expected? = some v →
      (∀ n, t.node? p = some n → n.stat.version ≠ v) →
      ∃ error, e.complete id fault r = (.error error, e) := by
  have hreach : Reachable e := reachable_iff_saga.2 ⟨fs, h⟩
  have hcounted : Tree.Counted (Feat.events fs) e.tree :=
    ((h.achievesAll .fresh).invariant (fun _ _ _ _ _ ht hc hs => hs.counted ht hc)
      Tree.wellFormed_empty Tree.counted_empty).2
  refine ⟨fun n hn => ?_, fun fs' e' hrun => ⟨?_, ?_⟩, ?_⟩
  · have hversion := hcounted p n hn
    exact ⟨hversion, fun hlt => by rw [hversion, Int32.toInt_ofNat_of_lt hlt]⟩
  · rintro data s hlearns id fault r value before op rest hok hops rfl hexp
    obtain ⟨m, hm, rfl, rfl⟩ := hlearns.stored
    obtain ⟨done, t, hbefore, hcomes⟩ := exists_comes hok hops
    obtain ⟨hdone, hvalid, c, hc⟩ := hcomes.of_ok hok
    obtain ⟨n, hn, hv⟩ := Tree.expects_of_apply hvalid hc hexp
    refine ⟨done, t, n, hbefore, hcomes, hn, hv, fun hz hlt => ?_⟩
    -- the run up to the call and what the call did before the operation
    have hfollows := (((hrun.achievesAll hreach).append hdone).invariant
      (fun _ _ _ _ _ ht hf hs => hs.follows ht hf) hreach.wellFormed
      (Tree.follows_nil e.tree op.path)).2
    exact hfollows.unchanged hreach.wellFormed hm hn hz hv hlt
  · intro hkept hlt v
    have hstart : Tree.Contest e.tree p v [] e.tree := ⟨Tree.follows_nil e.tree p, .inl rfl⟩
    have hend := hstart.achievesAll hreach.wellFormed (hrun.achievesAll hreach) hkept hlt
    rcases hend.won with hnone | ⟨hone, -⟩
    · exact Nat.le_trans (Nat.le_of_eq hnone) (Nat.zero_le _)
    · exact Nat.le_of_eq hone
  · rintro id fault r done op t v hcomes rfl hexp hother
    exact hcomes.refused hexp hother fault

def drafted : Ensemble :=
  (((({} : Ensemble).connect "memory" none).2.complete 1 none (.create "/k" [1] .persistent)).2
    |>.complete 1 none (.setData "/k" [2] none)).2

/-- The version that was read lets one writer pass, on what was read, and refuses the next. -/
theorem versions_compare_and_set_drafted :
    ∃ fs made written, Saga {} fs drafted ∧
      (∀ n, drafted.tree.node? "/k" = some n → n.stat.version.toInt = 1) ∧
      Saga drafted [⟨.create "/l" [] .persistent, .created "/l"⟩] made ∧
      made.complete 1 none (.commit [.check "/k" (some 1), .setData "/k" [3] (some 1)]) =
        (.ok [.checked, .dataSet ⟨1, 4, 2, 0, none, 1, 0⟩], written) ∧
      (∃ n, made.tree.node? "/k" = some n ∧ n.data = [2]) ∧
      ∃ fs', Saga drafted fs' written ∧ fs'.countP (Feat.replaces "/k" 1) = 1 ∧
        ∃ error, written.complete 1 none (.delete "/k" (some 1)) = (.error error, written) := by
  have hfresh : Saga {} [] {} := .start
  have hrun := ((hfresh.tells (.other (.connect _ "memory" none) (by simp))).tells
    (.complete _ 1 none (.create "/k" [1] .persistent))).tells
    (.complete _ 1 none (.setData "/k" [2] none))
  have hdrafted : Saga drafted [] drafted := .start
  have hmade := hdrafted.tells (.complete _ 1 none (.create "/l" [] .persistent))
  have hwritten := hmade.tells
    (.complete _ 1 none (.commit [.check "/k" (some 1), .setData "/k" [3] (some 1)]))
  obtain ⟨hcount, hset, -⟩ := versions_compare_and_set hrun "/k"
  have hread : (drafted.complete 1 none (.getData "/k")).1 =
      .ok ([2], ⟨1, 2, 1, 0, none, 1, 0⟩) := rfl
  have hpasses := (hset _ _ hmade).1 _ _ (.getData hread) 1 none
    (.commit [.check "/k" (some 1), .setData "/k" [3] (some 1)]) _ [] _ _ rfl rfl rfl rfl
  refine ⟨_, _, _, hrun, fun n hn => (hcount n hn).2 (by decide), hmade, rfl, ?_,
    _, hwritten, ?_, ?_⟩
  · obtain ⟨done, t, n, hdone, hcomes, hn, -, hsame⟩ := hpasses
    obtain rfl := List.map_eq_nil_iff.1 hdone
    obtain ⟨c, hc, rfl, -⟩ := hcomes.staged
    obtain rfl := Except.ok.inj hc
    exact ⟨n, hn, (hsame (by cases hn; rfl) (by decide)).2⟩
  · exact Nat.le_antisymm ((hset _ _ hwritten).2 (by decide) (by decide) 1) (by decide)
  · exact (versions_compare_and_set (hrun.trans hwritten) "/k").2.2 1 none (.delete "/k" (some 1))
      [] _ _ 1 ⟨⟨[], rfl⟩, _, rfl, rfl, rfl⟩ rfl rfl fun n hn => by cases hn; decide

end Ensemble

end KeyRegistry
