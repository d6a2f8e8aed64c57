import KeyRegistry.Proofs.Dialogue.Deleting
import KeyRegistry.Proofs.Task.Alone

/-!
# Deleting a subtree alone

A recursive deletion that nobody disturbs takes out what lies within a path, or
nothing at all: every deletion is authorised at the parent, and whoever may read a
node may read what lies above it. What is left keeps everything but its lost
children.
-/

namespace KeyRegistry

open KeyRegistry.Path

namespace Tree

variable {t t' : Tree} {p x : String} {n m : Node} {found ps : List String} {who : Caller}

/-! ## Where a walk lists a node -/

/-- A walk that has come to its end lists every node but its top behind the parent of the node. -/
theorem Walk.parent_before (h : t.WellFormed) (hwalk : t.Walk p found [])
    {before after : List String} (hsplit : found = before ++ x :: after) (hx : x ≠ p) :
    ∃ q ∈ before, parent? x = some q := by
  subst hsplit
  obtain ⟨n, hn⟩ := hwalk.stored x (by simp)
  obtain ⟨q, hq, hpar⟩ := hwalk.above x (by simp) hx
  refine ⟨q, ?_, hpar⟩
  have hne : q ≠ x := (ne_of_parent? (h.valid hn) hpar).symm
  have hordered : (before ++ x :: after).Pairwise fun x y => parent? x ≠ some y := by
    simpa using hwalk.ordered
  obtain ⟨-, hbehind, -⟩ := List.pairwise_append.1 hordered
  have hnot : q ∉ after := fun hmem => (List.pairwise_cons.1 hbehind).1 q hmem hpar
  simpa [hne, hnot] using hq

/-! ## What deletions leave -/

/-- A node that deletions leave has lost those of its children that are gone. -/
theorem Steps.children_of_deleted (h : t.WellFormed)
    (hs : Steps who t (ps.map (Event.mk .deleted)) t') (hn : t.node? x = some n)
    (hm : t'.node? x = some m) : m.children = n.children.filter fun c => join x c ∉ ps := by
  induction ps generalizing t n with
  | nil =>
    cases hs
    obtain rfl : n = m := Option.some.inj (hn.symm.trans hm)
    simp
  | cons p ps ih =>
    cases hs with
    | @cons _ t₁ _ _ _ first rest =>
      have hwf := first.wellFormed h
      obtain ⟨k, hk⟩ : t₁.Stored x := ((rest.stored_iff_of_deleted hwf).1 ⟨m, hm⟩).2
      rw [ih hwf rest hk]
      have hchild {c : String} (hc : c ∈ n.children) : parent? (join x c) = some x :=
        parent?_join (h.valid hn) ((h.mem_children_iff hn c).1 hc).1
      rcases first.children_cases h hn hk with ⟨hsame, -, hother⟩ | ⟨hkind, -⟩ | ⟨-, hpar, rfl⟩
      · rw [hsame]
        refine List.filter_congr fun c hc => ?_
        have hne : join x c ≠ p := by
          rintro rfl
          simp [hchild hc] at hother
        simp [hne]
      · cases hkind
      · rw [children_loseChild, List.filter_filter]
        refine List.filter_congr fun c hc => ?_
        have hiff := h.join_eq_iff hn (first.valid_path h) hpar c hc
        simp [hiff, Bool.and_comm]

/-- What is left of a tree without the nodes within `p`: the others with all but their children
and the counters of these, and the children that are not within `p` in their order. -/
structure Pruned (p : String) (t t' : Tree) : Prop where
  stored_iff (x : String) : t'.Stored x ↔ t.Stored x ∧ ¬isWithin p x = true
  kept {x : String} {n : Node} : t.node? x = some n → ¬isWithin p x = true →
    ∃ m, t'.node? x = some m ∧ core m = core n ∧
      m.children = n.children.filter fun c => ¬isWithin p (join x c) = true

theorem pruned_of_absent (h : t.WellFormed) (hp : Valid p) (hnot : ¬t.Stored p) :
    Pruned p t t where
  stored_iff x := (and_iff_left_of_imp fun hx hw => hnot (h.stored_of_isWithin hp hx hw)).symm
  kept {x n} hn _ := by
    refine ⟨n, hn, rfl, (List.filter_eq_self.2 fun c hc => ?_).symm⟩
    have hstored := ((h.mem_children_iff hn c).1 hc).2
    simpa using fun hw => hnot (h.stored_of_isWithin hp hstored hw)

theorem Steps.pruned (h : t.WellFormed) (hs : Steps who t (found.map (Event.mk .deleted)) t')
    (hfound : ∀ x, x ∈ found ↔ t.Stored x ∧ isWithin p x = true) : Pruned p t t' where
  stored_iff x := by
    rw [hs.stored_iff_of_deleted h, hfound]
    tauto
  kept {x n} hn hout := by
    have hnot : x ∉ found := fun hx => hout ((hfound x).1 hx).2
    have hcore := hs.core_eq h (p := x) (by simpa using fun y hy (he : y = x) => hnot (he ▸ hy))
    rw [hn, Option.map_some, Option.map_eq_some_iff] at hcore
    obtain ⟨m, hm, hcore⟩ := hcore
    refine ⟨m, hm, hcore, ?_⟩
    rw [hs.children_of_deleted h hn hm]
    refine List.filter_congr fun c hc => ?_
    have hstored := ((h.mem_children_iff hn c).1 hc).2
    simp [hfound, hstored]

end Tree

namespace Task

open Dialogue (collectSubtree deleteRecursive)

variable {w : World} {s : SessionId} {e : Ensemble} {p : String}

/-- A recursive deletion that nobody disturbs succeeds if and only if the path is absent or the
session may read every node within it. Then what lies within the path is gone, and nothing else.
Otherwise it is refused, and everything is as it was. -/
theorem ends_deleteRecursive (hreach : e.Reachable) (he : w.ensembles[s.ensemble]? = some e)
    (hcalm : e.Calm s.number) (hp : Valid p) (hr : p ≠ root) :
    Ends World.later (fun result v => ∃ e', w.Puts s.ensemble e' v ∧
      (result = .ok () ↔ ¬e.tree.Stored p ∨ ∀ x, e.tree.Stored x → isWithin p x = true →
        e.tree.Readable (e.caller s.number).identity x) ∧
      (result = .ok () → e.tree.Pruned p e'.tree) ∧
      (result ≠ .ok () → (∃ x, result = .error (.noAuth x)) ∧ v.ensembles = w.ensembles))
      w (say s (deleteRecursive p)) := by
  have ht := hreach.wellFormed
  by_cases hstored : e.tree.Stored p
  · rcases @Dialogue.does_deleteRecursive_cases (e.caller s.number) _ _ ht hstored hr with
      ⟨found, hfound, hread, hdoes, hsteps⟩ | ⟨x, hx, hw, hnot, hdoes⟩
    · refine (ends_say_alone he hcalm hdoes).weaken ?_
      rintro _ v ⟨rfl, e', hv, htree, -⟩
      rw [← htree] at hsteps
      exact ⟨e', hv, iff_of_true rfl (.inr hread), fun _ => hsteps.pruned ht hfound,
        fun hfail => absurd rfl hfail⟩
    · refine (ends_say_alone he hcalm hdoes).weaken ?_
      rintro _ v ⟨rfl, e', hv, -, hkept⟩
      have hrefused : ¬(¬e.tree.Stored p ∨ ∀ x, e.tree.Stored x → isWithin p x = true →
          e.tree.Readable (e.caller s.number).identity x) :=
        not_or.2 ⟨not_not.2 hstored, fun hall => hnot (hall x hx hw)⟩
      exact ⟨e', hv, iff_of_false (by simp) hrefused, by simp, fun _ => ⟨⟨x, rfl⟩, hkept rfl⟩⟩
  · have hdoes := @Dialogue.does_deleteRecursive_absent (e.caller s.number) _ _ hp hstored
    refine (ends_say_alone he hcalm hdoes).weaken ?_
    rintro _ v ⟨rfl, e', hv, htree, -⟩
    have hpruned : e.tree.Pruned p e'.tree := by
      rw [htree]
      exact Tree.pruned_of_absent ht hp hstored
    exact ⟨e', hv, iff_of_true rfl (.inl hstored), fun _ => hpruned, fun hfail => absurd rfl hfail⟩

/-- A collection of readable nodes that nobody disturbs comes to an end. It lists what lies within
the path, each node once and behind its parent, and changes nothing. -/
theorem ends_collectSubtree (hreach : e.Reachable) (he : w.ensembles[s.ensemble]? = some e)
    (hcalm : e.Calm s.number) (hp : Valid p)
    (hread : ∀ x, e.tree.Stored x → isWithin p x = true →
      e.tree.Readable (e.caller s.number).identity x) :
    Ends World.later (fun result v => v.ensembles = w.ensembles ∧ ∃ found, result = .ok found ∧
      found.Nodup ∧ (∀ x, x ∈ found ↔ e.tree.Stored x ∧ isWithin p x = true) ∧
      ∀ before x after, found = before ++ x :: after → x ≠ p → ∃ q ∈ before, parent? x = some q)
      w (say s (collectSubtree p)) := by
  have ht := hreach.wellFormed
  by_cases hstored : e.tree.Stored p
  · rcases @Dialogue.does_collectSubtree_cases (e.caller s.number) _ _ ht hstored with
      ⟨found, hwalk, -, hdoes⟩ | ⟨x, hx, hw, hnot, -⟩
    · refine (ends_say_alone he hcalm hdoes).weaken ?_
      rintro _ v ⟨rfl, e', -, -, hkept⟩
      exact ⟨hkept rfl, found, rfl, by simpa using hwalk.nodup, fun x => hwalk.mem_iff ht,
        fun before x after hsplit hx => hwalk.parent_before ht hsplit hx⟩
    · exact absurd (hread x hx hw) hnot
  · have hdoes := @Dialogue.does_collectSubtree_absent (e.caller s.number) _ _ hp hstored
    refine (ends_say_alone he hcalm hdoes).weaken ?_
    rintro _ v ⟨rfl, e', -, -, hkept⟩
    have hnone : ∀ x, e.tree.Stored x → ¬isWithin p x = true :=
      fun x hx hw => hstored (ht.stored_of_isWithin hp hx hw)
    exact ⟨hkept rfl, [], rfl, List.nodup_nil, by simpa using hnone, by simp⟩

/-- While nothing else goes on and no fault is injected, a recursive deletion of another path than
the root succeeds if and only if the path is absent or the session may read every node within it.
Then what lies within the path is gone, and nothing else; otherwise the session lacks the authority,
and everything is as it was. A collection of nodes that the session may read lists each of them
once, behind its parent. -/
theorem deleteRecursive_alone (hreach : e.Reachable) (he : w.ensembles[s.ensemble]? = some e)
    (hcalm : e.Calm s.number) (hp : Valid p) (hr : p ≠ root) :
    Ends World.later (fun result v => ∃ e', w.Puts s.ensemble e' v ∧
      (result = .ok () ↔ ¬e.tree.Stored p ∨ ∀ x, e.tree.Stored x → isWithin p x = true →
        e.tree.Readable (e.caller s.number).identity x) ∧
      (result = .ok () → e.tree.Pruned p e'.tree) ∧
      (result ≠ .ok () → (∃ x, result = .error (.noAuth x)) ∧ v.ensembles = w.ensembles))
      w (say s (deleteRecursive p)) ∧
    ((∀ x, e.tree.Stored x → isWithin p x = true →
        e.tree.Readable (e.caller s.number).identity x) →
      Ends World.later (fun result v => v.ensembles = w.ensembles ∧ ∃ found, result = .ok found ∧
        found.Nodup ∧ (∀ x, x ∈ found ↔ e.tree.Stored x ∧ isWithin p x = true) ∧
        ∀ before x after, found = before ++ x :: after → x ≠ p →
          ∃ q ∈ before, parent? x = some q)
        w (say s (collectSubtree p))) :=
  ⟨ends_deleteRecursive hreach he hcalm hp hr, ends_collectSubtree hreach he hcalm hp⟩

def entrusted : Ensemble :=
  let e := ((({} : Ensemble).connect "memory" none).2.connect "memory" (some "keeper")).2
  ((e.complete 1 none (.create "/a" [] .persistent)).2.complete 2 none
    (.create "/a/b" [1] .persistent)).2

/-- Whoever may not read `/a/b` is refused before anything is deleted; its keeper deletes both. -/
theorem deleteRecursive_alone_entrusted :
    Ends World.later (fun result v => (∃ x, result = .error (.noAuth x)) ∧
        v.ensembles = [entrusted])
      { ensembles := [entrusted] } (say ⟨0, 1⟩ (deleteRecursive "/a")) ∧
    Ends World.later (fun result v => result = .ok () ∧
        ∃ e', v.ensembles = [e'] ∧ entrusted.tree.Pruned "/a" e'.tree)
      { ensembles := [entrusted] } (say ⟨0, 2⟩ (deleteRecursive "/a")) := by
  have hreach : entrusted.Reachable :=
    .step (.step (.step (.step .fresh (.connect ..)) (.connect ..)) (.complete ..)) (.complete ..)
  have hp : Valid "/a" := by decide
  have hr : "/a" ≠ root := by decide
  have hclosed : ¬entrusted.tree.Readable none "/a/b" := by
    rintro ⟨n, hn, hperm⟩
    obtain rfl : _ = n := Option.some.inj hn
    cases hperm
  have hopen : ∀ e ∈ entrusted.tree.nodes, e.2.acl.permits (some "keeper") = true := by decide
  constructor
  · obtain ⟨hends, -⟩ := deleteRecursive_alone (w := { ensembles := [entrusted] }) (s := ⟨0, 1⟩)
      hreach rfl ⟨rfl, rfl⟩ hp hr
    refine hends.weaken ?_
    rintro result v ⟨e', hv, hiff, -, hfail⟩
    refine hfail fun hok => ?_
    rcases hiff.1 hok with habsent | hall
    · exact habsent ⟨_, rfl⟩
    · exact hclosed (hall "/a/b" ⟨_, rfl⟩ (by decide))
  · obtain ⟨hends, -⟩ := deleteRecursive_alone (w := { ensembles := [entrusted] }) (s := ⟨0, 2⟩)
      hreach rfl ⟨rfl, rfl⟩ hp hr
    refine hends.weaken ?_
    rintro result v ⟨e', hv, hiff, hpruned, -⟩
    have hok : result = .ok () := hiff.2 <| .inr fun x ⟨n, hn⟩ _ =>
      ⟨n, hn, hopen (x, n) ((Tree.mem_iff_lookup hreach.wellFormed.paths_nodup).2 hn)⟩
    exact ⟨hok, e', hv.ensembles, hpruned hok⟩

end Task

end KeyRegistry
