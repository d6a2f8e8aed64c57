import KeyRegistry.Proofs.Ensemble.Evolution
import Mathlib.Algebra.Group.Nat.Defs

/-!
# The tree of a reachable ensemble

Whatever sessions have done, the redundant parts of the tree agree. As long as
no counter has wrapped around, the number of children that a stat shows is the
number of names that a call for the children yields.
-/

namespace KeyRegistry

open KeyRegistry.Path

namespace Tree.WellFormed

variable {t : Tree} {p q : String} {n m : Node}

theorem toInt_numChildren (h : t.WellFormed) (hn : t.node? p = some n)
    (hlt : n.children.length < 2 ^ 31) : n.stat.numChildren.toInt = n.children.length := by
  rw [h.numChildren_eq hn, Int32.toInt_ofNat_of_lt hlt]

/-- The counter that a removal of `p` takes one from is positive. -/
theorem numChildren_pos (h : t.WellFormed) (hn : t.node? p = some n) (hq : parent? p = some q)
    (hm : t.node? q = some m) (hlt : m.children.length < 2 ^ 31) :
    0 < m.stat.numChildren.toInt := by
  have hpos := List.length_pos_of_mem (h.nodeName_mem_children hn hq hm)
  rw [h.toInt_numChildren hm hlt]
  exact_mod_cast hpos

end Tree.WellFormed

namespace Ensemble

variable {e : Ensemble} {id : Nat} {p : String}

theorem readable_of_absent (hp : Valid p) (hn : e.tree.node? p = none) :
    e.readable id p = .error (.noNode p) := by
  simp [readable, checkPath_of_valid hp, Tree.node_of_absent hn, bind, Except.bind]

theorem readable_of_not_permitted {n : Node} (hp : Valid p) (hn : e.tree.node? p = some n)
    (hperm : n.acl.permits (e.caller id).identity = false) :
    e.readable id p = .error (.noAuth p) := by
  simp [readable, checkPath_of_valid hp, Tree.node_of_stored hn,
    Tree.authorize_of_not_permits hperm, bind, Except.bind]

theorem readable_of_permitted {n : Node} (hp : Valid p) (hn : e.tree.node? p = some n)
    (hperm : n.acl.permits (e.caller id).identity = true) : e.readable id p = .ok n := by
  simp [readable, checkPath_of_valid hp, Tree.node_of_stored hn, Tree.authorize_of_permits hperm,
    bind, Except.bind, pure, Except.pure]

theorem readable_eq_ok_iff {n : Node} : e.readable id p = .ok n ↔
    Valid p ∧ e.tree.node? p = some n ∧ n.acl.permits (e.caller id).identity = true := by
  refine ⟨fun h => ?_, fun ⟨hp, hn, hperm⟩ => readable_of_permitted hp hn hperm⟩
  by_cases hp : Valid p
  · cases hn : e.tree.node? p with
    | none => simp [readable_of_absent hp hn] at h
    | some m =>
      cases hperm : m.acl.permits (e.caller id).identity with
      | false => simp [readable_of_not_permitted hp hn hperm] at h
      | true =>
        obtain rfl : m = n := by simpa [readable_of_permitted hp hn hperm] using h
        exact ⟨hp, rfl, hperm⟩
  · obtain ⟨fault, hf⟩ := exists_fault_of_not_valid hp
    simp [readable, checkPath_of_fault hf, bind, Except.bind] at h

theorem perform_getChildren_eq_ok {names : List String}
    (h : (e.perform id (.getChildren p)).1 = .ok names) :
    ∃ n, Valid p ∧ e.tree.node? p = some n ∧ names = n.children := by
  cases hr : e.readable id p with
  | error error => simp [perform, hr, Except.map] at h
  | ok n =>
    obtain ⟨hp, hn, -⟩ := readable_eq_ok_iff.1 hr
    exact ⟨n, hp, hn, by simpa [perform, hr, Except.map, eq_comm] using h⟩

theorem perform_stat_of_valid (hp : Valid p) :
    e.perform id (.stat p) = (.ok ((e.tree.node? p).map Node.stat), e) := by
  simp [perform, checkPath_of_valid hp, Except.map]

/-- The tree of every reachable ensemble is well-formed, and its counters of children, while
they have not wrapped around, say what the child lists say and are never taken below zero. -/
theorem tree_consistent_of_reachable (h : Reachable e) :
    e.tree.WellFormed ∧
    (∀ p n, e.tree.node? p = some n → n.children.length < 2 ^ 31 →
      n.stat.numChildren.toInt = n.children.length) ∧
    (∀ p q n m, e.tree.node? p = some n → parent? p = some q → e.tree.node? q = some m →
      m.children.length < 2 ^ 31 → 0 < m.stat.numChildren.toInt) ∧
    ∀ id p names, (e.perform id (.getChildren p)).1 = .ok names → names.length < 2 ^ 31 →
      ∃ s, (e.perform id (.stat p)).1 = .ok (some s) ∧ s.numChildren.toInt = names.length := by
  have ht := h.wellFormed
  refine ⟨ht, fun p n hn hlt => ht.toInt_numChildren hn hlt,
    fun p q n m hn hq hm hlt => ht.numChildren_pos hn hq hm hlt, fun id p names hnames hlt => ?_⟩
  obtain ⟨n, hp, hn, rfl⟩ := perform_getChildren_eq_ok hnames
  exact ⟨n.stat, by simp [perform_stat_of_valid hp, hn], ht.toInt_numChildren hn hlt⟩

def nested : Ensemble :=
  (((({} : Ensemble).connect "memory" none).2.complete 1 none
    (.create "/a" [] .persistent)).2.complete 1 none (.create "/a/b" [1] .ephemeralNode)).2

theorem nested_reachable : Reachable nested :=
  .step (.step (.step .fresh (.connect ..)) (.complete ..)) (.complete ..)

theorem tree_consistent_nested :
    Reachable nested ∧ nested.tree.WellFormed ∧
      ∃ n, nested.tree.node? "/a" = some n ∧ n.children = ["b"] ∧ n.stat.numChildren.toInt = 1 := by
  obtain ⟨hwf, hcount, -⟩ := tree_consistent_of_reachable nested_reachable
  obtain ⟨n, hn, hchildren⟩ :
      ∃ n, nested.tree.node? "/a" = some n ∧ n.children = ["b"] := ⟨_, rfl, rfl⟩
  refine ⟨nested_reachable, hwf, n, hn, hchildren, ?_⟩
  simpa [hchildren] using hcount "/a" n hn (by simp [hchildren])

end Ensemble

end KeyRegistry
