import KeyRegistry.Proofs.Dialogue.Passes
import KeyRegistry.Proofs.Task.Joint
import KeyRegistry.Proofs.Tree.Ancestry
import KeyRegistry.Proofs.Tree.Sequence

/-!
# Deleting a subtree under interference

Others may create, delete and create again whatever they like between the calls of a
recursive deletion, and calls may be struck. If the deletion succeeds, the last call
found or left the subtree empty: its top goes last, and only without children.
-/

namespace KeyRegistry

open KeyRegistry.Path

namespace Ensemble

variable {e : Ensemble} {id : Nat} {p q : String}

theorem absent_of_readable (h : e.readable id p = .error (.noNode q)) :
    Valid p ∧ e.tree.node? p = none := by
  by_cases hp : Valid p
  · refine ⟨hp, ?_⟩
    cases hn : e.tree.node? p with
    | none => rfl
    | some n =>
      cases hperm : n.acl.permits (e.caller id).identity with
      | false => simp [readable_of_not_permitted hp hn hperm] at h
      | true => simp [readable_of_permitted hp hn hperm] at h
  · obtain ⟨fault, hf⟩ := exists_fault_of_not_valid hp
    simp [readable, checkPath_of_fault hf, bind, Except.bind] at h

theorem deleted_of_perform {version : Option Int32}
    (h : (e.perform id (.delete p version)).1 = .ok ()) : Valid p ∧
      Tree.Step (e.caller id) e.tree ⟨.deleted, p⟩ (e.perform id (.delete p version)).2.tree := by
  obtain ⟨c, hc, -, htree⟩ := ok_of_settle h
  obtain ⟨hp, hc⟩ := ok_of_bind_checkPath hc
  exact ⟨hp, htree ▸ (Tree.step_of_delete hp hc).2⟩

end Ensemble

namespace Tree

variable {t : Tree} {p q : String} {version : Option Int32} {who : Caller}

theorem absent_of_delete (hp : Valid p) (h : t.delete p version who = .error (.noNode q)) :
    t.node? p = none := by
  by_cases hr : p = root
  · simp [hr, delete_root] at h
  · obtain ⟨r, -, -, -, hq, -⟩ := exists_parent_name hp hr
    cases hn : t.node? p with
    | none => rfl
    | some n =>
      by_cases hv : Expects version n
      · by_cases hc : n.children = []
        · by_cases hperm : ∀ parent, t.node? r = some parent →
              parent.acl.permits who.identity = true
          · simp [delete_of_permitted hq hn hv hc hperm] at h
          · push Not at hperm
            obtain ⟨parent, hparent, hperm⟩ := hperm
            simp [delete_of_not_permitted hq hn hv hc hparent (by simpa using hperm)] at h
        · simp [delete_of_children hq hn hv hc] at h
      · simp [delete_of_not_expects hq hn hv] at h

end Tree

theorem Ensemble.absent_of_perform {e : Ensemble} {id : Nat} {p q : String}
    {version : Option Int32} (h : (e.perform id (.delete p version)).1 = .error (.noNode q)) :
    Valid p ∧ e.tree.node? p = none := by
  have hrefused := error_of_settle h
  by_cases hp : Valid p
  · rw [checkPath_of_valid hp] at hrefused
    exact ⟨hp, Tree.absent_of_delete hp hrefused⟩
  · obtain ⟨fault, hf⟩ := exists_fault_of_not_valid hp
    simp [checkPath_of_fault hf, bind, Except.bind] at hrefused

namespace Exchange

variable {x : Exchange} {p : String} {ok : ServiceError → Prop}

/-- What takes a node for gone is right, unless the service is made to say so. -/
theorem Clears.not_stored (hclears : x.Clears p) (h : x.Genuine ok)
    (hok : ∀ q, ¬ok (.noNode q)) : Valid p ∧ ¬x.after.tree.Stored p := by
  have hstruck {q : String} : ¬∃ error, ServiceError.noNode q = error ∧
      (error = .sessionClosed ∨ error = .sessionExpired ∨ ok error) := by
    rintro ⟨error, rfl, hcases⟩
    simp [hok] at hcases
  have hserved := h.answered.perform_eq
  cases hclears with
  | @absent s q e e' =>
    rcases hserved with ⟨error, ⟨⟩, hcases⟩ | hserved
    · exact absurd ⟨_, rfl, hcases⟩ hstruck
    · have hread : e.readable s p = .error (.noNode q) := by
        have hanswer := congrArg Prod.fst hserved
        cases hread : e.readable s p <;> simp_all [Ensemble.perform, Except.map]
      obtain ⟨hp, hnone⟩ := Ensemble.absent_of_readable hread
      obtain rfl : e = e' := congrArg Prod.snd hserved
      exact ⟨hp, Tree.not_stored_iff.2 hnone⟩
  | @deleted s e e' =>
    rcases hserved with ⟨error, ⟨⟩, -⟩ | hserved
    obtain ⟨hp, hstep⟩ := Ensemble.deleted_of_perform (congrArg Prod.fst hserved)
    rw [congrArg Prod.snd hserved] at hstep
    refine ⟨hp, fun hstored => ?_⟩
    rw [hstep.stored_iff h.reachable.wellFormed] at hstored
    exact hstored.1 rfl
  | @gone s q e e' =>
    rcases hserved with ⟨error, ⟨⟩, hcases⟩ | hserved
    · exact absurd ⟨_, rfl, hcases⟩ hstruck
    · have hanswer := congrArg Prod.fst hserved
      obtain ⟨hp, hnone⟩ := Ensemble.absent_of_perform hanswer
      obtain rfl : e = e' :=
        (Ensemble.perform_of_error hanswer).symm.trans (congrArg Prod.snd hserved)
      exact ⟨hp, Tree.not_stored_iff.2 hnone⟩

/-- With the top of a subtree everything in it is gone. -/
theorem Clears.empty (hclears : x.Clears p) (h : x.Genuine ok) (hok : ∀ q, ¬ok (.noNode q))
    {q : String} (hw : isWithin p q = true) : ¬x.after.tree.Stored q := fun hq => by
  obtain ⟨hp, hnot⟩ := hclears.not_stored h hok
  exact hnot (h.after_reachable.wellFormed.stored_of_isWithin hp hq hw)

/-- What an exchange takes out, it says to be deleted. -/
theorem Genuine.mem_events (h : x.Genuine ok) {q : String} (hq : x.before.tree.Stored q)
    (hgone : ¬x.after.tree.Stored q) : ⟨.deleted, q⟩ ∈ x.events := by
  by_contra hkept
  exact hgone (h.steps.stored h.reachable.wellFormed hq hkept)

end Exchange

namespace Dialogue

variable {p q : String} {x : Exchange}

theorem Pass.isWithin_of_deleted {log : List Exchange} (h : Pass p log) (hx : x ∈ log)
    (hq : ⟨.deleted, q⟩ ∈ x.events) : isWithin p q = true := by
  obtain ⟨looks, deletions, rfl, hlooks, hdeletions⟩ := h.parts
  obtain ⟨s, r, answer, e, e'⟩ := x
  rcases List.mem_append.1 hx with hx | hx
  · obtain ⟨y, rfl, -⟩ : ∃ y, r = .getChildren y ∧ _ := hlooks _ hx
    cases answer <;> cases hq
  · obtain ⟨y, rfl, hy⟩ : ∃ y, r = .delete y none ∧ _ := hdeletions _ hx
    cases answer with
    | error error => cases hq
    | ok =>
      obtain rfl : q = y := by simpa [Exchange.events, Request.events] using hq
      exact hy

end Dialogue

namespace Task

open Dialogue

variable {p : String} {s : SessionId} {w u : World} {log : List Exchange}
  {t : Task (Except ServiceError Unit)}

/-- Whatever happens between the calls of a recursive deletion, and whatever faults but the lack of
a node strike them: if it succeeds, no node within `p` is there after its last call; what its calls
take out lies within `p`; it makes at most three passes; and it does not fail for the lack of a
node. -/
theorem deleteRecursive_under_interference
    (h : Record (fun _ v => v.Sound fun error => ∀ q, error ≠ .noNode q) w
      (say s (deleteRecursive p)) log u t) :
    (t.result? = some (.ok ()) → ∃ init x, log = init ++ [x] ∧
      ∀ q, isWithin p q = true → ¬x.after.tree.Stored q) ∧
    (∀ x ∈ log, ∀ q, x.before.tree.Stored q → ¬x.after.tree.Stored q → isWithin p q = true) ∧
    (∃ passes : List (List Exchange), passes.length ≤ 3 ∧ passes.flatten = log ∧
      ∀ pass ∈ passes, Pass p pass) ∧
    ∀ q, t.result? ≠ some (.error (.noNode q)) := by
  obtain ⟨hspeaks, hlog⟩ := h.speaks
  have hclearing := clearing_deleteRecursive hspeaks.transcript
  refine ⟨fun hok => ?_, fun x hx q hq hgone => ?_, hclearing.passes, hclearing.failed⟩
  · obtain ⟨init, x, rfl, hx⟩ := hclearing.cleared hok
    exact ⟨init, x, rfl, fun q => hx.empty (hlog x (by simp)).2 (by simp)⟩
  · have hevent := (hlog x hx).2.mem_events hq hgone
    obtain ⟨passes, -, rfl, hpasses⟩ := hclearing.passes
    obtain ⟨pass, hpass, hmem⟩ := List.mem_flatten.1 hx
    exact (hpasses pass hpass).isWithin_of_deleted hmem hevent

def contested : Ensemble :=
  let e := ((({} : Ensemble).connect "memory" none).2.connect "memory" none).2
  (e.complete 1 none (.create "/a" [] .persistent)).2

def rivals : List (SessionId × Dialogue (Except ServiceError Unit)) :=
  [(⟨0, 1⟩, deleteRecursive "/a"), (⟨0, 2⟩, ensurePath "/a/b")]

def rivalry : List (Nat × Exchange) × World × List (Task (Except ServiceError Unit)) :=
  play ([0, 0, 1, 1] ++ List.replicate 12 0) { ensembles := [contested] }
    (rivals.map fun d => say d.1 d.2)

/-- The first pass comes to a node that has got a child, the second one takes both out. -/
theorem deleteRecursive_contested : ∃ log u t,
    Record (fun _ v => v.Sound fun error => ∀ q, error ≠ .noNode q) { ensembles := [contested] }
      (say ⟨0, 1⟩ (deleteRecursive "/a")) log u t ∧ t.result? = some (.ok ()) ∧
    log.map Exchange.request = [.getChildren "/a", .delete "/a" none, .getChildren "/a",
      .getChildren "/a/b", .delete "/a/b" none, .delete "/a" none] ∧
    ∃ init x, log = init ++ [x] ∧ ∀ q, isWithin "/a" q = true → ¬x.after.tree.Stored q := by
  have hsound : World.Sound (fun error => ∀ q, error ≠ .noNode q) { ensembles := [contested] } := by
    have hreach : contested.Reachable :=
      .step (.step (.step .fresh (.connect ..)) (.connect ..)) (.complete ..)
    exact ⟨by simpa using hreach, by simp [show contested.faults.pending = [] from rfl]⟩
  have hrun : Joint Eq { ensembles := [contested] } _ rivalry.1 rivalry.2.1 rivalry.2.2 :=
    joint_play (fun _ => rfl) _ _ _
  obtain ⟨t, ht, hok⟩ : ∃ t, rivalry.2.2[0]? = some t ∧ t.result? = some (.ok ()) :=
    Option.bind_eq_some_iff.1 (by decide +kernel)
  obtain ⟨u, d, hd, hrecord⟩ := hrun.record_of_sound hsound (fun _ _ hw heq => heq ▸ hw) ht
  cases hd
  obtain ⟨hcleared, -⟩ := deleteRecursive_under_interference hrecord
  exact ⟨_, u, t, hrecord, hok, by decide +kernel, hcleared hok⟩

end Task

end KeyRegistry
