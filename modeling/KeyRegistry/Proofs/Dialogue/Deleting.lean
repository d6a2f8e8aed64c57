import KeyRegistry.Proofs.Dialogue.Undisturbed
import KeyRegistry.Proofs.Tree.Removal

/-!
# Deleting a subtree

Undisturbed, the collection of a subtree comes to an end with every node under the
root, and the deletion takes them all out at the first attempt.
-/

namespace KeyRegistry

open KeyRegistry.Path

namespace Dialogue

variable {who : Caller} {t t' : Tree} {p x : String} {visited pending ps : List String}
  {r : Except ServiceError Unit}

/-! ## Collecting -/

/-- A walk ends with everything under its top, or at a node that the caller may not read. -/
theorem does_collect_cases (h : t.WellFormed) (hwalk : t.Walk p visited pending)
    (hvisited : ∀ x ∈ visited, t.Readable who.identity x) :
    (∃ found, t.Walk p found [] ∧ (∀ x ∈ found, t.Readable who.identity x) ∧
      Does who t (collect visited pending done) t (.ok found)) ∨
    ∃ x, t.Stored x ∧ isWithin p x = true ∧ ¬t.Readable who.identity x ∧
      Does who t (collect visited pending done) t (.error (.noAuth x)) := by
  obtain ⟨left, hleft⟩ : ∃ left, t.nodes.length ≤ visited.length + left :=
    ⟨t.nodes.length, by omega⟩
  induction left generalizing visited pending with
  | zero =>
    cases pending with
    | nil => exact .inl ⟨visited, hwalk, hvisited, .done rfl⟩
    | cons x rest =>
      have := hwalk.length_lt
      omega
  | succ left ih =>
    cases pending with
    | nil => exact .inl ⟨visited, hwalk, hvisited, .done rfl⟩
    | cons x rest =>
      obtain ⟨n, hn⟩ := hwalk.stored x (by simp)
      cases hperm : n.acl.permits who.identity with
      | true =>
        have hserved := served_getChildren (h.valid hn) hn hperm
        have hread : ∀ y ∈ visited ++ [x], t.Readable who.identity y :=
          List.forall_mem_append.2 ⟨hvisited, by simpa using ⟨n, hn, hperm⟩⟩
        rcases ih (hwalk.next h hn) hread (by simp; omega) with
          ⟨found, hfound, hreads, hdoes⟩ | ⟨y, hy, hw, hnot, hdoes⟩
        · exact .inl ⟨found, hfound, hreads, .call rfl hserved hdoes⟩
        · exact .inr ⟨y, hy, hw, hnot, .call rfl hserved hdoes⟩
      | false =>
        refine .inr ⟨x, ⟨n, hn⟩, hwalk.within x (by simp), ?_,
          .call rfl (served_getChildren_refused (h.valid hn) hn hperm) (.done rfl)⟩
        rintro ⟨k, hk, hkperm⟩
        obtain rfl : n = k := Option.some.inj (hn.symm.trans hk)
        simp [hperm] at hkperm

theorem does_collectSubtree_cases (h : t.WellFormed) (hp : t.Stored p) :
    (∃ found, t.Walk p found [] ∧ (∀ x ∈ found, t.Readable who.identity x) ∧
      Does who t (collectSubtree p) t (.ok found)) ∨
    ∃ x, t.Stored x ∧ isWithin p x = true ∧ ¬t.Readable who.identity x ∧
      Does who t (collectSubtree p) t (.error (.noAuth x)) :=
  does_collect_cases h (Tree.walk_start (hp.elim fun _ hn => h.valid hn) hp) (by simp)

theorem does_collectSubtree_absent (hp : Valid p) (h : ¬t.Stored p) :
    Does who t (collectSubtree p) t (.ok []) :=
  .call rfl (served_getChildren_absent hp (Tree.not_stored_iff.1 h)) (.done rfl)

/-! ## Deleting -/

theorem does_deleteEach (h : t.WellFormed) (hs : t.Strippable who ps) :
    Does who t (deleteEach ps) (t.unlinkAll ps).1 (.ok ()) ∧
      Tree.Steps who t (ps.map fun p => ⟨.deleted, p⟩) (t.unlinkAll ps).1 := by
  induction ps generalizing t with
  | nil => exact ⟨.done rfl, .nil t⟩
  | cons p ps ih =>
    obtain ⟨t', hdelete, hstep, hs', hunlink⟩ := hs.first h
    obtain ⟨hdoes, hsteps⟩ := ih (hstep.wellFormed h) hs'
    have htree : (t.unlinkAll (p :: ps)).1 = (t'.unlinkAll ps).1 := by
      simp [Tree.unlinkAll, hunlink]
    have hp : Valid p := (hs.stored p (by simp)).elim fun _ hn => h.valid hn
    rw [htree]
    exact ⟨(Does.ask (served_delete hp hdelete)).bind hdoes, .cons hstep hsteps⟩

/-- A deletion takes out what lies under a node, the last listed first, or it is refused for a node
that the caller may not read, before anything is taken out. -/
theorem does_deleteRecursive_cases (h : t.WellFormed) (hp : t.Stored p) (hr : p ≠ root) :
    (∃ found : List String, (∀ x, x ∈ found ↔ t.Stored x ∧ isWithin p x = true) ∧
      (∀ x, t.Stored x → isWithin p x = true → t.Readable who.identity x) ∧
      Does who t (deleteRecursive p) (t.unlinkAll found).1 (.ok ()) ∧
      Tree.Steps who t (found.map fun p => ⟨.deleted, p⟩) (t.unlinkAll found).1) ∨
    ∃ x, t.Stored x ∧ isWithin p x = true ∧ ¬t.Readable who.identity x ∧
      Does who t (deleteRecursive p) t (.error (.noAuth x)) := by
  rcases does_collectSubtree_cases h hp with
    ⟨found, hwalk, hread, hcollect⟩ | ⟨x, hx, hw, hnot, hcollect⟩
  · have hall (x : String) (hx : t.Stored x) (hw : isWithin p x = true) :
        t.Readable who.identity x := hread x (hwalk.complete h hx hw)
    obtain ⟨hdelete, hsteps⟩ := does_deleteEach h (hwalk.strippable h hr hall)
    have honce : Does who t (deleteOnce p) (t.unlinkAll found.reverse).1 (.ok ()) :=
      hcollect.bind hdelete
    exact .inl ⟨found.reverse, fun x => by rw [List.mem_reverse, hwalk.mem_iff h], hall,
      honce.bind (.done rfl), hsteps⟩
  · have honce : Does who t (deleteOnce p) t (.error (.noAuth x)) := hcollect.bind (.done rfl)
    exact .inr ⟨x, hx, hw, hnot, honce.bind (.done rfl)⟩

/-- An undisturbed deletion of readable nodes succeeds. -/
theorem does_deleteRecursive (h : t.WellFormed) (hp : t.Stored p) (hr : p ≠ root)
    (hread : ∀ x, t.Stored x → isWithin p x = true → t.Readable who.identity x) :
    ∃ found : List String, (∀ x, x ∈ found ↔ t.Stored x ∧ isWithin p x = true) ∧
      Does who t (deleteRecursive p) (t.unlinkAll found).1 (.ok ()) ∧
      Tree.Steps who t (found.map fun p => ⟨.deleted, p⟩) (t.unlinkAll found).1 := by
  rcases does_deleteRecursive_cases h hp hr with
    ⟨found, hfound, -, hdoes, hsteps⟩ | ⟨x, hx, hw, hnot, -⟩
  · exact ⟨found, hfound, hdoes, hsteps⟩
  · exact absurd (hread x hx hw) hnot

theorem does_deleteRecursive_absent (hp : Valid p) (h : ¬t.Stored p) :
    Does who t (deleteRecursive p) t (.ok ()) := by
  have honce : Does who t (deleteOnce p) t (.ok ()) :=
    (does_collectSubtree_absent hp h).bind (.done rfl)
  exact honce.bind (.done rfl)

end Dialogue

end KeyRegistry
