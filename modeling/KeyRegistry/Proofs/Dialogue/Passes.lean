import KeyRegistry.Proofs.Dialogue.Confinement
import KeyRegistry.Proofs.Dialogue.Transcript

/-!
# The passes of a deletion

A recursive deletion goes over its subtree in passes: it asks for the children of one
path after another and then deletes what it has found, the top last. Whatever others do,
there are at most three passes, and a node that is gone is no failure.
-/

namespace KeyRegistry

open KeyRegistry.Path

inductive Exchange.Clears (p : String) : Exchange → Prop
  | absent {s : Nat} {q : String} {e e' : Ensemble} :
      Clears p ⟨s, .getChildren p, .error (.noNode q), e, e'⟩
  | deleted {s : Nat} {e e' : Ensemble} : Clears p ⟨s, .delete p none, .ok (), e, e'⟩
  | gone {s : Nat} {q : String} {e e' : Ensemble} :
      Clears p ⟨s, .delete p none, .error (.noNode q), e, e'⟩

namespace Dialogue

variable {p top : String} {log : List Exchange} {ps : List String}

def LooksWithin (top : String) (x : Exchange) : Prop :=
  ∃ q, x.request = .getChildren q ∧ isWithin top q = true

def DeletesWithin (top : String) (x : Exchange) : Prop :=
  ∃ q, x.request = .delete q none ∧ isWithin top q = true

/-- One pass over the subtree of `p`: looks that begin at the top, then deletions. -/
structure Pass (p : String) (log : List Exchange) : Prop where
  top : ∀ x, log.head? = some x → x.request = .getChildren p
  parts : ∃ looks deletions, log = looks ++ deletions ∧ (∀ x ∈ looks, LooksWithin p x) ∧
    ∀ x ∈ deletions, DeletesWithin p x

theorem isWithin_refl_text (p : String) : isWithin p p = true := by
  by_cases hp : p = root
  · rw [hp]
    exact isWithin_refl valid_root
  · exact isWithin_self hp

/-! ## Looking -/

structure Walks (top : String) (visited : List String) (log : List Exchange)
    (o : Option (Except ServiceError (List String))) : Prop where
  looks : ∀ x ∈ log, LooksWithin top x
  found {found : List String} : o = some (.ok found) →
    visited <+: found ∧ ∀ q ∈ found, isWithin top q = true
  failed (q : String) : o ≠ some (.error (.noNode q))

theorem walks_collect {visited pending : List String} {log : List Exchange}
    {o : Option (Except ServiceError (List String))}
    (hpaths : ∀ q ∈ visited ++ pending, isWithin top q = true) (hvisited : visited ≠ [])
    (h : Transcript (collect visited pending done) log o) : Walks top visited log o := by
  cases pending with
  | nil =>
    obtain ⟨rfl, ho⟩ := transcript_done (a := .ok visited) rfl h
    rcases ho with rfl | rfl
    · exact ⟨by simp, nofun, nofun⟩
    · refine ⟨by simp, fun hfound => ?_, nofun⟩
      cases hfound
      exact ⟨List.prefix_rfl, by simpa using hpaths⟩
  | cons p rest =>
    have hp := hpaths p (by simp)
    rcases transcript_call rfl h with ⟨rfl, rfl⟩ | ⟨s, answer, e, e', tail, rfl, htail⟩
    · exact ⟨by simp, nofun, nofun⟩
    · have hgo (children : List String)
          (htail : Transcript (collect (visited ++ [p]) (rest ++ children.map (Path.join p)) done)
            tail o) : Walks top visited (⟨s, .getChildren p, answer, e, e'⟩ :: tail) o := by
        have hnext : Walks top (visited ++ [p]) tail o := walks_collect (by
          simp only [List.forall_mem_append, List.forall_mem_cons, List.forall_mem_map] at hpaths ⊢
          exact ⟨⟨hpaths.1, hp, by simp⟩, hpaths.2.2, fun c _ => isWithin_join_text hp c⟩)
          (by simp) htail
        exact ⟨List.forall_mem_cons.2 ⟨⟨p, rfl, hp⟩, hnext.looks⟩, fun ho =>
          ⟨(List.prefix_append _ _).trans (hnext.found ho).1, (hnext.found ho).2⟩, hnext.failed⟩
      cases answer with
      | ok children => exact hgo children htail
      | error error =>
        cases error with
        | noNode q =>
          simp only [afterChildren, if_neg hvisited] at htail
          exact hgo [] (by simpa using htail)
        | _ =>
          obtain ⟨rfl, ho⟩ := transcript_done rfl htail
          rcases ho with rfl | rfl <;> exact ⟨by simpa using ⟨p, rfl, hp⟩, nofun, nofun⟩
termination_by log.length

/-- The whole walk looks at its top first. If it finds nothing, the top is gone. -/
theorem transcript_collectSubtree {o : Option (Except ServiceError (List String))}
    (h : Transcript (collectSubtree p) log o) :
    (∀ x, log.head? = some x → x.request = .getChildren p) ∧ (∀ x ∈ log, LooksWithin p x) ∧
      (∀ q, o ≠ some (.error (.noNode q))) ∧ ∀ found, o = some (.ok found) →
        (∀ q ∈ found, isWithin p q = true) ∧
          (found = [] ∧ (∃ x, log = [x] ∧ x.Clears p) ∨ found.head? = some p) := by
  rcases transcript_call (d := collectSubtree p) rfl h with
    ⟨rfl, rfl⟩ | ⟨s, answer, e, e', tail, rfl, htail⟩
  · exact ⟨by simp, by simp, nofun, nofun⟩
  · have hlook : LooksWithin p ⟨s, .getChildren p, answer, e, e'⟩ := ⟨p, rfl, isWithin_refl_text p⟩
    refine ⟨by simp, ?_⟩
    cases answer with
    | ok children =>
      have hwalks : Walks p [p] tail o := walks_collect (by
        simpa using ⟨isWithin_refl_text p, fun c _ => isWithin_join_text (isWithin_refl_text p) c⟩)
        (by simp) htail
      refine ⟨List.forall_mem_cons.2 ⟨hlook, hwalks.looks⟩, hwalks.failed, fun found ho => ?_⟩
      obtain ⟨⟨more, rfl⟩, hfound⟩ := hwalks.found ho
      exact ⟨hfound, .inr rfl⟩
    | error error =>
      cases error with
      | noNode q =>
        obtain ⟨rfl, ho⟩ := transcript_done (a := .ok []) rfl htail
        refine ⟨by simpa using hlook, ?_⟩
        rcases ho with rfl | rfl
        · exact ⟨nofun, nofun⟩
        · refine ⟨nofun, fun found hfound => ?_⟩
          cases hfound
          exact ⟨by simp, .inl ⟨rfl, _, rfl, .absent⟩⟩
      | _ =>
        obtain ⟨rfl, ho⟩ := transcript_done rfl htail
        refine ⟨by simpa using hlook, ?_⟩
        rcases ho with rfl | rfl <;> exact ⟨nofun, nofun⟩

/-! ## Deleting -/

/-- What is known of deletions one after the other: if all succeed, the last path is known to be
gone. -/
structure Deletes (ps : List String) (log : List Exchange)
    (o : Option (Except ServiceError Unit)) : Prop where
  deletes : ∀ x ∈ log, ∃ q ∈ ps, x.request = .delete q none
  cleared : o = some (.ok ()) → ∀ q, ps.getLast? = some q → ∃ init x, log = init ++ [x] ∧ x.Clears q
  failed (q : String) : o ≠ some (.error (.noNode q))

theorem deletes_cons {o : Option (Except ServiceError Unit)} {x : Exchange}
    (hx : x.request = .delete p none) (hclears : x.Clears p)
    (h : Transcript (deleteEach ps) log o) (hrest : Deletes ps log o) :
    Deletes (p :: ps) (x :: log) o where
  deletes := List.forall_mem_cons.2 ⟨⟨p, by simp, hx⟩, fun y hy => by
    obtain ⟨q, hq, hreq⟩ := hrest.deletes y hy
    exact ⟨q, by simp [hq], hreq⟩⟩
  cleared ho q hq := by
    cases ps with
    | nil =>
      obtain ⟨rfl, -⟩ := transcript_done (a := .ok ()) rfl h
      cases hq
      exact ⟨[], x, rfl, hclears⟩
    | cons p' ps =>
      obtain ⟨init, y, rfl, hy⟩ := hrest.cleared ho q (by simpa using hq)
      exact ⟨x :: init, y, rfl, hy⟩
  failed := hrest.failed

theorem deletes_deleteEach {o : Option (Except ServiceError Unit)}
    (h : Transcript (deleteEach ps) log o) : Deletes ps log o := by
  induction ps generalizing log with
  | nil =>
    obtain ⟨rfl, ho⟩ := transcript_done (a := .ok ()) rfl h
    rcases ho with rfl | rfl <;> exact ⟨by simp, by simp, nofun⟩
  | cons p ps ih =>
    rcases transcript_ask h with ⟨rfl, rfl⟩ | ⟨s, answer, e, e', tail, rfl, htail⟩
    · exact ⟨by simp, nofun, nofun⟩
    · cases answer with
      | ok => exact deletes_cons rfl .deleted htail (ih htail)
      | error error =>
        cases error with
        | noNode q => exact deletes_cons rfl .gone htail (ih htail)
        | _ =>
          obtain ⟨rfl, ho⟩ := transcript_done rfl htail
          rcases ho with rfl | rfl <;> exact ⟨by simp, nofun, nofun⟩

/-! ## Passes -/

structure Clearing (p : String) (most : Nat) (log : List Exchange)
    (o : Option (Except ServiceError Unit)) : Prop where
  passes : ∃ passes : List (List Exchange), passes.length ≤ most ∧ passes.flatten = log ∧
    ∀ pass ∈ passes, Pass p pass
  cleared : o = some (.ok ()) → ∃ init x, log = init ++ [x] ∧ x.Clears p
  failed (q : String) : o ≠ some (.error (.noNode q))

theorem clearing_deleteOnce {o : Option (Except ServiceError Unit)}
    (h : Transcript (deleteOnce p) log o) : Pass p log ∧ Clearing p 1 log o := by
  suffices Pass p log ∧ (o = some (.ok ()) → ∃ init x, log = init ++ [x] ∧ x.Clears p) ∧
      ∀ q, o ≠ some (.error (.noNode q)) from
    ⟨this.1, ⟨[log], by simp, by simp, by simpa using this.1⟩, this.2.1, this.2.2⟩
  rcases transcript_bind h with ⟨hlooks, rfl⟩ | ⟨first, found, rest, rfl, hfirst, hrest⟩
  · obtain ⟨htop, hwithin, -⟩ := transcript_collectSubtree hlooks
    exact ⟨⟨htop, log, [], by simp, hwithin, by simp⟩, nofun, nofun⟩
  · obtain ⟨htop, hwithin, hne, hfound⟩ := transcript_collectSubtree hfirst
    have hfirst_ne : first ≠ [] := by
      rintro rfl
      cases hfirst with
      | done turn => cases turn
      | note turn rest => cases turn
    have hhead : ∀ x, (first ++ rest).head? = some x → x.request = .getChildren p := fun x hx =>
      htop x (by rwa [List.head?_append_of_ne_nil _ hfirst_ne] at hx)
    cases found with
    | error error =>
      obtain ⟨rfl, ho⟩ := transcript_done (a := .error error) rfl hrest
      refine ⟨⟨hhead, first, [], rfl, hwithin, by simp⟩, ?_, fun q => ?_⟩
      · rcases ho with rfl | rfl <;> nofun
      · rcases ho with rfl | rfl
        · nofun
        · exact fun heq => hne q (by cases heq; rfl)
    | ok found =>
      obtain ⟨hmem, hend⟩ := hfound found rfl
      have hdeletes := deletes_deleteEach hrest
      refine ⟨⟨hhead, first, rest, rfl, hwithin, fun x hx => ?_⟩, fun ho => ?_, hdeletes.failed⟩
      · obtain ⟨q, hq, hreq⟩ := hdeletes.deletes x hx
        exact ⟨q, hreq, hmem q (List.mem_reverse.1 hq)⟩
      · rcases hend with ⟨rfl, x, rfl, hx⟩ | htop
        · obtain ⟨rfl, -⟩ := transcript_done (a := .ok ()) rfl hrest
          exact ⟨[], x, rfl, hx⟩
        · obtain ⟨init, x, rfl, hx⟩ := hdeletes.cleared ho p (by rw [List.getLast?_reverse, htop])
          exact ⟨first ++ init, x, by simp, hx⟩

/-- Each pass that is repeated adds one. -/
theorem clearing_deleteFrom {o : Option (Except ServiceError Unit)} {attempt again : Nat}
    (h : Transcript (deleteFrom p attempt again) log o) : Clearing p (again + 1) log o := by
  induction again generalizing attempt log with
  | zero => exact (clearing_deleteOnce h).2
  | succ again ih =>
    have hmore {log : List Exchange} {o : Option (Except ServiceError Unit)}
        (h : Clearing p 1 log o) : Clearing p (again + 1 + 1) log o := by
      obtain ⟨passes, hlen, hflat, hpass⟩ := h.passes
      exact ⟨⟨passes, by omega, hflat, hpass⟩, h.cleared, h.failed⟩
    rcases transcript_bind h with ⟨honce, rfl⟩ | ⟨first, result, rest, rfl, hfirst, hrest⟩
    · exact hmore (clearing_deleteOnce honce).2
    · obtain ⟨hpass, honce⟩ := clearing_deleteOnce hfirst
      have hstop (answer : Except ServiceError Unit) (hresult : result = answer)
          (hrest : Transcript (done answer) rest o) :
          Clearing p (again + 1 + 1) (first ++ rest) o := by
        obtain ⟨rfl, ho⟩ := transcript_done (a := answer) rfl hrest
        subst hresult
        rw [List.append_nil]
        rcases ho with rfl | rfl
        · exact ⟨(hmore honce).passes, nofun, nofun⟩
        · exact hmore honce
      cases result with
      | ok => exact hstop _ rfl hrest
      | error error =>
        cases error with
        | notEmpty child =>
          rcases transcript_note rfl hrest with hrest | ⟨rfl, rfl⟩
          · have hnext := ih hrest
            obtain ⟨passes, hlen, hflat, hpasses⟩ := hnext.passes
            refine ⟨⟨first :: passes, by simpa using hlen, by simp [hflat], ?_⟩, fun ho => ?_,
              hnext.failed⟩
            · exact List.forall_mem_cons.2 ⟨hpass, hpasses⟩
            · obtain ⟨init, x, rfl, hx⟩ := hnext.cleared ho
              exact ⟨first ++ init, x, by simp, hx⟩
          · rw [List.append_nil]
            exact ⟨(hmore honce).passes, nofun, nofun⟩
        | _ => exact hstop _ rfl hrest

theorem clearing_deleteRecursive {o : Option (Except ServiceError Unit)}
    (h : Transcript (deleteRecursive p) log o) : Clearing p deleteAttempts log o :=
  clearing_deleteFrom h

end Dialogue

end KeyRegistry
