import KeyRegistry.Center.Operations
import KeyRegistry.Proofs.Ensemble.Confinement

/-!
# Dialogues that stay within a subtree

A dialogue stays within a node if each of its calls does, whatever the service
answers. The paths that a walk comes upon are texts that continue those it began with,
so the walk does not leave the subtree.
-/

namespace KeyRegistry

open KeyRegistry.Path

/-- Whatever the texts are, one that continues another at a separator lies within. -/
theorem Path.isWithin_join_text {top p : String} (h : isWithin top p = true) (c : String) :
    isWithin top (join p c) = true := by
  obtain ⟨r, hr⟩ : ∃ r, (join p c).toList = p.toList ++ r ∧
      (p ≠ root → ∃ r', r = separator :: r') := by
    unfold join
    split_ifs with hp
    · exact ⟨c.toList, by simp [hp], fun h => absurd hp h⟩
    · exact ⟨separator :: c.toList, by simp [toList_root], fun _ => ⟨_, rfl⟩⟩
  unfold isWithin at h ⊢
  split_ifs at h ⊢ with htop
  · rw [hr.1]
    cases hp : p.toList with
    | nil => simp [hp] at h
    | cons x xs => simpa [hp] using h
  · simp only [Bool.or_eq_true, beq_iff_eq, List.isPrefixOf_iff_prefix] at h ⊢
    rw [hr.1]
    rcases h with rfl | h
    · obtain ⟨r', rfl⟩ := hr.2 htop
      exact .inr ⟨r', by simp⟩
    · exact .inr (h.trans (List.prefix_append _ _))

namespace Dialogue

variable {α β : Type} {top p : String} {post : α → Prop}

/-- Whether each call of a dialogue stays within `top`, and each of its results is as `post` says,
whatever the service answers. -/
def Stays (top : String) (post : α → Prop) : Dialogue α → Prop
  | done a => post a
  | note _ next => next.Stays top post
  | call r next => r.Stays top ∧ ∀ answer, (next answer).Stays top post
  | collect visited pending next =>
      (∀ p ∈ visited ++ pending, isWithin top p = true) ∧
      (∀ found : List String, (∀ p ∈ found, isWithin top p = true) →
        (next (.ok found)).Stays top post) ∧
      ∀ error, (next (.error error)).Stays top post

def Turn.Stays (top : String) (post : α → Prop) : Turn α → Prop
  | .done a => post a
  | .note _ next => next.Stays top post
  | .call r next => r.Stays top ∧ ∀ answer, (next answer).Stays top post

theorem Stays.bind {d : Dialogue β} {f : β → Dialogue α}
    (h : d.Stays top fun b => (f b).Stays top post) : (d >>= f).Stays top post := by
  show (d.bind f).Stays top post
  induction d with
  | done b => exact h
  | note n next ih => exact ih h
  | call r next ih => exact ⟨h.1, fun answer => ih answer (h.2 answer)⟩
  | collect visited pending next ih =>
    exact ⟨h.1, fun found hfound => ih _ (h.2.1 found hfound), fun error => ih _ (h.2.2 error)⟩

theorem Stays.weaken {post' : α → Prop} {d : Dialogue α} (h : d.Stays top post)
    (himp : ∀ a, post a → post' a) : d.Stays top post' := by
  induction d with
  | done a => exact himp a h
  | note n next ih => exact ih h
  | call r next ih => exact ⟨h.1, fun answer => ih answer (h.2 answer)⟩
  | collect visited pending next ih =>
    exact ⟨h.1, fun found hfound => ih _ (h.2.1 found hfound), fun error => ih _ (h.2.2 error)⟩

/-- What a dialogue does next stays within, and so does what it does after any answer. -/
theorem Stays.turn {d : Dialogue α} (h : d.Stays top post) : d.turn.Stays top post := by
  induction d with
  | done a => exact h
  | note n next => exact h
  | call r next => exact h
  | collect visited pending next ih =>
    obtain ⟨hpaths, hfound, herror⟩ := h
    cases pending with
    | nil => exact ih _ (hfound visited (by simpa using hpaths))
    | cons p rest =>
      have hwalk (children : List String) :
          (collect (visited ++ [p]) (rest ++ children.map (Path.join p)) next).Stays top post := by
        refine ⟨?_, hfound, herror⟩
        have hp := isWithin_join_text (hpaths p (by simp))
        simp only [List.forall_mem_append, List.forall_mem_cons, List.forall_mem_map] at hpaths ⊢
        exact ⟨⟨hpaths.1, hpaths.2.1, by simp⟩, hpaths.2.2, fun c _ => hp c⟩
      refine ⟨trivial, fun answer => ?_⟩
      cases answer with
      | ok children => exact hwalk children
      | error error =>
        cases error with
        | noNode q =>
          unfold afterChildren
          split_ifs
          · exact hfound [] (by simp)
          · simpa using hwalk []
        | _ => exact herror _

theorem Stays.ask {r : Request} {f : r.Answer → Dialogue α} (hr : r.Stays top)
    (hf : ∀ answer, (f answer).Stays top post) : (ask r >>= f).Stays top post :=
  ⟨hr, hf⟩

/-! ## Work on subtrees -/

theorem stays_createEach {ps : List String}
    (hps : ∀ p ∈ ps, isWithin top p = true ∨ p ∈ ancestors top) :
    (createEach ps).Stays top fun _ => True := by
  induction ps with
  | nil => trivial
  | cons p ps ih =>
    obtain ⟨hp, hps⟩ := List.forall_mem_cons.1 hps
    refine .ask (hp.imp (fun hw => ⟨hw, nofun⟩) fun habove => ⟨habove, rfl, rfl⟩) fun answer => ?_
    split
    · exact ih hps
    · exact ih hps
    · trivial

theorem stays_createWithParents (htop : Valid top) (hp : Valid p) (hw : isWithin top p = true)
    (data : List UInt8) {mode : Mode} (hmode : mode.sequential = true → p ≠ top) :
    (createWithParents p data mode).Stays top fun _ => True := by
  refine .ask (.inl ⟨hw, hmode⟩) fun answer => ?_
  split
  · refine .bind ((stays_createEach fun x hx => ?_).weaken fun made _ => ?_)
    · exact isWithin_or_mem_ancestors htop hp hw hx
    · split
      · exact ⟨.inl ⟨hw, hmode⟩, fun _ => trivial⟩
      · trivial
  · trivial

theorem stays_deleteEach {ps : List String} (hps : ∀ p ∈ ps, isWithin top p = true) :
    (deleteEach ps).Stays top fun _ => True := by
  induction ps with
  | nil => trivial
  | cons p ps ih =>
    obtain ⟨hp, hps⟩ := List.forall_mem_cons.1 hps
    refine .ask hp fun answer => ?_
    split
    · exact ih hps
    · exact ih hps
    · trivial

theorem stays_deleteOnce (hw : isWithin top p = true) :
    (deleteOnce p).Stays top fun _ => True := by
  refine .bind ⟨by simpa using hw, fun found hfound => ?_, fun error => trivial⟩
  exact stays_deleteEach fun x hx => hfound x (List.mem_reverse.1 hx)

theorem stays_deleteFrom (hw : isWithin top p = true) (attempt again : Nat) :
    (deleteFrom p attempt again).Stays top fun _ => True := by
  induction again generalizing attempt with
  | zero => exact stays_deleteOnce hw
  | succ again ih =>
    refine .bind ((stays_deleteOnce hw).weaken fun deleted _ => ?_)
    split
    · exact ih _
    · trivial

theorem stays_deleteRecursive (hw : isWithin top p = true) :
    (deleteRecursive p).Stays top fun _ => True :=
  stays_deleteFrom hw 1 _

end Dialogue

/-! ## The dialogues behind the operations on a key -/

namespace Key

variable {top full : String}

theorem stays_update (hw : isWithin top full = true) (value : List UInt8) :
    (update full value).Stays top fun _ => True := by
  have hops : (Request.commit [.check full none, .setData full value none]).Stays top := by
    simp [Request.Stays, Operation.path, hw]
  exact .ask hops fun _ => trivial

theorem stays_createShown (htop : Valid top) (hp : Valid full) (hw : isWithin top full = true)
    (ns : Namespace) (value : List UInt8) {mode : Mode}
    (hmode : mode.sequential = true → full ≠ top) :
    (createShown ns full value mode).Stays top fun _ => True :=
  .bind ((Dialogue.stays_createWithParents htop hp hw value hmode).weaken fun _ _ => trivial)

theorem stays_persist (htop : Valid top) (hp : Valid full) (hw : isWithin top full = true)
    (value : List UInt8) : (persist full value).Stays top fun _ => True := by
  refine .ask trivial fun found => ?_
  split
  · trivial
  · exact stays_update hw value
  · have hcreate : (Dialogue.createWithParents full value .persistent).Stays top fun _ => True :=
      Dialogue.stays_createWithParents htop hp hw value nofun
    refine .bind (hcreate.weaken fun made _ => ?_)
    split
    · trivial
    · exact stays_update hw value
    · trivial

theorem stays_persistEphemeral (htop : Valid top) (hp : Valid full)
    (hw : isWithin top full = true) (value : List UInt8) :
    (persistEphemeral full value).Stays top fun _ => True := by
  have hcreate : (Dialogue.createWithParents full value .ephemeralNode).Stays top fun _ => True :=
    Dialogue.stays_createWithParents htop hp hw value nofun
  refine .ask trivial fun found => ?_
  split
  · trivial
  · exact .bind (hcreate.weaken fun _ _ => trivial)
  · refine .bind ((Dialogue.stays_deleteRecursive hw).weaken fun deleted _ => ?_)
    split
    · trivial
    · exact .bind (hcreate.weaken fun _ _ => trivial)

theorem stays_remove (hw : isWithin top full = true) :
    (remove full).Stays top fun _ => True :=
  .bind ((Dialogue.stays_deleteRecursive hw).weaken fun _ _ => trivial)

end Key

end KeyRegistry
