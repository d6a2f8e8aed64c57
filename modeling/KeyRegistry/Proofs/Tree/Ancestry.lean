import KeyRegistry.Proofs.Path.Containment
import KeyRegistry.Proofs.Tree.WellFormed

/-!
# Nodes above and below a node

What lies above a stored node is stored, and whoever may read a node may read
what lies above it. Nothing is stored under a node without children.
-/

namespace KeyRegistry

open KeyRegistry.Path

namespace Tree

variable {t t' : Tree} {p q : String} {n m : Node} {identity : Option String} {who : Caller}
  {ev : Event}

def Readable (t : Tree) (identity : Option String) (p : String) : Prop :=
  ∃ n, t.node? p = some n ∧ n.acl.permits identity = true

instance : Decidable (t.Readable identity p) :=
  decidable_of_iff ((t.node? p).any fun n => n.acl.permits identity)
    (by simp [Readable, Option.any_eq_true])

theorem Readable.stored (h : t.Readable identity p) : t.Stored p := h.imp fun _ hn => hn.1

namespace WellFormed

/-- What holds of a stored node and passes to parents holds of all that lies above. -/
theorem climb {P : String → Prop} (h : t.WellFormed)
    (hup : ∀ q a, t.Stored q → parent? q = some a → P q → P a) (hp : Valid p) (hq : t.Stored q)
    (hw : isWithin p q = true) (hP : P q) : t.Stored p ∧ P p := by
  obtain ⟨n, hn⟩ := hq
  have hqv := h.valid hn
  induction hqv using Valid.induction generalizing n with
  | top =>
    obtain rfl : p = root := isWithin_antisymm hp valid_root hw (isWithin_root hp)
    exact ⟨⟨n, hn⟩, hP⟩
  | child a m ha hm ih =>
    have hparent := parent?_join ha hm
    rcases (isWithin_join_iff hp ha hm).1 hw with rfl | hw
    · exact ⟨⟨n, hn⟩, hP⟩
    · obtain ⟨k, hk⟩ := h.parent_stored hn hparent
      exact ih hw (hup _ _ ⟨n, hn⟩ hparent hP) k hk

theorem stored_of_isWithin (h : t.WellFormed) (hp : Valid p) (hq : t.Stored q)
    (hw : isWithin p q = true) : t.Stored p :=
  (h.climb (P := fun _ => True) (fun _ _ _ _ _ => trivial) hp hq hw trivial).1

/-- Whoever may read a node may read its parent: a creator's node stands above no other's. -/
theorem readable_parent (h : t.WellFormed) (hr : t.Readable identity q)
    (hp : parent? q = some p) : t.Readable identity p := by
  obtain ⟨n, hn, hperm⟩ := hr
  obtain ⟨m, hm⟩ := h.parent_stored hn hp
  refine ⟨m, hm, ?_⟩
  cases hacl : m.acl with
  | anyone => rfl
  | creator o => rwa [← h.creator_inherited hn hp hm hacl]

theorem readable_of_isWithin (h : t.WellFormed) (hp : Valid p) (hr : t.Readable identity q)
    (hw : isWithin p q = true) : t.Readable identity p :=
  (h.climb (fun _ _ _ ha hr => h.readable_parent hr ha) hp hr.stored hw hr).2

/-- The child of a stored node on the way to another stored node is on its list. -/
theorem exists_child_toward (h : t.WellFormed) (hn : t.node? p = some n) (hq : t.Stored q)
    (hw : isWithin p q = true) (hne : p ≠ q) :
    ∃ c ∈ n.children, IsName c ∧ isWithin (join p c) q = true := by
  obtain ⟨k, hk⟩ := hq
  obtain ⟨c, hc, hcw⟩ := exists_child_of_isWithin (h.valid hn) (h.valid hk) hw hne
  have hst := h.stored_of_isWithin (valid_join (h.valid hn) hc) ⟨k, hk⟩ hcw
  exact ⟨c, (h.mem_children_iff hn c).2 ⟨hc, hst⟩, hc, hcw⟩

theorem eq_of_childless (h : t.WellFormed) (hn : t.node? p = some n) (hc : n.children = [])
    (hq : t.Stored q) (hw : isWithin p q = true) : p = q := by
  by_contra hne
  obtain ⟨c, hmem, -⟩ := h.exists_child_toward hn hq hw hne
  simp [hc] at hmem

end WellFormed

/-- A change that deletes a node leaves nothing stored within its path. -/
theorem Step.not_stored_of_deleted (h : t.WellFormed) (hs : Step who t ev t')
    (hk : ev.kind = .deleted) (hw : isWithin ev.path q = true) : ¬t'.Stored q := by
  rw [hs.stored_iff h, hk]
  rintro ⟨hne, hq⟩
  cases hs with
  | created => cases hk
  | written => cases hk
  | removed above stored childless permitted =>
    exact hne (h.eq_of_childless stored childless hq hw).symm

end Tree

end KeyRegistry
