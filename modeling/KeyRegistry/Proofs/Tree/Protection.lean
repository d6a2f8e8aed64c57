import KeyRegistry.Proofs.Tree.Account
import KeyRegistry.Proofs.Tree.Ancestry
import Mathlib.Logic.Relation

/-!
# Nodes of a creator

All that lies under the node of a creator is the same creator's. Whoever is
somebody else changes nothing there: a change reads its permission off the node it
writes, or off the parent of the node it makes or takes out. At the top of what is
the creator's, under an open parent, a node without children can still be taken out.
-/

namespace KeyRegistry

open KeyRegistry.Path

namespace Tree

variable {t t' : Tree} {p q o : String} {n m : Node} {who : Caller} {ev : Event}
  {evs : List Event}

theorem WellFormed.creator_of_isWithin (h : t.WellFormed) (hn : t.node? p = some n)
    (hacl : n.acl = .creator o) (hm : t.node? q = some m) (hw : isWithin p q = true) :
    m.acl = .creator o := by
  by_contra hne
  have hup : ∀ x a, t.Stored x → parent? x = some a →
      (∀ k, t.node? x = some k → k.acl ≠ .creator o) →
      ∀ k, t.node? a = some k → k.acl ≠ .creator o := by
    rintro x a ⟨l, hl⟩ ha hx k hk hka
    exact hx l hl (h.creator_inherited hl ha hk hka)
  have hself : ∀ k, t.node? q = some k → k.acl ≠ .creator o := by
    intro k hk
    obtain rfl : m = k := by simpa [hm] using hk
    exact hne
  exact (h.climb hup (h.valid hn) ⟨m, hm⟩ hw hself).2 n hn hacl

/-! ## One change -/

def Signed (who : Caller) (t : Tree) : Prop :=
  ∀ p n, t.node? p = some n → n.stat.owner = some who.session → n.acl = who.acl

theorem Steps.signed (h : t.WellFormed) (hs : Steps who t evs t') (hsigned : t.Signed who) :
    t'.Signed who := by
  intro p m hm howner
  rcases hs.old_or_made h hm with ⟨n, hn, hacl, howner'⟩ | ⟨hacl, -⟩
  · rw [hacl]
    exact hsigned p n hn (howner'.symm.trans howner)
  · exact hacl

section

variable (h : t.WellFormed) (hs : Step who t ev t') (hsigned : t.Signed who)
  (hid : who.identity ≠ some o)

include h hs hsigned hid

/-- Nobody but the creator makes or takes out a node under the creator's. -/
theorem Step.parent_acl_ne (hk : ev.kind ≠ .dataChanged) (hq : parent? ev.path = some q) :
    ∃ m, t.node? q = some m ∧ m.acl ≠ .creator o := by
  have hrefused (m : Node) (hacl : m.acl = .creator o) : m.acl.permits who.identity ≠ true := by
    simp [hacl, Acl.permits, hid]
  cases hs with
  | created data valid above stored persistent permitted fresh owned =>
    obtain rfl := Option.some.inj (above.symm.trans hq)
    exact ⟨_, stored, fun hacl => hrefused _ hacl permitted⟩
  | written => exact absurd rfl hk
  | removed above stored childless permitted =>
    obtain rfl := Option.some.inj (above.symm.trans hq)
    obtain ⟨m, hm⟩ := h.parent_stored stored above
    refine ⟨m, hm, fun hacl => ?_⟩
    rcases permitted with hperm | howner
    · exact hrefused m hacl (hperm m hm)
    · have hsign := hsigned _ _ stored howner
      rw [h.creator_inherited stored above hm hacl] at hsign
      exact Caller.acl_ne_creator hid hsign.symm

omit h hsigned in
/-- Nobody but the creator writes the creator's node. -/
theorem Step.acl_ne (hk : ev.kind = .dataChanged) :
    ∃ n, t.node? ev.path = some n ∧ n.acl ≠ .creator o := by
  cases hs with
  | created => cases hk
  | written data stored permitted =>
    refine ⟨_, stored, fun hacl => ?_⟩
    simp [hacl, Acl.permits, hid] at permitted
  | removed => cases hk

/-- A change leaves a node of the creator's as it is, or takes it out. -/
theorem Step.node?_eq_of_creator (hn : t.node? p = some n) (hacl : n.acl = .creator o)
    (hp : ev.kind = .deleted → p ≠ ev.path) : t'.node? p = some n := by
  rw [← hn]
  have hwritten := hs.acl_ne hid
  refine hs.node?_eq h ?_ fun hk hpar => ?_
  · rintro rfl
    cases hs with
    | created data valid above stored persistent permitted fresh owned =>
      simp [h.node?_eq_none_of_fresh above stored fresh] at hn
    | written data stored permitted =>
      obtain ⟨k, hk, hne⟩ := hwritten rfl
      obtain rfl := Option.some.inj (hn.symm.trans hk)
      exact hne hacl
    | removed => exact hp rfl rfl
  · obtain ⟨k, hk, hne⟩ := hs.parent_acl_ne h hsigned hid hk hpar
    obtain rfl := Option.some.inj (hn.symm.trans hk)
    exact hne hacl

end

/-- What lies under a node of the creator `o` is left as it is, and so is a node of the creator
unless it is taken out, without children, from under an open parent. -/
structure Spares (o : String) (t t' : Tree) : Prop where
  below {p q : String} {m : Node} : parent? p = some q → t.node? q = some m →
    m.acl = .creator o → t'.node? p = t.node? p
  top {p : String} {n : Node} : t.node? p = some n → n.acl = .creator o →
    t'.node? p = some n ∨ (t'.node? p = none ∧ n.children = [] ∧
      ∀ q m, parent? p = some q → t.node? q = some m → m.acl = .anyone)

theorem Step.spares (h : t.WellFormed) (hs : Step who t ev t') (hsigned : t.Signed who)
    (hid : who.identity ≠ some o) : Spares o t t' where
  below {p q m} hq hm hacl := by
    have hother (hk : ev.kind ≠ .dataChanged) : p ≠ ev.path := by
      rintro rfl
      obtain ⟨k, hk, hne⟩ := hs.parent_acl_ne h hsigned hid hk hq
      obtain rfl := Option.some.inj (hm.symm.trans hk)
      exact hne hacl
    cases hn : t.node? p with
    | none =>
      rw [← not_stored_iff, hs.stored_iff h]
      cases hk : ev.kind with
      | created => simp [hother (by simp [hk]), not_stored_iff.2 hn]
      | dataChanged => exact not_stored_iff.2 hn
      | deleted => simp [not_stored_iff.2 hn]
    | some n =>
      exact hs.node?_eq_of_creator h hsigned hid hn (h.creator_inherited hn hq hm hacl)
        fun hk => hother (by simp [hk])
  top {p n} hn hacl := by
    by_cases hp : ev.kind = .deleted ∧ p = ev.path
    · obtain ⟨hk, rfl⟩ := hp
      have hgone : ¬t'.Stored ev.path := by
        rw [hs.stored_iff h, hk]
        simp
      refine .inr ⟨not_stored_iff.1 hgone, ?_, fun q m hq hm => ?_⟩
      · cases hs with
        | created => cases hk
        | written => cases hk
        | removed above stored childless permitted =>
          obtain rfl := Option.some.inj (stored.symm.trans hn)
          exact childless
      · obtain ⟨k, hkq, hne⟩ := hs.parent_acl_ne h hsigned hid (by simp [hk]) hq
        obtain rfl := Option.some.inj (hm.symm.trans hkq)
        cases hmacl : m.acl with
        | anyone => rfl
        | creator o' =>
          rw [h.creator_inherited hn hq hm hmacl] at hacl
          exact absurd (hmacl.trans hacl) hne
    · exact .inl (hs.node?_eq_of_creator h hsigned hid hn hacl fun hk he => hp ⟨hk, he⟩)

/-! ## Any number of changes -/

/-- Changes one after the other, by whomever, each of which spares what is `o`'s. -/
def PassesBy (o : String) : Tree → Tree → Prop :=
  Relation.ReflTransGen fun t t' => (∃ who ev, Step who t ev t') ∧ Spares o t t'

theorem Steps.passesBy (h : t.WellFormed) (hs : Steps who t evs t') (hsigned : t.Signed who)
    (hid : who.identity ≠ some o) : PassesBy o t t' := by
  induction hs with
  | nil => exact .refl
  | cons first _ ih =>
    have hspares := first.spares h hsigned hid
    exact .head ⟨⟨_, _, first⟩, hspares⟩
      (ih (first.wellFormed h) ((Steps.single first).signed h hsigned))

namespace PassesBy

theorem wellFormed (h : t.WellFormed) (hp : PassesBy o t t') : t'.WellFormed := by
  induction hp with
  | refl => exact h
  | tail _ hnext ih =>
    obtain ⟨⟨who, ev, hs⟩, -⟩ := hnext
    exact hs.wellFormed ih

theorem zxid_le (hp : PassesBy o t t') : t.zxid ≤ t'.zxid := by
  induction hp with
  | refl => exact Nat.le_refl _
  | tail _ hnext ih =>
    obtain ⟨⟨who, ev, hs⟩, -⟩ := hnext
    rw [hs.zxid]
    exact Nat.le_succ_of_le ih

/-- A node of the creator's with children is left as it is. -/
theorem node?_of_children (hp : PassesBy o t t') (hn : t.node? p = some n)
    (hacl : n.acl = .creator o) (hc : n.children ≠ []) : t'.node? p = some n := by
  induction hp with
  | refl => exact hn
  | tail _ hnext ih =>
    rcases hnext.2.top ih hacl with hsame | ⟨-, hnil, -⟩
    · exact hsame
    · exact absurd hnil hc

/-- What lies under a node of the creator's is left as it is. -/
theorem node?_of_parent (h : t.WellFormed) (hp : PassesBy o t t') (hn : t.node? p = some n)
    (hq : parent? p = some q) (hm : t.node? q = some m) (hacl : m.acl = .creator o) :
    t'.node? p = some n := by
  have hc : m.children ≠ [] := List.ne_nil_of_mem (h.nodeName_mem_children hn hq hm)
  induction hp with
  | refl => exact hn
  | tail hbefore hnext ih =>
    rw [hnext.2.below hq (node?_of_children hbefore hm hacl hc) hacl]
    exact ih

/-- A node of the creator's is as it was for as long as it is there. -/
theorem node?_or_later (h : t.WellFormed) (hp : PassesBy o t t') (hn : t.node? p = some n)
    (hacl : n.acl = .creator o) :
    t'.node? p = some n ∨ ∀ m, t'.node? p = some m → n.stat.czxid < m.stat.czxid := by
  induction hp with
  | refl => exact .inl hn
  | tail hbefore hnext ih =>
    obtain ⟨⟨who, ev, hs⟩, hspares⟩ := hnext
    rcases ih with hsame | hlater
    · rcases hspares.top hsame hacl with hsame | ⟨hgone, -⟩
      · exact .inl hsame
      · exact .inr fun m hm => by simp [hgone] at hm
    · refine .inr fun m hm => ?_
      rcases hs.old_or_newest (PassesBy.wellFormed h hbefore) hm with ⟨k, hk, hz⟩ | ⟨-, hz⟩
      · exact hz ▸ hlater k hk
      · rw [hz]
        exact Nat.lt_succ_of_le ((h.czxid_le hn).trans (PassesBy.zxid_le hbefore))

theorem eq_of_czxid (h : t.WellFormed) (hp : PassesBy o t t') (hn : t.node? p = some n)
    (hacl : n.acl = .creator o) (hm : t'.node? p = some m) (hz : m.stat.czxid = n.stat.czxid) :
    m = n := by
  rcases node?_or_later h hp hn hacl with hsame | hlater
  · exact Option.some.inj (hm.symm.trans hsame)
  · exact absurd hz (hlater m hm).ne'

end PassesBy

end Tree

end KeyRegistry
