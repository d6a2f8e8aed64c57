import KeyRegistry.Proofs.Tree.WellFormed
import Mathlib.Data.Finset.Basic
import Mathlib.Data.Finset.Dedup

/-!
# What events tell of a tree

Whoever knows which paths under a root are in use, and hears the events under it,
knows which are in use later on: every event fits what is known when it arrives.
-/

namespace KeyRegistry

open KeyRegistry.Path

namespace Event

/-- The known paths after an event, unless it tells something that cannot be. -/
def advance (known : Finset String) (ev : Event) : Option (Finset String) :=
  match ev.kind with
  | .created => if ev.path ∈ known then none else some (insert ev.path known)
  | .dataChanged => if ev.path ∈ known then some known else none
  | .deleted => if ev.path ∈ known then some (known.erase ev.path) else none

theorem advance_created {known : Finset String} {p : String} (h : p ∉ known) :
    advance known ⟨.created, p⟩ = some (insert p known) := by
  simp [advance, h]

theorem advance_dataChanged {known : Finset String} {p : String} (h : p ∈ known) :
    advance known ⟨.dataChanged, p⟩ = some known := by
  simp [advance, h]

theorem advance_deleted {known : Finset String} {p : String} (h : p ∈ known) :
    advance known ⟨.deleted, p⟩ = some (known.erase p) := by
  simp [advance, h]

/-- The known paths after events, each of which fits what is known when it arrives. -/
def follow (known : Finset String) (evs : List Event) : Option (Finset String) :=
  evs.foldlM advance known

@[simp] theorem follow_nil (known : Finset String) : follow known [] = some known := rfl

@[simp] theorem follow_cons (known : Finset String) (ev : Event) (evs : List Event) :
    follow known (ev :: evs) = (advance known ev).bind fun known => follow known evs := rfl

theorem follow_append (known : Finset String) (evs evs' : List Event) :
    follow known (evs ++ evs') = (follow known evs).bind fun known => follow known evs' := by
  unfold follow
  rw [List.foldlM_append]
  rfl

end Event

namespace Tree

open Event

variable {t t' : Tree} {who : Caller} {ev : Event} {evs : List Event} {top p : String}

/-! ## Following the paths of a tree -/

def held (t : Tree) (top : String) : Finset String :=
  ((t.nodes.map Prod.fst).filter (isWithin top)).toFinset

theorem mem_held_iff : p ∈ t.held top ↔ t.Stored p ∧ isWithin top p = true := by
  have hstored : t.Stored p ↔ p ∈ t.nodes.map Prod.fst := by
    rw [← not_iff_not, not_stored_iff, node?_eq_none_iff]
  rw [held, List.mem_toFinset, List.mem_filter, hstored]

/-- A change outside is not noticed. -/
theorem Step.held_of_not_isWithin (h : t.WellFormed) (hs : Step who t ev t')
    (hout : ¬isWithin top ev.path = true) : t'.held top = t.held top := by
  ext x
  rw [mem_held_iff, mem_held_iff]
  refine and_congr_left fun hx => ?_
  have hne : x ≠ ev.path := by
    rintro rfl
    exact hout hx
  exact stored_congr (hs.core_eq h hne)

/-- The event of a change inside fits, and tells the change. -/
theorem Step.advance_held (h : t.WellFormed) (hs : Step who t ev t')
    (hin : isWithin top ev.path = true) : advance (t.held top) ev = some (t'.held top) := by
  have hiff := hs.stored_iff h
  cases hs with
  | created data valid above stored persistent permitted fresh owned =>
    have hnew := not_stored_iff.2 (h.node?_eq_none_of_fresh above stored fresh)
    rw [advance_created fun hmem => hnew (mem_held_iff.1 hmem).1]
    refine congrArg some (Finset.ext fun x => ?_)
    rw [Finset.mem_insert, mem_held_iff, mem_held_iff, hiff]
    constructor
    · rintro (rfl | ⟨hx, hw⟩)
      · exact ⟨.inl rfl, hin⟩
      · exact ⟨.inr hx, hw⟩
    · rintro ⟨rfl | hx, hw⟩
      · exact .inl rfl
      · exact .inr ⟨hx, hw⟩
  | written data stored permitted =>
    rw [advance_dataChanged (mem_held_iff.2 ⟨⟨_, stored⟩, hin⟩)]
    refine congrArg some (Finset.ext fun x => ?_)
    rw [mem_held_iff, mem_held_iff, hiff]
  | removed above stored childless permitted =>
    rw [advance_deleted (mem_held_iff.2 ⟨⟨_, stored⟩, hin⟩)]
    refine congrArg some (Finset.ext fun x => ?_)
    rw [Finset.mem_erase, mem_held_iff, mem_held_iff, hiff, and_assoc]

theorem Steps.follow_held (h : t.WellFormed) (hs : Steps who t evs t') :
    follow (t.held top) (evs.filter fun ev => isWithin top ev.path) = some (t'.held top) := by
  induction hs with
  | nil => rfl
  | cons first _ ih =>
    rw [List.filter_cons]
    split_ifs with hin
    · rw [follow_cons, first.advance_held h hin]
      exact ih (first.wellFormed h)
    · rw [← first.held_of_not_isWithin h hin]
      exact ih (first.wellFormed h)

/-- A node that no event names keeps all but its children and their counters. -/
theorem Steps.core_eq (h : t.WellFormed) (hs : Steps who t evs t')
    (hp : ∀ ev ∈ evs, ev.path ≠ p) : (t'.node? p).map core = (t.node? p).map core := by
  induction hs with
  | nil => rfl
  | cons first _ ih =>
    rw [ih (first.wellFormed h) fun ev hev => hp ev (by simp [hev])]
    exact first.core_eq h (hp _ (by simp)).symm

/-- A node after changes was there before or has its rule and its session from their maker. -/
theorem Steps.old_or_made (h : t.WellFormed) (hs : Steps who t evs t')
    {m : Node} (hm : t'.node? p = some m) :
    (∃ n, t.node? p = some n ∧ m.acl = n.acl ∧ m.stat.owner = n.stat.owner) ∨
      (m.acl = who.acl ∧ (m.stat.owner = none ∨ m.stat.owner = some who.session)) := by
  induction hs with
  | nil => exact .inl ⟨m, hm, rfl, rfl⟩
  | cons first _ ih =>
    rcases ih (first.wellFormed h) hm with ⟨k, hk, hacl, howner⟩ | hmade
    · rw [hacl, howner]
      rcases first.node_cases h hk with ⟨-, n, hn, hc⟩ | ⟨-, n, data, hn, rfl⟩ |
        ⟨-, -, -, _, _, _, _, -, -, -, -, howned, rfl⟩
      · exact .inl ⟨n, hn, acl_eq_of_core hc, owner_eq_of_core hc⟩
      · exact .inl ⟨n, hn, rfl, rfl⟩
      · exact .inr ⟨rfl, howned⟩
    · exact .inr hmade

theorem Steps.zxid (hs : Steps who t evs t') : t'.zxid = t.zxid + evs.length := by
  induction hs with
  | nil => rfl
  | cons first _ ih =>
    rw [ih, first.zxid, List.length_cons]
    omega

end Tree

end KeyRegistry
