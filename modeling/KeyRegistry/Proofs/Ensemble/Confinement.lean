import KeyRegistry.Proofs.Ensemble.Evolution
import KeyRegistry.Proofs.Namespace.Place
import KeyRegistry.Proofs.Tree.Account

/-!
# Calls that stay within a subtree

A call stays within a node if the paths it names lie there, or if it creates an
empty node above. It alters nothing elsewhere then. A numbered node gets a place
beside the path that is asked for, so this must be a path strictly within.
-/

namespace KeyRegistry

open KeyRegistry.Path

namespace Tree

variable {t t' : Tree} {who : Caller} {top p : String} {evs : List Event}

/-- What is altered from `t` to `t'` lies within `top`. Elsewhere, no node is created, deleted or
written; only empty nodes that were missing above `top` may be new. -/
def Confined (top : String) (t t' : Tree) : Prop :=
  ∀ p, ¬isWithin top p = true → (t'.node? p).map core = (t.node? p).map core ∨
    (p ∈ ancestors top ∧ t.node? p = none ∧
      ∃ n, t'.node? p = some n ∧ n.data = [] ∧ n.stat.owner = none)

theorem Confined.refl (top : String) (t : Tree) : t.Confined top t := fun _ _ => .inl rfl

theorem confined_of_steps (h : t.WellFormed) (hs : Steps who t evs t')
    (hevs : ∀ ev ∈ evs, isWithin top ev.path = true) : t.Confined top t' := by
  intro p hp
  refine .inl (hs.core_eq h fun ev hev heq => hp ?_)
  rw [← heq, hevs ev hev]

/-- A numbered path beside one that lies strictly within a node lies within it too. -/
theorem isWithin_actualPath (htop : Valid top) (hp : Valid p) {q : String}
    (hpar : parent? p = some q) (hw : isWithin top p = true) {mode : Mode}
    (hne : mode.sequential = true → p ≠ top) (parent : Node) :
    isWithin top (actualPath p mode parent) = true := by
  cases hmode : mode.sequential with
  | false => rwa [actualPath_of_not_sequential hmode]
  | true =>
    obtain ⟨hq, hn, hj⟩ := (parent?_eq_some_iff hp).1 hpar
    obtain ⟨m, hm, heq⟩ := actualPath_eq_join hn hj mode parent
    rw [← hj, isWithin_join_iff htop hq hn, hj] at hw
    rw [heq, isWithin_join_iff htop hq hm]
    exact .inr (hw.resolve_left fun he => hne hmode he.symm)

theorem confined_create (htop : Valid top) (h : t.WellFormed) {data : List UInt8} {mode : Mode}
    (hstays : (isWithin top p = true ∧ (mode.sequential = true → p ≠ top)) ∨
      (p ∈ ancestors top ∧ data = [] ∧ mode = .persistent)) {c : Change String}
    (hc : t.create p data mode who = .ok c) : t.Confined top c.tree := by
  obtain ⟨-, hstep⟩ := step_of_create hc
  obtain ⟨q, parent, hp, hpar, hparent, -, -, hfresh, rfl⟩ := create_ok_cases hc
  rcases hstays with ⟨hw, hne⟩ | ⟨habove, rfl, rfl⟩
  · refine confined_of_steps h (.single hstep) ?_
    simpa using isWithin_actualPath htop hp hpar hw hne parent
  · have hactual : actualPath p .persistent parent = p := actualPath_of_not_sequential rfl ..
    dsimp only at hstep ⊢
    rw [hactual] at hfresh hstep ⊢
    intro x _
    by_cases hx : x = p
    · subst hx
      have hnone := h.node?_eq_none_of_fresh hpar hparent hfresh
      exact .inr ⟨habove, hnone, _,
        (node?_withNode hnone (ne_of_parent? hp hpar) x).trans (if_pos rfl), rfl, rfl⟩
    · exact .inl (hstep.core_eq h hx)

end Tree

/-- Whether a call stays within `top`: all its changes lie there, but for an empty node above. -/
def Request.Stays (top : String) : Request → Prop
  | .create p data mode => (isWithin top p = true ∧ (mode.sequential = true → p ≠ top)) ∨
      (p ∈ ancestors top ∧ data = [] ∧ mode = .persistent)
  | .setData p _ _ | .delete p _ => isWithin top p = true
  | .commit ops =>
      ∀ op ∈ ops, isWithin top op.path = true ∧ ∀ p data mode, op ≠ .create p data mode
  | _ => True

/-- But for creations, an operation tells of its own path. -/
theorem Operation.path_of_mem_events {op : Operation} {outcome : Outcome} {ev : Event}
    (hop : ∀ p data mode, op ≠ .create p data mode) (hev : ev ∈ op.events outcome) :
    ev.path = op.path := by
  cases op with
  | create p data mode => exact absurd rfl (hop p data mode)
  | check p version => cases outcome <;> simp [events] at hev
  | setData p data version => cases outcome <;> simp_all [events, Operation.path]
  | delete p version => cases outcome <;> simp_all [events, Operation.path]

theorem Operation.exists_of_mem_allEvents {ops : List Operation} {outcomes : List Outcome}
    {ev : Event} (hev : ev ∈ allEvents ops outcomes) :
    ∃ op ∈ ops, ∃ outcome, ev ∈ op.events outcome := by
  induction ops generalizing outcomes with
  | nil => simp [allEvents] at hev
  | cons op ops ih =>
    cases outcomes with
    | nil => simp [allEvents] at hev
    | cons outcome outcomes =>
      have hmem : ev ∈ op.events outcome ∨ ev ∈ allEvents ops outcomes := by
        simpa [allEvents] using hev
      rcases hmem with hmem | hmem
      · exact ⟨op, by simp, outcome, hmem⟩
      · obtain ⟨op', hop', h⟩ := ih hmem
        exact ⟨op', by simp [hop'], h⟩

namespace Ensemble

variable {e : Ensemble} {top : String}

theorem confined_perform (htop : Valid top) (ht : e.tree.WellFormed) (id : Nat) {r : Request}
    (hr : r.Stays top) : e.tree.Confined top (e.perform id r).2.tree := by
  have hsteps := (evolves_perform e id r).1.tree
  cases r with
  | stat p => exact .refl top _
  | getData p => exact .refl top _
  | getChildren p => exact .refl top _
  | create p data mode =>
    simp only [perform]
    cases hc : e.tree.create p data mode (e.caller id) with
    | error error => exact .refl top _
    | ok c => exact Tree.confined_create htop ht hr hc
  | setData p data version =>
    refine Tree.confined_of_steps ht hsteps fun ev hev => ?_
    cases hanswer : (e.perform id (.setData p data version)).1 with
    | error error =>
      rw [hanswer, Request.events_error] at hev
      cases hev
    | ok s =>
      obtain rfl : ev = ⟨.dataChanged, p⟩ := by simpa [hanswer, Request.events] using hev
      exact hr
  | delete p version =>
    refine Tree.confined_of_steps ht hsteps fun ev hev => ?_
    cases hanswer : (e.perform id (.delete p version)).1 with
    | error error =>
      rw [hanswer, Request.events_error] at hev
      cases hev
    | ok s =>
      obtain rfl : ev = ⟨.deleted, p⟩ := by simpa [hanswer, Request.events] using hev
      exact hr
  | commit ops =>
    refine Tree.confined_of_steps ht hsteps fun ev hev => ?_
    cases hanswer : (e.perform id (.commit ops)).1 with
    | error error =>
      rw [hanswer, Request.events_error] at hev
      cases hev
    | ok outcomes =>
      rw [hanswer] at hev
      obtain ⟨op, hop, outcome, hmem⟩ := Operation.exists_of_mem_allEvents hev
      obtain ⟨hw, hcreate⟩ := hr op hop
      rw [Operation.path_of_mem_events hcreate hmem, hw]
  | watch root =>
    dsimp only [perform]
    split <;> exact .refl top _

theorem confined_accept {now id : Nat} {hold : Hold} {e' : Ensemble}
    (h : e.accept now id = .ok (hold, e')) : e.tree.Confined top e'.tree := by
  obtain ⟨-, rfl⟩ := accept_eq_ok h
  exact .refl top _

theorem confined_complete (htop : Valid top) (ht : e.tree.WellFormed) (id : Nat)
    (fault : Option ServiceError) {r : Request} (hr : r.Stays top) :
    e.tree.Confined top (e.complete id fault r).2.tree := by
  rcases complete_cases e id fault r with ⟨_, heq⟩ | ⟨-, heq⟩
  · rw [heq]
    exact .refl top _
  · rw [heq]
    exact confined_perform htop ht id hr

end Ensemble

end KeyRegistry
