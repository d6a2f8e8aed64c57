import KeyRegistry.Proofs.Tree.Account
import Mathlib.Algebra.Group.Nat.Defs
import Mathlib.Data.List.Sort

/-!
# Numbered nodes in their order

A numbered name ends in the count of what has come and gone under its parent, and
every such name adds to the count. So the numbers that are given out grow, whoever
else makes nodes there or takes them out, and the nodes that are left of one prefix
stand among the children in the order of their numbers.
-/

namespace KeyRegistry

open KeyRegistry.Path

def Event.touches (q : String) (ev : Event) : Bool :=
  ev.kind ≠ .dataChanged ∧ parent? ev.path = some q

/-- A change by its event, with the path that was asked for if a numbered node was made. -/
structure Deed where
  event : Event
  asked : Option String
  deriving DecidableEq, Repr

namespace Deed

def changes (q : String) (ds : List Deed) : Nat := ds.countP fun d => d.event.touches q

def granted (p : String) (ds : List Deed) : List String :=
  (ds.filter fun d => d.asked = some p).map fun d => d.event.path

def hold (p : String) (held : List String) (d : Deed) : List String :=
  if d.asked = some p then held ++ [d.event.path]
  else if d.event.kind = .deleted then held.filter (· ≠ d.event.path)
  else held

/-- The nodes for which `p` was asked and which have not been taken out since, in order. -/
def standing (p : String) (ds : List Deed) : List String := ds.foldl (hold p) []

@[simp] theorem changes_concat (q : String) (ds : List Deed) (d : Deed) :
    changes q (ds ++ [d]) = changes q ds + if d.event.touches q then 1 else 0 := by
  simp [changes, List.countP_append, List.countP_cons]

theorem granted_concat (p : String) (ds : List Deed) (d : Deed) :
    granted p (ds ++ [d]) = granted p ds ++ if d.asked = some p then [d.event.path] else [] := by
  unfold granted
  rw [List.filter_append, List.map_append, List.filter_singleton]
  split_ifs <;> simp_all

theorem hold_of_asked {p : String} {d : Deed} (h : d.asked = some p) (held : List String) :
    hold p held d = held ++ [d.event.path] := if_pos h

theorem hold_of_deleted {p : String} {d : Deed} (h : d.asked ≠ some p)
    (hk : d.event.kind = .deleted) (held : List String) :
    hold p held d = held.filter (· ≠ d.event.path) := by
  rw [hold, if_neg h, if_pos hk]

theorem hold_of_not_deleted {p : String} {d : Deed} (h : d.asked ≠ some p)
    (hk : d.event.kind ≠ .deleted) (held : List String) : hold p held d = held := by
  rw [hold, if_neg h, if_neg hk]

theorem hold_sublist {p : String} {d : Deed} (h : d.asked ≠ some p) (held : List String) :
    (hold p held d).Sublist held := by
  by_cases hk : d.event.kind = .deleted
  · rw [hold_of_deleted h hk]
    exact List.filter_sublist
  · rw [hold_of_not_deleted h hk]

@[simp] theorem standing_concat (p : String) (ds : List Deed) (d : Deed) :
    standing p (ds ++ [d]) = hold p (standing p ds) d := by
  simp [standing]

end Deed

def Operation.deeds : Operation → Outcome → List Deed
  | .create p _ mode, .created actual =>
    [⟨⟨.created, actual⟩, if mode.sequential then some p else none⟩]
  | .setData p _ _, .dataSet _ => [⟨⟨.dataChanged, p⟩, none⟩]
  | .delete p _, .deleted => [⟨⟨.deleted, p⟩, none⟩]
  | _, _ => []

def Operation.allDeeds (ops : List Operation) (outcomes : List Outcome) : List Deed :=
  (ops.zipWith Operation.deeds outcomes).flatten

namespace Tree

variable {t t' : Tree} {who : Caller} {ev : Event} {d : Deed} {ds ds' : List Deed}
  {p q x : String} {n m : Node} {held : List String}

def Numbers (t : Tree) (d : Deed) : Prop := ∀ p, d.asked = some p → d.event.kind = .created ∧
  ∃ q parent, Valid p ∧ parent? p = some q ∧ t.node? q = some parent ∧
    d.event.path = p ++ sequenceSuffix parent.stat.cversion

inductive Deeds (who : Caller) : Tree → List Deed → Tree → Prop
  | nil (t : Tree) : Deeds who t [] t
  | cons {t t' t'' : Tree} {d : Deed} {ds : List Deed} (first : Step who t d.event t')
      (numbers : t.Numbers d) (rest : Deeds who t' ds t'') : Deeds who t (d :: ds) t''

theorem Deeds.single (h : Step who t d.event t') (hnum : t.Numbers d) : Deeds who t [d] t' :=
  .cons h hnum (.nil t')

theorem Deeds.append {t'' : Tree} (h : Deeds who t ds t') (h' : Deeds who t' ds' t'') :
    Deeds who t (ds ++ ds') t'' := by
  induction h with
  | nil => exact h'
  | cons first numbers _ ih => exact .cons first numbers (ih h')

theorem numbers_of_none (t : Tree) (ev : Event) : t.Numbers ⟨ev, none⟩ := by
  intro p h
  cases h

/-- Changes that make no node are told without numbers. -/
theorem Steps.deeds {evs : List Event} (h : Steps who t evs t') :
    Deeds who t (evs.map fun ev => ⟨ev, none⟩) t' := by
  induction h with
  | nil t => exact .nil t
  | cons first _ ih => exact .cons first (numbers_of_none _ _) ih

/-! ## What the operations tell -/

theorem deeds_of_create {data : List UInt8} {mode : Mode} {c : Change String}
    (h : t.create p data mode who = .ok c) :
    Deeds who t [⟨⟨.created, c.value⟩, if mode.sequential then some p else none⟩] c.tree := by
  refine .single (step_of_create h).2 fun p' hp' => ⟨rfl, ?_⟩
  obtain ⟨q, parent, hp, hq, hparent, -, -, -, rfl⟩ := create_ok_cases h
  split_ifs at hp' with hseq
  obtain rfl := Option.some.inj hp'
  exact ⟨q, parent, hp, hq, hparent, by simp [actualPath, hseq]⟩

theorem deeds_of_setData {data : List UInt8} {version : Option Int32} {c : Change Stat}
    (h : t.setData p data version who = .ok c) :
    Deeds who t [⟨⟨.dataChanged, p⟩, none⟩] c.tree :=
  .single (step_of_setData h).2 (numbers_of_none _ _)

theorem deeds_of_delete {version : Option Int32} {c : Change Unit} (hp : Valid p)
    (h : t.delete p version who = .ok c) : Deeds who t [⟨⟨.deleted, p⟩, none⟩] c.tree :=
  .single (step_of_delete hp h).2 (numbers_of_none _ _)

theorem deeds_of_apply {op : Operation} (hp : Valid op.path) {c : Change Outcome}
    (h : t.apply who op = .ok c) : Deeds who t (op.deeds c.value) c.tree := by
  cases op with
  | check p version =>
    obtain ⟨-, -, ⟨⟩⟩ := bind_eq_ok_iff.1 h
    exact .nil t
  | create p data mode =>
    obtain ⟨d, hd, ⟨⟩⟩ := bind_eq_ok_iff.1 h
    exact deeds_of_create hd
  | setData p data version =>
    obtain ⟨d, hd, ⟨⟩⟩ := bind_eq_ok_iff.1 h
    exact deeds_of_setData hd
  | delete p version =>
    obtain ⟨d, hd, ⟨⟩⟩ := bind_eq_ok_iff.1 h
    exact deeds_of_delete hp hd

theorem deeds_of_applyAll {index : Nat} {ops : List Operation} (hp : ∀ op ∈ ops, Valid op.path)
    {c : Change (List Outcome)} (h : t.applyAll who index ops = .ok c) :
    Deeds who t (Operation.allDeeds ops c.value) c.tree := by
  induction ops generalizing t index c with
  | nil =>
    simp only [applyAll_nil, Except.ok.injEq] at h
    exact h ▸ .nil t
  | cons op ops ih =>
    obtain ⟨first, rest, hfirst, hrest, rfl⟩ := ok_of_applyAll_cons h
    have hall := (deeds_of_apply (hp op (by simp)) hfirst).append
      (ih (fun op hop => hp op (by simp [hop])) hrest)
    simpa [Operation.allDeeds] using hall

/-! ## The count of a node -/

/-- A node that a change does not take out is there afterwards. -/
theorem Step.stored (h : t.WellFormed) (hs : Step who t ev t') (hq : t.Stored q)
    (hkept : ev ≠ ⟨.deleted, q⟩) : t'.Stored q := by
  rw [hs.stored_iff h]
  obtain ⟨kind, path⟩ := ev
  cases kind with
  | created => exact .inr hq
  | dataChanged => exact hq
  | deleted => exact ⟨fun he => hkept (he ▸ rfl), hq⟩

theorem Steps.stored {evs : List Event} (h : t.WellFormed) (hs : Steps who t evs t')
    (hq : t.Stored q) (hkept : ⟨.deleted, q⟩ ∉ evs) : t'.Stored q := by
  induction hs with
  | nil => exact hq
  | cons first _ ih =>
    rw [List.mem_cons, not_or] at hkept
    exact ih (first.wellFormed h) (first.stored h hq (Ne.symm hkept.1)) hkept.2

theorem Deeds.stored (h : t.WellFormed) (hd : Deeds who t ds t') (hq : t.Stored q)
    (hkept : ∀ d ∈ ds, d.event ≠ ⟨.deleted, q⟩) : t'.Stored q := by
  induction hd with
  | nil => exact hq
  | cons first _ _ ih =>
    exact ih (first.wellFormed h) (first.stored h hq (hkept _ (by simp)))
      fun d hd => hkept d (by simp [hd])

/-- A node counts the children that come and go. -/
theorem Step.cversion_eq (h : t.WellFormed) (hs : Step who t ev t') (hn : t.node? q = some n)
    (hm : t'.node? q = some m) :
    m.stat.cversion = if ev.touches q then n.stat.cversion + 1 else n.stat.cversion := by
  by_cases ht : ev.touches q
  · rw [if_pos ht]
    obtain ⟨hk, hpar⟩ : ev.kind ≠ .dataChanged ∧ parent? ev.path = some q := by
      simpa [Event.touches] using ht
    rcases hs.children_cases h hn hm with ⟨-, -, hother⟩ | ⟨-, -, rfl, -⟩ | ⟨-, -, rfl⟩
    · rcases hother with hother | hother
      · exact absurd hother hk
      · exact absurd hpar hother
    · rfl
    · rfl
  · rw [if_neg ht]
    have hother : ev.kind ≠ .dataChanged → parent? ev.path ≠ some q := by
      simpa [Event.touches] using ht
    by_cases hq : q = ev.path
    · rcases hs.node_cases h hm with ⟨hne, -⟩ | ⟨-, k, data, hk, rfl⟩ | ⟨-, hnone, -⟩
      · exact absurd hq hne
      · obtain rfl := Option.some.inj (hn.symm.trans hk)
        rfl
      · simp [hn] at hnone
    · rw [hs.node?_eq h hq hother, hn] at hm
      rw [Option.some.inj hm]

theorem parent?_numbered (hp : Valid p) (hq : parent? p = some q) (k : Int32) :
    parent? (p ++ sequenceSuffix k) = some q := by
  obtain ⟨hqv, hn, hj⟩ := (parent?_eq_some_iff hp).1 hq
  rw [← hj, join_append]
  exact parent?_join hqv (hn.append_figures fun c => isFigure_of_mem_sequenceSuffix)

/-! ## The children that are left of a prefix -/

def Lists (q : String) (held : List String) (n : Node) : Prop :=
  n.children.filter (fun c => join q c ∈ held) = held.map nodeName

section

variable (hchild : ∀ c ∈ n.children, join q c = x ↔ c = nodeName x)

include hchild

theorem Lists.gain (h : Lists q held n) (hx : join q (nodeName x) = x)
    (hfresh : nodeName x ∉ n.children) : Lists q (held ++ [x]) (gainChild (nodeName x) n) := by
  have hold : (n.children.filter fun c => join q c ∈ held ++ [x]) =
      n.children.filter fun c => join q c ∈ held := by
    refine List.filter_congr fun c hc => ?_
    have hne : c ≠ nodeName x := fun he => hfresh (he ▸ hc)
    simp [hchild c hc, hne]
  unfold Lists at h ⊢
  rw [children_gainChild, List.filter_append, hold, h, List.filter_cons_of_pos (by simp [hx]),
    List.filter_nil, List.map_append, List.map_singleton]

theorem Lists.lose (h : Lists q held n) (hheld : ∀ y ∈ held, nodeName y = nodeName x ↔ y = x) :
    Lists q (held.filter (· ≠ x)) (loseChild (nodeName x) n) := by
  unfold Lists at h ⊢
  calc (loseChild (nodeName x) n).children.filter (fun c => join q c ∈ held.filter (· ≠ x))
      = (n.children.filter fun c => join q c ∈ held).filter (· ≠ nodeName x) := by
        rw [children_loseChild, List.filter_filter, List.filter_filter]
        exact List.filter_congr fun c hc => by
          by_cases hcx : c = nodeName x <;> simp [hchild c hc, hcx]
    _ = (held.map nodeName).filter (· ≠ nodeName x) := by rw [h]
    _ = (held.filter (· ≠ x)).map nodeName := by
        rw [List.filter_map]
        exact congrArg (List.map nodeName)
          (List.filter_congr fun y hy => by simp [hheld y hy])

end

/-- A child that is not among the given paths does not matter. -/
theorem Lists.pass (h : Lists q held n) (hx : join q (nodeName x) = x) (hnot : x ∉ held) :
    Lists q held (gainChild (nodeName x) n) := by
  unfold Lists at h ⊢
  rw [children_gainChild, List.filter_append, h, List.filter_cons_of_neg (by simp [hx, hnot])]
  simp

/-! ## The ledger of a parent -/

/-- What is known of the nodes made under `q` for which `p` was asked: their numbers, all of them
below the count, and which of them are left. -/
structure Ledger (q p : String) (start : Nat) (ds : List Deed) (t : Tree) : Prop where
  count : ∃ n, t.node? q = some n ∧
    n.stat.cversion = Int32.ofNat (start + Deed.changes q ds) ∧ Lists q (Deed.standing p ds) n
  numbers : ∃ js : List Nat, js.Pairwise (· < ·) ∧ (∀ j ∈ js, j < start + Deed.changes q ds) ∧
    Deed.granted p ds = js.map fun j => p ++ sequenceSuffix (Int32.ofNat j)
  sublist : (Deed.standing p ds).Sublist (Deed.granted p ds)
  stored : ∀ x ∈ Deed.standing p ds, t.Stored x

theorem ledger_nil {start : Nat} (hn : t.node? q = some n)
    (hcount : n.stat.cversion = Int32.ofNat start) (p : String) : Ledger q p start [] t where
  count := ⟨n, hn, by simpa [Deed.changes] using hcount, by simp [Lists, Deed.standing]⟩
  numbers := ⟨[], by simp, by simp, rfl⟩
  sublist := by simp [Deed.standing]
  stored := by simp [Deed.standing]

namespace Ledger

variable {start : Nat}

theorem lists (hl : Ledger q p start ds t) (hn : t.node? q = some n) :
    Lists q (Deed.standing p ds) n := by
  obtain ⟨m, hm, -, hlists⟩ := hl.count
  rwa [Option.some.inj (hn.symm.trans hm)]

theorem parent?_eq (hl : Ledger q p start ds t) (hp : Valid p) (hq : parent? p = some q) :
    ∀ x ∈ Deed.standing p ds, parent? x = some q := by
  intro x hx
  obtain ⟨js, -, -, hgranted⟩ := hl.numbers
  have hmem := hl.sublist.subset hx
  rw [hgranted, List.mem_map] at hmem
  obtain ⟨j, -, rfl⟩ := hmem
  exact parent?_numbered hp hq _

/-- A numbered node of the prefix gets the count for its number. -/
theorem grant (h : t.WellFormed) (hl : Ledger q p start ds t) (hp : Valid p)
    (hq : parent? p = some q) (hs : Step who t d.event t') (hnum : t.Numbers d)
    (hasked : d.asked = some p) : Ledger q p start (ds ++ [d]) t' := by
  obtain ⟨hkind, q', parent, -, hq', hparent, hpath⟩ := hnum p hasked
  obtain rfl := Option.some.inj (hq'.symm.trans hq)
  obtain ⟨n, hn, hcount, hlists⟩ := hl.count
  obtain rfl := Option.some.inj (hparent.symm.trans hn)
  have hpar : parent? d.event.path = some q' := hpath ▸ parent?_numbered hp hq _
  have hself := ((parent?_eq_some_iff (hs.valid_path h)).1 hpar).2.2
  have hchanges : Deed.changes q' (ds ++ [d]) = Deed.changes q' ds + 1 := by
    simp [Event.touches, hkind, hpar]
  have hstored (x : String) : t'.Stored x ↔ x = d.event.path ∨ t.Stored x := by
    rw [hs.stored_iff h, hkind]
  obtain ⟨m, hm⟩ := (hstored q').2 (.inr ⟨parent, hn⟩)
  rcases hs.children_cases h hn hm with ⟨-, -, hother⟩ | ⟨-, -, rfl, hfresh, -⟩ | ⟨hk, -⟩
  · simp [hkind, hpar] at hother
  · constructor
    case count =>
      refine ⟨_, hm, ?_, ?_⟩
      · rw [hchanges, ← Nat.add_assoc, ← numChildren_gain, ← hcount]
        rfl
      · rw [Deed.standing_concat, Deed.hold_of_asked hasked]
        exact hlists.gain (h.join_eq_iff hn (hs.valid_path h) hpar) hself hfresh
    case numbers =>
      obtain ⟨js, hjs, hbelow, hgranted⟩ := hl.numbers
      refine ⟨js ++ [start + Deed.changes q' ds], ?_, ?_, ?_⟩
      · rw [List.pairwise_append]
        exact ⟨hjs, List.pairwise_singleton _ _, fun j hj k hk =>
          List.mem_singleton.1 hk ▸ hbelow j hj⟩
      · intro j hj
        rw [hchanges]
        rcases List.mem_append.1 hj with hj | hj
        · have hlt := hbelow j hj
          omega
        · rw [List.mem_singleton.1 hj]
          omega
      · rw [Deed.granted_concat, if_pos hasked, hgranted, hpath, hcount]
        simp
    case sublist =>
      rw [Deed.standing_concat, Deed.hold_of_asked hasked, Deed.granted_concat, if_pos hasked]
      exact hl.sublist.append (.refl _)
    case stored =>
      intro x hx
      rw [Deed.standing_concat, Deed.hold_of_asked hasked, List.mem_append,
        List.mem_singleton] at hx
      exact (hstored x).2 (hx.symm.imp id (hl.stored x))
  · simp [hkind] at hk

section

variable (h : t.WellFormed) (hl : Ledger q p start ds t) (hp : Valid p) (hq : parent? p = some q)
  (hs : Step who t d.event t') (hasked : d.asked ≠ some p)

include h hl hp hq hs hasked

theorem lists_other (hn : t.node? q = some n) (hm : t'.node? q = some m)
    (hlists : Lists q (Deed.standing p ds) n) :
    Lists q (Deed.hold p (Deed.standing p ds) d) m := by
  have hparent := hl.parent?_eq hp hq
  have hself (hpar : parent? d.event.path = some q) :
      join q (nodeName d.event.path) = d.event.path :=
    ((parent?_eq_some_iff (hs.valid_path h)).1 hpar).2.2
  rcases hs.children_cases h hn hm with ⟨hch, -, hother⟩ | ⟨hk, hpar, rfl, hfresh, -⟩ |
    ⟨hk, hpar, rfl⟩
  · have hsame : Deed.hold p (Deed.standing p ds) d = Deed.standing p ds := by
      by_cases hk : d.event.kind = .deleted
      · rw [Deed.hold_of_deleted hasked hk, List.filter_eq_self]
        intro y hy
        have hne : y ≠ d.event.path := by
          rintro rfl
          simp [hk, hparent _ hy] at hother
        simp [hne]
      · exact Deed.hold_of_not_deleted hasked hk _
    unfold Lists at hlists ⊢
    rw [hsame, hch, hlists]
  · rw [Deed.hold_of_not_deleted hasked (by simp [hk])]
    refine hlists.pass (hself hpar) fun hmem => ?_
    obtain ⟨k, hk⟩ := hl.stored _ hmem
    simp [h.node?_eq_none_of_fresh hpar hn hfresh] at hk
  · rw [Deed.hold_of_deleted hasked hk]
    refine hlists.lose (h.join_eq_iff hn (hs.valid_path h) hpar) fun y hy => ?_
    obtain ⟨k, hk⟩ := hl.stored y hy
    have hy' := ((parent?_eq_some_iff (h.valid hk)).1 (hparent y hy)).2.2
    exact ⟨fun he => by rw [← hy', he, hself hpar], fun he => he ▸ rfl⟩

/-- Other deeds leave the numbers of the prefix as they are. -/
theorem other (hkept : d.event ≠ ⟨.deleted, q⟩) : Ledger q p start (ds ++ [d]) t' := by
  obtain ⟨n, hn, hcount, hlists⟩ := hl.count
  have hstored := hs.stored_iff h
  have hsub := Deed.hold_sublist hasked (Deed.standing p ds)
  obtain ⟨m, hm⟩ := hs.stored h ⟨n, hn⟩ hkept
  constructor
  case count =>
    refine ⟨m, hm, ?_, Deed.standing_concat p ds d ▸ lists_other h hl hp hq hs hasked hn hm hlists⟩
    rw [hs.cversion_eq h hn hm, hcount, Deed.changes_concat]
    split_ifs
    · rw [← Nat.add_assoc, ← numChildren_gain]
    · rfl
  case numbers =>
    obtain ⟨js, hjs, hbelow, hgranted⟩ := hl.numbers
    refine ⟨js, hjs, fun j hj => ?_, ?_⟩
    · have hlt := hbelow j hj
      rw [Deed.changes_concat]
      omega
    · rw [Deed.granted_concat, if_neg hasked, List.append_nil, hgranted]
  case sublist =>
    rw [Deed.standing_concat, Deed.granted_concat, if_neg hasked, List.append_nil]
    exact hsub.trans hl.sublist
  case stored =>
    intro x hx
    rw [Deed.standing_concat] at hx
    have hbefore := hl.stored x (hsub.subset hx)
    rw [hstored]
    cases hk : d.event.kind with
    | created => exact .inr hbefore
    | dataChanged => exact hbefore
    | deleted =>
      rw [Deed.hold_of_deleted hasked hk] at hx
      exact ⟨by simpa using (List.mem_filter.1 hx).2, hbefore⟩

end

/-- The ledger is kept as long as the parent is not taken out. -/
theorem deeds (h : t.WellFormed) (hl : Ledger q p start ds t) (hp : Valid p)
    (hq : parent? p = some q) (hd : Deeds who t ds' t')
    (hkept : ∀ d ∈ ds', d.event ≠ ⟨.deleted, q⟩) : Ledger q p start (ds ++ ds') t' := by
  induction hd generalizing ds with
  | nil => simpa using hl
  | @cons t t₁ t' d ds' first numbers rest ih =>
    have hnext : Ledger q p start (ds ++ [d]) t₁ := by
      by_cases hasked : d.asked = some p
      · exact hl.grant h hp hq first numbers hasked
      · exact hl.other h hp hq first hasked (hkept d (by simp))
    simpa using ih (first.wellFormed h) hnext fun d hd => hkept d (by simp [hd])

/-! ## Names in their order -/

/-- What is left of a prefix stands in the order of its creation. -/
theorem pairwise_czxid (h : t.WellFormed) (hl : Ledger q p start ds t) (hp : Valid p)
    (hq : parent? p = some q) : (Deed.standing p ds).Pairwise fun a b => ∀ m k,
      t.node? a = some m → t.node? b = some k → m.stat.czxid < k.stat.czxid := by
  obtain ⟨n, hn, -, hlists⟩ := hl.count
  have hself : ∀ x ∈ Deed.standing p ds, join q (nodeName x) = x := by
    intro x hx
    obtain ⟨k, hk⟩ := hl.stored x hx
    exact ((parent?_eq_some_iff (h.valid hk)).1 (hl.parent?_eq hp hq x hx)).2.2
  have hordered := (h.children_ordered hn).filter fun c => join q c ∈ Deed.standing p ds
  rw [show (n.children.filter fun c => join q c ∈ Deed.standing p ds) = _ from hlists,
    List.pairwise_map] at hordered
  refine hordered.imp_of_mem fun {a b} ha hb hab => ?_
  rwa [hself a ha, hself b hb] at hab

section

variable (hl : Ledger q p start ds t) (hlt : start + Deed.changes q ds < 2 ^ 31)

include hl hlt

theorem pairwise_granted : (Deed.granted p ds).Pairwise Text.Precedes := by
  obtain ⟨js, hjs, hbelow, hgranted⟩ := hl.numbers
  rw [hgranted, List.pairwise_map]
  exact hjs.imp_of_mem fun _ hk hjk => precedes_numbered p hjk ((hbelow _ hk).trans hlt)

/-- A path that was given to a numbered node tells the path that was asked for. -/
theorem eq_of_mem_granted {p' : String} (hl' : Ledger q p' start ds t)
    (hx : x ∈ Deed.granted p ds) (hx' : x ∈ Deed.granted p' ds) : p = p' := by
  obtain ⟨js, -, hbelow, hgranted⟩ := hl.numbers
  obtain ⟨js', -, hbelow', hgranted'⟩ := hl'.numbers
  rw [hgranted, List.mem_map] at hx
  rw [hgranted', List.mem_map] at hx'
  obtain ⟨j, hj, rfl⟩ := hx
  obtain ⟨j', hj', he⟩ := hx'
  have hlists := congrArg String.toList he
  rw [String.toList_append, String.toList_append] at hlists
  have hlength : (sequenceSuffix (Int32.ofNat j')).toList.length =
      (sequenceSuffix (Int32.ofNat j)).toList.length := by
    rw [length_sequenceSuffix_ofNat ((hbelow' j' hj').trans hlt),
      length_sequenceSuffix_ofNat ((hbelow j hj).trans hlt)]
  exact (String.toList_inj.1 (List.append_inj_left' hlists hlength)).symm

theorem pairwise_names (hp : Valid p) (hq : parent? p = some q) :
    ((Deed.standing p ds).map nodeName).Pairwise (· < ·) := by
  obtain ⟨hqv, hname, hj⟩ := (parent?_eq_some_iff hp).1 hq
  obtain ⟨js, hjs, hbelow, hgranted⟩ := hl.numbers
  have hnames : (Deed.granted p ds).map nodeName =
      js.map fun j => nodeName p ++ sequenceSuffix (Int32.ofNat j) := by
    rw [hgranted, List.map_map]
    refine List.map_congr_left fun j _ => ?_
    have hfigures := hname.append_figures (s := sequenceSuffix (Int32.ofNat j))
      fun c => isFigure_of_mem_sequenceSuffix
    rw [Function.comp_apply, ← nodeName_join hqv hfigures, ← join_append, hj]
  refine List.Pairwise.sublist (hl.sublist.map nodeName) ?_
  rw [hnames, List.pairwise_map]
  exact hjs.imp_of_mem fun _ hk hjk =>
    (precedes_numbered (nodeName p) hjk ((hbelow _ hk).trans hlt)).1

/-- Sorting the names of all children puts those of the prefix into the order in which they stand
in the list of children. -/
theorem filter_mergeSort (hp : Valid p) (hq : parent? p = some q) (hn : t.node? q = some n) :
    (n.children.mergeSort fun a b => a ≤ b).filter (fun c => join q c ∈ Deed.standing p ds) =
      n.children.filter fun c => join q c ∈ Deed.standing p ds := by
  have hlists := hl.lists hn
  have hsorted : (n.children.mergeSort fun a b => a ≤ b).Pairwise fun a b =>
      decide (a ≤ b) = true :=
    List.pairwise_mergeSort
      (fun a b c hab hbc => by
        simpa using String.le_trans (by simpa using hab) (by simpa using hbc))
      (fun a b => by simpa using String.le_total a b) _
  have hlisted : (n.children.filter fun c => join q c ∈ Deed.standing p ds).Pairwise
      fun a b => decide (a ≤ b) = true := by
    rw [show (n.children.filter fun c => join q c ∈ Deed.standing p ds) = _ from hlists]
    exact (hl.pairwise_names hlt hp hq).imp fun hab => by simpa using Std.le_of_lt hab
  refine ((List.mergeSort_perm n.children _).filter _).eq_of_pairwise ?_ (hsorted.filter _) hlisted
  exact fun a b _ _ hab hba => String.le_antisymm (by simpa using hab) (by simpa using hba)

end

end Ledger

end Tree

end KeyRegistry
