import KeyRegistry.Proofs.Path.Lineage
import KeyRegistry.Proofs.Tree.Ancestry

/-!
# Growing down to a path

Above every path there is a nearest stored node. From there a tree grows by empty
persistent nodes, one under the other, down to the parent of the path.
-/

namespace KeyRegistry

open KeyRegistry.Path

namespace Tree

variable {t : Tree} {p q top : String} {m : Node} {ps missing : List String} {who : Caller}
  {identity : Option String}

theorem WellFormed.absent_of_lineage (h : t.WellFormed) (hps : Lineage top ps)
    (htop : ¬t.Stored top) : ∀ p ∈ ps, ¬t.Stored p := by
  induction ps generalizing top with
  | nil => simp
  | cons p ps ih =>
    have hp : ¬t.Stored p := fun ⟨_, hn⟩ => htop (h.parent_stored hn hps.2.1)
    intro q hq
    rcases List.mem_cons.1 hq with rfl | hq
    · exact hp
    · exact ih hps.2.2 hp q hq

/-- A lineage is stored down to some place and absent from there on. -/
theorem WellFormed.split_lineage (h : t.WellFormed) (hps : Lineage top ps) :
    ∃ held missing, ps = held ++ missing ∧ (∀ p ∈ held, t.Stored p) ∧
      ∀ p ∈ missing, ¬t.Stored p := by
  induction ps generalizing top with
  | nil => exact ⟨[], [], by simp⟩
  | cons p ps ih =>
    by_cases hp : t.Stored p
    · obtain ⟨held, missing, rfl, hheld, hmissing⟩ := ih hps.2.2
      exact ⟨p :: held, missing, rfl, by simpa [hp] using hheld, hmissing⟩
    · refine ⟨[], p :: ps, rfl, by simp, ?_⟩
      simpa [hp] using h.absent_of_lineage hps.2.2 hp

theorem WellFormed.readable_of_lineage (h : t.WellFormed) (hps : Lineage top ps)
    (hfoot : t.Readable identity (foot top ps)) :
    ∀ p ∈ top :: ps, t.Readable identity p := by
  induction ps generalizing top with
  | nil => simpa [foot] using hfoot
  | cons p ps ih =>
    have hrest := ih hps.2.2 hfoot
    intro q hq
    rcases List.mem_cons.1 hq with rfl | hq
    · exact h.readable_parent (hrest p (by simp)) hps.2.1
    · exact hrest q hq

/-! ## The nearest stored node -/

/-- The node `m` at `top` is the nearest that is stored above `p`, with `missing` in between. -/
structure Nearest (t : Tree) (p top : String) (m : Node) (missing : List String) : Prop where
  stored : t.node? top = some m
  held : ∃ held, ancestors p = held ++ missing ∧ foot root held = top ∧ Lineage root held ∧
    ∀ x ∈ held, t.Stored x
  lineage : Lineage top (missing ++ [p])
  absent : ∀ x ∈ missing, ¬t.Stored x

theorem WellFormed.exists_nearest (h : t.WellFormed) (hp : Valid p) (hr : p ≠ root) :
    ∃ top m missing, t.Nearest p top m missing := by
  have hline := lineage_ancestors hp hr
  obtain ⟨held, missing, hsplit, hheld, hmissing⟩ := h.split_lineage (lineage_append.1 hline).1
  rw [hsplit, List.append_assoc] at hline
  obtain ⟨hfirst, hrest⟩ := lineage_append.1 hline
  obtain ⟨m, hm⟩ : t.Stored (foot root held) := by
    rcases List.mem_cons.1 (foot_mem root held) with hroot | hmem
    · rw [hroot]
      exact h.root_stored.imp fun _ hn => hn.1
    · exact hheld _ hmem
  exact ⟨_, m, missing, hm, ⟨held, hsplit, rfl, hfirst, hheld⟩, hrest, hmissing⟩

theorem Nearest.parent (h : t.Nearest p top m missing) : parent? p = some (foot top missing) :=
  (lineage_append.1 h.lineage).2.2.1

theorem Nearest.notMem (h : t.Nearest p top m missing) : p ∉ missing := by
  have hnodup := h.lineage.nodup
  simp only [List.nodup_append, List.mem_singleton] at hnodup
  exact fun hmem => hnodup.2.2 p hmem p rfl rfl

/-- What is stored above a path is the nearest node or lies above it. -/
theorem Nearest.isWithin_top (h : t.Nearest p top m missing) {x : String} (hx : x ∈ ancestors p)
    (hstored : t.Stored x) : isWithin x top = true := by
  obtain ⟨held, hsplit, rfl, hline, -⟩ := h.held
  rw [hsplit, List.mem_append] at hx
  exact hline.isWithin_foot x (hx.resolve_right fun hmem => h.absent x hmem hstored)

/-- An ephemeral node above a path is the nearest one. -/
theorem Nearest.eq_top_of_ephemeral (h : t.Nearest p top m missing) (ht : t.WellFormed)
    {x : String} {n : Node} (hx : x ∈ ancestors p) (hn : t.node? x = some n)
    (howner : n.stat.owner ≠ none) : x = top :=
  ht.eq_of_childless hn (ht.ephemeral_childless hn howner) ⟨m, h.stored⟩
    (h.isWithin_top hx ⟨n, hn⟩)

theorem Nearest.missing_eq (h : t.Nearest p top m missing) :
    missing = (ancestors p).filter fun x => (t.node? x).isNone := by
  obtain ⟨held, hsplit, -, -, hheld⟩ := h.held
  rw [hsplit, List.filter_append, List.filter_eq_nil_iff.2, List.filter_eq_self.2,
    List.nil_append]
  · exact fun x hx => by simpa using not_stored_iff.1 (h.absent x hx)
  · intro x hx
    obtain ⟨n, hn⟩ := hheld x hx
    simp [hn]

theorem Nearest.top_mem (h : t.Nearest p top m missing) : top = root ∨ top ∈ ancestors p := by
  obtain ⟨held, hsplit, rfl, -, -⟩ := h.held
  rcases List.mem_cons.1 (foot_mem root held) with heq | hmem
  · exact .inl heq
  · exact .inr (hsplit ▸ List.mem_append_left _ hmem)

/-! ## Growing -/

/-- The name of an absent path is not on the list of its parent. -/
theorem WellFormed.fresh_of_absent (h : t.WellFormed) (hp : Valid p) (hq : parent? p = some q)
    (hm : t.node? q = some m) (habsent : ¬t.Stored p) : nodeName p ∉ m.children := by
  obtain ⟨-, -, hj⟩ := (parent?_eq_some_iff hp).1 hq
  rw [h.mem_children_iff hm, hj]
  exact fun hmem => habsent hmem.2

/-- What is created is new, lies beside the path that was asked for, and is kept under the path that
is told. -/
theorem made_of_create (h : t.WellFormed) {c : Change String}
    (hc : t.create p data mode who = .ok c) :
    Valid c.value ∧ parent? c.value = parent? p ∧ ¬t.Stored c.value ∧
      c.tree.node? c.value = some (Node.new data who.acl c.tree.zxid (ownerOf mode who)) := by
  obtain ⟨q, parent, hp, hq, hparent, -, -, hfresh, rfl⟩ := create_ok_cases hc
  have hpar := parent?_actualPath hp hq mode parent
  have hvalid := valid_actualPath hp hq mode parent
  have hnone := h.node?_eq_none_of_fresh hpar hparent hfresh
  exact ⟨hvalid, hpar.trans hq.symm, not_stored_iff.2 hnone,
    (node?_withNode hnone (ne_of_parent? hvalid hpar) _).trans (if_pos rfl)⟩

theorem create_of_absent (h : t.WellFormed) (hp : Valid p) (hq : parent? p = some q)
    (hm : t.node? q = some m) (howner : m.stat.owner = none)
    (hperm : m.acl.permits who.identity = true) (habsent : ¬t.Stored p) (mode : Mode)
    (hmode : mode.sequential = false) (data : List UInt8) :
    t.create p data mode who = .ok ⟨t.withNode q p
      (Node.new data who.acl (t.zxid + 1) (ownerOf mode who)), [⟨.created, p⟩], p⟩ := by
  have hactual := actualPath_of_not_sequential hmode p m
  have hfresh := h.fresh_of_absent hp hq hm habsent
  rw [create_of_fresh hp hq hm howner hperm (by rwa [hactual]), hactual]

def sprout (who : Caller) (t : Tree) : List String → Tree
  | [] => t
  | p :: ps =>
    sprout who (t.withNode ((parent? p).getD root) p (Node.new [] who.acl (t.zxid + 1) none)) ps

theorem permits_acl (who : Caller) : who.acl.permits who.identity = true := by
  unfold Caller.acl
  cases who.identity <;> simp [Acl.permits]

def Open (t : Tree) (who : Caller) (p : String) : Prop :=
  ∃ n, t.node? p = some n ∧ n.stat.owner = none ∧ n.acl.permits who.identity = true

/-- The first of several absent nodes is created, and the others can be created under it. -/
theorem exists_first_sprout (h : t.WellFormed) (hps : Lineage top (p :: ps))
    (hopen : t.Open who top) (habsent : ∀ x ∈ p :: ps, ¬t.Stored x) :
    ∃ t', t.create p [] .persistent who = .ok ⟨t', [⟨.created, p⟩], p⟩ ∧
      Step who t ⟨.created, p⟩ t' ∧ t'.Open who p ∧ (∀ x ∈ ps, ¬t'.Stored x) ∧
      sprout who t (p :: ps) = sprout who t' ps := by
  obtain ⟨hp, hpar, hrest⟩ := hps
  obtain ⟨m, hm, howner, hperm⟩ := hopen
  have hfirst : ¬t.Stored p := habsent p (by simp)
  have hcreate := create_of_absent h hp hpar hm howner hperm hfirst .persistent rfl []
  have hstep := (step_of_create hcreate).2
  have hnew := (node?_withNode (n := Node.new [] who.acl (t.zxid + 1) none)
    (not_stored_iff.1 hfirst) (ne_of_parent? hp hpar) p).trans (if_pos rfl)
  refine ⟨_, hcreate, hstep, ⟨_, hnew, rfl, permits_acl who⟩, fun x hx => ?_, ?_⟩
  · rw [hstep.stored_iff h]
    exact not_or.2 ⟨(hrest.isWithin hp x hx).2, habsent x (by simp [hx])⟩
  · rw [sprout, hpar]
    rfl

theorem steps_sprout (h : t.WellFormed) (hps : Lineage top ps) (hopen : t.Open who top)
    (habsent : ∀ x ∈ ps, ¬t.Stored x) :
    Steps who t (ps.map fun p => ⟨.created, p⟩) (sprout who t ps) := by
  induction ps generalizing t top with
  | nil => exact .nil t
  | cons p ps ih =>
    obtain ⟨t', -, hstep, hopen', habsent', heq⟩ := exists_first_sprout h hps hopen habsent
    rw [heq]
    exact .cons hstep (ih (hstep.wellFormed h) hps.2.2 hopen' habsent')

theorem stored_sprout_iff (h : t.WellFormed) (hps : Lineage top ps) (hopen : t.Open who top)
    (habsent : ∀ x ∈ ps, ¬t.Stored x) (x : String) :
    (sprout who t ps).Stored x ↔ x ∈ ps ∨ t.Stored x := by
  induction ps generalizing t top with
  | nil => simp [sprout]
  | cons p ps ih =>
    obtain ⟨t', -, hstep, hopen', habsent', heq⟩ := exists_first_sprout h hps hopen habsent
    rw [heq, ih (hstep.wellFormed h) hps.2.2 hopen' habsent', hstep.stored_iff h, List.mem_cons]
    tauto

theorem open_foot_sprout (h : t.WellFormed) (hps : Lineage top ps) (hopen : t.Open who top)
    (habsent : ∀ x ∈ ps, ¬t.Stored x) : (sprout who t ps).Open who (foot top ps) := by
  induction ps generalizing t top with
  | nil => exact hopen
  | cons p ps ih =>
    obtain ⟨t', -, hstep, hopen', habsent', heq⟩ := exists_first_sprout h hps hopen habsent
    rw [heq]
    exact ih (hstep.wellFormed h) hps.2.2 hopen' habsent'

/-- Under a lineage that sprouts the children are counted from zero. -/
theorem cversion_foot_sprout (h : t.WellFormed) (hps : Lineage top ps) (hopen : t.Open who top)
    (habsent : ∀ x ∈ ps, ¬t.Stored x) (hm : t.node? top = some m) :
    ∃ n, (sprout who t ps).node? (foot top ps) = some n ∧
      n.stat.cversion = if ps = [] then m.stat.cversion else 0 := by
  induction ps generalizing t top m with
  | nil => exact ⟨m, hm, rfl⟩
  | cons p ps ih =>
    obtain ⟨t', hcreate, hstep, hopen', habsent', heq⟩ := exists_first_sprout h hps hopen habsent
    obtain ⟨-, -, -, hmade⟩ := made_of_create h hcreate
    obtain ⟨n, hn, hcount⟩ := ih (hstep.wellFormed h) hps.2.2 hopen' habsent' hmade
    rw [heq]
    exact ⟨n, hn, hcount.trans (ite_self _)⟩

def planted (who : Caller) (t : Tree) (top : String) (missing : List String) (p : String)
    (data : List UInt8) (mode : Mode) : Tree :=
  (sprout who t missing).withNode (foot top missing) p
    (Node.new data who.acl ((sprout who t missing).zxid + 1) (ownerOf mode who))

/-- The path of what is asked for at `p`, if `m` is the nearest stored node and `missing` lie in
between: it is numbered by the child changes of its parent, and a new parent has seen none. -/
def target (p : String) (mode : Mode) (m : Node) (missing : List String) : String :=
  if mode.sequential then p ++ sequenceSuffix (if missing = [] then m.stat.cversion else 0) else p

theorem exists_actualPath_eq_target (p : String) (mode : Mode) (m : Node) (missing : List String) :
    ∃ n, actualPath p mode n = target p mode m missing :=
  ⟨{ m with stat := { m.stat with cversion := if missing = [] then m.stat.cversion else 0 } }, rfl⟩

/-- Under a missing node nothing is stored. -/
theorem Nearest.absent_target (h : t.WellFormed) (hp : Valid p)
    (hnear : t.Nearest p top m missing) (hne : missing ≠ []) (mode : Mode) :
    ¬t.Stored (target p mode m missing) := by
  rintro ⟨k, hk⟩
  obtain ⟨n, hn⟩ := exists_actualPath_eq_target p mode m missing
  obtain ⟨x, rest, rfl⟩ := List.exists_cons_of_ne_nil hne
  rw [← hn] at hk
  exact hnear.absent _ (foot_mem x rest)
    (h.parent_stored hk (parent?_actualPath hp hnear.parent mode n))

section Planting

variable (h : t.WellFormed) (hp : Valid p) (hnear : t.Nearest p top m missing)
  (howner : m.stat.owner = none) (hperm : m.acl.permits who.identity = true)

include h hnear howner hperm

theorem Nearest.steps_sprout :
    Steps who t (missing.map fun p => ⟨.created, p⟩) (sprout who t missing) :=
  Tree.steps_sprout h (lineage_append.1 hnear.lineage).1 ⟨m, hnear.stored, howner, hperm⟩
    hnear.absent

theorem Nearest.absent_sprout (habsent : ¬t.Stored p) : ¬(sprout who t missing).Stored p := by
  rw [stored_sprout_iff h (lineage_append.1 hnear.lineage).1 ⟨m, hnear.stored, howner, hperm⟩
    hnear.absent]
  exact not_or.2 ⟨hnear.notMem, habsent⟩

include hp

/-- Under the nearest node the target is created, unless it is there. -/
theorem Nearest.create_target (data : List UInt8)
    {mode : Mode} (habsent : ¬t.Stored (target p mode m missing)) :
    ∃ c, (sprout who t missing).create p data mode who = .ok c ∧
      c.value = target p mode m missing := by
  have hline := (lineage_append.1 hnear.lineage).1
  have hopen : t.Open who top := ⟨m, hnear.stored, howner, hperm⟩
  have hgrown := (hnear.steps_sprout h howner hperm).wellFormed h
  have hpar := hnear.parent
  obtain ⟨n, hn, hnowner, hnperm⟩ := open_foot_sprout h hline hopen hnear.absent
  obtain ⟨k, hk, hcount⟩ := cversion_foot_sprout h hline hopen hnear.absent hnear.stored
  obtain rfl : n = k := Option.some.inj (hn.symm.trans hk)
  have hactual : actualPath p mode n = target p mode m missing := by
    simp [actualPath, target, hcount]
  refine ⟨_, create_of_fresh hp hpar hn hnowner hnperm fun hmem => ?_, hactual⟩
  have hbeside := parent?_actualPath hp hpar mode n
  have hvalid := valid_actualPath hp hpar mode n
  obtain ⟨-, -, hj⟩ := (parent?_eq_some_iff hvalid).1 hbeside
  obtain ⟨-, hst⟩ := (hgrown.mem_children_iff hn _).1 hmem
  rw [hj, stored_sprout_iff h hline hopen hnear.absent] at hst
  rcases hst with hmissing | hstored
  · have hwithin := hline.isWithin_foot _ hmissing
    rw [not_isWithin_of_parent? hvalid hbeside] at hwithin
    cases hwithin
  · exact habsent (hactual ▸ hstored)

theorem Nearest.create_sprout (habsent : ¬t.Stored p) {mode : Mode}
    (hmode : mode.sequential = false) (data : List UInt8) :
    (sprout who t missing).create p data mode who =
      .ok ⟨planted who t top missing p data mode, [⟨.created, p⟩], p⟩ := by
  obtain ⟨n, hn, hnowner, hnperm⟩ := open_foot_sprout h (lineage_append.1 hnear.lineage).1
    ⟨m, hnear.stored, howner, hperm⟩ hnear.absent
  exact create_of_absent ((hnear.steps_sprout h howner hperm).wellFormed h) hp hnear.parent hn
    hnowner hnperm (hnear.absent_sprout h howner hperm habsent) mode hmode data

theorem Nearest.node?_planted (habsent : ¬t.Stored p) (mode : Mode) (data : List UInt8) :
    (planted who t top missing p data mode).node? p =
      some (Node.new data who.acl ((sprout who t missing).zxid + 1) (ownerOf mode who)) :=
  (node?_withNode (not_stored_iff.1 (hnear.absent_sprout h howner hperm habsent))
    (ne_of_parent? hp hnear.parent) p).trans (if_pos rfl)

end Planting

end Tree

end KeyRegistry
