import KeyRegistry.Proofs.Dialogue.Creating
import KeyRegistry.Proofs.Task.Alone

/-!
# Creating a node with its parents alone

A creation that nobody disturbs adds the missing ancestors of a path and a node under
them, or nothing at all: once the first ancestor has been added, the rest stands under
nodes of the caller's own.
-/

namespace KeyRegistry

open KeyRegistry.Path

namespace Tree

variable {t t' : Tree} {p top : String} {m : Node} {ps missing : List String} {who : Caller}
  {data : List UInt8} {mode : Mode}

/-! ## What the creation of a lineage leaves -/

theorem Steps.stored_iff_of_created (h : t.WellFormed)
    (hs : Steps who t (ps.map (Event.mk .created)) t') (x : String) :
    t'.Stored x ↔ t.Stored x ∨ x ∈ ps := by
  induction ps generalizing t with
  | nil =>
    cases hs
    simp
  | cons p ps ih =>
    cases hs with
    | cons first rest =>
      rw [ih (first.wellFormed h) rest, first.stored_iff h, List.mem_cons]
      tauto

/-- Nodes beside a lineage that is created stay as they are. -/
theorem Steps.node?_beside (h : t.WellFormed) (hs : Steps who t (ps.map (Event.mk .created)) t')
    (hline : Lineage top ps) {x : String} (hx : x ∉ ps) (htop : x ≠ top) :
    t'.node? x = t.node? x := by
  induction ps generalizing t top with
  | nil =>
    cases hs
    rfl
  | cons p ps ih =>
    obtain ⟨-, hpar, hrest⟩ := hline
    obtain ⟨hxp, hxps⟩ := not_or.1 (mt List.mem_cons.2 hx)
    cases hs with
    | cons first rest =>
      rw [ih (first.wellFormed h) rest hrest hxps hxp]
      exact first.node?_eq h hxp fun _ => by simpa [hpar] using htop.symm

/-- The node over a lineage that is created gets its first member as a child. -/
theorem Steps.node?_over (h : t.WellFormed)
    (hs : Steps who t ((p :: ps).map (Event.mk .created)) t') (hline : Lineage top (p :: ps))
    (htop : Valid top) (hm : t.node? top = some m) :
    t'.node? top = some (gainChild (nodeName p) m) := by
  have hnot : top ∉ ps := fun hmem => (hline.isWithin htop top (by simp [hmem])).2 rfl
  obtain ⟨hp, hpar, hrest⟩ := hline
  have hne := ne_of_parent? hp hpar
  cases hs with
  | cons first rest =>
    rw [rest.node?_beside (first.wellFormed h) hrest hnot hne.symm]
    cases first with
    | created data valid above stored persistent permitted fresh owned =>
      obtain rfl := Option.some.inj (above.symm.trans hpar)
      rw [node?_withNode (h.node?_eq_none_of_fresh above stored fresh) hne, if_neg hne.symm,
        if_pos rfl, hm, Option.map_some]

section Sprouting

variable (h : t.WellFormed) (hps : Lineage top ps) (hopen : t.Open who top)
  (habsent : ∀ x ∈ ps, ¬t.Stored x)

include h hps hopen habsent

/-- Each node of a lineage that sprouts is an empty persistent node of the caller. -/
theorem core_sprout : ∀ x ∈ ps, ∃ zxid,
    ((sprout who t ps).node? x).map core = some (core (Node.new [] who.acl zxid none)) := by
  induction ps generalizing t top with
  | nil => simp
  | cons p ps ih =>
    obtain ⟨t', hcreate, hstep, hopen', habsent', heq⟩ := exists_first_sprout h hps hopen habsent
    have hwf := hstep.wellFormed h
    obtain ⟨-, -, -, hmade⟩ := made_of_create h hcreate
    rw [heq]
    intro x hx
    rcases List.mem_cons.1 hx with rfl | hx
    · have hnot : ∀ ev ∈ ps.map (Event.mk .created), ev.path ≠ x := by
        simpa using fun y hy (he : y = x) =>
          (List.nodup_cons.1 hps.nodup).1 (he ▸ hy)
      have hcore := (steps_sprout hwf hps.2.2 hopen' habsent').core_eq hwf hnot
      exact ⟨_, hcore.trans (congrArg (Option.map core) hmade)⟩
    · exact ih hwf hps.2.2 hopen' habsent' x hx

end Sprouting

/-! ## What a creation with parents comes to -/

/-- The tree `t'` has the `missing` nodes and a node at `actual` besides those of `t`. The nearest
node has got a child, the last on its list, and the others are as they were. -/
structure Extends (who : Caller) (data : List UInt8) (mode : Mode) (t : Tree) (top : String)
    (m : Node) (missing : List String) (actual : String) (t' : Tree) : Prop where
  stored_iff (x : String) : t'.Stored x ↔ t.Stored x ∨ x ∈ missing ∨ x = actual
  made : t'.node? actual = some (Node.new data who.acl t'.zxid (ownerOf mode who))
  between : ∀ x ∈ missing, ∃ n, t'.node? x = some n ∧ n.data = [] ∧ n.stat.owner = none ∧
    n.acl = who.acl
  nearest : ∃ name, t'.node? top = some (gainChild name m) ∧ isWithin (join top name) actual = true
  others {x : String} : t.Stored x → x ≠ top → t'.node? x = t.node? x

theorem Nearest.unique (h : t.Nearest p top m missing) {top' : String} {m' : Node}
    {missing' : List String} (h' : t.Nearest p top' m' missing') :
    top = top' ∧ m = m' ∧ missing = missing' := by
  obtain rfl : missing = missing' := h.missing_eq.trans h'.missing_eq.symm
  obtain ⟨held, hsplit, rfl, -⟩ := h.held
  obtain ⟨held', hsplit', rfl, -⟩ := h'.held
  obtain rfl : held = held' := List.append_cancel_right (hsplit.symm.trans hsplit')
  exact ⟨rfl, Option.some.inj (h.stored.symm.trans h'.stored), rfl⟩

theorem Nearest.extends (h : t.WellFormed) (hnear : t.Nearest p top m missing)
    (howner : m.stat.owner = none) (hperm : m.acl.permits who.identity = true) {c : Change String}
    (hc : (sprout who t missing).create p data mode who = .ok c) :
    Extends who data mode t top m missing c.value c.tree := by
  have hline := (lineage_append.1 hnear.lineage).1
  have hsprout := hnear.steps_sprout h howner hperm
  have hwf := hsprout.wellFormed h
  obtain ⟨hvalid, hbeside, hnew, hmade⟩ := made_of_create hwf hc
  have hstep := (step_of_create hc).2
  have hall : Lineage top (missing ++ [c.value]) :=
    lineage_append.2 ⟨hline, hvalid, hbeside.trans hnear.parent, trivial⟩
  have hsteps : Steps who t ((missing ++ [c.value]).map (Event.mk .created)) c.tree := by
    rw [List.map_append]
    exact hsprout.append (.single hstep)
  have hiff (x : String) := hsteps.stored_iff_of_created h x
  refine ⟨fun x => by simp [hiff], hmade, fun x hx => ?_, ?_, fun {x} hx htop => ?_⟩
  · obtain ⟨zxid, hcore⟩ := core_sprout h hline ⟨m, hnear.stored, howner, hperm⟩ hnear.absent x hx
    have hne : x ≠ c.value := by
      rintro rfl
      simpa using (List.nodup_append.1 hall.nodup).2.2 _ hx
    rw [← hstep.core_eq hwf hne, Option.map_eq_some_iff] at hcore
    obtain ⟨n, hn, hcore⟩ := hcore
    exact ⟨n, hn, data_eq_of_core hcore, owner_eq_of_core hcore, acl_eq_of_core hcore⟩
  · obtain ⟨first, rest, hfirst⟩ := List.exists_cons_of_ne_nil
      (List.append_ne_nil_of_right_ne_nil missing (List.cons_ne_nil c.value []))
    have hfoot : foot top (first :: rest) = c.value := by rw [← hfirst, foot_concat]
    rw [hfirst] at hall hsteps
    obtain ⟨-, -, hjoin⟩ := (parent?_eq_some_iff hall.1).1 hall.2.1
    refine ⟨nodeName first, hsteps.node?_over h hall (h.valid hnear.stored) hnear.stored, ?_⟩
    rw [hjoin, ← hfoot]
    exact hall.isWithin_foot first (by simp)
  · refine hsteps.node?_beside h hall (fun hmem => ?_) htop
    rcases List.mem_append.1 hmem with hmem | hmem
    · exact hnear.absent x hmem hx
    · obtain rfl := List.mem_singleton.1 hmem
      exact hnew ((hsprout.stored_iff_of_created h _).2 (.inl hx))

end Tree

namespace Dialogue

variable {t t' : Tree} {p top : String} {m : Node} {missing : List String} {who : Caller}
  {mode : Mode}

theorem does_createWithParents_extends (h : t.WellFormed) (hp : Valid p)
    (hnear : t.Nearest p top m missing) (howner : m.stat.owner = none)
    (hperm : m.acl.permits who.identity = true)
    (habsent : ¬t.Stored (Tree.target p mode m missing)) (data : List UInt8) :
    ∃ t', Does who t (createWithParents p data mode) t' (.ok (Tree.target p mode m missing)) ∧
      Tree.Extends who data mode t top m missing (Tree.target p mode m missing) t' := by
  obtain ⟨c, hc, htarget⟩ := hnear.create_target h hp howner hperm data habsent
  have hextends := hnear.extends h howner hperm hc
  rw [← htarget]
  refine ⟨c.tree, ?_, hextends⟩
  cases missing with
  | nil => exact does_createWithParents_added hc
  | cons x rest =>
    have hnone : t.node? (foot x rest) = none :=
      Tree.not_stored_iff.1 (hnear.absent _ (foot_mem x rest))
    exact does_createWithParents_grown (Tree.create_of_no_parent hp hnear.parent hnone)
      (ensureAncestors_eq hnear h hperm (does_createEach_missing h
        (lineage_append.1 hnear.lineage).1 ⟨m, hnear.stored, howner, hperm⟩ hnear.absent))
      hc

/-- What can be created at once has a parent that is persistent and open to the caller. -/
theorem open_of_create (h : t.WellFormed) (hnear : t.Nearest p top m []) {data : List UInt8}
    {c : Change String} (hc : t.create p data mode who = .ok c) : m.stat.owner = none ∧
      m.acl.permits who.identity = true ∧ ¬t.Stored (Tree.target p mode m []) := by
  obtain ⟨-, -, hnew, -⟩ := Tree.made_of_create h hc
  obtain ⟨q, parent, -, hq, hparent, howner, hperm, -, rfl⟩ := Tree.create_ok_cases hc
  obtain rfl : q = top := Option.some.inj (hq.symm.trans hnear.parent)
  obtain rfl : parent = m := Option.some.inj (hparent.symm.trans hnear.stored)
  exact ⟨howner, hperm, hnew⟩

theorem does_createWithParents_error (h : t.WellFormed) (hp : Valid p)
    (hnear : t.Nearest p top m missing)
    (hnot : ¬(m.stat.owner = none ∧ m.acl.permits who.identity = true ∧
      ¬t.Stored (Tree.target p mode m missing))) (data : List UInt8) :
    ∃ error, Does who t (createWithParents p data mode) t (.error error) := by
  cases missing with
  | nil =>
    cases hcreate : t.create p data mode who with
    | ok c => exact absurd (open_of_create h hnear hcreate) hnot
    | error error =>
      refine ⟨error, does_createWithParents_refused hcreate ?_⟩
      rintro q rfl
      exact missing_ne_nil hp hnear hcreate rfl
  | cons x rest =>
    have hnone : t.node? (foot x rest) = none :=
      Tree.not_stored_iff.1 (hnear.absent _ (foot_mem x rest))
    rcases does_ensureAncestors h hnear (List.cons_ne_nil x rest) with
      ⟨error, hstop⟩ | ⟨howner, hperm, -⟩
    · exact ⟨error, does_createWithParents_cut
        (Tree.create_of_no_parent hp hnear.parent hnone) hstop⟩
    · exact absurd ⟨howner, hperm, hnear.absent_target h hp (List.cons_ne_nil x rest) mode⟩ hnot

/-- The path may be created, the nearest node above it is persistent and open to the caller, and
the target is not there. -/
def Creatable (who : Caller) (t : Tree) (p : String) (mode : Mode) : Prop :=
  Valid p ∧ p ≠ root ∧ ∃ top m missing, t.Nearest p top m missing ∧ m.stat.owner = none ∧
    m.acl.permits who.identity = true ∧ ¬t.Stored (Tree.target p mode m missing)

/-- A creation with parents does all that it is asked for, or nothing. -/
theorem does_createWithParents_cases (h : t.WellFormed) (who : Caller) (p : String)
    (data : List UInt8) (mode : Mode) :
    (Creatable who t p mode ∧ ∃ top m missing t', t.Nearest p top m missing ∧
      Does who t (createWithParents p data mode) t' (.ok (Tree.target p mode m missing)) ∧
      Tree.Extends who data mode t top m missing (Tree.target p mode m missing) t') ∨
    (¬Creatable who t p mode ∧
      ∃ error, Does who t (createWithParents p data mode) t (.error error)) := by
  by_cases hp : Valid p
  · by_cases hr : p = root
    · subst hr
      exact .inr ⟨fun hcan => hcan.2.1 rfl, _,
        does_createWithParents_refused Tree.create_root (by simp)⟩
    · obtain ⟨top, m, missing, hnear⟩ := h.exists_nearest hp hr
      by_cases hopen : m.stat.owner = none ∧ m.acl.permits who.identity = true ∧
          ¬t.Stored (Tree.target p mode m missing)
      · obtain ⟨howner, hperm, habsent⟩ := hopen
        obtain ⟨t', hdoes, hextends⟩ :=
          does_createWithParents_extends h hp hnear howner hperm habsent data
        exact .inl ⟨⟨hp, hr, top, m, missing, hnear, howner, hperm, habsent⟩,
          top, m, missing, t', hnear, hdoes, hextends⟩
      · refine .inr ⟨?_, does_createWithParents_error h hp hnear hopen data⟩
        rintro ⟨-, -, top', m', missing', hnear', hopen'⟩
        obtain ⟨rfl, rfl, rfl⟩ := hnear.unique hnear'
        exact hopen hopen'
  · obtain ⟨fault, hfault⟩ := exists_fault_of_not_valid hp
    exact .inr ⟨fun hcan => hp hcan.1, _,
      does_createWithParents_refused (Tree.create_of_fault hfault) (by simp)⟩

/-- The creation of a persistent node that is absent does all that it is asked for, or fails for
another reason than that a node exists. -/
theorem does_createWithParents_absent (h : t.WellFormed) (hp : Valid p) (habsent : ¬t.Stored p)
    (who : Caller) (data : List UInt8) :
    (Creatable who t p .persistent ∧ ∃ top m missing t', t.Nearest p top m missing ∧
      Does who t (createWithParents p data .persistent) t' (.ok p) ∧ t'.WellFormed ∧
      Tree.Extends who data .persistent t top m missing p t') ∨
    (¬Creatable who t p .persistent ∧ ∃ error, (∀ q, error ≠ .nodeExists q) ∧
      Does who t (createWithParents p data .persistent) t (.error error)) := by
  have hr : p ≠ root := by
    rintro rfl
    exact habsent (h.root_stored.imp fun _ hn => hn.1)
  obtain ⟨top, m, missing, hnear⟩ := h.exists_nearest hp hr
  by_cases hopen : m.stat.owner = none ∧ m.acl.permits who.identity = true
  · obtain ⟨howner, hperm⟩ := hopen
    have hmode : Mode.persistent.sequential = false := rfl
    have hc := hnear.create_sprout h hp howner hperm habsent hmode data
    have hwf := (hnear.steps_sprout h howner hperm).wellFormed h
    exact .inl ⟨⟨hp, hr, top, m, missing, hnear, howner, hperm, habsent⟩, top, m, missing, _,
      hnear, does_createWithParents h hp hnear howner hperm habsent hmode data,
      (Tree.step_of_create hc).2.wellFormed hwf, hnear.extends h howner hperm hc⟩
  · refine .inr ⟨?_, ?_⟩
    · rintro ⟨-, -, top', m', missing', hnear', howner, hperm, -⟩
      obtain ⟨rfl, rfl, rfl⟩ := hnear.unique hnear'
      exact hopen ⟨howner, hperm⟩
    · cases missing with
      | nil =>
        by_cases howner : m.stat.owner = none
        · have hperm : m.acl.permits who.identity = false := by simpa [howner] using hopen
          exact ⟨_, by simp, does_createWithParents_refused
            (Tree.create_of_not_permitted hp hnear.parent hnear.stored howner hperm) (by simp)⟩
        · exact ⟨_, by simp, does_createWithParents_refused (Tree.create_of_ephemeral_parent hp
            hnear.parent hnear.stored (Option.isSome_iff_ne_none.2 howner)) (by simp)⟩
      | cons x rest =>
        have hnone : t.node? (foot x rest) = none :=
          Tree.not_stored_iff.1 (hnear.absent _ (foot_mem x rest))
        rcases does_ensureAncestors h hnear (List.cons_ne_nil x rest) with
          ⟨error, hstop⟩ | ⟨howner, hperm, -⟩
        · exact ⟨error, Does.ne_nodeExists hstop, does_createWithParents_cut
            (Tree.create_of_no_parent hp hnear.parent hnone) hstop⟩
        · exact absurd ⟨howner, hperm⟩ hopen

end Dialogue

namespace Task

open Dialogue (Creatable createWithParents)

variable {w : World} {s : SessionId} {e : Ensemble}

/-- While nothing else goes on and no fault is injected, a creation with parents succeeds if and
only if the path is valid and not the root, the nearest stored node above it is persistent and open
to the session, and the target is not there. Then the missing ancestors and the target have been
added, and nothing else has changed; otherwise everything is as it was. -/
theorem createWithParents_alone (hreach : e.Reachable) (he : w.ensembles[s.ensemble]? = some e)
    (hcalm : e.Calm s.number) (p : String) (data : List UInt8) (mode : Mode) :
    Ends World.later (fun result v => ∃ e', w.Puts s.ensemble e' v ∧
      ((∃ actual, result = .ok actual) ↔ Creatable (e.caller s.number) e.tree p mode) ∧
      (∀ actual, result = .ok actual → ∃ top m missing, e.tree.Nearest p top m missing ∧
        actual = Tree.target p mode m missing ∧
        Tree.Extends (e.caller s.number) data mode e.tree top m missing actual e'.tree) ∧
      (∀ error, result = .error error → v.ensembles = w.ensembles))
      w (say s (createWithParents p data mode)) := by
  rcases Dialogue.does_createWithParents_cases hreach.wellFormed (e.caller s.number) p data mode
    with ⟨hcan, top, m, missing, t', hnear, hdoes, hextends⟩ | ⟨hnot, error, hdoes⟩
  · refine (ends_say_alone he hcalm hdoes).weaken ?_
    rintro _ v ⟨rfl, e', hv, rfl, -⟩
    refine ⟨e', hv, iff_of_true ⟨_, rfl⟩ hcan, ?_, by simp⟩
    rintro _ ⟨⟩
    exact ⟨top, m, missing, hnear, rfl, hextends⟩
  · refine (ends_say_alone he hcalm hdoes).weaken ?_
    rintro _ v ⟨rfl, e', hv, -, hkept⟩
    exact ⟨e', hv, iff_of_false (by simp) hnot, by simp, fun _ _ => hkept rfl⟩

/-- A place of `nested` with one node missing in between. -/
theorem nearest_nested {top mid p : String} {m : Node} (held : List String)
    (hm : Ensemble.nested.tree.node? top = some m) (hsplit : ancestors p = held ++ [mid])
    (hfoot : foot root held = top) (hheld : ∀ x ∈ held, (Ensemble.nested.tree.node? x).isSome)
    (hline : Lineage root held) (hrest : Lineage top [mid, p])
    (hmid : Ensemble.nested.tree.node? mid = none) :
    Ensemble.nested.tree.Nearest p top m [mid] where
  stored := hm
  held := ⟨held, hsplit, hfoot, hline, fun x hx => Option.isSome_iff_exists.1 (hheld x hx)⟩
  lineage := hrest
  absent := by simpa using Tree.not_stored_iff.2 hmid

/-- Under `/a` a numbered node is created with its parent; under the ephemeral `/a/b` nothing is. -/
theorem createWithParents_alone_nested :
    Ends World.later (fun result v => result = .ok "/a/c/d0000000000" ∧ ∃ e', v.ensembles = [e'] ∧
        ∀ x, e'.tree.Stored x ↔
          Ensemble.nested.tree.Stored x ∨ x ∈ ["/a/c"] ∨ x = "/a/c/d0000000000")
      { ensembles := [Ensemble.nested] }
      (say ⟨0, 1⟩ (createWithParents "/a/c/d" [7] .persistentSequential)) ∧
    Ends World.later (fun result v => (∃ error, result = .error error) ∧
        v.ensembles = [Ensemble.nested])
      { ensembles := [Ensemble.nested] }
      (say ⟨0, 1⟩ (createWithParents "/a/b/c/d" [7] .persistent)) := by
  have halone (p : String) (mode : Mode) := createWithParents_alone
    (w := { ensembles := [Ensemble.nested] }) (s := ⟨0, 1⟩) Ensemble.nested_reachable rfl
    ⟨rfl, rfl⟩ p [7] mode
  constructor
  · have hnear : Ensemble.nested.tree.Nearest "/a/c/d" "/a" _ ["/a/c"] :=
      nearest_nested ["/a"] rfl (by decide) rfl (by decide)
        ⟨by decide, by decide, trivial⟩
        ⟨by decide, by decide, by decide, by decide, trivial⟩ rfl
    refine (halone "/a/c/d" .persistentSequential).weaken ?_
    rintro result v ⟨e', hv, hiff, hok, -⟩
    have habsent : ¬Ensemble.nested.tree.Stored "/a/c/d0000000000" := Tree.not_stored_iff.2 rfl
    obtain ⟨actual, rfl⟩ := hiff.2 ⟨by decide, by decide, _, _, _, hnear, rfl, rfl, habsent⟩
    obtain ⟨top, m, missing, hnear', rfl, hextends⟩ := hok actual rfl
    obtain ⟨rfl, rfl, rfl⟩ := hnear.unique hnear'
    exact ⟨rfl, e', hv.ensembles, hextends.stored_iff⟩
  · have hnear : Ensemble.nested.tree.Nearest "/a/b/c/d" "/a/b" _ ["/a/b/c"] :=
      nearest_nested ["/a", "/a/b"] rfl (by decide) rfl (by decide)
        ⟨by decide, by decide, by decide, by decide, trivial⟩
        ⟨by decide, by decide, by decide, by decide, trivial⟩ rfl
    refine (halone "/a/b/c/d" .persistent).weaken ?_
    rintro result v ⟨e', hv, hiff, -, herror⟩
    cases result with
    | ok actual =>
      obtain ⟨-, -, top, m, missing, hnear', howner, -⟩ := hiff.1 ⟨actual, rfl⟩
      obtain ⟨rfl, rfl, rfl⟩ := hnear.unique hnear'
      cases howner
    | error error => exact ⟨⟨error, rfl⟩, herror error rfl⟩

end Task

end KeyRegistry
