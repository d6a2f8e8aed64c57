import KeyRegistry.Proofs.Dialogue.Undisturbed
import KeyRegistry.Proofs.Tree.Growth

/-!
# Creating a node with its parents

Undisturbed, the creation of the ancestors accepts those that are stored and adds
the rest, unless the nearest stored one is ephemeral: then nothing is changed.
-/

namespace KeyRegistry

open KeyRegistry.Path

namespace Dialogue

variable {who : Caller} {t t' : Tree} {p q top : String} {m : Node} {ps held missing : List String}
  {data : List UInt8} {mode : Mode} {error : ServiceError} {r : Except ServiceError Unit}

/-! ## Creating each of several nodes -/

theorem does_createEach_added {c : Change String} (h : t.create p [] .persistent who = .ok c)
    (hrest : Does who c.tree (createEach ps) t' r) : Does who t (createEach (p :: ps)) t' r :=
  (Does.ask (served_create h)).bind hrest

theorem does_createEach_kept (h : t.create p [] .persistent who = .error (.nodeExists q))
    (hrest : Does who t (createEach ps) t' r) : Does who t (createEach (p :: ps)) t' r :=
  (Does.ask (served_create_error h)).bind hrest

theorem does_createEach_refused (h : t.create p [] .persistent who = .error error)
    (hne : ∀ q, error ≠ .nodeExists q) : Does who t (createEach (p :: ps)) t (.error error) := by
  refine (Does.ask (served_create_error h)).bind ?_
  cases error with
  | nodeExists q => exact absurd rfl (hne q)
  | _ => exact .done rfl

/-- A node under which another is stored is persistent. -/
theorem persistent_of_child (h : t.WellFormed) (hp : t.Stored p) (hq : parent? p = some q)
    (hm : t.node? q = some m) : m.stat.owner = none := by
  obtain ⟨n, hn⟩ := hp
  have hmem := h.nodeName_mem_children hn hq hm
  by_contra howner
  simp [h.ephemeral_childless hm howner] at hmem

theorem create_of_stored (h : t.WellFormed) (hp : t.Stored p) (hq : parent? p = some q)
    (hread : t.Readable who.identity q) (hmode : mode.sequential = false) :
    t.create p data mode who = .error (.nodeExists p) := by
  obtain ⟨n, hn⟩ := hp
  obtain ⟨m, hm, hperm⟩ := hread
  have hactual := Tree.actualPath_of_not_sequential hmode p m
  rw [Tree.create_of_mem_children (h.valid hn) hq hm (persistent_of_child h ⟨n, hn⟩ hq hm) hperm
    (by rw [hactual]; exact h.nodeName_mem_children hn hq hm), hactual]

theorem does_createEach_held (h : t.WellFormed) (hline : Lineage top held)
    (hheld : ∀ x ∈ held, t.Stored x) (hread : ∀ x ∈ top :: held, t.Readable who.identity x)
    (hrest : Does who t (createEach ps) t' r) :
    Does who t (createEach (held ++ ps)) t' r := by
  induction held generalizing top with
  | nil => exact hrest
  | cons p held ih =>
    exact does_createEach_kept
      (create_of_stored h (hheld p (by simp)) hline.2.1 (hread top (by simp)) rfl)
      (ih hline.2.2 (fun x hx => hheld x (by simp [hx])) fun x hx => hread x (by simp_all))

theorem does_createEach_missing (h : t.WellFormed) (hline : Lineage top missing)
    (hopen : t.Open who top) (habsent : ∀ p ∈ missing, ¬t.Stored p) :
    Does who t (createEach missing) (t.sprout who missing) (.ok ()) := by
  induction missing generalizing t top with
  | nil => exact .done rfl
  | cons p missing ih =>
    obtain ⟨t', hcreate, hstep, hopen', habsent', heq⟩ :=
      Tree.exists_first_sprout h hline hopen habsent
    rw [heq]
    exact does_createEach_added hcreate
      (ih (hstep.wellFormed h) hline.2.2 hopen' habsent')

/-- A creation of several nodes that fails does not fail because a node exists. -/
theorem Does.ne_nodeExists (h : Does who t (createEach ps) t' (.error error)) (q : String) :
    error ≠ .nodeExists q := by
  induction ps generalizing t with
  | nil =>
    cases h with
    | done turn => cases turn
    | note turn => cases turn
    | call turn => cases turn
  | cons p ps ih =>
    cases h with
    | done turn => cases turn
    | note turn => cases turn
    | @call _ _ _ _ r next answer _ turn _ rest =>
      cases turn
      cases answer with
      | ok s => exact ih rest
      | error e =>
        cases e with
        | nodeExists s => exact ih rest
        | _ =>
          cases rest with
          | done turn =>
            cases turn
            simp
          | note turn => cases turn
          | call turn => cases turn

/-! ## Creating a node with its parents -/

theorem does_createWithParents_added {c : Change String} (h : t.create p data mode who = .ok c) :
    Does who t (createWithParents p data mode) c.tree (.ok c.value) :=
  (Does.ask (served_create h)).bind (.done rfl)

theorem does_createWithParents_refused (h : t.create p data mode who = .error error)
    (hne : ∀ q, error ≠ .noNode q) :
    Does who t (createWithParents p data mode) t (.error error) := by
  refine (Does.ask (served_create_error h)).bind ?_
  cases error with
  | noNode q => exact absurd rfl (hne q)
  | _ => exact .done rfl

theorem does_createWithParents_cut (h : t.create p data mode who = .error (.noNode q))
    (hr : Does who t (ensureAncestors p) t' (.error error)) :
    Does who t (createWithParents p data mode) t' (.error error) :=
  (Does.ask (served_create_error h)).bind (hr.bind (.done rfl))

theorem does_createWithParents_grown (h : t.create p data mode who = .error (.noNode q))
    (hr : Does who t (ensureAncestors p) t' (.ok ())) {c : Change String}
    (hc : t'.create p data mode who = .ok c) :
    Does who t (createWithParents p data mode) c.tree (.ok c.value) :=
  (Does.ask (served_create_error h)).bind (hr.bind (Does.ask (served_create hc)))

theorem ensureAncestors_eq (hnear : t.Nearest p top m missing) (h : t.WellFormed)
    (hread : m.acl.permits who.identity = true)
    (hmissing : Does who t (createEach missing) t' r) :
    Does who t (ensureAncestors p) t' r := by
  obtain ⟨held, hsplit, hfoot, hline, hheld⟩ := hnear.held
  rw [ensureAncestors, hsplit]
  refine does_createEach_held h hline hheld (h.readable_of_lineage hline ?_) hmissing
  rw [hfoot]
  exact ⟨m, hnear.stored, hread⟩

/-- With nothing ephemeral above it, an absent node is created under its missing ancestors. -/
theorem does_createWithParents (h : t.WellFormed) (hp : Valid p)
    (hnear : t.Nearest p top m missing) (howner : m.stat.owner = none)
    (hperm : m.acl.permits who.identity = true) (habsent : ¬t.Stored p)
    (hmode : mode.sequential = false) (data : List UInt8) :
    Does who t (createWithParents p data mode) (t.planted who top missing p data mode)
      (.ok p) := by
  have hopen : t.Open who top := ⟨m, hnear.stored, howner, hperm⟩
  have hcreate := hnear.create_sprout h hp howner hperm habsent hmode data
  cases missing with
  | nil => exact does_createWithParents_added hcreate
  | cons x rest =>
    have hnone : t.node? (foot x rest) = none :=
      Tree.not_stored_iff.1 (hnear.absent _ (foot_mem x rest))
    exact does_createWithParents_grown (Tree.create_of_no_parent hp hnear.parent hnone)
      (ensureAncestors_eq hnear h hperm (does_createEach_missing h
        (lineage_append.1 hnear.lineage).1 hopen hnear.absent))
      hcreate

/-- Under an ephemeral node nothing is created. -/
theorem does_createWithParents_blocked (h : t.WellFormed) (hp : Valid p)
    (hnear : t.Nearest p top m missing) (howner : m.stat.owner.isSome)
    (hperm : m.acl.permits who.identity = true) (data : List UInt8) (mode : Mode) :
    Does who t (createWithParents p data mode) t (.error (.noChildrenForEphemerals top)) := by
  cases missing with
  | nil =>
    exact does_createWithParents_refused
      (Tree.create_of_ephemeral_parent hp hnear.parent hnear.stored howner) (by simp)
  | cons x rest =>
    have hnone : t.node? (foot x rest) = none :=
      Tree.not_stored_iff.1 (hnear.absent _ (foot_mem x rest))
    obtain ⟨hx, hpar, -⟩ := hnear.lineage
    exact does_createWithParents_cut (Tree.create_of_no_parent hp hnear.parent hnone)
      (ensureAncestors_eq hnear h hperm (does_createEach_refused
        (Tree.create_of_ephemeral_parent hx hpar hnear.stored howner) (by simp)))

/-! ## Whoever asks -/

/-- What a creation at `p` that yields `actual` leaves: a node of the caller beside `p`, or at
it. -/
structure Bears (who : Caller) (p : String) (data : List UInt8) (actual : String) (t : Tree) :
    Prop where
  beside : parent? actual = parent? p
  valid : Valid actual
  stored : ∃ n, t.node? actual = some n ∧ n.data = data ∧ n.acl = who.acl

theorem bears_of_create (h : t.WellFormed) {c : Change String}
    (hc : t.create p data mode who = .ok c) : Bears who p data c.value c.tree := by
  obtain ⟨hvalid, hbeside, -, hmade⟩ := Tree.made_of_create h hc
  exact ⟨hbeside, hvalid, _, hmade, rfl, rfl⟩

/-- Stored nodes that are to be created are passed over, unless one of them stands under a node
that is closed to the caller. -/
theorem does_createEach_stored (h : t.WellFormed) (hline : Lineage top held) (htop : t.Stored top)
    (hheld : ∀ x ∈ held, t.Stored x) :
    (∀ ps t' r, Does who t (createEach ps) t' r → Does who t (createEach (held ++ ps)) t' r) ∨
    ∃ error, ∀ ps, Does who t (createEach (held ++ ps)) t (.error error) := by
  induction held generalizing top with
  | nil => exact .inl fun _ _ _ hd => hd
  | cons p held ih =>
    obtain ⟨m, hm⟩ := htop
    obtain ⟨hp, hpar, hrest⟩ := hline
    have hstored := hheld p (by simp)
    cases hperm : m.acl.permits who.identity with
    | false =>
      have hrefused : t.create p [] .persistent who = .error (.noAuth top) :=
        Tree.create_of_not_permitted hp hpar hm (persistent_of_child h hstored hpar hm) hperm
      exact .inr ⟨_, fun _ => does_createEach_refused hrefused (by simp)⟩
    | true =>
      have hkept : t.create p [] .persistent who = .error (.nodeExists p) :=
        create_of_stored h hstored hpar ⟨m, hm, hperm⟩ rfl
      rcases ih hrest hstored fun x hx => hheld x (by simp [hx]) with hpass | ⟨error, hstop⟩
      · exact .inl fun ps t' r hd => does_createEach_kept hkept (hpass ps t' r hd)
      · exact .inr ⟨error, fun ps => does_createEach_kept hkept (hstop ps)⟩

/-- The ancestors are created if the nearest stored node is open to the caller; if any creation is
refused, then before any has succeeded. -/
theorem does_ensureAncestors (h : t.WellFormed) (hnear : t.Nearest p top m missing)
    (hne : missing ≠ []) : (∃ error, Does who t (ensureAncestors p) t (.error error)) ∨
      (m.stat.owner = none ∧ m.acl.permits who.identity = true ∧
        Does who t (ensureAncestors p) (t.sprout who missing) (.ok ())) := by
  obtain ⟨held, hsplit, hfoot, hline, hheld⟩ := hnear.held
  obtain ⟨x, rest, rfl⟩ := List.exists_cons_of_ne_nil hne
  obtain ⟨hx, hpar, -⟩ := hnear.lineage
  rw [ensureAncestors, hsplit]
  rcases does_createEach_stored h hline (h.root_stored.imp fun _ hn => hn.1) hheld with
    hpass | ⟨error, hstop⟩
  · by_cases howner : m.stat.owner = none
    · cases hperm : m.acl.permits who.identity with
      | false =>
        exact .inl ⟨_, hpass _ _ _ (does_createEach_refused
          (Tree.create_of_not_permitted hx hpar hnear.stored howner hperm) (by simp))⟩
      | true =>
        exact .inr ⟨howner, rfl, hpass _ _ _ (does_createEach_missing h
          (lineage_append.1 hnear.lineage).1 ⟨m, hnear.stored, howner, hperm⟩ hnear.absent)⟩
    · exact .inl ⟨_, hpass _ _ _ (does_createEach_refused (Tree.create_of_ephemeral_parent hx hpar
        hnear.stored (Option.isSome_iff_ne_none.2 howner)) (by simp))⟩
  · exact .inl ⟨error, hstop _⟩

/-- A creation that is refused for a missing node misses its parent. -/
theorem missing_ne_nil (hp : Valid p) (hnear : t.Nearest p top m missing)
    (h : t.create p data mode who = .error (.noNode q)) : missing ≠ [] := by
  rintro rfl
  have hpar : parent? p = some top := hnear.parent
  by_cases howner : m.stat.owner = none
  · cases hperm : m.acl.permits who.identity with
    | false => simp [Tree.create_of_not_permitted hp hpar hnear.stored howner hperm] at h
    | true =>
      by_cases hmem : nodeName (Tree.actualPath p mode m) ∈ m.children
      · simp [Tree.create_of_mem_children hp hpar hnear.stored howner hperm hmem] at h
      · simp [Tree.create_of_fresh hp hpar hnear.stored howner hperm hmem] at h
  · simp [Tree.create_of_ephemeral_parent hp hpar hnear.stored
      (Option.isSome_iff_ne_none.2 howner)] at h

/-- Whatever is stored and whoever asks, the creation of a node with its parents comes to an end.
If it fails, nothing has been created. -/
theorem exists_does_createWithParents (h : t.WellFormed) (hp : Valid p) (who : Caller)
    (data : List UInt8) (mode : Mode) :
    ∃ t' result, Does who t (createWithParents p data mode) t' result ∧
      (∀ error, result = .error error → t' = t) ∧
      ∀ actual, result = .ok actual → Bears who p data actual t' := by
  cases hcreate : t.create p data mode who with
  | ok c =>
    refine ⟨_, _, does_createWithParents_added hcreate, by simp, ?_⟩
    rintro actual heq
    obtain rfl := Except.ok.inj heq
    exact bears_of_create h hcreate
  | error error =>
    by_cases hmissing : ∃ q, error = .noNode q
    · obtain ⟨q, rfl⟩ := hmissing
      have hr : p ≠ root := by
        rintro rfl
        simp [Tree.create_root] at hcreate
      obtain ⟨top, m, missing, hnear⟩ := h.exists_nearest hp hr
      have hne := missing_ne_nil hp hnear hcreate
      rcases does_ensureAncestors h hnear hne with ⟨error, hstop⟩ | ⟨howner, hperm, hgrow⟩
      · exact ⟨t, _, does_createWithParents_cut hcreate hstop, by simp, by simp⟩
      · obtain ⟨c, hc, -⟩ := hnear.create_target h hp howner hperm data
          (hnear.absent_target h hp hne mode)
        refine ⟨_, _, does_createWithParents_grown hcreate hgrow hc, by simp, ?_⟩
        rintro actual heq
        obtain rfl := Except.ok.inj heq
        exact bears_of_create ((hnear.steps_sprout h howner hperm).wellFormed h) hc
    · exact ⟨t, _, does_createWithParents_refused hcreate fun q hq => hmissing ⟨q, hq⟩, by simp,
        by simp⟩

/-! ## Ensuring that a node exists -/

theorem does_ensurePath_kept (h : t.WellFormed) (hp : t.Stored p) (hq : parent? p = some q)
    (hread : t.Readable who.identity q) : Does who t (ensurePath p) t (.ok ()) := by
  have hr : p ≠ root := by
    rintro rfl
    simp at hq
  have hcreate : t.create p [] .persistent who = .error (.nodeExists p) :=
    create_of_stored h hp hq hread rfl
  rw [ensurePath, if_neg hr]
  exact (does_createWithParents_refused hcreate (by simp)).bind (.done rfl)

theorem does_ensurePath_added {s : String} (hr : p ≠ root)
    (h : Does who t (createWithParents p [] .persistent) t' (.ok s)) :
    Does who t (ensurePath p) t' (.ok ()) := by
  rw [ensurePath, if_neg hr]
  exact h.bind (.done rfl)

end Dialogue

end KeyRegistry
