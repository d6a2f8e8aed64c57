import KeyRegistry.Proofs.Center.Errand
import KeyRegistry.Proofs.Dialogue.Creating
import KeyRegistry.Proofs.Dialogue.Deleting

/-!
# Dialogues that fail

The writes of a center are dialogues of several calls. Undisturbed, none of them
fails once a call has changed something, except a deletion of the root node.
-/

namespace KeyRegistry

open KeyRegistry.Path
open Dialogue (Does)

namespace Key

variable {α : Type} {who : Caller} {t t' : Tree} {full : String} {value : List UInt8}

/-- A dialogue that comes to an end, and has changed nothing if it ends with a failure. -/
def Clean (who : Caller) (t : Tree) (d : Dialogue (Except RegistryError α)) : Prop :=
  ∃ t' result, d.Does who t t' result ∧ ∀ error, result = .error error → t' = t

theorem clean_update (t : Tree) (who : Caller) (hp : Valid full) (value : List UInt8) :
    Clean who t (update full value) := by
  have hops : ∀ op ∈ [Operation.check full none, .setData full value none], Valid op.path := by
    simpa [Operation.path] using hp
  cases hall : t.applyAll who 0 [.check full none, .setData full value none] with
  | ok c => exact ⟨_, _, (Does.ask (served_commit hops hall)).bind (.done rfl), by simp [lift]⟩
  | error error =>
    exact ⟨t, _, (Does.ask (served_commit_error hops hall)).bind (.done rfl), fun _ _ => rfl⟩

theorem clean_createShown (h : t.WellFormed) (hp : Valid full) (ns : Namespace) (mode : Mode) :
    Clean who t (createShown ns full value mode) := by
  obtain ⟨t', result, hdoes, hfail, -⟩ :=
    Dialogue.exists_does_createWithParents h hp who value mode
  refine ⟨t', _, hdoes.bind (.done rfl), fun error herror => ?_⟩
  cases result with
  | ok actual => simp [lift] at herror
  | error error => exact hfail _ rfl

theorem clean_persist (h : t.WellFormed) (hp : Valid full) :
    Clean who t (persist full value) := by
  have hstat := Does.ask (served_stat who t hp)
  cases hn : t.node? full with
  | some n =>
    rw [hn] at hstat
    obtain ⟨t', result, hdoes, hfail⟩ := clean_update t who hp value
    exact ⟨t', result, hstat.bind hdoes, hfail⟩
  | none =>
    rw [hn] at hstat
    obtain ⟨t', result, hdoes, hfail, -⟩ :=
      Dialogue.exists_does_createWithParents h hp who value .persistent
    cases result with
    | ok actual => exact ⟨t', .ok (), hstat.bind (hdoes.bind (.done rfl)), by simp⟩
    | error error =>
      obtain rfl := hfail _ rfl
      by_cases hexists : ∃ q, error = .nodeExists q
      · obtain ⟨q, rfl⟩ := hexists
        obtain ⟨t'', result, hupdate, hfail⟩ := clean_update t' who hp value
        exact ⟨t'', result, hstat.bind (hdoes.bind (.note rfl hupdate)), hfail⟩
      · refine ⟨t', .error (.service error), hstat.bind (hdoes.bind (.done ?_)), fun _ _ => rfl⟩
        cases error with
        | nodeExists q => exact absurd ⟨q, rfl⟩ hexists
        | _ => rfl

theorem clean_remove (h : t.WellFormed) (hp : Valid full) (hr : full ≠ root) :
    Clean who t (remove full) := by
  by_cases hstored : t.Stored full
  · rcases Dialogue.does_deleteRecursive_cases h hstored hr with
      ⟨found, -, -, hdoes, -⟩ | ⟨x, -, -, -, hdoes⟩
    · exact ⟨_, _, hdoes.bind (.done rfl), by simp [lift]⟩
    · exact ⟨t, _, hdoes.bind (.done rfl), fun _ _ => rfl⟩
  · exact ⟨t, _, (Dialogue.does_deleteRecursive_absent hp hstored).bind (.done rfl),
      fun _ _ => rfl⟩

/-- In the place of a node that could be deleted another can be created. -/
theorem exists_create_after (h : t.WellFormed) (hr : full ≠ root)
    (hread : t.Readable who.identity full) {found : List String}
    (hfound : ∀ x, x ∈ found ↔ t.Stored x ∧ isWithin full x = true)
    (hsteps : Tree.Steps who t (found.map (Event.mk .deleted)) t') (value : List UInt8) :
    ∃ c, t'.create full value .ephemeralNode who = .ok c := by
  obtain ⟨n, hn⟩ := hread.stored
  have hp := h.valid hn
  obtain ⟨q, -, -, -, hpar, -⟩ := exists_parent_name hp hr
  obtain ⟨m, hm, hperm⟩ := h.readable_parent hread hpar
  have howner := Dialogue.persistent_of_child h ⟨n, hn⟩ hpar hm
  have hq : ∀ ev ∈ found.map (Event.mk .deleted), ev.path ≠ q := by
    simp only [List.forall_mem_map]
    rintro x hx rfl
    have hwithin := ((hfound x).1 hx).2
    rw [not_isWithin_of_parent? hp hpar] at hwithin
    cases hwithin
  have hcore := hsteps.core_eq h hq
  rw [hm, Option.map_some, Option.map_eq_some_iff] at hcore
  obtain ⟨m', hm', hsame⟩ := hcore
  refine ⟨_, Tree.create_of_absent (hsteps.wellFormed h) hp hpar hm' ?_ ?_ ?_ _ rfl value⟩
  · rw [Tree.owner_eq_of_core hsame, howner]
  · rw [Tree.acl_eq_of_core hsame, hperm]
  · rw [hsteps.stored_iff_of_deleted h]
    exact fun hleft => hleft.1 ((hfound full).2 ⟨⟨n, hn⟩, isWithin_refl hp⟩)

theorem clean_persistEphemeral (h : t.WellFormed) (hp : Valid full) (hr : full ≠ root) :
    Clean who t (persistEphemeral full value) := by
  have hstat := Does.ask (served_stat who t hp)
  cases hn : t.node? full with
  | none =>
    rw [hn] at hstat
    obtain ⟨t', result, hdoes, hfail, -⟩ :=
      Dialogue.exists_does_createWithParents h hp who value .ephemeralNode
    refine ⟨t', _, hstat.bind (hdoes.bind (.done rfl)), fun error herror => ?_⟩
    cases result with
    | ok actual => simp [lift] at herror
    | error error => exact hfail _ rfl
  | some n =>
    rw [hn] at hstat
    rcases Dialogue.does_deleteRecursive_cases h ⟨n, hn⟩ hr with
      ⟨found, hfound, hread, hdelete, hsteps⟩ | ⟨x, -, -, -, hdelete⟩
    · obtain ⟨c, hc⟩ := exists_create_after h hr (hread full ⟨n, hn⟩ (isWithin_refl hp)) hfound
        hsteps value
      have hcreate := Dialogue.does_createWithParents_added hc
      exact ⟨_, _, hstat.bind (hdelete.bind (hcreate.bind (.done rfl))), by simp [lift]⟩
    · exact ⟨t, _, hstat.bind (hdelete.bind (.done rfl)), fun _ _ => rfl⟩

end Key

/-! ## Writes of a center that is alone -/

namespace Center

variable {α : Type} {w : World} {c : Nat} {a : Active} {e : Ensemble} {ns : Namespace}
  {key : String}

/-- A call about a key that fails leaves every ensemble as it was, if the dialogue behind it does
not fail late. -/
theorem ends_onKey_clean (hactive : w.active? c = some a)
    (he : w.ensembles[a.session.ensemble]? = some e) (hcalm : e.Calm a.session.number)
    {d : Active → String → Dialogue (Except RegistryError α)}
    (hd : Valid key → Key.Clean (e.caller a.session.number) e.tree (d a (a.scope.place key))) :
    Task.Ends World.later
      (fun result v => ∀ error, result = .error error → v.ensembles = w.ensembles) w
      (onKey c key d) := by
  obtain ⟨hlt, -⟩ := List.getElem?_eq_some_iff.1 he
  have hkept : ∀ v, w.Puts a.session.ensemble e v → v.ensembles = w.ensembles := fun v hv => by
    rw [hv.ensembles]
    exact (World.puts_self he).ensembles.symm
  refine ends_onKey_alone hactive (World.puts_self he) (fun _ _ v hv _ _ => hkept v hv)
    fun hk v hv => ?_
  obtain ⟨t', result, hdoes, hfail⟩ := hd hk
  refine Task.ends_talk_alone hdoes hlt hv rfl hcalm rfl fun u e' hu ht' _ _ hsame =>
    .done fun error herror => ?_
  rcases hsame with heq | hless
  · exact hkept u (heq ▸ hu)
  · rw [ht', hfail error herror] at hless
    exact absurd hless (Nat.lt_irrefl _)

/-- A write of a center on a live session that fails, while nothing else goes on and no fault is
injected, leaves every ensemble as it was: the nodes with their data and stats, the number of the
last change, and the queues of the watches. The write must not be a deletion of the root node, which
the key of the empty namespace stands for. -/
theorem ends_write_failing {name : String} {h : SessionHandle} {op : Errand}
    (hname : Namespace.ofName name = .ok ns) (hactive : w.active? c = some a)
    (hscope : a.scope = ns) (he : w.ensembles[a.session.ensemble]? = some e)
    (hreach : e.Reachable) (hcalm : e.Calm a.session.number) (hop : op.Writes)
    (hclears : op.Clears → ns.place key ≠ root) :
    Task.Ends World.later
      (fun result v => ∀ error, result = .error error → v.ensembles = w.ensembles) w
      (op.task c h key) := by
  subst hscope
  have ht := hreach.wellFormed
  have hp (hk : Valid key) : Valid (a.scope.place key) :=
    Namespace.valid_place_of_ofName hname hk
  cases op with
  | persist value =>
    exact ends_onKey_clean hactive he hcalm fun hk => Key.clean_persist ht (hp hk)
  | update value =>
    exact ends_onKey_clean hactive he hcalm fun hk => Key.clean_update _ _ (hp hk) _
  | persistEphemeral value =>
    exact ends_onKey_clean hactive he hcalm fun hk =>
      Key.clean_persistEphemeral ht (hp hk) (hclears trivial)
  | persistEphemeralSequential =>
    exact ends_onKey_clean hactive he hcalm fun hk => Key.clean_createShown ht (hp hk) _ _
  | persistSequential value =>
    exact ends_onKey_clean hactive he hcalm fun hk => Key.clean_createShown ht (hp hk) _ _
  | remove =>
    exact ends_onKey_clean hactive he hcalm fun hk => Key.clean_remove ht (hp hk) (hclears trivial)
  | _ => exact hop.elim

def nestedCenter : World where
  ensembles := [Ensemble.nested]
  centers := [{ connector := 0, active := some ⟨⟨0, 1⟩, 0, ⟨root⟩⟩ }]

/-- Nothing is created under an ephemeral node, not even an ancestor. -/
theorem ends_write_failing_nested :
    ((persist 0 "/a/b/c/d" "x").run 12 nestedCenter).2.result? =
      some (.error (.service (.noChildrenForEphemerals "/a/b"))) ∧
    Task.Ends World.later
      (fun result v => ∀ error, result = .error error → v.ensembles = [Ensemble.nested])
      nestedCenter (persist 0 "/a/b/c/d" "x") := by
  have hname : Namespace.ofName "" = .ok ⟨root⟩ := by decide
  have hactive : nestedCenter.active? 0 = some ⟨⟨0, 1⟩, 0, ⟨root⟩⟩ := rfl
  have hcalm : Ensemble.nested.Calm 1 := ⟨rfl, rfl⟩
  have hop : (Errand.persist "x").Writes := trivial
  refine ⟨rfl, ?_⟩
  exact ends_write_failing (h := ⟨⟨0, 1⟩, ⟨root⟩⟩) hname hactive rfl rfl
    Ensemble.nested_reachable hcalm hop (fun hclears => hclears.elim)

/-- The deletion of the root node is refused after everything under it has been taken out. -/
theorem remove_root_strips :
    ((remove 0 "/").run 16 nestedCenter).2.result? =
      some (.error (.service (.invalidPath "/" "the root node cannot be deleted"))) ∧
    (((remove 0 "/").run 16 nestedCenter).1.ensemble 0).tree.nodes.map Prod.fst = ["/"] ∧
    Ensemble.nested.tree.nodes.map Prod.fst = ["/", "/a", "/a/b"] :=
  ⟨rfl, rfl, rfl⟩

end Center

end KeyRegistry
