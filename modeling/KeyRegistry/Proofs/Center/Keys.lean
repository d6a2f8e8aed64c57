import KeyRegistry.Proofs.Center.Represents
import KeyRegistry.Proofs.Dialogue.Creating
import KeyRegistry.Proofs.Dialogue.Deleting

/-!
# Dialogues about keys

Every dialogue behind an operation of a center, held by itself over a tree that
represents a registry, comes to what the registry answers, and the tree that it
leaves represents the registry that is left.
-/

namespace KeyRegistry

open KeyRegistry.Path
open Dialogue (Does)

namespace Key

variable {ns : Namespace} {who : Caller} {t : Tree} {r : Registry} {key : String} {n : Node}

section

variable (hns : ns.Proper) (h : t.Represents ns who.identity (some who.session) r)
  (hk : Valid key)

include hns h hk

/-! ## Reading -/

theorem does_read : (read (ns.place key)).Does who t t (.ok ((r.item? key).map Item.value)) := by
  have hp := Namespace.valid_place hns hk
  cases hitem : r.item? key with
  | none =>
    have hn := h.node?_eq_none hns hk hitem
    exact (Does.ask (served_getData_absent hp hn)).bind (.done rfl)
  | some item =>
    obtain ⟨n, hn, hdata, -⟩ := h.exists_node hitem
    refine (Does.ask (served_getData hp hn (h.permitted hn))).bind (.done ?_)
    show Dialogue.Turn.done (Except.ok (some (Text.Utf8.decodeLossy n.data))) = _
    rw [hdata, Text.Utf8.decodeLossy_encode]
    rfl

theorem node_cases : (r.has key = false ∧ t.node? (ns.place key) = none) ∨
    (r.has key = true ∧ ∃ n, t.node? (ns.place key) = some n) := by
  cases hhas : r.has key with
  | false =>
    refine .inl ⟨rfl, h.node?_eq_none hns hk ?_⟩
    simpa [Registry.has] using hhas
  | true => exact .inr ⟨rfl, (h.stored_iff hns hk).2 hhas⟩

theorem does_isPresent : (isPresent (ns.place key)).Does who t t (.ok (r.has key)) := by
  have hp := Namespace.valid_place hns hk
  refine (Does.ask (served_stat who t hp)).bind (.done ?_)
  rcases node_cases hns h hk with ⟨hhas, hn⟩ | ⟨hhas, n, hn⟩ <;> rw [hn, hhas] <;> rfl

theorem does_countChildren : (countChildren (ns.place key)).Does who t t
    (.ok (Int32.ofNat (r.names key).length).toInt.toNat) := by
  have hp := Namespace.valid_place hns hk
  refine (Does.ask (served_stat who t hp)).bind (.done ?_)
  rcases node_cases hns h hk with ⟨hhas, hn⟩ | ⟨hhas, n, hn⟩
  · rw [hn, h.names_absent hns hk hhas]
    rfl
  · rw [hn, ← h.children_eq hns hk hn, ← h.wellFormed.numChildren_eq hn]
    rfl

theorem does_childNames : (childNames (ns.place key)).Does who t t
    (if r.has key then .ok (r.names key) else .error (.service (.noNode (ns.place key)))) := by
  have hp := Namespace.valid_place hns hk
  rcases node_cases hns h hk with ⟨hhas, hn⟩ | ⟨hhas, n, hn⟩
  · refine (Does.ask (served_getChildren_absent hp hn)).bind (.done ?_)
    rw [hhas]
    rfl
  · refine (Does.ask (served_getChildren hp hn (h.permitted hn))).bind (.done ?_)
    rw [hhas, h.children_eq hns hk hn]
    rfl

/-! ## Writing over a key -/

theorem does_update_stored (hn : t.node? (ns.place key) = some n) (value : String) :
    ∃ t', (update (ns.place key) (Text.Utf8.encode value)).Does who t t' (.ok ()) ∧
      t'.Represents ns who.identity (some who.session) (r.write key value) := by
  have hall := Tree.applyAll_rewrite_of_stored 0 (Text.Utf8.encode value) hn
    (h.permitted hn)
  refine ⟨_, (Does.ask (served_commit ?_ hall)).bind (.done rfl), h.write hns hk hn value⟩
  simpa [Operation.path] using Namespace.valid_place hns hk

theorem does_update (value : String) :
    ∃ t', (update (ns.place key) (Text.Utf8.encode value)).Does who t t'
        (r.update ns key value).1 ∧
      t'.Represents ns who.identity (some who.session) (r.update ns key value).2 := by
  unfold Registry.update
  rcases node_cases hns h hk with ⟨hhas, hn⟩ | ⟨hhas, n, hn⟩
  · rw [if_neg (by simp [hhas])]
    have hall := Tree.applyAll_rewrite_of_absent who 0 (Text.Utf8.encode value) hn
    refine ⟨t, (Does.ask (served_commit_error ?_ hall)).bind (.done rfl), h⟩
    simpa [Operation.path] using Namespace.valid_place hns hk
  · rw [if_pos hhas]
    exact does_update_stored hns h hk hn value

/-! ## Adding a key -/

theorem place_nearest : ∃ top m missing, t.Nearest (ns.place key) top m missing :=
  h.wellFormed.exists_nearest (Namespace.valid_place hns hk) (Namespace.place_ne_root hns hk)

/-- An absent key is added with the keys above it, unless it is blocked. -/
theorem does_create_cases (hhas : r.has key = false) (value : String) (mode : Mode)
    (hmode : mode.sequential = false) :
    (r.blocker? key = none ∧ ∃ t', (Dialogue.createWithParents (ns.place key)
        (Text.Utf8.encode value) mode).Does who t t' (.ok (ns.place key)) ∧
      t'.Represents ns who.identity (some who.session) (r.add key ⟨value, mode.ephemeral⟩)) ∨
    ∃ a, r.blocker? key = some a ∧ (Dialogue.createWithParents (ns.place key)
        (Text.Utf8.encode value) mode).Does who t t
      (.error (.noChildrenForEphemerals (ns.place a))) := by
  obtain ⟨top, m, missing, hnear⟩ := place_nearest hns h hk
  have hp := Namespace.valid_place hns hk
  have hperm := h.permitted hnear.stored
  have hblocker := h.blocker?_eq hns hk hnear
  by_cases howner : m.stat.owner = none
  · rw [if_pos howner, Option.map_eq_none_iff] at hblocker
    refine .inl ⟨hblocker, _, Dialogue.does_createWithParents h.wellFormed hp hnear howner hperm ?_
      hmode _, h.add hns hk hnear howner hhas hmode value⟩
    simp [h.stored_iff hns hk, hhas]
  · rw [if_neg howner, Option.map_eq_some_iff] at hblocker
    obtain ⟨a, hblocker, rfl⟩ := hblocker
    exact .inr ⟨a, hblocker, Dialogue.does_createWithParents_blocked h.wellFormed hp hnear
      (Option.isSome_iff_ne_none.2 howner) hperm _ mode⟩

theorem does_persist (value : String) :
    ∃ t', (persist (ns.place key) (Text.Utf8.encode value)).Does who t t'
        (r.persist ns key value).1 ∧
      t'.Represents ns who.identity (some who.session) (r.persist ns key value).2 := by
  have hstat := Does.ask (served_stat who t (Namespace.valid_place hns hk))
  unfold Registry.persist
  rcases node_cases hns h hk with ⟨hhas, hn⟩ | ⟨hhas, n, hn⟩
  · rw [if_neg (by simp [hhas])]
    rw [hn] at hstat
    unfold Registry.unlessBlocked
    rcases does_create_cases hns h hk hhas value .persistent rfl with
      ⟨hblocker, t', hdoes, hrep⟩ | ⟨a, hblocker, hdoes⟩
    · rw [hblocker]
      exact ⟨t', hstat.bind (hdoes.bind (.done rfl)), hrep⟩
    · rw [hblocker]
      exact ⟨t, hstat.bind (hdoes.bind (.done rfl)), h⟩
  · rw [if_pos hhas]
    rw [hn] at hstat
    obtain ⟨t', hdoes, hrep⟩ := does_update_stored hns h hk hn value
    exact ⟨t', hstat.bind hdoes, hrep⟩

/-! ## Removing a key -/

/-- Under an absent key there is nothing to cut. -/
theorem cut_absent (hhas : r.has key = false) : r.cut key = r := by
  have hall : r.items.filter (fun x => !isWithin key x.1) = r.items := by
    refine List.filter_eq_self.2 fun x hx => ?_
    have hxv := h.valid x hx
    by_contra hw
    have hw : isWithin key x.1 = true := by simpa using hw
    have hstored : t.Stored (ns.place x.1) := by
      refine (h.stored_iff hns hxv).2 ?_
      rw [Registry.has, Registry.item?, List.lookup_isSome_iff]
      exact ⟨x, hx, by simp⟩
    have habove := h.wellFormed.stored_of_isWithin (Namespace.valid_place hns hk) hstored
      (by rw [Namespace.isWithin_place_iff hns hk hxv, hw])
    simp [(h.stored_iff hns hk).1 habove] at hhas
  rw [Registry.cut, hall]

theorem does_deleteRecursive : ∃ t', (Dialogue.deleteRecursive (ns.place key)).Does who t t'
    (.ok ()) ∧ t'.Represents ns who.identity (some who.session) (r.cut key) := by
  have hp := Namespace.valid_place hns hk
  rcases node_cases hns h hk with ⟨hhas, hn⟩ | ⟨hhas, n, hn⟩
  · rw [cut_absent hns h hk hhas]
    exact ⟨t, Dialogue.does_deleteRecursive_absent hp (Tree.not_stored_iff.2 hn), h⟩
  · obtain ⟨found, hfound, hdoes, hsteps⟩ := Dialogue.does_deleteRecursive h.wellFormed ⟨n, hn⟩
      (Namespace.place_ne_root hns hk) fun x hx _ => h.readable hx
    exact ⟨_, hdoes, h.cut hns hk hfound hsteps⟩

theorem does_remove : ∃ t', (remove (ns.place key)).Does who t t' (.ok ()) ∧
    t'.Represents ns who.identity (some who.session) (r.cut key) := by
  obtain ⟨t', hdoes, hrep⟩ := does_deleteRecursive hns h hk
  exact ⟨t', hdoes.bind (.done rfl), hrep⟩

/-- Nothing above a key that is there is ephemeral. -/
theorem blocker?_of_has (hhas : r.has key = true) : r.blocker? key = none := by
  obtain ⟨top, m, missing, hnear⟩ := place_nearest hns h hk
  have hblocker := h.blocker?_eq hns hk hnear
  split_ifs at hblocker with howner
  · exact Option.map_eq_none_iff.1 hblocker
  · have hstored := (h.stored_iff hns hk).2 hhas
    obtain ⟨hw, hne⟩ := hnear.lineage.isWithin (h.wellFormed.valid hnear.stored) (ns.place key)
      (by simp)
    exact absurd (h.wellFormed.eq_of_childless hnear.stored
      (h.wellFormed.ephemeral_childless hnear.stored howner) hstored hw).symm hne

theorem does_persistEphemeral (value : String) :
    ∃ t', (persistEphemeral (ns.place key) (Text.Utf8.encode value)).Does who t t'
        (r.persistEphemeral ns key value).1 ∧
      t'.Represents ns who.identity (some who.session) (r.persistEphemeral ns key value).2 := by
  have hstat := Does.ask (served_stat who t (Namespace.valid_place hns hk))
  unfold Registry.persistEphemeral Registry.unlessBlocked
  rcases node_cases hns h hk with ⟨hhas, hn⟩ | ⟨hhas, n, hn⟩
  · rw [hn] at hstat
    rw [cut_absent hns h hk hhas]
    rcases does_create_cases hns h hk hhas value .ephemeralNode rfl with
      ⟨hblocker, t', hdoes, hrep⟩ | ⟨a, hblocker, hdoes⟩
    · rw [hblocker]
      exact ⟨t', hstat.bind (hdoes.bind (.done rfl)), hrep⟩
    · rw [hblocker]
      exact ⟨t, hstat.bind (hdoes.bind (.done rfl)), h⟩
  · rw [hn] at hstat
    have hblocker := blocker?_of_has hns h hk hhas
    obtain ⟨t₁, hdelete, hcut⟩ := does_deleteRecursive hns h hk
    rw [hblocker]
    rcases does_create_cases hns hcut hk (Registry.has_cut hk) value .ephemeralNode rfl
      with ⟨-, t', hdoes, hrep⟩ | ⟨a, hblocked, -⟩
    · exact ⟨t', hstat.bind (hdelete.bind (hdoes.bind (.done rfl))), hrep⟩
    · rw [Registry.blocker?_cut hk, hblocker] at hblocked
      cases hblocked

end

/-! ## The key of the namespace itself -/

theorem blocker?_root (r : Registry) : r.blocker? root = none := by
  simp [Registry.blocker?, above_root]

/-- The key of the namespace is added if it is absent. -/
theorem does_ensurePath (hns : ns.Proper)
    (h : t.Represents ns who.identity (some who.session) r) :
    ∃ t', (Dialogue.ensurePath ns.root).Does who t t' (.ok ()) ∧
      t'.Represents ns who.identity (some who.session)
        (if r.has root then r else r.add root ⟨"", false⟩) := by
  have hplace := Namespace.place_root hns
  rcases node_cases hns h valid_root with ⟨hhas, hn⟩ | ⟨hhas, n, hn⟩
  · rw [if_neg (by simp [hhas])]
    rcases does_create_cases hns h valid_root hhas "" .persistent rfl with
      ⟨-, t', hdoes, hrep⟩ | ⟨a, hblocked, -⟩
    · rw [hplace] at hdoes
      exact ⟨t', Dialogue.does_ensurePath_added hns.ne_root hdoes, hrep⟩
    · rw [blocker?_root] at hblocked
      cases hblocked
  · rw [if_pos hhas]
    rw [hplace] at hn
    obtain ⟨q, -, -, -, hq, -⟩ := exists_parent_name hns.valid hns.ne_root
    exact ⟨t, Dialogue.does_ensurePath_kept h.wellFormed ⟨n, hn⟩ hq
      (h.readable (h.wellFormed.parent_stored hn hq)), h⟩

end Key

end KeyRegistry
