import KeyRegistry.Proofs.Center.Reference

/-!
# Registries stay closed

Whatever is called, a key stands once, together with all keys above it, and never
under an ephemeral key.
-/

namespace KeyRegistry.Registry

open KeyRegistry.Path

variable {r r' : Registry} {key a : String} {item : Item} {ns : Namespace}

structure Closed (r : Registry) : Prop where
  nodup : (r.items.map Prod.fst).Nodup
  valid : ∀ x ∈ r.items, Valid x.1
  rooted : ∀ x ∈ r.items, ∀ a ∈ above x.1, ∃ v, (a, ⟨v, false⟩) ∈ r.items

theorem closed_empty : Closed {} := ⟨by simp, by simp, by simp⟩

theorem mem_items_of_item? (h : r.item? a = some item) : (a, item) ∈ r.items := by
  obtain ⟨before, after, heq, -⟩ := List.lookup_eq_some_iff.1 h
  simp [heq]

theorem notMem_of_has (h : r.has key = false) : key ∉ r.items.map Prod.fst := by
  simp only [has, item?, Option.isSome_eq_false_iff, Option.isNone_iff_eq_none,
    List.lookup_eq_none_iff] at h
  intro hmem
  obtain ⟨x, hx, rfl⟩ := List.mem_map.1 hmem
  simpa using h x hx

/-- Above a key that is not blocked, what is there is persistent. -/
theorem persistent_of_not_blocked (hblock : r.blocker? key = none) (ha : a ∈ above key)
    (hhas : r.has a = true) : ∃ v, (a, ⟨v, false⟩) ∈ r.items := by
  obtain ⟨⟨v, ephemeral⟩, hitem⟩ := Option.isSome_iff_exists.1 hhas
  have hnone := List.find?_eq_none.1 hblock a ha
  rw [hitem, Option.map_some, Option.getD_some, Bool.not_eq_true] at hnone
  obtain rfl : ephemeral = false := hnone
  exact ⟨v, mem_items_of_item? hitem⟩

theorem mem_above_trans (hk : Valid key) {b : String} (ha : a ∈ above key) (hb : b ∈ above a) :
    b ∈ above key := by
  have hav := valid_of_mem_above hk ha
  have hbv := valid_of_mem_above hav hb
  obtain ⟨hwa, hne⟩ := (mem_above_iff hav hk).1 ha
  obtain ⟨hwb, -⟩ := (mem_above_iff hbv hav).1 hb
  refine (mem_above_iff hbv hk).2 ⟨isWithin_trans hbv hav hk hwb hwa, ?_⟩
  rintro rfl
  exact hne (isWithin_antisymm hav hk hwa hwb)

theorem Closed.add (h : r.Closed) (hk : Valid key) (hhas : r.has key = false)
    (hblock : r.blocker? key = none) (item : Item) : (r.add key item).Closed := by
  have hmissing (a : String) (ha : a ∈ above key) :
      ∃ v, (a, ⟨v, false⟩) ∈ (r.add key item).items := by
    cases hr : r.has a with
    | true =>
      obtain ⟨v, hv⟩ := persistent_of_not_blocked hblock ha hr
      exact ⟨v, by simp [Registry.add, hv]⟩
    | false => exact ⟨"", by simp [Registry.add, ha, hr]⟩
  refine ⟨?_, ?_, ?_⟩
  · have hself : key ∉ above key := fun hmem => ((mem_above_iff hk hk).1 hmem).2 rfl
    have hkey := notMem_of_has hhas
    have hadded : ((r.add key item).items).map Prod.fst =
        r.items.map Prod.fst ++ ((above key).filter fun a => !r.has a) ++ [key] := by
      simp [Registry.add, Function.comp_def]
    rw [hadded, List.nodup_append, List.nodup_append]
    refine ⟨⟨h.nodup, (nodup_above hk).filter _, ?_⟩, by simp, ?_⟩
    · rintro a ha b hb rfl
      have hab : r.has a = false := by simpa using (List.mem_filter.1 hb).2
      exact notMem_of_has hab ha
    · rintro a ha b hb rfl
      rw [List.mem_singleton.1 hb] at ha
      rcases List.mem_append.1 ha with ha | ha
      · exact hkey ha
      · exact hself (List.mem_of_mem_filter ha)
  · simp only [Registry.add, List.forall_mem_append, List.forall_mem_map, List.mem_filter]
    exact ⟨⟨h.valid, fun a ha => valid_of_mem_above hk ha.1⟩, by simpa using hk⟩
  · simp only [Registry.add, List.forall_mem_append, List.forall_mem_map, List.mem_filter]
    refine ⟨⟨fun x hx a ha => ?_, fun a ha b hb => hmissing b (mem_above_trans hk ha.1 hb)⟩, ?_⟩
    · obtain ⟨v, hv⟩ := h.rooted x hx a ha
      exact ⟨v, by simp [hv]⟩
    · intro x hx
      rw [List.mem_singleton.1 hx]
      exact hmissing

theorem Closed.write (h : r.Closed) (key value : String) : (r.write key value).Closed := by
  refine ⟨?_, ?_, ?_⟩
  · have hkeys : (r.write key value).items.map Prod.fst = r.items.map Prod.fst := by
      rw [Registry.write, List.map_map]
      refine List.map_congr_left fun x _ => ?_
      dsimp only [Function.comp_apply]
      split_ifs <;> rfl
    rw [hkeys]
    exact h.nodup
  · simp only [Registry.write, List.forall_mem_map]
    intro x hx
    split_ifs <;> exact h.valid x hx
  · have hkept (a v : String) (hv : (a, ⟨v, false⟩) ∈ r.items) :
        ∃ v, (a, ⟨v, false⟩) ∈ (r.write key value).items := by
      by_cases ha : a = key
      · exact ⟨value, List.mem_map.2 ⟨_, hv, by simp [ha]⟩⟩
      · exact ⟨v, List.mem_map.2 ⟨_, hv, by simp [ha]⟩⟩
    intro x hx a ha
    obtain ⟨y, hy, rfl⟩ := List.mem_map.1 hx
    obtain ⟨v, hv⟩ := h.rooted y hy a (by split_ifs at ha <;> exact ha)
    exact hkept a v hv

theorem Closed.filter (h : r.Closed) {keep : String × Item → Bool}
    (hkeep : ∀ x ∈ r.items, keep x = true → ∀ a ∈ above x.1, ∀ v, (a, ⟨v, false⟩) ∈ r.items →
      keep (a, ⟨v, false⟩) = true) (started : Bool) : Closed ⟨started, r.items.filter keep⟩ := by
  refine ⟨h.nodup.sublist (List.filter_sublist.map _),
    fun x hx => h.valid x (List.mem_of_mem_filter hx), fun x hx a ha => ?_⟩
  obtain ⟨hx, hkept⟩ := List.mem_filter.1 hx
  obtain ⟨v, hv⟩ := h.rooted x hx a ha
  exact ⟨v, List.mem_filter.2 ⟨hv, hkeep x hx hkept a ha v hv⟩⟩

theorem Closed.cut (h : r.Closed) (hk : Valid key) : (r.cut key).Closed := by
  refine h.filter (fun x hx hkept a ha v hv => ?_) r.started
  have hxv := h.valid x hx
  have hav := valid_of_mem_above hxv ha
  obtain ⟨hw, -⟩ := (mem_above_iff hav hxv).1 ha
  simp only [Bool.not_eq_eq_eq_not, Bool.not_true] at hkept ⊢
  by_contra hin
  rw [isWithin_trans hk hav hxv (by simpa using hin) hw] at hkept
  cases hkept

theorem Closed.start (h : r.Closed) : r.start.2.Closed := by
  have hr : Closed ⟨true, r.items⟩ := ⟨h.nodup, h.valid, h.rooted⟩
  unfold Registry.start
  split_ifs with hon
  · exact h
  · dsimp only
    split_ifs with hhas
    · exact hr
    · exact hr.add valid_root (by simpa using hhas) (by simp [blocker?, above_root]) _

theorem Closed.stop (h : r.Closed) : r.stop.2.Closed := by
  unfold Registry.stop
  split_ifs
  · exact h.filter (by simp) false
  · exact h

theorem Closed.unlessBlocked (h : r.Closed) (hr : r.blocker? key = none → r'.Closed) :
    (r.unlessBlocked ns key r').2.Closed := by
  unfold Registry.unlessBlocked
  split
  · exact h
  · rename_i hblock
    exact hr hblock

theorem Closed.persist (h : r.Closed) (hk : Valid key) (value : String) :
    (r.persist ns key value).2.Closed := by
  unfold Registry.persist
  split_ifs with hhas
  · exact h.write key value
  · exact h.unlessBlocked fun hblock => h.add hk (by simpa using hhas) hblock _

theorem Closed.persistEphemeral (h : r.Closed) (hk : Valid key) (value : String) :
    (r.persistEphemeral ns key value).2.Closed :=
  h.unlessBlocked fun hblock =>
    (h.cut hk).add hk (has_cut hk) ((blocker?_cut hk).trans hblock) _

theorem Closed.update (h : r.Closed) (key value : String) :
    (r.update ns key value).2.Closed := by
  unfold Registry.update
  split_ifs
  · exact h.write key value
  · exact h

theorem Closed.guarded {α : Type} (h : r.Closed) {served : Except RegistryError α × Registry}
    (hs : served.2.Closed) : (r.guarded served).2.Closed := by
  unfold Registry.guarded
  split_ifs
  · exact hs
  · exact h

theorem Closed.serve (h : r.Closed) {call : Call} (hkey : ∀ key ∈ call.key?, Valid key) :
    (r.serve ns call).2.Closed := by
  cases call with
  | start draws => exact h.start
  | stop => exact h.stop
  | persist key value => exact h.guarded (h.persist (hkey key rfl) value)
  | update key value => exact h.guarded (h.update key value)
  | persistEphemeral key value => exact h.guarded (h.persistEphemeral (hkey key rfl) value)
  | remove key => exact h.guarded (h.cut (hkey key rfl))
  | getDirectly | isPresent | countChildren | childNames => exact h.guarded h

/-- No run of calls leaves a registry that is not closed. -/
theorem Closed.serveAll (h : r.Closed) {calls : List Call}
    (hkeys : ∀ call ∈ calls, ∀ key ∈ call.key?, Valid key) : (r.serveAll ns calls).2.Closed := by
  induction calls generalizing r with
  | nil => exact h
  | cons call calls ih =>
    obtain ⟨hkey, hkeys⟩ := List.forall_mem_cons.1 hkeys
    exact ih (h.serve hkey) hkeys

end KeyRegistry.Registry
