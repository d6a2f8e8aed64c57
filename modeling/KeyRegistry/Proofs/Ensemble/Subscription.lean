import KeyRegistry.Proofs.Ensemble.Evolution

/-!
# What becomes of a watch

Whatever happens at the service, a watch stays with its session and its root. It is told
of valid paths under its root alone, and once it has ended it is not registered again. A
watch is registered only as long as its session lives.
-/

namespace KeyRegistry

open KeyRegistry.Path

structure Watch.Becomes (w w' : Watch) : Prop where
  session : w'.session = w.session
  root : w'.root = w.root
  queue : ∀ ev ∈ w'.queue, ev ∈ w.queue ∨ Valid ev.path ∧ isWithin w.root ev.path = true
  phase : w'.phase = .registered → w.phase = .registered

namespace Watch

variable {w w' w'' : Watch}

theorem Becomes.refl (w : Watch) : w.Becomes w := ⟨rfl, rfl, fun _ => .inl, id⟩

theorem Becomes.trans (h : w.Becomes w') (h' : w'.Becomes w'') : w.Becomes w'' where
  session := h'.session.trans h.session
  root := h'.root.trans h.root
  queue ev hev := by
    rcases h'.queue ev hev with hev | hin
    · exact h.queue ev hev
    · exact .inr (h.root ▸ hin)
  phase := h.phase ∘ h'.phase

theorem becomes_receive (w : Watch) {evs : List Event} (h : ∀ ev ∈ evs, Valid ev.path) :
    w.Becomes (w.receive evs) := by
  obtain ⟨session, root, queue, phase⟩ := w
  cases phase with
  | registered =>
    refine ⟨rfl, rfl, fun ev hev => ?_, id⟩
    rcases List.mem_append.1 hev with hev | hev
    · exact .inl hev
    · obtain ⟨hmem, hin⟩ := List.mem_filter.1 hev
      exact .inr ⟨h ev hmem, hin⟩
  | ended => exact .refl _
  | dropped => exact .refl _

end Watch

theorem Tree.Steps.valid_paths {t t' : Tree} {who : Caller} {evs : List Event} (ht : t.WellFormed)
    (h : Tree.Steps who t evs t') : ∀ ev ∈ evs, Valid ev.path := by
  induction h with
  | nil => simp
  | cons first _ ih =>
    exact List.forall_mem_cons.2 ⟨first.valid_path ht, ih (first.wellFormed ht)⟩

@[simp] theorem Watch.phase_receive (w : Watch) (evs : List Event) :
    (w.receive evs).phase = w.phase := by
  unfold receive
  split <;> rfl

namespace Ensemble

variable {e e' : Ensemble} {i id : Nat} {w : Watch} {who : Caller}

/-! ## Changes -/

/-- What a call that is served leaves behind: everything as it was, a changed tree whose events
have been handed out, or one more watch. -/
theorem perform_cases (e : Ensemble) (id : Nat) (r : Request) :
    (e.perform id r).2 = e ∨
    (∃ t evs, Tree.Steps (e.caller id) e.tree evs t ∧
      (e.perform id r).2 = dispatch { e with tree := t } evs) ∨
    ∃ top, r = .watch top ∧ (e.perform id r).2 =
      { e with watches := e.watches ++ [⟨id, top, [], .registered⟩] } := by
  have hsettle {α : Type} (a : Except ServiceError (Change α))
      (h : ∀ c, a = .ok c → Tree.Steps (e.caller id) e.tree c.events c.tree) :
      (e.settle a).2 = e ∨ ∃ t evs, Tree.Steps (e.caller id) e.tree evs t ∧
        (e.settle a).2 = dispatch { e with tree := t } evs := by
    cases a with
    | error error => exact .inl rfl
    | ok c => exact .inr ⟨c.tree, c.events, h c rfl, rfl⟩
  cases r with
  | stat p => exact .inl rfl
  | getData p => exact .inl rfl
  | getChildren p => exact .inl rfl
  | create p data mode =>
    exact (hsettle _ fun c hc => by
      obtain ⟨hev, hs⟩ := Tree.step_of_create hc
      exact hev ▸ .single hs).imp_right .inl
  | setData p data version =>
    exact (hsettle _ fun c hc => by
      obtain ⟨hev, hs⟩ := Tree.step_of_setData (ok_of_bind_checkPath hc).2
      exact hev ▸ .single hs).imp_right .inl
  | delete p version =>
    exact (hsettle _ fun c hc => by
      obtain ⟨hp, hc⟩ := ok_of_bind_checkPath hc
      obtain ⟨hev, hs⟩ := Tree.step_of_delete hp hc
      exact hev ▸ .single hs).imp_right .inl
  | commit ops =>
    exact (hsettle _ fun c hc => by
      obtain ⟨_, hops, hc⟩ := bind_eq_ok_iff.1 hc
      exact (Tree.steps_of_applyAll (forM_checkPath_eq_ok_iff.1 hops) hc).2).imp_right .inl
  | watch top =>
    cases hp : checkPath top with
    | error error => exact .inl (by simp [perform, hp])
    | ok _ => exact .inr (.inr ⟨top, rfl, by simp [perform, hp]⟩)

/-! ## Watches at the service -/

theorem becomes_of_eq (h : e'.watches = e.watches) (hw : e.watches[i]? = some w) :
    ∃ w', e'.watches[i]? = some w' ∧ w.Becomes w' :=
  ⟨w, by rw [h, hw], .refl w⟩

theorem watches_connect (e : Ensemble) (servers : String) (identity : Option String) :
    (e.connect servers identity).2.watches = e.watches := by
  unfold connect
  dsimp only
  split_ifs <;> rfl

theorem becomes_dispatch (ht : e.tree.WellFormed) {t : Tree} {evs : List Event}
    (hs : Tree.Steps who e.tree evs t) (hw : e.watches[i]? = some w) :
    ∃ w', (dispatch { e with tree := t } evs).watches[i]? = some w' ∧ w.Becomes w' :=
  ⟨w.receive evs, by simp [getElem?_watches_dispatch, hw],
    w.becomes_receive (hs.valid_paths ht)⟩

theorem becomes_perform (ht : e.tree.WellFormed) (r : Request) (hw : e.watches[i]? = some w) :
    ∃ w', (e.perform id r).2.watches[i]? = some w' ∧ w.Becomes w' := by
  rcases perform_cases e id r with heq | ⟨t, evs, hs, heq⟩ | ⟨top, -, heq⟩
  · exact becomes_of_eq (by rw [heq]) hw
  · rw [heq]
    exact becomes_dispatch ht hs hw
  · obtain ⟨hlt, -⟩ := List.getElem?_eq_some_iff.1 hw
    rw [heq]
    exact ⟨w, by simp [List.getElem?_append_left hlt, hw], .refl w⟩

/-- The end of a session ends its watches, and what is told of is the end of its nodes. -/
theorem becomes_endSession (ht : e.tree.WellFormed) (phase : SessionPhase) {order : List String}
    (perm : order.Perm (e.tree.ephemeralsOf id)) (hw : e.watches[i]? = some w) :
    ∃ w', ((e.setPhase id phase).endSession id order).watches[i]? = some w' ∧ w.Becomes w' ∧
      (w.session = id → w'.phase ≠ .registered) := by
  have howned : ∀ p ∈ order, ∃ n, e.tree.node? p = some n ∧ n.stat.owner = some id := fun p hp =>
    ht.mem_ephemeralsOf_iff.1 (perm.mem_iff.1 hp)
  have hvalid : ∀ ev ∈ (e.tree.unlinkAll order).2, Valid ev.path := by
    rw [ht.events_unlinkAll (perm.nodup_iff.2 (ht.nodup_ephemeralsOf id)) howned]
    intro ev hev
    obtain ⟨p, hp, rfl⟩ := List.mem_map.1 hev
    obtain ⟨n, hn, -⟩ := howned p hp
    exact ht.valid hn
  have hlast : ((e.setPhase id phase).endSession id order).watches[i]? =
      some (Watch.receive (e.tree.unlinkAll order).2
        (if w.session = id ∧ w.phase = .registered then { w with phase := .ended } else w)) := by
    simp [endSession, endWatches, dispatch, setPhase, hw]
  refine ⟨_, hlast, .trans ?_ (Watch.becomes_receive _ hvalid), fun hs => ?_⟩
  · split_ifs
    · exact ⟨rfl, rfl, fun _ => .inl, fun hended => by cases hended⟩
    · exact .refl w
  · rw [Watch.phase_receive]
    split_ifs with hended
    · simp
    · exact fun hregistered => hended ⟨hs, hregistered⟩

/-- Every step leaves each watch with its session and its root. -/
theorem Step.becomes (ht : e.tree.WellFormed) (h : Step e e') (hw : e.watches[i]? = some w) :
    ∃ w', e'.watches[i]? = some w' ∧ w.Becomes w' := by
  cases h with
  | connect servers identity => exact becomes_of_eq (watches_connect ..) hw
  | failConnects count => exact becomes_of_eq rfl hw
  | inject error => exact becomes_of_eq rfl hw
  | setLatency ms => exact becomes_of_eq rfl hw
  | accept accepted =>
    obtain ⟨-, rfl⟩ := accept_eq_ok accepted
    exact becomes_of_eq rfl hw
  | complete id fault r =>
    rcases complete_cases e id fault r with ⟨_, heq⟩ | ⟨-, heq⟩ <;> rw [heq]
    · exact becomes_of_eq rfl hw
    · exact becomes_perform ht r hw
  | expire live perm =>
    obtain ⟨w', hw', hbecomes, -⟩ := becomes_endSession ht _ perm hw
    exact ⟨w', hw', hbecomes⟩
  | close live perm =>
    obtain ⟨w', hw', hbecomes, -⟩ := becomes_endSession ht _ perm hw
    exact ⟨w', hw', hbecomes⟩
  | closeExpired expired => exact becomes_of_eq rfl hw

/-- To read a watch leaves every watch with its session and its root. -/
theorem Reads.becomes {j : Nat} (h : Reads j e e') (hw : e.watches[i]? = some w) :
    ∃ w', e'.watches[i]? = some w' ∧ w.Becomes w' := by
  by_cases hi : i = j
  · subst hi
    obtain ⟨hlt, -⟩ := List.getElem?_eq_some_iff.1 hw
    cases h with
    | take taken =>
      obtain ⟨session, root, queue, phase⟩ := w
      cases queue with
      | nil => simp [nextEvent?, hw] at taken
      | cons ev rest =>
        simp only [nextEvent?, hw, Option.some.injEq, Prod.mk.injEq] at taken
        obtain ⟨rfl, rfl⟩ := taken
        exact ⟨_, List.getElem?_set_self hlt, rfl, rfl,
          fun ev hev => .inl (List.mem_cons_of_mem _ hev), id⟩
    | drain =>
      refine ⟨{ w with queue := [] }, ?_, rfl, rfl, by simp, id⟩
      simp only [Ensemble.drain, hw]
      exact List.getElem?_set_self hlt
    | drop =>
      exact ⟨{ w with queue := [], phase := .dropped }, by simp [dropWatch, hw], rfl, rfl,
        by simp, fun hdropped => by cases hdropped⟩
  · exact ⟨w, (h.frame.2.2.2 i hi).trans hw, .refl w⟩

end Ensemble

end KeyRegistry
