import KeyRegistry.Proofs.Ensemble.Watching
import KeyRegistry.Proofs.Tree.Clearing

/-!
# Sessions and their ephemeral nodes

Every ephemeral node belongs to a live session, and the number of a session is
given out once. So the end of a session takes away all that would outlive it. In
whatever order its nodes are taken out, the same tree is left and the watches of
the other sessions are told of each node once.
-/

namespace KeyRegistry

open KeyRegistry.Path

/-- What a watch has become when it was told that the nodes at the paths in `gone` are deleted: it
has one event more for each of them under its root. -/
def Watch.ToldGone (w : Watch) (gone : String → Prop) (w' : Watch) : Prop :=
  ∃ told : List String, told.Nodup ∧ (∀ p, p ∈ told ↔ gone p ∧ isWithin w.root p = true) ∧
    w' = { w with queue := w.queue ++ told.map (Event.mk .deleted) }

namespace Ensemble

variable {e e' : Ensemble} {id k s : Nat} {phase : SessionPhase} {order : List String}

/-! ## Ephemeral nodes belong to live sessions -/

theorem session?_setPhase_of_ne (h : id ≠ 0) (hk : k ≠ id) :
    (e.setPhase id phase).session? k = e.session? k := by
  rw [session?_setPhase]
  split_ifs with hplace
  · obtain rfl : k = 0 := by omega
    simp [session?]
  · rfl

theorem phase_setPhase_of_ne (h : id ≠ 0) (hk : k ≠ id) :
    (e.setPhase id phase).phase k = e.phase k := by
  unfold Ensemble.phase
  rw [session?_setPhase_of_ne h hk]

theorem phase_connect_of_live (h : e.phase id = .live) (servers : String)
    (identity : Option String) : (e.connect servers identity).2.phase id = .live := by
  obtain ⟨h0, x, hx, hphase⟩ := exists_session_of_phase (show e.phase id ≠ .closed by simp [h])
  have hsession : e.session? id = some x := by simp [session?, h0, hx]
  unfold Ensemble.phase
  rw [session?_connect hsession]
  exact hphase.trans h

/-- Whether every ephemeral node belongs to a live session and has the rule of access that the
session gives to its nodes. -/
def Tended (e : Ensemble) : Prop := ∀ p n s, e.tree.node? p = some n → n.stat.owner = some s →
  e.phase s = .live ∧ n.acl = (e.caller s).acl

theorem Tended.congr (h : e.Tended) (htree : e'.tree = e.tree)
    (hsessions : e'.sessions = e.sessions) : e'.Tended := by
  intro p n s hn howner
  rw [phase_congr hsessions, caller_congr hsessions]
  exact h p n s (htree ▸ hn) howner

theorem tended_endSession (ht : e.tree.WellFormed) (h : e.Tended) (hlive : e.phase id = .live)
    (perm : order.Perm (e.tree.ephemeralsOf id)) :
    ((e.setPhase id phase).endSession id order).Tended := by
  have hcleared := ht.cleared id
  intro p m s hm howner
  replace hm : (e.tree.unlinkAll order).1.node? p = some m := hm
  rw [ht.unlinkAll_perm perm] at hm
  obtain ⟨n, hn⟩ : e.tree.Stored p := by
    by_contra hnone
    simp [hcleared.absent (Tree.not_stored_iff.1 hnone)] at hm
  have hother : n.stat.owner ≠ some id := fun he => by simp [hcleared.gone hn he] at hm
  obtain rfl := Option.some.inj (hm.symm.trans (hcleared.kept hn hother))
  obtain ⟨hphase, hacl⟩ := h p n s hn howner
  have h0 := (exists_session_of_phase (show e.phase id ≠ .closed by simp [hlive])).1
  have hne : s ≠ id := fun he => hother (he ▸ howner)
  exact ⟨(phase_setPhase_of_ne h0 hne).trans hphase,
    hacl.trans (congrArg Caller.acl (caller_setPhase e id s phase).symm)⟩

theorem Tended.perform (ht : e.tree.WellFormed) (h : e.Tended) (hlive : e.phase id = .live)
    (r : Request) : (e.perform id r).2.Tended := by
  have hsessions := (perform_frame e id r).1
  intro p m s hm howner
  rw [phase_congr hsessions, caller_congr hsessions]
  rcases (evolves_perform e id r).1.tree.old_or_made ht hm with
    ⟨n, hn, hacl, howner'⟩ | ⟨hacl, hnone | hmade⟩
  · rw [hacl]
    exact h p n s hn (howner'.symm.trans howner)
  · simp [hnone] at howner
  · obtain rfl : id = s := Option.some.inj (hmade.symm.trans howner)
    exact ⟨hlive, hacl⟩

theorem Tended.step (ht : e.tree.WellFormed) (h : e.Tended) (hs : Step e e') : e'.Tended := by
  cases hs with
  | connect servers identity =>
    have hev : Evolves ⟨0, none⟩ [] e _ := evolves_connect e servers identity
    intro p n s hn howner
    have htree : (e.connect servers identity).2.tree = e.tree := by
      unfold Ensemble.connect
      dsimp only
      split_ifs <;> rfl
    obtain ⟨hlive, hacl⟩ := h p n s (htree ▸ hn) howner
    rw [hev.caller hlive]
    exact ⟨phase_connect_of_live hlive servers identity, hacl⟩
  | failConnects count => exact h
  | inject error => exact h
  | setLatency ms => exact h
  | accept accepted =>
    obtain ⟨-, rfl⟩ := accept_eq_ok accepted
    exact h
  | complete id fault r =>
    rcases complete_cases e id fault r with ⟨_, heq⟩ | ⟨hlive, heq⟩
    · rwa [heq]
    · rw [heq]
      exact h.perform ht hlive r
  | expire live perm => exact tended_endSession ht h live perm
  | close live perm => exact tended_endSession ht h live perm
  | @closeExpired id expired =>
    have h0 := (exists_session_of_phase (show e.phase id ≠ .closed by simp [expired])).1
    intro p n s hn howner
    obtain ⟨hlive, hacl⟩ := h p n s hn howner
    have hne : s ≠ id := by
      rintro rfl
      simp [hlive] at expired
    exact ⟨(phase_setPhase_of_ne h0 hne).trans hlive,
      hacl.trans (congrArg Caller.acl (caller_setPhase e id s .closed).symm)⟩

theorem Reachable.tended (h : Reachable e) : e.Tended := by
  induction h with
  | fresh =>
    intro p n s hn howner
    rw [(Tree.eq_of_node?_empty hn).2] at howner
    cases howner
  | step before step ih => exact ih.step before.wellFormed step
  | read _ read ih => exact ih.congr read.frame.1 read.frame.2.1

/-! ## The numbers of sessions -/

theorem connect_eq_ok {servers : String} {identity : Option String}
    (h : (e.connect servers identity).1 = .ok s) : s = e.sessions.length + 1 ∧
      (e.connect servers identity).2.sessions = e.sessions ++ [⟨identity, .live⟩] := by
  unfold connect at h ⊢
  dsimp only at h ⊢
  split_ifs at h ⊢
  exact ⟨(Except.ok.inj h).symm, rfl⟩

theorem Step.length_sessions_le (h : Step e e') : e.sessions.length ≤ e'.sessions.length := by
  cases h with
  | connect servers identity =>
    unfold Ensemble.connect
    dsimp only
    split_ifs
    · exact Nat.le_refl _
    · simp
  | failConnects count => exact Nat.le_refl _
  | inject error => exact Nat.le_refl _
  | setLatency ms => exact Nat.le_refl _
  | accept accepted =>
    obtain ⟨-, rfl⟩ := accept_eq_ok accepted
    exact Nat.le_refl _
  | complete id fault r =>
    exact (congrArg List.length (complete_frame e id fault r).1).ge
  | expire live perm => exact (List.length_modify ..).ge
  | close live perm => exact (List.length_modify ..).ge
  | closeExpired expired => exact (List.length_modify ..).ge

theorem Leads.length_sessions_le (h : e.Leads e') : e.sessions.length ≤ e'.sessions.length := by
  induction h with
  | refl => exact Nat.le_refl _
  | tail _ hnext ih =>
    rcases hnext with hs | ⟨i, hr⟩
    · exact ih.trans hs.length_sessions_le
    · exact ih.trans (congrArg List.length hr.frame.2.1).ge

/-! ## The end of a session -/

/-- The live session `s` ends, by its own doing or not, and its ephemeral nodes are taken out in
any order. -/
inductive Departs (s : Nat) (e : Ensemble) : Ensemble → Prop
  | ended {phase : SessionPhase} {order : List String} (live : e.phase s = .live)
      (gone : phase ≠ .live) (perm : order.Perm (e.tree.ephemeralsOf s)) :
      Departs s e ((e.setPhase s phase).endSession s order)

theorem departs_expire (h : e.phase s = .live) : Departs s e (e.expire s).2 := by
  simpa [expire, h] using Departs.ended h (by decide) (ephemerals_perm e s)

theorem departs_close (h : e.phase s = .live) : Departs s e (e.close s).2 := by
  simpa [close, h] using Departs.ended h (by decide) (ephemerals_perm e s)

theorem Departs.tree_eq (ht : e.tree.WellFormed) (h : Departs s e e') :
    e'.tree = (e.tree.unlinkAll (e.tree.ephemeralsOf s)).1 := by
  cases h with
  | ended live gone perm => exact ht.unlinkAll_perm perm

/-- A watch of another session is told of the nodes under its root, each once. -/
theorem Departs.watch (ht : e.tree.WellFormed) (h : Departs s e e') {i : Nat} {w : Watch}
    (hw : e.watches[i]? = some w) (hregistered : w.phase = .registered) (hne : w.session ≠ s) :
    ∃ w', e'.watches[i]? = some w' ∧
      w.ToldGone (fun p => ∃ n, e.tree.node? p = some n ∧ n.stat.owner = some s) w' := by
  cases h with
  | @ended phase order live gone perm =>
    have howned : ∀ p ∈ order, ∃ n, e.tree.node? p = some n ∧ n.stat.owner = some s :=
      fun p hp => ht.mem_ephemeralsOf_iff.1 (perm.mem_iff.1 hp)
    have hnd := perm.nodup_iff.2 (ht.nodup_ephemeralsOf s)
    have hevents := ht.events_unlinkAll hnd howned
    have htold : ((e.setPhase s phase).endSession s order).watches[i]? =
        some (w.receive (e.tree.unlinkAll order).2) := by
      simp [endSession, endWatches, dispatch, setPhase, hw, hne]
    refine ⟨_, htold, order.filter (isWithin w.root), hnd.filter _, fun p => ?_, ?_⟩
    · rw [List.mem_filter, perm.mem_iff, ht.mem_ephemeralsOf_iff]
    · rw [hevents]
      simp [Watch.receive, hregistered, List.filter_map, Function.comp_def]

/-- An expired session that is closed was not counted before, nor is it after. -/
theorem activeSessions_setPhase (h : e.phase s = .expired) :
    (e.setPhase s .closed).activeSessions = e.activeSessions := by
  obtain ⟨-, x, hx, hphase⟩ := exists_session_of_phase (show e.phase s ≠ .closed by simp [h])
  have hover : x.phase = .expired := hphase.trans h
  have hsame : (e.setPhase s .closed).sessions.map (fun y => y.phase == .live) =
      e.sessions.map fun y => y.phase == .live := by
    refine List.ext_getElem? fun i => ?_
    by_cases hi : s - 1 = i
    · subst hi
      simp [setPhase, hx, hover]
    · simp [setPhase, hi]
  have hcount := congrArg (List.countP id) hsame
  rwa [List.countP_map, List.countP_map] at hcount

/-- To close a session that has ended is noted for that session alone, and only once. -/
theorem close_of_over (h : e.phase s ≠ .live) :
    (e.close s).2 = { e with sessions := (e.close s).2.sessions } ∧
      (e.close s).2.activeSessions = e.activeSessions ∧
      (∀ k ≠ s, (e.close s).2.session? k = e.session? k) ∧
      (e.phase s = .closed → e.close s = (false, e)) := by
  unfold close
  split <;> rename_i hphase
  · exact ⟨rfl, rfl, fun _ _ => rfl, fun _ => rfl⟩
  · have h0 := (exists_session_of_phase (show e.phase s ≠ .closed by simp [hphase])).1
    refine ⟨rfl, activeSessions_setPhase hphase, fun k hk => ?_, fun hclosed => ?_⟩
    · exact session?_setPhase_of_ne h0 hk
    · simp [hphase] at hclosed
  · exact absurd hphase h

/-- Every ephemeral node belongs to a live session, and no number is given to two sessions. When a
live session ends, its nodes and no others go, whatever the order, and leave one and the same tree;
each registered watch of another session is told of each of them under its root once. What has ended
does not end again: to close an expired session is noted for that session alone. -/
theorem ephemerals_end_with_session (h : Reachable e) :
    (∀ p n s, e.tree.node? p = some n → n.stat.owner = some s → s ≠ 0 ∧ e.phase s = .live) ∧
    (∀ servers identity s, (e.connect servers identity).1 = .ok s → e.session? s = none ∧
      ∀ e', (e.connect servers identity).2.Leads e' → ∀ servers' identity' s',
        (e'.connect servers' identity').1 = .ok s' → s < s') ∧
    (∀ s, e.phase s = .live → Departs s e (e.expire s).2 ∧ Departs s e (e.close s).2 ∧
      ∃ t, Tree.Cleared s e.tree t ∧ ∀ e', Departs s e e' → e'.tree = t ∧
        ∀ (i : Nat) (w : Watch), e.watches[i]? = some w → w.phase = .registered → w.session ≠ s →
          ∃ w', e'.watches[i]? = some w' ∧
            w.ToldGone (fun p => ∃ n, e.tree.node? p = some n ∧ n.stat.owner = some s) w') ∧
    ∀ s, e.phase s ≠ .live → e.expire s = (false, e) ∧
      (e.close s).2 = { e with sessions := (e.close s).2.sessions } ∧
      (e.close s).2.activeSessions = e.activeSessions ∧
      (∀ k ≠ s, (e.close s).2.session? k = e.session? k) ∧
      (e.phase s = .closed → e.close s = (false, e)) := by
  have ht := h.wellFormed
  refine ⟨fun p n s hn howner => ?_, fun servers identity s hs => ?_, fun s hlive => ?_,
    fun s hover => ?_⟩
  · obtain ⟨hlive, -⟩ := h.tended p n s hn howner
    exact ⟨(exists_session_of_phase (show e.phase s ≠ .closed by simp [hlive])).1, hlive⟩
  · obtain ⟨rfl, hsessions⟩ := connect_eq_ok hs
    refine ⟨by simp [session?], fun e' hl servers' identity' s' hs' => ?_⟩
    have hle := hl.length_sessions_le
    rw [hsessions, List.length_append, List.length_singleton] at hle
    rw [(connect_eq_ok hs').1]
    omega
  · exact ⟨departs_expire hlive, departs_close hlive, _, ht.cleared s, fun e' hd =>
      ⟨hd.tree_eq ht, fun i w hw hr hne => hd.watch ht hw hr hne⟩⟩
  · exact ⟨by simp [expire, hover], close_of_over hover⟩

/-- The first session of `attended` ends and takes its node along. The second one, which watches, is
told so whether the first has expired or was closed. -/
theorem ephemerals_end_with_session_attended :
    ∃ t, Tree.Cleared 1 Watched.attended.tree t ∧ (Watched.attended.expire 1).2.tree = t ∧
      (Watched.attended.close 1).2.tree = t ∧ t.node? "/a/b" = none ∧
      (∃ n, t.node? "/a" = some n ∧ n.children = [] ∧ n.stat.cversion = 2) ∧
      ∃ w w' : Watch, Watched.attended.watches[0]? = some w ∧
        (Watched.attended.expire 1).2.watches[0]? = some w' ∧
        w.ToldGone (fun p => ∃ n, Watched.attended.tree.node? p = some n ∧
          n.stat.owner = some 1) w' := by
  have hreach : Reachable Watched.attended :=
    .step (.step nested_reachable (.connect ..)) (.complete ..)
  obtain ⟨-, -, hends, -⟩ := ephemerals_end_with_session hreach
  obtain ⟨hexpire, hclose, t, hcleared, hall⟩ := hends 1 rfl
  obtain ⟨w', hw', htold⟩ := (hall _ hexpire).2 0 ⟨2, "/a", [], .registered⟩ rfl rfl (by decide)
  refine ⟨t, hcleared, (hall _ hexpire).1, (hall _ hclose).1, hcleared.gone rfl rfl,
    ⟨_, hcleared.kept rfl (by decide), by decide, by decide⟩, _, w', rfl, hw', htold⟩

end Ensemble

end KeyRegistry
