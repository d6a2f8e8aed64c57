import KeyRegistry.Proofs.Center.Keys
import KeyRegistry.Proofs.World.Scene

/-!
# Starts and stops undisturbed

Between two calls a center stands in one of two ways: stopped, over a tree that
holds no ephemeral node, or started, over a session of its own and a replica that
runs. A start and a stop lead from one to the other.
-/

namespace KeyRegistry

open KeyRegistry.Path World
open KeyRegistry.Task (Ends Stable)

variable {α β : Type} {w : World} {R : World → Prop} {t t' : Tree} {who : Caller}

namespace Task

variable {post : α → World → Prop} {s : SessionId}

theorem ends_say (hR : Aside R) {d : Dialogue β} {b : β} {next : β → Task α}
    (hd : d.Does who t t' b) (hw : R w) (hs : w.Holds s.ensemble (·.Serves s.number who t))
    (h : ∀ w, R w → w.Holds s.ensemble (·.Serves s.number who t') →
      Ends Meanwhile post w (next b)) :
    Ends Meanwhile post w (say s d >>= next) :=
  ends_talk_of_does hR hd hw hs h

/-- A watch is registered at whatever place comes next. -/
theorem ends_say_watch (hR : Aside R) {root : String} {next : Except ServiceError Nat → Task α}
    (hroot : Valid root) (hw : R w) (hs : w.Holds s.ensemble (·.Serves s.number who t))
    (h : ∀ w watch, R w → w.Holds s.ensemble (·.Serves s.number who t) →
      Ends Meanwhile post w (next (.ok watch))) :
    Ends Meanwhile post w (say s (Dialogue.ask (.watch root)) >>= next) := by
  have hP := hR.meanwhile.and (stable_serves s.ensemble s.number who t)
  refine ends_talk_call hP ⟨hw, hs⟩ (fun w hw => ?_) rfl fun w e hw hcalm => ?_
  · obtain ⟨-, e, hk, he⟩ := hw
    exact ⟨e, hk, he.live, he.unfaulted⟩
  · obtain ⟨hw, e', hk, he⟩ := hw
    obtain rfl : e' = e := Option.some.inj (hk.symm.trans hcalm.1)
    have hserves : (e'.perform s.number (.watch root)).2.Serves s.number who t := by
      obtain ⟨hsessions, hfaults⟩ := Ensemble.perform_frame e' s.number (.watch root)
      refine ⟨⟨?_, by rw [hfaults, he.unfaulted], by rw [hfaults, he.connects]⟩,
        (Ensemble.phase_congr hsessions _).trans he.live,
        (Ensemble.caller_congr hsessions _).trans he.caller⟩
      simpa [Ensemble.perform, checkPath_of_valid hroot] using he.tree
    have hanswer : (e'.perform s.number (.watch root)).1 = .ok e'.watches.length := by
      simp [Ensemble.perform, checkPath_of_valid hroot]
    rw [hanswer]
    refine ends_talk_done hP ⟨hR.setEnsemble _ _ hw, holds_setEnsemble hk hserves⟩ rfl ?_
    exact fun w hw => h w _ hw.1 hw.2

end Task

/-! ## Opening a session -/

namespace Connecting

/-- The first attempt succeeds. -/
theorem ends_attempt (hR : Aside R) {k retries : Nat} {settings : Settings}
    {again : ServiceError → Task (Except RegistryError SessionId)} (hw : R w)
    (hk : w.Holds k (·.Willing t)) :
    Ends Meanwhile (fun result w => ∃ s, result = .ok ⟨k, s⟩ ∧ R w ∧
        w.Holds k (·.Serves s ⟨s, settings.identity⟩ t)) w
      (attempt k settings retries again) := by
  refine Task.ends_perform (hR.meanwhile.and (stable_willing k t)) ⟨hw, hk⟩ fun w ⟨hw, hk⟩ => ?_
  obtain ⟨s, hs, hserves, hkept⟩ := hk.connect settings.serverLists settings.identity
  rw [hs]
  refine Task.ends_tell (hR.meanwhile.and (stable_serves k s _ t)) ⟨hkept R hR hw, hserves⟩ ?_
  exact fun w hw => .done ⟨s, rfl, hR.note _ hw.1, hw.2⟩

theorem ends_connect {c : Nat} {x : Center} {settings : Settings} {backend : Backend}
    (draws : Nat → Nat) (hscene : w.Scene c x ⟨settings, backend⟩)
    (hoffers : w.Offers ⟨settings, backend⟩ t) :
    Ends Meanwhile (fun result w => ∃ k s, result = .ok ⟨k, s⟩ ∧
        w.Scene c x ⟨settings, .ensemble k⟩ ∧ w.Holds k (·.Serves s ⟨s, settings.identity⟩ t)) w
      (connect x.connector draws) := by
  refine Task.ends_perform ((aside_scene c x _).meanwhile.and (stable_offers _ t))
    ⟨hscene, hoffers⟩ fun w ⟨hscene, hoffers⟩ => ?_
  obtain ⟨k, hk, hscene, hwilling⟩ := hscene.resolve hoffers
  rw [hk]
  have hR := aside_scene c x ⟨settings, .ensemble k⟩
  have hP := hR.meanwhile.and (stable_willing k t)
  refine Task.ends_look hP ⟨hscene, hwilling⟩ fun w ⟨hscene, hwilling⟩ => ?_
  rw [show ((w.connectors[x.connector]?).map Connector.settings).getD {} = settings by
    rw [hscene.2]; rfl]
  have hattempts (v : World) (hw : v.Scene c x ⟨settings, .ensemble k⟩)
      (hk : v.Holds k (·.Willing t)) :
      Ends Meanwhile (fun result w => ∃ k s, result = .ok ⟨k, s⟩ ∧
          w.Scene c x ⟨settings, .ensemble k⟩ ∧ w.Holds k (·.Serves s ⟨s, settings.identity⟩ t)) v
        (attempts k settings draws 0 settings.backoff.maxRetries) := by
    rw [attempts_eq k draws (Nat.zero_add _)]
    exact (ends_attempt hR hw hk).weaken fun _ _ ⟨s, hs⟩ => ⟨k, s, hs⟩
  dsimp only
  split_ifs
  · exact Task.ends_tell hP ⟨hscene, hwilling⟩ fun w hw => hattempts _ (hR.note _ hw.1) hw.2
  · exact hattempts w hscene hwilling

end Connecting

/-! ## Starting a replica -/

variable {ns : Namespace} {r : Registry} {settings : Settings} {s : SessionId}

theorem Replication.ends_start {i : Nat} {root : String} (hR : Aside R)
    (hkept : ∀ w w', R w → w.Unmoved w' → R w') (hroot : Valid root) (hw : R w)
    (hm : w.Mirrors i root .latent) (hs : w.Holds s.ensemble (·.Serves s.number who t)) :
    Ends Meanwhile (fun result w => result = .ok () ∧ R w ∧ w.Mirrors i root .started ∧
        w.Holds s.ensemble (·.Serves s.number who t)) w (start i s) := by
  have hlatent := hR.and (aside_mirrors i root .latent)
  have hP := hlatent.meanwhile.and (stable_serves s.ensemble s.number who t)
  refine Task.ends_look hP ⟨⟨hw, hm⟩, hs⟩ fun w hw => ?_
  rw [if_neg (by simp [hw.1.2.phase_eq])]
  refine Task.ends_look hP hw fun w hw => ?_
  rw [hw.1.2.root_eq]
  refine Task.ends_say_watch hlatent hroot hw.1 hw.2 fun w watch hw hs => ?_
  refine Task.ends_perform hP ⟨hw, hs⟩ fun w ⟨⟨hw, hm⟩, hs⟩ => ?_
  obtain ⟨hspawned, hstarted, hunmoved⟩ := hm.spawn s watch
  rw [hspawned, if_pos rfl]
  exact .done ⟨rfl, hkept _ _ hw hunmoved, hstarted, hs.unmoved hunmoved⟩

/-- A close of a running replica waits for its worker, but not forever. -/
theorem Replication.ends_close {i : Nat} {root : String} (hR : Stable Meanwhile R)
    (hkept : ∀ w w', R w → w.Unmoved w' → R w') (hw : R w) (hm : w.Mirrors i root .started)
    (ms : Nat) :
    Ends Meanwhile (fun outcome w => outcome ≠ .notRunning ∧ R w) w (close i ms) := by
  refine Task.ends_perform (hR.and (aside_mirrors i root .started).meanwhile) ⟨hw, hm⟩
    fun w ⟨hw, hm⟩ => ?_
  obtain ⟨hrunning, hclosed, hunmoved⟩ := hm.requestStop
  rw [hrunning, if_pos rfl]
  have hP := hR.and (aside_mirrors i root .closed).meanwhile
  refine Task.ends_await hP ⟨hkept _ _ hw hunmoved, hclosed⟩ fun ended w hw => ?_
  refine Task.ends_act hP hw fun w ⟨hw, hm⟩ => ?_
  obtain ⟨hended, hunmoved⟩ := hm.finishStop ms ended
  exact .done ⟨hended, hkept _ _ hw hunmoved⟩

namespace Center

/-- Without a seed, the key of the namespace is all that a center adds. -/
theorem ends_furnish (hns : ns.Proper) (hR : Aside R) (hkept : ∀ w w', R w → w.Unmoved w' → R w')
    (overwrite : Bool) (hw : R w) (hs : w.Holds s.ensemble (·.Serves s.number who t))
    (hrep : t.Represents ns who.identity (some who.session) r) :
    Ends Meanwhile (fun result w => ∃ i t', result = .ok i ∧ R w ∧ w.Mirrors i ns.root .started ∧
        w.Holds s.ensemble (·.Serves s.number who t') ∧
        t'.Represents ns who.identity (some who.session)
          (if r.has root then r else r.add root ⟨"", false⟩)) w
      (furnish s ns none overwrite) := by
  obtain ⟨t', hensure, hrep'⟩ := Key.does_ensurePath hns hrep
  refine Task.ends_say hR hensure hw hs fun w hw hs => ?_
  refine Task.ends_perform (hR.meanwhile.and (stable_serves s.ensemble s.number who t'))
    ⟨hw, hs⟩ fun w ⟨hw, hs⟩ => ?_
  have hunmoved := unmoved_addReplica w ns.root
  refine Ends.bind ((Replication.ends_start hR hkept hns.valid (hkept _ _ hw hunmoved)
    (mirrors_addReplica w ns.root) (hs.unmoved hunmoved)).weaken ?_)
  rintro result w ⟨rfl, hw, hm, hs⟩
  exact .done ⟨_, t', rfl, hw, hm, hs, hrep'⟩

/-! ## How a center stands -/

/-- How a center with a proper namespace stands between two calls, `r` being what its user sees. -/
inductive Stands (c : Nat) (settings : Settings) (ns : Namespace) (turns : List Nat)
    (r : Registry) (w : World) : Prop
  | stopped {x : Center} {backend : Backend} {t : Tree} (scene : w.Scene c x ⟨settings, backend⟩)
      (turning : x.turns = turns) (idle : x.active = none) (offers : w.Offers ⟨settings, backend⟩ t)
      (off : r.started = false) (represents : t.Represents ns settings.identity none r)
  | started {x : Center} {a : Active} {t : Tree}
      (scene : w.Scene c x ⟨settings, .ensemble a.session.ensemble⟩) (turning : x.turns = turns)
      (active : x.active = some a) (scope : a.scope = ns)
      (mirrors : w.Mirrors a.replica ns.root .started)
      (serves : w.Holds a.session.ensemble
        (·.Serves a.session.number ⟨a.session.number, settings.identity⟩ t))
      (on : r.started = true)
      (represents : t.Represents ns settings.identity (some a.session.number) r)

variable {c : Nat} {turns : List Nat}

theorem stable_stands : Stable Meanwhile (Stands c settings ns turns r) := by
  intro w w' h hw
  cases h with
  | stopped scene turning idle offers off represents =>
    exact .stopped ((aside_scene ..).meanwhile _ _ scene hw) turning idle
      (stable_offers _ _ _ _ offers hw) off represents
  | started scene turning active scope mirrors serves on represents =>
    exact .started ((aside_scene ..).meanwhile _ _ scene hw) turning active scope
      ((aside_mirrors ..).meanwhile _ _ mirrors hw) (stable_serves _ _ _ _ _ _ serves hw) on
      represents

theorem Stands.note (h : Stands c settings ns turns r w) (n : Notice) :
    Stands c settings ns turns r (w.note n) := by
  cases h with
  | stopped scene turning idle offers off represents =>
    exact .stopped scene turning idle offers off represents
  | started scene turning active scope mirrors serves on represents =>
    exact .started scene turning active scope mirrors serves on represents

theorem Stands.drawTicket (h : Stands c settings ns [] r w) :
    Stands c settings ns [(w.drawTicket c).1] r (w.drawTicket c).2 := by
  cases h with
  | stopped scene turning idle offers off represents =>
    obtain ⟨hticket, hscene⟩ := scene.drawTicket
    exact .stopped hscene (by simp [turning, hticket]) idle offers off represents
  | started scene turning active scope mirrors serves on represents =>
    obtain ⟨hticket, hscene⟩ := scene.drawTicket
    exact .started hscene (by simp [turning, hticket]) active scope mirrors serves on represents

theorem Stands.hasTurn {ticket : Nat} (h : Stands c settings ns [ticket] r w) :
    w.hasTurn c ticket = true := by
  cases h with
  | stopped scene turning => exact scene.hasTurn (by rw [turning]; rfl)
  | started scene turning => exact scene.hasTurn (by rw [turning]; rfl)

theorem Stands.passTurn {ticket : Nat} (h : Stands c settings ns [ticket] r w) :
    Stands c settings ns [] r (w.passTurn c) := by
  cases h with
  | stopped scene turning idle offers off represents =>
    exact .stopped scene.passTurn (by rw [turning]; rfl) idle offers off represents
  | started scene turning active scope mirrors serves on represents =>
    exact .started scene.passTurn (by rw [turning]; rfl) active scope mirrors serves on represents

/-- A task that holds the turn of a center that stands by. -/
theorem ends_inTurn {task : Task α} {post : α → Prop} {r' : Registry}
    (h : Stands c settings ns [] r w)
    (htask : ∀ w ticket, Stands c settings ns [ticket] r w →
      Ends Meanwhile (fun a w => post a ∧ Stands c settings ns [ticket] r' w) w task) :
    Ends Meanwhile (fun a w => post a ∧ Stands c settings ns [] r' w) w (inTurn c task) := by
  refine Task.ends_perform stable_stands h fun w h => ?_
  refine Task.ends_await_shown stable_stands h.drawTicket (fun _ h => h.hasTurn) fun w h => ?_
  refine Ends.bind ((htask w _ h).weaken fun a w ⟨ha, h⟩ => ?_)
  exact Task.ends_change stable_stands h fun w h => .done ⟨ha, h.passTurn⟩

/-! ## Start -/

theorem Stands.isSome_active? (h : Stands c settings ns turns r w) :
    (w.active? c).isSome = r.started := by
  cases h with
  | stopped scene _ idle _ off => rw [scene.active?_eq, idle, off]; rfl
  | started scene _ active _ _ _ on => rw [scene.active?_eq, active, on]; rfl

theorem prepare_of_accepted (hcheck : settings.check = .ok ())
    (hnamed : settings.namespaceOf = .ok ns) (hseed : settings.seedFile = none)
    (file : String → Except FileFault (List UInt8)) : prepare settings file = .ok (ns, none) := by
  unfold prepare
  rw [hcheck, hnamed, hseed]
  rfl

variable (hns : ns.Proper) (hcheck : settings.check = .ok ())
  (hnamed : settings.namespaceOf = .ok ns) (hseed : settings.seedFile = none)

include hns hcheck hnamed hseed

theorem ends_start (draws : Nat → Nat) (h : Stands c settings ns [] r w) :
    Ends Meanwhile (fun result w => result = r.start.1 ∧ Stands c settings ns [] r.start.2 w) w
      (start c draws) := by
  refine ends_inTurn h fun w ticket h => ?_
  refine Task.ends_look stable_stands h fun w h => ?_
  rw [h.isSome_active?]
  unfold Registry.start
  cases h with
  | started scene turning active scope mirrors serves on represents =>
    rw [if_pos on, if_pos on]
    exact .done ⟨rfl, .started scene turning active scope mirrors serves on represents⟩
  | @stopped x backend t scene turning idle offers off represents =>
    rw [off, if_neg Bool.false_ne_true, if_neg Bool.false_ne_true]
    dsimp only
    have hP := (aside_scene c x ⟨settings, backend⟩).meanwhile.and
      (stable_offers ⟨settings, backend⟩ t)
    refine Task.ends_look hP ⟨scene, offers⟩ fun w h => ?_
    rw [h.1.settings_eq]
    refine Task.ends_look hP h fun w h => ?_
    rw [prepare_of_accepted hcheck hnamed hseed]
    refine Task.ends_tell hP h fun w h => ?_
    refine Task.ends_look (w := w.note _) hP h fun w h => ?_
    rw [show ((w.center? c).map Center.connector).getD 0 = x.connector by
      rw [h.1.center?_eq]; rfl]
    refine Ends.bind ((Connecting.ends_connect draws h.1 h.2).weaken ?_)
    rintro result w ⟨k, s, rfl, scene, serves⟩
    have hadopt := represents.adopt (some s)
    have hrep : t.Represents ns settings.identity (some s) ⟨true, r.items⟩ :=
      ⟨hadopt.toTended, hadopt.valid, hadopt.shelf⟩
    refine Ends.bind ((ends_furnish hns (aside_scene c x ⟨settings, .ensemble k⟩)
      (fun _ _ => Scene.unmoved) settings.overwrite scene serves hrep).weaken ?_)
    rintro result w ⟨i, t', rfl, scene, mirrors, serves, represents⟩
    have hP := (aside_scene c x ⟨settings, .ensemble k⟩).meanwhile.and
      ((aside_mirrors i ns.root .started).meanwhile.and
        (stable_serves k s ⟨s, settings.identity⟩ t'))
    refine Task.ends_change hP ⟨scene, mirrors, serves⟩ fun w ⟨scene, mirrors, serves⟩ => ?_
    let a : Active := ⟨⟨k, s⟩, i, ns⟩
    have hstands : Stands c settings ns [ticket] _ (w.setActive c (some a)) :=
      .started (a := a) (scene.setActive (some a)) turning rfl rfl mirrors serves
        (by split_ifs <;> rfl) represents
    refine Task.ends_tell stable_stands hstands fun w h => ?_
    exact .done ⟨rfl, h.note _⟩

omit hns hcheck hnamed hseed

/-! ## Stop -/

/-- The session of a center that is about to stop is closed, and its ephemeral keys go with it. -/
theorem ends_leave {x : Center} {a : Active} {outcome : Shutdown}
    (scene : w.Scene c x ⟨settings, .ensemble a.session.ensemble⟩) (turning : x.turns = turns)
    (idle : x.active = none)
    (serves : w.Holds a.session.ensemble
      (·.Serves a.session.number ⟨a.session.number, settings.identity⟩ t))
    (represents : t.Represents ns settings.identity (some a.session.number) r) :
    Ends Meanwhile (fun s w => s = outcome ∧
        Stands c settings ns turns ⟨false, r.items.filter fun x => !x.2.ephemeral⟩ w) w (do
      Task.change fun w => w.closeSession a.session
      Task.tell (.centerClosed a.scope.root outcome)
      return outcome) := by
  refine Task.ends_change ((aside_scene c x _).meanwhile.and (stable_serves _ _ _ t))
    ⟨scene, serves⟩ fun w ⟨scene, serves⟩ => ?_
  obtain ⟨order, hperm, hwilling, hkept⟩ := serves.closeSession
  have hstands : Stands c settings ns turns _ (w.closeSession a.session) :=
    .stopped (hkept _ (aside_scene c x _) scene) turning idle hwilling rfl
      (represents.endSession hperm)
  exact Task.ends_tell stable_stands hstands fun w h => .done ⟨rfl, h.note _⟩

theorem ends_stop (h : Stands c settings ns [] r w) :
    Ends Meanwhile (fun s w => (s = .notRunning ↔ r.stop.1 = .notRunning) ∧
      Stands c settings ns [] r.stop.2 w) w (stop c) := by
  refine ends_inTurn h fun w ticket h => ?_
  refine Task.ends_perform stable_stands h fun w h => ?_
  unfold Registry.stop
  cases h with
  | stopped scene turning idle offers off represents =>
    rw [scene.active?_eq, idle, off, if_neg Bool.false_ne_true]
    exact .done ⟨by simp, .stopped (scene.setActive none) turning rfl offers off represents⟩
  | @started x a t scene turning active scope mirrors serves on represents =>
    rw [scene.active?_eq, active, on, if_pos rfl]
    have hP := (aside_scene c { x with active := none }
      ⟨settings, .ensemble a.session.ensemble⟩).meanwhile.and
        (stable_serves a.session.ensemble a.session.number
          ⟨a.session.number, settings.identity⟩ t)
    refine Task.ends_look (w := w.setActive c none)
      (hP.and (aside_mirrors a.replica ns.root .started).meanwhile)
      ⟨⟨scene.setActive none, serves⟩, mirrors⟩ fun w ⟨hw, mirrors⟩ => ?_
    refine Ends.bind ((Replication.ends_close hP
      (fun _ _ h hw => ⟨h.1.unmoved hw, h.2.unmoved hw⟩) hw mirrors _).weaken ?_)
    rintro outcome w ⟨hran, hw⟩
    by_cases hout : outcome = .timedOut
    · rw [if_pos hout]
      refine Task.ends_tell hP hw fun w hw => ?_
      exact (ends_leave (w := w.note _) hw.1 turning rfl hw.2 represents).weaken
        fun _ _ h => ⟨by simp [h.1, hran], h.2⟩
    · rw [if_neg hout]
      exact (ends_leave hw.1 turning rfl hw.2 represents).weaken
        fun _ _ h => ⟨by simp [h.1, hran], h.2⟩

end Center

end KeyRegistry
