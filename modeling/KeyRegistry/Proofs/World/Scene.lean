import KeyRegistry.Center.Lifecycle
import KeyRegistry.Proofs.Task.Talking

/-!
# The scene of a center

What the tasks of one center rely on: the center with its connector, the ensemble
behind it, and its replica. Each move of theirs is described by what it does to
these, and by what it leaves as it is.
-/

namespace KeyRegistry

open KeyRegistry.Path

namespace Ensemble

variable {e : Ensemble} {s : Nat} {who : Caller} {t : Tree}

theorem Willing.connect (h : e.Willing t) (servers : String) (identity : Option String) :
    ∃ s, (e.connect servers identity).1 = .ok s ∧
      (e.connect servers identity).2.Serves s ⟨s, identity⟩ t := by
  have hnone : ¬0 < e.faults.failingConnects := by rw [h.connects]; exact Nat.lt_irrefl 0
  have hsession : ({ e with
      connectAttempts := e.connectAttempts + 1
      sessions := e.sessions ++ [⟨identity, .live⟩] } : Ensemble).session?
        (e.sessions.length + 1) = some ⟨identity, .live⟩ := by
    simp [session?]
  refine ⟨e.sessions.length + 1, ?_, ?_⟩
  · simp [Ensemble.connect, hnone]
  · simp only [Ensemble.connect, if_neg hnone]
    exact ⟨⟨h.tree, h.unfaulted, h.connects⟩, by simp [phase, hsession],
      by simp [caller, hsession]⟩

theorem Serves.close (h : e.Serves s who t) : ∃ order, order.Perm (t.ephemeralsOf s) ∧
    (e.close s).1 = true ∧ (e.close s).2.Willing (t.unlinkAll order).1 := by
  refine ⟨e.ephemerals s, h.tree ▸ e.ephemerals_perm s, ?_, ?_⟩
  · simp [Ensemble.close, h.live]
  · simp only [Ensemble.close, h.live]
    exact ⟨by rw [← h.tree]; rfl, h.unfaulted, h.connects⟩

end Ensemble

namespace World

variable {w w' : World} {c i k : Nat} {x : Center} {l : Connector} {t : Tree} {root : String}
  {phase : ReplicaPhase} {P : Ensemble → Prop}

def Scene (w : World) (c : Nat) (x : Center) (l : Connector) : Prop :=
  w.centers[c]? = some x ∧ w.connectors[x.connector]? = some l

def Mirrors (w : World) (i : Nat) (root : String) (phase : ReplicaPhase) : Prop :=
  ∃ m, w.replicas[i]? = some m ∧ m.root = root ∧ m.phase = phase

/-- The tree that a session over the connector would find. An undecided connector gets
an ensemble of its own. -/
def Offers (w : World) (l : Connector) (t : Tree) : Prop :=
  match l.backend with
  | .undecided => Settings.usesMemory l.settings.serverLists = true ∧ t = .empty
  | .ensemble k => w.Holds k (·.Willing t)

/-! ## What stays by itself -/

theorem aside_scene (c : Nat) (x : Center) (l : Connector) : Aside fun w => w.Scene c x l where
  meanwhile _ _ h hw := ⟨by rw [hw.centers]; exact h.1, by rw [hw.connectors]; exact h.2⟩
  note _ h := h
  setEnsemble _ _ h := h

theorem aside_mirrors (i : Nat) (root : String) (phase : ReplicaPhase) :
    Aside fun w => w.Mirrors i root phase where
  meanwhile := by
    rintro w w' ⟨m, hm, hroot, hphase⟩ hw
    obtain ⟨m', hm', hroot', hphase'⟩ := hw.replica hm
    exact ⟨m', hm', hroot'.trans hroot, hphase'.trans hphase⟩
  note _ h := h
  setEnsemble _ _ h := h

theorem Aside.and {P Q : World → Prop} (hP : Aside P) (hQ : Aside Q) :
    Aside fun w => P w ∧ Q w where
  meanwhile := hP.meanwhile.and hQ.meanwhile
  note n h := ⟨hP.note n h.1, hQ.note n h.2⟩
  setEnsemble k e h := ⟨hP.setEnsemble k e h.1, hQ.setEnsemble k e h.2⟩

theorem stable_offers (l : Connector) (t : Tree) :
    Task.Stable Meanwhile fun w => w.Offers l t := by
  intro w w' h hw
  unfold Offers at h ⊢
  split at h
  · exact h
  · exact stable_willing _ t w w' h hw

/-! ## Moves of replicas -/

structure Unmoved (w w' : World) : Prop where
  ensembles : w'.ensembles = w.ensembles
  centers : w'.centers = w.centers
  connectors : w'.connectors = w.connectors

theorem Scene.unmoved (h : w.Scene c x l) (hw : w.Unmoved w') : w'.Scene c x l := by
  unfold Scene
  rw [hw.centers, hw.connectors]
  exact h

theorem Holds.unmoved (h : w.Holds k P) (hw : w.Unmoved w') : w'.Holds k P := by
  unfold Holds
  rw [hw.ensembles]
  exact h

theorem mirrors_addReplica (w : World) (root : String) :
    (w.addReplica root).2.Mirrors (w.addReplica root).1 root .latent :=
  ⟨{ root := root }, by simp [addReplica], rfl, rfl⟩

theorem unmoved_addReplica (w : World) (root : String) : w.Unmoved (w.addReplica root).2 :=
  ⟨rfl, rfl, rfl⟩

theorem Mirrors.phase_eq (h : w.Mirrors i root phase) : w.replicaPhase i = phase := by
  obtain ⟨m, hm, -, hphase⟩ := h
  simp [replicaPhase, replica?, hm, hphase]

theorem Mirrors.root_eq (h : w.Mirrors i root phase) :
    ((w.replica? i).map Replica.root).getD Path.root = root := by
  obtain ⟨m, hm, hroot, -⟩ := h
  simp [replica?, hm, hroot]

theorem Mirrors.modify (h : w.Mirrors i root phase) {f : Replica → Replica}
    {phase' : ReplicaPhase} (hroot : ∀ m, (f m).root = m.root)
    (hphase : ∀ m, (f m).phase = phase') : (w.modifyReplica i f).Mirrors i root phase' := by
  obtain ⟨m, hm, hm', -⟩ := h
  exact ⟨f m, (List.getElem?_modify_eq ..).trans (congrArg _ hm), (hroot m).trans hm', hphase m⟩

theorem Mirrors.spawn (h : w.Mirrors i root .latent) (s : SessionId) (watch : Nat) :
    (w.spawn i s watch).1 = true ∧ (w.spawn i s watch).2.Mirrors i root .started ∧
      w.Unmoved (w.spawn i s watch).2 := by
  have hmirrors := h
  obtain ⟨m, hm, -, hphase⟩ := h
  simp only [World.spawn, show w.replica? i = some m from hm, hphase]
  exact ⟨rfl, hmirrors.modify (fun _ => rfl) fun _ => rfl, rfl, rfl, rfl⟩

theorem Mirrors.requestStop (h : w.Mirrors i root .started) :
    (w.requestStop i).1 = true ∧ (w.requestStop i).2.Mirrors i root .closed ∧
      w.Unmoved (w.requestStop i).2 := by
  refine ⟨by simp [World.requestStop, h.phase_eq], ?_, rfl, rfl, rfl⟩
  exact h.modify (fun _ => rfl) fun _ => rfl

theorem Mirrors.finishStop (h : w.Mirrors i root phase) (timeoutMs : Nat) (ended : Bool) :
    (w.finishStop i timeoutMs ended).1 ≠ .notRunning ∧
      w.Unmoved (w.finishStop i timeoutMs ended).2 := by
  obtain ⟨m, hm, -⟩ := h
  simp only [World.finishStop, replica?, hm]
  cases ended <;> exact ⟨by simp, rfl, rfl, rfl⟩

/-! ## Moves of the center -/

theorem Scene.modifyCenter (h : w.Scene c x l) {f : Center → Center}
    (hf : (f x).connector = x.connector) : (w.modifyCenter c f).Scene c (f x) l :=
  ⟨(List.getElem?_modify_eq ..).trans (congrArg _ h.1), by rw [hf]; exact h.2⟩

theorem Scene.setActive (h : w.Scene c x l) (active : Option Active) :
    (w.setActive c active).Scene c { x with active := active } l :=
  h.modifyCenter rfl

theorem Scene.drawTicket (h : w.Scene c x l) :
    (w.drawTicket c).1 = x.nextTicket ∧ (w.drawTicket c).2.Scene c
      { x with turns := x.turns ++ [x.nextTicket], nextTicket := x.nextTicket + 1 } l :=
  ⟨by simp [World.drawTicket, center?, h.1], h.modifyCenter rfl⟩

theorem Scene.passTurn (h : w.Scene c x l) :
    (w.passTurn c).Scene c { x with turns := x.turns.tail } l :=
  h.modifyCenter rfl

theorem Scene.hasTurn (h : w.Scene c x l) {ticket : Nat} (hhead : x.turns.head? = some ticket) :
    w.hasTurn c ticket = true := by
  simp [World.hasTurn, center?, h.1, hhead]

theorem Scene.center?_eq (h : w.Scene c x l) : w.center? c = some x := h.1

theorem Scene.active?_eq (h : w.Scene c x l) : w.active? c = x.active := by
  simp [World.active?, h.center?_eq]

theorem Scene.settings_eq (h : w.Scene c x l) : w.settings c = l.settings := by
  simp [World.settings, h.center?_eq, h.2]

/-! ## Sessions of the center -/

theorem resolve_of_ensemble {settings : Settings}
    (h : w.connectors[i]? = some ⟨settings, .ensemble k⟩) : w.resolve i = (.ok k, w) := by
  simp only [World.resolve, h]

/-- An undecided connector to memory is settled on an ensemble that is new. -/
theorem resolve_of_undecided {settings : Settings}
    (h : w.connectors[i]? = some ⟨settings, .undecided⟩)
    (hmemory : Settings.usesMemory settings.serverLists = true) : ∃ k,
    (w.resolve i).1 = .ok k ∧ (w.resolve i).2.ensembles[k]? = some {} ∧
    (w.resolve i).2.connectors[i]? = some ⟨settings, .ensemble k⟩ ∧
    (w.resolve i).2.centers = w.centers := by
  obtain ⟨hlt, -⟩ := List.getElem?_eq_some_iff.1 h
  have heq : w.resolve i = (.ok w.ensembles.length, { w with
      ensembles := w.ensembles ++ [{}]
      connectors := w.connectors.set i ⟨settings, .ensemble w.ensembles.length⟩ }) := by
    simp only [World.resolve, h, hmemory, if_true]
  rw [heq]
  exact ⟨_, rfl, List.getElem?_concat_length .., List.getElem?_set_self hlt, rfl⟩

theorem Scene.resolve (h : w.Scene c x l) (ho : w.Offers l t) : ∃ k,
    (w.resolve x.connector).1 = .ok k ∧
    (w.resolve x.connector).2.Scene c x { l with backend := .ensemble k } ∧
    (w.resolve x.connector).2.Holds k (·.Willing t) := by
  obtain ⟨settings, backend⟩ := l
  cases backend with
  | ensemble k =>
    rw [resolve_of_ensemble h.2]
    exact ⟨k, rfl, h, ho⟩
  | undecided =>
    obtain ⟨hmemory, rfl⟩ := ho
    obtain ⟨k, hk, hensemble, hconnector, hcenters⟩ := resolve_of_undecided h.2 hmemory
    refine ⟨k, hk, ⟨?_, hconnector⟩, {}, hensemble, rfl, rfl, rfl⟩
    rw [hcenters]
    exact h.1

section Connecting

variable {e : Ensemble} {servers : String} {identity : Option String}
  (hk : w.ensembles[k]? = some e)

include hk

theorem connect_of_ok {s : Nat} (h : (e.connect servers identity).1 = .ok s) :
    w.connect k servers identity = (.ok ⟨k, s⟩,
      (w.setEnsemble k (e.connect servers identity).2).note (.sessionOpened s)) := by
  unfold World.connect
  rw [show w.ensemble k = e by simp [ensemble, hk]]
  split <;> simp_all

theorem connect_of_error {error : ServiceError}
    (h : (e.connect servers identity).1 = .error error) :
    w.connect k servers identity =
      (.error error, w.setEnsemble k (e.connect servers identity).2) := by
  unfold World.connect
  rw [show w.ensemble k = e by simp [ensemble, hk]]
  split <;> simp_all

end Connecting

theorem Holds.connect (h : w.Holds k (·.Willing t)) (servers : String)
    (identity : Option String) : ∃ s, (w.connect k servers identity).1 = .ok ⟨k, s⟩ ∧
      (w.connect k servers identity).2.Holds k (·.Serves s ⟨s, identity⟩ t) ∧
      ∀ R, Aside R → R w → R (w.connect k servers identity).2 := by
  obtain ⟨e, hk, he⟩ := h
  obtain ⟨s, hs, hserves⟩ := he.connect servers identity
  rw [connect_of_ok hk hs]
  exact ⟨s, rfl, holds_setEnsemble hk hserves, fun R hR hw => hR.note _ (hR.setEnsemble _ _ hw)⟩

theorem Holds.closeSession {s : SessionId} {who : Caller}
    (h : w.Holds s.ensemble (·.Serves s.number who t)) : ∃ order,
      order.Perm (t.ephemeralsOf s.number) ∧
      (w.closeSession s).Holds s.ensemble (·.Willing (t.unlinkAll order).1) ∧
      ∀ R, Aside R → R w → R (w.closeSession s) := by
  obtain ⟨e, hk, he⟩ := h
  obtain ⟨order, hperm, hclosed, hwilling⟩ := he.close
  have heq : w.closeSession s =
      (w.setEnsemble s.ensemble (e.close s.number).2).note (.sessionClosed s.number) := by
    unfold World.closeSession
    rw [show w.ensemble s.ensemble = e by simp [ensemble, hk]]
    split <;> simp_all
  rw [heq]
  exact ⟨order, hperm, holds_setEnsemble hk hwilling,
    fun R hR hw => hR.note _ (hR.setEnsemble _ _ hw)⟩

end World

end KeyRegistry
