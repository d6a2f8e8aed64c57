import KeyRegistry.Proofs.Settings.Alike
import KeyRegistry.Task
import Mathlib.Data.List.Forall2

/-!
# Worlds that are alike

Two worlds are alike if they differ at most in the secrets of their connectors, in their
journals and in their tallies. A `Kinship` says which of these differences are meant.
Whatever is done to both worlds in the same way comes to the same and leaves them alike.
-/

namespace KeyRegistry

/-! ## Lists that go together -/

section Forall₂

variable {α β : Type*} {R : α → β → Prop} {as : List α} {bs : List β}

theorem forall₂_getElem? (h : List.Forall₂ R as bs) (i : Nat) :
    (as[i]? = none ∧ bs[i]? = none) ∨ ∃ a b, as[i]? = some a ∧ bs[i]? = some b ∧ R a b := by
  induction h generalizing i with
  | nil => exact .inl ⟨rfl, rfl⟩
  | @cons a b _ _ hab _ ih =>
    cases i with
    | zero => exact .inr ⟨a, b, rfl, rfl, hab⟩
    | succ i => exact ih i

theorem forall₂_set (h : List.Forall₂ R as bs) (i : Nat) {a : α} {b : β} (hab : R a b) :
    List.Forall₂ R (as.set i a) (bs.set i b) := by
  induction h generalizing i with
  | nil => exact .nil
  | cons hab' hrest ih =>
    cases i with
    | zero => exact .cons hab hrest
    | succ i => exact .cons hab' (ih i)

theorem forall₂_concat (h : List.Forall₂ R as bs) {a : α} {b : β} (hab : R a b) :
    List.Forall₂ R (as ++ [a]) (bs ++ [b]) := by
  induction h with
  | nil => exact .cons hab .nil
  | cons hab' _ ih => exact .cons hab' ih

end Forall₂

/-- Which differences between two worlds are meant. The pairs of tallies that go together are told
by a mark, which stays as long as nothing is tallied. -/
structure Kinship where
  settings : Settings → Settings → Prop
  journal : List Notice → List Notice → Prop
  Mark : Type
  tallies : Mark → List Tally → List Tally → Prop
  alike {s s' : Settings} : settings s s' → s.Alike s'
  noted {j j' : List Notice} (ns : List Notice) : journal j j' → journal (j ++ ns) (j' ++ ns)

def Connector.Akin (K : Kinship) (a b : Connector) : Prop :=
  K.settings a.settings b.settings ∧ a.backend = b.backend

namespace World

structure Like (K : Kinship) (m : K.Mark) (w v : World) : Prop where
  now : w.now = v.now
  ensembles : w.ensembles = v.ensembles
  replicas : w.replicas = v.replicas
  centers : w.centers = v.centers
  files : w.files = v.files
  queue : w.queue = v.queue
  sleepers : w.sleepers = v.sleepers
  connectors : List.Forall₂ (Connector.Akin K) w.connectors v.connectors
  journal : K.journal w.journal v.journal
  tallies : K.tallies m w.tallies v.tallies

namespace Like

variable {K : Kinship} {m : K.Mark} {w v : World} (h : Like K m w v)

theorem self (w : World) (hsettings : ∀ s, K.settings s s)
    (hjournal : K.journal w.journal w.journal) (htallies : K.tallies m w.tallies w.tallies) :
    Like K m w w :=
  ⟨rfl, rfl, rfl, rfl, rfl, rfl, rfl, List.forall₂_same.2 fun x _ => ⟨hsettings x.settings, rfl⟩,
    hjournal, htallies⟩

include h

/-- All else is equal. -/
theorem eq_with : w =
    { v with connectors := w.connectors, tallies := w.tallies, journal := w.journal } := by
  rw [← h.now, ← h.ensembles, ← h.replicas, ← h.centers, ← h.files, ← h.queue, ← h.sleepers]

/-! ## What is seen -/

theorem ensemble_eq (k : Nat) : w.ensemble k = v.ensemble k := by
  rw [ensemble, ensemble, h.ensembles]

theorem replica?_eq (i : Nat) : w.replica? i = v.replica? i := by
  rw [replica?, replica?, h.replicas]

theorem replicaPhase_eq (i : Nat) : w.replicaPhase i = v.replicaPhase i := by
  rw [replicaPhase, replicaPhase, h.replica?_eq]

theorem center?_eq (c : Nat) : w.center? c = v.center? c := by
  rw [center?, center?, h.centers]

theorem active?_eq (c : Nat) : w.active? c = v.active? c := by
  rw [active?, active?, h.center?_eq]

theorem seedFile_eq (c : Nat) : w.seedFile c = v.seedFile c := by
  funext name
  rw [seedFile, seedFile, h.center?_eq, placedFile, placedFile, h.files]

theorem shows_eq (signal : Signal) : w.shows signal = v.shows signal := by
  cases signal with
  | workerEnded i => rw [shows, shows, h.replica?_eq]
  | replicaFilled i => rw [shows, shows, h.replica?_eq]
  | turnOf c ticket => rw [shows, shows, hasTurn, hasTurn, h.center?_eq]

/-- The settings of a connector, or those that stand for missing ones. -/
theorem connector_alike (i : Nat) : (((w.connectors[i]?).map Connector.settings).getD {}).Alike
    (((v.connectors[i]?).map Connector.settings).getD {}) := by
  rcases forall₂_getElem? h.connectors i with ⟨ha, hb⟩ | ⟨a, b, ha, hb, hakin⟩ <;> rw [ha, hb]
  · exact .same _
  · exact K.alike hakin.1

theorem settings_alike (c : Nat) : (w.settings c).Alike (v.settings c) := by
  rw [settings, settings, h.center?_eq]
  cases v.center? c with
  | none => exact .same _
  | some x => exact h.connector_alike x.connector

/-! ## What is done -/

theorem setEnsemble (k : Nat) (e : Ensemble) : Like K m (w.setEnsemble k e) (v.setEnsemble k e) :=
  { h with ensembles := by rw [World.setEnsemble, World.setEnsemble, h.ensembles] }

theorem modifyReplica (i : Nat) (f : Replica → Replica) :
    Like K m (w.modifyReplica i f) (v.modifyReplica i f) :=
  { h with replicas := by rw [World.modifyReplica, World.modifyReplica, h.replicas] }

theorem modifyCenter (c : Nat) (f : Center → Center) :
    Like K m (w.modifyCenter c f) (v.modifyCenter c f) :=
  { h with centers := by rw [World.modifyCenter, World.modifyCenter, h.centers] }

theorem noteAll (ns : List Notice) : Like K m (w.noteAll ns) (v.noteAll ns) :=
  { h with journal := K.noted ns h.journal }

theorem note (n : Notice) : Like K m (w.note n) (v.note n) := h.noteAll [n]

theorem placeFile (name : String) (bytes : List UInt8) :
    Like K m (w.placeFile name bytes) (v.placeFile name bytes) :=
  { h with files := by rw [World.placeFile, World.placeFile, h.files] }

theorem atTime (now : Nat) : Like K m { w with now := now } { v with now := now } :=
  { h with now := rfl }

theorem later (ms : Nat) : Like K m { w with now := w.now + ms } { v with now := v.now + ms } := by
  rw [h.now]
  exact h.atTime _

theorem accept (s : SessionId) :
    (∃ error, w.accept s = .error error ∧ v.accept s = .error error) ∨
    ∃ hold w' v', w.accept s = .ok (hold, w') ∧ v.accept s = .ok (hold, v') ∧ Like K m w' v' := by
  unfold World.accept
  rw [h.ensemble_eq, h.now]
  cases (v.ensemble s.ensemble).accept v.now s.number with
  | error error => exact .inl ⟨error, rfl, rfl⟩
  | ok r => exact .inr ⟨r.1, _, _, rfl, rfl, h.setEnsemble _ _⟩

theorem complete (s : SessionId) (fault : Option ServiceError) (r : Request) :
    (w.complete s fault r).1 = (v.complete s fault r).1 ∧
      Like K m (w.complete s fault r).2 (v.complete s fault r).2 := by
  unfold World.complete
  rw [h.ensemble_eq]
  exact ⟨rfl, h.setEnsemble _ _⟩

theorem connect (k : Nat) (servers : String) (identity : Option String) :
    (w.connect k servers identity).1 = (v.connect k servers identity).1 ∧
      Like K m (w.connect k servers identity).2 (v.connect k servers identity).2 := by
  unfold World.connect
  rw [h.ensemble_eq]
  rcases (v.ensemble k).connect servers identity with ⟨error | id, e⟩
  · exact ⟨rfl, h.setEnsemble _ _⟩
  · exact ⟨rfl, (h.setEnsemble _ _).note _⟩

theorem closeSession (s : SessionId) : Like K m (w.closeSession s) (v.closeSession s) := by
  unfold World.closeSession
  rw [h.ensemble_eq]
  rcases (v.ensemble s.ensemble).close s.number with ⟨_ | _, e⟩
  · exact h
  · exact (h.setEnsemble _ _).note _

theorem expireSession (s : SessionId) :
    (w.expireSession s).1 = (v.expireSession s).1 ∧
      Like K m (w.expireSession s).2 (v.expireSession s).2 := by
  unfold World.expireSession
  rw [h.ensemble_eq]
  rcases (v.ensemble s.ensemble).expire s.number with ⟨_ | _, e⟩
  · exact ⟨rfl, h⟩
  · exact ⟨rfl, (h.setEnsemble _ _).note _⟩

theorem addReplica (root : String) : (w.addReplica root).1 = (v.addReplica root).1 ∧
    Like K m (w.addReplica root).2 (v.addReplica root).2 := by
  unfold World.addReplica
  rw [h.replicas]
  exact ⟨rfl, { h with replicas := rfl }⟩

theorem spawn (i : Nat) (s : SessionId) (watch : Nat) :
    (w.spawn i s watch).1 = (v.spawn i s watch).1 ∧
      Like K m (w.spawn i s watch).2 (v.spawn i s watch).2 := by
  unfold World.spawn
  rw [h.replica?_eq, h.ensemble_eq]
  cases v.replica? i with
  | none => exact ⟨rfl, h⟩
  | some r =>
    dsimp only
    split_ifs
    · exact ⟨rfl, (h.modifyReplica _ _).note _⟩
    · exact ⟨rfl, h.setEnsemble _ _⟩

theorem requestStop (i : Nat) : (w.requestStop i).1 = (v.requestStop i).1 ∧
    Like K m (w.requestStop i).2 (v.requestStop i).2 := by
  unfold World.requestStop
  rw [h.replicaPhase_eq]
  exact ⟨rfl, h.modifyReplica _ _⟩

theorem finishStop (i ms : Nat) (ended : Bool) :
    (w.finishStop i ms ended).1 = (v.finishStop i ms ended).1 ∧
      Like K m (w.finishStop i ms ended).2 (v.finishStop i ms ended).2 := by
  unfold World.finishStop
  rw [h.replica?_eq]
  cases v.replica? i with
  | none => exact ⟨rfl, h⟩
  | some r =>
    cases ended with
    | true => exact ⟨rfl, (h.modifyReplica _ _).note _⟩
    | false => exact ⟨rfl, (((h.modifyReplica _ _).note _).modifyReplica _ _).note _⟩

theorem setActive (c : Nat) (a : Option Active) :
    Like K m (w.setActive c a) (v.setActive c a) :=
  h.modifyCenter c _

theorem addCenter (x : Center) :
    Like K m { w with centers := w.centers ++ [x] } { v with centers := v.centers ++ [x] } :=
  { h with centers := congrArg (· ++ [x]) h.centers }

theorem drawTicket (c : Nat) : (w.drawTicket c).1 = (v.drawTicket c).1 ∧
    Like K m (w.drawTicket c).2 (v.drawTicket c).2 := by
  unfold World.drawTicket
  rw [h.center?_eq]
  exact ⟨rfl, h.modifyCenter _ _⟩

theorem passTurn (c : Nat) : Like K m (w.passTurn c) (v.passTurn c) := h.modifyCenter c _

theorem resolve (i : Nat) : (w.resolve i).1 = (v.resolve i).1 ∧
    Like K m (w.resolve i).2 (v.resolve i).2 := by
  unfold World.resolve
  rcases forall₂_getElem? h.connectors i with ⟨ha, hb⟩ | ⟨a, b, ha, hb, hakin⟩ <;> rw [ha, hb]
  · exact ⟨rfl, h⟩
  · have hservers := (K.alike hakin.1).serverLists_eq
    dsimp only
    rw [hakin.2, hservers, h.ensembles]
    cases b.backend with
    | ensemble k => exact ⟨rfl, h⟩
    | undecided =>
      dsimp only
      split_ifs
      · exact ⟨rfl, { h with
          ensembles := rfl
          connectors := forall₂_set h.connectors i ⟨hakin.1, rfl⟩ }⟩
      · exact ⟨rfl, h⟩

theorem noteSleeper (i : Nat) (r : Replica) : Like K m (w.noteSleeper i r) (v.noteSleeper i r) :=
  { h with sleepers := by rw [World.noteSleeper, World.noteSleeper, h.sleepers] }

/-- A worker does the same in worlds that are alike. -/
theorem runWorker (moves i : Nat) : Like K m (w.runWorker moves i) (v.runWorker moves i) := by
  unfold World.runWorker
  rw [h.replica?_eq]
  cases v.replica? i with
  | none => exact h
  | some r =>
    dsimp only
    cases r.worker with
    | none => exact h
    | some worker =>
      dsimp only
      rw [h.now, h.ensemble_eq]
      let shift := Replica.run v.now moves Replica.turnEffort ⟨r, v.ensemble worker.ensemble, []⟩
      have hmoved := (h.modifyReplica i fun _ => shift.replica).setEnsemble worker.ensemble
        shift.ensemble
      exact (hmoved.noteAll shift.notices).noteSleeper i shift.replica

/-! ## Workers in line -/

theorem workerMove?_eq (i : Nat) : w.workerMove? i = v.workerMove? i := by
  simp only [workerMove?, h.replica?_eq, h.now, h.ensemble_eq]

theorem workerPlace_eq (i : Nat) : w.workerPlace i = v.workerPlace i := by
  simp only [workerPlace, h.sleepers, h.replica?_eq, h.ensemble_eq]

theorem ready_eq : w.ready = v.ready := by
  simp only [ready, h.replicas, h.workerMove?_eq, h.workerPlace_eq]

theorem rouse : Like K m w.rouse v.rouse :=
  { h with queue := by rw [World.rouse, World.rouse, h.queue, h.ready_eq] }

omit h in
theorem runWorkers (moves : Nat) {w v : World} (h : Like K m w v) :
    Like K m (w.runWorkers moves) (v.runWorkers moves) := by
  induction moves generalizing w v with
  | zero => exact h
  | succ moves ih =>
    rw [World.runWorkers, World.runWorkers, h.queue]
    cases v.queue with
    | nil => exact h
    | cons i rest =>
      have hrest : Like K m { w with queue := rest } { v with queue := rest } :=
        { h with queue := rfl }
      exact ih (hrest.runWorker moves i).rouse

end Like

end World

end KeyRegistry
