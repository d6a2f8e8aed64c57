import KeyRegistry.Proofs.Center.Twins
import KeyRegistry.Scenario.Tasks

/-!
# The tasks of commands are twins

Commands that differ at most in a secret do the same in worlds that differ in the secrets
of their connectors alone.
-/

namespace KeyRegistry

open KeyRegistry.Task (Twin)

def secrecy : Kinship where
  settings := Settings.Alike
  journal := Eq
  Mark := Unit
  tallies _ := Eq
  alike h := h
  noted _ h := h ▸ rfl

namespace World.Like

variable {m : secrecy.Mark} {w v : World} (h : Like secrecy m w v)

include h

theorem tallies_eq : w.tallies = v.tallies := h.tallies

theorem absorb (i : Nat) (operation key : String) (e : RegistryError) :
    Like secrecy m (w.absorb i operation key e) (v.absorb i operation key e) := by
  have hcounted (f : Tally → Tally) : Like secrecy m
      { w with tallies := w.tallies.modify i f } { v with tallies := v.tallies.modify i f } :=
    { h with tallies := congrArg (List.modify · i f) h.tallies_eq }
  exact (hcounted _).note _

theorem addConnector {s s' : Settings} (hs : s.Alike s') (backend : Backend) :
    Like secrecy m { w with connectors := w.connectors ++ [⟨s, backend⟩] }
      { v with connectors := v.connectors ++ [⟨s', backend⟩] } :=
  { h with connectors := forall₂_concat h.connectors ⟨hs, rfl⟩ }

theorem addTally : Like secrecy m { w with tallies := w.tallies ++ [{}] }
    { v with tallies := v.tallies ++ [{}] } :=
  { h with tallies := congrArg (· ++ [({} : Tally)]) h.tallies_eq }

end World.Like

/-! ## Lenient centers -/

namespace LenientCenter

variable {α β : Type}

theorem twin_absorb (l : LenientCenter) (operation key : String) (sentinel : β) (f : α → β)
    {t : Task (Except RegistryError α)} (ht : Twin secrecy Eq t t) :
    Twin secrecy Eq (l.absorb operation key sentinel f t)
      (l.absorb operation key sentinel f t) := by
  refine ht.andThen fun r => ?_
  rcases r with e | a
  · exact (Task.twin_change fun m w v hw => hw.absorb ..).andThen fun _ => .done rfl
  · exact .done rfl

theorem twin_start (l : LenientCenter) (draws : Nat → Nat) :
    Twin secrecy Eq (l.start draws) (l.start draws) := by
  refine (Center.twin_start l.center draws).andThen fun r => ?_
  rcases r with e | _
  · dsimp only
    split_ifs
    · exact .done rfl
    · refine Twin.andThen (Task.twin_change fun m w v hw => ?_) fun _ => .done rfl
      rw [(hw.settings_alike l.center).serverLists_eq]
      exact hw.absorb ..
  · exact .done rfl

theorem twin_stop (l : LenientCenter) : Twin secrecy Eq l.stop l.stop :=
  (Center.twin_stop l.center).andThen fun _ => .done rfl

theorem twin_clearInterrupted (l : LenientCenter) :
    Twin secrecy Eq l.clearInterrupted l.clearInterrupted := by
  refine Task.twin_perform fun m w v hw => ?_
  rw [hw.tallies_eq]
  exact ⟨rfl, { hw with tallies := rfl }⟩

end LenientCenter

/-! ## Commands -/

namespace Scenario

variable {K : Kinship}

theorem twin_answered (a : Answer) : Twin K Eq (answered a) (answered a) := .done rfl

theorem twin_instantly {f : World → World} (a : Answer)
    (h : ∀ (m : K.Mark) w v, World.Like K m w v → World.Like K m (f w) (f v)) :
    Twin K Eq (instantly f a) (instantly f a) :=
  (Task.twin_change h).andThen fun _ => twin_answered a

theorem twin_changeShared (f : Ensemble → Ensemble) :
    Twin K Eq (changeShared f) (changeShared f) :=
  twin_instantly _ fun m w v hw => by
    rw [hw.ensemble_eq]
    exact hw.setEnsemble _ _

theorem twin_session (s : SessionId) (c : SessionCommand) : Twin K Eq (c.task s) (c.task s) := by
  cases c with
  | request r => exact (Task.twin_say s _).andThen fun _ => twin_answered _
  | watch root name =>
    refine (Task.twin_say s _).andThen fun registered => ?_
    rcases registered with error | watch <;> exact .done rfl
  | close => exact twin_instantly _ fun m w v hw => hw.closeSession s
  | number => exact .done rfl
  | applySeed namespaceName source bytes overwrite =>
    refine (Task.twin_change fun m w v hw => hw.placeFile _ _).andThen fun _ => ?_
    rcases Seed.ofBytes source bytes with error | seed
    · exact .done rfl
    refine (Task.twin_tell _).andThen fun _ => ?_
    rcases Namespace.ofName namespaceName with fault | ns
    · exact .done rfl
    · exact (Task.twin_say s _).andThen fun _ => twin_answered _
  | _ => exact (Task.twin_say s _).andThen fun _ => twin_answered _

theorem twin_replica (names : Names) (i : Nat) (c : ReplicaCommand) :
    Twin K Eq (c.task names i) (c.task names i) := by
  cases c with
  | start session =>
    rw [ReplicaCommand.task]
    cases names.sessions.lookup session with
    | none => exact .done rfl
    | some s => exact (Replication.twin_start i s).andThen fun _ => twin_answered _
  | close ms => exact (Replication.twin_close i ms).andThen fun _ => twin_answered _
  | await ms => exact (Task.twin_awaitSignal _ _).andThen fun _ => twin_answered _
  | describe =>
    refine Twin.andThen (Task.twin_look fun m w v hw => hw.replica?_eq i) fun found => ?_
    cases found <;> exact .done rfl
  | _ =>
    exact Twin.andThen (Task.twin_look fun m w v hw => by rw [hw.replica?_eq]) fun _ =>
      twin_answered _

theorem twin_strict (c : Nat) (cmd : CenterCommand) :
    Twin K Eq (cmd.strictTask c) (cmd.strictTask c) := by
  cases cmd with
  | start => exact (Center.twin_start c leastDraw).andThen fun _ => twin_answered _
  | stop => exact (Center.twin_stop c).andThen fun _ => twin_answered _
  | isStarted =>
    exact Twin.andThen (Task.twin_look fun m w v hw => by rw [hw.active?_eq]) fun _ =>
      twin_answered _
  | get key => exact (Center.twin_get c key).andThen fun _ => twin_answered _
  | time key => exact (Center.twin_time c key).andThen fun _ => twin_answered _
  | sessionHandle name =>
    refine Twin.andThen (Task.twin_look fun m w v hw => by
      rw [Center.sessionHandle, Center.sessionHandle, hw.active?_eq]) fun found => ?_
    cases found <;> exact .done rfl
  | replicaHandle name =>
    refine Twin.andThen (Task.twin_look fun m w v hw => by
      rw [Center.replicaHandle, Center.replicaHandle, hw.active?_eq]) fun found => ?_
    cases found <;> exact .done rfl
  | clearInterrupted => exact .done rfl
  | _ => exact Twin.andThen (Center.twin_onKey _ _) fun _ => twin_answered _

theorem twin_lenient (l : LenientCenter) (cmd : CenterCommand) :
    Twin secrecy Eq (cmd.lenientTask l) (cmd.lenientTask l) := by
  cases cmd with
  | start => exact (l.twin_start leastDraw).andThen fun _ => twin_answered _
  | stop => exact l.twin_stop.andThen fun _ => twin_answered _
  | get key =>
    exact (l.twin_absorb _ _ _ _ (Center.twin_get l.center key)).andThen fun _ => twin_answered _
  | time key =>
    exact (l.twin_absorb _ _ _ _ (Center.twin_time l.center key)).andThen fun _ => twin_answered _
  | clearInterrupted => exact l.twin_clearInterrupted.andThen fun _ => twin_answered _
  | isStarted => exact twin_strict l.center .isStarted
  | sessionHandle name => exact twin_strict l.center (.sessionHandle name)
  | replicaHandle name => exact twin_strict l.center (.replicaHandle name)
  | persistSequential key value => exact twin_strict l.center (.persistSequential key value)
  | _ =>
    exact Twin.andThen (l.twin_absorb _ _ _ _ (Center.twin_onKey _ _)) fun _ => twin_answered _

theorem twin_center (target : Nat ⊕ LenientCenter) (cmd : CenterCommand) :
    Twin secrecy Eq (cmd.task target) (cmd.task target) := by
  rcases target with c | l
  · exact twin_strict c cmd
  · refine (twin_lenient l cmd).andThen fun result => ?_
    exact Twin.andThen (Task.twin_look fun m w v hw => by rw [hw.tallies_eq]) fun _ => .done rfl

theorem twin_handle (h : SessionHandle) (c : HandleCommand) :
    Twin K Eq (c.task h) (c.task h) := by
  cases c <;> exact Twin.andThen (Center.twin_handle h _ _) fun _ => twin_answered _

theorem twin_view (h : ReplicaHandle) (c : ViewCommand) : Twin K Eq (c.task h) (c.task h) := by
  cases c with
  | entry key =>
    refine Twin.andThen (Task.twin_look fun m w v hw => ?_) fun _ => twin_answered _
    rw [ReplicaHandle.entry, ReplicaHandle.entry, hw.replica?_eq]
  | children key =>
    refine Twin.andThen (Task.twin_look fun m w v hw => ?_) fun _ => twin_answered _
    rw [ReplicaHandle.children, ReplicaHandle.children, hw.replica?_eq]
  | initialized =>
    exact Twin.andThen (Task.twin_look fun m w v hw => by rw [hw.replica?_eq]) fun _ =>
      twin_answered _
  | await ms => exact (Task.twin_awaitSignal _ _).andThen fun _ => twin_answered _

/-! ## Settings in commands -/

section Making

variable {s s' : Settings} (hs : s.Alike s')

include hs

theorem twin_addConnector (undecided : Bool) :
    Twin secrecy Eq (addConnector s undecided) (addConnector s' undecided) :=
  Task.twin_perform fun _ _ _ hw => ⟨hw.connectors.length_eq, hw.addConnector hs _⟩

theorem twin_makeCenter (name : String) (seed : Option (List UInt8)) (lenient undecided : Bool) :
    Twin secrecy Eq (makeCenter name s seed lenient undecided)
      (makeCenter name s' seed lenient undecided) := by
  unfold makeCenter
  rw [hs.seedFile_eq]
  cases seed <;> cases s'.seedFile
  case' some.some => refine (Task.twin_change fun m w v hw => hw.placeFile _ _).andThen fun _ => ?_
  all_goals
    refine (twin_addConnector hs undecided).andThen fun connector => ?_
    refine Twin.andThen (Task.twin_perform fun _ _ _ hw =>
      ⟨congrArg List.length hw.centers, hw.addCenter _⟩) fun c => ?_
    split_ifs
    · exact Twin.andThen (Task.twin_perform fun _ _ _ hw =>
        ⟨congrArg List.length hw.tallies_eq, hw.addTally⟩) fun _ => .done rfl
    · exact .done rfl

end Making

inductive Command.Alike : Command → Command → Prop
  | same (c : Command) : Alike c c
  | newCenter (name : String) {s s' : Settings} (hs : s.Alike s') (seed : Option (List UInt8))
      (lenient undecided : Bool) :
      Alike (.newCenter name s seed lenient undecided) (.newCenter name s' seed lenient undecided)
  | newConnector (name : String) {s s' : Settings} (hs : s.Alike s') (undecided : Bool) :
      Alike (.newConnector name s undecided) (.newConnector name s' undecided)
  | connect (name servers : String) {s s' : Settings} (hs : s.Alike s') (undecided : Bool) :
      Alike (.connect name servers s.credentials undecided)
        (.connect name servers s'.credentials undecided)

theorem twin_onNamed {α : Type} (table : List (String × α)) (name : String) {t : α → Task Result}
    (ht : ∀ a, Twin K Eq (t a) (t a)) :
    Twin K Eq (onNamed table name t) (onNamed table name t) := by
  unfold onNamed
  cases table.lookup name with
  | none => exact .done rfl
  | some a => exact ht a

theorem twin_connect (names : Names) (name servers : String) {s s' : Option Credentials}
    (h : s.map Credentials.identity = s'.map Credentials.identity) (undecided : Bool) :
    Twin K Eq ((Command.connect name servers s undecided).task names)
      ((Command.connect name servers s' undecided).task names) := by
  rw [Command.task, Command.task]
  split_ifs
  · exact .done rfl
  · rw [h]
    refine (Task.twin_perform fun m w v hw => hw.connect _ _ _).andThen fun opened => ?_
    cases opened <;> exact .done rfl

theorem twin_command (names : Names) (c : Command) :
    Twin secrecy Eq (c.task names) (c.task names) := by
  cases c with
  | connect name servers credentials undecided =>
    exact twin_connect names name servers rfl undecided
  | failConnects count => exact twin_changeShared fun e => e.failConnects count
  | inject error => exact twin_changeShared fun e => e.inject error
  | latency ms => exact twin_changeShared fun e => e.setLatency ms
  | expire number =>
    exact (Task.twin_perform fun m w v hw => hw.expireSession _).andThen fun _ => twin_answered _
  | peek paths =>
    exact Twin.andThen (Task.twin_look fun m w v hw => by rw [hw.ensemble_eq]) fun _ =>
      twin_answered _
  | advance ms => exact (Task.twin_pause ms).andThen fun _ => twin_answered _
  | now => exact (Task.twin_look fun m w v hw => hw.now).andThen fun _ => twin_answered _
  | drainWatch name =>
    refine twin_onNamed _ name fun target => ?_
    refine Twin.andThen (Task.twin_perform fun m w v hw => ?_) fun _ => twin_answered _
    rw [hw.ensemble_eq]
    exact ⟨rfl, hw.setEnsemble _ _⟩
  | dropWatch name => exact .done rfl
  | session name c => exact twin_onNamed _ name fun s => twin_session s c
  | newReplica name root =>
    exact (Task.twin_perform fun m w v hw => hw.addReplica root).andThen fun _ => .done rfl
  | replica name c => exact twin_onNamed _ name fun i => twin_replica names i c
  | newCenter name settings seed lenient undecided =>
    exact twin_makeCenter (.same settings) name seed lenient undecided
  | center name c => exact twin_onNamed _ name fun target => twin_center target c
  | handle name c => exact twin_onNamed _ name fun h => twin_handle h c
  | view name c => exact twin_onNamed _ name fun h => twin_view h c
  | newConnector name settings undecided =>
    exact (twin_addConnector (.same settings) undecided).andThen fun _ => .done rfl
  | connectWith connector target =>
    refine twin_onNamed _ connector fun i => ?_
    refine (Connecting.twin_connect i leastDraw).andThen fun opened => ?_
    cases opened <;> exact .done rfl

theorem Command.Alike.twin {c c' : Command} (h : c.Alike c') (names : Names) :
    Twin secrecy Eq (c.task names) (c'.task names) := by
  cases h with
  | same => exact twin_command names c
  | newCenter name hs seed lenient undecided =>
    exact twin_makeCenter hs name seed lenient undecided
  | newConnector name hs undecided =>
    exact (twin_addConnector hs undecided).andThen fun _ => .done rfl
  | connect name servers hs undecided =>
    exact twin_connect names name servers hs.identity_eq undecided

end Scenario

end KeyRegistry
