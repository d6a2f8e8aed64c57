import KeyRegistry.Center.Handle
import KeyRegistry.Proofs.Task.Twin

/-!
# The tasks of centers are twins of themselves

Whatever a client does with a center or a handle, it does the same in worlds that are
alike: starts, stops and what is asked about a key.
-/

namespace KeyRegistry

open KeyRegistry.Task (Twin)

variable {K : Kinship} {α α' : Type} {Q : α → α' → Prop}

/-! ## Opening a session -/

namespace Connecting

variable {s s' : Settings} (h : s.Alike s')

include h

theorem twin_attempt (k retries : Nat)
    {again again' : ServiceError → Task (Except RegistryError SessionId)}
    (hagain : ∀ error, Twin K Eq (again error) (again' error)) :
    Twin K Eq (attempt k s retries again) (attempt k s' retries again') := by
  unfold attempt
  rw [h.serverLists_eq, h.identity_eq]
  refine (Task.twin_perform fun m w v hw => hw.connect k _ _).andThen fun opened => ?_
  rcases opened with error | id
  · dsimp only
    split_ifs
    · exact hagain error
    · exact (Task.twin_tell _).andThen fun _ => .done rfl
  · exact (Task.twin_tell _).andThen fun _ => .done rfl

theorem twin_attempts (k : Nat) (draws : Nat → Nat) (retries left : Nat) :
    Twin K Eq (attempts k s draws retries left) (attempts k s' draws retries left) := by
  induction left generalizing retries with
  | zero =>
    refine twin_attempt h k retries fun error => ?_
    rw [h.serverLists_eq]
    exact .done rfl
  | succ left ih =>
    refine twin_attempt h k retries fun error => ?_
    rw [h.serverLists_eq, h.backoff_eq]
    exact (Task.twin_tell _).andThen fun _ => (Task.twin_pause _).andThen fun _ => ih _

omit h in
theorem twin_connect (connector : Nat) (draws : Nat → Nat) :
    Twin K Eq (connect connector draws) (connect connector draws) := by
  refine (Task.twin_perform fun m w v hw => hw.resolve connector).andThen fun resolved => ?_
  rcases resolved with error | k
  · exact .done rfl
  · refine (Task.twin_look fun m w v hw => hw.connector_alike connector).bind fun s s' hs => ?_
    rw [hs.maxRetries_eq, hs.backoff_eq]
    dsimp only
    split_ifs
    · exact (Task.twin_tell _).andThen fun _ => twin_attempts hs k draws ..
    · exact twin_attempts hs k draws ..

end Connecting

/-! ## Replicas -/

namespace Replication

theorem twin_start (i : Nat) (s : SessionId) : Twin K Eq (start i s) (start i s) := by
  refine (Task.twin_look fun m w v hw => hw.replicaPhase_eq i).andThen fun phase => ?_
  split_ifs
  · exact .done rfl
  · refine Task.Twin.andThen (Task.twin_look fun m w v hw => by rw [hw.replica?_eq]) fun root => ?_
    refine (Task.twin_say s _).andThen fun watch => ?_
    rcases watch with error | watch
    · exact .done rfl
    · refine (Task.twin_perform fun m w v hw => hw.spawn i s watch).andThen fun spawned => ?_
      split_ifs <;> exact .done rfl

theorem twin_close (i ms : Nat) : Twin K Eq (close i ms) (close i ms) := by
  refine (Task.twin_perform fun m w v hw => hw.requestStop i).andThen fun running => ?_
  split_ifs
  · refine (Task.twin_awaitSignal _ _).andThen fun ended => ?_
    exact Task.twin_perform fun m w v hw => hw.finishStop i ms ended
  · exact .done rfl

end Replication

/-! ## Starts and stops -/

namespace Center

variable {c : Nat}

theorem twin_inTurn {t : Task α} {t' : Task α'} (ht : Twin K Q t t') :
    Twin K Q (inTurn c t) (inTurn c t') := by
  refine (Task.twin_perform fun m w v hw => hw.drawTicket c).andThen fun ticket => ?_
  refine (Task.twin_awaitSignal _ _).andThen fun _ => ht.bind fun a a' ha => ?_
  exact (Task.twin_change fun m w v hw => hw.passTurn c).andThen fun _ => .done ha

theorem twin_furnish (s : SessionId) (ns : Namespace) (seed : Option Seed) (overwrite : Bool) :
    Twin K Eq (furnish s ns seed overwrite) (furnish s ns seed overwrite) := by
  refine (Task.twin_say s _).andThen fun made => ?_
  rcases made with error | _
  · exact .done rfl
  · cases seed
    case' none => refine Task.Twin.andThen (t := pure _) (.done rfl) fun applied => ?_
    case' some => refine (Task.twin_say s _).andThen fun applied => ?_
    all_goals
      rcases applied with error | report
      · exact .done rfl
      · refine (Task.twin_perform fun m w v hw => hw.addReplica _).andThen fun i => ?_
        refine (Replication.twin_start i s).andThen fun started => ?_
        split <;> exact .done rfl

theorem twin_start (c : Nat) (draws : Nat → Nat) : Twin K Eq (start c draws) (start c draws) := by
  refine twin_inTurn ((Task.twin_look fun m w v hw => hw.active?_eq c).andThen fun active => ?_)
  split_ifs
  · exact .done rfl
  refine (Task.twin_look fun m w v hw => hw.settings_alike c).bind fun s s' hs => ?_
  refine Task.Twin.andThen (Task.twin_look fun m w v hw => by
    rw [hw.seedFile_eq, hs.prepare_eq]) fun prepared => ?_
  rcases prepared with error | ⟨ns, seed⟩
  · exact .done rfl
  rw [hs.sanitizedText_eq, hs.overwrite_eq]
  cases seed
  case' some => refine (Task.twin_tell _).andThen fun _ => ?_
  all_goals
    refine (Task.twin_tell _).andThen fun _ => ?_
    refine Task.Twin.andThen (Task.twin_look fun m w v hw => by rw [hw.center?_eq]) fun i => ?_
    refine (Connecting.twin_connect i draws).andThen fun connected => ?_
    rcases connected with error | id
    · exact .done rfl
    refine (twin_furnish id ns _ s'.overwrite).andThen fun furnished => ?_
    rcases furnished with error | replica
    · refine (Task.twin_tell _).andThen fun _ => ?_
      exact (Task.twin_change fun m w v hw => hw.closeSession id).andThen fun _ => .done rfl
    · refine (Task.twin_change fun m w v hw => hw.setActive c _).andThen fun _ => ?_
      exact (Task.twin_tell _).andThen fun _ => .done rfl

theorem twin_stop (c : Nat) : Twin K Eq (stop c) (stop c) := by
  refine twin_inTurn (Task.Twin.andThen (Task.twin_perform fun m w v hw =>
    ⟨hw.active?_eq c, hw.setActive c none⟩) fun active => ?_)
  rcases active with _ | active
  · exact .done rfl
  refine Task.Twin.andThen (Task.twin_look fun m w v hw =>
    (hw.settings_alike c).replicaShutdownMs_eq) fun ms => ?_
  refine (Replication.twin_close active.replica ms).andThen fun outcome => ?_
  dsimp only
  split_ifs
  case' pos => refine (Task.twin_tell _).andThen fun _ => ?_
  all_goals
    refine (Task.twin_change fun m w v hw => hw.closeSession active.session).andThen fun _ => ?_
    exact (Task.twin_tell _).andThen fun _ => .done rfl

/-! ## Keys -/

theorem twin_place (c : Nat) (key : String) :
    Twin K Eq (Task.look fun w => place w c key) (Task.look fun w => place w c key) :=
  Task.twin_look fun m w v hw => by rw [place, place, hw.active?_eq]

theorem twin_onKey (key : String) (d : Active → String → Dialogue (Except RegistryError α)) :
    Twin K Eq (onKey c key d) (onKey c key d) := by
  refine (twin_place c key).andThen fun placed => ?_
  rcases placed with error | ⟨active, full⟩
  · exact .done rfl
  · exact Task.twin_say _ _

theorem twin_handle (h : SessionHandle) (key : String)
    (d : String → Dialogue (Except RegistryError α)) :
    Twin K Eq (h.onKey key d) (h.onKey key d) := by
  unfold SessionHandle.onKey
  split
  · exact .done rfl
  · exact Task.twin_say _ _

theorem twin_get (c : Nat) (key : String) : Twin K Eq (get c key) (get c key) := by
  refine (twin_place c key).andThen fun placed => ?_
  rcases placed with error | ⟨active, full⟩
  · exact .done rfl
  · refine Task.Twin.andThen (Task.twin_look fun m w v hw => by rw [hw.replica?_eq]) fun copy => ?_
    rcases copy with _ | entry
    · exact Task.twin_say _ _
    · exact .done rfl

theorem twin_time (c : Nat) (key : String) : Twin K Eq (time c key) (time c key) := by
  refine Task.Twin.andThen (twin_onKey key _) fun touched => ?_
  rcases touched with error | _
  · exact .done rfl
  · exact twin_onKey key _

end Center

end KeyRegistry
