import KeyRegistry.Proofs.Center.Harmless

/-!
# The world ages by all that clients do

Every start, every stop and every errand, interleaved with anything, only lets the
world age.
-/

namespace KeyRegistry

/-! ## Tasks -/

namespace Task

variable {α : Type} {w w' : World} {t t' : Task α}

def Ages (t : Task α) : Prop := t.Within World.Ages fun _ => True

theorem ages_say (s : SessionId) (d : Dialogue α) : (say s d).Ages := within_say s d.only_true

theorem ages_look (f : World → α) : (look f).Ages := within_look World.Ages.refl f

theorem ages_perform {f : World → α × World} (h : ∀ w : World, w.Ages (f w).2) : (perform f).Ages :=
  within_perform h

theorem ages_change {f : World → World} (h : ∀ w : World, w.Ages (f w)) : (change f).Ages :=
  within_change h

theorem ages_tell (n : Notice) : (tell n).Ages := ages_change fun _ => World.ages_of_eq rfl rfl

theorem Harmless.ages (h : t.Harmless) : t.Ages :=
  h.mono (fun w _ hsame => hsame ▸ .refl w) fun _ _ => trivial

/-- The world only ages by a move of such a task, whatever it asks of the service. -/
theorem Ages.step (h : t.Ages) (hstep : t.step w = some (w', t')) : w.Ages w' := by
  cases (Within.step h hstep).1 with
  | instant ages => exact ages
  | nothing => exact .refl w
  | note n => exact World.ages_of_eq rfl rfl
  | accept accepted => exact World.ages_accept accepted
  | complete s fault => exact w.ages_complete s fault _

end Task

/-! ## Starts and stops -/

namespace Center

variable {α : Type} {c : Nat}

theorem ages_inTurn {t : Task α} (ht : t.Ages) : (inTurn c t).Ages := by
  refine (Task.ages_perform fun w => World.ages_of_eq rfl rfl).bind fun ticket => ?_
  refine Task.Within.bind (t := Task.awaitSignal _ _) (fun _ => trivial) fun _ => ?_
  refine ht.bind fun a => ?_
  exact Task.Within.bind (Task.ages_change fun w => World.ages_of_eq rfl rfl) fun _ => trivial

theorem ages_attempts (ensemble : Nat) (settings : Settings) (draws : Nat → Nat)
    (retries left : Nat) : (Connecting.attempts ensemble settings draws retries left).Ages := by
  have hattempt (retries : Nat) {again : ServiceError → Task (Except RegistryError SessionId)}
      (hagain : ∀ error, (again error).Ages) :
      (Connecting.attempt ensemble settings retries again).Ages := by
    refine (Task.ages_perform fun w => w.ages_connect ..).bind fun result => ?_
    split
    · exact (Task.ages_tell _).bind fun _ => trivial
    · split_ifs
      · exact hagain _
      · exact (Task.ages_tell _).bind fun _ => trivial
  induction left generalizing retries with
  | zero => exact hattempt retries fun _ => trivial
  | succ left ih =>
    refine hattempt retries fun error => (Task.ages_tell _).bind fun _ => ?_
    exact Task.Within.bind (t := Task.pause _) trivial fun _ => ih _

theorem ages_connect (connector : Nat) (draws : Nat → Nat) :
    (Connecting.connect connector draws).Ages := by
  refine (Task.ages_perform fun w => w.ages_resolve _).bind fun result => ?_
  split
  · trivial
  · refine (Task.ages_look _).bind fun settings => ?_
    dsimp only
    split_ifs
    · exact (Task.ages_tell _).bind fun _ => ages_attempts ..
    · exact ages_attempts ..

theorem ages_replicate (i : Nat) (s : SessionId) : (Replication.start i s).Ages := by
  refine (Task.ages_look _).bind fun phase => ?_
  split_ifs
  · trivial
  · refine (Task.ages_look _).bind fun root => (Task.ages_say _ _).bind fun watch => ?_
    split
    · trivial
    · refine (Task.ages_perform fun w => w.ages_spawn ..).bind fun spawned => ?_
      split_ifs <;> trivial

theorem ages_furnish (s : SessionId) (ns : Namespace) (seed : Option Seed) (overwrite : Bool) :
    (furnish s ns seed overwrite).Ages := by
  refine (Task.ages_say _ _).bind fun made => ?_
  split
  · trivial
  · cases seed
    case' none => refine Task.Within.bind (t := pure _) trivial fun applied => ?_
    case' some => refine (Task.ages_say _ _).bind fun applied => ?_
    all_goals
      rcases applied with error | report
      · trivial
      · refine (Task.ages_perform fun w => w.ages_addReplica _).bind fun i => ?_
        refine (ages_replicate i s).bind fun started => ?_
        split <;> trivial

theorem ages_start (c : Nat) (draws : Nat → Nat) : (start c draws).Ages := by
  refine ages_inTurn ((Task.ages_look _).bind fun active => ?_)
  split_ifs
  · trivial
  · refine (Task.ages_look _).bind fun settings => (Task.ages_look _).bind fun prepared => ?_
    split
    · trivial
    · rename_i ns seed
      dsimp only
      split
      case' h_1 => refine (Task.ages_tell _).bind fun _ => ?_
      all_goals
        refine (Task.ages_tell _).bind fun _ => (Task.ages_look _).bind fun connector => ?_
        refine (ages_connect connector draws).bind fun connected => ?_
        split
        · trivial
        refine (ages_furnish _ ns _ _).bind fun furnished => ?_
        split
        · refine (Task.ages_change fun w => w.ages_setActive _ _).bind fun _ => ?_
          exact (Task.ages_tell _).bind fun _ => trivial
        · refine (Task.ages_tell _).bind fun _ => ?_
          exact (Task.ages_change fun w => w.ages_closeSession _).bind fun _ => trivial

theorem ages_stop (c : Nat) : (stop c).Ages := by
  refine ages_inTurn ((Task.ages_perform fun w => World.ages_of_eq rfl rfl).bind fun active => ?_)
  split
  · trivial
  · refine (Task.ages_look _).bind fun ms => Task.Within.bind ?_ fun outcome => ?_
    · refine (Task.ages_perform fun w => w.ages_requestStop _).bind fun running => ?_
      split_ifs
      · refine Task.Within.bind (t := Task.awaitSignal _ _) (fun _ => trivial) fun ended => ?_
        exact Task.ages_perform fun w => w.ages_finishStop _ _ _
      · trivial
    · dsimp only
      split_ifs
      case' pos => refine (Task.ages_tell _).bind fun _ => ?_
      all_goals
        refine (Task.ages_change fun w => w.ages_closeSession _).bind fun _ => ?_
        exact (Task.ages_tell _).bind fun _ => trivial

end Center

end KeyRegistry
