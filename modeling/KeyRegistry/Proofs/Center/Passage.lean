import KeyRegistry.Center.Lifecycle
import KeyRegistry.Proofs.Task.Bounded
import KeyRegistry.Proofs.Task.Talking

/-!
# The passage through a start and a stop

A start takes up one thing after the other, and each way out of it gives back what it
has taken up; a stop gives up the same things in the opposite order. `Center.Passage`
names what is at hand between two moves. To follow something through every start and
stop it is enough to say what it is at each of these points, and that each move leads
from one point to the next: `Center.Upholds`.
-/

namespace KeyRegistry

def Yields {ε α : Type} (r : Except ε α) (well : α → Prop) (ill : Prop) : Prop :=
  match r with
  | .ok a => well a
  | .error _ => ill

namespace Center

/-- Between which moves of a start or a stop a center is, and what is at hand there. -/
inductive Passage
  /-- No start and no stop runs. -/
  | rest (active : Option Active)
  | queued (active : Option Active) (ticket : Nat)
  | turn (active : Option Active)
  /-- A session is being opened at an ensemble. -/
  | bound (ensemble : Nat)
  /-- A session is open, and there may be a replica that is not started. -/
  | opened (s : SessionId) (replica : Option Nat)
  | watched (s : SessionId) (replica watch : Nat)
  | fed (s : SessionId) (replica : Nat)
  | leaving (a : Active)
  /-- The worker has been asked to stop, and may have ended. -/
  | asked (a : Active) (ended : Bool)
  | emptied (a : Active)

/-- Whether each move of a start and of a stop of the center `c` leads from what `I` says of one
point to what it says of the next, and what goes on meanwhile preserves it. -/
structure Upholds (meanwhile : World → World → Prop) (c : Nat) (I : Passage → World → Prop) :
    Prop where
  stable (g : Passage) : Task.Stable meanwhile (I g)
  note {g : Passage} {w : World} (n : Notice) : I g w → I g (w.note n)
  draw {o : Option Active} {w : World} : I (.rest o) w →
    I (.queued o (w.drawTicket c).1) (w.drawTicket c).2
  enter {o : Option Active} {ticket : Nat} {w : World} : I (.queued o ticket) w →
    w.hasTurn c ticket = true ∧ I (.turn o) w
  active {o : Option Active} {w : World} : I (.turn o) w → w.active? c = o
  pass {o : Option Active} {w : World} : I (.turn o) w → I (.rest o) (w.passTurn c)
  resolve {w : World} (connector : Nat) : I (.turn none) w →
    Yields (w.resolve connector).1 (fun k => I (.bound k) (w.resolve connector).2)
      (I (.turn none) (w.resolve connector).2)
  connect {k : Nat} {w : World} (servers : String) (identity : Option String) : I (.bound k) w →
    Yields (w.connect k servers identity).1
      (fun s => I (.opened s none) (w.connect k servers identity).2)
      (I (.bound k) (w.connect k servers identity).2)
  unbind {k : Nat} {w : World} : I (.bound k) w → I (.turn none) w
  accept {s : SessionId} {o : Option Nat} {w w' : World} {hold : Hold} : I (.opened s o) w →
    w.accept s = .ok (hold, w') → I (.opened s o) w'
  complete {s : SessionId} {w : World} (fault : Option ServiceError) (r : Request) :
    I (.opened s none) w → (∀ root, r ≠ .watch root) →
    I (.opened s none) (w.complete s fault r).2
  add {s : SessionId} {w : World} (root : String) : I (.opened s none) w →
    I (.opened s (some (w.addReplica root).1)) (w.addReplica root).2
  latent {s : SessionId} {i : Nat} {w : World} : I (.opened s (some i)) w →
    w.replicaPhase i = .latent
  watch {s : SessionId} {i : Nat} {w : World} (fault : Option ServiceError) (root : String) :
    I (.opened s (some i)) w →
    Yields (w.complete s fault (.watch root)).1
      (fun j => I (.watched s i j) (w.complete s fault (.watch root)).2)
      (I (.opened s (some i)) (w.complete s fault (.watch root)).2)
  spawn {s : SessionId} {i j : Nat} {w : World} : I (.watched s i j) w →
    (w.spawn i s j).1 = true ∧ I (.fed s i) (w.spawn i s j).2
  activate {s : SessionId} {i : Nat} {w : World} (ns : Namespace) : I (.fed s i) w →
    I (.turn (some ⟨s, i, ns⟩)) (w.setActive c (some ⟨s, i, ns⟩))
  close {s : SessionId} {o : Option Nat} {w : World} : I (.opened s o) w →
    I (.turn none) (w.closeSession s)
  idle {w : World} : I (.turn none) w → I (.turn none) (w.setActive c none)
  leave {a : Active} {w : World} : I (.turn (some a)) w → I (.leaving a) (w.setActive c none)
  ask {a : Active} {w : World} : I (.leaving a) w →
    (w.requestStop a.replica).1 = true ∧ I (.asked a false) (w.requestStop a.replica).2
  drain {a : Active} {w : World} : I (.asked a false) w →
    w.shows (.workerEnded a.replica) = true → I (.asked a true) w
  finish {a : Active} {ended : Bool} {w : World} (ms : Nat) : I (.asked a ended) w →
    I (.emptied a) (w.finishStop a.replica ms ended).2
  ended {a : Active} {w : World} : I (.emptied a) w → I (.turn none) (w.closeSession a.session)

namespace Upholds

variable {α β : Type} {meanwhile : World → World → Prop} {c : Nat} {I : Passage → World → Prop}
  {w : World} {post : α → World → Prop} {o : Option Active}

open KeyRegistry.Task (Ends)

/-- A start or a stop that has the turn, and passes it on. -/
theorem ends_inTurn (h : Upholds meanwhile c I) {task : Task α}
    (final : α → Option Active → Prop) (hw : I (.rest o) w)
    (htask : ∀ w, I (.turn o) w →
      Ends meanwhile (fun a w => ∃ o', final a o' ∧ I (.turn o') w) w task) :
    Ends meanwhile (fun a w => ∃ o', final a o' ∧ I (.rest o') w) w (inTurn c task) := by
  refine Task.ends_perform (h.stable _) hw fun w hw => ?_
  refine Task.ends_await_shown (h.stable _) (h.draw hw) (fun _ hw => (h.enter hw).1) fun w hw => ?_
  refine Ends.bind ((htask w (h.enter hw).2).weaken ?_)
  rintro a w ⟨o', hfinal, hw⟩
  exact Task.ends_change (h.stable _) hw fun w hw => .done ⟨o', hfinal, h.pass hw⟩

/-! ## Start -/

section Opening

variable {k : Nat} {settings : Settings}

theorem ends_attempt (h : Upholds meanwhile c I) {retries : Nat}
    {again : ServiceError → Task (Except RegistryError SessionId)} (hw : I (.bound k) w)
    (hagain : ∀ w error, I (.bound k) w →
      Ends meanwhile (fun r w => Yields r (fun s => I (.opened s none) w) (I (.bound k) w)) w
        (again error)) :
    Ends meanwhile (fun r w => Yields r (fun s => I (.opened s none) w) (I (.bound k) w)) w
      (Connecting.attempt k settings retries again) := by
  refine Task.ends_perform (h.stable _) hw fun w hw => ?_
  have hconnect := h.connect settings.serverLists settings.identity hw
  cases hres : (w.connect k settings.serverLists settings.identity).1 with
  | ok s =>
    rw [hres] at hconnect
    exact Task.ends_tell (h.stable _) hconnect fun w hw => .done (h.note _ hw)
  | error error =>
    rw [hres] at hconnect
    dsimp only
    split_ifs
    · exact hagain _ error hconnect
    · exact Task.ends_tell (h.stable _) hconnect fun w hw => .done (h.note _ hw)

theorem ends_attempts (h : Upholds meanwhile c I) (draws : Nat → Nat) (retries left : Nat)
    (hw : I (.bound k) w) :
    Ends meanwhile (fun r w => Yields r (fun s => I (.opened s none) w) (I (.bound k) w)) w
      (Connecting.attempts k settings draws retries left) := by
  induction left generalizing w retries with
  | zero => exact h.ends_attempt hw fun w error hw => .done hw
  | succ left ih =>
    refine h.ends_attempt hw fun w error hw => ?_
    refine Task.ends_tell (h.stable _) hw fun w hw => ?_
    exact Task.ends_pause (h.stable _) (h.note _ hw) fun w hw => ih _ hw

theorem ends_connect (h : Upholds meanwhile c I) (connector : Nat) (draws : Nat → Nat)
    (hw : I (.turn none) w) :
    Ends meanwhile (fun r w => Yields r (fun s => I (.opened s none) w) (I (.turn none) w)) w
      (Connecting.connect connector draws) := by
  refine Task.ends_perform (h.stable _) hw fun w hw => ?_
  have hresolve := h.resolve connector hw
  cases hres : (w.resolve connector).1 with
  | error error =>
    rw [hres] at hresolve
    exact .done hresolve
  | ok k =>
    rw [hres] at hresolve
    have hattempts (settings : Settings) (w : World) (hw : I (.bound k) w) :
        Ends meanwhile (fun r w => Yields r (fun s => I (.opened s none) w) (I (.turn none) w)) w
          (Connecting.attempts k settings draws 0 settings.backoff.maxRetries) :=
      (h.ends_attempts draws 0 _ hw).weaken fun r w hr => by
        cases r with
        | ok s => exact hr
        | error error => exact h.unbind hr
    refine Task.ends_look (h.stable _) hresolve fun w hw => ?_
    dsimp only
    split_ifs
    · exact Task.ends_tell (h.stable _) hw fun w hw => hattempts _ _ (h.note _ hw)
    · exact hattempts _ w hw

end Opening

section Furnishing

variable {s : SessionId}

/-- A dialogue that registers no watch, over the session that a start has opened. -/
theorem ends_say (h : Upholds meanwhile c I) {d : Dialogue β} {next : β → Task α}
    (hd : d.Bounded fun r => ∀ root, r ≠ .watch root) (hw : I (.opened s none) w)
    (hnext : ∀ b w, I (.opened s none) w → Ends meanwhile post w (next b)) :
    Ends meanwhile post w (Task.say s d >>= next) :=
  Task.ends_talk_bounded (h.stable _) (fun _ n hw => h.note n hw)
    (fun _ _ _ hw hadmitted => h.accept hw hadmitted)
    (fun _ fault r hw hr => h.complete fault r hw hr) hd hw hnext

theorem ends_replicate (h : Upholds meanwhile c I) {i : Nat} (hw : I (.opened s (some i)) w) :
    Ends meanwhile
      (fun r w => Yields r (fun _ => I (.fed s i) w) (I (.opened s (some i)) w)) w
      (Replication.start i s) := by
  refine Task.ends_look (h.stable _) hw fun w hw => ?_
  rw [if_neg (by simp [h.latent hw])]
  refine Task.ends_look (h.stable _) hw fun w hw => ?_
  generalize ((w.replica? i).map Replica.root).getD Path.root = root
  refine Task.ends_talk_any (h.stable _) hw (fun _ _ _ hw hadmitted => h.accept hw hadmitted) rfl
    (fun w error hw => ?_) fun w fault hw => ?_
  · exact Task.ends_talk_done (h.stable _) hw rfl fun w hw => .done hw
  · have hwatch := h.watch fault root hw
    cases hres : (w.complete s fault (.watch root)).1 with
    | error error =>
      rw [hres] at hwatch
      exact Task.ends_talk_done (h.stable _) hwatch rfl fun w hw => .done hw
    | ok j =>
      rw [hres] at hwatch
      refine Task.ends_talk_done (h.stable _) hwatch rfl fun w hw => ?_
      refine Task.ends_perform (h.stable _) hw fun w hw => ?_
      obtain ⟨hspawned, hfed⟩ := h.spawn hw
      rw [if_pos hspawned]
      exact .done hfed

/-- A replica that is added is fed, or the start fails. -/
theorem ends_addReplica (h : Upholds meanwhile c I) (root : String)
    {next : Nat → Except RegistryError Unit → Task (Except RegistryError Nat)}
    (hfed : ∀ i, next i (.ok ()) = .done (.ok i))
    (hfailed : ∀ i e, next i (.error e) = .done (.error e)) (hw : I (.opened s none) w) :
    Ends meanwhile
      (fun r w => Yields r (fun i => I (.fed s i) w) (∃ o, I (.opened s o) w)) w
      (Task.perform (fun w => w.addReplica root) >>= fun i =>
        Replication.start i s >>= next i) := by
  refine Task.ends_perform (h.stable _) hw fun w hw => ?_
  refine Ends.bind ((h.ends_replicate (h.add root hw)).weaken ?_)
  rintro (error | done) w hw
  · rw [hfailed]
    exact .done ⟨_, hw⟩
  · rw [hfed]
    exact .done hw

theorem ends_furnish (h : Upholds meanwhile c I) (ns : Namespace) (seed : Option Seed)
    (overwrite : Bool) (hw : I (.opened s none) w) :
    Ends meanwhile
      (fun r w => Yields r (fun i => I (.fed s i) w) (∃ o, I (.opened s o) w)) w
      (furnish s ns seed overwrite) := by
  have hcreate (p : String) (data : List UInt8) (mode : Mode) (root : String) :
      Request.create p data mode ≠ .watch root := by simp
  refine h.ends_say (Dialogue.bounded_ensurePath hcreate _) hw fun made w hw => ?_
  cases made with
  | error error => exact .done ⟨none, hw⟩
  | ok made =>
    cases seed with
    | none => exact h.ends_addReplica ns.root (fun _ => rfl) (fun _ _ => rfl) hw
    | some seed =>
      refine h.ends_say (Seed.bounded_apply (by simp) hcreate (by simp) seed ns overwrite) hw ?_
      rintro (error | report) w hw
      · exact .done ⟨none, hw⟩
      · exact h.ends_addReplica ns.root (fun _ => rfl) (fun _ _ => rfl) hw

end Furnishing

/-- A start of a center that is idle leaves it started, or idle if it fails; a center that is
started is left as it is. -/
theorem ends_start (h : Upholds meanwhile c I) (draws : Nat → Nat) (hw : I (.rest o) w) :
    Ends meanwhile (fun r w => ∃ o', (if r = .ok () then o = none ∧ o'.isSome else o' = o) ∧
      I (.rest o') w) w (start c draws) := by
  refine h.ends_inTurn _ hw fun w hw => ?_
  refine Task.ends_look (h.stable _) hw fun w hw => ?_
  rw [h.active hw]
  cases o with
  | some a =>
    rw [if_pos (Option.isSome_some)]
    exact .done ⟨some a, by simp, hw⟩
  | none =>
    rw [if_neg (by simp)]
    refine Task.ends_look (h.stable _) hw fun w hw => ?_
    generalize w.settings c = settings
    refine Task.ends_look (h.stable _) hw fun w hw => ?_
    cases prepare settings (w.seedFile c) with
    | error error => exact .done ⟨none, by simp, hw⟩
    | ok prepared =>
      obtain ⟨ns, seed⟩ := prepared
      rcases seed with _ | seed
      -- a seed that has been loaded is told of; after that there is but one way on
      case' some =>
        refine Task.ends_tell (h.stable _) hw fun w hw => ?_
        replace hw := h.note (.seedLoaded seed.source seed.entries.length) hw
        generalize w.note (.seedLoaded seed.source seed.entries.length) = w at hw ⊢
      all_goals
        refine Task.ends_tell (h.stable _) hw fun w hw => ?_
        refine Task.ends_look (h.stable _) (h.note _ hw) fun w hw => ?_
        refine Ends.bind ((h.ends_connect _ draws hw).weaken ?_)
        rintro (error | s) w hw
        · exact .done ⟨none, by simp, hw⟩
        refine Ends.bind ((h.ends_furnish ns _ settings.overwrite hw).weaken ?_)
        rintro (error | i) w hw
        · obtain ⟨o, hw⟩ := hw
          refine Task.ends_tell (h.stable _) hw fun w hw => ?_
          refine Task.ends_change (h.stable _) (h.note _ hw) fun w hw => ?_
          exact .done ⟨none, by simp, h.close hw⟩
        · refine Task.ends_change (h.stable _) hw fun w hw => ?_
          refine Task.ends_tell (h.stable _) (h.activate ns hw) fun w hw => ?_
          exact .done ⟨_, by simp, h.note _ hw⟩

/-! ## Stop -/

theorem ends_close (h : Upholds meanwhile c I) {a : Active} (ms : Nat) (hw : I (.leaving a) w) :
    Ends meanwhile (fun _ w => I (.emptied a) w) w (Replication.close a.replica ms) := by
  refine Task.ends_perform (h.stable _) hw fun w hw => ?_
  obtain ⟨hrunning, hasked⟩ := h.ask hw
  rw [if_pos hrunning]
  refine Task.ends_await_either (h.stable _) hasked (fun w hw hshown => ?_) fun w hw => ?_
  · exact Task.ends_act (h.stable _) (h.drain hw hshown) fun w hw => .done (h.finish ms hw)
  · exact Task.ends_act (h.stable _) hw fun w hw => .done (h.finish ms hw)

/-- A stop leaves the center idle, however it was. -/
theorem ends_stop (h : Upholds meanwhile c I) (hw : I (.rest o) w) :
    Ends meanwhile (fun _ w => I (.rest none) w) w (stop c) := by
  refine (h.ends_inTurn (fun _ o => o = none) hw fun w hw => ?_).weaken ?_
  · refine Task.ends_perform (h.stable _) hw fun w hw => ?_
    rw [h.active hw]
    cases o with
    | none => exact .done ⟨none, rfl, h.idle hw⟩
    | some a =>
      refine Task.ends_look (h.stable _) (h.leave hw) fun w hw => ?_
      refine Ends.bind ((h.ends_close _ hw).weaken fun outcome w hw => ?_)
      dsimp only
      split_ifs
      case' pos =>
        refine Task.ends_tell (h.stable _) hw fun w hw => ?_
        replace hw := h.note .centerStillDraining hw
        generalize w.note .centerStillDraining = w at hw ⊢
      all_goals
        refine Task.ends_change (h.stable _) hw fun w hw => ?_
        refine Task.ends_tell (h.stable _) (h.ended hw) fun w hw => ?_
        exact .done ⟨none, rfl, h.note _ hw⟩
  · rintro _ w ⟨_, rfl, hw⟩
    exact hw

end Upholds

end Center

end KeyRegistry
