import KeyRegistry.Proofs.Ensemble.Subscription
import KeyRegistry.Proofs.Ensemble.Watching
import KeyRegistry.Proofs.Task.Meanwhile

/-!
# The moves of a worker, whatever befalls it

What a worker does at the service and what it learns there is said without any
assumption: calls may be struck by faults of all kinds, the session may have ended, and
the replica may be about to be closed.
-/

namespace KeyRegistry

open KeyRegistry.Path

/-! ## Closing -/

namespace Replica

def askedToStop (m : Replica) : Replica :=
  { m with phase := .closed, worker := m.worker.map fun v => { v with stopRequested := true } }

def emptied (m : Replica) (ended : Bool) : Replica :=
  { m with
    entries := []
    worker := if ended then m.worker else m.worker.map fun v => { v with cancelled := true } }

end Replica

namespace World

variable {w : World} {i : Nat}

theorem requestStop_eq (w : World) (i : Nat) :
    (w.requestStop i).2 = w.modifyReplica i Replica.askedToStop := rfl

theorem replicas_finishStop (w : World) (i ms : Nat) (ended : Bool) :
    (w.finishStop i ms ended).2.replicas = w.replicas.modify i (·.emptied ended) := by
  unfold finishStop
  cases hm : w.replica? i with
  | none => exact (List.modify_eq_self (List.getElem?_eq_none_iff.1 hm)).symm
  | some m =>
    cases ended with
    | true => rfl
    | false => exact List.modify_modify_eq ..

end World

/-! ## Readings -/

namespace Ensemble

variable {e : Ensemble} {s : Nat} {p : String} {fault : Option ServiceError}

/-- What is read is what a live session is allowed to read. -/
theorem readable_of_getData {data : List UInt8} {stat : Stat}
    (h : (e.complete s fault (.getData p)).1 = .ok (data, stat)) :
    e.phase s = .live ∧ ∃ n, e.readable s p = .ok n ∧ data = n.data ∧ stat = n.stat := by
  rcases complete_cases e s fault (.getData p) with ⟨error, heq⟩ | ⟨hlive, heq⟩ <;> rw [heq] at h
  · cases h
  · cases hr : e.readable s p with
    | error error => simp [perform, hr, Except.map] at h
    | ok n => exact ⟨hlive, n, rfl, by simpa [perform, hr, Except.map, eq_comm] using h⟩

theorem node_of_getChildren {names : List String}
    (h : (e.complete s fault (.getChildren p)).1 = .ok names) :
    ∃ n, e.tree.node? p = some n ∧ names = n.children := by
  rcases complete_cases e s fault (.getChildren p) with ⟨error, heq⟩ | ⟨-, heq⟩ <;> rw [heq] at h
  · cases h
  · obtain ⟨n, -, hn, rfl⟩ := perform_getChildren_eq_ok h
    exact ⟨n, hn, rfl⟩

theorem names_of_getChildren (ht : e.tree.WellFormed) {names : List String}
    (h : (e.complete s fault (.getChildren p)).1 = .ok names) : ∀ c ∈ names, IsName c := by
  obtain ⟨n, hn, rfl⟩ := node_of_getChildren h
  exact fun c hc => ((ht.mem_children_iff hn c).1 hc).1

end Ensemble

theorem Ensemble.valid_of_watch_answer {e : Ensemble} {s i : Nat} {root : String}
    {fault : Option ServiceError} (h : (e.complete s fault (.watch root)).1 = .ok i) :
    Valid root := by
  rcases complete_cases e s fault (.watch root) with ⟨error, heq⟩ | ⟨-, heq⟩ <;> rw [heq] at h
  · cases h
  · by_contra hinvalid
    obtain ⟨fault, hfault⟩ := exists_fault_of_not_valid hinvalid
    simp [perform, checkPath_of_fault hfault] at h

def Reading.Named : Reading → Prop
  | .finished (some (_, _, names)) => ∀ c ∈ names, IsName c
  | _ => True

namespace Replica

variable {e e' : Ensemble} {s now : Nat} {a : String} {r r' : Reading} {notices : List Notice}

inductive Proceeds (e e' : Ensemble) (s now : Nat) (a : String) : Reading → Reading → Prop
  | asked {hold : Hold} (accepted : e.accept now s = .ok (hold, e')) :
      Proceeds e e' s now a .untouched (.data hold)
  | read {hold : Hold} {data : List UInt8} {stat : Stat} (same : e' = e)
      (answer : (e.complete s hold.fault (.getData a)).1 = .ok (data, stat)) :
      Proceeds e e' s now a (.data hold) (.dataRead data stat)
  | skipped {hold : Hold} (same : e' = e) : Proceeds e e' s now a (.data hold) (.finished none)
  | askedOn {data : List UInt8} {stat : Stat} {hold : Hold}
      (accepted : e.accept now s = .ok (hold, e')) :
      Proceeds e e' s now a (.dataRead data stat) (.children data stat hold)
  | listed {data : List UInt8} {stat : Stat} {hold : Hold} {names : List String} (same : e' = e)
      (answer : (e.complete s hold.fault (.getChildren a)).1 = .ok names) :
      Proceeds e e' s now a (.children data stat hold) (.finished (some (data, stat, names)))
  | vanished {data : List UInt8} {stat : Stat} {hold : Hold} (same : e' = e) :
      Proceeds e e' s now a (.children data stat hold) (.finished (some (data, stat, [])))
  | failed {r : Reading} {error : ServiceError} (same : e' = e) (underway : r.isFinished = false)
      (unfailed : r.failure? = none) : Proceeds e e' s now a r (.failed error)

theorem proceeds_of_stepReading (h : stepReading now e s a r = some (r', e', notices)) :
    Proceeds e e' s now a r r' := by
  cases r with
  | untouched =>
    simp only [stepReading] at h
    split at h <;> obtain ⟨rfl, rfl, -⟩ : _ ∧ _ ∧ _ := by simpa using h
    · rename_i haccept
      exact .asked haccept
    · exact .failed rfl rfl rfl
  | data hold =>
    have hsame := Ensemble.complete_getData e s hold.fault a
    simp only [stepReading] at h
    split_ifs at h
    split at h <;> rename_i hread <;> rw [hread] at hsame <;> cases hsame <;>
      obtain ⟨rfl, rfl, -⟩ : _ ∧ _ ∧ _ := by simpa using h
    · exact .read rfl (congrArg Prod.fst hread)
    · exact .skipped rfl
    · exact .skipped rfl
    · exact .failed rfl rfl rfl
  | dataRead data stat =>
    simp only [stepReading] at h
    split at h <;> obtain ⟨rfl, rfl, -⟩ : _ ∧ _ ∧ _ := by simpa using h
    · rename_i haccept
      exact .askedOn haccept
    · exact .failed rfl rfl rfl
  | children data stat hold =>
    have hsame := Ensemble.complete_getChildren e s hold.fault a
    simp only [stepReading] at h
    split_ifs at h
    split at h <;> rename_i hread <;> rw [hread] at hsame <;> cases hsame <;>
      obtain ⟨rfl, rfl, -⟩ : _ ∧ _ ∧ _ := by simpa using h
    · exact .listed rfl (congrArg Prod.fst hread)
    · exact .vanished rfl
    · exact .failed rfl rfl rfl
  | finished found => simp [stepReading] at h
  | failed error => simp [stepReading] at h

/-- What one move of a reading does, whatever may have befallen its session: it takes at most a
fault of the service, and learns what is there. -/
structure Learns (e e' : Ensemble) (s : Nat) (a : String) (r r' : Reading) : Prop where
  same : e' = { e with faults := e'.faults }
  pending : ∀ error ∈ e'.faults.pending, error ∈ e.faults.pending
  reachable : e.Reachable → e'.Reachable
  named : e.tree.WellFormed → r'.Named
  copy {data : List UInt8} {stat : Stat} : r'.copy? = some (data, stat) →
    r.copy? = some (data, stat) ∨ e.phase s = .live ∧
      ∃ n, e.readable s a = .ok n ∧ data = n.data ∧ stat = n.stat

theorem learns_accept {now : Nat} {hold : Hold} (h : e.accept now s = .ok (hold, e'))
    (hnamed : r'.Named) (hcopy : r'.copy? = r.copy?) : Learns e e' s a r r' where
  same := by
    obtain ⟨-, rfl⟩ := Ensemble.accept_eq_ok h
    rfl
  pending := by
    obtain ⟨-, rfl⟩ := Ensemble.accept_eq_ok h
    exact fun _ => List.mem_of_mem_tail
  reachable hreach := .step hreach (.accept h)
  named _ := hnamed
  copy := hcopy ▸ .inl

theorem learns_of_none (hnamed : r'.Named) (hcopy : r'.copy? = none) : Learns e e s a r r' :=
  ⟨rfl, fun _ => id, id, fun _ => hnamed, by simp [hcopy]⟩

theorem Proceeds.learns (h : Proceeds e e' s now a r r') : Learns e e' s a r r' := by
  cases h with
  | asked accepted => exact learns_accept accepted trivial rfl
  | askedOn accepted => exact learns_accept accepted trivial rfl
  | read same answer =>
    subst same
    refine ⟨rfl, fun _ => id, id, fun _ => trivial, fun hcopy => .inr ?_⟩
    obtain ⟨rfl, rfl⟩ : _ ∧ _ := by simpa [Reading.copy?] using hcopy
    exact Ensemble.readable_of_getData answer
  | listed same answer =>
    subst same
    exact ⟨rfl, fun _ => id, id, fun ht => Ensemble.names_of_getChildren ht answer, .inl⟩
  | vanished same =>
    subst same
    exact ⟨rfl, fun _ => id, id, fun _ => by simp [Reading.Named], .inl⟩
  | skipped same => exact same ▸ learns_of_none trivial rfl
  | failed same => exact same ▸ learns_of_none trivial rfl

theorem learns_of_stepReading (h : stepReading now e s a r = some (r', e', notices)) :
    Learns e e' s a r r' :=
  (proceeds_of_stepReading h).learns

end Replica

/-! ## Moves -/

namespace Ensemble

variable {e e' e'' : Ensemble} {s i now : Nat}

structure Heeds (i : Nat) (e e' : Ensemble) : Prop where
  tree : e'.tree = e.tree
  sessions : e'.sessions = e.sessions
  pending : ∀ error ∈ e'.faults.pending, error ∈ e.faults.pending
  reachable : e.Reachable → e'.Reachable
  becomes {j : Nat} {w : Watch} : e.watches[j]? = some w →
    ∃ w', e'.watches[j]? = some w' ∧ w.Becomes w'
  others {j : Nat} : j ≠ i → e'.watches[j]? = e.watches[j]?

theorem Heeds.refl (i : Nat) (e : Ensemble) : Heeds i e e :=
  ⟨rfl, rfl, fun _ => id, id, becomes_of_eq rfl, fun _ => rfl⟩

theorem Heeds.trans (h : Heeds i e e') (h' : Heeds i e' e'') : Heeds i e e'' where
  tree := h'.tree.trans h.tree
  sessions := h'.sessions.trans h.sessions
  pending error herror := h.pending error (h'.pending error herror)
  reachable := h'.reachable ∘ h.reachable
  becomes hw := by
    obtain ⟨w', hw', hb⟩ := h.becomes hw
    obtain ⟨w'', hw'', hb'⟩ := h'.becomes hw'
    exact ⟨w'', hw'', hb.trans hb'⟩
  others hj := (h'.others hj).trans (h.others hj)

theorem heeds_of_reads (h : Reads i e e') : Heeds i e e' := by
  obtain ⟨htree, hsessions, hfaults, hothers⟩ := h.frame
  exact ⟨htree, hsessions, by simp [hfaults], fun hreach => .read hreach h, h.becomes,
    fun hj => hothers _ hj⟩

theorem heeds_of_accept (i : Nat) {hold : Hold} (h : e.accept now s = .ok (hold, e')) :
    Heeds i e e' := by
  have hreach (hr : e.Reachable) : e'.Reachable := .step hr (.accept h)
  obtain ⟨-, rfl⟩ := accept_eq_ok h
  exact ⟨rfl, rfl, fun _ => List.mem_of_mem_tail, hreach, becomes_of_eq rfl, fun _ => rfl⟩

end Ensemble

namespace Replica

variable {e e' : Ensemble} {m m' : Replica} {s i now stored : Nat} {root a : String}
  {past : List (Ensemble × Replica)} {w w' : Worker} {v : Move} {r r' : Reading}
  {notices : List Notice}

theorem Learns.heeds (h : Learns e e' s a r r') (i : Nat) : Ensemble.Heeds i e e' where
  tree := by rw [h.same]
  sessions := by rw [h.same]
  pending := h.pending
  reachable := h.reachable
  becomes := Ensemble.becomes_of_eq (by rw [h.same])
  others _ := by rw [h.same]

/-- What a worker does when it moves: it stops because it has been told to, or goes on with what
it is doing. -/
theorem cases_of_step (h : m.step now e = some v) : ∃ w, m.worker = some w ∧
    ((w.stopRequested = true ∨ w.cancelled = true) ∧ v = m.stop w e [] ∨
    (∃ stored level, w.activity = .filling stored level ∧
      m.stepFilling now w e stored level = some v) ∨
    (w.activity = .listening ∧ m.stepListening now w e = some v) ∨
    ∃ p hold, w.activity = .refreshing p hold ∧ m.stepRefreshing now w e p hold = some v) := by
  obtain ⟨w, hw, h⟩ := Option.bind_eq_some_iff.1 h
  refine ⟨w, hw, ?_⟩
  cases hactivity : w.activity with
  | stopped => simp [hactivity] at h
  | filling stored level =>
    simp only [hactivity, Bool.or_eq_true] at h
    split_ifs at h with hflag
    · exact .inl ⟨hflag.symm, (Option.some.inj h).symm⟩
    · exact .inr (.inl ⟨stored, level, rfl, h⟩)
  | listening =>
    simp only [hactivity, Bool.or_eq_true] at h
    split_ifs at h with hflag
    · exact .inl ⟨hflag.symm, (Option.some.inj h).symm⟩
    · exact .inr (.inr (.inl ⟨rfl, h⟩))
  | refreshing p hold =>
    simp only [hactivity] at h
    split_ifs at h with hflag
    · exact .inl ⟨.inr hflag, (Option.some.inj h).symm⟩
    · exact .inr (.inr (.inr ⟨p, hold, rfl, h⟩))

end Replica

end KeyRegistry
