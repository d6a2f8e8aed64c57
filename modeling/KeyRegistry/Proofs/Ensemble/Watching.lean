import KeyRegistry.Proofs.Ensemble.Consistency
import KeyRegistry.Proofs.Tree.Account

/-!
# What a watch is told

From its registration on, a watch of a session that stays is told the changes under
its root, each once and in the order in which they are made. So the paths that are
in use under the root can be followed by its events alone.
-/

namespace KeyRegistry

open KeyRegistry.Path

namespace Ensemble

variable {e e' e₀ : Ensemble} {id s i : Nat} {top : String} {evs changes taken : List Event}

/-- What may have happened since the session `s` registered the watch `i` for `top` at `before`:
the changes made since, and the events that the holder of the watch has taken. The session is live
and the watch is not dropped; everything else may happen. -/
inductive Watched (before : Ensemble) (s i : Nat) (top : String) :
    List Event → List Event → Ensemble → Prop
  | registered {fault : Option ServiceError}
      (answer : (before.complete s fault (.watch top)).1 = .ok i) :
      Watched before s i top [] [] (before.complete s fault (.watch top)).2
  | occurs {e e' : Ensemble} {changes taken evs : List Event}
      (run : Watched before s i top changes taken e) (occurs : Occurs e evs e')
      (live : e'.phase s = .live) : Watched before s i top (changes ++ evs) taken e'
  | elsewhere {e e' : Ensemble} {changes taken : List Event} {j : Nat}
      (run : Watched before s i top changes taken e) (other : j ≠ i) (reads : Reads j e e') :
      Watched before s i top changes taken e'
  | take {e e' : Ensemble} {changes taken : List Event} {ev : Event}
      (run : Watched before s i top changes taken e) (next : e.nextEvent? i = some (ev, e')) :
      Watched before s i top changes (taken ++ [ev]) e'
  | drain {e : Ensemble} {changes taken : List Event}
      (run : Watched before s i top changes taken e) :
      Watched before s i top changes (taken ++ (e.drain i).1.1) (e.drain i).2

theorem eq_of_watch_answer {fault : Option ServiceError}
    (h : (e.complete s fault (.watch top)).1 = .ok i) :
    i = e.watches.length ∧ e.phase s = .live ∧ (e.complete s fault (.watch top)).2 =
      { e with watches := e.watches ++ [⟨s, top, [], .registered⟩] } := by
  rcases complete_cases e s fault (.watch top) with ⟨_, heq⟩ | ⟨hlive, heq⟩
  · rw [heq] at h
    cases h
  · rw [heq] at h ⊢
    dsimp only [perform] at h ⊢
    split at h
    · simp at h
    · exact ⟨(Except.ok.inj h).symm, hlive, rfl⟩

/-! ## A watch and its events -/

namespace Watched

theorem reachable (h₀ : Reachable e₀) (h : Watched e₀ s i top changes taken e) : Reachable e := by
  induction h with
  | registered answer => exact .step h₀ (.complete ..)
  | occurs _ occurs _ ih => exact .step ih occurs.step
  | elsewhere _ _ reads ih => exact .read ih reads
  | take _ next ih => exact .read ih (.take next)
  | drain _ ih => exact .read ih (.drain _)

/-- What was taken and what waits are together the changes under the root. -/
theorem exists_queue (h₀ : Reachable e₀) (h : Watched e₀ s i top changes taken e) :
    ∃ queue, e.watches[i]? = some ⟨s, top, queue, .registered⟩ ∧
      taken ++ queue = changes.filter fun ev => isWithin top ev.path := by
  induction h with
  | registered answer =>
    obtain ⟨rfl, -, hafter⟩ := eq_of_watch_answer answer
    exact ⟨[], by simp [hafter], rfl⟩
  | @occurs e e' changes taken evs run occurs live ih =>
    obtain ⟨queue, hw, hqueue⟩ := ih
    obtain ⟨who, hev⟩ := occurs.evolves (run.reachable h₀).wellFormed
    refine ⟨queue ++ evs.filter fun ev => isWithin top ev.path, hev.watch hw live, ?_⟩
    rw [← List.append_assoc, hqueue, List.filter_append]
  | elsewhere run other reads ih =>
    obtain ⟨queue, hw, hqueue⟩ := ih
    exact ⟨queue, by rw [reads.frame.2.2.2 i other.symm, hw], hqueue⟩
  | take run next ih =>
    obtain ⟨queue, hw, hqueue⟩ := ih
    cases queue with
    | nil => simp [nextEvent?, hw] at next
    | cons first rest =>
      have hlt := (List.getElem?_eq_some_iff.1 hw).1
      simp only [nextEvent?, hw, Option.some.injEq, Prod.mk.injEq] at next
      obtain ⟨rfl, rfl⟩ := next
      exact ⟨rest, by simp [hlt], by simpa using hqueue⟩
  | drain run ih =>
    obtain ⟨queue, hw, hqueue⟩ := ih
    obtain ⟨hlt, hget⟩ := List.getElem?_eq_some_iff.1 hw
    exact ⟨[], by simp [Ensemble.drain, hlt, hget], by simpa [Ensemble.drain, hw] using hqueue⟩

/-- The changes since the registration lead from the paths in use then to those in use now. -/
theorem follow_changes (h₀ : Reachable e₀) (h : Watched e₀ s i top changes taken e) :
    Event.follow (e₀.tree.held top) (changes.filter fun ev => isWithin top ev.path) =
      some (e.tree.held top) := by
  induction h with
  | registered answer => simp [(eq_of_watch_answer answer).2.2]
  | occurs run occurs live ih =>
    have ht := (run.reachable h₀).wellFormed
    obtain ⟨who, hev⟩ := occurs.evolves ht
    rw [List.filter_append, Event.follow_append, ih]
    exact hev.tree.follow_held ht
  | elsewhere run other reads ih => rwa [reads.frame.1]
  | take run next ih => rwa [(Reads.take next).frame.1]
  | drain run ih => rwa [(Reads.drain _).frame.1]

/--
A watch is a faithful journal. What its holder has taken and what still waits are the changes
under its root since the registration, each once and in order; they lead from the paths in use
under the root then to those in use now. Every step at the service makes exactly the changes that
its events tell, one number for each; what no event names keeps its data and its version, and a call
that fails, a transaction among them, tells nothing and changes nothing.
-/
theorem tells_changes (h₀ : Reachable e₀) (h : Watched e₀ s i top changes taken e) :
    (∃ queue, e.watches[i]? = some ⟨s, top, queue, .registered⟩ ∧
      taken ++ queue = (changes.filter fun ev => isWithin top ev.path) ∧
      Event.follow (e₀.tree.held top) (taken ++ queue) = some (e.tree.held top)) ∧
    (∀ e', Step e e' → ∃ evs, Occurs e evs e') ∧
    (∀ e' evs, Occurs e evs e' → (∃ who, Tree.Steps who e.tree evs e'.tree) ∧
      e'.tree.zxid = e.tree.zxid + evs.length ∧
      ∀ p n m, e.tree.node? p = some n → e'.tree.node? p = some m → (∀ ev ∈ evs, ev.path ≠ p) →
        m.data = n.data ∧ m.stat.version = n.stat.version) ∧
    ∀ k fault r error, (e.complete k fault r).1 = .error error →
      r.events (.error error) = [] ∧ (e.complete k fault r).2 = e := by
  refine ⟨?_, fun e' hs => hs.occurs, fun e' evs ho => ?_, fun k fault r error herror =>
    ⟨r.events_error error, complete_of_error herror⟩⟩
  · obtain ⟨queue, hw, hqueue⟩ := h.exists_queue h₀
    exact ⟨queue, hw, hqueue, hqueue ▸ h.follow_changes h₀⟩
  · have ht := (h.reachable h₀).wellFormed
    obtain ⟨who, hev⟩ := ho.evolves ht
    refine ⟨⟨who, hev.tree⟩, hev.tree.zxid, fun p n m hn hm hp => ?_⟩
    have hcore := hev.tree.core_eq ht hp
    rw [hn, hm, Option.map_some, Option.map_some, Option.some.injEq] at hcore
    exact ⟨Tree.data_eq_of_core hcore, Tree.version_eq_of_core hcore⟩

def attended : Ensemble := ((nested.connect "memory" none).2.complete 2 none (.watch "/a")).2

/-- The second session is told that an ephemeral node is written, and that it goes when the first
session ends. -/
theorem tells_changes_attended :
    ∃ e queue, Reachable e ∧ e.watches[0]? = some ⟨2, "/a", queue, .registered⟩ ∧
      queue = [⟨.deleted, "/a/b"⟩] ∧ e.tree.held "/a" = {"/a"} := by
  have hreach : Reachable (nested.connect "memory" none).2 := .step nested_reachable (.connect ..)
  have hregistered : Watched (nested.connect "memory" none).2 2 0 "/a" [] [] attended :=
    .registered rfl
  have hwritten := (hregistered.occurs
    (.complete attended 1 none (.setData "/a/b" [2] none)) rfl).drain
  have hlive : ((attended.complete 1 none (.setData "/a/b" [2] none)).2.drain 0).2.phase 1 =
      .live := rfl
  have hended := hwritten.occurs (.expire hlive (.refl ["/a/b"])) rfl
  obtain ⟨⟨queue, hw, hqueue, hfollow⟩, -⟩ := tells_changes hreach hended
  have hstart : (nested.connect "memory" none).2.tree.held "/a" = {"/a", "/a/b"} := by decide
  have htold : Event.follow {"/a", "/a/b"} [⟨.dataChanged, "/a/b"⟩, ⟨.deleted, "/a/b"⟩] =
      some {"/a"} := by decide
  rw [hqueue, hstart] at hfollow
  exact ⟨_, queue, hended.reachable hreach, hw, (List.cons.inj hqueue).2,
    Option.some.inj (hfollow.symm.trans htold)⟩

end Watched

end Ensemble

end KeyRegistry
