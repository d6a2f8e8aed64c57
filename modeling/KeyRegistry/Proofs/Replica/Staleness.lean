import KeyRegistry.Proofs.Replica.Convergence
import KeyRegistry.Proofs.Replica.Trial
import KeyRegistry.Proofs.Text.Utf8

/-!
# What a replica misses under faults

Faults never make a replica hold a copy of a node that the service has deleted.
Once the worker listens and the queue of its watch is empty, a copy is out of date
only if the last refresh of its path has failed, and then it stays so until
something else happens to its node.
-/

namespace KeyRegistry

open KeyRegistry.Path

/-- A read that succeeds, faults or not, yields what the service holds. -/
theorem Ensemble.call_getData_eq_ok {e : Ensemble} {now s : Nat} {p : String} {data : List UInt8}
    {stat : Stat} (hlive : e.phase s = .live)
    (h : (e.call now s (.getData p)).1 = .ok (data, stat)) :
    ∃ n, e.readable s p = .ok n ∧ data = n.data := by
  obtain ⟨hold, e', haccept⟩ := exists_accept hlive now
  obtain ⟨-, he'⟩ := accept_eq_ok haccept
  have hlive' : e'.phase s = .live := by rw [he']; exact hlive
  have hreadable : e'.readable s p = e.readable s p := by rw [he']; rfl
  rw [call_of_accept haccept] at h
  cases hfault : hold.fault with
  | some error =>
    rw [hfault, complete_of_struck hlive'] at h
    cases h
  | none =>
    rw [hfault, complete_of_live hlive', perform, hreadable] at h
    cases hr : e.readable s p with
    | error error => simp [hr, Except.map] at h
    | ok n =>
      obtain ⟨rfl, -⟩ : n.data = data ∧ n.stat = stat := by simpa [hr, Except.map] using h
      exact ⟨n, rfl, rfl⟩

theorem Key.textOf_eq_some {answer : Except ServiceError (List UInt8 × Stat)} {v : String}
    (h : textOf answer = .ok (some v)) :
    ∃ data stat, answer = .ok (data, stat) ∧ v = Text.Utf8.decodeLossy data := by
  unfold textOf at h
  split at h
  · exact ⟨_, _, rfl, by simpa [eq_comm] using h⟩
  · simp at h
  · simp at h

namespace Replica

variable {e : Ensemble} {m : Replica} {s i : Nat} {root : String} {identity : Option String}
  {missed : List String} {worker : Worker} {watch : Watch}

theorem Trial.lags (h : Trial s i identity root missed e m) (hworker : m.worker = some worker)
    (hlistening : worker.activity = .listening) (hwatch : e.watches[i]? = some watch)
    (hempty : watch.queue = []) :
    (pathsOf m.entries).Nodup ∧ Lags root identity (· ∈ m.entries) e.tree (owed missed) := by
  obtain ⟨queue, hqueue, hm⟩ := h.follows.watch
  rw [hworker] at hm
  obtain ⟨-, -, -, -, hlagging⟩ := hm
  rw [hlistening] at hlagging
  obtain rfl : queue = [] := by
    rw [hwatch] at hqueue
    rw [← hempty, Option.some.inj hqueue]
  exact hlagging

/-- A copy is of the node that the service has now. It shows the node, or the last refresh of its
path has failed. -/
theorem Trial.sound (h : Trial s i identity root missed e m) (hworker : m.worker = some worker)
    (hlistening : worker.activity = .listening) (hwatch : e.watches[i]? = some watch)
    (hempty : watch.queue = []) {c : Entry} (hc : c ∈ m.entries) :
    isWithin root c.path = true ∧ ∃ n, e.readable s c.path = .ok n ∧
      c.stat.czxid = n.stat.czxid ∧ c.stat.mzxid ≤ n.stat.mzxid ∧
      (c.path ∉ missed → c.Shows n) := by
  have hfollows := h.follows
  obtain ⟨-, hlags⟩ := h.lags hworker hlistening hwatch hempty
  obtain ⟨hin, htracks⟩ := hlags.tracks c hc
  obtain ⟨n, hn, hz⟩ := htracks.stored (by simp)
  obtain ⟨hperm, hle, hshows⟩ := htracks.same hn hz
  have hread := Ensemble.readable_of_permitted (hfollows.reachable.wellFormed.valid hn) hn
    (hfollows.caller ▸ hperm)
  refine ⟨hin, n, hread, hz.symm, hle, fun hmissed => hshows ?_⟩
  rintro ⟨ev, hev, hp, -⟩
  obtain ⟨q, hq, rfl⟩ := List.mem_map.1 hev
  exact hmissed (hp ▸ hq)

/-- Whatever happens while a replica is filled and fed, and whichever calls are struck by faults
that end no session: once its worker listens and no event waits, each of its copies is of a node
that the service still has, and not ahead of it. A copy shows its node unless the last refresh of
its path has failed. So a key that is read with success is one that the service has, and what is
read is its value, unless it was read from a copy whose last refresh has failed. -/
theorem current_of_trial (h : Trial s i identity root missed e m) (hworker : m.worker = some worker)
    (hlistening : worker.activity = .listening) (hwatch : e.watches[i]? = some watch)
    (hempty : watch.queue = []) :
    (∀ c ∈ m.entries, isWithin root c.path = true ∧ ∃ n, e.readable s c.path = .ok n ∧
      c.stat.czxid = n.stat.czxid ∧ c.stat.mzxid ≤ n.stat.mzxid ∧
      (c.path ∉ missed → c.Shows n)) ∧
    ∀ (w : World) (center : Nat) (key full : String) (active : Active),
      Center.place w center key = .ok (active, full) → active.session.number = s →
      w.ensembles[active.session.ensemble]? = some e → w.replica? active.replica = some m →
      Task.Ends World.later
        (fun answer _ => ∀ v, answer = .ok (some v) → ∃ n, e.readable s full = .ok n ∧
          (full ∉ missed ∨ m.get? full = none → v = Text.Utf8.decodeLossy n.data))
        w (Center.get center key) := by
  refine ⟨fun c hc => h.sound hworker hlistening hwatch hempty hc,
    fun w center key full active hplace hs he hm => ?_⟩
  obtain ⟨hnodup, -⟩ := h.lags hworker hlistening hwatch hempty
  refine (Center.ends_get_of_held hplace he hm).weaken ?_
  rintro answer - rfl v hv
  cases hentry : m.get? full with
  | some entry =>
    obtain ⟨hmem, rfl⟩ := (get?_eq_some_iff hnodup).1 hentry
    obtain ⟨-, n, hread, -, -, hshows⟩ := h.sound hworker hlistening hwatch hempty hmem
    refine ⟨n, hread, fun hfresh => ?_⟩
    have hdata := (hshows (by simpa using hfresh)).data
    rw [hentry] at hv
    rw [← hdata]
    simpa [eq_comm] using hv
  | none =>
    rw [hentry, hs] at hv
    obtain ⟨data, stat, hcall, rfl⟩ := Key.textOf_eq_some hv
    obtain ⟨n, hread, rfl⟩ := Ensemble.call_getData_eq_ok h.follows.bearable.live hcall
    exact ⟨n, hread, fun _ => rfl⟩

def mirroring (e : Ensemble) (m : Replica) : World where
  ensembles := [e]
  replicas := [m]
  centers := [{ connector := 0, active := some ⟨⟨0, 1⟩, 0, ⟨"/a/b"⟩⟩ }]

theorem place_mirroring (e : Ensemble) (m : Replica) :
    Center.place (mirroring e m) 0 "/" = .ok (⟨⟨0, 1⟩, 0, ⟨"/a/b"⟩⟩, "/a/b") := rfl

/-- The filling is cut short, and a later refresh makes up for it. -/
theorem current_refilled : ∃ e m, Trial 1 0 none "/a/b" [] e m ∧ m.initialized = false ∧
    (∃ c ∈ m.entries, ∃ n, e.readable 1 c.path = .ok n ∧ c.Shows n) ∧
    Task.Ends World.later
      (fun answer _ => ∀ v, answer = .ok (some v) → ∃ n, e.readable 1 "/a/b" = .ok n ∧
        v = Text.Utf8.decodeLossy n.data) (mirroring e m) (Center.get 0 "/") := by
  have h₀ : Trial 1 0 none "/a/b" [] (Ensemble.nested.perform 1 (.watch "/a/b")).2
      { root := "/a/b" } :=
    .registered Ensemble.nested_reachable ⟨rfl, by decide⟩ rfl (by decide) rfl
  have h₁ := h₀.move (.spawn 0 rfl) ⟨rfl, by decide⟩
  have h₂ := h₁.move (.service (.inject _ (.connectionLoss "lost"))) ⟨rfl, by decide⟩
  have h₃ := h₂.move (@Feeds.worker _ _ _ _ 0 _ rfl) ⟨rfl, by decide⟩
  have h₄ := h₃.move (@Feeds.worker _ _ _ _ 0 _ rfl) ⟨rfl, by decide⟩
  have h₅ := h₄.move (@Feeds.worker _ _ _ _ 0 _ rfl) ⟨rfl, by decide⟩
  have h₆ := h₅.move (.service (.complete _ 1 none (.setData "/a/b" [9] none))) ⟨rfl, by decide⟩
  have h₇ := h₆.move (@Feeds.worker _ _ _ _ 0 _ rfl) ⟨rfl, by decide⟩
  have h₈ := h₇.move (@Feeds.worker _ _ _ _ 0 _ rfl) ⟨rfl, by decide⟩
  obtain ⟨hheld, hget⟩ := current_of_trial h₈ rfl rfl rfl rfl
  refine ⟨_, _, h₈, rfl, ⟨_, List.mem_singleton_self _, ?_⟩, ?_⟩
  · obtain ⟨-, n, hread, -, -, hshows⟩ := hheld _ (List.mem_singleton_self _)
    exact ⟨n, hread, hshows (by decide)⟩
  · refine (hget (mirroring _ _) 0 "/" "/a/b" _ (place_mirroring ..) rfl rfl rfl).weaken ?_
    intro answer _ hanswer v hv
    obtain ⟨n, hread, hvalue⟩ := hanswer v hv
    exact ⟨n, hread, hvalue (.inl (by decide))⟩

/-- A node is written, the refresh that this calls for is struck, and the replica goes on to serve
the value that has been replaced. -/
theorem stale_after_struck_refresh : ∃ e m, Trial 1 0 none "/a/b" ["/a/b"] e m ∧
    m.worker.map Worker.activity = some .listening ∧
    (e.watches[0]?).map Watch.queue = some [] ∧ e.faults.pending = [] ∧
    (e.tree.node? "/a/b").map Node.data = some (Text.Utf8.encode "new") ∧
    Task.Ends World.later (fun answer _ => answer = .ok (some "old")) (mirroring e m)
      (Center.get 0 "/") ∧
    Task.Ends World.later (fun answer _ => answer = .ok (some "new")) (mirroring e m)
      (Center.getDirectly 0 "/") := by
  have h₀ : Trial 1 0 none "/a/b" [] ((Ensemble.nested.complete 1 none
      (.setData "/a/b" (Text.Utf8.encode "old") none)).2.perform 1 (.watch "/a/b")).2
      { root := "/a/b" } :=
    .registered (.step Ensemble.nested_reachable (.complete ..)) ⟨rfl, by decide⟩ rfl (by decide)
      rfl
  have h₁ := h₀.move (.spawn 0 rfl) ⟨rfl, by decide⟩
  have h₂ := h₁.move (@Feeds.worker _ _ _ _ 0 _ rfl) ⟨rfl, by decide⟩
  have h₃ := h₂.move (@Feeds.worker _ _ _ _ 0 _ rfl) ⟨rfl, by decide⟩
  have h₄ := h₃.move (@Feeds.worker _ _ _ _ 0 _ rfl) ⟨rfl, by decide⟩
  have h₅ := h₄.move (@Feeds.worker _ _ _ _ 0 _ rfl) ⟨rfl, by decide⟩
  have h₆ := h₅.move (@Feeds.worker _ _ _ _ 0 _ rfl) ⟨rfl, by decide⟩
  have h₇ := h₆.move (.service (.complete _ 1 none
    (.setData "/a/b" (Text.Utf8.encode "new") none))) ⟨rfl, by decide⟩
  have h₈ := h₇.move (.service (.inject _ (.connectionLoss "lost"))) ⟨rfl, by decide⟩
  have h₉ := h₈.move (@Feeds.worker _ _ _ _ 0 _ rfl) ⟨rfl, by decide⟩
  have h₁₀ := h₉.move (@Feeds.worker _ _ _ _ 0 _ rfl) ⟨rfl, by decide⟩
  refine ⟨_, _, h₁₀, rfl, rfl, rfl, rfl, ?_, ?_⟩
  · refine (Center.ends_get_of_held (place_mirroring ..) rfl rfl).weaken ?_
    rintro answer - rfl
    exact congrArg (fun v => Except.ok (some v)) (Text.Utf8.decodeLossy_encode "old")
  · refine (Center.ends_getDirectly (place_mirroring ..) ⟨rfl, rfl, rfl⟩).weaken ?_
    rintro answer - rfl
    exact congrArg (fun v => Except.ok (some v)) (Text.Utf8.decodeLossy_encode "new")

end Replica

end KeyRegistry
