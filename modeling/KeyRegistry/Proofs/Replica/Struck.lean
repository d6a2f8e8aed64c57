import KeyRegistry.Proofs.Replica.Filling

/-!
# Filling a replica under faults

Calls of a session that lives may be struck by faults that do not end it. A
reading that is struck yields nothing or ends the filling, but whatever it copies
is what the service had.
-/

namespace KeyRegistry

open KeyRegistry.Path

namespace Ensemble

structure Bearable (e : Ensemble) (s : Nat) : Prop where
  live : e.phase s = .live
  spared : ∀ error ∈ e.faults.pending, error.endsSession = false

variable {e : Ensemble} {s : Nat} {p : String} {error : ServiceError}

/-- A node that cannot be read is no reason to end a session. -/
theorem endsSession_of_readable (h : e.readable s p = .error error) :
    error.endsSession = false := by
  by_cases hp : Valid p
  · cases hn : e.tree.node? p with
    | none =>
      obtain rfl : .noNode p = error := by simpa [readable_of_absent hp hn] using h
      rfl
    | some n =>
      cases hperm : n.acl.permits (e.caller s).identity with
      | false =>
        obtain rfl : .noAuth p = error := by simpa [readable_of_not_permitted hp hn hperm] using h
        rfl
      | true => simp [readable_of_permitted hp hn hperm] at h
  · obtain ⟨fault, hfault⟩ := exists_fault_of_not_valid hp
    obtain rfl : .invalidPath p fault.reason = error := by
      simpa [readable, checkPath_of_fault hfault, bind, Except.bind] using h
    rfl

end Ensemble

def Hold.Bearable (h : Hold) : Prop := ∀ error ∈ h.fault, error.endsSession = false

theorem Ensemble.Bearable.hold {e e' : Ensemble} {s now : Nat} {hold : Hold} (h : e.Bearable s)
    (haccept : e.accept now s = .ok (hold, e')) : hold.Bearable := by
  obtain ⟨hfault, -⟩ := Ensemble.accept_eq_ok haccept
  intro error herror
  rw [hfault] at herror
  exact h.spared error (List.mem_of_mem_head? herror)

namespace Reading

def Bearable : Reading → Prop
  | .untouched | .dataRead .. | .finished none => True
  | .data hold | .children _ _ hold => hold.Bearable
  | .finished (some (_, _, names)) => ∀ c ∈ names, IsName c
  | .failed error => error.endsSession = false

end Reading

namespace Replica

variable {e e' : Ensemble} {m : Replica} {s now : Nat} {root a : String} {r r' : Reading}
  {notices : List Notice} {level : List (String × Reading)} {identity : Option String}

/-! ## Moves of a reading -/

/-- What a read of a node yields: what is there, or a failure that ends no session. -/
theorem read_cases (hlive : e.phase s = .live) {fault : Option ServiceError}
    (hfault : ∀ error ∈ fault, error.endsSession = false) :
    (∃ error, error.endsSession = false ∧ e.complete s fault (.getData a) = (.error error, e) ∧
      e.complete s fault (.getChildren a) = (.error error, e)) ∨
    ∃ n, e.tree.node? a = some n ∧ n.acl.permits (e.caller s).identity = true ∧
      e.complete s fault (.getData a) = (.ok (n.data, n.stat), e) ∧
      e.complete s fault (.getChildren a) = (.ok n.children, e) := by
  cases fault with
  | some error =>
    exact .inl ⟨error, hfault error rfl, Ensemble.complete_of_struck hlive ..,
      Ensemble.complete_of_struck hlive ..⟩
  | none =>
    simp only [Ensemble.complete_of_live hlive, Ensemble.perform]
    cases hr : e.readable s a with
    | error error => exact .inl ⟨error, Ensemble.endsSession_of_readable hr, rfl, rfl⟩
    | ok n =>
      obtain ⟨-, hn, hperm⟩ := Ensemble.readable_eq_ok_iff.1 hr
      exact .inr ⟨n, hn, hperm, rfl, rfl⟩

structure Endures (e e' : Ensemble) (s : Nat) (a : String) (r r' : Reading) : Prop where
  same : e' = { e with faults := e'.faults }
  reachable : e.Reachable → e'.Reachable
  bearable : r'.Bearable
  copy {data : List UInt8} {stat : Stat} : r'.copy? = some (data, stat) →
    r.copy? = some (data, stat) ∨ ∃ n, e.tree.node? a = some n ∧
      n.acl.permits (e.caller s).identity = true ∧ data = n.data ∧ stat = n.stat

theorem endures_data (hlive : e.phase s = .live) {hold : Hold}
    (hhold : hold.Bearable) (hstep : stepReading now e s a (.data hold) = some (r', e', notices)) :
    Endures e e' s a (.data hold) r' := by
  simp only [stepReading] at hstep
  split_ifs at hstep
  rcases read_cases hlive hhold with ⟨error, herror, hread, -⟩ | ⟨n, hn, hperm, hread, -⟩
  · rw [hread] at hstep
    cases error with
    | noNode q | noAuth q =>
      simp only [Option.some.injEq, Prod.mk.injEq] at hstep
      obtain ⟨rfl, rfl, -⟩ := hstep
      exact ⟨rfl, id, trivial, by simp [Reading.copy?]⟩
    | _ =>
      simp only [Option.some.injEq, Prod.mk.injEq] at hstep
      obtain ⟨rfl, rfl, -⟩ := hstep
      exact ⟨rfl, id, herror, by simp [Reading.copy?]⟩
  · simp only [hread, Option.some.injEq, Prod.mk.injEq] at hstep
    obtain ⟨rfl, rfl, -⟩ := hstep
    refine ⟨rfl, id, trivial, fun hcopy => .inr ⟨n, hn, hperm, ?_⟩⟩
    simpa [Reading.copy?, eq_comm] using hcopy

theorem endures_children (ht : e.tree.WellFormed) (hlive : e.phase s = .live)
    {data : List UInt8} {stat : Stat} {hold : Hold} (hhold : hold.Bearable)
    (hstep : stepReading now e s a (.children data stat hold) = some (r', e', notices)) :
    Endures e e' s a (.children data stat hold) r' := by
  simp only [stepReading] at hstep
  split_ifs at hstep
  rcases read_cases hlive hhold with ⟨error, herror, -, hread⟩ | ⟨n, hn, -, -, hread⟩
  · rw [hread] at hstep
    cases error with
    | noNode q =>
      simp only [Option.some.injEq, Prod.mk.injEq] at hstep
      obtain ⟨rfl, rfl, -⟩ := hstep
      exact ⟨rfl, id, by simp [Reading.Bearable], .inl⟩
    | _ =>
      simp only [Option.some.injEq, Prod.mk.injEq] at hstep
      obtain ⟨rfl, rfl, -⟩ := hstep
      exact ⟨rfl, id, herror, by simp [Reading.copy?]⟩
  · simp only [hread, Option.some.injEq, Prod.mk.injEq] at hstep
    obtain ⟨rfl, rfl, -⟩ := hstep
    exact ⟨rfl, id, fun c hc => ((ht.mem_children_iff hn c).1 hc).1, .inl⟩

theorem endures_of_stepReading (ht : e.tree.WellFormed) (hbear : e.Bearable s)
    (hr : r.Bearable) (hstep : stepReading now e s a r = some (r', e', notices)) :
    Endures e e' s a r r' := by
  obtain ⟨hold, e'', haccept⟩ := Ensemble.exists_accept hbear.live now
  have hspent : e'' = { e with faults := e''.faults } := by
    obtain ⟨-, rfl⟩ := Ensemble.accept_eq_ok haccept
    rfl
  cases r with
  | untouched =>
    simp only [stepReading, haccept, Option.some.injEq, Prod.mk.injEq] at hstep
    obtain ⟨rfl, rfl, -⟩ := hstep
    exact ⟨hspent, fun h => .step h (.accept haccept), hbear.hold haccept, by simp [Reading.copy?]⟩
  | data hold => exact endures_data hbear.live hr hstep
  | dataRead data stat =>
    simp only [stepReading, haccept, Option.some.injEq, Prod.mk.injEq] at hstep
    obtain ⟨rfl, rfl, -⟩ := hstep
    exact ⟨hspent, fun h => .step h (.accept haccept), hbear.hold haccept, .inl⟩
  | children data stat hold => exact endures_children ht hbear.live hr hstep
  | finished found => simp [stepReading] at hstep
  | failed error => simp [stepReading] at hstep

/-! ## Fillings under faults -/

structure Gathers (root : String) (identity : Option String) (es : List Entry)
    (level : List (String × Reading)) (t : Tree) (queue : List Event) : Prop where
  lags : Lags root identity (Copied es level) t queue
  nodup : (pathsOf es).Nodup
  bearable {a : String} {r : Reading} : (a, r) ∈ level →
    Valid a ∧ isWithin root a = true ∧ r.Bearable

section Gathers

variable {es : List Entry} {t : Tree} {queue : List Event}
  {found : List (String × Option (List UInt8 × Stat × List String))}

theorem gathers_root (hroot : Valid root) :
    Gathers root identity [] [(root, .untouched)] t [] where
  lags := ⟨by simp, by simp [Copied, Reading.copy?]⟩
  nodup := by simp
  bearable {a r} hmem := by
    obtain ⟨rfl, rfl⟩ : a = root ∧ r = .untouched := by simpa using hmem
    exact ⟨hroot, isWithin_refl hroot, trivial⟩

theorem Gathers.endures (ht : e.tree.WellFormed) {before after : List (String × Reading)}
    (h : Gathers root (e.caller s).identity es (before ++ (a, r) :: after) e.tree queue)
    (hr : Endures e e' s a r r') :
    Gathers root (e.caller s).identity es (before ++ (a, r') :: after) e.tree queue where
  lags := by
    refine h.lags.hold ht fun c hc => ?_
    rcases copied_moved (r := r) hc with hc | ⟨ha, hcopy⟩
    · exact .inl hc
    · rcases hr.copy hcopy with hold | hread
      · exact .inl (.inr ⟨r, by simp [ha], hold⟩)
      · rw [ha]
        exact .inr ⟨(h.bearable (r := r) (by simp)).2.1, hread⟩
  nodup := h.nodup
  bearable {b q} hmem := by
    rcases mem_level_moved (r := r) hmem with hmem | ⟨rfl, rfl⟩
    · exact h.bearable hmem
    · obtain ⟨hb, hin, -⟩ := h.bearable (a := b) (r := r) (by simp)
      exact ⟨hb, hin, hr.bearable⟩

/-- A level that has failed is given up, and what was stored before it is kept. -/
theorem Gathers.held (h : Gathers root identity es level t queue) :
    Lags root identity (· ∈ es) t queue :=
  ⟨h.lags.named, fun c hc => h.lags.tracks c (.inl hc)⟩

theorem Gathers.storeLevel (hroot : Valid root)
    (h : Gathers root identity m.entries (found.map fun f => (f.1, .finished f.2)) t queue) :
    Gathers root identity (m.storeLevel found).entries (nextLevel found) t queue where
  lags := ⟨h.lags.named, fun c hc => h.lags.tracks c (copied_storeLevel h.nodup hc)⟩
  nodup := nodup_storeLevel h.nodup
  bearable hmem := by
    obtain ⟨ha, hin, rfl⟩ := within_nextLevel hroot
      (fun q data stat names hx => h.bearable (List.mem_map.2 ⟨_, hx, rfl⟩)) hmem
    exact ⟨ha, hin, trivial⟩

end Gathers

end Replica

end KeyRegistry
