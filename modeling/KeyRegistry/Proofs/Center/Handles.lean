import KeyRegistry.Proofs.Center.Ageing
import KeyRegistry.Proofs.Center.Expiry
import KeyRegistry.Proofs.Center.Refinement
import KeyRegistry.Proofs.Center.Tracing

/-!
# Handles end with their cycle

A handle stays with the session or the replica of the cycle in which it was given out.
Once the center has been stopped the session is closed and the replica is over, and
neither comes back, whatever is started later: every operation of the one handle is
refused and leaves no trace, and the other finds nothing.
-/

namespace KeyRegistry

open KeyRegistry.Path

/-! ## What goes on after a stop -/

namespace Center

inductive Routine : {α : Type} → Task α → Prop
  | start (c : Nat) (draws : Nat → Nat) : Routine (start c draws)
  | stop (c : Nat) : Routine (stop c)
  | errand (c : Nat) (h : SessionHandle) (key : String) (op : Errand) : Routine (op.task c h key)

theorem Routine.ages {α : Type} {t : Task α} (h : Routine t) : t.Ages := by
  cases h with
  | start c draws => exact ages_start c draws
  | stop c => exact ages_stop c
  | errand c h key op => exact (harmless_errand op).ages

end Center

namespace World

variable {w w' : World} {a : Active}

/-- Anything that may happen in a world: what goes on by itself, new clients, and a move of a start,
a stop or an errand, wherever it has come to among whatever else. -/
inductive Moves : World → World → Prop
  | stirs {w w' : World} (stirs : Stirs Ensemble.Leads w w') : Moves w w'
  | clients {w w' : World} (ensembles : w'.ensembles = w.ensembles)
      (replicas : w'.replicas = w.replicas) : Moves w w'
  | routine {α : Type} {w w' v v' : World} {t₀ t t' : Task α} (routine : Center.Routine t₀)
      (before : Task.Execution (fun _ _ => True) v t₀ v' t) (step : t.step w = some (w', t')) :
      Moves w w'

def Later : World → World → Prop := Relation.ReflTransGen Moves

theorem Moves.ages (h : Moves w w') : w.Ages w' := by
  cases h with
  | stirs stirs => exact stirs.elapses.ages
  | clients ensembles replicas => exact ages_of_eq ensembles replicas
  | routine routine before step => exact Task.Ages.step (routine.ages.execution before) step

theorem stable_gone (a : Active) : Task.Stable Later fun w => w.Gone a := by
  intro w w' h hlater
  induction hlater with
  | refl => exact h
  | tail _ hmove ih => exact ih.ages hmove.ages

theorem Gone.accept (h : w.Gone a) : w.accept a.session = .error .sessionClosed := by
  obtain ⟨e, he, x, hx, hclosed⟩ := h.session
  have hphase : e.phase a.session.number = .closed := by simp [Ensemble.phase, hx, hclosed]
  simp [World.accept, ensemble, he, Ensemble.accept_of_closed hphase]

end World

/-! ## Refused dialogues -/

namespace Task

variable {α : Type} {meanwhile : World → World → Prop} {P : World → Prop} {w w' : World}
  {s : SessionId} {d : Dialogue α} {b : α} {t t' : Task α}

def Traceless (meanwhile : World → World → Prop) (w : World) (t : Task α) : Prop :=
  ∀ u t' v v' t'', Execution meanwhile w t u t' → meanwhile u v → t'.step v = some (v', t'') →
    v' = v

inductive Refused (s : SessionId) (d : Dialogue α) (b : α) : Task α → Prop
  | asks : Refused s d b (talk s d done)
  | told {d' : Dialogue α} (turn : d'.turn = .done b) : Refused s d b (talk s d' done)
  | ended : Refused s d b (done b)

theorem Refused.step (hd : d.Falls .sessionClosed b) (hclosed : w.accept s = .error .sessionClosed)
    (h : Refused s d b t) (hstep : t.step w = some (w', t')) : w' = w ∧ Refused s d b t' := by
  cases h with
  | asks =>
    obtain ⟨r, rest, hcall, hdone⟩ := hd
    simp only [Task.step, hcall, hclosed, Option.some.injEq, Prod.mk.injEq] at hstep
    obtain ⟨rfl, rfl⟩ := hstep
    exact ⟨rfl, .told hdone⟩
  | told turn =>
    simp only [Task.step, turn, Option.some.injEq, Prod.mk.injEq] at hstep
    obtain ⟨rfl, rfl⟩ := hstep
    exact ⟨rfl, .ended⟩
  | ended => simp at hstep

variable (hP : Stable meanwhile P) (hclosed : ∀ w, P w → w.accept s = .error .sessionClosed)
  (hd : d.Falls .sessionClosed b) (hw : P w)

include hP hclosed hd hw

theorem traceless_refused (h : Refused s d b t) : Traceless meanwhile w t := by
  have hkept {w u : World} {t t' : Task α} (hexec : Execution meanwhile w t u t') (hw : P w)
      (h : Refused s d b t) : P u ∧ Refused s d b t' := by
    induction hexec with
    | here => exact ⟨hw, h⟩
    | move between step _ ih =>
      have hv := hP _ _ hw between
      obtain ⟨rfl, hnext⟩ := h.step hd (hclosed _ hv) step
      exact ih hv hnext
  intro u t' v v' t'' hexec hbetween hstep
  obtain ⟨hu, hrefused⟩ := hkept hexec hw h
  exact (hrefused.step hd (hclosed v (hP u v hu hbetween)) hstep).1

theorem ends_refused : Ends meanwhile (fun a _ => a = b) w (say s d) := by
  obtain ⟨r, rest, hcall, hdone⟩ := hd
  refine .move 0 rfl (fun v hv _ => ?_) fun v w' t' hv hstep => ?_
  · simp [say, step, hcall, hclosed v (hP w v hw hv)]
  · have hPv := hP w v hw hv
    simp only [say, step, hcall, hclosed v hPv, Option.some.injEq, Prod.mk.injEq] at hstep
    obtain ⟨rfl, rfl⟩ := hstep
    exact ends_talk_done hP hPv hdone fun w _ => .done rfl

end Task

/-! ## Handles -/

def Errand.OfHandle : Errand → Prop
  | .create .. | .stat | .data | .children | .delete | .deleteVersion _ => True
  | _ => False

namespace Center

variable {w w' v : World} {c : Nat} {a : Active} {sh : SessionHandle} {rh : ReplicaHandle}
  {key : String} {n c₀ : Nat} {past : Option Active}

theorem refused_onKey {α : Type} (hgone : v.Gone a) (hsession : sh.session = a.session)
    (hk : Valid key) {d : String → Dialogue (Except RegistryError α)}
    (hd : ∀ full, (d full).Falls .sessionClosed (.error (.service .sessionClosed))) :
    Task.Ends World.Later (fun r _ => r = .error (.service .sessionClosed)) v (sh.onKey key d) ∧
      Task.Traceless World.Later v (sh.onKey key d) := by
  have hclosed (w : World) (hw : w.Gone a) : w.accept sh.session = .error .sessionClosed := by
    rw [hsession]
    exact hw.accept
  unfold SessionHandle.onKey
  rw [Namespace.resolve_of_valid sh.scope hk]
  exact ⟨Task.ends_refused (World.stable_gone a) hclosed (hd _) hgone,
    Task.traceless_refused (World.stable_gone a) hclosed (hd _) hgone .asks⟩

/-- Every operation of the handle of a session that is gone is refused and leaves no trace. -/
theorem refused_errand (hgone : v.Gone a) (hsession : sh.session = a.session) (hk : Valid key)
    {op : Errand} (hop : op.OfHandle) :
    Task.Ends World.Later (fun r _ => r = .error (.service .sessionClosed)) v
        (op.task c sh key) ∧
      Task.Traceless World.Later v (op.task c sh key) := by
  cases op with
  | create content mode => exact refused_onKey hgone hsession hk fun _ => ⟨_, _, rfl, rfl⟩
  | stat => exact refused_onKey hgone hsession hk fun _ => ⟨_, _, rfl, rfl⟩
  | data => exact refused_onKey hgone hsession hk fun _ => ⟨_, _, rfl, rfl⟩
  | children => exact refused_onKey hgone hsession hk fun _ => ⟨_, _, rfl, rfl⟩
  | delete => exact refused_onKey hgone hsession hk fun _ => ⟨_, _, rfl, rfl⟩
  | deleteVersion version => exact refused_onKey hgone hsession hk fun _ => ⟨_, _, rfl, rfl⟩
  | _ => exact hop.elim

/-- Nothing is found in a replica that is gone. -/
theorem nothing_found (hgone : v.Gone a) (hreplica : rh.replica = a.replica) (hk : Valid key) :
    rh.entry v key = .ok none ∧ rh.children v key = .ok [] := by
  obtain ⟨m, hm, hspent⟩ := hgone.replica
  unfold ReplicaHandle.entry ReplicaHandle.children
  rw [Namespace.resolve_of_valid rh.scope hk, hreplica, hm]
  exact ⟨congrArg Except.ok (m.get?_nil hspent.empty _),
    congrArg Except.ok (m.children_nil hspent.empty _)⟩

end Center

/-! ## Histories -/

structure World.Founded (w : World) : Prop where
  resting : ∀ x ∈ w.centers, x.active = none ∧ x.turns = []
  linked : w.Linked

namespace Center

variable {w w' u : World} {c d n c₀ : Nat} {past : Option Active} {sh : SessionHandle}
  {rh : ReplicaHandle}

structure Rested (n c₀ : Nat) (past : Option Active) (w : World) : Prop where
  count : w.centers.length = n
  traced {c : Nat} : c < n → Traced n c c₀ past (.rest (w.active? c)) w

theorem rested_of_founded (h : w.Founded) (c₀ : Nat) : Rested w.centers.length c₀ none w where
  count := rfl
  traced {c} hc := by
    have hidle (d : Nat) : w.active? d = none := by
      unfold World.active?
      cases hx : w.center? d with
      | none => rfl
      | some x => exact (h.resting x (List.mem_of_getElem? hx)).1
    constructor
    case count => rfl
    case known => exact hc
    case turning => exact fun hx => (h.resting _ (List.mem_of_getElem? hx)).2
    case resting => exact fun _ hx => (h.resting _ (List.mem_of_getElem? hx)).2
    case active => rfl
    case linked => exact h.linked
    case session => exact fun ha => by simp [hidle] at ha
    case started => exact fun ha => by simp [hidle] at ha
    case apart => exact fun ha => by simp [hidle] at ha
    case free => exact fun ha => by simp [hidle] at ha
    case past => exact nofun
    case stage => trivial

theorem Traced.rested {o : Option Active} (h : Traced n c c₀ past (.rest o) w) :
    Rested n c₀ past w where
  count := h.count
  traced {d} hd := by
    have hturns {k : Nat} {x : Center} (hx : w.center? k = some x) : x.turns = [] := by
      by_cases hk : k = c
      · subst hk
        exact h.turning hx
      · exact h.resting hk hx
    exact ⟨h.count, hd, hturns, fun _ => hturns, rfl, h.linked, h.session, h.started, h.apart,
      fun _ => nofun, h.past, trivial⟩

theorem Rested.happens (h : Rested n c₀ past w) (hw : World.Happens Ensemble.Leads w w') :
    Rested n c₀ past w' := by
  cases hw with
  | stirs stirs =>
    refine ⟨by rw [stirs.frame.1, h.count], fun {c} hc => ?_⟩
    exact (((h.traced hc).elapses stirs.elapses).rested).traced hc
  | @start d draws result known run =>
    have hd := h.traced (known.trans_eq h.count)
    obtain ⟨o, -, hnext⟩ := ((Traced.upholds n d c₀ past).ends_start draws hd).post_of_execution run
    exact hnext.rested
  | @stop d outcome known run =>
    have hd := h.traced (known.trans_eq h.count)
    exact (((Traced.upholds n d c₀ past).ends_stop hd).post_of_execution run).rested

theorem Rested.history (h : Rested n c₀ past w) (hw : World.History Ensemble.Leads w w') :
    Rested n c₀ past w' := by
  induction hw with
  | refl => exact h
  | tail _ hnext ih => exact ih.happens hnext

/-- What a center is started with is traced from then on. -/
theorem Rested.begin {a : Active} (h : Rested n c₀ past w) (ha : w.active? c₀ = some a) :
    Rested n c₀ (some a) w where
  count := h.count
  traced hc := { h.traced hc with
    past := by
      rintro _ ⟨⟩
      exact .inl ha }

/-- In a world in which any number of centers are started and stopped any number of times, take the
handles of a started center. Once the center has been stopped, that cycle or a later one, every
operation of the one handle on a valid key is refused, and no move of it alters anything; the other
finds nothing on any valid key. So it stays whatever is started, stopped or done, by whom and in
whatever order. -/
theorem handles_end_with_cycle {w₀ : World} (hfounded : w₀.Founded)
    (hw : World.History Ensemble.Leads w₀ w) (hs : sessionHandle w c = .ok sh)
    (hr : replicaHandle w c = .ok rh) (hu : World.History Ensemble.Leads w u) :
    Task.Ends (World.Stirring Ensemble.Leads)
      (fun _ v => ∀ v', World.Later v v' → ∀ key, Valid key →
        (∀ op : Errand, op.OfHandle →
          Task.Ends World.Later (fun r _ => r = .error (.service .sessionClosed)) v'
            (op.task c sh key) ∧
          Task.Traceless World.Later v' (op.task c sh key)) ∧
        rh.entry v' key = .ok none ∧ rh.children v' key = .ok []) u (stop c) := by
  obtain ⟨a, ha⟩ : ∃ a, w.active? c = some a := by
    cases ha : w.active? c with
    | none => simp [sessionHandle, ha] at hs
    | some a => exact ⟨a, rfl⟩
  have hsession : sh.session = a.session := by
    simp only [sessionHandle, ha, Except.ok.injEq] at hs
    rw [← hs]
  have hreplica : rh.replica = a.replica := by
    simp only [replicaHandle, ha, Except.ok.injEq] at hr
    rw [← hr]
  have hc : c < w.centers.length := by
    by_contra hge
    simp [World.active?, World.center?, List.getElem?_eq_none (not_lt.1 hge)] at ha
  have hrested := ((rested_of_founded hfounded c).history hw).begin ha
  have hlast := hrested.history hu
  refine ((Traced.upholds _ c c (some a)).ends_stop (hlast.traced (hrested.count ▸ hc))).weaken ?_
  intro _ v hstopped v' hlater key hk
  have hgone : v'.Gone a := by
    refine World.stable_gone a v v' ?_ hlater
    rcases hstopped.past rfl with hactive | hparting | hgone
    · simp [hstopped.active, Passage.active] at hactive
    · cases hparting
    · exact hgone
  exact ⟨fun op hop => refused_errand hgone hsession hk hop, nothing_found hgone hreplica hk⟩

theorem founded_bench : bench.Founded where
  resting := by decide
  linked := by
    intro x hx k hk
    obtain rfl : x = ⟨jobs, .undecided⟩ := by simpa [bench] using hx
    cases hk

/-- A center can be started while nothing goes on but the clock. -/
theorem Stands.exists_start {settings : Settings} {ns : Namespace} {r : Registry} {w : World}
    {S : Ensemble → Ensemble → Prop} (hns : ns.Proper) (hcheck : settings.check = .ok ())
    (hnamed : settings.namespaceOf = .ok ns) (hseed : settings.seedFile = none)
    (draws : Nat → Nat) (h : Stands c settings ns [] r w) :
    ∃ v, Task.Execution (World.Stirring S) w (Center.start c draws) v (.done r.start.1) ∧
      Stands c settings ns [] r.start.2 v := by
  have hends := (ends_start hns hcheck hnamed hseed draws h).mono World.later
    fun w w' ⟨ms, hms⟩ => hms ▸ World.meanwhile_later w (Nat.le_add_right ..)
  obtain ⟨v, result, hexec, rfl, hstands⟩ := hends.exists_execution fun w due =>
    ⟨{ w with now := w.now + due }, ⟨due, rfl⟩, Nat.le_add_left ..⟩
  refine ⟨v, hexec.mono (World.Stirring S) fun w w' ⟨ms, hms⟩ => ?_, hstands⟩
  exact hms ▸ .single (.aside rfl rfl rfl rfl)

theorem exists_started_bench : ∃ w a, World.History Ensemble.Leads bench w ∧
    w.active? 0 = some a := by
  have hnamed : jobs.namespaceOf = .ok ⟨"/jobs"⟩ := rfl
  have hns : Namespace.Proper ⟨"/jobs"⟩ := proper_of_namespaceOf hnamed (by decide)
  have hscene : bench.Scene 0 { connector := 0 } ⟨jobs, .undecided⟩ := ⟨rfl, rfl⟩
  have hstands : Stands 0 jobs ⟨"/jobs"⟩ [] {} bench :=
    .stopped hscene rfl rfl ⟨rfl, rfl⟩ rfl (.fresh hns jobs.identity)
  obtain ⟨w, hrun, hstarted⟩ := hstands.exists_start hns rfl hnamed rfl fun _ => 0
  obtain ⟨a, ha⟩ := Option.isSome_iff_exists.1
    (hstarted.isSome_active?.trans (rfl : (Registry.start {}).2.started = true))
  exact ⟨w, a, .single (.start Nat.one_pos hrun), ha⟩

/-- The handles of a center that has been started once and is stopped. -/
theorem handles_end_with_cycle_bench : ∃ w sh rh, World.History Ensemble.Leads bench w ∧
    sessionHandle w 0 = .ok sh ∧ replicaHandle w 0 = .ok rh ∧
    Task.Ends (World.Stirring Ensemble.Leads)
      (fun _ v => ∀ v', World.Later v v' →
        Task.Ends World.Later (fun r _ => r = .error (.service .sessionClosed)) v'
          (Errand.data.task 0 sh "/a/b") ∧
        Task.Traceless World.Later v' (Errand.data.task 0 sh "/a/b") ∧
        rh.entry v' "/a/b" = .ok none) w (stop 0) := by
  obtain ⟨w, a, hw, ha⟩ := exists_started_bench
  have hs : sessionHandle w 0 = .ok ⟨a.session, a.scope⟩ := by simp [sessionHandle, ha]
  have hr : replicaHandle w 0 = .ok ⟨a.replica, a.scope⟩ := by simp [replicaHandle, ha]
  refine ⟨w, _, _, hw, hs, hr, ?_⟩
  refine (handles_end_with_cycle founded_bench hw hs hr .refl).weaken fun _ v hv v' hlater => ?_
  obtain ⟨hoperations, hentry, -⟩ := hv v' hlater "/a/b" (by decide)
  obtain ⟨hends, htraceless⟩ := hoperations .data trivial
  exact ⟨hends, htraceless, hentry⟩

end Center

end KeyRegistry
