import KeyRegistry.Proofs.Ensemble.Ending

/-!
# How those who connect are received

Every attempt to open a session is counted. It is refused as long as refusals are due, and
else it opens one session. Nothing else that happens at the service opens a session.
-/

namespace KeyRegistry

/-- How many attempts there were, how many refusals are due, and whose sessions have been opened,
those that have ended included. -/
structure Reception where
  attempts : Nat
  refusals : Nat
  opened : List (Option String)
  deriving DecidableEq

namespace Reception

def refuse (r : Reception) : Reception :=
  { r with attempts := r.attempts + 1, refusals := r.refusals - 1 }

def welcome (r : Reception) (identity : Option String) : Reception :=
  { r with attempts := r.attempts + 1, opened := r.opened ++ [identity] }

end Reception

namespace Ensemble

variable {e e' e'' : Ensemble}

def reception (e : Ensemble) : Reception :=
  ⟨e.connectAttempts, e.faults.failingConnects, e.sessions.map Session.identity⟩

/-! ## Attempts -/

theorem connect_of_refusals (h : 0 < e.reception.refusals) (servers : String)
    (identity : Option String) :
    (e.connect servers identity).1 =
        .error (.connectionLoss s!"connection to {servers} refused") ∧
      (e.connect servers identity).2.reception = e.reception.refuse := by
  have hpos : 0 < e.faults.failingConnects := h
  simp only [connect, if_pos hpos, true_and]
  rfl

/-- An attempt that nothing is in the way of opens a session, and that is live. -/
theorem connect_of_no_refusals (h : e.reception.refusals = 0) (servers : String)
    (identity : Option String) :
    (e.connect servers identity).1 = .ok (e.reception.opened.length + 1) ∧
      (e.connect servers identity).2.reception = e.reception.welcome identity ∧
      (e.connect servers identity).2.phase (e.reception.opened.length + 1) = .live := by
  have hnone : ¬0 < e.faults.failingConnects := by
    rw [show e.faults.failingConnects = 0 from h]
    exact Nat.lt_irrefl 0
  simp only [connect, if_neg hnone]
  refine ⟨by simp [reception], by simp [reception, Reception.welcome], ?_⟩
  simp [phase, session?, reception]

/-! ## Everything else -/

def Counts (e e' : Ensemble) : Prop :=
  e.connectAttempts ≤ e'.connectAttempts ∧
    (e'.connectAttempts = e.connectAttempts → e'.reception.opened = e.reception.opened)

theorem Counts.refl (e : Ensemble) : e.Counts e := ⟨Nat.le_refl _, fun _ => rfl⟩

theorem Counts.trans (h : e.Counts e') (h' : e'.Counts e'') : e.Counts e'' := by
  refine ⟨h.1.trans h'.1, fun hsame => ?_⟩
  have hle := h.1
  have hle' := h'.1
  exact (h'.2 (by omega)).trans (h.2 (by omega))

theorem counts_of_sessions (hattempts : e'.connectAttempts = e.connectAttempts)
    (hsessions : e'.sessions = e.sessions) : e.Counts e' :=
  ⟨hattempts.ge, fun _ => congrArg (List.map Session.identity) hsessions⟩

/-- A session that ends stays among those that have been opened. -/
theorem counts_setPhase (e : Ensemble) (id : Nat) (phase : SessionPhase) :
    e.Counts (e.setPhase id phase) := by
  refine ⟨Nat.le_refl _, fun _ => List.ext_getElem? fun i => ?_⟩
  simp only [reception, setPhase, List.getElem?_map, List.getElem?_modify]
  cases e.sessions[i]? with
  | none => rfl
  | some x => by_cases hi : id - 1 = i <;> simp [hi]

theorem counts_endSession (e : Ensemble) (id : Nat) (phase : SessionPhase) (order : List String) :
    e.Counts ((e.setPhase id phase).endSession id order) :=
  (counts_setPhase e id phase).trans (counts_of_sessions rfl rfl)

theorem counts_connect (e : Ensemble) (servers : String) (identity : Option String) :
    e.Counts (e.connect servers identity).2 := by
  have hattempts : (e.connect servers identity).2.connectAttempts = e.connectAttempts + 1 := by
    unfold connect
    dsimp only
    split_ifs <;> rfl
  exact ⟨by omega, fun hsame => by omega⟩

theorem connectAttempts_settle {α : Type} (e : Ensemble) (r : Except ServiceError (Change α)) :
    (e.settle r).2.connectAttempts = e.connectAttempts := by
  cases r <;> rfl

theorem connectAttempts_perform (e : Ensemble) (id : Nat) (r : Request) :
    (e.perform id r).2.connectAttempts = e.connectAttempts := by
  cases r with
  | stat p => rfl
  | getData p => rfl
  | getChildren p => rfl
  | create p data mode => exact connectAttempts_settle e _
  | setData p data version => exact connectAttempts_settle e _
  | delete p version => exact connectAttempts_settle e _
  | commit ops => exact connectAttempts_settle e _
  | watch root =>
    dsimp only [perform]
    split <;> rfl

theorem connectAttempts_complete (e : Ensemble) (id : Nat) (fault : Option ServiceError)
    (r : Request) : (e.complete id fault r).2.connectAttempts = e.connectAttempts := by
  rcases complete_cases e id fault r with ⟨_, heq⟩ | ⟨-, heq⟩ <;> rw [heq]
  exact connectAttempts_perform e id r

theorem Step.counts (h : Step e e') : e.Counts e' := by
  cases h with
  | connect servers identity => exact counts_connect e servers identity
  | failConnects count => exact counts_of_sessions rfl rfl
  | inject error => exact counts_of_sessions rfl rfl
  | setLatency ms => exact counts_of_sessions rfl rfl
  | accept accepted =>
    obtain ⟨-, rfl⟩ := accept_eq_ok accepted
    exact counts_of_sessions rfl rfl
  | complete id fault r =>
    exact counts_of_sessions (connectAttempts_complete e id fault r) (complete_frame e id fault r).1
  | expire live perm => exact counts_endSession ..
  | close live perm => exact counts_endSession ..
  | closeExpired expired => exact counts_setPhase ..

theorem Reads.connectAttempts_eq {i : Nat} (h : Reads i e e') :
    e'.connectAttempts = e.connectAttempts := by
  cases h with
  | take taken =>
    unfold nextEvent? at taken
    split at taken
    · obtain ⟨-, rfl⟩ := Prod.ext_iff.1 (Option.some.inj taken)
      rfl
    · simp at taken
  | drain =>
    unfold Ensemble.drain
    split <;> rfl
  | drop => rfl

theorem Leads.counts (h : e.Leads e') : e.Counts e' := by
  induction h with
  | refl => exact .refl e
  | tail _ hnext ih =>
    rcases hnext with hs | ⟨i, hr⟩
    · exact ih.trans hs.counts
    · exact ih.trans (counts_of_sessions hr.connectAttempts_eq hr.frame.2.1)

/-- How an ensemble may go on while nobody connects to it and its refusals are not set anew. -/
structure Unapproached (e e' : Ensemble) : Prop where
  leads : e.Leads e'
  attempts : e'.connectAttempts = e.connectAttempts
  refusals : e'.faults.failingConnects = e.faults.failingConnects

theorem Unapproached.refl (e : Ensemble) : e.Unapproached e := ⟨.refl, rfl, rfl⟩

theorem Unapproached.trans (h : e.Unapproached e') (h' : e'.Unapproached e'') :
    e.Unapproached e'' :=
  ⟨h.leads.trans h'.leads, h'.attempts.trans h.attempts, h'.refusals.trans h.refusals⟩

theorem unapproached_of_accept {now id : Nat} {hold : Hold}
    (h : e.accept now id = .ok (hold, e')) : e.Unapproached e' := by
  have hleads : e.Leads e' := .single (.inl (.accept h))
  obtain ⟨-, rfl⟩ := accept_eq_ok h
  exact ⟨hleads, rfl, rfl⟩

theorem unapproached_of_reads {i : Nat} (h : Reads i e e') : e.Unapproached e' :=
  ⟨.single (.inr ⟨i, h⟩), h.connectAttempts_eq, congrArg Faults.failingConnects h.frame.2.2.1⟩

theorem Unapproached.reception_eq (h : e.Unapproached e') : e'.reception = e.reception := by
  have hopened := h.leads.counts.2 h.attempts
  unfold reception at hopened ⊢
  rw [h.attempts, h.refusals]
  exact congrArg _ hopened

end Ensemble

end KeyRegistry
