import KeyRegistry.Proofs.Center.Errand
import KeyRegistry.Proofs.Task.Talking
import KeyRegistry.Proofs.Text.Utf8

/-!
# After the session has expired

Once the service has expired the session of a center, the first call of every
errand is refused, whatever goes on at the service, until the session is closed.
One errand may get by without a call: a key that the replica holds a copy of is
still read from there.
-/

namespace KeyRegistry

open KeyRegistry.Path

namespace Ensemble

variable {e e' : Ensemble} {id : Nat}

def Over (e : Ensemble) (id : Nat) : Prop := ∃ x, e.session? id = some x ∧ x.phase ≠ .live

theorem Over.congr (h : e.Over id) (hsessions : e'.sessions = e.sessions) : e'.Over id := by
  unfold Over session? at h ⊢
  rwa [hsessions]

theorem Over.setPhase (h : e.Over id) (k : Nat) {phase : SessionPhase} (hphase : phase ≠ .live) :
    (e.setPhase k phase).Over id := by
  obtain ⟨x, hx, hover⟩ := h
  unfold Over
  rw [session?_setPhase, hx]
  split_ifs
  · exact ⟨{ x with phase := phase }, rfl, hphase⟩
  · exact ⟨x, rfl, hover⟩

theorem Over.step (h : e.Over id) (hs : Step e e') : e'.Over id := by
  cases hs with
  | connect servers identity => exact h.imp fun x hx => ⟨session?_connect hx.1 .., hx.2⟩
  | failConnects count => exact h
  | inject error => exact h
  | setLatency ms => exact h
  | accept accepted =>
    obtain ⟨-, rfl⟩ := accept_eq_ok accepted
    exact h
  | complete k fault r =>
    exact h.congr (complete_frame e k fault r).1
  | @expire k order live perm =>
    have hover : (e.setPhase k .expired).Over id := h.setPhase k (by decide)
    exact hover.congr rfl
  | @close k order live perm =>
    have hover : (e.setPhase k .closed).Over id := h.setPhase k (by decide)
    exact hover.congr rfl
  | @closeExpired k expired => exact h.setPhase k (by decide)

/-- A session that has ended does not come back. -/
theorem Over.leads (h : e.Over id) (hl : e.Leads e') : e'.Over id := by
  induction hl with
  | refl => exact h
  | tail _ hnext ih =>
    rcases hnext with hs | ⟨i, hr⟩
    · exact ih.step hs
    · exact ih.congr hr.frame.2.1

theorem over_of_expired (h : e.phase id = .expired) : e.Over id := by
  obtain ⟨h0, x, hx, hphase⟩ := exists_session_of_phase (show e.phase id ≠ .closed by simp [h])
  exact ⟨x, by simp [session?, h0, hx], by simp [hphase, h]⟩

theorem Over.expired (h : e.Over id) (hclosed : e.phase id ≠ .closed) :
    e.phase id = .expired := by
  obtain ⟨x, hx, hover⟩ := h
  unfold phase at hclosed ⊢
  rw [hx] at hclosed ⊢
  cases hphase : x.phase <;> simp_all

end Ensemble

namespace World

variable {w w' : World} {c : Nat} {a : Active} {kept : Prop} {full : String}
  {copy : Option Entry}

def copy? (w : World) (replica : Nat) (full : String) : Option Entry :=
  (w.replica? replica).bind fun m => m.get? full

/-- What may happen while the center `c` stays started as it is and its session is not closed. If
`kept`, the copy of `full` in its replica stays as it is too. -/
structure Adrift (c : Nat) (a : Active) (kept : Prop) (full : String) (w w' : World) : Prop where
  active : w.active? c = some a → w'.active? c = some a
  service {e : Ensemble} : w.ensembles[a.session.ensemble]? = some e →
    ∃ e', w'.ensembles[a.session.ensemble]? = some e' ∧ e.Leads e' ∧
      e'.phase a.session.number ≠ .closed
  mirror : kept → w'.copy? a.replica full = w.copy? a.replica full

structure Lost (c : Nat) (a : Active) (kept : Prop) (full : String) (copy : Option Entry)
    (w : World) : Prop where
  active : w.active? c = some a
  expired : w.Holds a.session.ensemble (·.phase a.session.number = .expired)
  mirror : kept → w.copy? a.replica full = copy

theorem stable_lost : Task.Stable (Adrift c a kept full) (Lost c a kept full copy) := by
  rintro w w' ⟨hactive, ⟨e, he, hexpired⟩, hmirror⟩ hw
  obtain ⟨e', he', hleads, hclosed⟩ := hw.service he
  exact ⟨hw.active hactive, ⟨e', he', ((Ensemble.over_of_expired hexpired).leads hleads).expired
    hclosed⟩, fun h => (hw.mirror h).trans (hmirror h)⟩

/-- A call is admitted, which may take a fault off the queue. -/
theorem Lost.accept (h : w.Lost c a kept full copy) :
    ∃ hold w', w.accept a.session = .ok (hold, w') ∧ w'.Lost c a kept full copy := by
  obtain ⟨hactive, ⟨e, he, hexpired⟩, hmirror⟩ := h
  have hens : w.ensemble a.session.ensemble = e := by simp [ensemble, he]
  have hopen : e.phase a.session.number ≠ .closed := by simp [hexpired]
  have hadmitted : w.accept a.session =
      .ok (⟨e.faults.pending.head?, w.now, w.now + e.faults.latencyMs⟩,
        w.setEnsemble a.session.ensemble
          { e with faults := { e.faults with pending := e.faults.pending.tail } }) := by
    simp [World.accept, hens, Ensemble.accept, hopen]
  exact ⟨_, _, hadmitted, hactive, holds_setEnsemble he hexpired, hmirror⟩

/-- A call that was admitted is refused. -/
theorem Lost.complete (h : w.Lost c a kept full copy) (fault : Option ServiceError)
    (r : Request) : w.complete a.session fault r = (.error .sessionExpired, w) := by
  obtain ⟨e, he, hexpired⟩ := h.expired
  have hens : w.ensemble a.session.ensemble = e := by simp [ensemble, he]
  rw [World.complete, hens, Ensemble.complete_of_expired hexpired]
  simp [setEnsemble_self he]

end World

/-! ## Dialogues over an expired session -/

def Dialogue.Falls {β : Type} (d : Dialogue β) (error : ServiceError) (b : β) : Prop :=
  ∃ r rest, d.turn = .call r rest ∧ (rest (.error error)).turn = .done b

namespace Task

variable {α β : Type} {post : α → World → Prop} {w : World} {c : Nat} {a : Active} {kept : Prop}
  {full : String} {copy : Option Entry}

theorem ends_talk_lost {d : Dialogue β} {b : β} {next : β → Task α}
    (hd : d.Falls .sessionExpired b) (hw : w.Lost c a kept full copy)
    (h : ∀ w, w.Lost c a kept full copy → Ends (World.Adrift c a kept full) post w (next b)) :
    Ends (World.Adrift c a kept full) post w (talk a.session d next) := by
  obtain ⟨r, rest, hcall, hdone⟩ := hd
  have hadmitted (v : World) (hv : v.Lost c a kept full copy) : ∃ hold v',
      (talk a.session d next).step v = some (v', serving a.session r hold rest next) ∧
        v'.Lost c a kept full copy := by
    obtain ⟨hold, v', haccept, hlost⟩ := hv.accept
    exact ⟨hold, v', by simp only [step, hcall, haccept], hlost⟩
  refine .move 0 rfl (fun v hv _ => ?_) fun v w' t' hv hstep => ?_
  · obtain ⟨hold, v', heq, -⟩ := hadmitted v (World.stable_lost w v hw hv)
    simp [heq]
  · obtain ⟨hold, v', heq, hlost⟩ := hadmitted v (World.stable_lost w v hw hv)
    rw [heq] at hstep
    obtain ⟨rfl, rfl⟩ := Prod.ext_iff.1 (Option.some.inj hstep)
    refine .move hold.due rfl (fun u hu hle => by simp [step, Nat.not_lt.2 hle])
      fun u w' t' hu hstep => ?_
    have hlost' := World.stable_lost _ u hlost hu
    simp only [step, hlost'.complete] at hstep
    split_ifs at hstep
    obtain ⟨rfl, rfl⟩ := Prod.ext_iff.1 (Option.some.inj hstep)
    exact ends_talk_done World.stable_lost hlost' hdone h

end Task

/-! ## Errands of a center that has lost its session -/

namespace Center

variable {α : Type} {post : Except RegistryError α → World → Prop} {w : World} {c : Nat}
  {a : Active} {kept : Prop} {full key : String} {copy : Option Entry}

theorem place_of_lost (hw : w.Lost c a kept full copy) (hk : Valid key) :
    place w c key = .ok (a, a.scope.place key) := by
  simp [place, hw.active, Namespace.resolve_of_valid a.scope hk]

theorem ends_say_lost {s : SessionId} (hs : s = a.session)
    {d : Dialogue (Except RegistryError α)}
    (hd : d.Falls .sessionExpired (.error (.service .sessionExpired)))
    (hw : w.Lost c a kept full copy) :
    Task.Ends (World.Adrift c a kept full)
      (fun result _ => result = .error (.service .sessionExpired)) w (Task.say s d) := by
  subst hs
  exact Task.ends_talk_lost hd hw fun _ _ => .done rfl

theorem ends_onKey_lost (hk : Valid key)
    {d : Active → String → Dialogue (Except RegistryError α)}
    (hd : ∀ a full, (d a full).Falls .sessionExpired (.error (.service .sessionExpired)))
    (hw : w.Lost c a kept full copy) :
    Task.Ends (World.Adrift c a kept full)
      (fun result _ => result = .error (.service .sessionExpired)) w (onKey c key d) := by
  refine Task.ends_look World.stable_lost hw fun w hw => ?_
  rw [place_of_lost hw hk]
  exact ends_say_lost rfl (hd _ _) hw

/-- A handle of the session fares as its center does. -/
theorem ends_handle_lost (hk : Valid key) {h : SessionHandle} (hh : h.session = a.session)
    {d : String → Dialogue (Except RegistryError α)}
    (hd : ∀ full, (d full).Falls .sessionExpired (.error (.service .sessionExpired)))
    (hw : w.Lost c a kept full copy) :
    Task.Ends (World.Adrift c a kept full)
      (fun result _ => result = .error (.service .sessionExpired)) w (h.onKey key d) := by
  rw [SessionHandle.onKey, Namespace.resolve_of_valid h.scope hk]
  exact ends_say_lost hh (hd _) hw

/-- A copy in the replica is served; without one the service is asked. -/
theorem ends_get_lost (hk : Valid key) (hkept : kept)
    (hw : w.Lost c a kept (a.scope.place key) copy) :
    Task.Ends (World.Adrift c a kept (a.scope.place key))
      (fun result _ => result = match copy with
        | some entry => .ok (some (Text.Utf8.decodeLossy entry.data))
        | none => .error (.service .sessionExpired)) w (get c key) := by
  refine Task.ends_look World.stable_lost hw fun w hw => ?_
  rw [place_of_lost hw hk]
  refine Task.ends_look World.stable_lost hw fun w hw => ?_
  have hcopy : ((w.replica? a.replica).bind fun m => m.get? (a.scope.place key)) = copy :=
    hw.mirror hkept
  rw [hcopy]
  cases copy with
  | some entry => exact .done rfl
  | none => exact ends_say_lost rfl ⟨_, _, rfl, rfl⟩ hw

theorem ends_persist_lost (hk : Valid key) (value : String) (hw : w.Lost c a kept full copy) :
    Task.Ends (World.Adrift c a kept full)
      (fun result _ => result = .error (.service .sessionExpired)) w (persist c key value) :=
  ends_onKey_lost hk (fun _ _ => ⟨_, _, rfl, rfl⟩) hw

theorem ends_time_lost (hk : Valid key) (hw : w.Lost c a kept full copy) :
    Task.Ends (World.Adrift c a kept full)
      (fun result _ => result = .error (.service .sessionExpired)) w (time c key) := by
  refine Task.Ends.bind ((ends_persist_lost hk "" hw).weaken ?_)
  rintro _ w rfl
  exact .done rfl

theorem ends_errand_lost (op : Errand) {h : SessionHandle} (hh : h.session = a.session)
    (hk : Valid key) (hw : w.Lost c a (op = .get) (a.scope.place key) copy)
    (hcopy : op = .get → copy = none) :
    Task.Ends (World.Adrift c a (op = .get) (a.scope.place key))
      (fun result _ => result = .error (.service .sessionExpired)) w (op.task c h key) := by
  cases op with
  | get =>
    obtain rfl := hcopy rfl
    exact ends_get_lost hk rfl hw
  | getDirectly => exact ends_onKey_lost hk (fun _ _ => ⟨_, _, rfl, rfl⟩) hw
  | childNames => exact ends_onKey_lost hk (fun _ _ => ⟨_, _, rfl, rfl⟩) hw
  | countChildren => exact ends_onKey_lost hk (fun _ _ => ⟨_, _, rfl, rfl⟩) hw
  | isPresent => exact ends_onKey_lost hk (fun _ _ => ⟨_, _, rfl, rfl⟩) hw
  | persist value => exact ends_persist_lost hk value hw
  | update value => exact ends_onKey_lost hk (fun _ _ => ⟨_, _, rfl, rfl⟩) hw
  | persistEphemeral value => exact ends_onKey_lost hk (fun _ _ => ⟨_, _, rfl, rfl⟩) hw
  | persistEphemeralSequential => exact ends_onKey_lost hk (fun _ _ => ⟨_, _, rfl, rfl⟩) hw
  | persistSequential value => exact ends_onKey_lost hk (fun _ _ => ⟨_, _, rfl, rfl⟩) hw
  | remove => exact ends_onKey_lost hk (fun _ _ => ⟨_, _, rfl, rfl⟩) hw
  | time => exact ends_time_lost hk hw
  | create content mode => exact ends_handle_lost hk hh (fun _ => ⟨_, _, rfl, rfl⟩) hw
  | stat => exact ends_handle_lost hk hh (fun _ => ⟨_, _, rfl, rfl⟩) hw
  | data => exact ends_handle_lost hk hh (fun _ => ⟨_, _, rfl, rfl⟩) hw
  | children => exact ends_handle_lost hk hh (fun _ => ⟨_, _, rfl, rfl⟩) hw
  | delete => exact ends_handle_lost hk hh (fun _ => ⟨_, _, rfl, rfl⟩) hw
  | deleteVersion version => exact ends_handle_lost hk hh (fun _ => ⟨_, _, rfl, rfl⟩) hw

/-- Once the session of a started center has expired, and as long as it is not closed, every errand
on a valid key fails for that reason, whatever else goes on. The one exception is a `get` of a key
that the replica holds a copy of: it yields the text of the copy. -/
theorem ends_errand_expired {e : Ensemble} {h : SessionHandle} (op : Errand)
    (hactive : w.active? c = some a) (hhandle : sessionHandle w c = .ok h) (hk : Valid key)
    (he : w.ensembles[a.session.ensemble]? = some e)
    (hexpired : e.phase a.session.number = .expired) :
    ((op = .get → w.copy? a.replica (a.scope.place key) = none) →
      Task.Ends (World.Adrift c a (op = .get) (a.scope.place key))
        (fun result _ => result = .error (.service .sessionExpired)) w (op.task c h key)) ∧
    ∀ entry, w.copy? a.replica (a.scope.place key) = some entry →
      Task.Ends (World.Adrift c a True (a.scope.place key))
        (fun text _ => text = .ok (some (Text.Utf8.decodeLossy entry.data))) w (get c key) := by
  have hh : h.session = a.session := by
    simp only [sessionHandle, hactive, Except.ok.injEq] at hhandle
    rw [← hhandle]
  refine ⟨fun hcopy => ends_errand_lost op hh hk ⟨hactive, ⟨e, he, hexpired⟩, fun _ => rfl⟩ hcopy,
    fun entry hentry => ?_⟩
  exact ends_get_lost hk trivial ⟨hactive, ⟨e, he, hexpired⟩, fun _ => hentry⟩

def overtaken : Ensemble :=
  let e := (({} : Ensemble).connect "memory" none).2
  let e := (e.complete 1 none (.create "/jobs" [] .persistent)).2
  let e := (e.complete 1 none (.create "/jobs/k" (Text.Utf8.encode "old") .persistent)).2
  let e := (((e.setPhase 1 .expired).endSession 1 []).connect "memory" none).2
  (e.complete 2 none (.setData "/jobs/k" (Text.Utf8.encode "new") none)).2

def stranded : World where
  ensembles := [overtaken]
  replicas := [{
    root := "/jobs"
    phase := .started
    entries := [⟨"/jobs/k", Text.Utf8.encode "old", ⟨3, 3, 0, 0, none, 3, 0⟩⟩] }]
  centers := [{ connector := 0, active := some ⟨⟨0, 1⟩, 0, ⟨"/jobs"⟩⟩ }]

/-- What the replica has seen is read from it for ever, while the service keeps something else and
refuses to read what the replica has not seen. -/
theorem ends_errand_stranded :
    Task.Ends (World.Adrift 0 ⟨⟨0, 1⟩, 0, ⟨"/jobs"⟩⟩ True "/jobs/k")
      (fun text _ => text = .ok (some "old")) stranded (get 0 "/k") ∧
    (overtaken.tree.node? "/jobs/k").map Node.data = some (Text.Utf8.encode "new") ∧
    Task.Ends (World.Adrift 0 ⟨⟨0, 1⟩, 0, ⟨"/jobs"⟩⟩ (Errand.getDirectly = .get) "/jobs/k")
      (fun text _ => text = .error (.service .sessionExpired)) stranded (getDirectly 0 "/k") := by
  have hk : Valid "/k" := by decide
  have hplace : (⟨"/jobs"⟩ : Namespace).place "/k" = "/jobs/k" := by decide
  have hcopy : stranded.copy? 0 "/jobs/k" =
      some ⟨"/jobs/k", Text.Utf8.encode "old", ⟨3, 3, 0, 0, none, 3, 0⟩⟩ := by decide
  have hactive : stranded.active? 0 = some ⟨⟨0, 1⟩, 0, ⟨"/jobs"⟩⟩ := rfl
  have hexpired : overtaken.phase 1 = .expired := by decide
  obtain ⟨hasked, hserved⟩ := ends_errand_expired .getDirectly hactive rfl hk rfl hexpired
  rw [hplace] at hasked hserved
  refine ⟨(hserved _ hcopy).weaken ?_, by decide, hasked (by simp)⟩
  rintro text w rfl
  rw [Text.Utf8.decodeLossy_encode]

end Center

end KeyRegistry
