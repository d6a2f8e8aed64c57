import KeyRegistry.Proofs.Center.Failing
import KeyRegistry.Proofs.Center.Persisting
import KeyRegistry.Proofs.Task.Joint

/-!
# Centers side by side

Centers of one namespace and one identity persist and remove keys at the same time. Their
calls are answered one after the other by one ensemble, each client gets the transcript of
its dialogue, and no node on the way to a key ever is ephemeral.
-/

namespace KeyRegistry

open KeyRegistry.Path

inductive Edit
  | persist (value : String)
  | remove
  deriving DecidableEq, Repr

structure Job where
  center : Nat
  key : String
  edit : Edit
  deriving DecidableEq, Repr

namespace Job

def task (job : Job) : Task (Except RegistryError Unit) :=
  match job.edit with
  | .persist value => Center.persist job.center job.key value
  | .remove => Center.remove job.center job.key

def dialogue (job : Job) (full : String) : Dialogue (Except RegistryError Unit) :=
  match job.edit with
  | .persist value => Key.persist full (Text.Utf8.encode value)
  | .remove => Key.remove full

def Asks (job : Job) (full : String) (r : Request) : Prop :=
  match job.edit with
  | .persist value => Key.Asks full (Text.Utf8.encode value) r
  | .remove => (∃ p, r = .getChildren p) ∨ ∃ p, r = .delete p none

structure Staffed (job : Job) (k : Nat) (ns : Namespace) (identity : Option String) (w : World)
    (e : Ensemble) (a : Active) : Prop where
  valid : Valid job.key
  active : w.active? job.center = some a
  scope : a.scope = ns
  place : a.session.ensemble = k
  live : e.phase a.session.number = .live
  caller : (e.caller a.session.number).identity = identity

def At (job : Job) (ns : Namespace) (a : Active) (log : List Exchange)
    (t : Task (Except RegistryError Unit)) : Prop :=
  t = job.task ∧ log = [] ∨
  Task.Speaks (fun _ => False) a.session (job.dialogue (ns.place job.key)) log t ∧
    ∀ x ∈ log, x.session = a.session.number

variable {job : Job} {full : String}

theorem task_eq (job : Job) :
    job.task = Center.onKey job.center job.key fun _ full => job.dialogue full := by
  obtain ⟨c, key, edit⟩ := job
  cases edit <;> rfl

theorem only_dialogue (job : Job) (full : String) : (job.dialogue full).Only (job.Asks full) := by
  obtain ⟨c, key, edit⟩ := job
  cases edit with
  | persist value => exact Key.only_persist full _
  | remove =>
    exact (Dialogue.only_deleteFrom (fun p => .inl ⟨p, rfl⟩) (fun p => .inr ⟨p, rfl⟩) full 1 _).bind
      fun _ => trivial

theorem Asks.upkeep {r : Request} (h : job.Asks full r) : r.Upkeep := by
  obtain ⟨c, key, edit⟩ := job
  cases edit with
  | persist value => exact Key.Asks.upkeep h
  | remove =>
    rcases h with ⟨p, rfl⟩ | ⟨p, rfl⟩
    · exact .getChildren p
    · exact .delete p

end Job

/-- Started centers of one namespace and one identity over the ensemble `e` at place `k`, with a job
each, and no fault on its way. -/
structure Company (k : Nat) (ns : Namespace) (identity : Option String) (jobs : List Job)
    (w : World) (e : Ensemble) : Prop where
  ensemble : w.ensembles[k]? = some e
  reachable : e.Reachable
  unfaulted : e.faults.pending = []
  named : ∃ name, Namespace.ofName name = .ok ns
  staffed : ∀ job ∈ jobs, ∃ a, job.Staffed k ns identity w e a

structure Working (k : Nat) (ns : Namespace) (identity : Option String) (jobs : List Job)
    (w₀ : World) (e₀ : Ensemble) (log : List (Nat × Exchange)) (w : World)
    (ts : List (Task (Except RegistryError Unit))) : Prop where
  centers : w.centers = w₀.centers
  answers : ∃ e, w.ensembles[k]? = some e ∧ e₀.Answers (log.map Prod.snd) e
  busy : ∀ i t, ts[i]? = some t → ∃ (job : Job) (a : Active), jobs[i]? = some job ∧
    job.Staffed k ns identity w₀ e₀ a ∧ job.At ns a (Task.own i log) t

section Moves

variable {k : Nat} {ns : Namespace} {identity : Option String} {jobs : List Job} {w₀ w v u : World}
  {e₀ e : Ensemble} {job : Job} {a : Active} {log : List Exchange}
  {t t' : Task (Except RegistryError Unit)}

/-- A move of a task at its job: it may make an exchange, and does nothing else to the ensemble. -/
theorem Job.At.step (h : job.At ns a log t) (hjob : job.Staffed k ns identity w₀ e₀ a)
    (hcenters : v.centers = w₀.centers) (he : v.ensembles[k]? = some e)
    (hsessions : e.sessions = e₀.sessions) (hpending : e.faults.pending = [])
    (hstep : t.step v = some (u, t')) :
    u.centers = v.centers ∧ job.At ns a (log ++ (t.exchange? v).toList) t' ∧
      ((t.exchange? v = none ∧ u.ensembles[k]? = some e) ∨
        ∃ x, t.exchange? v = some x ∧ x.before = e ∧ x.Plain ∧ u.ensembles[k]? = some x.after) := by
  obtain ⟨hlt, -⟩ := List.getElem?_eq_some_iff.1 he
  have hens : v.ensemble k = e := by simp [World.ensemble, he]
  rcases h with ⟨rfl, rfl⟩ | ⟨hspeaks, hlog⟩
  · have hactive : v.active? job.center = some a := by
      rw [← hjob.active]
      simp [World.active?, World.center?, hcenters]
    have hplace : Center.place v job.center job.key = .ok (a, ns.place job.key) := by
      simp [Center.place, hactive, hjob.scope, Namespace.resolve_of_valid ns hjob.valid]
    rw [Job.task_eq] at hstep
    obtain ⟨rfl, ht'⟩ := Prod.ext_iff.1 (Option.some.inj hstep)
    dsimp only at ht'
    rw [hplace] at ht'
    subst ht'
    have hnone : job.task.exchange? v = none := by rw [Job.task_eq]; rfl
    rw [hnone]
    exact ⟨rfl, .inr ⟨.talking (.here _), by simp⟩, .inl ⟨rfl, he⟩⟩
  · obtain rfl := hjob.place
    have hfaults : ∀ error ∈ (v.ensemble a.session.ensemble).faults.pending, False := by
      simp [hens, hpending]
    obtain ⟨hnext, ⟨hnone, e', hadmits, hputs⟩ | ⟨x, hsome, hx⟩⟩ := hspeaks.step hfaults hstep
    · obtain rfl := hadmits.eq_of_unfaulted (by rw [hens, hpending])
      exact ⟨hputs.centers, .inr ⟨hnext, by simpa [hnone] using hlog⟩,
        .inl ⟨hnone, (hputs.getElem? hlt).trans (congrArg some hens)⟩⟩
    · have hlive : x.before.phase x.session = .live := by
        rw [hx.before, hens, hx.session, Ensemble.phase_congr hsessions, hjob.live]
      refine ⟨hx.after.centers, .inr ⟨hnext, ?_⟩, .inr ⟨x, hsome, hx.before.trans hens,
        hx.answered.perform_of_live hlive, hx.after.getElem? hlt⟩⟩
      simp only [hsome, Option.toList_some, List.forall_mem_append, List.forall_mem_singleton]
      exact ⟨hlog, hx.session⟩

end Moves

namespace Company

variable {k : Nat} {ns : Namespace} {identity : Option String} {jobs : List Job} {w₀ w : World}
  {e₀ e : Ensemble} {log : List (Nat × Exchange)} {ts : List (Task (Except RegistryError Unit))}
  {i : Nat} {x : Exchange} {p : String}

theorem working (hc : Company k ns identity jobs w₀ e₀)
    (h : Task.Joint World.Meanwhile w₀ (jobs.map Job.task) log w ts) :
    Working k ns identity jobs w₀ e₀ log w ts := by
  induction h with
  | start =>
    refine ⟨rfl, ⟨e₀, hc.ensemble, .start⟩, fun i t ht => ?_⟩
    rw [List.getElem?_map] at ht
    obtain ⟨job, hjob, rfl⟩ := Option.map_eq_some_iff.1 ht
    obtain ⟨a, ha⟩ := hc.staffed job (List.mem_of_getElem? hjob)
    exact ⟨job, a, hjob, ha, .inl ⟨rfl, rfl⟩⟩
  | @move log w v u ts t t' i run between turn step ih =>
    obtain ⟨e, he, hanswers⟩ := ih.answers
    obtain ⟨job, a, hjob, ha, hat⟩ := ih.busy i t turn
    obtain ⟨e', he', hkept⟩ := between.ensemble he (by rw [hanswers.frame.1.2, hc.unfaulted])
    have hrest := hanswers.rest hkept
    obtain ⟨hsessions, hfaults⟩ := hrest.frame.1
    have hcenters := between.centers.trans ih.centers
    obtain ⟨hu, hat', hmade⟩ :=
      hat.step ha hcenters he' hsessions (by rw [hfaults, hc.unfaulted]) step
    refine ⟨hu.trans hcenters, ?_, fun j s hs => ?_⟩
    · rcases hmade with ⟨hnone, hu⟩ | ⟨x, hsome, rfl, hplain, hu⟩
      · exact ⟨e', hu, by simpa [hnone] using hrest⟩
      · exact ⟨x.after, hu, by simpa [hsome] using hrest.serve hplain⟩
    · by_cases hij : i = j
      · subst hij
        rw [List.getElem?_set_self (List.getElem?_eq_some_iff.1 turn).1] at hs
        cases hs
        rw [Task.own_append, Task.own_self]
        exact ⟨job, a, hjob, ha, hat'⟩
      · rw [List.getElem?_set_ne hij] at hs
        rw [Task.own_append, Task.own_other hij, List.append_nil]
        exact ih.busy j s hs

/-- What comes after an exchange goes on from the state that it has left. -/
theorem rest (hc : Company k ns identity jobs w₀ e₀)
    (h : Task.Joint World.Meanwhile w₀ (jobs.map Job.task) log w ts)
    {before after : List (Nat × Exchange)} (hlog : log = before ++ (i, x) :: after) :
    ∃ e, w.ensembles[k]? = some e ∧ x.after.tree.WellFormed ∧
      x.after.Answers (after.map Prod.snd) e := by
  obtain ⟨e, he, hanswers⟩ := (hc.working h).answers
  rw [hlog, List.map_append, List.map_cons] at hanswers
  obtain ⟨hfirst, hplain, hrest⟩ := hanswers.cut
  exact ⟨e, he, hplain.steps.wellFormed (hfirst.wellFormed hc.reachable.wellFormed).1, hrest⟩

/-- An exchange of a joint run is one that its job asks for, made by a caller of the identity. -/
theorem entry (hc : Company k ns identity jobs w₀ e₀)
    (h : Task.Joint World.Meanwhile w₀ (jobs.map Job.task) log w ts) (hx : (i, x) ∈ log) :
    ∃ job, jobs[i]? = some job ∧ Valid (ns.place job.key) ∧
      job.Asks (ns.place job.key) x.request ∧ x.Plain ∧
      (x.before.caller x.session).identity = identity := by
  have hworking := hc.working h
  obtain ⟨t, ht⟩ := h.exists_of_mem hx
  obtain ⟨e, -, hanswers⟩ := hworking.answers
  obtain ⟨job, a, hjob, ha, ⟨-, hnone⟩ | ⟨hspeaks, hsession⟩⟩ := hworking.busy i t ht
  · rw [← Task.mem_own_iff, hnone] at hx
    cases hx
  · have hown := Task.mem_own_iff.2 hx
    have hmem : x ∈ log.map Prod.snd := List.mem_map_of_mem hx
    obtain ⟨name, hname⟩ := hc.named
    refine ⟨job, hjob, Namespace.valid_place_of_ofName hname ha.valid,
      hspeaks.transcript.only (job.only_dialogue _) x hown, hanswers.plain x hmem, ?_⟩
    rw [Ensemble.caller_congr (hanswers.frame.2 x hmem).1, hsession x hown, ha.caller]

/-- What is known of a state at the beginning and is kept by every exchange that a job asks for,
holds in the end and wherever an exchange begins. -/
theorem invariant {P : Tree → Prop} (hc : Company k ns identity jobs w₀ e₀)
    (h : Task.Joint World.Meanwhile w₀ (jobs.map Job.task) log w ts) (h₀ : P e₀.tree)
    (hserve : ∀ i x, (i, x) ∈ log → x.before.tree.WellFormed → P x.before.tree → P x.after.tree) :
    ∃ e, w.ensembles[k]? = some e ∧ P e.tree ∧ ∀ i x, (i, x) ∈ log → P x.before.tree := by
  obtain ⟨e, he, hanswers⟩ := (hc.working h).answers
  obtain ⟨⟨-, hP⟩, hlog⟩ := hanswers.invariant (P := fun e => e.tree.WellFormed ∧ P e.tree)
    ⟨hc.reachable.wellFormed, h₀⟩ (fun _ _ he kept => kept.tree ▸ he)
    fun x hx hplain hbefore => by
      obtain ⟨⟨i, _⟩, hi, rfl⟩ := List.mem_map.1 hx
      exact ⟨hplain.steps.wellFormed hbefore.1, hserve i _ hi hbefore.1 hbefore.2⟩
  exact ⟨e, he, hP, fun i x hx => (hlog x (List.mem_map_of_mem hx)).2⟩

/-- No job makes a node ephemeral. -/
theorem fair (hc : Company k ns identity jobs w₀ e₀)
    (h : Task.Joint World.Meanwhile w₀ (jobs.map Job.task) log w ts) (hp : e₀.tree.Lasting p)
    (hx : (i, x) ∈ log) : x.Fair p := by
  obtain ⟨e, -, hanswers⟩ := (hc.working h).answers
  have hmem : x ∈ log.map Prod.snd := List.mem_map_of_mem hx
  refine ⟨hanswers.plain x hmem, (hanswers.wellFormed hc.reachable.wellFormed).2 x hmem, ?_⟩
  obtain ⟨-, -, -, hlasting⟩ := hc.invariant h (P := fun t => t.Lasting p) hp
    fun j y hy ht hbefore q m hm hq => by
      obtain ⟨job, -, -, hasks, hplain, -⟩ := hc.entry h hy
      rcases hplain.kept_or_made hasks.upkeep ht hm with ⟨n, hn, -, howner⟩ | ⟨-, hnone⟩
      · rw [howner, hbefore q n hn hq]
      · exact hnone
  exact hlasting i x hx

end Company

end KeyRegistry
