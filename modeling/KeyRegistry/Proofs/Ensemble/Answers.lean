import KeyRegistry.Proofs.Dialogue.Transcript
import KeyRegistry.Proofs.Task.Meanwhile
import KeyRegistry.Proofs.Tree.Sequence

/-!
# Exchanges one after the other

An ensemble that answers calls and is otherwise only read goes from exchange to
exchange: each finds the tree that the one before has left. What comes between two
states is then told by the exchanges between them.
-/

namespace KeyRegistry

open KeyRegistry.Path

/-- What centers ask for to keep the persistent nodes of keys: nothing ephemeral is created. -/
inductive Request.Upkeep : Request → Prop
  | stat (p : String) : Upkeep (.stat p)
  | getChildren (p : String) : Upkeep (.getChildren p)
  | create (p : String) (data : List UInt8) : Upkeep (.create p data .persistent)
  | rewrite (p : String) (data : List UInt8) :
      Upkeep (.commit [.check p none, .setData p data none])
  | delete (p : String) : Upkeep (.delete p none)

theorem Request.events_rewrite {p : String} {data : List UInt8}
    {answer : Request.Answer (.commit [.check p none, .setData p data none])} {ev : Event}
    (h : ev ∈ Request.events _ answer) : ev = ⟨.dataChanged, p⟩ := by
  rcases answer with error | outcomes
  · cases h
  · rcases outcomes with _ | ⟨first, _ | ⟨second, _⟩⟩
    · cases h
    · simp [Request.events, Operation.allEvents, Operation.events] at h
    · cases second <;> simp_all [Request.events, Operation.allEvents, Operation.events]

namespace Tree

variable {t t' : Tree} {p q : String} {who : Caller} {data : List UInt8} {m : Node}
  {evs : List Event}

/-- Without a creation, a node after changes was there before. -/
theorem Steps.old_of_not_created (h : t.WellFormed) (hs : Steps who t evs t')
    (hevs : ∀ ev ∈ evs, ev.kind ≠ .created) (hm : t'.node? p = some m) :
    ∃ n, t.node? p = some n ∧ m.acl = n.acl ∧ m.stat.owner = n.stat.owner := by
  induction hs with
  | nil => exact ⟨m, hm, rfl, rfl⟩
  | cons first _ ih =>
    obtain ⟨k, hk, hacl, howner⟩ :=
      ih (first.wellFormed h) (fun ev hev => hevs ev (by simp [hev])) hm
    rcases first.old_or_new h hk with ⟨n, hn⟩ | ⟨rfl, -⟩
    · obtain ⟨-, hacl', howner'⟩ := first.origin_eq h hn hk
      exact ⟨n, hn, hacl.trans hacl', howner.trans howner'⟩
    · exact absurd rfl (hevs ⟨.created, p⟩ (by simp))

/-- A node after a persistent creation was there before, or it is the new one. -/
theorem node?_of_create {c : Change String} (h : t.WellFormed)
    (hc : t.create p data .persistent who = .ok c) (hm : c.tree.node? q = some m) :
    (∃ n, t.node? q = some n ∧ m.acl = n.acl ∧ m.stat.owner = n.stat.owner) ∨
      q = p ∧ m = Node.new data who.acl (t.zxid + 1) none := by
  obtain ⟨top, parent, hp, hq, hparent, -, -, hfresh, rfl⟩ := create_ok_cases hc
  have hactual : actualPath p .persistent parent = p := actualPath_of_not_sequential rfl p parent
  simp only [hactual] at hfresh hm
  rw [node?_withNode (h.node?_eq_none_of_fresh hq hparent hfresh) (ne_of_parent? hp hq)] at hm
  split_ifs at hm with hqp hqtop
  · exact .inr ⟨hqp, (Option.some.inj hm).symm⟩
  · rw [Option.map_eq_some_iff] at hm
    obtain ⟨n, hn, rfl⟩ := hm
    exact .inl ⟨n, hn, rfl, rfl⟩
  · exact .inl ⟨m, hm, rfl, rfl⟩

end Tree

namespace Exchange

variable {x : Exchange} {p : String} {m : Node}

def Plain (x : Exchange) : Prop :=
  x.before.perform x.session x.request = (x.answer, x.after)

theorem Plain.steps (h : x.Plain) :
    Tree.Steps (x.before.caller x.session) x.before.tree x.events x.after.tree := by
  have hev := (Ensemble.evolves_perform x.before x.session x.request).1
  rw [h] at hev
  exact hev.tree

theorem Plain.frame (h : x.Plain) :
    x.after.sessions = x.before.sessions ∧ x.after.faults = x.before.faults := by
  have hframe := Ensemble.perform_frame x.before x.session x.request
  rwa [h] at hframe

/-- A node after an exchange was there before, or it is persistent and follows the caller's rule. -/
theorem Plain.kept_or_made (h : x.Plain) (hr : x.request.Upkeep) (ht : x.before.tree.WellFormed)
    (hm : x.after.tree.node? p = some m) :
    (∃ n, x.before.tree.node? p = some n ∧ m.acl = n.acl ∧ m.stat.owner = n.stat.owner) ∨
      m.acl = (x.before.caller x.session).acl ∧ m.stat.owner = none := by
  have hsteps := h.steps
  obtain ⟨s, r, answer, e, e'⟩ := x
  cases hr with
  | create q data =>
    have hanswer : (e.settle _).1 = answer := congrArg Prod.fst h
    cases answer with
    | error error => exact .inl (hsteps.old_of_not_created ht nofun hm)
    | ok actual =>
      obtain ⟨c, hc, -, htree⟩ := Ensemble.ok_of_settle hanswer
      have hafter : (e.settle (e.tree.create q data .persistent (e.caller s))).2 = e' :=
        congrArg Prod.snd h
      rw [← hafter, htree] at hm
      refine (Tree.node?_of_create ht hc hm).imp_right ?_
      rintro ⟨-, rfl⟩
      exact ⟨rfl, rfl⟩
  | rewrite q data =>
    refine .inl (hsteps.old_of_not_created ht (fun ev hev => ?_) hm)
    rw [Request.events_rewrite hev]
    simp
  | _ =>
    refine .inl (hsteps.old_of_not_created ht ?_ hm)
    cases answer <;> simp [events, Request.events]

end Exchange

namespace Ensemble

variable {e₀ e e' : Ensemble} {log log' : List Exchange} {p : String}

/-- The exchanges of an ensemble one after the other. In between it is only read. -/
inductive Answers (e₀ : Ensemble) : List Exchange → Ensemble → Prop
  | start : Answers e₀ [] e₀
  | rest {log : List Exchange} {e e' : Ensemble} (run : Answers e₀ log e) (kept : e.Unwritten e') :
      Answers e₀ log e'
  | serve {log : List Exchange} {x : Exchange} (run : Answers e₀ log x.before) (plain : x.Plain) :
      Answers e₀ (log ++ [x]) x.after

/-- A run is cut at one of its exchanges. -/
theorem Answers.cut {x : Exchange} (h : Answers e₀ (log ++ x :: log') e) :
    Answers e₀ log x.before ∧ x.Plain ∧ Answers x.after log' e := by
  generalize hwhole : log ++ x :: log' = whole at h
  induction h generalizing log' with
  | start => simp at hwhole
  | rest _ kept ih =>
    obtain ⟨hfirst, hplain, hlast⟩ := ih hwhole
    exact ⟨hfirst, hplain, .rest hlast kept⟩
  | @serve whole y run plain ih =>
    rcases log'.eq_nil_or_concat with rfl | ⟨init, z, rfl⟩
    · obtain ⟨rfl, hxy⟩ := List.append_inj' hwhole rfl
      obtain rfl := List.head_eq_of_cons_eq hxy
      exact ⟨run, plain, .start⟩
    · rw [List.concat_eq_append, ← List.cons_append, ← List.append_assoc] at hwhole
      obtain ⟨hinit, hzy⟩ := List.append_inj' hwhole rfl
      obtain rfl := List.head_eq_of_cons_eq hzy
      obtain ⟨hfirst, hplain, hlast⟩ := ih hinit
      rw [List.concat_eq_append]
      exact ⟨hfirst, hplain, .serve hlast plain⟩

/-- What reading and every exchange keep holds in the end and wherever an exchange begins. -/
theorem Answers.invariant {P : Ensemble → Prop} (h : Answers e₀ log e) (h₀ : P e₀)
    (hrest : ∀ e e', P e → e.Unwritten e' → P e')
    (hserve : ∀ x ∈ log, x.Plain → P x.before → P x.after) :
    P e ∧ ∀ x ∈ log, P x.before := by
  induction h with
  | start => exact ⟨h₀, by simp⟩
  | rest _ kept ih => exact (ih hserve).imp_left fun he => hrest _ _ he kept
  | @serve log x run plain ih =>
    obtain ⟨hx, hlog⟩ := ih fun y hy => hserve y (by simp [hy])
    refine ⟨hserve x (by simp) plain hx, fun y hy => ?_⟩
    rcases List.mem_append.1 hy with hy | hy
    · exact hlog y hy
    · obtain rfl := List.mem_singleton.1 hy
      exact hx

theorem Answers.plain (h : Answers e₀ log e) : ∀ x ∈ log, x.Plain := by
  induction h with
  | start => simp
  | rest _ _ ih => exact ih
  | serve _ plain ih => exact List.forall_mem_append.2 ⟨ih, by simpa using plain⟩

theorem Answers.wellFormed (h : Answers e₀ log e) (h₀ : e₀.tree.WellFormed) :
    e.tree.WellFormed ∧ ∀ x ∈ log, x.before.tree.WellFormed :=
  h.invariant (P := fun e => e.tree.WellFormed) h₀ (fun _ _ he kept => kept.tree ▸ he)
    fun _ _ hx he => hx.steps.wellFormed he

theorem Answers.frame (h : Answers e₀ log e) : (e.sessions = e₀.sessions ∧ e.faults = e₀.faults) ∧
    ∀ x ∈ log, x.before.sessions = e₀.sessions ∧ x.before.faults = e₀.faults :=
  h.invariant (P := fun e => e.sessions = e₀.sessions ∧ e.faults = e₀.faults) ⟨rfl, rfl⟩
    (fun _ _ he kept => ⟨kept.sessions.trans he.1, kept.faults.trans he.2⟩)
    fun _ _ hx he => ⟨hx.frame.1.trans he.1, hx.frame.2.trans he.2⟩

/-- A node that no exchange deletes stays. -/
theorem Answers.stored (h : Answers e₀ log e) (h₀ : e₀.tree.WellFormed) (hp : e₀.tree.Stored p)
    (hkept : ∀ x ∈ log, ⟨.deleted, p⟩ ∉ x.events) :
    e.tree.Stored p ∧ ∀ x ∈ log, x.before.tree.Stored p := by
  obtain ⟨⟨-, he⟩, hlog⟩ := h.invariant (P := fun e => e.tree.WellFormed ∧ e.tree.Stored p)
    ⟨h₀, hp⟩ (fun _ _ he kept => kept.tree ▸ he) fun x hx hplain he =>
      ⟨hplain.steps.wellFormed he.1, hplain.steps.stored he.1 he.2 (hkept x hx)⟩
  exact ⟨he, fun x hx => (hlog x hx).2⟩

/-- What is gone in the end was deleted by one of the exchanges. -/
theorem Answers.exists_deleted (h : Answers e₀ log e) (h₀ : e₀.tree.WellFormed)
    (hp : e₀.tree.Stored p) (hgone : ¬e.tree.Stored p) : ∃ x ∈ log, ⟨.deleted, p⟩ ∈ x.events := by
  by_contra hnone
  push Not at hnone
  exact hgone (h.stored h₀ hp hnone).1

/-- A node that no exchange is about keeps all but its children and their counters. -/
theorem Answers.core_eq (h : Answers e₀ log e) (h₀ : e₀.tree.WellFormed)
    (hp : ∀ x ∈ log, ∀ ev ∈ x.events, ev.path ≠ p) :
    (e.tree.node? p).map Tree.core = (e₀.tree.node? p).map Tree.core := by
  refine (h.invariant (P := fun e => e.tree.WellFormed ∧
    (e.tree.node? p).map Tree.core = (e₀.tree.node? p).map Tree.core) ⟨h₀, rfl⟩
    (fun _ _ he kept => kept.tree ▸ he) fun x hx hplain he => ?_).1.2
  exact ⟨hplain.steps.wellFormed he.1, (hplain.steps.core_eq he.1 (hp x hx)).trans he.2⟩

theorem Answers.data_kept {n : Node} (h : Answers e₀ log e) (h₀ : e₀.tree.WellFormed)
    (hn : e₀.tree.node? p = some n) (hp : ∀ x ∈ log, ∀ ev ∈ x.events, ev.path ≠ p) :
    ∃ m, e.tree.node? p = some m ∧ m.data = n.data := by
  have hcore := h.core_eq h₀ hp
  rw [hn, Option.map_some, Option.map_eq_some_iff] at hcore
  obtain ⟨m, hm, hsame⟩ := hcore
  exact ⟨m, hm, Tree.data_eq_of_core hsame⟩

end Ensemble

end KeyRegistry
