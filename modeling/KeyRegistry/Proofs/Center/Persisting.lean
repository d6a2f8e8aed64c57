import KeyRegistry.Center.Operations
import KeyRegistry.Proofs.Dialogue.Calls
import KeyRegistry.Proofs.Ensemble.Answers
import KeyRegistry.Proofs.Tree.Growth

/-!
# Persisting a key under interference

What a persist comes to when others change the tree between its calls. Each call relies
on what the one before has shown: that the node is there, or that the node above it is. If
the persist fails, a node that it relied on is gone, or is closed to the caller.
-/

namespace KeyRegistry

open KeyRegistry.Path

theorem Path.isWithin_of_parent? {p q : String} (hp : Valid p) (hq : parent? p = some q) :
    isWithin q p = true := by
  obtain ⟨hqv, hn, hj⟩ := (parent?_eq_some_iff hp).1 hq
  rw [← hj]
  exact isWithin_join hqv hn

namespace Tree

variable {t : Tree} {p : String} {n : Node} {who : Caller}

def Lasting (t : Tree) (p : String) : Prop :=
  ∀ q n, t.node? q = some n → isWithin q p = true → n.stat.owner = none

def Passable (t : Tree) (identity : Option String) (p : String) : Prop :=
  ∀ q n, t.node? q = some n → isWithin q p = true → n.acl.permits identity = true

theorem Step.not_stored_of_created {t' : Tree} {ev : Event} (h : t.WellFormed)
    (hs : Step who t ev t') (hk : ev.kind = .created) : ¬t.Stored ev.path := by
  cases hs with
  | created _ _ above stored _ _ fresh =>
    exact not_stored_iff.2 (h.node?_eq_none_of_fresh above stored fresh)
  | written => cases hk
  | removed => cases hk

theorem applyAll_rewrite_of_not_permitted (index : Nat) (data : List UInt8)
    (hn : t.node? p = some n) (hperm : n.acl.permits who.identity = false) :
    t.applyAll who index [.check p none, .setData p data none] =
      .error (.transactionFailed (index + 1) (.noAuth p)) := by
  have hcheck : t.apply who (.check p none) = .ok ⟨t, [], .checked⟩ := by
    simp [apply, check_of_stored hn, checkVersion, bind, Except.bind, pure, Except.pure]
  have hset : t.apply who (.setData p data none) = .error (.noAuth p) := by
    simp [apply, setData_of_not_permitted hn hperm, bind, Except.bind]
  rw [applyAll_cons_ok hcheck, applyAll_cons_error hset]
  rfl

end Tree

namespace Exchange

variable {x : Exchange} {full p q : String} {value data : List UInt8} {s : Nat} {e e' : Ensemble}

/-- An exchange on a tree where no node on the way to `full` is ephemeral. -/
structure Fair (full : String) (x : Exchange) : Prop where
  plain : x.Plain
  wellFormed : x.before.tree.WellFormed
  lasting : x.before.tree.Lasting full

structure Writes (full : String) (value : List UInt8) (x : Exchange) : Prop where
  tells : ∃ ev ∈ x.events, ev.path = full
  stored : ∃ n, x.after.tree.node? full = some n ∧ n.data = value

theorem Fair.after_wellFormed (h : x.Fair full) : x.after.tree.WellFormed :=
  h.plain.steps.wellFormed h.wellFormed

/-! ## Single calls -/

theorem Fair.stat_eq {answer : Request.Answer (.stat p)} (h : Fair full ⟨s, .stat p, answer, e, e'⟩)
    (hp : Valid p) : answer = .ok ((e.tree.node? p).map Node.stat) ∧ e' = e := by
  have hanswer : (e.perform s (.stat p)).1 = answer := congrArg Prod.fst h.plain
  have hafter : (e.perform s (.stat p)).2 = e' := congrArg Prod.snd h.plain
  refine ⟨?_, hafter.symm⟩
  rw [← hanswer]
  simp [Ensemble.perform, checkPath_of_valid hp, Except.map]

theorem Fair.create_cases {answer : Request.Answer (.create p data .persistent)}
    (h : Fair full ⟨s, .create p data .persistent, answer, e, e'⟩) (hp : Valid p)
    (hq : parent? p = some q) (hw : isWithin q full = true) :
    (answer = .ok p ∧ ∃ n, e'.tree.node? p = some n ∧ n.data = data) ∨
    (answer = .error (.nodeExists p) ∧ e.tree.Stored p ∧ e' = e) ∨
    (answer = .error (.noNode p) ∧ ¬e.tree.Stored q) ∨
    answer = .error (.noAuth q) ∧ ∃ m, e.tree.node? q = some m ∧
      m.acl.permits (e.caller s).identity = false := by
  have hanswer : (e.settle (e.tree.create p data .persistent (e.caller s))).1 = answer :=
    congrArg Prod.fst h.plain
  have hafter : (e.settle (e.tree.create p data .persistent (e.caller s))).2 = e' :=
    congrArg Prod.snd h.plain
  cases hm : e.tree.node? q with
  | none =>
    rw [Tree.create_of_no_parent hp hq hm] at hanswer
    exact .inr (.inr (.inl ⟨hanswer.symm, Tree.not_stored_iff.2 hm⟩))
  | some m =>
    have howner := h.lasting q m hm hw
    cases hperm : m.acl.permits (e.caller s).identity with
    | false =>
      rw [Tree.create_of_not_permitted hp hq hm howner hperm] at hanswer
      exact .inr (.inr (.inr ⟨hanswer.symm, m, rfl, hperm⟩))
    | true =>
      by_cases hstored : e.tree.Stored p
      · obtain ⟨n, hn⟩ := hstored
        have hmem := h.wellFormed.nodeName_mem_children hn hq hm
        have hactual : Tree.actualPath p .persistent m = p :=
          Tree.actualPath_of_not_sequential rfl p m
        rw [Tree.create_of_mem_children hp hq hm howner hperm (by rwa [hactual]), hactual]
          at hanswer hafter
        exact .inr (.inl ⟨hanswer.symm, ⟨n, hn⟩, hafter.symm⟩)
      · rw [Tree.create_of_absent h.wellFormed hp hq hm howner hperm hstored .persistent rfl]
          at hanswer hafter
        refine .inl ⟨hanswer.symm, Node.new data (e.caller s).acl (e.tree.zxid + 1) none, ?_, rfl⟩
        rw [← hafter]
        exact (Tree.node?_withNode (Tree.not_stored_iff.1 hstored) (Tree.ne_of_parent? hp hq)
          p).trans (if_pos rfl)

theorem Fair.rewrite_cases
    {answer : Request.Answer (.commit [.check p none, .setData p data none])}
    (h : Fair full ⟨s, _, answer, e, e'⟩) (hp : Valid p) :
    ((∃ outcomes, answer = .ok outcomes) ∧ Writes p data ⟨s, _, answer, e, e'⟩) ∨
    (answer = .error (.transactionFailed 0 (.noNode p)) ∧ ¬e.tree.Stored p) ∨
    answer = .error (.transactionFailed 1 (.noAuth p)) ∧ ∃ n, e.tree.node? p = some n ∧
      n.acl.permits (e.caller s).identity = false := by
  have hops : ∀ op ∈ [Operation.check p none, .setData p data none], Valid op.path := by
    simpa [Operation.path] using hp
  have hserved := h.plain
  simp only [Plain, Ensemble.perform, Ensemble.forM_checkPath_of_valid hops, bind, Except.bind]
    at hserved
  have hanswer := congrArg Prod.fst hserved
  have hafter := congrArg Prod.snd hserved
  cases hn : e.tree.node? p with
  | none =>
    rw [Tree.applyAll_rewrite_of_absent _ _ _ hn] at hanswer
    exact .inr (.inl ⟨hanswer.symm, Tree.not_stored_iff.2 hn⟩)
  | some n =>
    cases hperm : n.acl.permits (e.caller s).identity with
    | false =>
      rw [Tree.applyAll_rewrite_of_not_permitted _ _ hn hperm] at hanswer
      exact .inr (.inr ⟨hanswer.symm, n, rfl, hperm⟩)
    | true =>
      rw [Tree.applyAll_rewrite_of_stored _ _ hn hperm] at hanswer hafter
      obtain rfl : _ = answer := hanswer
      obtain rfl : _ = e' := hafter
      refine .inl ⟨⟨_, rfl⟩, ⟨⟨.dataChanged, p⟩, ?_, rfl⟩, ?_⟩
      · simp [events, Request.events, Operation.allEvents, Operation.events, Ensemble.settle]
      · exact ⟨_, (Tree.node?_withData hn data p).trans (if_pos rfl), rfl⟩

end Exchange

namespace Dialogue

variable {full p q top : String} {value : List UInt8} {ps : List String} {first x : Exchange}
  {log log' : List Exchange} {error : ServiceError}

/-! ## Why a persist fails -/

/-- A node on the way to `full` was there after one exchange and is gone when the next begins. -/
def Torn (full : String) (log : List Exchange) : Prop :=
  ∃ before x y after, log = before ++ x :: y :: after ∧
    ∃ q, isWithin q full = true ∧ x.after.tree.Stored q ∧ ¬y.before.tree.Stored q

def Barred (full : String) (log : List Exchange) : Prop :=
  ∃ x ∈ log, ∃ q n, isWithin q full = true ∧ x.before.tree.node? q = some n ∧
    n.acl.permits (x.before.caller x.session).identity = false

def Fails (full : String) (log : List Exchange) (error : ServiceError) : Prop :=
  (∃ q, error.rootCause = .noNode q) ∧ Torn full log ∨
  (∃ q, error.rootCause = .noAuth q) ∧ Barred full log

theorem Fails.cons (h : Fails full log error) (x : Exchange) : Fails full (x :: log) error := by
  rcases h with ⟨hcause, before, y, z, after, rfl, hq⟩ | ⟨hcause, y, hy, hq⟩
  · exact .inl ⟨hcause, x :: before, y, z, after, rfl, hq⟩
  · exact .inr ⟨hcause, y, List.mem_cons_of_mem x hy, hq⟩

theorem Fails.prepend (h : Fails full log' error) (log : List Exchange) :
    Fails full (log ++ log') error := by
  induction log with
  | nil => exact h
  | cons x log ih => exact ih.cons x

theorem Fails.ne_nodeExists (h : Fails full log error) (q : String) : error ≠ .nodeExists q := by
  rintro rfl
  rcases h with ⟨⟨_, hcause⟩, -⟩ | ⟨⟨_, hcause⟩, -⟩ <;> cases hcause

theorem fails_of_gone (hcause : ∃ q, error.rootCause = .noNode q) (hw : isWithin q full = true)
    (hq : first.after.tree.Stored q) (hgone : ¬x.before.tree.Stored q) :
    Fails full [first, x] error :=
  .inl ⟨hcause, [], first, x, [], rfl, q, hw, hq, hgone⟩

theorem fails_of_closed (hcause : ∃ q, error.rootCause = .noAuth q) (hw : isWithin q full = true)
    (hx : ∃ n, x.before.tree.node? q = some n ∧
      n.acl.permits (x.before.caller x.session).identity = false) (log : List Exchange) :
    Fails full (x :: log) error := by
  obtain ⟨n, hn, hperm⟩ := hx
  exact .inr ⟨hcause, x, by simp, q, n, hw, hn, hperm⟩

/-! ## Transcripts -/

/-- Created one under the other, nodes are there down to the last, or one that a creation relied on
is gone. -/
theorem transcript_createEach (first : Exchange) {o : Option (Except ServiceError Unit)}
    (hline : Lineage top ps) (hps : ∀ p ∈ top :: ps, isWithin p full = true)
    (hfirst : first.after.tree.Stored top) (hfair : ∀ x ∈ log, x.Fair full)
    (h : Transcript (createEach ps) log o)
    {r : Except ServiceError Unit} (hr : o = some r) :
    (r = .ok () ∧ ∃ init x, first :: log = init ++ [x] ∧ x.after.tree.Stored (foot top ps)) ∨
      ∃ error, r = .error error ∧ Fails full (first :: log) error := by
  subst hr
  induction ps generalizing top first log with
  | nil =>
    obtain ⟨rfl, ho⟩ := transcript_done rfl h
    rcases ho with ho | ho <;> cases ho
    exact .inl ⟨rfl, [], first, rfl, hfirst⟩
  | cons p ps ih =>
    obtain ⟨hp, hpar, hrest⟩ := hline
    rcases transcript_ask h with ⟨-, ho⟩ | ⟨s, answer, e, e', tail, rfl, htail⟩
    · cases ho
    · have hx := hfair _ List.mem_cons_self
      have hgo (htail : Transcript (createEach ps) tail (some r)) {x : Exchange}
          (hstored : x.after.tree.Stored p) :
          (r = .ok () ∧ ∃ init y, first :: x :: tail = init ++ [y] ∧
            y.after.tree.Stored (foot p ps)) ∨
            ∃ error, r = .error error ∧ Fails full (first :: x :: tail) error := by
        rcases ih x hrest (fun q hq => hps q (List.mem_cons_of_mem top hq)) hstored
          (fun y hy => hfair y (List.mem_cons_of_mem _ hy)) htail with
          ⟨hok, init, y, hinit, hy⟩ | ⟨error, herror, hfails⟩
        · exact .inl ⟨hok, first :: init, y, by rw [hinit]; rfl, hy⟩
        · exact .inr ⟨error, herror, hfails.cons first⟩
      rcases hx.create_cases hp hpar (hps top (by simp)) with
        ⟨rfl, n, hn, -⟩ | ⟨rfl, hstored, rfl⟩ | ⟨rfl, hgone⟩ | ⟨rfl, hclosed⟩
      · exact hgo htail (x := ⟨s, _, _, e, e'⟩) ⟨n, hn⟩
      · exact hgo htail (x := ⟨s, _, _, e', e'⟩) hstored
      · obtain ⟨rfl, ho⟩ := transcript_done rfl htail
        rcases ho with ho | ho <;> cases ho
        exact .inr ⟨_, rfl, fails_of_gone ⟨p, rfl⟩ (hps top (by simp)) hfirst hgone⟩
      · obtain ⟨rfl, ho⟩ := transcript_done rfl htail
        rcases ho with ho | ho <;> cases ho
        exact .inr ⟨_, rfl, (fails_of_closed ⟨top, rfl⟩ (hps top (by simp)) hclosed []).cons first⟩

/-- What a creation comes to: it has written its node, or found it there, or failed. -/
def Creates (full : String) (value : List UInt8) (log : List Exchange)
    (r : Except ServiceError String) : Prop :=
  (∃ actual, r = .ok actual ∧ ∃ init x, log = init ++ [x] ∧ x.Writes full value) ∨
  (∃ q, r = .error (.nodeExists q) ∧ ∃ init x, log = init ++ [x] ∧ x.after.tree.Stored full) ∨
    ∃ error, r = .error error ∧ Fails full log error

/-- One creation is done with, or it lacks the node above. -/
theorem creates_or_lacks {s : Nat} {e e' : Ensemble}
    {answer : Request.Answer (.create full value .persistent)} (hp : Valid full)
    (hq : parent? full = some q)
    (hx : Exchange.Fair full ⟨s, .create full value .persistent, answer, e, e'⟩) :
    Creates full value [⟨s, .create full value .persistent, answer, e, e'⟩] answer ∧
        (∀ q, answer ≠ .error (.noNode q)) ∨
      answer = .error (.noNode full) ∧ ¬e.tree.Stored q := by
  have hw := isWithin_of_parent? hp hq
  rcases hx.create_cases hp hq hw with
    ⟨rfl, hstored⟩ | ⟨rfl, hstored, rfl⟩ | ⟨rfl, hgone⟩ | ⟨rfl, hclosed⟩
  · exact .inl ⟨.inl ⟨full, rfl, [], _, rfl, ⟨⟨.created, full⟩, by simp [Exchange.events,
      Request.events], rfl⟩, hstored⟩, by simp⟩
  · exact .inl ⟨.inr (.inl ⟨full, rfl, [], _, rfl, hstored⟩), by simp⟩
  · exact .inr ⟨rfl, hgone⟩
  · exact .inl ⟨.inr (.inr ⟨_, rfl, fails_of_closed ⟨q, rfl⟩ hw hclosed []⟩), by simp⟩

theorem Creates.prepend {r : Except ServiceError String} (h : Creates full value log' r)
    (log : List Exchange) : Creates full value (log ++ log') r := by
  rcases h with ⟨actual, hr, init, x, rfl, hx⟩ | ⟨q, hr, init, x, rfl, hx⟩ | ⟨error, hr, hfails⟩
  · exact .inl ⟨actual, hr, log ++ init, x, (List.append_assoc ..).symm, hx⟩
  · exact .inr (.inl ⟨q, hr, log ++ init, x, (List.append_assoc ..).symm, hx⟩)
  · exact .inr (.inr ⟨error, hr, hfails.prepend log⟩)

theorem transcript_createWithParents {o : Option (Except ServiceError String)} (hp : Valid full)
    (hr : full ≠ root) (hfair : ∀ x ∈ log, x.Fair full)
    (h : Transcript (createWithParents full value .persistent) log o)
    {r : Except ServiceError String} (ho : o = some r) : Creates full value log r := by
  subst ho
  have hline := lineage_ancestors hp hr
  obtain ⟨habove, -, hpar, -⟩ := lineage_append.1 hline
  rcases transcript_ask h with ⟨-, ho⟩ | ⟨s, answer, e, e', tail, rfl, htail⟩
  · cases ho
  have hx := hfair _ List.mem_cons_self
  rcases creates_or_lacks hp hpar hx with ⟨hcreates, hne⟩ | ⟨rfl, -⟩
  · have hdone : Transcript (done answer) tail (some r) := by
      cases answer with
      | ok actual => exact htail
      | error error =>
        cases error with
        | noNode q => exact absurd rfl (hne q)
        | _ => exact htail
    obtain ⟨rfl, ho⟩ := transcript_done rfl hdone
    rcases ho with ho | ho <;> cases ho
    exact hcreates
  · have hroot : e'.tree.Stored root := hx.after_wellFormed.root_stored.imp fun _ hn => hn.1
    have hpaths : ∀ p ∈ root :: ancestors full, isWithin p full = true := by
      refine List.forall_mem_cons.2 ⟨isWithin_root hp, fun p hmem => ?_⟩
      have hw := hline.isWithin_foot p (by simp [hmem])
      rwa [foot_concat] at hw
    have hrest : ∀ x ∈ tail, x.Fair full := fun x hx => hfair x (List.mem_cons_of_mem _ hx)
    rcases transcript_bind htail with ⟨-, ho⟩ | ⟨log₁, made, log₂, rfl, hmade, hlast⟩
    · cases ho
    rcases transcript_createEach ⟨s, .create full value .persistent, _, e, e'⟩ habove hpaths hroot
      (fun x hx => hrest x (by simp [hx])) hmade rfl with
      ⟨rfl, init, x, hinit, hstored⟩ | ⟨error, rfl, hfails⟩
    · -- the last exchange so far has shown the node above
      rcases transcript_call rfl hlast with ⟨-, ho⟩ | ⟨s', answer, e₁, e₂, end_, rfl, hend⟩
      · cases ho
      have hy : Exchange.Fair full ⟨s', .create full value .persistent, answer, e₁, e₂⟩ :=
        hrest _ (by simp)
      obtain ⟨rfl, ho⟩ := transcript_done rfl hend
      rcases ho with ho | ho <;> cases ho
      rw [← List.cons_append, hinit, List.append_assoc]
      refine Creates.prepend ?_ init
      rcases creates_or_lacks hp hpar hy with ⟨hcreates, -⟩ | ⟨rfl, hgone⟩
      · exact hcreates.prepend [x]
      · exact .inr (.inr ⟨_, rfl, fails_of_gone ⟨full, rfl⟩ (isWithin_of_parent? hp hpar) hstored
          hgone⟩)
    · obtain ⟨rfl, ho⟩ := transcript_done rfl hlast
      rcases ho with ho | ho <;> cases ho
      rw [List.append_nil]
      exact .inr (.inr ⟨error, rfl, hfails⟩)

end Dialogue

namespace Key

open Dialogue

variable {full : String} {value : List UInt8} {log log' : List Exchange}
  {r : Except RegistryError Unit}

inductive Asks (full : String) (value : List UInt8) : Request → Prop
  | stat : Asks full value (.stat full)
  | create : Asks full value (.create full value .persistent)
  | prepare {p : String} (above : p ∈ ancestors full) : Asks full value (.create p [] .persistent)
  | rewrite : Asks full value (.commit [.check full none, .setData full value none])

theorem Asks.upkeep {r : Request} (h : Asks full value r) : r.Upkeep := by
  cases h <;> constructor

theorem Asks.kind_ne_deleted {x : Exchange} {ev : Event} (h : Asks full value x.request)
    (hev : ev ∈ x.events) : ev.kind ≠ .deleted := by
  obtain ⟨s, r, answer, e, e'⟩ := x
  cases h with
  | stat => cases answer <;> cases hev
  | rewrite =>
    rw [Request.events_rewrite hev]
    simp
  | _ =>
    cases answer with
    | error error => cases hev
    | ok actual =>
      obtain rfl := List.mem_singleton.1 hev
      simp

/-- What a persist does to a node that is there already is to write its value. -/
theorem Asks.overwrites {x : Exchange} {ev : Event} (h : Asks full value x.request)
    (hx : x.Fair full) (hp : Valid full) (hev : ev ∈ x.events)
    (hstored : x.before.tree.Stored ev.path) : ev.path = full ∧ x.Writes full value := by
  have hmade (hevents : x.events = [⟨.created, ev.path⟩]) : False := by
    have hsteps := hx.plain.steps
    rw [hevents] at hsteps
    cases hsteps with
    | cons first _ => exact first.not_stored_of_created hx.wellFormed rfl hstored
  obtain ⟨s, r, answer, e, e'⟩ := x
  cases h with
  | stat => cases answer <;> cases hev
  | rewrite =>
    refine ⟨by rw [Request.events_rewrite hev], ?_⟩
    rcases hx.rewrite_cases hp with ⟨-, hwrites⟩ | ⟨rfl, -⟩ | ⟨rfl, -⟩
    · exact hwrites
    · cases hev
    · cases hev
  | _ =>
    cases answer with
    | error error => cases hev
    | ok actual =>
      obtain rfl := List.mem_singleton.1 hev
      exact (hmade rfl).elim

theorem only_persist (full : String) (value : List UInt8) :
    (persist full value).Only (Asks full value) := by
  have hupdate : (update full value).Only (Asks full value) :=
    (only_ask .rewrite).bind fun _ => trivial
  refine (only_ask .stat).bind fun found => ?_
  split
  · trivial
  · exact hupdate
  · refine (only_createWithParents .create fun p hp => .prepare hp).bind fun made => ?_
    split
    · trivial
    · exact hupdate
    · trivial

theorem walkless_persist (full : String) (value : List UInt8) : (persist full value).Walkless := by
  have hupdate : (update full value).Walkless := (walkless_ask _).bind fun _ => trivial
  refine (walkless_ask _).bind fun found => ?_
  split
  · trivial
  · exact hupdate
  · refine (walkless_createWithParents _ _ _).bind fun made => ?_
    split
    · trivial
    · exact hupdate
    · trivial

def Lands (full : String) (value : List UInt8) (log : List Exchange)
    (r : Except RegistryError Unit) : Prop :=
  (r = .ok () ∧ ∃ init x, log = init ++ [x] ∧ x.Writes full value) ∨
    ∃ error, r = .error (.service error) ∧ Fails full log error

theorem Lands.prepend (h : Lands full value log' r) (log : List Exchange) :
    Lands full value (log ++ log') r := by
  rcases h with ⟨hr, init, x, rfl, hx⟩ | ⟨error, hr, hfails⟩
  · exact .inl ⟨hr, log ++ init, x, (List.append_assoc ..).symm, hx⟩
  · exact .inr ⟨error, hr, hfails.prepend log⟩

/-- Writing over a node that the exchange before has shown. -/
theorem lands_update (first : Exchange) {o : Option (Except RegistryError Unit)} (hp : Valid full)
    (hfirst : first.after.tree.Stored full) (hfair : ∀ x ∈ log, x.Fair full)
    (h : Transcript (update full value) log o) (ho : o = some r) :
    Lands full value (first :: log) r := by
  subst ho
  rcases transcript_ask h with ⟨-, ho⟩ | ⟨s, answer, e, e', tail, rfl, htail⟩
  · cases ho
  have hx := hfair _ List.mem_cons_self
  obtain ⟨rfl, ho⟩ := transcript_done rfl htail
  rcases ho with ho | ho <;> cases ho
  rcases hx.rewrite_cases hp with ⟨⟨outcomes, rfl⟩, hwrites⟩ | ⟨rfl, hgone⟩ | ⟨rfl, hclosed⟩
  · exact .inl ⟨rfl, [first], _, rfl, hwrites⟩
  · exact .inr ⟨_, rfl, fails_of_gone ⟨full, rfl⟩ (isWithin_refl hp) hfirst hgone⟩
  · exact .inr ⟨_, rfl, (fails_of_closed ⟨full, rfl⟩ (isWithin_refl hp) hclosed []).cons first⟩

theorem lands_persist {o : Option (Except RegistryError Unit)} (hp : Valid full)
    (hfair : ∀ x ∈ log, x.Fair full) (h : Transcript (persist full value) log o)
    (ho : o = some r) : Lands full value log r := by
  subst ho
  rcases transcript_ask h with ⟨-, ho⟩ | ⟨s, answer, e, e', tail, rfl, htail⟩
  · cases ho
  have hx := hfair _ List.mem_cons_self
  have hrest : ∀ x ∈ tail, x.Fair full := fun x hx => hfair x (List.mem_cons_of_mem _ hx)
  obtain ⟨rfl, rfl⟩ := hx.stat_eq hp
  cases hn : e'.tree.node? full with
  | some n =>
    simp only [hn] at htail
    exact lands_update ⟨s, _, _, e', e'⟩ hp ⟨n, hn⟩ hrest htail rfl
  | none =>
    simp only [hn] at htail
    have hr : full ≠ root := by
      rintro rfl
      obtain ⟨n, hroot, -⟩ := hx.wellFormed.root_stored
      exact absurd (hroot.symm.trans hn) (by simp)
    rcases transcript_bind htail with ⟨-, ho⟩ | ⟨log₁, made, log₂, rfl, hmade, hlast⟩
    · cases ho
    suffices Lands full value (log₁ ++ log₂) r from this.prepend [_]
    rcases transcript_createWithParents hp hr (fun x hx => hrest x (by simp [hx])) hmade rfl with
      ⟨actual, rfl, init, x, rfl, hwrites⟩ | ⟨q, rfl, init, x, rfl, hstored⟩ | ⟨error, rfl, hfails⟩
    · obtain ⟨rfl, ho⟩ := transcript_done rfl hlast
      rcases ho with ho | ho <;> cases ho
      exact .inl ⟨rfl, init, x, by simp, hwrites⟩
    · -- others have created the node
      rcases transcript_note rfl hlast with hlast | ⟨-, ho⟩
      · rw [List.append_assoc]
        exact (lands_update x hp hstored (fun y hy => hrest y (by simp [hy])) hlast rfl).prepend _
      · cases ho
    · have hne := hfails.ne_nodeExists
      have hdone : Transcript (Dialogue.done (.error (.service error))) log₂ (some r) := by
        cases error with
        | nodeExists q => exact absurd rfl (hne q)
        | _ => exact hlast
      obtain ⟨rfl, ho⟩ := transcript_done rfl hdone
      rcases ho with ho | ho <;> cases ho
      rw [List.append_nil]
      exact .inr ⟨error, rfl, hfails⟩

end Key

end KeyRegistry
