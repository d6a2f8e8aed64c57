import KeyRegistry.Proofs.Ensemble.Consistency

/-!
# Transactions

A transaction is compared with the same operations made as calls of their own,
one after the other, until one fails. If none fails the transaction yields the
same results and leaves the same ensemble; otherwise it leaves the ensemble as it
was and names the call that failed.
-/

namespace KeyRegistry

open KeyRegistry.Path

namespace Ensemble

variable {e : Ensemble} {id : Nat} {evs : List Event}

def call (e : Ensemble) (now id : Nat) (r : Request) : r.Answer × Ensemble :=
  match e.accept now id with
  | .ok (hold, e) => e.complete id hold.fault r
  | .error error => (.error error, e)

/-- An operation made as a call of its own. A check is a look at the stat. -/
def callAlone (e : Ensemble) (now id : Nat) : Operation → Except ServiceError Outcome × Ensemble
  | .check p version =>
    match e.call now id (.stat p) with
    | (.ok (some s), e) =>
      (if version.all fun v => v = s.version then .ok .checked else .error (.badVersion p), e)
    | (.ok none, e) => (.error (.noNode p), e)
    | (.error error, e) => (.error error, e)
  | .create p data mode =>
    (e.call now id (.create p data mode)).map (Except.map .created) fun e => e
  | .setData p data version =>
    (e.call now id (.setData p data version)).map (Except.map .dataSet) fun e => e
  | .delete p version =>
    (e.call now id (.delete p version)).map (Except.map fun _ => .deleted) fun e => e

/-- Operations made as calls of their own at the given times, until one fails: the results, or
the number of the call that failed, counted from `index`, and its failure. -/
def callEach (clock : Nat → Nat) (id : Nat) (e : Ensemble) (index : Nat) :
    List Operation → Except (Nat × ServiceError) (List Outcome × Ensemble)
  | [] => .ok ([], e)
  | op :: ops =>
    match e.callAlone (clock index) id op with
    | (.error error, _) => .error (index, error)
    | (.ok result, e) =>
      (callEach clock id e (index + 1) ops).map fun (results, e) => (result :: results, e)

/-! ## One call -/

theorem dispatch_dispatch (e : Ensemble) (t : Tree) (evs evs' : List Event) :
    dispatch { e.dispatch evs with tree := t } evs' =
      dispatch { e with tree := t } (evs ++ evs') := by
  simp [dispatch, Function.comp_def, Watch.receive_receive]

theorem call_of_live (hlive : e.phase id = .live) (hpending : e.faults.pending = []) (now : Nat)
    (r : Request) : e.call now id r = e.perform id r := by
  unfold call
  rw [accept_of_live hlive hpending]
  exact complete_of_live hlive r

@[simp] theorem phase_settle {α : Type} (r : Except ServiceError (Change α)) (k : Nat) :
    (e.settle r).2.phase k = e.phase k := by
  cases r <;> rfl

@[simp] theorem caller_settle {α : Type} (r : Except ServiceError (Change α)) (k : Nat) :
    (e.settle r).2.caller k = e.caller k := by
  cases r <;> rfl

@[simp] theorem faults_settle {α : Type} (r : Except ServiceError (Change α)) :
    (e.settle r).2.faults = e.faults := by
  cases r <;> rfl

theorem settle_error {α : Type} (error : ServiceError) :
    e.settle (.error error : Except ServiceError (Change α)) = (.error error, e) := rfl

/-- A call of its own changes the tree as the operation of a transaction does. -/
theorem callAlone_eq_settle (hlive : e.phase id = .live) (hpending : e.faults.pending = [])
    (now : Nat) {op : Operation} (hp : Valid op.path) :
    e.callAlone now id op = e.settle (e.tree.apply (e.caller id) op) := by
  cases op with
  | check p version =>
    have hp : Valid p := hp
    simp only [callAlone, call_of_live hlive hpending, perform, checkPath_of_valid hp, Except.map,
      Tree.apply]
    cases hn : e.tree.node? p with
    | none => simp [Tree.check_of_absent hn, bind, Except.bind, settle]
    | some n =>
      simp only [Tree.check_of_stored hn, Option.map_some]
      have hall : (version.all fun v => v = n.stat.version) = true ↔ Tree.Expects version n := by
        cases version <;> simp [Tree.Expects]
      by_cases hv : Tree.Expects version n
      · rw [if_pos (hall.2 hv), Tree.checkVersion_of_expects hv]
        simp [bind, Except.bind, pure, Except.pure, settle]
      · rw [if_neg (mt hall.1 hv), Tree.checkVersion_of_not_expects hv]
        simp [bind, Except.bind, settle]
  | create p data mode =>
    simp only [callAlone, call_of_live hlive hpending, perform, Tree.apply]
    cases e.tree.create p data mode (e.caller id) <;> rfl
  | setData p data version =>
    have hp : Valid p := hp
    simp only [callAlone, call_of_live hlive hpending, perform, checkPath_of_valid hp, Tree.apply]
    cases e.tree.setData p data version (e.caller id) <;>
      simp [bind, Except.bind, pure, Except.pure, settle, Except.map]
  | delete p version =>
    have hp : Valid p := hp
    simp only [callAlone, call_of_live hlive hpending, perform, checkPath_of_valid hp, Tree.apply]
    cases e.tree.delete p version (e.caller id) <;>
      simp [bind, Except.bind, pure, Except.pure, settle, Except.map]

/-! ## All calls -/

/-- The fold over the tree and the calls of their own succeed together, with the same results and
events, or fail together at the same operation. -/
theorem applyAll_callEach (hlive : e.phase id = .live) (hpending : e.faults.pending = [])
    (clock : Nat → Nat) {ops : List Operation} (hops : ∀ op ∈ ops, Valid op.path) (index : Nat) :
    (∃ c, e.tree.applyAll (e.caller id) index ops = .ok c ∧
      callEach clock id e index ops =
        .ok (c.value, dispatch { e with tree := c.tree } c.events)) ∨
    ∃ i error, e.tree.applyAll (e.caller id) index ops = .error (.transactionFailed i error) ∧
      callEach clock id e index ops = .error (i, error) := by
  induction ops generalizing e index with
  | nil => exact .inl ⟨⟨e.tree, [], []⟩, rfl, by simp [callEach]⟩
  | cons op ops ih =>
    have halone := callAlone_eq_settle hlive hpending (clock index) (hops op (by simp))
    cases hop : e.tree.apply (e.caller id) op with
    | error error =>
      rw [hop, settle_error] at halone
      exact .inr ⟨index, error, Tree.applyAll_cons_error hop, by simp [callEach, halone]⟩
    | ok c =>
      have hrest := ih (e := (e.settle (.ok c)).2) (by simpa using hlive) (by simpa using hpending)
        (fun op hop => hops op (by simp [hop])) (index + 1)
      rw [hop] at halone
      rw [Tree.applyAll_cons_ok hop]
      rw [caller_settle] at hrest
      simp only [settle, tree_dispatch] at hrest halone
      rcases hrest with ⟨d, hd, heach⟩ | ⟨i, error, hd, heach⟩
      · refine .inl ⟨_, by rw [hd]; rfl, ?_⟩
        simp only [callEach, halone, heach, Except.map]
        rw [dispatch_dispatch]
      · exact .inr ⟨i, error, by rw [hd]; rfl, by simp [callEach, halone, heach, Except.map]⟩

/-- A transaction with valid paths succeeds just if its operations succeed as calls of their own,
and then with the same results, tree and events. It fails otherwise with the number and the failure
of the first call that fails, or, before any call, with the fault of a path; and a transaction that
fails leaves the ensemble as it was. -/
theorem call_commit_eq_callEach (hlive : e.phase id = .live) (hpending : e.faults.pending = [])
    (now : Nat) (clock : Nat → Nat) (ops : List Operation) :
    ((∀ op ∈ ops, Valid op.path) →
      e.call now id (.commit ops) = match callEach clock id e 0 ops with
        | .ok (results, e') => (.ok results, e')
        | .error (index, error) => (.error (.transactionFailed index error), e)) ∧
    ((∃ op ∈ ops, ¬Valid op.path) →
      ∃ op ∈ ops, ∃ fault, fault? op.path = some fault ∧
        e.call now id (.commit ops) = (.error (.invalidPath op.path fault.reason), e)) := by
  rw [call_of_live hlive hpending]
  simp only [perform]
  constructor
  · intro hops
    rw [forM_checkPath_of_valid hops]
    rcases applyAll_callEach hlive hpending clock hops 0 with ⟨c, hc, heach⟩ | ⟨i, error, hc, heach⟩
    · simp [hc, heach, bind, Except.bind, settle]
    · simp [hc, heach, bind, Except.bind, settle]
  · intro hops
    obtain ⟨op, hop, fault, hf, he⟩ := forM_checkPath_of_fault hops
    exact ⟨op, hop, fault, hf, by rw [he]; rfl⟩

/-- A node with a numbered child is made as a whole, and not at all if a later deletion fails. -/
theorem call_commit_nested :
    (∃ e', nested.call 0 1 (.commit [.create "/t" [] .persistent,
        .create "/t/n-" [7] .persistentSequential]) =
      (.ok [.created "/t", .created "/t/n-0000000000"], e')) ∧
    nested.call 0 1 (.commit [.create "/t" [] .persistent, .delete "/a" none]) =
      (.error (.transactionFailed 1 (.notEmpty "/a")), nested) := by
  have hlive : nested.phase 1 = .live := rfl
  have hpending : nested.faults.pending = [] := rfl
  constructor
  · rw [(call_commit_eq_callEach hlive hpending 0 (fun _ => 0) _).1 (by decide)]
    exact ⟨_, rfl⟩
  · rw [(call_commit_eq_callEach hlive hpending 0 (fun _ => 0) _).1 (by decide)]
    rfl

end Ensemble

end KeyRegistry
