import KeyRegistry.Dialogue
import KeyRegistry.Proofs.Ensemble.Consistency

/-!
# Dialogues that nobody disturbs

A caller who has the service to itself gets answers that follow from the tree.
`Dialogue.Does` says what a whole dialogue comes to then: its result, and the tree
that it leaves.
-/

namespace KeyRegistry

open KeyRegistry.Path

variable {who : Caller} {t t' t'' : Tree} {p : String} {n : Node} {data : List UInt8}
  {mode : Mode} {version : Option Int32} {error : ServiceError}

def Served (who : Caller) (t : Tree) (r : Request) (answer : r.Answer) (t' : Tree) : Prop :=
  ∀ (e : Ensemble) (s : Nat), e.tree = t → e.caller s = who →
    (e.perform s r).1 = answer ∧ (e.perform s r).2.tree = t'

/-! ## Each kind of call -/

theorem served_stat (who : Caller) (t : Tree) (hp : Valid p) :
    Served who t (.stat p) (.ok ((t.node? p).map Node.stat)) t := by
  rintro e s rfl -
  simp [Ensemble.perform, checkPath_of_valid hp, Except.map]

theorem served_getData (hp : Valid p) (hn : t.node? p = some n)
    (hperm : n.acl.permits who.identity = true) :
    Served who t (.getData p) (.ok (n.data, n.stat)) t := by
  rintro e s rfl rfl
  simp [Ensemble.perform, Ensemble.readable_of_permitted hp hn hperm, Except.map]

theorem served_getData_absent (hp : Valid p) (hn : t.node? p = none) :
    Served who t (.getData p) (.error (.noNode p)) t := by
  rintro e s rfl -
  simp [Ensemble.perform, Ensemble.readable_of_absent hp hn, Except.map]

theorem served_getChildren (hp : Valid p) (hn : t.node? p = some n)
    (hperm : n.acl.permits who.identity = true) :
    Served who t (.getChildren p) (.ok n.children) t := by
  rintro e s rfl rfl
  simp [Ensemble.perform, Ensemble.readable_of_permitted hp hn hperm, Except.map]

theorem served_getChildren_absent (hp : Valid p) (hn : t.node? p = none) :
    Served who t (.getChildren p) (.error (.noNode p)) t := by
  rintro e s rfl -
  simp [Ensemble.perform, Ensemble.readable_of_absent hp hn, Except.map]

theorem served_getChildren_refused (hp : Valid p) (hn : t.node? p = some n)
    (hperm : n.acl.permits who.identity = false) :
    Served who t (.getChildren p) (.error (.noAuth p)) t := by
  rintro e s rfl rfl
  simp [Ensemble.perform, Ensemble.readable_of_not_permitted hp hn hperm, Except.map]

theorem served_create {c : Change String} (h : t.create p data mode who = .ok c) :
    Served who t (.create p data mode) (.ok c.value) c.tree := by
  rintro e s rfl rfl
  simp [Ensemble.perform, Ensemble.settle, h]

theorem served_create_error (h : t.create p data mode who = .error error) :
    Served who t (.create p data mode) (.error error) t := by
  rintro e s rfl rfl
  simp [Ensemble.perform, Ensemble.settle, h]

theorem served_delete (hp : Valid p) {c : Change Unit} (h : t.delete p version who = .ok c) :
    Served who t (.delete p version) (.ok ()) c.tree := by
  rintro e s rfl rfl
  simp [Ensemble.perform, Ensemble.settle, checkPath_of_valid hp, h, bind, Except.bind]

theorem served_setData (hp : Valid p) {c : Change Stat}
    (h : t.setData p data version who = .ok c) :
    Served who t (.setData p data version) (.ok c.value) c.tree := by
  rintro e s rfl rfl
  simp [Ensemble.perform, Ensemble.settle, checkPath_of_valid hp, h, bind, Except.bind]

theorem served_setData_error (hp : Valid p) (h : t.setData p data version who = .error error) :
    Served who t (.setData p data version) (.error error) t := by
  rintro e s rfl rfl
  simp [Ensemble.perform, Ensemble.settle, checkPath_of_valid hp, h, bind, Except.bind]

theorem served_commit {ops : List Operation} (hops : ∀ op ∈ ops, Valid op.path)
    {c : Change (List Outcome)} (h : t.applyAll who 0 ops = .ok c) :
    Served who t (.commit ops) (.ok c.value) c.tree := by
  rintro e s rfl rfl
  simp [Ensemble.perform, Ensemble.settle, Ensemble.forM_checkPath_of_valid hops, h, bind,
    Except.bind]

theorem served_commit_error {ops : List Operation} (hops : ∀ op ∈ ops, Valid op.path)
    (h : t.applyAll who 0 ops = .error error) : Served who t (.commit ops) (.error error) t := by
  rintro e s rfl rfl
  simp [Ensemble.perform, Ensemble.settle, Ensemble.forM_checkPath_of_valid hops, h, bind,
    Except.bind]

namespace Dialogue

variable {α β : Type} {a : α} {b : β}

/-- A dialogue of a caller who is not disturbed: the tree it leaves, and its result. -/
inductive Does (who : Caller) : Tree → Dialogue α → Tree → α → Prop
  | done {t : Tree} {d : Dialogue α} {a : α} (turn : d.turn = .done a) : Does who t d t a
  | note {t t' : Tree} {d d' : Dialogue α} {n : Notice} {a : α} (turn : d.turn = .note n d')
      (rest : Does who t d' t' a) : Does who t d t' a
  | call {t t' t'' : Tree} {d : Dialogue α} {r : Request} {next : r.Answer → Dialogue α}
      {answer : r.Answer} {a : α} (turn : d.turn = .call r next)
      (served : Served who t r answer t') (rest : Does who t' (next answer) t'' a) :
      Does who t d t'' a

theorem turn_bind (d : Dialogue β) (f : β → Dialogue α) :
    (d.bind f).turn = match d.turn with
      | .done b => (f b).turn
      | .note n d' => .note n (d'.bind f)
      | .call r next => .call r fun answer => (next answer).bind f := by
  induction d with
  | done b => rfl
  | note n next => rfl
  | call r next => rfl
  | collect visited pending next ih =>
    cases pending with
    | nil =>
      rw [bind, turn, turn]
      exact ih (.ok visited)
    | cons p rest =>
      rw [bind, turn, turn]
      dsimp only
      congr 1
      funext answer
      cases answer with
      | ok children => rfl
      | error e =>
        unfold afterChildren
        cases e with
        | noNode _ =>
          dsimp only
          split_ifs <;> rfl
        | _ => rfl

theorem Does.of_turn {d d' : Dialogue α} (h : d.turn = d'.turn) (hd : Does who t d' t' a) :
    Does who t d t' a := by
  cases hd with
  | done turn => exact .done (h.trans turn)
  | note turn rest => exact .note (h.trans turn) rest
  | call turn served rest => exact .call (h.trans turn) served rest

theorem Does.bind {d : Dialogue β} {f : β → Dialogue α} (hd : Does who t d t' b)
    (hf : Does who t' (f b) t'' a) : Does who t (d >>= f) t'' a := by
  show Does who t (d.bind f) t'' a
  induction hd with
  | done turn => exact hf.of_turn (by rw [turn_bind, turn])
  | note turn _ ih => exact .note (by rw [turn_bind, turn]) (ih hf)
  | call turn served _ ih => exact .call (by rw [turn_bind, turn]) served (ih hf)

theorem Does.ask {r : Request} {answer : r.Answer} (h : Served who t r answer t') :
    Does who t (ask r) t' answer :=
  .call rfl h (.done rfl)

end Dialogue

end KeyRegistry
