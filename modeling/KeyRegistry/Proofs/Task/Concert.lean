import KeyRegistry.Proofs.Task.Ends
import KeyRegistry.Proofs.Task.Twin

/-!
# Concerts

Calls run side by side in one world. The beats of a concert say what happens one after the
other: which call begins, which makes its next move, and what goes on in the world meanwhile.
Two runs can be compared that follow the same beats.
-/

namespace KeyRegistry

inductive Incident
  /-- A worker has its turn. -/
  | turn (moves i : Nat)
  | wait (ms : Nat)
  /-- Faults set in, or others do something at the service. -/
  | service (k : Nat) (f : Ensemble → Ensemble)
  | place (name : String) (bytes : List UInt8)
  /-- The worker of a replica that nothing reaches any more is asked to stop. -/
  | release (i : Nat)

def Incident.act (w : World) : Incident → World
  | .turn moves i => w.runWorker moves i
  | .wait ms => { w with now := w.now + ms }
  | .service k f => w.setEnsemble k (f (w.ensemble k))
  | .place name bytes => w.placeFile name bytes
  | .release i => w.modifyReplica i fun m =>
    { m with worker := m.worker.map fun v => { v with stopRequested := true } }

theorem World.Like.incident {K : Kinship} {m : K.Mark} {w v : World} (h : Like K m w v)
    (x : Incident) : Like K m (x.act w) (x.act v) := by
  cases x with
  | turn moves i => exact h.runWorker moves i
  | wait ms => exact h.later ms
  | service k f =>
    rw [Incident.act, Incident.act, h.ensemble_eq]
    exact h.setEnsemble k _
  | place name bytes => exact h.placeFile name bytes
  | release i => exact h.modifyReplica i _

inductive Beat (Op : Type)
  | call (op : Op)
  | move (i : Nat)
  | incident (x : Incident)

/-- The calls that have begun, in the order in which they did, and the places of those that have
ended, in the order in which they did. -/
structure Concert (Op α : Type) where
  world : World
  calls : List (Op × Task α) := []
  ended : List Nat := []

def Task.endedAt {α : Type} (t : Task α) (i : Nat) : List Nat :=
  if t.result?.isSome then [i] else []

namespace Concert

variable {Op α : Type} {c : Concert Op α} {task : Op → Task α} {op : Op} {t t' : Task α} {w : World}
  {i j : Nat}

def opening (w : World) : Concert Op α := ⟨w, [], []⟩

def enter (c : Concert Op α) (op : Op) (t : Task α) : Concert Op α :=
  ⟨c.world, c.calls ++ [(op, t)], c.ended ++ t.endedAt c.calls.length⟩

def move (c : Concert Op α) (i : Nat) : Concert Op α :=
  match c.calls[i]? with
  | none => c
  | some (op, t) =>
    match t.step c.world with
    | none => c
    | some (w, t) => ⟨w, c.calls.set i (op, t), c.ended ++ t.endedAt i⟩

def beat (task : Op → Task α) (c : Concert Op α) : Beat Op → Concert Op α
  | .call op => c.enter op (task op)
  | .move i => c.move i
  | .incident x => { c with world := x.act c.world }

def play (task : Op → Task α) (c : Concert Op α) (beats : List (Beat Op)) : Concert Op α :=
  beats.foldl (beat task) c

def outcome? (c : Concert Op α) (i : Nat) : Option (Op × α) :=
  (c.calls[i]?).bind fun x => x.2.result?.map (Prod.mk x.1)

theorem outcome?_of_call (h : c.calls[i]? = some (op, t)) :
    c.outcome? i = t.result?.map (Prod.mk op) := by
  simp [outcome?, h]

theorem move_of_none (h : c.calls[i]? = none) : c.move i = c := by
  simp [move, h]

theorem move_of_stuck (h : c.calls[i]? = some (op, t)) (hstep : t.step c.world = none) :
    c.move i = c := by
  simp [move, h, hstep]

theorem move_of_step (h : c.calls[i]? = some (op, t)) (hstep : t.step c.world = some (w, t')) :
    c.move i = ⟨w, c.calls.set i (op, t'), c.ended ++ t'.endedAt i⟩ := by
  simp [move, h, hstep]

/-! ## Calls that have ended -/

/-- What has ended stays as it is. -/
theorem outcome?_enter {x : Op × α} (h : c.outcome? i = some x) :
    (c.enter op t).outcome? i = some x := by
  obtain ⟨y, hy, -⟩ := Option.bind_eq_some_iff.1 h
  obtain ⟨hlt, -⟩ := List.getElem?_eq_some_iff.1 hy
  rw [outcome?, enter, List.getElem?_append_left hlt]
  exact h

theorem outcome?_set {ended : List Nat} (hij : i ≠ j) :
    (⟨w, c.calls.set j (op, t), ended⟩ : Concert Op α).outcome? i = c.outcome? i := by
  rw [outcome?, outcome?, List.getElem?_set_ne hij.symm]

theorem outcome?_move {x : Op × α} (h : c.outcome? i = some x) (j : Nat) :
    (c.move j).outcome? i = some x := by
  cases hj : c.calls[j]? with
  | none => rwa [move_of_none hj]
  | some y =>
    obtain ⟨op, t⟩ := y
    cases hstep : t.step c.world with
    | none => rwa [move_of_stuck hj hstep]
    | some z =>
      obtain ⟨w, t'⟩ := z
      rw [move_of_step hj hstep]
      by_cases hij : i = j
      · -- a call that has ended makes no move
        subst hij
        rw [outcome?_of_call hj, Task.running_of_step hstep] at h
        cases h
      · rwa [outcome?_set hij]

def Recorded (c : Concert Op α) : Prop :=
  c.ended.Nodup ∧ ∀ i, i ∈ c.ended ↔ (c.outcome? i).isSome

theorem mem_endedAt_iff : i ∈ t.endedAt j ↔ i = j ∧ t.result?.isSome := by
  unfold Task.endedAt
  split_ifs with h <;> simp [h]

theorem nodup_endedAt (t : Task α) (i : Nat) : (t.endedAt i).Nodup := by
  unfold Task.endedAt
  split_ifs <;> simp

theorem recorded_opening (w : World) : (opening w : Concert Op α).Recorded :=
  ⟨.nil, fun i => by simp [outcome?, opening]⟩

theorem Recorded.enter (h : c.Recorded) (op : Op) (t : Task α) : (c.enter op t).Recorded := by
  obtain ⟨hnodup, hmem⟩ := h
  have hnew : c.calls.length ∉ c.ended := fun hin => by simpa [outcome?] using (hmem _).1 hin
  refine ⟨List.nodup_append.2 ⟨hnodup, nodup_endedAt .., ?_⟩, fun i => ?_⟩
  · rintro i hi j hj rfl
    obtain ⟨rfl, -⟩ := mem_endedAt_iff.1 hj
    exact hnew hi
  · rw [Concert.enter, List.mem_append, hmem, mem_endedAt_iff]
    rcases Nat.lt_trichotomy i c.calls.length with hlt | rfl | hlt
    · simp [outcome?, List.getElem?_append_left hlt, Nat.ne_of_lt hlt]
    · simp [outcome?]
    · have hpast : (c.calls ++ [(op, t)])[i]? = none := List.getElem?_eq_none (by
        rw [List.length_append]
        exact hlt)
      simp [outcome?, hpast, List.getElem?_eq_none (Nat.le_of_lt hlt), Nat.ne_of_gt hlt]

theorem Recorded.move (h : c.Recorded) (i : Nat) : (c.move i).Recorded := by
  obtain ⟨hnodup, hmem⟩ := h
  cases hi : c.calls[i]? with
  | none => rw [move_of_none hi]; exact ⟨hnodup, hmem⟩
  | some y =>
    obtain ⟨op, t⟩ := y
    cases hstep : t.step c.world with
    | none => rw [move_of_stuck hi hstep]; exact ⟨hnodup, hmem⟩
    | some z =>
      obtain ⟨w, t'⟩ := z
      have hnew : i ∉ c.ended := fun hin => by
        simpa [outcome?_of_call hi, Task.running_of_step hstep] using (hmem i).1 hin
      rw [move_of_step hi hstep]
      refine ⟨List.nodup_append.2 ⟨hnodup, nodup_endedAt .., ?_⟩, fun j => ?_⟩
      · rintro j hj k hk rfl
        obtain ⟨rfl, -⟩ := mem_endedAt_iff.1 hk
        exact hnew hj
      · rw [List.mem_append, mem_endedAt_iff]
        by_cases hji : j = i
        · subst hji
          obtain ⟨hlt, -⟩ := List.getElem?_eq_some_iff.1 hi
          simp [hnew, outcome?, List.getElem?_set_self hlt]
        · rw [outcome?_set hji, hmem]
          simp [hji]

theorem Recorded.play (h : c.Recorded) (task : Op → Task α) (beats : List (Beat Op)) :
    (c.play task beats).Recorded := by
  induction beats generalizing c with
  | nil => exact h
  | cons b rest ih =>
    cases b with
    | call op => exact ih (h.enter op _)
    | move i => exact ih (h.move i)
    | incident x => exact ih h

end Concert

/-! ## Concerts of twins -/

inductive Beat.Alike {Op : Type} (R : Op → Op → Prop) : Beat Op → Beat Op → Prop
  | call {op op' : Op} (h : R op op') : Alike R (.call op) (.call op')
  | move (i : Nat) : Alike R (.move i) (.move i)
  | incident (x : Incident) : Alike R (.incident x) (.incident x)

theorem Beat.Alike.self {Op : Type} {R : Op → Op → Prop} (hR : ∀ op, R op op) (b : Beat Op) :
    Beat.Alike R b b := by
  cases b with
  | call op => exact .call (hR op)
  | move i => exact .move i
  | incident x => exact .incident x

namespace Concert

variable {Op α : Type} {K : Kinship} {m : K.Mark} {a b : Concert Op α} {R : Op → Op → Prop}
  {task : Op → Task α} {op op' : Op} {t t' : Task α}

structure Twins (K : Kinship) (m : K.Mark) (a b : Concert Op α) : Prop where
  like : World.Like K m a.world b.world
  calls : List.Forall₂ (fun x y => Task.Twin K Eq x.2 y.2) a.calls b.calls
  ended : a.ended = b.ended

namespace Twins

variable (h : Twins K m a b)

include h

omit h in
theorem endedAt_eq (h : Task.Twin K Eq t t') (i : Nat) : t.endedAt i = t'.endedAt i := by
  rcases h.result with ⟨hrun, hrun'⟩ | ⟨r, r', rfl, rfl, rfl⟩
  · rw [Task.endedAt, Task.endedAt, hrun, hrun']
  · rfl

theorem enter (ht : Task.Twin K Eq t t') : Twins K m (a.enter op t) (b.enter op' t') where
  like := h.like
  calls := forall₂_concat h.calls ht
  ended := by rw [Concert.enter, Concert.enter, h.ended, h.calls.length_eq, endedAt_eq ht]

theorem move (i : Nat) : Twins K m (a.move i) (b.move i) := by
  rcases forall₂_getElem? h.calls i with ⟨ha, hb⟩ | ⟨⟨op, t⟩, ⟨op', t'⟩, ha, hb, ht⟩
  · rwa [move_of_none ha, move_of_none hb]
  · rcases Task.Twin.step ht h.like with ⟨hstuck, hstuck'⟩ |
      ⟨w, v, t₁, t₁', hstep, hstep', hlike, ht₁⟩
    · rwa [move_of_stuck ha hstuck, move_of_stuck hb hstuck']
    · rw [move_of_step ha hstep, move_of_step hb hstep']
      exact ⟨hlike, forall₂_set h.calls i ht₁, by rw [h.ended, endedAt_eq ht₁]⟩

theorem play (htask : ∀ op op', R op op' → Task.Twin K Eq (task op) (task op'))
    {beats beats' : List (Beat Op)} (hbeats : List.Forall₂ (Beat.Alike R) beats beats') :
    Twins K m (a.play task beats) (b.play task beats') := by
  induction hbeats generalizing a b with
  | nil => exact h
  | cons hbeat _ ih =>
    refine ih ?_
    cases hbeat with
    | call hop => exact h.enter (htask _ _ hop)
    | move i => exact h.move i
    | incident x => exact { h with like := h.like.incident x }

omit h in
theorem opening {w v : World} (h : World.Like K m w v) :
    Twins K m (opening w : Concert Op α) (opening v) :=
  ⟨h, .nil, rfl⟩

/-- Calls of such concerts come to the same. -/
theorem result_eq (i : Nat) : (a.outcome? i).map Prod.snd = (b.outcome? i).map Prod.snd := by
  rcases forall₂_getElem? h.calls i with ⟨ha, hb⟩ | ⟨⟨op, t⟩, ⟨op', t'⟩, ha, hb, ht⟩
  · rw [outcome?, outcome?, ha, hb]
  · rw [outcome?_of_call ha, outcome?_of_call hb]
    rcases ht.result with ⟨hrun, hrun'⟩ | ⟨r, r', heq, heq', hr⟩
    · dsimp only at hrun hrun'
      rw [hrun, hrun']
      rfl
    · dsimp only at heq heq'
      rw [heq, heq', hr]
      rfl

end Twins

end Concert

end KeyRegistry
