import KeyRegistry.Proofs.Ensemble.Evolution
import KeyRegistry.Task

/-!
# Tasks that end

`Task.Ends` says of a task that it ends with a certain result whatever happens in
the world between its moves, out of what `meanwhile` allows. It is followed along
the task: an instant, a call over a calm session, a wait.
-/

namespace KeyRegistry

namespace Task

variable {α β : Type} {meanwhile : World → World → Prop} {post : α → World → Prop}
  {w w' : World} {t t' : Task α}

/-- A task ends if it is done, or if it can move from some time on and ends after each move. -/
inductive Ends (meanwhile : World → World → Prop) (post : α → World → Prop) :
    World → Task α → Prop
  | done {w : World} {a : α} (holds : post a w) : Ends meanwhile post w (.done a)
  | move {w : World} {t : Task α} (due : Nat) (running : t.result? = none)
      (able : ∀ v, meanwhile w v → due ≤ v.now → (t.step v).isSome)
      (next : ∀ v w' t', meanwhile w v → t.step v = some (w', t') → Ends meanwhile post w' t') :
      Ends meanwhile post w t

/-- The moves of a task, each after something that `meanwhile` allows. -/
inductive Execution (meanwhile : World → World → Prop) :
    World → Task α → World → Task α → Prop
  | here (w : World) (t : Task α) : Execution meanwhile w t w t
  | move {w v w' w'' : World} {t t' t'' : Task α} (between : meanwhile w v)
      (step : t.step v = some (w', t')) (rest : Execution meanwhile w' t' w'' t'') :
      Execution meanwhile w t w'' t''

theorem Ends.of_execution (h : Ends meanwhile post w t)
    (hexec : Execution meanwhile w t w' t') : Ends meanwhile post w' t' := by
  induction hexec with
  | here => exact h
  | move between step _ ih =>
    cases h with
    | done => simp at step
    | move due running able next => exact ih (next _ _ _ between step)

/-- A task that ends yields its result in every execution that has come to a result. -/
theorem Ends.post_of_execution {a : α} (h : Ends meanwhile post w t)
    (hexec : Execution meanwhile w t w' (.done a)) : post a w' := by
  cases h.of_execution hexec with
  | done holds => exact holds
  | move due running => simp at running

theorem Ends.weaken {post' : α → World → Prop} (h : Ends meanwhile post w t)
    (himp : ∀ a w, post a w → post' a w) : Ends meanwhile post' w t := by
  induction h with
  | done holds => exact .done (himp _ _ holds)
  | move due running able _ ih => exact .move due running able ih

theorem Ends.mono (meanwhile' : World → World → Prop) (h : Ends meanwhile post w t)
    (himp : ∀ w w', meanwhile' w w' → meanwhile w w') : Ends meanwhile' post w t := by
  induction h with
  | done holds => exact .done holds
  | move due running able _ ih =>
    exact .move due running (fun v hv => able v (himp _ _ hv))
      fun v w' t' hv hstep => ih v w' t' (himp _ _ hv) hstep

theorem Execution.mono (meanwhile' : World → World → Prop) (h : Execution meanwhile w t w' t')
    (himp : ∀ w w', meanwhile w w' → meanwhile' w w') : Execution meanwhile' w t w' t' := by
  induction h with
  | here w t => exact .here w t
  | move between step _ ih => exact .move (himp _ _ between) step ih

/-- If the clock can go on, a task that ends can be seen to its end. -/
theorem Ends.exists_execution (h : Ends meanwhile post w t)
    (hclock : ∀ w due, ∃ v, meanwhile w v ∧ due ≤ v.now) :
    ∃ w' a, Execution meanwhile w t w' (.done a) ∧ post a w' := by
  induction h with
  | @done w a holds => exact ⟨w, a, .here w _, holds⟩
  | @move w t due running able _ ih =>
    obtain ⟨v, hv, hdue⟩ := hclock w due
    obtain ⟨⟨u, t'⟩, hstep⟩ := Option.isSome_iff_exists.1 (able v hv hdue)
    obtain ⟨w', a, hexec, hpost⟩ := ih v u t' hv hstep
    exact ⟨w', a, .move hv hstep hexec, hpost⟩

/-! ## One task after another -/

theorem running_of_step {x : World × Task α} (h : t.step w = some x) : t.result? = none := by
  cases t with
  | done a => simp at h
  | _ => rfl

theorem bind_assoc {γ : Type} (t : Task α) (f : α → Task β) (g : β → Task γ) :
    t >>= f >>= g = t >>= fun a => f a >>= g := by
  show (t.bind f).bind g = t.bind fun a => (f a).bind g
  induction t with
  | done a => rfl
  | talk s d next ih => exact congrArg (talk s d) (funext ih)
  | serving s r hold rest next ih => exact congrArg (serving s r hold rest) (funext ih)
  | act h next ih => exact congrArg (act h) (funext ih)
  | sleep ms next ih => exact congrArg (sleep ms) ih
  | asleep due next ih => exact congrArg (asleep due) ih
  | await signal ms next ih => exact congrArg (await signal ms) (funext ih)
  | waiting signal due next ih => exact congrArg (waiting signal due) (funext ih)

theorem step_bind (f : α → Task β) (hrunning : t.result? = none) :
    (t.bind f).step w = (t.step w).map fun v => (v.1, v.2.bind f) := by
  cases t with
  | done a => simp at hrunning
  | talk s d next =>
    simp only [bind, step]
    cases d.turn with
    | done b => rfl
    | note n d => rfl
    | call r rest => cases w.accept s <;> rfl
  | serving s r hold rest next =>
    simp only [bind, step]
    split_ifs <;> rfl
  | act g next => rfl
  | sleep ms next =>
    simp only [bind, step]
    split_ifs <;> rfl
  | asleep due next =>
    simp only [bind, step]
    split_ifs <;> rfl
  | await signal ms next =>
    simp only [bind, step]
    split_ifs <;> rfl
  | waiting signal due next =>
    simp only [bind, step]
    split_ifs
    · rfl
    · cases due with
      | none => rfl
      | some due =>
        simp only
        split_ifs <;> rfl

theorem result?_bind (f : α → Task β) (hrunning : t.result? = none) :
    (t.bind f).result? = none := by
  cases t <;> first | rfl | simp at hrunning

theorem Ends.bind {post : β → World → Prop} {f : α → Task β}
    (h : Ends meanwhile (fun a w => Ends meanwhile post w (f a)) w t) :
    Ends meanwhile post w (t.bind f) := by
  induction h with
  | done holds => exact holds
  | move due running able _ ih =>
    refine .move due (result?_bind f running) (fun v hv hdue => ?_) fun v w' t' hv hstep => ?_
    · rw [step_bind f running, Option.isSome_map]
      exact able v hv hdue
    · rw [step_bind f running] at hstep
      obtain ⟨⟨w₁, t₁⟩, h₁, heq⟩ := Option.map_eq_some_iff.1 hstep
      obtain ⟨rfl, rfl⟩ := Prod.ext_iff.1 heq
      exact ih v _ t₁ hv h₁

/-! ## Rules for each kind of task -/

def Stable (meanwhile : World → World → Prop) (P : World → Prop) : Prop :=
  ∀ w w', P w → meanwhile w w' → P w'

section Rules

variable {P : World → Prop} (hP : Stable meanwhile P) (hw : P w)

include hP hw

theorem ends_act {f : World → β × World} {next : β → Task α}
    (h : ∀ w, P w → Ends meanwhile post (f w).2 (next (f w).1)) :
    Ends meanwhile post w (act f next) := by
  refine .move 0 rfl (fun v hv _ => rfl) fun v w' t' hv hstep => ?_
  obtain ⟨rfl, rfl⟩ := Prod.ext_iff.1 (Option.some.inj hstep)
  exact h v (hP w v hw hv)

theorem ends_perform {f : World → β × World} {next : β → Task α}
    (h : ∀ w, P w → Ends meanwhile post (f w).2 (next (f w).1)) :
    Ends meanwhile post w (perform f >>= next) :=
  ends_act hP hw h

theorem ends_look {f : World → β} {next : β → Task α}
    (h : ∀ w, P w → Ends meanwhile post w (next (f w))) :
    Ends meanwhile post w (look f >>= next) :=
  ends_act hP hw h

theorem ends_change {f : World → World} {next : Unit → Task α}
    (h : ∀ w, P w → Ends meanwhile post (f w) (next ())) :
    Ends meanwhile post w (change f >>= next) :=
  ends_act hP hw h

theorem ends_tell {n : Notice} {next : Unit → Task α}
    (h : ∀ w, P w → Ends meanwhile post (w.note n) (next ())) :
    Ends meanwhile post w (tell n >>= next) :=
  ends_act hP hw h

theorem ends_talk_done {s : SessionId} {d : Dialogue β} {next : β → Task α} {b : β}
    (hturn : d.turn = .done b) (h : ∀ w, P w → Ends meanwhile post w (next b)) :
    Ends meanwhile post w (talk s d next) := by
  refine .move 0 rfl (fun v hv _ => by simp [step, hturn]) fun v w' t' hv hstep => ?_
  simp only [step, hturn, Option.some.injEq, Prod.mk.injEq] at hstep
  obtain ⟨rfl, rfl⟩ := hstep
  exact h v (hP w v hw hv)

theorem ends_talk_note {s : SessionId} {d d' : Dialogue β} {next : β → Task α} {n : Notice}
    (hturn : d.turn = .note n d')
    (h : ∀ w, P w → Ends meanwhile post (w.note n) (talk s d' next)) :
    Ends meanwhile post w (talk s d next) := by
  refine .move 0 rfl (fun v hv _ => by simp [step, hturn]) fun v w' t' hv hstep => ?_
  simp only [step, hturn, Option.some.injEq, Prod.mk.injEq] at hstep
  obtain ⟨rfl, rfl⟩ := hstep
  exact h v (hP w v hw hv)

end Rules

end Task

namespace World

def CalmAt (w : World) (s : SessionId) (e : Ensemble) : Prop :=
  w.ensembles[s.ensemble]? = some e ∧ e.Calm s.number

theorem setEnsemble_self {w : World} {k : Nat} {e : Ensemble} (h : w.ensembles[k]? = some e) :
    w.setEnsemble k e = w := by
  obtain ⟨hlt, rfl⟩ := List.getElem?_eq_some_iff.1 h
  simp [setEnsemble]

theorem CalmAt.ensemble_eq {w : World} {s : SessionId} {e : Ensemble} (h : w.CalmAt s e) :
    w.ensemble s.ensemble = e := by
  simp [ensemble, h.1]

theorem CalmAt.accept_eq {w : World} {s : SessionId} {e : Ensemble} (h : w.CalmAt s e) :
    ∃ due, w.accept s = .ok (⟨none, w.now, due⟩, w) := by
  refine ⟨w.now + e.faults.latencyMs, ?_⟩
  rw [accept, h.ensemble_eq, Ensemble.accept_of_live h.2.live h.2.unfaulted]
  simp [setEnsemble_self h.1]

theorem CalmAt.complete_eq {w : World} {s : SessionId} {e : Ensemble} (h : w.CalmAt s e)
    (r : Request) : w.complete s none r =
      ((e.perform s.number r).1, w.setEnsemble s.ensemble (e.perform s.number r).2) := by
  rw [complete, h.ensemble_eq, Ensemble.complete_of_live h.2.live]

end World

/-- A call over a calm session is held up until it is due and does what it asks for. -/
theorem Task.ends_talk_call {α β : Type} {meanwhile : World → World → Prop}
    {post : α → World → Prop} {P : World → Prop} (hP : Stable meanwhile P) {w : World} (hw : P w)
    {s : SessionId} (hcalm : ∀ w, P w → ∃ e, w.CalmAt s e) {d : Dialogue β} {next : β → Task α}
    {r : Request} {rest : r.Answer → Dialogue β} (hturn : d.turn = .call r rest)
    (h : ∀ w e, P w → w.CalmAt s e →
      Ends meanwhile post (w.setEnsemble s.ensemble (e.perform s.number r).2)
        (talk s (rest (e.perform s.number r).1) next)) :
    Ends meanwhile post w (talk s d next) := by
  have hstep₁ (v : World) (hv : P v) : ∃ due,
      (talk s d next).step v = some (v, serving s r ⟨none, v.now, due⟩ rest next) := by
    obtain ⟨e, he⟩ := hcalm v hv
    obtain ⟨due, haccept⟩ := he.accept_eq
    exact ⟨due, by simp [step, hturn, haccept]⟩
  refine .move 0 rfl (fun v hv _ => ?_) fun v w' t' hv hstep => ?_
  · obtain ⟨due, hdue⟩ := hstep₁ v (hP w v hw hv)
    simp [hdue]
  · have hPv := hP w v hw hv
    obtain ⟨due, hdue⟩ := hstep₁ v hPv
    rw [hdue] at hstep
    obtain ⟨rfl, rfl⟩ := Prod.ext_iff.1 (Option.some.inj hstep)
    refine .move due rfl (fun u hu hle => ?_) fun u w' t' hu hstep => ?_
    · simp [step, Nat.not_lt.2 hle]
    · have hPu := hP _ u hPv hu
      obtain ⟨e, he⟩ := hcalm u hPu
      simp only [step, he.complete_eq] at hstep
      split_ifs at hstep
      obtain ⟨rfl, rfl⟩ := Prod.ext_iff.1 (Option.some.inj hstep)
      exact h u e hPu he

end KeyRegistry
