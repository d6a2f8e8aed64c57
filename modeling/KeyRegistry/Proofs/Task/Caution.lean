import KeyRegistry.Proofs.Task.Ends

/-!
# Tasks that commit themselves

`Task.Gives` says of the results that a task can come to, whatever happens in the world and
whatever the service answers, that they are as they should be. Some tasks are only so from some
move on, which is the first one that leaves a mark: `Task.Cautious` says that each move of such a
task leaves none as long as the task may still come to a result that is not.
-/

namespace KeyRegistry

namespace Dialogue

variable {α β : Type} {P P' : α → Prop}

def Gives (P : α → Prop) : Dialogue α → Prop
  | done a => P a
  | note _ next => next.Gives P
  | call _ next => ∀ answer, (next answer).Gives P
  | collect _ _ next => ∀ found, (next found).Gives P

def Turn.Gives (P : α → Prop) : Turn α → Prop
  | .done a => P a
  | .note _ next => next.Gives P
  | .call _ next => ∀ answer, (next answer).Gives P

theorem Gives.mono {d : Dialogue α} (h : d.Gives P) (himp : ∀ a, P a → P' a) : d.Gives P' := by
  induction d with
  | done a => exact himp a h
  | note n next ih => exact ih h
  | call r next ih => exact fun answer => ih answer (h answer)
  | collect visited pending next ih => exact fun found => ih found (h found)

theorem gives_of_forall (d : Dialogue α) (h : ∀ a, P a) : d.Gives P := by
  induction d with
  | done a => exact h a
  | note n next ih => exact ih
  | call r next ih => exact ih
  | collect visited pending next ih => exact ih

theorem Gives.bind {P : β → Prop} {d : Dialogue α} {f : α → Dialogue β} (h : d.Gives P')
    (hf : ∀ a, P' a → (f a).Gives P) : (d >>= f).Gives P := by
  show (d.bind f).Gives P
  induction d with
  | done a => exact hf a h
  | note n next ih => exact ih h
  | call r next ih => exact fun answer => ih answer (h answer)
  | collect visited pending next ih => exact fun found => ih found (h found)

theorem Gives.turn {d : Dialogue α} (h : d.Gives P) : d.turn.Gives P := by
  induction d with
  | done a => exact h
  | note n next => exact h
  | call r next => exact h
  | collect visited pending next ih =>
    cases pending with
    | nil => exact ih _ (h _)
    | cons p rest =>
      intro answer
      unfold afterChildren
      split
      · exact h
      · split_ifs
        · exact h _
        · exact h
      · exact h _

end Dialogue

namespace Task

variable {α β : Type} {meanwhile R : World → World → Prop} {P : α → Prop} {w w' : World}
  {t t' : Task α}

/-! ## The results of a task -/

def Gives (P : α → Prop) : Task α → Prop
  | done a => P a
  | talk _ d next => d.Gives fun b => (next b).Gives P
  | serving _ _ _ rest next => ∀ answer, (rest answer).Gives fun b => (next b).Gives P
  | act f next => ∀ w : World, (next (f w).1).Gives P
  | sleep _ next => next.Gives P
  | asleep _ next => next.Gives P
  | await _ _ next => ∀ came, (next came).Gives P
  | waiting _ _ next => ∀ came, (next came).Gives P

theorem Gives.bind {P' : β → Prop} {t : Task β} {f : β → Task α} (h : t.Gives P')
    (hf : ∀ b, P' b → (f b).Gives P) : (t >>= f).Gives P := by
  show (t.bind f).Gives P
  induction t with
  | done b => exact hf b h
  | talk s d next ih => exact Dialogue.Gives.mono h fun b hb => ih b hb
  | serving s r hold rest next ih =>
    exact fun answer => Dialogue.Gives.mono (h answer) fun b hb => ih b hb
  | act g next ih => exact fun w => ih _ (h w)
  | sleep ms next ih => exact ih h
  | asleep due next ih => exact ih h
  | await signal ms next ih => exact fun came => ih came (h came)
  | waiting signal due next ih => exact fun came => ih came (h came)

theorem gives_perform {f : World → β × World} {next : β → Task α}
    (h : ∀ w : World, (next (f w).1).Gives P) : (perform f >>= next).Gives P :=
  h

theorem gives_look {f : World → β} {next : β → Task α} (h : ∀ w, (next (f w)).Gives P) :
    (look f >>= next).Gives P :=
  h

theorem gives_change {f : World → World} {next : Unit → Task α} (h : (next ()).Gives P) :
    (change f >>= next).Gives P :=
  fun _ => h

theorem gives_tell {n : Notice} {next : Unit → Task α} (h : (next ()).Gives P) :
    (tell n >>= next).Gives P :=
  gives_change h

theorem gives_pause {ms : Nat} {next : Unit → Task α} (h : (next ()).Gives P) :
    (pause ms >>= next).Gives P :=
  h

theorem gives_say {s : SessionId} {d : Dialogue β} {next : β → Task α}
    (h : d.Gives fun b => (next b).Gives P) : (say s d >>= next).Gives P :=
  h

theorem Gives.step (h : t.Gives P) (hstep : t.step w = some (w', t')) : t'.Gives P := by
  cases t with
  | done a => simp at hstep
  | talk s d next =>
    have hturn := Dialogue.Gives.turn h
    simp only [Task.step] at hstep
    split at hstep <;> rename_i hd <;> rw [hd] at hturn
    · obtain ⟨rfl, rfl⟩ := Prod.ext_iff.1 (Option.some.inj hstep)
      exact hturn
    · obtain ⟨rfl, rfl⟩ := Prod.ext_iff.1 (Option.some.inj hstep)
      exact hturn
    · split at hstep <;> obtain ⟨rfl, rfl⟩ := Prod.ext_iff.1 (Option.some.inj hstep)
      · exact hturn _
      · exact hturn
  | serving s r hold rest next =>
    simp only [Task.step] at hstep
    split_ifs at hstep
    obtain ⟨rfl, rfl⟩ := Prod.ext_iff.1 (Option.some.inj hstep)
    exact h _
  | act f next =>
    obtain ⟨rfl, rfl⟩ := Prod.ext_iff.1 (Option.some.inj hstep)
    exact h w
  | sleep ms next =>
    obtain ⟨rfl, rfl⟩ := Prod.ext_iff.1 (Option.some.inj hstep)
    dsimp only
    split_ifs <;> exact h
  | asleep due next =>
    simp only [Task.step] at hstep
    split_ifs at hstep
    obtain ⟨rfl, rfl⟩ := Prod.ext_iff.1 (Option.some.inj hstep)
    exact h
  | await signal ms next =>
    simp only [Task.step] at hstep
    split_ifs at hstep <;> obtain ⟨rfl, rfl⟩ := Prod.ext_iff.1 (Option.some.inj hstep)
    · exact h true
    · exact h false
    · exact h
  | waiting signal due next =>
    simp only [Task.step] at hstep
    split_ifs at hstep
    · obtain ⟨rfl, rfl⟩ := Prod.ext_iff.1 (Option.some.inj hstep)
      exact h true
    · cases due with
      | none => cases hstep
      | some due =>
        simp only at hstep
        split_ifs at hstep
        obtain ⟨rfl, rfl⟩ := Prod.ext_iff.1 (Option.some.inj hstep)
        exact h false

theorem Gives.execution (h : t.Gives P) (hexec : Execution meanwhile w t w' t') : t'.Gives P := by
  induction hexec with
  | here => exact h
  | move _ step _ ih => exact ih (h.step step)

/-! ## Caution -/

/-- A task is cautious if each of its moves is as `R` says as long as it can still come to a result
that is `bad`, and if `post` holds when it comes to one. -/
inductive Cautious (meanwhile R : World → World → Prop) (bad : α → Prop) (post : World → Prop) :
    World → Task α → Prop
  | done {w : World} {a : α} (holds : bad a → post w) : Cautious meanwhile R bad post w (.done a)
  | committed {w : World} {t : Task α} (good : t.Gives fun a => ¬bad a) :
      Cautious meanwhile R bad post w t
  | move {w : World} {t : Task α} (running : t.result? = none)
      (moves : ∀ v w' t', meanwhile w v → t.step v = some (w', t') →
        R v w' ∨ t'.Gives fun a => ¬bad a)
      (next : ∀ v w' t', meanwhile w v → t.step v = some (w', t') →
        Cautious meanwhile R bad post w' t') :
      Cautious meanwhile R bad post w t

variable {bad : α → Prop} {post : World → Prop}

theorem Cautious.execution (h : Cautious meanwhile R bad post w t)
    (hexec : Execution meanwhile w t w' t') : Cautious meanwhile R bad post w' t' := by
  induction hexec with
  | here => exact h
  | move between step _ ih =>
    cases h with
    | done => simp at step
    | committed good => exact ih (.committed (good.step step))
    | move running moves next => exact ih (next _ _ _ between step)

theorem Cautious.post_of_execution {a : α} (h : Cautious meanwhile R bad post w t)
    (hexec : Execution meanwhile w t w' (.done a)) (ha : bad a) : post w' := by
  cases h.execution hexec with
  | done holds => exact holds ha
  | committed good => exact absurd ha good
  | move running => simp at running

/-- Each move that a cautious task makes before it comes to a bad result is as `R` says. -/
theorem Cautious.moves_of_execution {v v' u : World} {t'' : Task α} {a : α}
    (h : Cautious meanwhile R bad post w t) (hexec : Execution meanwhile w t v t')
    (hv : meanwhile v v') (hstep : t'.step v' = some (u, t''))
    (hrest : Execution meanwhile u t'' w' (.done a)) (ha : bad a) : R v' u := by
  cases h.execution hexec with
  | done => simp at hstep
  | committed good => exact absurd ha ((good.step hstep).execution hrest)
  | move running moves next =>
    exact (moves _ _ _ hv hstep).resolve_right fun good => absurd ha (good.execution hrest)

theorem Cautious.bind {bad' : β → Prop} {post' : World → Prop} {t : Task β} {f : β → Task α}
    (h : Cautious meanwhile R bad' post' w t)
    (hgood : ∀ b, ¬bad' b → (f b).Gives fun a => ¬bad a)
    (hbad : ∀ b w, bad' b → post' w → Cautious meanwhile R bad post w (f b)) :
    Cautious meanwhile R bad post w (t >>= f) := by
  show Cautious meanwhile R bad post w (t.bind f)
  induction h with
  | @done w b holds =>
    by_cases hb : bad' b
    · exact hbad b w hb (holds hb)
    · exact .committed (hgood b hb)
  | committed good => exact .committed (good.bind hgood)
  | move running moves next ih =>
    refine .move (result?_bind f running) (fun v w' t' hv hstep => ?_)
      (fun v w' t' hv hstep => ?_) <;>
      rw [step_bind f running] at hstep <;>
      obtain ⟨⟨w₁, t₁⟩, h₁, heq⟩ := Option.map_eq_some_iff.1 hstep <;>
      obtain ⟨rfl, rfl⟩ := Prod.ext_iff.1 heq
    · exact (moves v _ t₁ hv h₁).imp_right fun good => good.bind hgood
    · exact ih v _ t₁ hv h₁

/-! ## Rules for each kind of task -/

section Rules

variable {Q : World → Prop} (hQ : Stable meanwhile Q) (hw : Q w)

include hQ hw

theorem cautious_perform {f : World → β × World} {next : β → Task α}
    (h : ∀ w, Q w → R w (f w).2 ∨ (next (f w).1).Gives fun a => ¬bad a)
    (hnext : ∀ w, Q w → Cautious meanwhile R bad post (f w).2 (next (f w).1)) :
    Cautious meanwhile R bad post w (perform f >>= next) := by
  refine .move rfl (fun v w' t' hv hstep => ?_) fun v w' t' hv hstep => ?_ <;>
    obtain ⟨rfl, rfl⟩ := Prod.ext_iff.1 (Option.some.inj hstep)
  · exact h v (hQ w v hw hv)
  · exact hnext v (hQ w v hw hv)

theorem cautious_look (hrefl : ∀ w, R w w) {f : World → β} {next : β → Task α}
    (h : ∀ w, Q w → Cautious meanwhile R bad post w (next (f w))) :
    Cautious meanwhile R bad post w (look f >>= next) :=
  cautious_perform hQ hw (fun w _ => .inl (hrefl w)) h

theorem cautious_change {f : World → World} {next : Unit → Task α} (hR : ∀ w, R w (f w))
    (h : ∀ w, Q w → Cautious meanwhile R bad post (f w) (next ())) :
    Cautious meanwhile R bad post w (change f >>= next) :=
  cautious_perform (f := fun w => ((), f w)) hQ hw (fun w _ => .inl (hR w)) h

theorem cautious_tell {n : Notice} {next : Unit → Task α} (hR : ∀ w : World, R w (w.note n))
    (hnote : ∀ w, Q w → Q (w.note n)) (h : ∀ w, Q w → Cautious meanwhile R bad post w (next ())) :
    Cautious meanwhile R bad post w (tell n >>= next) :=
  cautious_change hQ hw hR fun w hw => h _ (hnote w hw)

/-- A wait without a limit ends when the signal is shown. -/
theorem cautious_await (hrefl : ∀ w, R w w) {signal : Signal} {next : Bool → Task α}
    (h : ∀ w, Q w → w.shows signal = true → Cautious meanwhile R bad post w (next true)) :
    Cautious meanwhile R bad post w (awaitSignal signal none >>= next) := by
  show Cautious meanwhile R bad post w (await signal none next)
  have hwaiting (v : World) (hv : Q v) :
      Cautious meanwhile R bad post v (waiting signal none next) := by
    refine .move rfl (fun u w' t' hu hstep => ?_) fun u w' t' hu hstep => ?_ <;>
      simp only [step] at hstep <;> split_ifs at hstep with hshown <;>
      obtain ⟨rfl, rfl⟩ := Prod.ext_iff.1 (Option.some.inj hstep)
    · exact .inl (hrefl u)
    · exact h u (hQ v u hv hu) hshown
  refine .move rfl (fun v w' t' hv hstep => ?_) fun v w' t' hv hstep => ?_ <;>
    simp only [step, reduceCtorEq, if_false] at hstep <;> split_ifs at hstep with hshown <;>
    obtain ⟨rfl, rfl⟩ := Prod.ext_iff.1 (Option.some.inj hstep)
  · exact .inl (hrefl v)
  · exact .inl (hrefl v)
  · exact h v (hQ w v hw hv) hshown
  · exact hwaiting v (hQ w v hw hv)

end Rules

end Task

end KeyRegistry
