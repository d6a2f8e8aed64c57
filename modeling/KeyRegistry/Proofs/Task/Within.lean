import KeyRegistry.Proofs.Dialogue.Calls

/-!
# Tasks within bounds

What a task does can be read off its text: what it does to the world in an instant, and
what it asks of the service. Each move of the task is then one of these, wherever it has
come to.
-/

namespace KeyRegistry

theorem Dialogue.Only.mono {α : Type} {P Q : Request → Prop} {d : Dialogue α} (h : d.Only P)
    (himp : ∀ r, P r → Q r) : d.Only Q := by
  induction d with
  | done a => trivial
  | note n next ih => exact ih h
  | call r next ih => exact ⟨himp r h.1, fun answer => ih answer (h.2 answer)⟩
  | collect visited pending next ih =>
    exact ⟨fun p => himp _ (h.1 p), fun found => ih found (h.2 found)⟩

theorem Dialogue.only_true {α : Type} (d : Dialogue α) : d.Only fun _ => True := by
  induction d with
  | done a => trivial
  | note n next ih => exact ih
  | call r next ih => exact ⟨trivial, ih⟩
  | collect visited pending next ih => exact ⟨fun _ => trivial, ih⟩

namespace Task

variable {α β : Type} {R R' : World → World → Prop} {Q Q' : Request → Prop} {w w' : World}
  {t t' : Task α}

/-- Whether a task moves the world in an instant only as `R` says, and makes only calls of which
`Q` is true. -/
def Within (R : World → World → Prop) (Q : Request → Prop) : Task α → Prop
  | done _ => True
  | talk _ d next => d.Only Q ∧ ∀ b, (next b).Within R Q
  | serving _ r _ rest next =>
    Q r ∧ (∀ answer, (rest answer).Only Q) ∧ ∀ b, (next b).Within R Q
  | act f next => ∀ w : World, R w (f w).2 ∧ (next (f w).1).Within R Q
  | sleep _ next => next.Within R Q
  | asleep _ next => next.Within R Q
  | await _ _ next => ∀ came, (next came).Within R Q
  | waiting _ _ next => ∀ came, (next came).Within R Q

theorem Within.bind {t : Task β} {f : β → Task α} (h : t.Within R Q)
    (hf : ∀ b, (f b).Within R Q) : (t >>= f).Within R Q := by
  show (t.bind f).Within R Q
  induction t with
  | done b => exact hf b
  | talk s d next ih => exact ⟨h.1, fun b => ih b (h.2 b)⟩
  | serving s r hold rest next ih => exact ⟨h.1, h.2.1, fun b => ih b (h.2.2 b)⟩
  | act g next ih => exact fun w => ⟨(h w).1, ih _ (h w).2⟩
  | sleep ms next ih => exact ih h
  | asleep due next ih => exact ih h
  | await signal ms next ih => exact fun came => ih came (h came)
  | waiting signal due next ih => exact fun came => ih came (h came)

theorem Within.mono (h : t.Within R Q) (hR : ∀ w w', R w w' → R' w w')
    (hQ : ∀ r, Q r → Q' r) : t.Within R' Q' := by
  induction t with
  | done b => trivial
  | talk s d next ih => exact ⟨h.1.mono hQ, fun b => ih b (h.2 b)⟩
  | serving s r hold rest next ih =>
    exact ⟨hQ r h.1, fun answer => (h.2.1 answer).mono hQ, fun b => ih b (h.2.2 b)⟩
  | act g next ih => exact fun w => ⟨hR _ _ (h w).1, ih _ (h w).2⟩
  | sleep ms next ih => exact ih h
  | asleep due next ih => exact ih h
  | await signal ms next ih => exact fun came => ih came (h came)
  | waiting signal due next ih => exact fun came => ih came (h came)

theorem within_say (s : SessionId) {d : Dialogue α} (hd : d.Only Q) : (say s d).Within R Q :=
  ⟨hd, fun _ => trivial⟩

theorem within_perform {f : World → α × World} (h : ∀ w : World, R w (f w).2) :
    (perform f).Within R Q :=
  fun w => ⟨h w, trivial⟩

theorem within_look (hrefl : ∀ w, R w w) (f : World → α) : (look f).Within R Q :=
  within_perform hrefl

theorem within_change {f : World → World} (h : ∀ w : World, R w (f w)) : (change f).Within R Q :=
  within_perform h

/-- What the moves of a task do that holds itself to `R` and `Q`: they do what `R` says, nothing,
or half a call. -/
inductive Moving (R : World → World → Prop) (Q : Request → Prop) : World → World → Prop
  | instant {w w' : World} (instant : R w w') : Moving R Q w w'
  | nothing (w : World) : Moving R Q w w
  | note (w : World) (n : Notice) : Moving R Q w (w.note n)
  | accept {w w' : World} {s : SessionId} {hold : Hold}
      (accepted : w.accept s = .ok (hold, w')) : Moving R Q w w'
  | complete (w : World) (s : SessionId) (fault : Option ServiceError) {r : Request} (asked : Q r) :
      Moving R Q w (w.complete s fault r).2

theorem Within.step (h : t.Within R Q) (hstep : t.step w = some (w', t')) :
    Moving R Q w w' ∧ t'.Within R Q := by
  cases t with
  | done a => simp at hstep
  | talk s d next =>
    obtain ⟨hd, hnext⟩ := h
    have hturn := hd.turn
    simp only [Task.step] at hstep
    split at hstep <;> rename_i hcall <;> rw [hcall] at hturn
    · obtain ⟨rfl, rfl⟩ := Prod.ext_iff.1 (Option.some.inj hstep)
      exact ⟨.nothing w, hnext _⟩
    · obtain ⟨rfl, rfl⟩ := Prod.ext_iff.1 (Option.some.inj hstep)
      exact ⟨.note w _, hturn, hnext⟩
    · split at hstep
      · obtain ⟨rfl, rfl⟩ := Prod.ext_iff.1 (Option.some.inj hstep)
        exact ⟨.nothing w, hturn.2 _, hnext⟩
      · rename_i haccept
        obtain ⟨rfl, rfl⟩ := Prod.ext_iff.1 (Option.some.inj hstep)
        exact ⟨.accept haccept, hturn.1, hturn.2, hnext⟩
  | serving s r hold rest next =>
    obtain ⟨hr, hrest, hnext⟩ := h
    simp only [Task.step] at hstep
    split_ifs at hstep
    obtain ⟨rfl, rfl⟩ := Prod.ext_iff.1 (Option.some.inj hstep)
    exact ⟨.complete w s hold.fault hr, hrest _, hnext⟩
  | act f next =>
    obtain ⟨rfl, rfl⟩ := Prod.ext_iff.1 (Option.some.inj hstep)
    exact ⟨.instant (h w).1, (h w).2⟩
  | sleep ms next =>
    obtain ⟨rfl, rfl⟩ := Prod.ext_iff.1 (Option.some.inj hstep)
    refine ⟨.nothing w, ?_⟩
    dsimp only
    split_ifs <;> exact h
  | asleep due next =>
    simp only [Task.step] at hstep
    split_ifs at hstep
    obtain ⟨rfl, rfl⟩ := Prod.ext_iff.1 (Option.some.inj hstep)
    exact ⟨.nothing w, h⟩
  | await signal ms next =>
    simp only [Task.step] at hstep
    split_ifs at hstep <;> obtain ⟨rfl, rfl⟩ := Prod.ext_iff.1 (Option.some.inj hstep)
    · exact ⟨.nothing w, h true⟩
    · exact ⟨.nothing w, h false⟩
    · exact ⟨.nothing w, h⟩
  | waiting signal due next =>
    simp only [Task.step] at hstep
    split_ifs at hstep
    · obtain ⟨rfl, rfl⟩ := Prod.ext_iff.1 (Option.some.inj hstep)
      exact ⟨.nothing w, h true⟩
    · cases due with
      | none => cases hstep
      | some due =>
        simp only at hstep
        split_ifs at hstep
        obtain ⟨rfl, rfl⟩ := Prod.ext_iff.1 (Option.some.inj hstep)
        exact ⟨.nothing w, h false⟩

theorem Within.execution {meanwhile : World → World → Prop} (h : t.Within R Q)
    (hexec : Execution meanwhile w t w' t') : t'.Within R Q := by
  induction hexec with
  | here => exact h
  | move _ step _ ih => exact ih (h.step step).2

end Task

end KeyRegistry
