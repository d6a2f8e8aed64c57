import KeyRegistry.Proofs.Ensemble.Transaction
import KeyRegistry.Proofs.Task.Ends

/-!
# Tasks of one call

A task that makes one call, while nothing goes on but the clock, ends with what the
service answers, a fault included.
-/

namespace KeyRegistry

def World.later (w w' : World) : Prop := ∃ ms, w' = { w with now := w.now + ms }

theorem World.stable_later (w : World) :
    Task.Stable World.later fun w' => ∃ now, w' = { w with now := now } := by
  rintro _ _ ⟨now, rfl⟩ ⟨ms, rfl⟩
  exact ⟨now + ms, rfl⟩

namespace Ensemble

/-- When a call is made makes no difference to its answer. -/
theorem call_answer_eq (e : Ensemble) (now now' id : Nat) (r : Request) :
    (e.call now id r).1 = (e.call now' id r).1 := by
  unfold call accept
  split_ifs <;> rfl

theorem call_of_accept {e e' : Ensemble} {now id : Nat} {hold : Hold}
    (h : e.accept now id = .ok (hold, e')) (r : Request) :
    e.call now id r = e'.complete id hold.fault r := by
  simp [call, h]

theorem call_of_refused {e : Ensemble} {now id : Nat} {error : ServiceError}
    (h : e.accept now id = .error error) (r : Request) :
    e.call now id r = (.error error, e) := by
  simp [call, h]

end Ensemble

theorem World.accept_eq {w : World} {s : SessionId} {e : Ensemble}
    (he : w.ensembles[s.ensemble]? = some e) :
    w.accept s = (e.accept w.now s.number).map fun (hold, e') =>
      (hold, w.setEnsemble s.ensemble e') := by
  have hens : w.ensemble s.ensemble = e := by simp [ensemble, he]
  rw [accept, hens]
  cases e.accept w.now s.number <;> rfl

namespace Task

variable {α : Type} {w : World} {s : SessionId} {e : Ensemble}

/-- A task of one call ends with what is made of the answer. -/
theorem ends_ask (he : w.ensembles[s.ensemble]? = some e) (r : Request) (g : r.Answer → α) :
    Ends World.later (fun a _ => a = g (e.call 0 s.number r).1) w
      (say s (.call r fun answer => .done (g answer))) := by
  have hend (v : World) (answer : r.Answer) (hanswer : answer = (e.call 0 s.number r).1) :
      Ends World.later (fun a _ => a = g (e.call 0 s.number r).1) v
        (say s (.done (g answer))) :=
    ends_talk_done (P := fun _ => True) (fun _ _ _ _ => trivial) trivial rfl
      fun _ _ => .done (by rw [hanswer])
  refine .move 0 rfl (fun v hv _ => ?_) fun v w' t' hv hstep => ?_
  · simp only [say, step, Dialogue.turn_call]
    split <;> rfl
  · obtain ⟨ms, rfl⟩ := hv
    simp only [say, step, Dialogue.turn_call,
      World.accept_eq (w := { w with now := w.now + ms }) he] at hstep
    cases haccept : e.accept (w.now + ms) s.number with
    | error error =>
      rw [haccept] at hstep
      obtain ⟨rfl, rfl⟩ := Prod.ext_iff.1 (Option.some.inj hstep)
      refine hend _ _ ?_
      rw [Ensemble.call_answer_eq e 0 (w.now + ms), Ensemble.call_of_refused haccept]
    | ok admitted =>
      obtain ⟨hold, e'⟩ := admitted
      rw [haccept] at hstep
      obtain ⟨rfl, rfl⟩ := Prod.ext_iff.1 (Option.some.inj hstep)
      refine .move hold.due rfl (fun u hu hdue => ?_) fun u w' t' hu hstep => ?_
      · simp [step, Nat.not_lt.2 hdue]
      · obtain ⟨ms', rfl⟩ := hu
        simp only [step] at hstep
        split_ifs at hstep
        obtain ⟨rfl, rfl⟩ := Prod.ext_iff.1 (Option.some.inj hstep)
        refine hend _ _ ?_
        rw [Ensemble.call_answer_eq e 0 (w.now + ms), Ensemble.call_of_accept haccept]
        have hlt := (List.getElem?_eq_some_iff.1 he).1
        simp [World.complete, World.ensemble, World.setEnsemble, hlt]

end Task

end KeyRegistry
