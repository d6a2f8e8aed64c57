import KeyRegistry.Proofs.Dialogue.Undisturbed
import KeyRegistry.Proofs.Task.Meanwhile

/-!
# Tasks that talk undisturbed

A task that has an ensemble to itself holds each of its dialogues as if it were
alone in the world, whatever workers do between two calls.
-/

namespace KeyRegistry

namespace Ensemble

variable {e e' : Ensemble} {s : Nat} {who : Caller} {t : Tree}

structure Willing (e : Ensemble) (t : Tree) : Prop where
  tree : e.tree = t
  unfaulted : e.faults.pending = []
  connects : e.faults.failingConnects = 0

structure Serves (e : Ensemble) (s : Nat) (who : Caller) (t : Tree) : Prop extends Willing e t where
  live : e.phase s = .live
  caller : e.caller s = who

theorem Willing.unwritten (h : e.Willing t) (hkept : e.Unwritten e') : e'.Willing t where
  tree := hkept.tree.trans h.tree
  unfaulted := by rw [hkept.faults, h.unfaulted]
  connects := by rw [hkept.faults, h.connects]

theorem Serves.unwritten (h : e.Serves s who t) (hkept : e.Unwritten e') : e'.Serves s who t where
  toWilling := h.toWilling.unwritten hkept
  live := (phase_congr hkept.sessions s).trans h.live
  caller := (caller_congr hkept.sessions s).trans h.caller

theorem Serves.perform (h : e.Serves s who t) {r : Request} {answer : r.Answer} {t' : Tree}
    (hserved : Served who t r answer t') :
    (e.perform s r).1 = answer ∧ (e.perform s r).2.Serves s who t' := by
  obtain ⟨hsessions, hfaults⟩ := perform_frame e s r
  obtain ⟨hanswer, htree⟩ := hserved e s h.tree h.caller
  exact ⟨hanswer, ⟨htree, by rw [hfaults, h.unfaulted], by rw [hfaults, h.connects]⟩,
    (phase_congr hsessions s).trans h.live, (caller_congr hsessions s).trans h.caller⟩

end Ensemble

namespace World

variable {w w' : World} {k : Nat} {P : Ensemble → Prop}

def Holds (w : World) (k : Nat) (P : Ensemble → Prop) : Prop :=
  ∃ e, w.ensembles[k]? = some e ∧ P e

theorem holds_setEnsemble {e e' : Ensemble} (hk : w.ensembles[k]? = some e) (h : P e') :
    (w.setEnsemble k e').Holds k P := by
  obtain ⟨hlt, -⟩ := List.getElem?_eq_some_iff.1 hk
  exact ⟨e', List.getElem?_set_self hlt, h⟩

theorem stable_willing (k : Nat) (t : Tree) :
    Task.Stable Meanwhile fun w => w.Holds k (·.Willing t) := by
  rintro w w' ⟨e, hk, he⟩ hw
  obtain ⟨e', hk', hkept⟩ := hw.ensemble hk he.unfaulted
  exact ⟨e', hk', he.unwritten hkept⟩

theorem stable_serves (k s : Nat) (who : Caller) (t : Tree) :
    Task.Stable Meanwhile fun w => w.Holds k (·.Serves s who t) := by
  rintro w w' ⟨e, hk, he⟩ hw
  obtain ⟨e', hk', hkept⟩ := hw.ensemble hk he.unfaulted
  exact ⟨e', hk', he.unwritten hkept⟩

/-- A description of the world that says nothing of ensembles and of the journal. -/
structure Aside (R : World → Prop) : Prop where
  meanwhile : Task.Stable Meanwhile R
  note {w : World} (n : Notice) : R w → R (w.note n)
  setEnsemble {w : World} (k : Nat) (e : Ensemble) : R w → R (w.setEnsemble k e)

end World

namespace Task

variable {α β : Type} {post : α → World → Prop} {w : World} {R P : World → Prop}

theorem Stable.and {meanwhile : World → World → Prop} {P Q : World → Prop}
    (hP : Stable meanwhile P) (hQ : Stable meanwhile Q) :
    Stable meanwhile fun w => P w ∧ Q w :=
  fun w w' h hw => ⟨hP w w' h.1 hw, hQ w w' h.2 hw⟩

/-- A dialogue over a session that is served does what it does undisturbed. -/
theorem ends_talk_of_does (hR : World.Aside R) {s : SessionId} {who : Caller} {t t' : Tree}
    {d : Dialogue β} {b : β} {next : β → Task α} (hd : d.Does who t t' b) (hw : R w)
    (hs : w.Holds s.ensemble (·.Serves s.number who t))
    (h : ∀ w, R w → w.Holds s.ensemble (·.Serves s.number who t') →
      Ends World.Meanwhile post w (next b)) :
    Ends World.Meanwhile post w (talk s d next) := by
  induction hd generalizing w with
  | @done t d b turn =>
    exact ends_talk_done (hR.meanwhile.and (World.stable_serves s.ensemble s.number who t))
      ⟨hw, hs⟩ turn fun w hw => h w hw.1 hw.2
  | @note t t' d d' n b turn _ ih =>
    exact ends_talk_note (hR.meanwhile.and (World.stable_serves s.ensemble s.number who t))
      ⟨hw, hs⟩ turn fun w hw => ih (hR.note n hw.1) hw.2 h
  | @call t t₁ t' d r rest answer b turn served _ ih =>
    refine ends_talk_call (hR.meanwhile.and (World.stable_serves s.ensemble s.number who t))
      ⟨hw, hs⟩ (fun w hw => ?_) turn fun w e hw hcalm => ?_
    · obtain ⟨-, e, hk, he⟩ := hw
      exact ⟨e, hk, he.live, he.unfaulted⟩
    · obtain ⟨hw, e', hk, he⟩ := hw
      obtain rfl : e' = e := Option.some.inj (hk.symm.trans hcalm.1)
      obtain ⟨hanswer, hserves⟩ := he.perform served
      rw [hanswer]
      exact ih (hR.setEnsemble _ _ hw) (World.holds_setEnsemble hk hserves) h

section Waiting

variable {meanwhile : World → World → Prop} (hP : Stable meanwhile P) (hw : P w)

include hP hw

theorem ends_await_shown {signal : Signal} {ms : Option Nat} {next : Bool → Task α}
    (hshown : ∀ w, P w → w.shows signal = true)
    (h : ∀ w, P w → Ends meanwhile post w (next true)) :
    Ends meanwhile post w (awaitSignal signal ms >>= next) := by
  show Ends meanwhile post w (await signal ms next)
  have hstep (v : World) (hv : P v) : (await signal ms next).step v = some (v, next true) := by
    simp [step, hshown v hv]
  refine .move 0 rfl (fun v hv _ => by simp [hstep v (hP w v hw hv)]) fun v w' t' hv hmove => ?_
  rw [hstep v (hP w v hw hv)] at hmove
  obtain ⟨rfl, rfl⟩ := Prod.ext_iff.1 (Option.some.inj hmove)
  exact h v (hP w v hw hv)

/-- A wait with a limit ends, whether the signal comes or not. -/
theorem ends_await {signal : Signal} {ms : Nat} {next : Bool → Task α}
    (h : ∀ came w, P w → Ends meanwhile post w (next came)) :
    Ends meanwhile post w (awaitSignal signal (some ms) >>= next) := by
  show Ends meanwhile post w (await signal (some ms) next)
  refine .move 0 rfl (fun v hv _ => ?_) fun v w' t' hv hmove => ?_
  · simp only [step]
    split_ifs <;> rfl
  · have hPv := hP w v hw hv
    simp only [step] at hmove
    split_ifs at hmove
    · obtain ⟨rfl, rfl⟩ := Prod.ext_iff.1 (Option.some.inj hmove)
      exact h true v hPv
    · obtain ⟨rfl, rfl⟩ := Prod.ext_iff.1 (Option.some.inj hmove)
      exact h false v hPv
    · obtain ⟨rfl, rfl⟩ := Prod.ext_iff.1 (Option.some.inj hmove)
      refine .move (v.now + ms) rfl (fun u hu hdue => ?_) fun u w' t' hu hmove => ?_
      · simp only [step, Option.map_some]
        split_ifs
        · rfl
        · omega
        · rfl
      · have hPu := hP v u hPv hu
        simp only [step, Option.map_some] at hmove
        split_ifs at hmove
        · obtain ⟨rfl, rfl⟩ := Prod.ext_iff.1 (Option.some.inj hmove)
          exact h true u hPu
        · obtain ⟨rfl, rfl⟩ := Prod.ext_iff.1 (Option.some.inj hmove)
          exact h false u hPu

end Waiting

end Task

end KeyRegistry
