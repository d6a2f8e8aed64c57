import KeyRegistry.Proofs.Replica.Convergence
import KeyRegistry.Proofs.Task.Talking
import KeyRegistry.Proofs.Tree.Account

/-!
# Tasks that are alone

While nothing but the clock goes on besides a task, the ensemble it talks to is
altered by its calls alone. What a dialogue comes to then is told of the ensemble
as a whole: as long as no change was numbered, it is what it was.
-/

namespace KeyRegistry

open KeyRegistry.Path

namespace Ensemble

variable {e e' : Ensemble} {s : Nat} {who : Caller} {t t' : Tree}

/-- A call that registers no watch leaves everything as it was, or makes a numbered change. -/
theorem perform_kept_or_numbered (e : Ensemble) (s : Nat) {r : Request}
    (hr : ∀ top, r ≠ .watch top) :
    (e.perform s r).2 = e ∨ e.tree.zxid < (e.perform s r).2.tree.zxid := by
  obtain ⟨hev, hkept⟩ := evolves_perform e s r
  by_cases hnone : r.events (e.perform s r).1 = []
  · exact .inl (hkept hr hnone)
  · have hnumber := hev.tree.zxid
    have hpos := List.length_pos_of_ne_nil hnone
    exact .inr (by omega)

end Ensemble

/-- The place of a new watch does not follow from the tree. -/
theorem Served.not_registers {who : Caller} {t t' : Tree} {top : String} {i : Nat} {e : Ensemble}
    {s : Nat} (h : Served who t (.watch top) (.ok i) t') (ht : e.tree = t)
    (hcaller : e.caller s = who) : False := by
  obtain ⟨h₁, -⟩ := h e s ht hcaller
  obtain ⟨h₂, -⟩ := h { e with watches := ⟨s, top, [], .registered⟩ :: e.watches } s ht hcaller
  simp only [Ensemble.perform] at h₁ h₂
  cases hcheck : checkPath top with
  | error error => simp [hcheck] at h₁
  | ok u =>
    have hi : e.watches.length = i := by simpa [hcheck] using h₁
    have hi' : e.watches.length + 1 = i := by simpa [hcheck] using h₂
    omega

theorem Served.kept_or_numbered {who : Caller} {t t' : Tree} {r : Request} {answer : r.Answer}
    {e : Ensemble} {s : Nat} (h : Served who t r answer t') (ht : e.tree = t)
    (hcaller : e.caller s = who) :
    (e.perform s r).2 = e ∨ e.tree.zxid < (e.perform s r).2.tree.zxid := by
  by_cases hr : ∀ top, r ≠ .watch top
  · exact e.perform_kept_or_numbered s hr
  · push Not at hr
    obtain ⟨top, rfl⟩ := hr
    have hanswer := (h e s ht hcaller).1
    cases answer with
    | ok i => exact (h.not_registers ht hcaller).elim
    | error error => exact .inl (Ensemble.perform_of_error hanswer)

namespace World

variable {w v : World} {k : Nat} {e : Ensemble}

/-- A world that differs from `w` in what is kept at place `k` of the ensembles, and perhaps in
time and notices. -/
structure Puts (w : World) (k : Nat) (e : Ensemble) (v : World) : Prop where
  ensembles : v.ensembles = w.ensembles.set k e
  centers : v.centers = w.centers
  replicas : v.replicas = w.replicas

theorem puts_self (h : w.ensembles[k]? = some e) : w.Puts k e w := by
  obtain ⟨hlt, rfl⟩ := List.getElem?_eq_some_iff.1 h
  exact ⟨(List.set_getElem_self hlt).symm, rfl, rfl⟩

theorem stable_puts (w : World) (k : Nat) (e : Ensemble) :
    Task.Stable later (w.Puts k e) := by
  rintro v _ h ⟨ms, rfl⟩
  exact ⟨h.ensembles, h.centers, h.replicas⟩

theorem Puts.setEnsemble {e' : Ensemble} (h : w.Puts k e v) : w.Puts k e' (v.setEnsemble k e') :=
  ⟨by simp [World.setEnsemble, h.ensembles], h.centers, h.replicas⟩

theorem Puts.getElem? (h : w.Puts k e v) (hk : k < w.ensembles.length) :
    v.ensembles[k]? = some e := by
  rw [h.ensembles]
  exact List.getElem?_set_self hk

theorem Puts.active?_eq (h : w.Puts k e v) (c : Nat) : v.active? c = w.active? c := by
  simp [active?, center?, h.centers]

end World

namespace Task

variable {α β : Type} {post : α → World → Prop} {w v : World}

/-- A dialogue over a calm session that nobody disturbs does what it does to the tree, and without
a numbered change the whole ensemble stays as it was. -/
theorem ends_talk_alone {s : SessionId} {who : Caller} {t t' : Tree} {d : Dialogue β} {b : β}
    {next : β → Task α} (hd : d.Does who t t' b) {e : Ensemble}
    (hk : s.ensemble < w.ensembles.length) (hv : w.Puts s.ensemble e v) (ht : e.tree = t)
    (hcalm : e.Calm s.number) (hcaller : e.caller s.number = who)
    (h : ∀ v e', w.Puts s.ensemble e' v → e'.tree = t' → e'.Calm s.number →
      e'.caller s.number = who → (e' = e ∨ e.tree.zxid < e'.tree.zxid) →
      Ends World.later post v (next b)) :
    Ends World.later post v (talk s d next) := by
  induction hd generalizing v e with
  | done turn =>
    exact ends_talk_done (World.stable_puts w s.ensemble e) hv turn fun u hu =>
      h u e hu ht hcalm hcaller (.inl rfl)
  | note turn _ ih =>
    refine ends_talk_note (World.stable_puts w s.ensemble e) hv turn fun u hu =>
      ih ⟨hu.ensembles, hu.centers, hu.replicas⟩ ht hcalm hcaller h
  | @call t t₁ t' d r rest answer b turn served _ ih =>
    refine ends_talk_call (World.stable_puts w s.ensemble e) hv
      (fun u hu => ⟨e, hu.getElem? hk, hcalm⟩) turn fun u e' hu hcalm' => ?_
    obtain rfl : e' = e := Option.some.inj (hcalm'.1.symm.trans (hu.getElem? hk))
    obtain ⟨hsessions, hfaults⟩ := Ensemble.perform_frame e' s.number r
    obtain ⟨hanswer, htree⟩ := served e' s.number ht hcaller
    rw [hanswer]
    refine ih hu.setEnsemble htree ⟨?_, ?_⟩ ?_ fun v e'' hv ht'' hcalm'' hcaller'' hkept => ?_
    · rw [Ensemble.phase_congr hsessions, hcalm.live]
    · rw [hfaults, hcalm.unfaulted]
    · rw [Ensemble.caller_congr hsessions, hcaller]
    · refine h v e'' hv ht'' hcalm'' hcaller'' ?_
      rcases served.kept_or_numbered ht hcaller with hsame | hless
      · rwa [hsame] at hkept
      · rcases hkept with rfl | hless'
        · exact .inr hless
        · exact .inr (by omega)

/-- A dialogue that nobody disturbs and that leaves the tree as it is leaves everything. -/
theorem ends_say_alone {s : SessionId} {e : Ensemble} {t' : Tree} {d : Dialogue α} {a : α}
    (he : w.ensembles[s.ensemble]? = some e) (hcalm : e.Calm s.number)
    (hdoes : d.Does (e.caller s.number) e.tree t' a) :
    Ends World.later (fun result v => result = a ∧ ∃ e', w.Puts s.ensemble e' v ∧ e'.tree = t' ∧
      (t' = e.tree → v.ensembles = w.ensembles)) w (say s d) := by
  obtain ⟨hlt, -⟩ := List.getElem?_eq_some_iff.1 he
  refine ends_talk_alone hdoes hlt (World.puts_self he) rfl hcalm rfl
    fun v e' hv ht' _ _ hkept => .done ⟨rfl, e', hv, ht', fun hsame => ?_⟩
  rcases hkept with rfl | hless
  · rw [hv.ensembles]
    exact (World.puts_self he).ensembles.symm
  · rw [ht', hsame] at hless
    exact absurd hless (Nat.lt_irrefl _)

end Task

end KeyRegistry
