import KeyRegistry.Proofs.Dialogue.Transcript
import KeyRegistry.Proofs.Task.Alone

/-!
# The exchanges of a task

A move of a task that has a call answered is an exchange with the service. A record of a
task lists its exchanges, whatever happens in the world between its moves; for a task
that holds a dialogue it is a transcript of the dialogue.
-/

namespace KeyRegistry

namespace Ensemble

/-- What a move that has no call answered may do to an ensemble: nothing, or the first half of a
call. -/
def Admits (e e' : Ensemble) : Prop :=
  e' = e ∨ ∃ now id hold, e.accept now id = .ok (hold, e')

variable {e e' : Ensemble}

theorem Admits.reachable (h : e.Admits e') (he : e.Reachable) : e'.Reachable := by
  rcases h with rfl | ⟨_, _, _, haccept⟩
  · exact he
  · exact .step he (.accept haccept)

theorem Admits.suffix (h : e.Admits e') : e'.faults.pending <:+ e.faults.pending := by
  rcases h with rfl | ⟨_, _, _, haccept⟩
  · exact List.suffix_rfl
  · obtain ⟨-, rfl⟩ := accept_eq_ok haccept
    exact List.tail_suffix _

theorem Admits.eq_of_unfaulted (h : e.Admits e') (hpending : e.faults.pending = []) : e' = e := by
  rcases h with rfl | ⟨_, _, _, haccept⟩
  · rfl
  · exact eq_of_accept haccept hpending

end Ensemble

namespace Exchange

variable {ok : ServiceError → Prop} {x : Exchange}

/-- The answer is the service's own, and if a fault was met it is one of those that `ok` admits. -/
def Answered (ok : ServiceError → Prop) (x : Exchange) : Prop :=
  ∃ fault : Option ServiceError, (∀ error ∈ fault, ok error) ∧
    x.before.complete x.session fault x.request = (x.answer, x.after)

structure Genuine (ok : ServiceError → Prop) (x : Exchange) : Prop where
  reachable : x.before.Reachable
  answered : x.Answered ok

structure Made (ok : ServiceError → Prop) (s : SessionId) (v u : World) (x : Exchange) : Prop where
  session : x.session = s.number
  before : x.before = v.ensemble s.ensemble
  answered : x.Answered ok
  after : v.Puts s.ensemble x.after u

/-- An answer that is neither a refusal of the session nor a fault is that of the call. -/
theorem Answered.perform_eq (h : x.Answered ok) : (∃ error, x.answer = .error error ∧
      (error = .sessionClosed ∨ error = .sessionExpired ∨ ok error)) ∨
    x.before.perform x.session x.request = (x.answer, x.after) := by
  obtain ⟨fault, hfault, heq⟩ := h
  cases hphase : x.before.phase x.session with
  | closed =>
    rw [Ensemble.complete_of_closed hphase] at heq
    exact .inl ⟨_, (congrArg Prod.fst heq).symm, .inl rfl⟩
  | expired =>
    rw [Ensemble.complete_of_expired hphase] at heq
    exact .inl ⟨_, (congrArg Prod.fst heq).symm, .inr (.inl rfl)⟩
  | live =>
    cases fault with
    | some error =>
      rw [Ensemble.complete_of_struck hphase] at heq
      exact .inl ⟨_, (congrArg Prod.fst heq).symm, .inr (.inr (hfault error rfl))⟩
    | none =>
      rw [Ensemble.complete_of_live hphase] at heq
      exact .inr heq

/-- Without faults a live session gets the answer of the call. -/
theorem Answered.perform_of_live (h : x.Answered fun _ => False)
    (hlive : x.before.phase x.session = .live) :
    x.before.perform x.session x.request = (x.answer, x.after) := by
  obtain ⟨fault, hfault, heq⟩ := h
  cases fault with
  | some error => exact (hfault error rfl).elim
  | none => rwa [Ensemble.complete_of_live hlive] at heq

theorem Genuine.steps (h : x.Genuine ok) :
    Tree.Steps (x.before.caller x.session) x.before.tree x.events x.after.tree := by
  obtain ⟨fault, -, heq⟩ := h.answered
  have hev := Ensemble.evolves_complete x.before x.session fault x.request
  rw [heq] at hev
  exact hev.tree

theorem Genuine.after_reachable (h : x.Genuine ok) : x.after.Reachable := by
  obtain ⟨fault, -, heq⟩ := h.answered
  have hafter := Ensemble.Step.complete x.before x.session fault x.request
  rw [heq] at hafter
  exact .step h.reachable hafter

end Exchange

namespace World

structure Sound (ok : ServiceError → Prop) (w : World) : Prop where
  reachable : ∀ e ∈ w.ensembles, e.Reachable
  faults : ∀ e ∈ w.ensembles, ∀ error ∈ e.faults.pending, ok error

variable {ok : ServiceError → Prop} {w v : World} {k : Nat} {e : Ensemble}

theorem Sound.ensemble (h : w.Sound ok) (k : Nat) :
    (w.ensemble k).Reachable ∧ ∀ error ∈ (w.ensemble k).faults.pending, ok error := by
  unfold World.ensemble
  cases he : w.ensembles[k]? with
  | none => exact ⟨.fresh, fun _ hmem => by cases hmem⟩
  | some e =>
    have hmem := List.mem_of_getElem? he
    exact ⟨h.reachable e hmem, h.faults e hmem⟩

theorem Sound.puts (h : w.Sound ok) (hv : w.Puts k e v) (he : e.Reachable)
    (hfaults : ∀ error ∈ e.faults.pending, ok error) : v.Sound ok where
  reachable e' he' := by
    rw [hv.ensembles] at he'
    rcases List.mem_or_eq_of_mem_set he' with hmem | rfl
    · exact h.reachable e' hmem
    · exact he
  faults e' he' := by
    rw [hv.ensembles] at he'
    rcases List.mem_or_eq_of_mem_set he' with hmem | rfl
    · exact h.faults e' hmem
    · exact hfaults

theorem puts_ensemble (w : World) (k : Nat) : w.Puts k (w.ensemble k) w := by
  refine ⟨?_, rfl, rfl⟩
  unfold World.ensemble
  cases he : w.ensembles[k]? with
  | none => exact (List.set_eq_of_length_le (List.getElem?_eq_none_iff.1 he)).symm
  | some e => exact (puts_self he).ensembles

/-- A call is refused on a session that is closed, or admitted with the next fault. -/
theorem accept_cases (w : World) (s : SessionId) :
    ((w.ensemble s.ensemble).phase s.number = .closed ∧ w.accept s = .error .sessionClosed) ∨
    ∃ hold e, hold.fault = (w.ensemble s.ensemble).faults.pending.head? ∧
      (w.ensemble s.ensemble).accept w.now s.number = .ok (hold, e) ∧
      w.accept s = .ok (hold, w.setEnsemble s.ensemble e) := by
  unfold World.accept
  by_cases hclosed : (w.ensemble s.ensemble).phase s.number = .closed
  · rw [Ensemble.accept_of_closed hclosed]
    exact .inl ⟨hclosed, rfl⟩
  · have haccept : (w.ensemble s.ensemble).accept w.now s.number = .ok (_, _) := if_neg hclosed
    rw [haccept]
    exact .inr ⟨_, _, rfl, rfl, rfl⟩

end World

namespace Task

variable {α β : Type} {ok : ServiceError → Prop} {meanwhile : World → World → Prop}
  {w w₀ v u : World} {t t' t₀ : Task α} {s : SessionId} {d₀ : Dialogue α} {log : List Exchange}

/-- The exchange that the next move of a task makes, if it has a call answered: at once if the call
is not admitted, else when it is served. -/
def exchange? (w : World) : Task α → Option Exchange
  | talk s d _ =>
    match d.turn with
    | .call r _ =>
      match w.accept s with
      | .error error =>
        some ⟨s.number, r, .error error, w.ensemble s.ensemble, w.ensemble s.ensemble⟩
      | .ok _ => none
    | _ => none
  | serving s r hold _ _ =>
    let (answer, e) := (w.ensemble s.ensemble).complete s.number hold.fault r
    some ⟨s.number, r, answer, w.ensemble s.ensemble, e⟩
  | _ => none

inductive Record (meanwhile : World → World → Prop) (w₀ : World) (t₀ : Task α) :
    List Exchange → World → Task α → Prop
  | start : Record meanwhile w₀ t₀ [] w₀ t₀
  | move {log : List Exchange} {w v u : World} {t t' : Task α}
      (run : Record meanwhile w₀ t₀ log w t) (between : meanwhile w v)
      (step : t.step v = some (u, t')) :
      Record meanwhile w₀ t₀ (log ++ (t.exchange? v).toList) u t'

/-- A task that holds the dialogue `d₀` over a session and has come by the given exchanges to where
it is: between two calls, within a call, or at its end. -/
inductive Speaks (ok : ServiceError → Prop) (s : SessionId) (d₀ : Dialogue α)
    (log : List Exchange) : Task α → Prop
  | talking {d : Dialogue α} (goes : d₀.Goes log d) : Speaks ok s d₀ log (say s d)
  | serving {d : Dialogue α} {r : Request} {hold : Hold} {rest : r.Answer → Dialogue α}
      (goes : d₀.Goes log d) (turn : d.turn = .call r rest)
      (admitted : ∀ error ∈ hold.fault, ok error) : Speaks ok s d₀ log (serving s r hold rest done)
  | ended {d : Dialogue α} {a : α} (goes : d₀.Goes log d) (turn : d.turn = .done a) :
      Speaks ok s d₀ log (done a)

theorem Speaks.transcript (h : Speaks ok s d₀ log t) : d₀.Transcript log t.result? := by
  cases h with
  | @talking d goes => exact List.append_nil log ▸ goes.transcript (.unfinished d)
  | @serving d r hold rest goes turn admitted =>
    exact List.append_nil log ▸ goes.transcript (.unfinished d)
  | ended goes turn => exact List.append_nil log ▸ goes.transcript (.done turn)

/-- A move of a task that holds a dialogue makes an exchange, or at most has a call admitted. -/
theorem Speaks.step (h : Speaks ok s d₀ log t)
    (hfaults : ∀ error ∈ (v.ensemble s.ensemble).faults.pending, ok error)
    (hstep : t.step v = some (u, t')) :
    Speaks ok s d₀ (log ++ (t.exchange? v).toList) t' ∧
      ((t.exchange? v = none ∧
          ∃ e, (v.ensemble s.ensemble).Admits e ∧ v.Puts s.ensemble e u) ∨
        ∃ x, t.exchange? v = some x ∧ x.Made ok s v u) := by
  have hsame := v.puts_ensemble s.ensemble
  cases h with
  | @talking d goes =>
    simp only [say, Task.step] at hstep
    simp only [say, exchange?]
    cases hturn : d.turn with
    | done a =>
      simp only [hturn] at hstep
      obtain ⟨rfl, rfl⟩ := Prod.ext_iff.1 (Option.some.inj hstep)
      exact ⟨by simpa using .ended goes hturn, .inl ⟨rfl, _, .inl rfl, hsame⟩⟩
    | note n d' =>
      simp only [hturn] at hstep
      obtain ⟨rfl, rfl⟩ := Prod.ext_iff.1 (Option.some.inj hstep)
      exact ⟨.talking (goes.trans (.note hturn (.here d'))), .inl ⟨rfl, _, .inl rfl,
        hsame.ensembles, rfl, rfl⟩⟩
    | call r rest =>
      simp only [hturn] at hstep
      rcases v.accept_cases s with ⟨hclosed, haccept⟩ | ⟨hold, e, hfault, hadmitted, haccept⟩
      · simp only [haccept] at hstep ⊢
        obtain ⟨rfl, rfl⟩ := Prod.ext_iff.1 (Option.some.inj hstep)
        exact ⟨.talking (goes.trans (.call _ hturn (.here _))), .inr ⟨_, rfl, rfl, rfl,
          ⟨none, by simp, Ensemble.complete_of_closed hclosed _ _⟩, hsame⟩⟩
      · simp only [haccept] at hstep ⊢
        obtain ⟨rfl, rfl⟩ := Prod.ext_iff.1 (Option.some.inj hstep)
        refine ⟨?_, .inl ⟨trivial, e, .inr ⟨_, _, _, hadmitted⟩, hsame.setEnsemble⟩⟩
        rw [Option.toList_none, List.append_nil]
        exact .serving goes hturn fun error herror => hfaults error (by
          rw [hfault] at herror
          exact List.mem_of_mem_head? herror)
  | @serving d r hold rest goes turn admitted =>
    simp only [Task.step] at hstep
    split_ifs at hstep
    obtain ⟨rfl, rfl⟩ := Prod.ext_iff.1 (Option.some.inj hstep)
    exact ⟨.talking (goes.trans (.call _ turn (.here _))), .inr ⟨_, rfl, rfl, rfl,
      ⟨hold.fault, admitted, rfl⟩, hsame.setEnsemble⟩⟩
  | ended goes turn => simp at hstep

theorem Speaks.sound (h : Speaks ok s d₀ log t) (hv : v.Sound ok)
    (hstep : t.step v = some (u, t')) : u.Sound ok := by
  obtain ⟨hreach, hfaults⟩ := hv.ensemble s.ensemble
  obtain ⟨-, ⟨-, e, hadmits, hputs⟩ | ⟨x, -, hx⟩⟩ := h.step hfaults hstep
  · exact hv.puts hputs (hadmits.reachable hreach) fun error herror =>
      hfaults error (hadmits.suffix.subset herror)
  · have hgenuine : x.Genuine ok := ⟨hx.before ▸ hreach, hx.answered⟩
    obtain ⟨fault, -, heq⟩ := hx.answered
    have hframe := (Ensemble.complete_frame x.before x.session fault x.request).2
    rw [heq, hx.before] at hframe
    exact hv.puts hx.after hgenuine.after_reachable fun error herror =>
      hfaults error (hframe ▸ herror)

/-- Whatever happens meanwhile, the record of a task that holds a dialogue is a transcript of it, of
genuine answers. -/
theorem Record.speaks (h : Record (fun _ v => v.Sound ok) w (say s d₀) log u t) :
    Speaks ok s d₀ log t ∧ ∀ x ∈ log, x.session = s.number ∧ x.Genuine ok := by
  induction h with
  | start => exact ⟨.talking (.here d₀), by simp⟩
  | move _ between step ih =>
    obtain ⟨hspeaks, hlog⟩ := ih
    obtain ⟨hreach, hfaults⟩ := between.ensemble s.ensemble
    obtain ⟨hnext, hexchange⟩ := hspeaks.step hfaults step
    refine ⟨hnext, List.forall_mem_append.2 ⟨hlog, ?_⟩⟩
    rcases hexchange with ⟨hnone, -⟩ | ⟨x, hsome, hx⟩
    · simp [hnone]
    · simpa [hsome] using ⟨hx.session, hx.before ▸ hreach, hx.answered⟩

end Task

end KeyRegistry
