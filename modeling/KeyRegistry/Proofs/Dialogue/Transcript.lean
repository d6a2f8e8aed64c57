import KeyRegistry.Proofs.Dialogue.Undisturbed

/-!
# Transcripts

A transcript of a dialogue lists the calls that it has made with the answers that it
got, whatever happened between them, and has the result if the dialogue has ended.
-/

namespace KeyRegistry

/-- A call over a session with its answer, and the ensemble before and after it was answered. -/
structure Exchange where
  session : Nat
  request : Request
  answer : request.Answer
  before : Ensemble
  after : Ensemble

def Exchange.events (x : Exchange) : List Event := x.request.events x.answer

namespace Dialogue

variable {α β : Type} {d d' d'' : Dialogue α} {log log' : List Exchange} {o : Option α}

inductive Goes : Dialogue α → List Exchange → Dialogue α → Prop
  | here (d : Dialogue α) : Goes d [] d
  | note {d d₁ d' : Dialogue α} {n : Notice} {log : List Exchange} (turn : d.turn = .note n d₁)
      (rest : Goes d₁ log d') : Goes d log d'
  | call {d d' : Dialogue α} {log : List Exchange} (x : Exchange)
      {next : x.request.Answer → Dialogue α} (turn : d.turn = .call x.request next)
      (rest : Goes (next x.answer) log d') : Goes d (x :: log) d'

/-- The exchanges of a dialogue, and its result if it is said to have ended. -/
inductive Transcript : Dialogue α → List Exchange → Option α → Prop
  | unfinished (d : Dialogue α) : Transcript d [] none
  | done {d : Dialogue α} {a : α} (turn : d.turn = .done a) : Transcript d [] (some a)
  | note {d d' : Dialogue α} {n : Notice} {log : List Exchange} {o : Option α}
      (turn : d.turn = .note n d') (rest : Transcript d' log o) : Transcript d log o
  | call {d : Dialogue α} {log : List Exchange} {o : Option α} (x : Exchange)
      {next : x.request.Answer → Dialogue α} (turn : d.turn = .call x.request next)
      (rest : Transcript (next x.answer) log o) : Transcript d (x :: log) o

theorem Goes.trans (h : Goes d log d') (h' : Goes d' log' d'') : Goes d (log ++ log') d'' := by
  induction h with
  | here => exact h'
  | note turn _ ih => exact .note turn (ih h')
  | call x turn _ ih => exact .call x turn (ih h')

theorem Goes.transcript (h : Goes d log d') (h' : Transcript d' log' o) :
    Transcript d (log ++ log') o := by
  induction h with
  | here => exact h'
  | note turn _ ih => exact .note turn (ih h')
  | call x turn _ ih => exact .call x turn (ih h')

theorem Transcript.of_turn (h : d.turn = d'.turn) (ht : Transcript d' log o) :
    Transcript d log o := by
  cases ht with
  | unfinished => exact .unfinished d
  | done turn => exact .done (h.trans turn)
  | note turn rest => exact .note (h.trans turn) rest
  | call x turn rest => exact .call x (h.trans turn) rest

/-! ## Taking a transcript apart -/

theorem transcript_done {a : α} (hd : d.turn = .done a) (h : Transcript d log o) :
    log = [] ∧ (o = none ∨ o = some a) := by
  cases h with
  | unfinished => exact ⟨rfl, .inl rfl⟩
  | done turn =>
    cases hd.symm.trans turn
    exact ⟨rfl, .inr rfl⟩
  | note turn rest => simp [hd] at turn
  | call x turn rest => simp [hd] at turn

theorem transcript_call {r : Request} {next : r.Answer → Dialogue α}
    (hd : d.turn = .call r next) (h : Transcript d log o) : log = [] ∧ o = none ∨
    ∃ s answer e e' rest, log = ⟨s, r, answer, e, e'⟩ :: rest ∧
      Transcript (next answer) rest o := by
  cases h with
  | unfinished => exact .inl ⟨rfl, rfl⟩
  | done turn => simp [hd] at turn
  | note turn rest => simp [hd] at turn
  | call x turn rest =>
    obtain ⟨s, r', answer, e, e'⟩ := x
    cases hd.symm.trans turn
    exact .inr ⟨s, answer, e, e', _, rfl, rest⟩

theorem transcript_note {n : Notice} (hd : d.turn = .note n d') (h : Transcript d log o) :
    Transcript d' log o ∨ log = [] ∧ o = none := by
  cases h with
  | unfinished => exact .inr ⟨rfl, rfl⟩
  | done turn => simp [hd] at turn
  | note turn rest =>
    cases hd.symm.trans turn
    exact .inl rest
  | call x turn rest => simp [hd] at turn

/-- A dialogue that goes on with another is in its first part, or has ended it and is in the
second. -/
theorem transcript_bind {d : Dialogue β} {f : β → Dialogue α} (h : Transcript (d >>= f) log o) :
    Transcript d log none ∧ o = none ∨
    ∃ first b rest, log = first ++ rest ∧ Transcript d first (some b) ∧
      Transcript (f b) rest o := by
  generalize hd : d >>= f = whole at h
  induction h generalizing d with
  | unfinished => exact .inl ⟨.unfinished d, rfl⟩
  | done turn =>
    rw [← hd, show d >>= f = d.bind f from rfl, turn_bind] at turn
    cases hturn : d.turn <;> rw [hturn] at turn
    · exact .inr ⟨[], _, [], rfl, .done hturn, .done turn⟩
    · cases turn
    · cases turn
  | note turn rest ih =>
    rw [← hd, show d >>= f = d.bind f from rfl, turn_bind] at turn
    cases hturn : d.turn <;> rw [hturn] at turn
    · exact .inr ⟨[], _, _, rfl, .done hturn, .note turn rest⟩
    · cases turn
      rcases ih rfl with ⟨hopen, ho⟩ | ⟨first, b, tail, rfl, hfirst, hrest⟩
      · exact .inl ⟨.note hturn hopen, ho⟩
      · exact .inr ⟨first, b, tail, rfl, .note hturn hfirst, hrest⟩
    · cases turn
  | call x turn rest ih =>
    rw [← hd, show d >>= f = d.bind f from rfl, turn_bind] at turn
    cases hturn : d.turn <;> rw [hturn] at turn
    · exact .inr ⟨[], _, _, rfl, .done hturn, .call x turn rest⟩
    · cases turn
    · obtain ⟨s, r, answer, e, e'⟩ := x
      cases turn
      rcases ih rfl with ⟨hopen, ho⟩ | ⟨first, b, tail, rfl, hfirst, hrest⟩
      · exact .inl ⟨.call _ hturn hopen, ho⟩
      · exact .inr ⟨_ :: first, b, tail, rfl, .call _ hturn hfirst, hrest⟩

/-- A call that a dialogue goes on from has not been made, or has been answered. -/
theorem transcript_ask {r : Request} {f : r.Answer → Dialogue α}
    (h : Transcript (ask r >>= f) log o) : log = [] ∧ o = none ∨
    ∃ s answer e e' rest, log = ⟨s, r, answer, e, e'⟩ :: rest ∧ Transcript (f answer) rest o :=
  transcript_call rfl h

end Dialogue

end KeyRegistry
