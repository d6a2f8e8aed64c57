import KeyRegistry.Proofs.Dialogue.Transcript
import KeyRegistry.Proofs.Task.Ends

/-!
# Which calls a dialogue makes

Whatever the service answers, the calls of a dialogue are of the kinds that its text
shows. A dialogue that walks no subtree makes a bounded number of them.
-/

namespace KeyRegistry

namespace Dialogue

variable {α β : Type} {P : Request → Prop} {d : Dialogue α}

def Only (P : Request → Prop) : Dialogue α → Prop
  | done _ => True
  | note _ next => next.Only P
  | call r next => P r ∧ ∀ answer, (next answer).Only P
  | collect _ _ next => (∀ p, P (.getChildren p)) ∧ ∀ found, (next found).Only P

def Turn.Only (P : Request → Prop) : Turn α → Prop
  | .done _ => True
  | .note _ next => next.Only P
  | .call r next => P r ∧ ∀ answer, (next answer).Only P

theorem Only.bind {d : Dialogue β} {f : β → Dialogue α} (h : d.Only P) (hf : ∀ b, (f b).Only P) :
    (d >>= f).Only P := by
  show (d.bind f).Only P
  induction d with
  | done b => exact hf b
  | note n next ih => exact ih h
  | call r next ih => exact ⟨h.1, fun answer => ih answer (h.2 answer)⟩
  | collect visited pending next ih => exact ⟨h.1, fun found => ih found (h.2 found)⟩

theorem only_ask {r : Request} (h : P r) : (ask r).Only P := ⟨h, fun _ => trivial⟩

theorem Only.turn (h : d.Only P) : d.turn.Only P := by
  induction d with
  | done a => trivial
  | note n next => exact h
  | call r next => exact h
  | collect visited pending next ih =>
    cases pending with
    | nil => exact ih _ (h.2 _)
    | cons p rest =>
      refine ⟨h.1 p, fun answer => ?_⟩
      unfold afterChildren
      split
      · exact h
      · split_ifs
        · exact h.2 _
        · exact h
      · exact h.2 _

theorem Transcript.only {log : List Exchange} {o : Option α} (h : Transcript d log o)
    (hd : d.Only P) : ∀ x ∈ log, P x.request := by
  induction h with
  | unfinished => simp
  | done => simp
  | note turn _ ih =>
    have hturn := hd.turn
    rw [turn] at hturn
    exact ih hturn
  | call x turn _ ih =>
    have hturn := hd.turn
    rw [turn] at hturn
    exact List.forall_mem_cons.2 ⟨hturn.1, ih (hturn.2 x.answer)⟩

/-! ## Dialogues without walks -/

def Walkless : Dialogue α → Prop
  | done _ => True
  | note _ next => next.Walkless
  | call _ next => ∀ answer, (next answer).Walkless
  | collect .. => False

theorem Walkless.bind {d : Dialogue β} {f : β → Dialogue α} (h : d.Walkless)
    (hf : ∀ b, (f b).Walkless) : (d >>= f).Walkless := by
  show (d.bind f).Walkless
  induction d with
  | done b => exact hf b
  | note n next ih => exact ih h
  | call r next ih => exact fun answer => ih answer (h answer)
  | collect visited pending next => exact h.elim

theorem walkless_ask (r : Request) : (ask r).Walkless := fun _ => trivial

/-! ## Creations -/

section Creating

variable {p : String} {ps : List String} {data : List UInt8} {mode : Mode}

theorem only_createEach (h : ∀ p ∈ ps, P (.create p [] .persistent)) : (createEach ps).Only P := by
  induction ps with
  | nil => trivial
  | cons p ps ih =>
    have hrest := ih fun q hq => h q (by simp [hq])
    refine (only_ask (h p (by simp))).bind fun answer => ?_
    split <;> first | exact hrest | trivial

theorem only_createWithParents (hp : P (.create p data mode))
    (habove : ∀ q ∈ Path.ancestors p, P (.create q [] .persistent)) :
    (createWithParents p data mode).Only P := by
  refine (only_ask hp).bind fun answer => ?_
  split
  · refine (only_createEach habove).bind fun made => ?_
    split
    · exact only_ask hp
    · trivial
  · trivial

theorem walkless_createEach (ps : List String) : (createEach ps).Walkless := by
  induction ps with
  | nil => trivial
  | cons p ps ih =>
    refine (walkless_ask _).bind fun answer => ?_
    split <;> first | exact ih | trivial

theorem walkless_createWithParents (p : String) (data : List UInt8) (mode : Mode) :
    (createWithParents p data mode).Walkless := by
  refine (walkless_ask _).bind fun answer => ?_
  split
  · refine (walkless_createEach _).bind fun made => ?_
    split
    · exact walkless_ask _
    · trivial
  · trivial

end Creating

/-! ## Deletions -/

theorem only_deleteEach {ps : List String} (h : ∀ p, P (.delete p none)) :
    (deleteEach ps).Only P := by
  induction ps with
  | nil => trivial
  | cons p ps ih =>
    refine (only_ask (h p)).bind fun answer => ?_
    split <;> first | exact ih | trivial

theorem only_deleteFrom (hlook : ∀ p, P (.getChildren p)) (hdelete : ∀ p, P (.delete p none))
    (p : String) (attempt left : Nat) : (deleteFrom p attempt left).Only P := by
  have honce : (deleteOnce p).Only P := by
    refine Only.bind (d := collectSubtree p) ⟨hlook, fun _ => trivial⟩ fun found => ?_
    split
    · exact only_deleteEach hdelete
    · trivial
  induction left generalizing attempt with
  | zero => exact honce
  | succ left ih =>
    refine honce.bind fun answer => ?_
    split
    · exact ih _
    · trivial

end Dialogue

/-! ## Tasks that end whatever happens -/

namespace Task

variable {α β : Type} {w u : World} {t t' : Task α}

def Halts (t : Task α) : Prop := ∀ w, t.Ends (fun _ _ => True) (fun _ _ => True) w

theorem halts_done (a : α) : (done a).Halts := fun _ => .done trivial

theorem halts_of_ends (h : t.Ends (fun _ _ => True) (fun _ _ => True) w) : t.Halts := fun v => by
  cases h with
  | done => exact .done trivial
  | move due running able next =>
    exact .move due running (fun v' _ => able v' trivial) fun v' u' t' _ => next v' u' t' trivial

theorem Halts.step (h : t.Halts) (hstep : t.step w = some (u, t')) : t'.Halts := by
  cases h w with
  | done => simp at hstep
  | move due running able next => exact halts_of_ends (next w u t' trivial hstep)

theorem halts_act {f : World → β × World} {next : β → Task α} (h : ∀ b, (next b).Halts) :
    (act f next).Halts := fun w => by
  refine .move 0 rfl (fun v _ _ => rfl) fun v u t' _ hstep => ?_
  obtain ⟨-, rfl⟩ := Prod.ext_iff.1 (Option.some.inj hstep)
  exact h _ u

theorem halts_talk {s : SessionId} {d : Dialogue β} {next : β → Task α} (hd : d.Walkless)
    (h : ∀ b, (next b).Halts) : (talk s d next).Halts := by
  induction d with
  | done b =>
    intro w
    refine .move 0 rfl (fun v _ _ => rfl) fun v u t' _ hstep => ?_
    obtain ⟨-, rfl⟩ := Prod.ext_iff.1 (Option.some.inj hstep)
    exact h b u
  | note n d ih =>
    intro w
    refine .move 0 rfl (fun v _ _ => rfl) fun v u t' _ hstep => ?_
    obtain ⟨-, rfl⟩ := Prod.ext_iff.1 (Option.some.inj hstep)
    exact ih hd u
  | call r rest ih =>
    have hrest (answer : r.Answer) : (talk s (rest answer) next).Halts := ih answer (hd answer)
    intro w
    refine .move 0 rfl (fun v _ _ => ?_) fun v u t' _ hstep => ?_
    · simp only [Task.step, Dialogue.turn_call]
      cases v.accept s <;> rfl
    · simp only [Task.step, Dialogue.turn_call] at hstep
      cases haccept : v.accept s with
      | error error =>
        simp only [haccept, Option.some.injEq, Prod.mk.injEq] at hstep
        obtain ⟨-, rfl⟩ := hstep
        exact hrest _ u
      | ok accepted =>
        simp only [haccept, Option.some.injEq, Prod.mk.injEq] at hstep
        obtain ⟨-, rfl⟩ := hstep
        -- the call is answered as soon as its time has come
        refine .move accepted.1.due rfl (fun v' _ hle => ?_) fun v' u' t'' _ hstep => ?_
        · simp [Task.step, Nat.not_lt.2 hle]
        · simp only [Task.step] at hstep
          split_ifs at hstep
          obtain ⟨-, rfl⟩ := Prod.ext_iff.1 (Option.some.inj hstep)
          exact hrest _ u'
  | collect visited pending next => exact hd.elim

end Task

end KeyRegistry
