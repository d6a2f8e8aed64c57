import KeyRegistry.Center.Lenient
import KeyRegistry.Proofs.Task.Ends
import Mathlib.Data.List.Induction

/-!
# What a lenient surface does beyond the strict one

Each call of a lenient center is the call of the strict center, and then `settle`: it passes
the value on, or hides the failure behind a sentinel and makes a stroke on the tally. What a
tally shows follows from the strokes on it.
-/

namespace KeyRegistry

/-! ## Interruptions -/

/-- A failure stems from itself, and a failed transaction from what its source stems from. -/
inductive ServiceError.StemsFrom : ServiceError → ServiceError → Prop
  | itself (e : ServiceError) : StemsFrom e e
  | source {index : Nat} {e cause : ServiceError} (h : StemsFrom e cause) :
      StemsFrom (.transactionFailed index e) cause

theorem ServiceError.stemsFrom_rootCause (e : ServiceError) : e.StemsFrom e.rootCause := by
  induction e with
  | transactionFailed index source ih => exact .source ih
  | _ => exact .itself _

/-- The root cause is the one failure at the bottom that is no failed transaction. -/
theorem ServiceError.rootCause_eq_iff {e cause : ServiceError} : e.rootCause = cause ↔
    e.StemsFrom cause ∧ ∀ index source, cause ≠ .transactionFailed index source := by
  constructor
  · rintro rfl
    exact ⟨e.stemsFrom_rootCause, e.rootCause_ne_transactionFailed⟩
  · rintro ⟨h, hbare⟩
    induction h with
    | itself e =>
      cases e with
      | transactionFailed index source => exact absurd rfl (hbare index source)
      | _ => rfl
    | source _ ih => exact ih hbare

/-- Whether the error is from the service and stems from an interruption, be it met by a call or by
the last attempt to connect. -/
inductive RegistryError.Interrupts : RegistryError → Prop
  | call {e : ServiceError} {what : String} (h : e.StemsFrom (.interrupted what)) :
      Interrupts (.service e)
  | attempt {servers : String} {attempts : Nat} {e : ServiceError} {what : String}
      (h : e.StemsFrom (.interrupted what)) : Interrupts (.retriesExhausted servers attempts e)

theorem RegistryError.interrupts_iff (e : RegistryError) : e.Interrupts ↔
    ∃ f what, e.service? = some f ∧ f.rootCause = .interrupted what := by
  constructor
  · rintro (h | h) <;> exact ⟨_, _, rfl, ServiceError.rootCause_eq_iff.2 ⟨h, nofun⟩⟩
  · rintro ⟨f, what, hservice, hcause⟩
    have hstems := (ServiceError.rootCause_eq_iff.1 hcause).1
    cases e with
    | service => exact .call (Option.some.inj hservice ▸ hstems)
    | retriesExhausted => exact .attempt (Option.some.inj hservice ▸ hstems)
    | _ => cases hservice

theorem RegistryError.disposition_eq_interrupted_iff (e : RegistryError) :
    e.disposition = .interrupted ↔ e.Interrupts := by
  rw [interrupts_iff]
  unfold disposition
  cases hservice : e.service? with
  | none => simp
  | some f =>
    simp only [Option.map_some, Option.some.injEq, exists_and_left, exists_eq_left']
    cases f.rootCause <;> cases e <;> simp

/-! ## Strokes on a tally -/

namespace Tally

inductive Stroke
  | failure (e : RegistryError)
  | clearing
  deriving DecidableEq, Repr

def Stroke.error? : Stroke → Option RegistryError
  | .failure e => some e
  | .clearing => none

def stroke (t : Tally) : Stroke → Tally
  | .failure e => t.count e.disposition
  | .clearing => t.clear

def scored (strokes : List Stroke) : Tally := strokes.foldl stroke {}

def number (t : Tally) : Disposition → Nat
  | .ignored => t.ignored
  | .interrupted => t.interruptions
  | .logged => t.logged

theorem scored_concat (strokes : List Stroke) (s : Stroke) :
    scored (strokes ++ [s]) = (scored strokes).stroke s := by
  simp [scored]

theorem number_count (t : Tally) (d d' : Disposition) :
    (t.count d).number d' = t.number d' + if d = d' then 1 else 0 := by
  cases d <;> cases d' <;> rfl

theorem number_clear (t : Tally) (d : Disposition) : t.clear.number d = t.number d := by
  cases d <;> rfl

theorem isInterrupted_count (t : Tally) (d : Disposition) :
    (t.count d).isInterrupted = true ↔ d = .interrupted ∨ t.isInterrupted = true := by
  cases d <;> simp [count]

/-- The counters count each hidden failure once. -/
theorem total_scored (strokes : List Stroke) :
    (scored strokes).total = (strokes.filterMap Stroke.error?).length := by
  induction strokes using List.reverseRecOn with
  | nil => rfl
  | append_singleton strokes s ih =>
    rw [scored_concat]
    cases s <;> simp [stroke, Stroke.error?, ih]

theorem number_scored (strokes : List Stroke) (d : Disposition) : (scored strokes).number d =
    (strokes.filterMap Stroke.error?).countP fun e => e.disposition = d := by
  induction strokes using List.reverseRecOn with
  | nil => cases d <;> rfl
  | append_singleton strokes s ih =>
    rw [scored_concat]
    cases s with
    | failure e => simp [stroke, number_count, Stroke.error?, ih, List.countP_singleton]
    | clearing => simp [stroke, number_clear, Stroke.error?, ih]

/-- Whether an interruption was hidden after the last clearing. -/
def Unread (strokes : List Stroke) : Prop :=
  ∃ before e after, strokes = before ++ .failure e :: after ∧ e.Interrupts ∧ .clearing ∉ after

theorem unread_concat (strokes : List Stroke) (s : Stroke) : Unread (strokes ++ [s]) ↔
    (∃ e, s = .failure e ∧ e.Interrupts) ∨ s ≠ .clearing ∧ Unread strokes := by
  constructor
  · rintro ⟨before, e, after, heq, he, hafter⟩
    rcases List.eq_nil_or_concat after with rfl | ⟨after, last, rfl⟩
    · obtain ⟨-, hs⟩ := List.append_inj' heq rfl
      exact .inl ⟨e, List.singleton_inj.1 hs, he⟩
    · rw [List.concat_eq_append, ← List.cons_append, ← List.append_assoc] at heq
      obtain ⟨rfl, hs⟩ := List.append_inj' heq rfl
      obtain rfl := List.singleton_inj.1 hs
      simp only [List.concat_eq_append, List.mem_append, List.mem_singleton, not_or] at hafter
      exact .inr ⟨Ne.symm hafter.2, before, e, after, rfl, he, hafter.1⟩
  · rintro (⟨e, rfl, he⟩ | ⟨hs, before, e, after, rfl, he, hafter⟩)
    · exact ⟨strokes, e, [], rfl, he, by simp⟩
    · refine ⟨before, e, after ++ [s], by simp, he, ?_⟩
      simpa [hafter] using Ne.symm hs

theorem isInterrupted_scored (strokes : List Stroke) :
    (scored strokes).isInterrupted = true ↔ Unread strokes := by
  induction strokes using List.reverseRecOn with
  | nil => simp [scored, Unread]
  | append_singleton strokes s ih =>
    rw [scored_concat, unread_concat, ← ih]
    cases s with
    | clearing => simp [stroke, clear]
    | failure e => simp [stroke, isInterrupted_count, e.disposition_eq_interrupted_iff]

end Tally

/-! ## Calls of a lenient center -/

namespace LenientCenter

/-- What a center is asked to do over a lenient surface. To clear is to read the mark of an
interruption and to take it away. -/
inductive Call
  | start (draws : Nat → Nat)
  | stop
  | get (key : String)
  | getDirectly (key : String)
  | childNames (key : String)
  | countChildren (key : String)
  | isPresent (key : String)
  | persist (key value : String)
  | update (key value : String)
  | persistEphemeral (key value : String)
  | persistEphemeralSequential (key : String)
  | remove (key : String)
  | time (key : String)
  | clear

inductive Value
  | nothing
  | text (t : Option String)
  | names (ts : List String)
  | number (n : Nat)
  | flag (b : Bool)
  /-- Whether a time was told. -/
  | time (told : Bool)
  | key (k : String)
  | shutdown (s : Shutdown)
  deriving DecidableEq, Repr

abbrev Verdict := Except RegistryError Value

variable {α β : Type}

namespace Call

def task (l : LenientCenter) : Call → Task Verdict
  | start draws => do return (← l.start draws).map fun _ => .nothing
  | stop => do
    l.stop
    return .ok .nothing
  | get key => do return .ok (.text (← l.get key))
  | getDirectly key => do return .ok (.text (← l.getDirectly key))
  | childNames key => do return .ok (.names (← l.childNames key))
  | countChildren key => do return .ok (.number (← l.countChildren key))
  | isPresent key => do return .ok (.flag (← l.isPresent key))
  | persist key value => do
    l.persist key value
    return .ok .nothing
  | update key value => do
    l.update key value
    return .ok .nothing
  | persistEphemeral key value => do
    l.persistEphemeral key value
    return .ok .nothing
  | persistEphemeralSequential key => do
    l.persistEphemeralSequential key
    return .ok .nothing
  | remove key => do
    l.remove key
    return .ok .nothing
  | time key => do return .ok (.time (← l.time key))
  | clear => do return .ok (.flag (← l.clearInterrupted))

def strictTask (c : Nat) : Call → Task Verdict
  | start draws => do return (← Center.start c draws).map fun _ => .nothing
  | stop => do return .ok (.shutdown (← Center.stop c))
  | get key => do return (← Center.get c key).map .text
  | getDirectly key => do return (← Center.getDirectly c key).map .text
  | childNames key => do return (← Center.childNames c key).map .names
  | countChildren key => do return (← Center.countChildren c key).map .number
  | isPresent key => do return (← Center.isPresent c key).map .flag
  | persist key value => do return (← Center.persist c key value).map fun _ => .nothing
  | update key value => do return (← Center.update c key value).map fun _ => .nothing
  | persistEphemeral key value => do
    return (← Center.persistEphemeral c key value).map fun _ => .nothing
  | persistEphemeralSequential key => do
    return (← Center.persistEphemeralSequential c key).map .key
  | remove key => do return (← Center.remove c key).map fun _ => .nothing
  | time key => do return (← Center.time c key).map fun _ => .time true
  | clear => .done (.ok .nothing)

def label : Call → String
  | start _ => "init"
  | stop => "close"
  | get _ => "get"
  | getDirectly _ => "get_directly"
  | childNames _ => "get_children_keys"
  | countChildren _ => "get_num_children"
  | isPresent _ => "is_existed"
  | persist .. => "persist"
  | update .. => "update"
  | persistEphemeral .. => "persist_ephemeral"
  | persistEphemeralSequential _ => "persist_ephemeral_sequential"
  | remove _ => "remove"
  | time _ => "get_registry_center_time"
  | clear => "clear_interrupted"

def subject (w : World) (l : LenientCenter) : Call → String
  | start _ => (w.settings l.center).serverLists
  | stop | clear => ""
  | get key | getDirectly key | childNames key | countChildren key | isPresent key
  | persist key _ | update key _ | persistEphemeral key _ | persistEphemeralSequential key
  | remove key | time key => key

def sentinel : Call → Value
  | get _ | getDirectly _ => .text none
  | childNames _ => .names []
  | countChildren _ => .number 0
  | isPresent _ => .flag false
  | time _ => .time false
  | _ => .nothing

def raises : Call → RegistryError → Bool
  | start _, e => e.isConfiguration
  | _, _ => false

end Call

/-- A value as the lenient surface gives it: it keeps back created keys and how a center stopped. -/
def Value.shown : Value → Value
  | .key _ | .shutdown _ => .nothing
  | v => v

namespace Call

def answer (call : Call) : Verdict → Verdict
  | .ok v => .ok v.shown
  | .error e => if call.raises e then .error e else .ok call.sentinel

def stroke? (call : Call) (r : Verdict) : Option Tally.Stroke :=
  match call, r with
  | clear, _ => some .clearing
  | _, .ok _ => none
  | call, .error e => if call.raises e then none else some (.failure e)

def settle (l : LenientCenter) (call : Call) (r : Verdict) : Task Verdict :=
  match call, r with
  | clear, _ => do return .ok (.flag (← l.clearInterrupted))
  | _, .ok v => .done (.ok v.shown)
  | call, .error e =>
    if call.raises e then .done (.error e)
    else do
      Task.change fun w => w.absorb l.tally call.label (call.subject w l) e
      return .ok call.sentinel

theorem absorb_settle (l : LenientCenter) (call : Call) {operation key : String} {sentinel : β}
    {f : α → β} {strict : α → Value} {lenient : β → Value} (t : Task (Except RegistryError α))
    (hok : ∀ a, call.settle l (.ok (strict a)) = .done (.ok (lenient (f a))))
    (herror : ∀ e, call.settle l (.error e) =
      .act (fun w => ((), w.absorb l.tally operation key e))
        fun _ => .done (.ok (lenient sentinel))) :
    (l.absorb operation key sentinel f t >>= fun b => pure (.ok (lenient b))) =
      (t >>= fun r => pure (r.map strict)) >>= call.settle l := by
  rw [absorb, Task.bind_assoc, Task.bind_assoc]
  refine congrArg (t >>= ·) (funext fun r => ?_)
  cases r with
  | error e => exact (herror e).symm
  | ok a => exact (hok a).symm

/-- A lenient call is the strict one, settled. -/
theorem task_eq (l : LenientCenter) (call : Call) :
    call.task l = call.strictTask l.center >>= call.settle l := by
  cases call with
  | start draws =>
    rw [task, strictTask, LenientCenter.start, Task.bind_assoc, Task.bind_assoc]
    refine congrArg (Center.start l.center draws >>= ·) (funext fun r => ?_)
    rcases r with e | _
    · show _ = settle l (start draws) (.error e)
      cases he : e.isConfiguration <;> simp only [settle, raises, he] <;> rfl
    · rfl
  | stop =>
    rw [task, strictTask, LenientCenter.stop, Task.bind_assoc, Task.bind_assoc]
    rfl
  | clear => rfl
  | _ => exact absorb_settle l _ _ (fun _ => rfl) fun _ => rfl

/-! ## Settling -/

def Answers (call : Call) (r reply : Verdict) : Prop :=
  match call with
  | clear => ∃ marked, reply = .ok (.flag marked)
  | _ => reply = call.answer r

/-- Only a start fails, and only on a local mistake. -/
theorem Answers.error_iff {call : Call} {r reply : Verdict} (h : call.Answers r reply)
    (e : RegistryError) : reply = .error e ↔
      (∃ draws, call = start draws) ∧ r = .error e ∧ e.isConfiguration = true := by
  cases call with
  | clear =>
    obtain ⟨marked, rfl⟩ := h
    simp
  | start draws =>
    obtain rfl : reply = _ := h
    rcases r with e' | v
    · cases he : e'.isConfiguration <;> simp [answer, raises, he]
      · rintro rfl
        simp [he]
      · rintro rfl
        exact he
    · simp [answer]
  | _ =>
    obtain rfl : reply = _ := h
    rcases r with e' | v <;> simp [answer, raises]

variable {call : Call} {r : Verdict} {s : Tally.Stroke}

theorem settle_of_none (l : LenientCenter) (h : call.stroke? r = none) :
    ∃ reply, call.settle l r = .done reply ∧ call.Answers r reply := by
  rcases r with e | v
  · by_cases he : call.raises e = true
    · cases call <;> simp_all [settle, stroke?, Answers, answer, raises]
    · cases call <;> simp_all [stroke?]
  · cases call <;> first | exact ⟨_, rfl, rfl⟩ | cases h

/-- A failure that is hidden. -/
theorem settle_error (l : LenientCenter) {e : RegistryError} (hcall : call ≠ clear)
    (he : call.raises e = false) : call.settle l (.error e) =
      .act (fun w => ((), w.absorb l.tally call.label (call.subject w l) e))
        fun _ => .done (.ok call.sentinel) := by
  cases call <;> first | exact absurd rfl hcall | (simp only [settle, he]; rfl)

theorem stroke?_eq_some (h : call.stroke? r = some s) : call = clear ∧ s = .clearing ∨
    ∃ e, call ≠ clear ∧ call.raises e = false ∧ r = .error e ∧ s = .failure e := by
  rcases r with e | v
  · by_cases he : call.raises e = true
    · cases call <;> simp_all [stroke?, raises]
    · cases call <;> simp_all [stroke?, raises]
  · cases call <;> simp_all [stroke?]

/-- A stroke on the tally takes one move, and is the last. -/
theorem step_settle (l : LenientCenter) (h : call.stroke? r = some s) (w : World) :
    ∃ reply journal, (call.settle l r).step w = some
      ({ w with tallies := w.tallies.modify l.tally (·.stroke s), journal := journal },
        .done reply) ∧ call.Answers r reply := by
  rcases stroke?_eq_some h with ⟨rfl, rfl⟩ | ⟨e, hcall, he, rfl, rfl⟩
  · exact ⟨_, w.journal, rfl, _, rfl⟩
  · rw [settle_error l hcall he]
    refine ⟨_, _, rfl, ?_⟩
    cases call <;> first | exact absurd rfl hcall | simp [Answers, answer, he]

end Call

end LenientCenter

end KeyRegistry
