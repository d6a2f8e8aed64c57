import KeyRegistry.Proofs.Center.Leniency
import KeyRegistry.Proofs.Center.Twins
import KeyRegistry.Proofs.Task.Concert

/-!
# A lenient center follows the strict one

Calls of a lenient center run side by side, with faults, turns of workers and moves of
other sessions between their moves. Beat by beat the world is the one that the same calls of
the strict center would leave, but for the tally and the journal, and the tally shows each
failure that was hidden once.
-/

namespace KeyRegistry

open KeyRegistry.Task (Twin)

namespace LenientCenter

variable {l : LenientCenter} {call : Call} {a b : Concert Call Verdict} {r reply : Verdict}
  {t t' : Task Verdict} {i : Nat}

/-- Worlds that differ in their tallies and journals alone. The mark holds the tallies of the first:
what both surfaces do in the same way leaves these alone. -/
def kinship : Kinship where
  settings := Eq
  journal _ _ := True
  Mark := List Tally
  tallies m ts _ := ts = m
  alike h := h ▸ .same _
  noted _ _ := trivial

theorem twin_strictTask {K : Kinship} (c : Nat) (call : Call) :
    Twin K Eq (call.strictTask c) (call.strictTask c) := by
  cases call with
  | start draws => exact (Center.twin_start c draws).andThen fun _ => .done rfl
  | stop => exact (Center.twin_stop c).andThen fun _ => .done rfl
  | get key => exact (Center.twin_get c key).andThen fun _ => .done rfl
  | time key => exact (Center.twin_time c key).andThen fun _ => .done rfl
  | clear => exact .done rfl
  | _ => exact Twin.andThen (Center.twin_onKey _ _) fun _ => .done rfl

/-- A lenient call beside the strict one: still at what they share, or about to make its stroke on
the tally, or ended. -/
inductive Shadow (l : LenientCenter) (call : Call) : Task Verdict → Task Verdict → Prop
  | running {t t' : Task Verdict} (twin : Twin kinship Eq t t') (running : t.result? = none) :
      Shadow l call (t >>= call.settle l) t'
  | settling {r : Verdict} {s : Tally.Stroke} (stroke : call.stroke? r = some s) :
      Shadow l call (call.settle l r) (.done r)
  | ended {r reply : Verdict} (answers : call.Answers r reply) :
      Shadow l call (.done reply) (.done r)

theorem Shadow.of_twin (l : LenientCenter) (call : Call) (h : Twin kinship Eq t t') :
    Shadow l call (t >>= call.settle l) t' := by
  rcases h.result with ⟨hrun, -⟩ | ⟨r, _, rfl, rfl, rfl⟩
  · exact .running h hrun
  · show Shadow l call (call.settle l r) (.done r)
    cases hs : call.stroke? r with
    | some s => exact .settling hs
    | none =>
      obtain ⟨reply, heq, hreply⟩ := call.settle_of_none l hs
      rw [heq]
      exact .ended hreply

theorem result?_settle {s : Tally.Stroke} (h : call.stroke? r = some s) (w : World) :
    (call.settle l r).result? = none := by
  obtain ⟨_, _, hstep, -⟩ := Call.step_settle l h w
  exact Task.running_of_step hstep

/-- The strict call has ended where the lenient one has. -/
theorem Shadow.of_result (h : Shadow l call t t') (hreply : t.result? = some reply) :
    ∃ r, t' = .done r ∧ call.Answers r reply := by
  cases h with
  | running twin running =>
    rw [show (_ >>= _ : Task Verdict).result? = none from Task.result?_bind _ running] at hreply
    cases hreply
  | settling stroke =>
    rw [result?_settle stroke {}] at hreply
    cases hreply
  | ended answers =>
    obtain rfl := Option.some.inj hreply
    exact ⟨_, rfl, answers⟩

/-! ## The strokes that the strict run calls for -/

def strokes (b : Concert Call Verdict) (ended : List Nat) : List Tally.Stroke :=
  ended.filterMap fun i => (b.outcome? i).bind fun x => x.1.stroke? x.2

theorem strokes_append (b : Concert Call Verdict) (xs ys : List Nat) :
    strokes b (xs ++ ys) = strokes b xs ++ strokes b ys :=
  List.filterMap_append

theorem strokes_singleton (h : b.outcome? i = some (call, r)) :
    strokes b [i] = (call.stroke? r).toList := by
  cases hs : call.stroke? r <;> simp [strokes, h, hs]

/-- A call that ends as soon as the strict one does makes no stroke. -/
theorem strokes_endedAt (h : Twin kinship Eq t t') (hcall : b.calls[i]? = some (call, t')) :
    strokes b ((t >>= call.settle l).endedAt i) = [] := by
  unfold Task.endedAt
  split_ifs with hended
  · rcases h.result with ⟨hrun, -⟩ | ⟨r, _, rfl, rfl, rfl⟩
    · have hnone : (t >>= call.settle l).result? = none := Task.result?_bind _ hrun
      simp [hnone] at hended
    · cases hs : call.stroke? r with
      | some s =>
        have hnone : (Task.done r >>= call.settle l).result? = none := result?_settle hs {}
        simp [hnone] at hended
      | none => rw [strokes_singleton (Concert.outcome?_of_call hcall), hs]; rfl
  · rfl

/-! ## Beat by beat -/

structure Follows (l : LenientCenter) (a b : Concert Call Verdict) : Prop where
  like : World.Like kinship a.world.tallies a.world b.world
  calls : List.Forall₂ (fun x y => x.1 = y.1 ∧ Shadow l x.1 x.2 y.2) a.calls b.calls
  recorded : a.Recorded
  tally : a.world.tallies[l.tally]? = some (.scored (strokes b a.ended))

namespace Follows

variable (h : Follows l a b)

include h

theorem outcome (hreply : a.outcome? i = some (call, reply)) :
    ∃ r, b.outcome? i = some (call, r) ∧ call.Answers r reply := by
  rcases forall₂_getElem? h.calls i with ⟨ha, hb⟩ | ⟨⟨_, t⟩, ⟨_, t'⟩, ha, hb, heq, hshadow⟩
  · simp [Concert.outcome?, ha] at hreply
  · rw [Concert.outcome?_of_call ha] at hreply
    obtain ⟨reply', hresult, hpair⟩ := Option.map_eq_some_iff.1 hreply
    obtain ⟨rfl, rfl⟩ := Prod.ext_iff.1 hpair
    obtain ⟨r, rfl, hr⟩ := hshadow.of_result hresult
    obtain rfl := heq
    exact ⟨r, Concert.outcome?_of_call hb, hr⟩

/-- The strict run goes on without another stroke of the calls that have ended. -/
theorem strokes_eq {b' : Concert Call Verdict}
    (hkept : ∀ i x, b.outcome? i = some x → b'.outcome? i = some x) :
    strokes b' a.ended = strokes b a.ended := by
  refine List.filterMap_congr fun i hi => ?_
  obtain ⟨⟨call, reply⟩, hreply⟩ := Option.isSome_iff_exists.1 ((h.recorded.2 i).1 hi)
  obtain ⟨r, hr, -⟩ := h.outcome hreply
  rw [hr, hkept i _ hr]

theorem enter (call : Call) :
    Follows l (a.enter call (call.task l)) (b.enter call (call.strictTask l.center)) := by
  have htwin := twin_strictTask (K := kinship) l.center call
  rw [call.task_eq]
  refine ⟨h.like, forall₂_concat h.calls ⟨rfl, .of_twin l call htwin⟩, h.recorded.enter _ _, ?_⟩
  have hover : strokes (b.enter call (call.strictTask l.center))
      ((call.strictTask l.center >>= call.settle l).endedAt a.calls.length) = [] := by
    refine strokes_endedAt htwin ?_
    rw [h.calls.length_eq]
    exact List.getElem?_concat_length ..
  rw [Concert.enter, strokes_append, hover, List.append_nil,
    h.strokes_eq fun i x => Concert.outcome?_enter]
  exact h.tally

theorem move_running (ha : a.calls[i]? = some (call, t >>= call.settle l))
    (hb : b.calls[i]? = some (call, t')) (twin : Twin kinship Eq t t')
    (running : t.result? = none) : Follows l (a.move i) (b.move i) := by
  have hbind : (t >>= call.settle l).step a.world =
      (t.step a.world).map fun v => (v.1, v.2 >>= call.settle l) := Task.step_bind _ running
  rcases twin.step h.like with ⟨hstuck, hstuck'⟩ | ⟨w, v, t₁, t₁', hstep, hstep', hlike, twin₁⟩
  · rw [hstuck] at hbind
    rwa [Concert.move_of_stuck ha hbind, Concert.move_of_stuck hb hstuck']
  · rw [hstep, Option.map_some] at hbind
    have hrecorded := h.recorded.move i
    have hkept := h.strokes_eq fun j x hx => Concert.outcome?_move hx i
    rw [Concert.move_of_step ha hbind] at hrecorded ⊢
    rw [Concert.move_of_step hb hstep'] at hkept ⊢
    -- what both do in the same way leaves the tally alone
    have htallies : w.tallies = a.world.tallies := hlike.tallies
    refine ⟨?_, forall₂_set h.calls i ⟨rfl, .of_twin l call twin₁⟩, hrecorded, ?_⟩
    · rw [htallies]
      exact hlike
    · have hcall : (b.calls.set i (call, t₁'))[i]? = some (call, t₁') :=
        List.getElem?_set_self (List.getElem?_eq_some_iff.1 hb).1
      rw [strokes_append, hkept, strokes_endedAt twin₁ hcall, List.append_nil, htallies]
      exact h.tally

/-- The lenient call makes its stroke while the strict one has ended. -/
theorem move_settling {s : Tally.Stroke} (ha : a.calls[i]? = some (call, call.settle l r))
    (hb : b.calls[i]? = some (call, .done r)) (stroke : call.stroke? r = some s) :
    Follows l (a.move i) (b.move i) := by
  obtain ⟨reply, journal, hstep, hreply⟩ := Call.step_settle l stroke a.world
  have hrecorded := h.recorded.move i
  rw [Concert.move_of_step ha hstep] at hrecorded ⊢
  rw [Concert.move_of_stuck hb rfl]
  refine ⟨{ h.like with tallies := rfl, journal := trivial }, ?_, hrecorded, ?_⟩
  · have hsame : b.calls.set i (call, .done r) = b.calls := by
      obtain ⟨hlt, heq⟩ := List.getElem?_eq_some_iff.1 hb
      rw [← heq, List.set_getElem_self]
    have hset := forall₂_set h.calls i (a := (call, .done reply)) (b := (call, .done r))
      ⟨rfl, .ended hreply⟩
    rwa [hsame] at hset
  · have hone : (Task.done reply).endedAt i = [i] := rfl
    rw [hone, strokes_append, strokes_singleton (Concert.outcome?_of_call hb), stroke,
      Option.toList_some, Tally.scored_concat]
    simp [h.tally]

theorem move (i : Nat) : Follows l (a.move i) (b.move i) := by
  rcases forall₂_getElem? h.calls i with ⟨ha, hb⟩ | ⟨⟨call, t⟩, ⟨_, t'⟩, ha, hb, heq, hshadow⟩
  · rwa [Concert.move_of_none ha, Concert.move_of_none hb]
  dsimp only at heq hshadow
  subst heq
  cases hshadow with
  | running twin running => exact h.move_running ha hb twin running
  | settling stroke => exact h.move_settling ha hb stroke
  | ended => rwa [Concert.move_of_stuck ha rfl, Concert.move_of_stuck hb rfl]

theorem incident (x : Incident) :
    Follows l { a with world := x.act a.world } { b with world := x.act b.world } := by
  have hlike := h.like.incident x
  have htallies : (x.act a.world).tallies = a.world.tallies := hlike.tallies
  refine ⟨?_, h.calls, h.recorded, ?_⟩
  · rwa [htallies]
  · rw [htallies]
    exact h.tally

theorem play (beats : List (Beat Call)) :
    Follows l (a.play (Call.task l) beats) (b.play (Call.strictTask l.center) beats) := by
  induction beats generalizing a b with
  | nil => exact h
  | cons beat rest ih =>
    cases beat with
    | call call => exact ih (h.enter call)
    | move i => exact ih (h.move i)
    | incident x => exact ih (h.incident x)

/-- What has ended strictly ends leniently by the next move at the latest. -/
theorem ends (hr : b.outcome? i = some (call, r)) : (a.outcome? i).isSome ∨
    (call.stroke? r).isSome ∧ ((a.move i).outcome? i).isSome := by
  rcases forall₂_getElem? h.calls i with ⟨ha, hb⟩ | ⟨⟨_, t⟩, ⟨_, t'⟩, ha, hb, heq, hshadow⟩
  · simp [Concert.outcome?, hb] at hr
  dsimp only at heq hshadow
  subst heq
  rw [Concert.outcome?_of_call hb] at hr
  cases hshadow with
  | running twin running =>
    rcases twin.result with ⟨-, hrun⟩ | ⟨_, _, rfl, -, -⟩
    · simp [hrun] at hr
    · cases running
  | settling stroke =>
    obtain ⟨rfl, rfl⟩ := Prod.ext_iff.1 (Option.some.inj hr)
    obtain ⟨reply, journal, hstep, -⟩ := Call.step_settle l stroke a.world
    refine .inr ⟨by rw [stroke]; rfl, ?_⟩
    rw [Concert.move_of_step ha hstep, Concert.outcome?_of_call
      (List.getElem?_set_self (List.getElem?_eq_some_iff.1 ha).1)]
    rfl
  | ended => exact .inl (by rw [Concert.outcome?_of_call ha]; rfl)

end Follows

/-! ## Whole runs -/

/-- The failures of calls that have ended leniently, as the strict run has them, but for the local
mistakes that a start lets through. -/
def hidden (b : Concert Call Verdict) (ended : List Nat) : List RegistryError :=
  ended.filterMap fun i => (b.outcome? i).bind fun x => (x.1.stroke? x.2).bind Tally.Stroke.error?

theorem filterMap_strokes (b : Concert Call Verdict) (ended : List Nat) :
    (strokes b ended).filterMap Tally.Stroke.error? = hidden b ended := by
  rw [strokes, List.filterMap_filterMap]
  refine List.filterMap_congr fun i _ => ?_
  cases b.outcome? i <;> rfl

/-- What a run `a` over a lenient center shows beside the strict run `b` of the same beats. -/
structure Simulates (l : LenientCenter) (a b : Concert Call Verdict) : Prop where
  /-- The services and the centers are in the same state. -/
  world : a.world = { b.world with tallies := a.world.tallies, journal := a.world.journal }
  calls : a.calls.map Prod.fst = b.calls.map Prod.fst
  answered : ∀ i call reply, a.outcome? i = some (call, reply) →
    ∃ r, b.outcome? i = some (call, r) ∧ call.Answers r reply
  /-- A lenient call lasts longer by the move of its stroke, if it makes one. -/
  ends : ∀ i call r, b.outcome? i = some (call, r) →
    (a.outcome? i).isSome ∨ (call.stroke? r).isSome ∧ ((a.move i).outcome? i).isSome
  raised : ∀ i call e, a.outcome? i = some (call, .error e) ↔ (a.outcome? i).isSome ∧
    b.outcome? i = some (call, .error e) ∧ (∃ draws, call = .start draws) ∧
      e.isConfiguration = true
  recorded : a.Recorded
  tally : ∃ t, a.world.tallies[l.tally]? = some t ∧ t.total = (hidden b a.ended).length ∧
    (∀ d, t.number d = (hidden b a.ended).countP fun e => e.disposition = d) ∧
    (t.isInterrupted = true ↔ Tally.Unread (strokes b a.ended))

theorem eq_of_like {m : List Tally} {w v : World} (h : World.Like kinship m w v) :
    w = { v with tallies := w.tallies, journal := w.journal } := by
  have hconnectors : w.connectors = v.connectors := by
    refine List.forall₂_eq_eq_eq ▸ h.connectors.imp fun x y hxy => ?_
    obtain ⟨hsettings, hbackend⟩ := hxy
    cases x
    cases y
    exact congrArg₂ _ hsettings hbackend
  have heq := h.eq_with
  rwa [hconnectors] at heq

theorem Follows.simulates (h : Follows l a b) : Simulates l a b where
  world := eq_of_like h.like
  calls := by
    rw [← List.forall₂_eq_eq_eq, List.forall₂_map_left_iff, List.forall₂_map_right_iff]
    exact h.calls.imp fun x y hxy => hxy.1
  answered i call reply := h.outcome
  ends i call r := h.ends
  raised i call e := by
    constructor
    · intro hreply
      obtain ⟨r, hr, hanswers⟩ := h.outcome hreply
      obtain ⟨hstart, rfl, he⟩ := (hanswers.error_iff e).1 rfl
      exact ⟨by rw [hreply]; rfl, hr, hstart, he⟩
    · rintro ⟨hended, hr, hstart, he⟩
      obtain ⟨⟨_, reply⟩, hreply⟩ := Option.isSome_iff_exists.1 hended
      obtain ⟨r, hr', hanswers⟩ := h.outcome hreply
      cases hr'.symm.trans hr
      rw [hreply, (hanswers.error_iff e).2 ⟨hstart, rfl, he⟩]
  recorded := h.recorded
  tally := ⟨_, h.tally, by rw [Tally.total_scored, filterMap_strokes],
    fun d => by rw [Tally.number_scored, filterMap_strokes], Tally.isInterrupted_scored _⟩

def fresh (w : World) (c : Nat) : LenientCenter := ⟨c, w.tallies.length⟩

def tallied (w : World) : World := { w with tallies := w.tallies ++ [{}] }

/-- Over any center, in whatever state it is, the calls of a lenient surface come to what the calls
of the strict one come to, whatever goes on besides. -/
theorem simulates_play (w : World) (c : Nat) (beats : List (Beat Call)) :
    Simulates (fresh w c)
      ((Concert.opening (tallied w)).play (Call.task (fresh w c)) beats)
      ((Concert.opening w).play (Call.strictTask c) beats) := by
  have hself : World.Like kinship w.tallies w w := .self w (fun _ => rfl) trivial rfl
  have hopening : Follows (fresh w c) (.opening (tallied w)) (.opening w) :=
    ⟨{ hself with tallies := rfl }, .nil, Concert.recorded_opening _,
      List.getElem?_concat_length ..⟩
  exact (hopening.play beats).simulates

/-- An interruption is marked, also if it comes out of a transaction. -/
example :
    let e : Ensemble := { sessions := [⟨none, .live⟩] }
    let w : World := {
      ensembles := [e.inject (.transactionFailed 0 (.interrupted "wait"))]
      centers := [{ connector := 0, active := some ⟨⟨0, 1⟩, 0, ⟨"/jobs"⟩⟩ }] }
    let beats := .call (.getDirectly "/a") :: List.replicate 5 (.move 0)
    ((Concert.opening (tallied w)).play (Call.task (fresh w 0)) beats).world.tallies =
      [⟨0, 1, 0, true⟩] := by
  rfl

end LenientCenter

end KeyRegistry
