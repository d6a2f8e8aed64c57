import KeyRegistry.Proofs.Ensemble.Consistency
import KeyRegistry.Proofs.Ensemble.Upkeep
import Mathlib.Data.List.Range
import Mathlib.Data.List.Sort

/-!
# Injected errors

An injected error waits until a call is issued, which takes it and fails with it if its session is
still live when the answer comes. So the errors go to the calls in the order in which these are
issued, one to each, and the answers show each of them once. A call whose session is over by then
fails for that, and the error that it took is lost.
-/

namespace KeyRegistry

def Request.failure? (r : Request) : r.Answer → Option ServiceError
  | .ok _ => none
  | .error error => some error

namespace Ensemble

variable {before e e' : Ensemble}

structure Issue where
  session : Nat
  request : Request
  taken : Option ServiceError

/-- The answer to one of the calls, known by its place. It comes with what has become of the session
by then. -/
structure Reply where
  call : Nat
  phase : SessionPhase
  failure : Option ServiceError

inductive Affair : Ensemble → Ensemble → Prop
  | connect (e : Ensemble) (servers : String) (identity : Option String) :
      Affair e (e.connect servers identity).2
  | failConnects (e : Ensemble) (count : Nat) : Affair e (e.failConnects count)
  | setLatency (e : Ensemble) (ms : Nat) : Affair e (e.setLatency ms)
  | over (e : Ensemble) (id : Nat) (phase : SessionPhase) : Affair e (e.setPhase id phase)
  | ended (e : Ensemble) (id : Nat) (phase : SessionPhase) (order : List String) :
      Affair e ((e.setPhase id phase).endSession id order)
  | read {e e' : Ensemble} {i : Nat} (reads : Reads i e e') : Affair e e'

/-- The errors that have been injected since `before`, the calls that have been issued and the
answers that have come, each in the order of time. Calls of any sessions overlap as they like. -/
inductive Traffic (before : Ensemble) :
    List ServiceError → List Issue → List Reply → Ensemble → Prop
  | start : Traffic before [] [] [] before
  | inject {injected : List ServiceError} {issues : List Issue} {replies : List Reply}
      {e : Ensemble} (run : Traffic before injected issues replies e) (error : ServiceError) :
      Traffic before (injected ++ [error]) issues replies (e.inject error)
  | refuse {injected : List ServiceError} {issues : List Issue} {replies : List Reply}
      {e : Ensemble} {error : ServiceError} (now id : Nat) (r : Request)
      (run : Traffic before injected issues replies e) (refused : e.accept now id = .error error) :
      Traffic before injected (issues ++ [⟨id, r, none⟩])
        (replies ++ [⟨issues.length, e.phase id, some error⟩]) e
  | issue {injected : List ServiceError} {issues : List Issue} {replies : List Reply}
      {e e' : Ensemble} {hold : Hold} (now id : Nat) (r : Request)
      (run : Traffic before injected issues replies e)
      (accepted : e.accept now id = .ok (hold, e')) :
      Traffic before injected (issues ++ [⟨id, r, hold.fault⟩]) replies e'
  | answer {injected : List ServiceError} {issues : List Issue} {replies : List Reply}
      {e : Ensemble} {k : Nat} {x : Issue} (run : Traffic before injected issues replies e)
      (issued : issues[k]? = some x) (unanswered : k ∉ replies.map Reply.call) :
      Traffic before injected issues
        (replies ++ [⟨k, e.phase x.session,
          x.request.failure? (e.complete x.session x.taken x.request).1⟩])
        (e.complete x.session x.taken x.request).2
  | aside {injected : List ServiceError} {issues : List Issue} {replies : List Reply}
      {e e' : Ensemble} (run : Traffic before injected issues replies e) (affair : Affair e e') :
      Traffic before injected issues replies e'

def struckAt (issues : List Issue) (k : Nat) : Bool := ((issues[k]?).bind Issue.taken).isSome

def Reply.struck (issues : List Issue) (y : Reply) : Bool := struckAt issues y.call

def returned (issues : List Issue) (replies : List Reply) : List ServiceError :=
  (replies.filter (Reply.struck issues)).filterMap Reply.failure

variable {injected : List ServiceError} {issues : List Issue} {replies : List Reply} {y : Reply}
  {x : Issue} {k : Nat}

/-! ## The queue -/

theorem Affair.pending_eq (h : Affair e e') : e'.faults.pending = e.faults.pending := by
  cases h with
  | connect servers identity => exact pending_connect e servers identity
  | read reads => rw [reads.frame.2.2.1]
  | _ => rfl

/-- A call is refused only on a closed session. -/
theorem accept_eq_error {now id : Nat} {error : ServiceError} (h : e.accept now id = .error error) :
    e.phase id = .closed ∧ error = .sessionClosed := by
  unfold accept at h
  split_ifs at h with hclosed
  exact ⟨hclosed, (Except.error.inj h).symm⟩

namespace Traffic

/-- The errors go from the queue to the calls, in the order in which these are issued. -/
theorem taken_append_pending (run : Traffic before injected issues replies e) :
    issues.filterMap Issue.taken ++ e.faults.pending = before.faults.pending ++ injected := by
  induction run with
  | start => simp
  | inject run error ih =>
    rw [← List.append_assoc, ← ih, List.append_assoc]
    rfl
  | refuse now id r run refused ih => simpa using ih
  | @issue injected issues replies e e' hold now id r run accepted ih =>
    obtain ⟨hfault, rfl⟩ := accept_eq_ok accepted
    rw [List.filterMap_append, List.append_assoc, ← ih, hfault]
    cases e.faults.pending <;> rfl
  | answer run issued unanswered ih => rwa [(complete_frame ..).2]
  | aside run affair ih => rwa [affair.pending_eq]

/-! ## The answers -/

theorem call_lt (run : Traffic before injected issues replies e) (hy : y ∈ replies) :
    y.call < issues.length := by
  induction run with
  | start => simp at hy
  | inject run error ih => exact ih hy
  | refuse now id r run refused ih =>
    rw [List.length_append]
    rcases List.mem_append.1 hy with hy | hy
    · exact Nat.lt_add_right _ (ih hy)
    · rw [List.mem_singleton.1 hy]
      exact Nat.lt_add_one _
  | issue now id r run accepted ih =>
    rw [List.length_append]
    exact Nat.lt_add_right _ (ih hy)
  | answer run issued unanswered ih =>
    rcases List.mem_append.1 hy with hy | hy
    · exact ih hy
    · rw [List.mem_singleton.1 hy]
      exact (List.getElem?_eq_some_iff.1 issued).1
  | aside run affair ih => exact ih hy

/-- No call is answered twice. -/
theorem nodup_calls (run : Traffic before injected issues replies e) :
    (replies.map Reply.call).Nodup := by
  have hconcat {replies : List Reply} {y : Reply} (hnodup : (replies.map Reply.call).Nodup)
      (hy : y.call ∉ replies.map Reply.call) : ((replies ++ [y]).map Reply.call).Nodup := by
    rw [List.map_append]
    exact hnodup.append (List.nodup_singleton _) (List.disjoint_singleton.2 hy)
  induction run with
  | start => exact List.nodup_nil
  | inject run error ih => exact ih
  | refuse now id r run refused ih =>
    refine hconcat ih fun hmem => ?_
    obtain ⟨y, hy, hcall⟩ := List.mem_map.1 hmem
    exact absurd (run.call_lt hy) (by simp [hcall])
  | issue now id r run accepted ih => exact ih
  | answer run issued unanswered ih => exact hconcat ih unanswered
  | aside run affair ih => exact ih

/-- An answer is that of the service at one moment, given the error that the call took. -/
theorem exists_answered (run : Traffic before injected issues replies e) (hy : y ∈ replies) :
    ∃ x, issues[y.call]? = some x ∧
      ∃ e, (∃ injected issues replies, Traffic before injected issues replies e) ∧
        y.phase = e.phase x.session ∧
        y.failure = x.request.failure? (e.complete x.session x.taken x.request).1 := by
  have hgrown {issues : List Issue} {k : Nat} {x : Issue} (h : issues[k]? = some x) (z : Issue) :
      (issues ++ [z])[k]? = some x := by
    rw [List.getElem?_append_left (List.getElem?_eq_some_iff.1 h).1, h]
  induction run with
  | start => simp at hy
  | inject run error ih => exact ih hy
  | @refuse injected issues replies e error now id r run refused ih =>
    rcases List.mem_append.1 hy with hy | hy
    · obtain ⟨x, hx, hanswered⟩ := ih hy
      exact ⟨x, hgrown hx _, hanswered⟩
    · rw [List.mem_singleton.1 hy]
      obtain ⟨hclosed, rfl⟩ := accept_eq_error refused
      refine ⟨⟨id, r, none⟩, by simp, e, ⟨_, _, _, run⟩, rfl, ?_⟩
      rw [complete_of_closed hclosed]
      rfl
  | issue now id r run accepted ih =>
    obtain ⟨x, hx, hanswered⟩ := ih hy
    exact ⟨x, hgrown hx _, hanswered⟩
  | answer run issued unanswered ih =>
    rcases List.mem_append.1 hy with hy | hy
    · exact ih hy
    · rw [List.mem_singleton.1 hy]
      exact ⟨_, issued, _, ⟨_, _, _, run⟩, rfl, rfl⟩
  | aside run affair ih => exact ih hy

end Traffic

/-! ## What is returned -/

def takenAt (issues : List Issue) (ks : List Nat) : List ServiceError :=
  ks.filterMap fun k => (issues[k]?).bind Issue.taken

theorem takenAt_range (issues : List Issue) :
    takenAt issues (List.range issues.length) = issues.filterMap Issue.taken := by
  unfold takenAt
  induction issues with
  | nil => rfl
  | cons x issues ih =>
    rw [List.length_cons, List.range_succ_eq_map, List.filterMap_cons, List.filterMap_map,
      List.filterMap_cons, ← ih]
    rfl

theorem takenAt_filter (issues : List Issue) (ks : List Nat) :
    takenAt issues (ks.filter (struckAt issues)) = takenAt issues ks := by
  rw [takenAt, takenAt, List.filterMap_filter]
  refine List.filterMap_congr fun k _ => ?_
  unfold struckAt
  cases (issues[k]?).bind Issue.taken <;> rfl

def answeredStruck (issues : List Issue) (replies : List Reply) : List Nat :=
  (replies.filter (Reply.struck issues)).map Reply.call

theorem mem_answeredStruck : k ∈ answeredStruck issues replies ↔
    k ∈ replies.map Reply.call ∧ struckAt issues k := by
  simp only [answeredStruck, List.mem_map, List.mem_filter, Reply.struck]
  constructor
  · rintro ⟨y, ⟨hy, hstruck⟩, rfl⟩
    exact ⟨⟨y, hy, rfl⟩, hstruck⟩
  · rintro ⟨⟨y, hy, rfl⟩, hstruck⟩
    exact ⟨y, ⟨hy, hstruck⟩, rfl⟩

namespace Traffic

theorem lt_of_mem_answeredStruck (run : Traffic before injected issues replies e)
    (hk : k ∈ answeredStruck issues replies) : k < issues.length := by
  obtain ⟨y, hy, rfl⟩ := List.mem_map.1 (mem_answeredStruck.1 hk).1
  exact run.call_lt hy

theorem nodup_answeredStruck (run : Traffic before injected issues replies e) :
    (answeredStruck issues replies).Nodup :=
  run.nodup_calls.sublist (List.filter_sublist.map _)

section Live

variable (run : Traffic before injected issues replies e)
  (hlive : ∀ y ∈ replies, y.struck issues → y.phase = .live)

include run hlive

/-- An answer over a live session fails with the error that the call took, or is what it would be if
there were no errors. -/
theorem exists_failure (hy : y ∈ replies) : ∃ x, issues[y.call]? = some x ∧
    ((∃ error, x.taken = some error ∧ y.failure = some error) ∨ x.taken = none ∧
      ∃ e, (∃ injected issues replies, Traffic before injected issues replies e) ∧
        y.failure = x.request.failure? (e.complete x.session none x.request).1) := by
  obtain ⟨x, hx, e', hreached, hphase, hfailure⟩ := run.exists_answered hy
  refine ⟨x, hx, ?_⟩
  cases htaken : x.taken with
  | none => exact .inr ⟨rfl, e', hreached, by rw [hfailure, htaken]⟩
  | some error =>
    have hstruck : y.struck issues = true := by simp [Reply.struck, struckAt, hx, htaken]
    refine .inl ⟨error, rfl, ?_⟩
    rw [hfailure, htaken, complete_of_struck (hphase.symm.trans (hlive y hy hstruck))]
    rfl

/-- What has been returned is what the answered calls took. -/
theorem returned_eq : returned issues replies = takenAt issues (answeredStruck issues replies) := by
  rw [returned, takenAt, answeredStruck, List.filterMap_map]
  refine List.filterMap_congr fun y hy => ?_
  obtain ⟨hy, hstruck⟩ := List.mem_filter.1 hy
  obtain ⟨x, hx, hanswered⟩ := run.exists_failure hlive hy
  rw [Function.comp_apply, hx, Option.bind_some]
  rcases hanswered with ⟨error, htaken, hfailure⟩ | ⟨htaken, -⟩
  · rw [htaken, hfailure]
  · simp [Reply.struck, struckAt, hx, htaken] at hstruck

theorem perm_returned
    (hall : ∀ k < issues.length, struckAt issues k → k ∈ replies.map Reply.call) :
    (returned issues replies).Perm (issues.filterMap Issue.taken) := by
  have hperm : (answeredStruck issues replies).Perm
      ((List.range issues.length).filter (struckAt issues)) := by
    refine (List.perm_ext_iff_of_nodup run.nodup_answeredStruck
      (List.nodup_range.filter _)).2 fun k => ?_
    rw [List.mem_filter, List.mem_range]
    constructor
    · exact fun hk => ⟨run.lt_of_mem_answeredStruck hk, (mem_answeredStruck.1 hk).2⟩
    · exact fun ⟨hk, hstruck⟩ => mem_answeredStruck.2 ⟨hall k hk hstruck, hstruck⟩
  rw [run.returned_eq hlive, ← takenAt_range, ← takenAt_filter issues (List.range issues.length)]
  exact hperm.filterMap _

theorem sublist_returned (horder : (answeredStruck issues replies).Pairwise (· < ·)) :
    (returned issues replies).Sublist (issues.filterMap Issue.taken) := by
  have hsubset : answeredStruck issues replies ⊆ List.range issues.length := fun k hk =>
    List.mem_range.2 (run.lt_of_mem_answeredStruck hk)
  have hsublist : (answeredStruck issues replies).Sublist (List.range issues.length) :=
    List.sublist_of_subperm_of_pairwise
      (List.subperm_of_subset run.nodup_answeredStruck hsubset) horder List.pairwise_lt_range
  rw [run.returned_eq hlive, ← takenAt_range]
  exact hsublist.filterMap _

end Live

end Traffic

/-- As long as no session is over when the answer to a call of it comes that took an injected error,
the errors go to the calls in the order of injection and of issue, one to each, and each such call
fails with its error; every other call is answered as if there were none. So when the calls that
took one have been answered, each error that does not wait any more has been returned once, and if
they are answered in the order of issue, the errors come in the order of injection. -/
theorem injected_returned_once (run : Traffic before injected issues replies e)
    (hlive : ∀ y ∈ replies, y.struck issues → y.phase = .live) :
    issues.filterMap Issue.taken ++ e.faults.pending = before.faults.pending ++ injected ∧
    (replies.map Reply.call).Nodup ∧
    (∀ y ∈ replies, ∃ x, issues[y.call]? = some x ∧
      ((∃ error, x.taken = some error ∧ y.failure = some error) ∨ x.taken = none ∧
        ∃ e, (∃ injected issues replies, Traffic before injected issues replies e) ∧
          y.failure = x.request.failure? (e.complete x.session none x.request).1)) ∧
    ((∀ k < issues.length, struckAt issues k → k ∈ replies.map Reply.call) →
      (returned issues replies ++ e.faults.pending).Perm (before.faults.pending ++ injected)) ∧
    ((answeredStruck issues replies).Pairwise (· < ·) →
      (returned issues replies).Sublist (before.faults.pending ++ injected)) := by
  have hqueue := run.taken_append_pending
  refine ⟨hqueue, run.nodup_calls, fun y hy => run.exists_failure hlive hy, fun hall => ?_,
    fun horder => ?_⟩
  · exact hqueue ▸ (run.perm_returned hlive hall).append_right _
  · exact hqueue ▸ (run.sublist_returned hlive horder).trans (List.sublist_append_left _ _)

/-- Two calls take the two errors and are answered the other way round; a call on a session that is
not known takes none. -/
theorem injected_returned_once_overlapping :
    ∃ issues replies e,
      Traffic { sessions := [⟨none, .live⟩, ⟨some "alice:secret", .live⟩] }
        [.noAuth "/a", .connectionLoss "b"] issues replies e ∧
      (∀ y ∈ replies, y.struck issues → y.phase = .live) ∧
      returned issues replies = [.connectionLoss "b", .noAuth "/a"] ∧
      (returned issues replies ++ e.faults.pending).Perm [.noAuth "/a", .connectionLoss "b"] := by
  let before : Ensemble := { sessions := [⟨none, .live⟩, ⟨some "alice:secret", .live⟩] }
  have hstart : Traffic before [] [] [] before := .start
  have hinjected := (hstart.inject (.noAuth "/a")).inject (.connectionLoss "b")
  have hissued := ((hinjected.refuse 0 3 (.stat "/") rfl).issue 0 1 (.stat "/a") rfl).issue 0 2
    (.getData "/b") rfl
  have hanswered := (hissued.answer (k := 2) rfl (by decide)).answer (k := 1) rfl (by decide)
  have hreturned := injected_returned_once hanswered (by decide)
  exact ⟨_, _, _, hanswered, by decide, rfl, hreturned.2.2.2.1 (by decide)⟩

/-- A call of a session that has expired takes the error and fails for the expiry, and the next call
succeeds. -/
theorem injected_lost_with_session :
    ∃ issues replies e, Traffic {} [.connectionLoss "lost"] issues replies e ∧
      e.faults.pending = [] ∧
      replies = [⟨0, .expired, some .sessionExpired⟩, ⟨1, .live, none⟩] := by
  have hstart : Traffic {} [] [] [] {} := .start
  have hconnected := (hstart.aside (.connect _ "s" none)).aside (.connect _ "s" none)
  have hexpired := (hconnected.inject (.connectionLoss "lost")).aside (.ended _ 1 .expired [])
  have hfirst := (hexpired.issue 0 1 (.commit []) rfl).answer (k := 0) rfl (by decide)
  have hsecond := (hfirst.issue 0 2 (.commit []) rfl).answer (k := 1) rfl (by decide)
  exact ⟨_, _, _, hsecond, rfl, rfl⟩

end Ensemble

end KeyRegistry
