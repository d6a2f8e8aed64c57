import KeyRegistry.Proofs.Scenario.Twins
import KeyRegistry.Scenario

/-!
# Scenarios that differ in secrets

A scenario is run branch by branch, with the workers and the clock in between. Two runs whose
commands differ at most in a secret go through the same stages but for the settings, and
report the same.
-/

namespace KeyRegistry.Scenario

open KeyRegistry.Task (Twin)

/-! ## Stages -/

structure Stage.Like (a b : Stage) : Prop where
  world : World.Like secrecy () a.world b.world
  names : a.names = b.names
  grips : a.grips = b.grips

namespace Stage.Like

variable {a b : Stage} (h : Like a b)

include h

theorem withWorld {w v : World} (hw : World.Like secrecy () w v) :
    Like { a with world := w } { b with world := v } :=
  ⟨hw, h.names, h.grips⟩

theorem usesReplica_eq (c i : Nat) : a.usesReplica c i = b.usesReplica c i := by
  rw [Stage.usesReplica, Stage.usesReplica, h.world.active?_eq]

theorem holds_eq (i : Nat) : a.holds i = b.holds i := by
  simp only [Stage.holds, h.names, h.grips, h.usesReplica_eq]

theorem releaseReplicas : Like a.releaseReplicas b.releaseReplicas := by
  have hfold (f : Replica → Replica) (lost : List Nat) {w v : World}
      (hw : World.Like secrecy () w v) : World.Like secrecy ()
        (lost.foldl (fun w i => w.modifyReplica i f) w)
        (lost.foldl (fun w i => w.modifyReplica i f) v) := by
    induction lost generalizing w v with
    | nil => exact hw
    | cons i rest ih => exact ih (hw.modifyReplica i f)
  unfold Stage.releaseReplicas
  simp only [h.world.replicas, h.holds_eq]
  exact h.withWorld (hfold _ _ h.world).rouse

theorem dropWatch (name : String) : Like (a.dropWatch name) (b.dropWatch name) := by
  unfold Stage.dropWatch
  rw [h.names]
  rcases b.names.watches.lookup name with _ | ⟨k, watch⟩
  · exact h
  · dsimp only
    rw [h.world.ensemble_eq]
    exact ⟨(h.world.setEnsemble k _).rouse, rfl, h.grips⟩

theorem bind (x : Binding) : Like (a.bind x) (b.bind x) := by
  cases x with
  | watch name k i =>
    have hdropped := h.dropWatch name
    exact ⟨hdropped.world, by rw [Stage.bind, Stage.bind, hdropped.names], hdropped.grips⟩
  | noWatch name => exact h.dropWatch name
  | _ => exact ⟨h.world, by rw [Stage.bind, Stage.bind, h.names], h.grips⟩

theorem begin (c : Command) {c' : Command} (hgrip : c.grip? b.names = c'.grip? b.names) :
    Like (a.begin c) (b.begin c') :=
  ⟨h.world, h.names, by rw [Stage.begin, Stage.begin, h.names, h.grips, hgrip]⟩

theorem finish (grip : Option Grip) (r : Result) : Like (a.finish grip r) (b.finish grip r) := by
  have hlet (a b : Stage) (h : Like a b) :
      Like (Stage.releaseReplicas { a with grips := grip.elim a.grips a.grips.erase })
        (Stage.releaseReplicas { b with grips := grip.elim b.grips b.grips.erase }) := by
    refine releaseReplicas ⟨h.world, h.names, ?_⟩
    rw [h.grips]
  unfold Stage.finish
  cases r.binding with
  | none => exact hlet a b h
  | some x => exact hlet _ _ (h.bind x)

end Stage.Like

/-! ## Steps and branches -/

inductive Step.Alike : Step → Step → Prop
  | single {c c' : Command} (h : c.Alike c') : Alike (.single c) (.single c')
  | join {steps steps' : List Step} (h : List.Forall₂ Alike steps steps') :
      Alike (.join steps) (.join steps')
  | seq {steps steps' : List Step} (h : List.Forall₂ Alike steps steps') :
      Alike (.seq steps) (.seq steps')

mutual

inductive Branch.Twin : Branch → Branch → Prop
  | untouched {s s' : Step} (h : s.Alike s') : Branch.Twin (.untouched s) (.untouched s')
  | running {t t' : Task Result} (h : Task.Twin secrecy Eq t t') (grip : Option Grip) :
      Branch.Twin (.running t grip) (.running t' grip)
  | sequence (past : List Reply) {now now' : Branch} {rest rest' : List Step}
      (h : Branch.Twin now now') (hrest : List.Forall₂ Step.Alike rest rest') :
      Branch.Twin (.sequence past now rest) (.sequence past now' rest')
  | parallel {parts parts' : List Branch} (h : Branch.Twins parts parts') :
      Branch.Twin (.parallel parts) (.parallel parts')
  | finished (r : Reply) : Branch.Twin (.finished r) (.finished r)

inductive Branch.Twins : List Branch → List Branch → Prop
  | nil : Branch.Twins [] []
  | cons {b b' : Branch} {rest rest' : List Branch} (h : Branch.Twin b b')
      (hrest : Branch.Twins rest rest') : Branch.Twins (b :: rest) (b' :: rest')

end

theorem Command.Alike.grip?_eq {c c' : Command} (h : c.Alike c') (names : Names) :
    c.grip? names = c'.grip? names := by
  cases h <;> rfl

theorem twins_untouched {steps steps' : List Step} (h : List.Forall₂ Step.Alike steps steps') :
    Branch.Twins (steps.map .untouched) (steps'.map .untouched) := by
  induction h with
  | nil => exact .nil
  | cons h _ ih => exact .cons (.untouched h) ih

theorem Branch.Twin.reply?_eq {b b' : Branch} (h : Branch.Twin b b') : b.reply? = b'.reply? := by
  cases h <;> rfl

mutual

theorem Branch.Twin.dueTimes_eq {b b' : Branch} (h : Branch.Twin b b') :
    b.dueTimes = b'.dueTimes := by
  cases h with
  | untouched => rfl
  | running h => rw [Branch.dueTimes, Branch.dueTimes, h.due?_eq]
  | sequence past h =>
    rw [Branch.dueTimes, Branch.dueTimes]
    exact Branch.Twin.dueTimes_eq h
  | parallel h =>
    rw [Branch.dueTimes, Branch.dueTimes]
    exact Branch.Twins.dueTimes_eq h
  | finished => rfl

theorem Branch.Twins.dueTimes_eq {parts parts' : List Branch} (h : Branch.Twins parts parts') :
    Branch.dueTimesAll parts = Branch.dueTimesAll parts' := by
  cases h with
  | nil => rfl
  | cons h hrest =>
    rw [Branch.dueTimesAll, Branch.dueTimesAll, Branch.Twin.dueTimes_eq h,
      Branch.Twins.dueTimes_eq hrest]

end

theorem isSome_step_eq {t t' : Task Result} {w v : World} (h : Task.Twin secrecy Eq t t')
    (hw : World.Like secrecy () w v) : (t.step w).isSome = (t'.step v).isSome := by
  rcases h.step hw with ⟨hstuck, hstuck'⟩ | ⟨_, _, _, _, hstep, hstep', -, -⟩
  · rw [hstuck, hstuck']
  · rw [hstep, hstep']
    rfl

theorem result?_eq {t t' : Task Result} (h : Task.Twin secrecy Eq t t') :
    t.result? = t'.result? := by
  rcases h.result with ⟨hrun, hrun'⟩ | ⟨_, _, rfl, rfl, rfl⟩
  · rw [hrun, hrun']
  · rfl

mutual

theorem Branch.Twin.canMove_eq {b b' : Branch} {w v : World} (h : Branch.Twin b b')
    (hw : World.Like secrecy () w v) : b.canMove w = b'.canMove v := by
  cases h with
  | untouched => rfl
  | running h => rw [Branch.canMove, Branch.canMove, isSome_step_eq h hw, result?_eq h]
  | sequence past h =>
    rw [Branch.canMove, Branch.canMove]
    exact Branch.Twin.canMove_eq h hw
  | parallel h =>
    rw [Branch.canMove, Branch.canMove]
    exact Branch.Twins.anyCanMove_eq h hw
  | finished => rfl

theorem Branch.Twins.anyCanMove_eq {parts parts' : List Branch} {w v : World}
    (h : Branch.Twins parts parts') (hw : World.Like secrecy () w v) :
    Branch.anyCanMove w parts = Branch.anyCanMove v parts' := by
  cases h with
  | nil => rfl
  | cons h hrest =>
    rw [Branch.anyCanMove, Branch.anyCanMove, Branch.Twin.canMove_eq h hw,
      Branch.Twins.anyCanMove_eq hrest hw]

end

theorem Branch.Twins.replies_eq : {parts parts' : List Branch} → Branch.Twins parts parts' →
    parts.mapM Branch.reply? = parts'.mapM Branch.reply?
  | _, _, .nil => rfl
  | _, _, .cons h hrest => by
    rw [List.mapM_cons, List.mapM_cons, h.reply?_eq, Branch.Twins.replies_eq hrest]

theorem nextDue_eq {b b' : Branch} {w v : World} (h : Branch.Twin b b')
    (hw : World.Like secrecy () w v) : nextDue w b = nextDue v b' := by
  rw [nextDue, nextDue, h.dueTimes_eq, hw.replicas, hw.now]

/-! ## Runs -/

def Alike (x y : Stage × Branch) : Prop := x.1.Like y.1 ∧ Branch.Twin x.2 y.2

theorem Step.Alike.begin {st st' : Stage} {s s' : Step} (h : s.Alike s') (hst : st.Like st') :
    Scenario.Alike (s.begin st) (s'.begin st') := by
  cases h with
  | single h =>
    refine ⟨hst.begin _ (h.grip?_eq _), ?_⟩
    dsimp only [Step.begin]
    rw [hst.names, h.grip?_eq]
    exact .running (h.twin _) _
  | join h => exact ⟨hst, .parallel (twins_untouched h)⟩
  | seq h =>
    cases h with
    | nil => exact ⟨hst, .finished _⟩
    | cons h hrest => exact ⟨hst, .sequence [] (.untouched h) hrest⟩

def Polls (moves : Nat) : Prop :=
  ∀ {st st' : Stage} {b b' : Branch}, st.Like st' → Branch.Twin b b' →
    Alike (Branch.poll moves st b) (Branch.poll moves st' b')

def PollsAll (moves : Nat) : Prop :=
  ∀ {st st' : Stage} {parts parts' : List Branch}, st.Like st' → Branch.Twins parts parts' →
    (Branch.pollAll moves st parts).1.Like (Branch.pollAll moves st' parts').1 ∧
      Branch.Twins (Branch.pollAll moves st parts).2 (Branch.pollAll moves st' parts').2

theorem polls_succ {moves : Nat} (hpoll : Polls moves) (hall : PollsAll moves) :
    Polls (moves + 1) := by
  intro st st' b b' hst hb
  cases hb with
  | finished r =>
    rw [Branch.poll, Branch.poll]
    exact ⟨hst, .finished r⟩
  | untouched h =>
    rw [Branch.poll, Branch.poll]
    obtain ⟨hst₁, hb₁⟩ := h.begin hst
    exact hpoll hst₁ hb₁
  | @running t t' h grip =>
    rw [Branch.poll, Branch.poll]
    obtain ⟨hw₁, ht₁⟩ := h.run (moves + 1) hst.world
    have hst₁ := hst.withWorld hw₁
    dsimp only
    rw [result?_eq ht₁]
    cases (Task.run (moves + 1) st'.world t').2.result? with
    | none => exact ⟨hst₁, .running ht₁ grip⟩
    | some r => exact ⟨hst₁.finish grip r, .finished _⟩
  | @sequence past now now' rest rest' h hrest =>
    rw [Branch.poll, Branch.poll]
    obtain ⟨hst₁, hb₁⟩ := hpoll hst h
    dsimp only
    rw [hb₁.reply?_eq]
    cases (Branch.poll moves st' now').2.reply? with
    | none => exact ⟨hst₁, .sequence past hb₁ hrest⟩
    | some r =>
      cases hrest with
      | nil => exact ⟨hst₁, .finished _⟩
      | cons hnext hrest => exact hpoll hst₁ (.sequence _ (.untouched hnext) hrest)
  | @parallel parts parts' h =>
    rw [Branch.poll, Branch.poll]
    obtain ⟨hst₁, hparts₁⟩ := hall hst h
    dsimp only
    rw [hparts₁.replies_eq]
    cases (Branch.pollAll moves st' parts').2.mapM Branch.reply? with
    | none => exact ⟨hst₁, .parallel hparts₁⟩
    | some replies => exact ⟨hst₁, .finished _⟩

theorem pollsAll_succ {moves : Nat} (hpoll : Polls moves) (hall : PollsAll moves) :
    PollsAll (moves + 1) := by
  intro st st' parts parts' hst hparts
  cases hparts with
  | nil =>
    simp only [Branch.pollAll]
    exact ⟨hst, .nil⟩
  | cons h hrest =>
    rw [Branch.pollAll, Branch.pollAll]
    obtain ⟨hst₁, hb₁⟩ := hpoll hst h
    obtain ⟨hst₂, hrest₂⟩ := hall hst₁ hrest
    exact ⟨hst₂, .cons hb₁ hrest₂⟩

theorem polls (moves : Nat) : Polls moves ∧ PollsAll moves := by
  induction moves with
  | zero =>
    refine ⟨fun hst hb => ?_, fun hst hparts => ?_⟩
    · simp only [Branch.poll]
      exact ⟨hst, hb⟩
    · simp only [Branch.pollAll]
      exact ⟨hst, hparts⟩
  | succ moves ih => exact ⟨polls_succ ih.1 ih.2, pollsAll_succ ih.1 ih.2⟩

theorem alike_finish (moves : Nat) {st st' : Stage} {b b' : Branch} (hst : st.Like st')
    (hb : Branch.Twin b b') : (Branch.finish moves st b).1.Like (Branch.finish moves st' b').1 ∧
      (Branch.finish moves st b).2 = (Branch.finish moves st' b').2 := by
  induction moves generalizing st st' b b' with
  | zero => exact ⟨hst, hb.reply?_eq⟩
  | succ moves ih =>
    rw [Branch.finish, Branch.finish]
    obtain ⟨hst₁, hb₁⟩ := (polls (moves + 1)).1 hst hb
    dsimp only
    rw [hb₁.reply?_eq]
    cases (Branch.poll (moves + 1) st' b').2.reply? with
    | some r => exact ⟨hst₁, rfl⟩
    | none =>
      have hworld := World.Like.runWorkers (moves + 1) hst₁.world
      dsimp only
      rw [hb₁.canMove_eq hworld, nextDue_eq hb₁ hworld]
      split_ifs
      · exact ih (hst₁.withWorld hworld) hb₁
      · cases nextDue _ _ with
        | none => exact ⟨hst₁.withWorld hworld, rfl⟩
        | some due => exact ih (hst₁.withWorld (hworld.atTime due).rouse) hb₁

theorem figures_eq {w v : World} (h : World.Like secrecy () w v) : figures w = figures v := by
  simp only [figures, h.ensemble_eq]

theorem alike_runStep (moves : Nat) {st st' : Stage} {s s' : Step} (hst : st.Like st')
    (hs : s.Alike s') (settle : Bool) :
    (runStep moves st s settle).1.Like (runStep moves st' s' settle).1 ∧
      (runStep moves st s settle).2 = (runStep moves st' s' settle).2 := by
  obtain ⟨hst₁, hreply⟩ := alike_finish moves hst (.untouched hs)
  have hlet (a b : Stage) (hab : a.Like b) (reply : Option Reply) :
      Stage.Like { a with world := { a.world with journal := [] } }
        { b with world := { b.world with journal := [] } } ∧
      (⟨reply, figures a.world, a.world.journal⟩ : Report) =
        ⟨reply, figures b.world, b.world.journal⟩ := by
    have hjournal : a.world.journal = b.world.journal := hab.world.journal
    refine ⟨hab.withWorld { hab.world with journal := rfl }, ?_⟩
    rw [figures_eq hab.world, hjournal]
  unfold runStep
  dsimp only
  rw [hreply]
  cases settle with
  | true => exact hlet _ _ (hst₁.withWorld (.runWorkers moves hst₁.world)) _
  | false => exact hlet _ _ hst₁ _

theorem runAll_eq (moves : Nat) {st st' : Stage} {steps steps' : List (Step × Bool)}
    (hst : st.Like st')
    (h : List.Forall₂ (fun x y => x.1.Alike y.1 ∧ x.2 = y.2) steps steps') :
    runAll moves st steps = runAll moves st' steps' := by
  induction h generalizing st st' with
  | nil => rfl
  | @cons x y _ _ hxy _ ih =>
    obtain ⟨s, settle⟩ := x
    obtain ⟨s', _⟩ := y
    obtain ⟨hs, rfl⟩ := hxy
    obtain ⟨hst₁, hreport⟩ := alike_runStep moves hst hs settle
    rw [runAll, runAll]
    dsimp only
    rw [hreport, ih hst₁]

/-- Scenarios that differ in secrets alone have the same reports. -/
theorem run_eq {steps steps' : List (Step × Bool)}
    (h : List.Forall₂ (fun x y => x.1.Alike y.1 ∧ x.2 = y.2) steps steps') :
    run steps = run steps' :=
  runAll_eq ample ⟨.self {} Settings.Alike.same rfl rfl, rfl, rfl⟩ h

end KeyRegistry.Scenario
