import KeyRegistry.Proofs.World.Likeness

/-!
# Twin tasks

Two tasks are twins if they do the same in worlds that are alike: they talk and wait
alike, what they do in an instant keeps the worlds alike, and they end with results that go
together. Then they move in step whatever happens to both worlds alike.
-/

namespace KeyRegistry

open World (Like)

namespace Task

variable {K : Kinship} {m : K.Mark} {w v : World} {α α' β β' : Type} {P : β → β' → Prop}
  {Q : α → α' → Prop}

inductive Twin (K : Kinship) (Q : α → α' → Prop) : Task α → Task α' → Prop
  | done {a : α} {a' : α'} (h : Q a a') : Twin K Q (done a) (done a')
  | talk {γ : Type} (s : SessionId) (d : Dialogue γ) {next : γ → Task α} {next' : γ → Task α'}
      (h : ∀ c, Twin K Q (next c) (next' c)) : Twin K Q (talk s d next) (talk s d next')
  | serving {γ : Type} (s : SessionId) (r : Request) (hold : Hold) (rest : r.Answer → Dialogue γ)
      {next : γ → Task α} {next' : γ → Task α'} (h : ∀ c, Twin K Q (next c) (next' c)) :
      Twin K Q (serving s r hold rest next) (serving s r hold rest next')
  | act {γ γ' : Type} {f : World → γ × World} {f' : World → γ' × World} {next : γ → Task α}
      {next' : γ' → Task α'}
      (kept : ∀ (m : K.Mark) w v, Like K m w v → Like K m (f w).2 (f' v).2)
      (h : ∀ (m : K.Mark) w v, Like K m w v → Twin K Q (next (f w).1) (next' (f' v).1)) :
      Twin K Q (act f next) (act f' next')
  | sleep (ms : Nat) {next : Task α} {next' : Task α'} (h : Twin K Q next next') :
      Twin K Q (sleep ms next) (sleep ms next')
  | asleep (due : Nat) {next : Task α} {next' : Task α'} (h : Twin K Q next next') :
      Twin K Q (asleep due next) (asleep due next')
  | await (signal : Signal) (ms : Option Nat) {next : Bool → Task α} {next' : Bool → Task α'}
      (h : ∀ came, Twin K Q (next came) (next' came)) :
      Twin K Q (await signal ms next) (await signal ms next')
  | waiting (signal : Signal) (due : Option Nat) {next : Bool → Task α} {next' : Bool → Task α'}
      (h : ∀ came, Twin K Q (next came) (next' came)) :
      Twin K Q (waiting signal due next) (waiting signal due next')

namespace Twin

variable {t : Task α} {t' : Task α'}

/-- Twins end together. -/
theorem result (h : Twin K Q t t') : (t.result? = none ∧ t'.result? = none) ∨
    ∃ a a', t = .done a ∧ t' = .done a' ∧ Q a a' := by
  cases h with
  | done h => exact .inr ⟨_, _, rfl, rfl, h⟩
  | _ => exact .inl ⟨rfl, rfl⟩

/-- Twins move together, and stay twins in worlds that stay alike. -/
theorem step (h : Twin K Q t t') (hw : Like K m w v) :
    (t.step w = none ∧ t'.step v = none) ∨
    ∃ w₁ v₁ t₁ t₁', t.step w = some (w₁, t₁) ∧ t'.step v = some (v₁, t₁') ∧ Like K m w₁ v₁ ∧
      Twin K Q t₁ t₁' := by
  cases h with
  | done h => exact .inl ⟨rfl, rfl⟩
  | talk s d h =>
    simp only [Task.step]
    cases d.turn with
    | done c => exact .inr ⟨_, _, _, _, rfl, rfl, hw, h c⟩
    | note n d => exact .inr ⟨_, _, _, _, rfl, rfl, hw.note n, .talk s d h⟩
    | call r rest =>
      rcases hw.accept s with ⟨error, h₁, h₂⟩ | ⟨hold, w₁, v₁, h₁, h₂, hw₁⟩ <;>
        simp only [h₁, h₂]
      · exact .inr ⟨_, _, _, _, rfl, rfl, hw, .talk s _ h⟩
      · exact .inr ⟨_, _, _, _, rfl, rfl, hw₁, .serving s r hold rest h⟩
  | serving s r hold rest h =>
    simp only [Task.step]
    rw [← hw.now]
    split_ifs
    · exact .inl ⟨rfl, rfl⟩
    · obtain ⟨hanswer, hw₁⟩ := hw.complete s hold.fault r
      refine .inr ⟨_, _, _, _, rfl, rfl, hw₁, ?_⟩
      rw [hanswer]
      exact .talk s _ h
  | act kept h => exact .inr ⟨_, _, _, _, rfl, rfl, kept m w v hw, h m w v hw⟩
  | sleep ms h =>
    refine .inr ⟨_, _, _, _, rfl, rfl, hw, ?_⟩
    rw [← hw.now]
    split_ifs
    · exact h
    · exact .asleep _ h
  | asleep due h =>
    simp only [Task.step]
    rw [← hw.now]
    split_ifs
    · exact .inl ⟨rfl, rfl⟩
    · exact .inr ⟨_, _, _, _, rfl, rfl, hw, h⟩
  | await signal ms h =>
    simp only [Task.step]
    rw [← hw.now, ← hw.shows_eq]
    split_ifs
    · exact .inr ⟨_, _, _, _, rfl, rfl, hw, h true⟩
    · exact .inr ⟨_, _, _, _, rfl, rfl, hw, h false⟩
    · exact .inr ⟨_, _, _, _, rfl, rfl, hw, .waiting signal _ h⟩
  | waiting signal due h =>
    simp only [Task.step]
    rw [← hw.now, ← hw.shows_eq]
    split_ifs
    · exact .inr ⟨_, _, _, _, rfl, rfl, hw, h true⟩
    · cases due with
      | none => exact .inl ⟨rfl, rfl⟩
      | some due =>
        dsimp only
        split_ifs
        · exact .inl ⟨rfl, rfl⟩
        · exact .inr ⟨_, _, _, _, rfl, rfl, hw, h false⟩

theorem due?_eq (h : Twin K Q t t') : t.due? = t'.due? := by
  cases h <;> rfl

theorem run (moves : Nat) (h : Twin K Q t t') (hw : Like K m w v) :
    Like K m (Task.run moves w t).1 (Task.run moves v t').1 ∧
      Twin K Q (Task.run moves w t).2 (Task.run moves v t').2 := by
  induction moves generalizing w v t t' with
  | zero => exact ⟨hw, h⟩
  | succ moves ih =>
    rw [Task.run, Task.run]
    rcases h.step hw with ⟨hstuck, hstuck'⟩ | ⟨w₁, v₁, t₁, t₁', hstep, hstep', hw₁, h₁⟩
    · rw [hstuck, hstuck']
      exact ⟨hw, h⟩
    · rw [hstep, hstep']
      exact ih h₁ hw₁.rouse

theorem bind {t : Task β} {t' : Task β'} {f : β → Task α} {f' : β' → Task α'}
    (h : Twin K P t t') (hf : ∀ b b', P b b' → Twin K Q (f b) (f' b')) :
    Twin K Q (t >>= f) (t' >>= f') := by
  show Twin K Q (t.bind f) (t'.bind f')
  induction h with
  | done h => exact hf _ _ h
  | talk s d _ ih => exact .talk s d ih
  | serving s r hold rest _ ih => exact .serving s r hold rest ih
  | act kept _ ih => exact .act kept ih
  | sleep ms _ ih => exact .sleep ms ih
  | asleep due _ ih => exact .asleep due ih
  | await signal ms _ ih => exact .await signal ms ih
  | waiting signal due _ ih => exact .waiting signal due ih

/-- Twins with equal results, and what goes on with the result. -/
theorem andThen {t t' : Task β} {f : β → Task α} {f' : β → Task α'} (h : Twin K Eq t t')
    (hf : ∀ b, Twin K Q (f b) (f' b)) : Twin K Q (t >>= f) (t' >>= f') :=
  h.bind fun b _ hb => hb ▸ hf b

end Twin

/-! ## Rules for each kind of task -/

theorem twin_say (s : SessionId) (d : Dialogue α) : Twin K Eq (say s d) (say s d) :=
  .talk s d fun _ => .done rfl

theorem twin_perform {f : World → α × World} {f' : World → α' × World}
    (h : ∀ (m : K.Mark) w v, Like K m w v → Q (f w).1 (f' v).1 ∧ Like K m (f w).2 (f' v).2) :
    Twin K Q (perform f) (perform f') :=
  .act (fun m w v hw => (h m w v hw).2) fun m w v hw => .done (h m w v hw).1

theorem twin_look {f : World → α} {f' : World → α'}
    (h : ∀ (m : K.Mark) w v, Like K m w v → Q (f w) (f' v)) : Twin K Q (look f) (look f') :=
  twin_perform fun m w v hw => ⟨h m w v hw, hw⟩

theorem twin_change {f f' : World → World}
    (h : ∀ (m : K.Mark) w v, Like K m w v → Like K m (f w) (f' v)) :
    Twin K Eq (change f) (change f') :=
  twin_perform fun m w v hw => ⟨rfl, h m w v hw⟩

theorem twin_tell (n : Notice) : Twin K Eq (tell n) (tell n) :=
  twin_change fun _ _ _ hw => hw.note n

theorem twin_pause (ms : Nat) : Twin K Eq (pause ms) (pause ms) := .sleep ms (.done rfl)

theorem twin_awaitSignal (signal : Signal) (ms : Option Nat) :
    Twin K Eq (awaitSignal signal ms) (awaitSignal signal ms) :=
  .await signal ms fun _ => .done rfl

end Task

end KeyRegistry
