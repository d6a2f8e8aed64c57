import KeyRegistry.Center.Lifecycle
import KeyRegistry.Proofs.Seed.Loading
import KeyRegistry.Proofs.Settings.Accepted
import KeyRegistry.Proofs.Task.Caution
import KeyRegistry.Proofs.Task.Meanwhile

/-!
# Local mistakes

Settings and seed file are checked before a start reaches out. What they have passed cannot turn
out to be a local mistake later: each key that was loaded is one that the namespace places, and all
other failures are those of the service. So a start that fails for a local mistake has left no mark.
-/

namespace KeyRegistry

open KeyRegistry.Path
open KeyRegistry.Task (Cautious Execution Stable)

variable {α : Type}

def Mistaken (r : Except RegistryError α) : Prop := ∃ e, r = .error e ∧ e.isConfiguration = true

theorem not_mistaken_ok (a : α) : ¬Mistaken (.ok a : Except RegistryError α) := nofun

theorem mistaken_error_iff {e : RegistryError} :
    Mistaken (.error e : Except RegistryError α) ↔ e.isConfiguration = true :=
  ⟨fun ⟨_, he, hconf⟩ => Except.error.inj he ▸ hconf, fun hconf => ⟨e, rfl, hconf⟩⟩

theorem not_mistaken_error {e : RegistryError} (h : e.isConfiguration = false) :
    ¬Mistaken (.error e : Except RegistryError α) := by
  rw [mistaken_error_iff, h]
  exact Bool.false_ne_true

/-- What is mistaken is so as a result of any type. -/
theorem not_mistaken_of_error {β : Type} {e : RegistryError}
    (h : ¬Mistaken (.error e : Except RegistryError β)) :
    ¬Mistaken (.error e : Except RegistryError α) := by
  rwa [mistaken_error_iff] at h ⊢

namespace World

variable {w : World}

structure Still (w w' : World) : Prop where
  ensembles : w'.ensembles = w.ensembles
  connectors : w'.connectors = w.connectors
  replicas : w'.replicas = w.replicas
  active (i : Nat) : w'.active? i = w.active? i

theorem Still.refl (w : World) : w.Still w := ⟨rfl, rfl, rfl, fun _ => rfl⟩

theorem still_note (w : World) (n : Notice) : w.Still (w.note n) := ⟨rfl, rfl, rfl, fun _ => rfl⟩

theorem still_modifyCenter (w : World) (c : Nat) {f : KeyRegistry.Center → KeyRegistry.Center}
    (h : ∀ x, (f x).active = x.active) : w.Still (w.modifyCenter c f) := by
  refine ⟨rfl, rfl, rfl, fun i => ?_⟩
  simp only [active?, center?, modifyCenter, List.getElem?_modify]
  cases w.centers[i]? with
  | none => rfl
  | some x => by_cases hi : c = i <;> simp [hi, h]

/-- A connector that has no ensemble to lead to gets none. -/
theorem resolve_of_error {i : Nat} {e : RegistryError} (h : (w.resolve i).1 = .error e) :
    (w.resolve i).2 = w := by
  unfold resolve at h ⊢
  split
  · rfl
  · split
    · rfl
    · split_ifs with hmemory
      · simp_all
      · rfl

end World

/-! ## After the checks -/

namespace Seed

variable {ns : Namespace} {overwrite : Bool} {entries : List (String × String)}

theorem gives_applyEntries (hkeys : ∀ e ∈ entries, Valid e.1) (report : SeedReport) :
    (applyEntries ns overwrite report entries).Gives fun r => ¬Mistaken r := by
  induction entries generalizing report with
  | nil => exact not_mistaken_ok _
  | cons entry rest ih =>
    obtain ⟨key, value⟩ := entry
    obtain ⟨hkey, hrest⟩ := List.forall_mem_cons.1 hkeys
    rw [applyEntries, Namespace.resolve_of_valid ns hkey]
    refine (Dialogue.gives_of_forall (P := fun _ => True) _ fun _ => trivial).bind fun r _ => ?_
    cases r with
    | ok report => exact ih hrest report
    | error e => exact not_mistaken_error rfl

theorem gives_apply {seed : Seed} (hkeys : ∀ e ∈ seed.entries, Valid e.1) :
    (seed.apply ns overwrite).Gives fun r => ¬Mistaken r := by
  refine (gives_applyEntries hkeys {}).bind fun r hr => ?_
  cases r with
  | ok report => exact not_mistaken_ok _
  | error e => exact hr

end Seed

namespace Replication

theorem gives_start (replica : Nat) (s : SessionId) :
    (start replica s).Gives fun r => ¬Mistaken r := by
  refine Task.gives_look fun w => ?_
  split_ifs
  · exact not_mistaken_error rfl
  refine Task.gives_look fun w => Task.gives_say fun answer => ?_
  cases answer with
  | error e => exact not_mistaken_error rfl
  | ok watch =>
    refine Task.gives_perform fun w => ?_
    split_ifs
    · exact not_mistaken_ok _
    · exact not_mistaken_error rfl

end Replication

namespace Connecting

variable {meanwhile : World → World → Prop} {w : World}

theorem gives_attempt {k retries : Nat} {settings : Settings}
    {again : ServiceError → Task (Except RegistryError SessionId)}
    (hagain : ∀ e, (again e).Gives fun r => ¬Mistaken r) :
    (attempt k settings retries again).Gives fun r => ¬Mistaken r := by
  refine Task.gives_perform fun w => ?_
  cases (w.connect k settings.serverLists settings.identity).1 with
  | ok s => exact Task.gives_tell (not_mistaken_ok _)
  | error e =>
    dsimp only
    split_ifs
    · exact hagain e
    · exact Task.gives_tell (not_mistaken_error rfl)

theorem gives_attempts (k : Nat) (settings : Settings) (draws : Nat → Nat) (retries left : Nat) :
    (attempts k settings draws retries left).Gives fun r => ¬Mistaken r := by
  induction left generalizing retries with
  | zero => exact gives_attempt fun e => not_mistaken_error rfl
  | succ left ih => exact gives_attempt fun e => Task.gives_tell (Task.gives_pause (ih _))

/-- A connector that leads to no ensemble makes no attempt. -/
theorem cautious_connect {Q : World → Prop} (hQ : Stable meanwhile Q) (hw : Q w) (connector : Nat)
    (draws : Nat → Nat) :
    Cautious meanwhile World.Still Mistaken Q w (connect connector draws) := by
  have hattempts (k : Nat) : Task.Gives (fun r => ¬Mistaken r) (do
      let settings ← Task.look fun w =>
        ((w.connectors[connector]?).map Connector.settings).getD {}
      if retryLimit < settings.maxRetries then Task.tell (.retriesClamped settings.maxRetries)
      attempts k settings draws 0 settings.backoff.maxRetries) := by
    refine Task.gives_look fun w => ?_
    dsimp only
    split_ifs
    · exact Task.gives_tell (gives_attempts ..)
    · exact gives_attempts ..
  refine Task.cautious_perform hQ hw (fun w _ => ?_) fun w hw => ?_ <;>
    cases hresolved : (w.resolve connector).1 with
    | ok k => _
    | error e => _
  · exact .inr (hattempts k)
  · exact .inl ((World.resolve_of_error hresolved).symm ▸ .refl w)
  · exact .committed (hattempts k)
  · rw [World.resolve_of_error hresolved]
    exact .done fun _ => hw

end Connecting

namespace Center

variable {settings : Settings} {file : String → Except FileFault (List UInt8)} {ns : Namespace}
  {seed : Option Seed}

/-- The keys of a seed that has been loaded are valid. -/
theorem valid_of_prepare (h : prepare settings file = .ok (ns, seed)) :
    ∀ x ∈ seed, ∀ e ∈ x.entries, Valid e.1 := by
  rintro x hx
  obtain rfl : seed = some x := hx
  obtain ⟨-, -, h⟩ := bind_eq_ok_iff.1 h
  obtain ⟨ns', -, h⟩ := bind_eq_ok_iff.1 h
  split at h
  · cases h
  · rename_i name _
    obtain ⟨y, hload, h⟩ := bind_eq_ok_iff.1 h
    cases h
    cases hfile : file name with
    | error fault =>
      rw [hfile] at hload
      cases fault <;> cases hload
    | ok bytes =>
      rw [hfile] at hload
      obtain ⟨-, -, -, -, -, hvalid⟩ := Seed.load_ok_cases hload
      exact hvalid

theorem gives_furnish (s : SessionId) (overwrite : Bool)
    (hkeys : ∀ x ∈ seed, ∀ e ∈ x.entries, Valid e.1) :
    (furnish s ns seed overwrite).Gives fun r => ¬Mistaken r := by
  refine Task.gives_say (Dialogue.gives_of_forall _ fun ensured => ?_)
  cases ensured with
  | error e => exact not_mistaken_error rfl
  | ok _ =>
    rcases seed with _ | seed
    case' some =>
      have happlied : (seed.apply ns overwrite).Gives fun r => ¬Mistaken r :=
        Seed.gives_apply (hkeys seed rfl)
      refine Task.gives_say (happlied.mono fun r hr => ?_)
      rcases r with e | report
      · exact not_mistaken_of_error hr
    -- the replica is started behind the seed, if there is one
    all_goals
      refine Task.gives_perform fun w => (Replication.gives_start _ s).bind fun r hr => ?_
      cases r with
      | ok _ => exact not_mistaken_ok _
      | error e => exact not_mistaken_of_error hr

/-! ## Starting -/

/-- Whether others leave it alone whether a center is started while somebody has its turn. -/
def Yielding (meanwhile : World → World → Prop) (c : Nat) : Prop :=
  ∀ w w' ticket, meanwhile w w' → w.hasTurn c ticket = true →
    w'.hasTurn c ticket = true ∧ w'.active? c = w.active? c

variable {meanwhile : World → World → Prop} {w : World} {c ticket : Nat}

def Stopped (meanwhile : World → World → Prop) (c ticket : Nat) (w : World) : Prop :=
  Yielding meanwhile c → w.hasTurn c ticket = true ∧ w.active? c = none

theorem stable_stopped : Stable meanwhile (Stopped meanwhile c ticket) := by
  intro w w' h hw hyield
  obtain ⟨hturn, hnone⟩ := h hyield
  obtain ⟨hturn', hsame⟩ := hyield w w' ticket hw hturn
  exact ⟨hturn', hsame.trans hnone⟩

theorem stopped_note {n : Notice} (w : World) (h : Stopped meanwhile c ticket w) :
    Stopped meanwhile c ticket (w.note n) :=
  h

/-- A task that has the turn is cautious if what it does while it has it is. -/
theorem cautious_inTurn {t : Task (Except RegistryError Unit)} (w : World)
    (ht : ∀ w ticket, (Yielding meanwhile c → w.hasTurn c ticket = true) →
      Cautious meanwhile World.Still Mistaken (Stopped meanwhile c ticket) w t) :
    Cautious meanwhile World.Still Mistaken
      (fun w => Yielding meanwhile c → w.active? c = none) w (inTurn c t) := by
  have htrue : Stable meanwhile fun _ => True := fun _ _ _ _ => trivial
  refine Task.cautious_perform htrue trivial (fun w _ => .inl ?_) fun w _ => ?_
  · exact World.still_modifyCenter w c fun _ => rfl
  refine Task.cautious_await htrue trivial World.Still.refl fun w _ hshown => ?_
  refine (ht w _ fun _ => hshown).bind (fun r hr => ?_) fun r w hr hw => ?_
  · exact Task.gives_change hr
  · have hpass (w : World) : w.Still (w.passTurn c) := World.still_modifyCenter w c fun _ => rfl
    refine Task.cautious_change stable_stopped hw hpass fun w hw => .done fun _ hyield => ?_
    exact ((hpass w).active c).trans (hw hyield).2

theorem cautious_start (w : World) (draws : Nat → Nat) :
    Cautious meanwhile World.Still Mistaken
      (fun w => Yielding meanwhile c → w.active? c = none) w (start c draws) := by
  refine cautious_inTurn w fun w ticket hw => ?_
  have hturn : Stable meanwhile fun w => Yielding meanwhile c → w.hasTurn c ticket = true :=
    fun w w' h hw hyield => (hyield w w' ticket hw (h hyield)).1
  refine Task.cautious_look hturn hw World.Still.refl fun w hw => ?_
  split_ifs with hactive
  · exact .committed (not_mistaken_error rfl)
  have hstopped : Stopped meanwhile c ticket w := fun hyield =>
    ⟨hw hyield, by simpa using hactive⟩
  refine Task.cautious_look stable_stopped hstopped World.Still.refl fun w hw => ?_
  generalize w.settings c = settings
  refine Task.cautious_look stable_stopped hw World.Still.refl fun w hw => ?_
  cases hprepared : prepare settings (w.seedFile c) with
  | error e => exact .done fun _ => hw
  | ok prepared =>
    obtain ⟨ns, seed⟩ := prepared
    have hkeys := valid_of_prepare hprepared
    rcases seed with _ | seed
    case' some =>
      refine Task.cautious_tell stable_stopped hw (World.still_note · _) stopped_note fun w hw => ?_
    all_goals
      refine Task.cautious_tell stable_stopped hw (World.still_note · _) stopped_note fun w hw => ?_
      refine Task.cautious_look stable_stopped hw World.Still.refl fun w hw => ?_
      -- from here on the only local mistake is a connector that leads nowhere
      refine (Connecting.cautious_connect stable_stopped hw _ draws).bind (fun r hr => ?_)
        fun r w hr hw => ?_
      · cases r with
        | error e => exact not_mistaken_of_error hr
        | ok s =>
          refine (gives_furnish s settings.overwrite hkeys).bind fun r hr => ?_
          cases r with
          | ok replica => exact Task.gives_change (Task.gives_tell (not_mistaken_ok _))
          | error e =>
            exact Task.gives_tell (Task.gives_change (not_mistaken_of_error hr))
      · obtain ⟨e, rfl, -⟩ := hr
        exact .done fun _ => hw

/-! ## No mark is left -/

/-- A start that fails for a local mistake leaves no mark: whatever goes on between its moves, none
of them alters an ensemble, where a connector leads, a replica or which centers are started, so that
no attempt to connect is made; and if others wait for their turn, the center is stopped in the end.
What the checks have let pass causes no such failure once a session is open: the namespace is there
and places every key of the seed. -/
theorem start_mistaken (meanwhile : World → World → Prop) (w : World) (c : Nat)
    (draws : Nat → Nat) :
    (∀ w' e, e.isConfiguration = true →
      Execution meanwhile w (start c draws) w' (.done (.error e)) →
      (∀ v v' u t t', Execution meanwhile w (start c draws) v t → meanwhile v v' →
        t.step v' = some (u, t') → Execution meanwhile u t' w' (.done (.error e)) → v'.Still u) ∧
      (Yielding meanwhile c → w'.active? c = none)) ∧
    (∀ settings file ns seed, prepare settings file = .ok (ns, seed) →
      (∀ x ∈ seed, ∀ entry ∈ x.entries, ns.resolve entry.1 = .ok (ns.place entry.1)) ∧
      ∀ v v' s overwrite e,
        Execution meanwhile v (furnish s ns seed overwrite) v' (.done (.error e)) →
          e.isConfiguration = false) ∧
    ∀ settings : Settings, settings.check = .ok () →
      ∃ ns, settings.namespaceOf = .ok ns ∧ Valid ns.root := by
  refine ⟨fun w' e hconf hexec => ?_, fun settings file ns seed hprepared => ?_,
    fun settings hcheck => (Settings.check_eq_ok_iff.1 hcheck).exists_valid⟩
  · have hcautious : Cautious meanwhile World.Still Mistaken
        (fun w => Yielding meanwhile c → w.active? c = none) w (start c draws) :=
      cautious_start w draws
    have hmistaken : Mistaken (.error e : Except RegistryError Unit) := mistaken_error_iff.2 hconf
    exact ⟨fun v v' u t t' hbefore hv hstep hrest =>
        hcautious.moves_of_execution hbefore hv hstep hrest hmistaken,
      hcautious.post_of_execution hexec hmistaken⟩
  · have hkeys := valid_of_prepare hprepared
    refine ⟨fun x hx entry hentry => Namespace.resolve_of_valid ns (hkeys x hx entry hentry),
      fun v v' s overwrite e hexec => ?_⟩
    have hfurnish : (furnish s ns seed overwrite).Gives fun r => ¬Mistaken r :=
      gives_furnish s overwrite hkeys
    have hgives := hfurnish.execution hexec
    rw [← Bool.not_eq_true]
    exact fun hconf => hgives (mistaken_error_iff.2 hconf)

/-- A center whose seed file spells a key that no namespace can place, at an ensemble that refuses
connections and has an error in store. -/
def misspelt : World where
  ensembles := [{ faults := { failingConnects := 2, pending := [.connectionLoss "lost"] } }]
  connectors := [⟨{ serverLists := "memory:local", seedFile := some "seed" }, .ensemble 0⟩]
  centers := [{ connector := 0, ownsSeed := true }]
  files := [("seed", Text.Utf8.encode "a//b=1")]

/-- The misspelt key is found before anybody connects. With the key spelt right, a session that is
gone is no local mistake. -/
theorem start_mistaken_misspelt :
    (∃ w', Execution World.Meanwhile misspelt (start 0 fun _ => 0) w'
        (.done (.error (.invalidPath "/a//b" "empty path segment"))) ∧ w'.active? 0 = none ∧
      ∀ v v' u t t', Execution World.Meanwhile misspelt (start 0 fun _ => 0) v t →
        v.Meanwhile v' → t.step v' = some (u, t') → Execution World.Meanwhile u t' w'
          (.done (.error (.invalidPath "/a//b" "empty path segment"))) → v'.Still u) ∧
    ∃ v' e, Execution World.Meanwhile misspelt
        (furnish ⟨0, 1⟩ ⟨"/tasker"⟩ (some ⟨"seed", [("/a", "1")]⟩) false) v' (.done (.error e)) ∧
      e.isConfiguration = false := by
  obtain ⟨hstart, hprepared, -⟩ := start_mistaken World.Meanwhile misspelt 0 fun _ => 0
  have hyielding : Yielding World.Meanwhile 0 := by
    intro w w' ticket hw hturn
    have hcenter : w'.center? 0 = w.center? 0 := by rw [World.center?, hw.centers]; rfl
    rw [World.hasTurn, hcenter, World.active?, hcenter]
    exact ⟨hturn, rfl⟩
  constructor
  · have hexec : ∃ w', Execution World.Meanwhile misspelt (start 0 fun _ => 0) w'
        (.done (.error (.invalidPath "/a//b" "empty path segment"))) :=
      ⟨_, .move (.refl _) rfl <| .move (.refl _) rfl <| .move (.refl _) rfl <|
        .move (.refl _) rfl <| .move (.refl _) rfl <| .move (.refl _) rfl <| .here _ _⟩
    obtain ⟨w', hexec⟩ := hexec
    obtain ⟨hstill, hstopped⟩ := hstart w' _ rfl hexec
    exact ⟨w', hexec, hstopped hyielding, hstill⟩
  · have hexec : ∃ v', Execution World.Meanwhile misspelt
        (furnish ⟨0, 1⟩ ⟨"/tasker"⟩ (some ⟨"seed", [("/a", "1")]⟩) false) v'
        (.done (.error (.service .sessionClosed))) :=
      ⟨_, .move (.refl _) rfl <| .move (.refl _) rfl <| .here _ _⟩
    obtain ⟨v', hexec⟩ := hexec
    have hspelt : prepare { serverLists := "memory:local", seedFile := some "seed" }
        (fun _ => .ok (Text.Utf8.encode "a=1")) =
        .ok (⟨"/tasker"⟩, some ⟨"seed", [("/a", "1")]⟩) := rfl
    exact ⟨v', _, hexec, (hprepared _ _ _ _ hspelt).2 _ _ _ _ _ hexec⟩

end Center

end KeyRegistry
