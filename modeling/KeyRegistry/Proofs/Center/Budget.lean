import KeyRegistry.Proofs.Replica.Aloof
import KeyRegistry.Proofs.Task.Asking
import KeyRegistry.Proofs.Task.Bounded
import KeyRegistry.Proofs.World.Scene

/-!
# The retries that a connector may spend

A connector has so many retries, and an ensemble so many refusals. An attempt that is
refused spends one of both, and whichever is spent first decides: if the refusals are, the
next attempt opens a session, and if it is the retries, the connector gives up.
-/

namespace KeyRegistry

open KeyRegistry.Task (Ends Stable)

namespace World

variable {w : World} {i k : Nat} {l : Connector} {settings : Settings} {r : Reception}
  {meanwhile : World → World → Prop}

/-- A connector, and how those who connect over it are received. An undecided one gets an
ensemble of its own. -/
def Fronts (w : World) (i : Nat) (l : Connector) (r : Reception) : Prop :=
  w.connectors[i]? = some l ∧
    match l.backend with
    | .undecided => Settings.usesMemory l.settings.serverLists = true ∧ r = ⟨0, 0, []⟩
    | .ensemble k => w.Holds k (·.reception = r)

def Lives (w : World) (s : SessionId) : Prop := w.Holds s.ensemble (·.phase s.number = .live)

theorem stable_fronts (hquiet : ∀ w w', meanwhile w w' → w.Unapproached i w') (l : Connector)
    (r : Reception) : Stable meanwhile fun w => w.Fronts i l r := by
  obtain ⟨settings, backend⟩ := l
  rintro w w' ⟨hl, hr⟩ hw
  have hkept := hquiet w w' hw
  refine ⟨hkept.connector.trans hl, ?_⟩
  cases backend with
  | undecided => exact hr
  | ensemble k =>
    obtain ⟨e, hk, he⟩ := hr
    obtain ⟨e', hk', hentered⟩ := hkept.ensemble hl hk
    exact ⟨e', hk', hentered.reception_eq.trans he⟩

/-! ## The moves of a connect -/

theorem Fronts.note (h : w.Fronts i l r) (n : Notice) : (w.note n).Fronts i l r := h

/-- A connector leads to an ensemble that receives as was said of it, be it a new one. -/
theorem Fronts.resolve (h : w.Fronts i l r) : ∃ k,
    (∀ j, l.backend = .ensemble j → k = j) ∧ (w.resolve i).1 = .ok k ∧
    (w.resolve i).2.Fronts i ⟨l.settings, .ensemble k⟩ r := by
  obtain ⟨settings, backend⟩ := l
  obtain ⟨hl, hr⟩ := h
  cases backend with
  | ensemble k =>
    rw [resolve_of_ensemble hl]
    exact ⟨k, fun j hj => Backend.ensemble.inj hj, rfl, hl, hr⟩
  | undecided =>
    obtain ⟨hmemory, rfl⟩ := hr
    obtain ⟨k, hk, hensemble, hconnector, -⟩ := resolve_of_undecided hl hmemory
    exact ⟨k, by simp, hk, hconnector, {}, hensemble, rfl⟩

theorem Fronts.connect_of_refusals (h : w.Fronts i ⟨settings, .ensemble k⟩ r)
    (hr : 0 < r.refusals) (servers : String) (identity : Option String) :
    (w.connect k servers identity).1 =
        .error (.connectionLoss s!"connection to {servers} refused") ∧
      (w.connect k servers identity).2.Fronts i ⟨settings, .ensemble k⟩ r.refuse := by
  obtain ⟨hl, e, hk, rfl⟩ := h
  obtain ⟨hrefused, hreception⟩ := e.connect_of_refusals hr servers identity
  rw [connect_of_error hk hrefused]
  exact ⟨rfl, hl, holds_setEnsemble hk hreception⟩

theorem Fronts.connect_of_no_refusals (h : w.Fronts i ⟨settings, .ensemble k⟩ r)
    (hr : r.refusals = 0) (servers : String) (identity : Option String) :
    (w.connect k servers identity).1 = .ok ⟨k, r.opened.length + 1⟩ ∧
      (w.connect k servers identity).2.Fronts i ⟨settings, .ensemble k⟩ (r.welcome identity) ∧
      (w.connect k servers identity).2.Lives ⟨k, r.opened.length + 1⟩ := by
  obtain ⟨hl, e, hk, rfl⟩ := h
  obtain ⟨hopened, hreception, hlive⟩ := e.connect_of_no_refusals hr servers identity
  rw [connect_of_ok hk hopened]
  exact ⟨rfl, ⟨hl, holds_setEnsemble hk hreception⟩, holds_setEnsemble hk hlive⟩

end World

namespace Connecting

/-- What comes of attempts after `retries` retries, with `left` more allowed, and how those who
come next are received. -/
inductive Spends (settings : Settings) (k retries left : Nat) (r : Reception) :
    Except RegistryError SessionId → Reception → Prop
  | admitted (enough : r.refusals ≤ left) :
      Spends settings k retries left r (.ok ⟨k, r.opened.length + 1⟩)
        ⟨r.attempts + (r.refusals + 1), 0, r.opened ++ [settings.identity]⟩
  | exhausted (short : left < r.refusals) :
      Spends settings k retries left r
        (.error (.retriesExhausted settings.serverLists (retries + left + 1)
          (.connectionLoss s!"connection to {settings.serverLists} refused")))
        ⟨r.attempts + (left + 1), r.refusals - (left + 1), r.opened⟩

variable {meanwhile : World → World → Prop} {w : World} {i k retries left : Nat}
  {settings : Settings} {r r' : Reception} {result : Except RegistryError SessionId}

theorem spends_welcome (h : r.refusals = 0) :
    Spends settings k retries left r (.ok ⟨k, r.opened.length + 1⟩)
      (r.welcome settings.identity) := by
  have hwelcome : r.welcome settings.identity =
      ⟨r.attempts + (r.refusals + 1), 0, r.opened ++ [settings.identity]⟩ := by
    simp [Reception.welcome, h]
  rw [hwelcome]
  exact .admitted (by omega)

theorem spends_last (h : 0 < r.refusals) :
    Spends settings k retries 0 r
      (.error (.retriesExhausted settings.serverLists (retries + 1)
        (.connectionLoss s!"connection to {settings.serverLists} refused"))) r.refuse :=
  .exhausted h

/-- A refused attempt spends a retry and a refusal. -/
theorem Spends.retried (h : Spends settings k (retries + 1) left r.refuse result r')
    (hr : 0 < r.refusals) : Spends settings k retries (left + 1) r result r' := by
  cases h with
  | admitted enough =>
    have hspent : r.refuse.attempts + (r.refuse.refusals + 1) = r.attempts + (r.refusals + 1) := by
      simp only [Reception.refuse]
      omega
    rw [hspent]
    exact .admitted (Nat.le_add_of_sub_le enough)
  | exhausted short =>
    have hattempts : r.refuse.attempts + (left + 1) = r.attempts + (left + 1 + 1) := by
      simp only [Reception.refuse]
      omega
    have hrefusals : r.refuse.refusals - (left + 1) = r.refusals - (left + 1 + 1) := by
      simp only [Reception.refuse]
      omega
    rw [hattempts, hrefusals, Nat.add_right_comm retries 1 left]
    exact .exhausted (Nat.lt_sub_iff_add_lt.1 short)

def Delivers (meanwhile : World → World → Prop) (result : Except RegistryError SessionId)
    (w : World) : Prop :=
  ∀ s, result = .ok s → Stable meanwhile (·.Lives s) → w.Lives s

def Concludes (meanwhile : World → World → Prop) (i : Nat) (settings : Settings)
    (k retries left : Nat) (r : Reception) (result : Except RegistryError SessionId)
    (w : World) : Prop :=
  ∃ r', Spends settings k retries left r result r' ∧ w.Fronts i ⟨settings, .ensemble k⟩ r' ∧
    Delivers meanwhile result w

section Quiet

variable (hquiet : ∀ w w', meanwhile w w' → w.Unapproached i w')

include hquiet

theorem ends_attempt_admitted {again : ServiceError → Task (Except RegistryError SessionId)}
    (hw : w.Fronts i ⟨settings, .ensemble k⟩ r) (hr : r.refusals = 0) :
    Ends meanwhile (Concludes meanwhile i settings k retries left r) w
      (attempt k settings retries again) := by
  refine Task.ends_perform (World.stable_fronts hquiet _ r) hw fun w hw => ?_
  obtain ⟨hok, hfronts, hlive⟩ :=
    hw.connect_of_no_refusals hr settings.serverLists settings.identity
  rw [hok]
  have hP : Stable meanwhile fun w =>
      w.Fronts i ⟨settings, .ensemble k⟩ (r.welcome settings.identity) ∧
        Delivers meanwhile (.ok ⟨k, r.opened.length + 1⟩) w :=
    (World.stable_fronts hquiet _ _).and fun w w' h hw s hs hstable =>
      hstable w w' (h s hs hstable) hw
  refine Task.ends_tell hP ⟨hfronts, fun s hs _ => Except.ok.inj hs ▸ hlive⟩ fun w hw => ?_
  exact .done ⟨_, spends_welcome hr, hw⟩

theorem ends_attempt_refused {post : Except RegistryError SessionId → World → Prop}
    {again : ServiceError → Task (Except RegistryError SessionId)}
    (hw : w.Fronts i ⟨settings, .ensemble k⟩ r) (hr : 0 < r.refusals)
    (hagain : ∀ w, w.Fronts i ⟨settings, .ensemble k⟩ r.refuse → Ends meanwhile post w
      (again (.connectionLoss s!"connection to {settings.serverLists} refused"))) :
    Ends meanwhile post w (attempt k settings retries again) := by
  refine Task.ends_perform (World.stable_fronts hquiet _ r) hw fun w hw => ?_
  obtain ⟨herror, hfronts⟩ := hw.connect_of_refusals hr settings.serverLists settings.identity
  rw [herror]
  exact hagain _ hfronts

theorem ends_attempts (draws : Nat → Nat) (hw : w.Fronts i ⟨settings, .ensemble k⟩ r) :
    Ends meanwhile (Concludes meanwhile i settings k retries left r) w
      (attempts k settings draws retries left) := by
  -- each retry goes on with one refusal and one retry less, so both are left open
  induction left generalizing w r retries with
  | zero =>
    rcases Nat.eq_zero_or_pos r.refusals with hr | hr
    · exact ends_attempt_admitted hquiet hw hr
    · refine ends_attempt_refused hquiet hw hr fun w hw => .done ⟨_, spends_last hr, hw, ?_⟩
      rintro s ⟨⟩
  | succ left ih =>
    rcases Nat.eq_zero_or_pos r.refusals with hr | hr
    · exact ends_attempt_admitted hquiet hw hr
    · refine ends_attempt_refused hquiet hw hr fun w hw => ?_
      have hstable := World.stable_fronts hquiet ⟨settings, .ensemble k⟩ r.refuse
      refine Task.ends_tell hstable hw fun w hw => ?_
      refine Task.ends_pause hstable (hw.note _) fun w hw => (ih hw).weaken ?_
      rintro result w ⟨r', hspends, hrest⟩
      exact ⟨r', hspends.retried hr, hrest⟩

theorem ends_connect_attempts (draws : Nat → Nat) {l : Connector} (hw : w.Fronts i l r) :
    Ends meanwhile (fun result w => ∃ k, (∀ j, l.backend = .ensemble j → k = j) ∧
        Concludes meanwhile i l.settings k 0 (min l.settings.maxRetries retryLimit) r result w) w
      (connect i draws) := by
  refine Task.ends_perform (World.stable_fronts hquiet l r) hw fun w hw => ?_
  obtain ⟨k, hk, hok, hfronts⟩ := hw.resolve
  rw [hok]
  have hstable := World.stable_fronts hquiet ⟨l.settings, .ensemble k⟩ r
  refine Task.ends_look hstable hfronts fun w hw => ?_
  rw [show ((w.connectors[i]?).map Connector.settings).getD {} = l.settings by
    rw [hw.1]; rfl]
  have hattempts (v : World) (hv : v.Fronts i ⟨l.settings, .ensemble k⟩ r) :
      Ends meanwhile (fun result w => ∃ k, (∀ j, l.backend = .ensemble j → k = j) ∧
          Concludes meanwhile i l.settings k 0 (min l.settings.maxRetries retryLimit) r result w) v
        (attempts k l.settings draws 0 l.settings.backoff.maxRetries) :=
    (ends_attempts hquiet draws hv).weaken fun _ _ hconcludes => ⟨k, hk, hconcludes⟩
  dsimp only
  split_ifs
  · exact Task.ends_tell hstable hw fun w hw => hattempts _ (hw.note _)
  · exact hattempts _ hw

end Quiet

/-- A connector that may retry `m` times opens a session at the first attempt that is not refused,
or gives up when `m + 1` attempts were. -/
theorem connect_within_budget {l : Connector} {m : Nat} (draws : Nat → Nat)
    (hquiet : ∀ w w', meanwhile w w' → w.Unapproached i w') (hw : w.Fronts i l r)
    (hm : m = min l.settings.maxRetries 29) :
    Ends meanwhile (fun result v => ∃ k e,
        (∀ j, l.backend = .ensemble j → k = j) ∧
        v.connectors[i]? = some ⟨l.settings, .ensemble k⟩ ∧ v.ensembles[k]? = some e ∧
        if r.refusals ≤ m then
          result = .ok ⟨k, r.opened.length + 1⟩ ∧
          e.reception =
            ⟨r.attempts + (r.refusals + 1), 0, r.opened ++ [l.settings.identity]⟩ ∧
          (Stable meanwhile (·.Lives ⟨k, r.opened.length + 1⟩) →
            e.phase (r.opened.length + 1) = .live)
        else
          result = .error (.retriesExhausted l.settings.serverLists (m + 1)
            (.connectionLoss s!"connection to {l.settings.serverLists} refused")) ∧
          e.reception = ⟨r.attempts + (m + 1), r.refusals - (m + 1), r.opened⟩) w
      (connect i draws) := by
  subst hm
  refine (ends_connect_attempts hquiet draws hw).weaken ?_
  rintro result v ⟨k, hk, r', hspends, ⟨hl, e, he, hreception⟩, hdelivers⟩
  refine ⟨k, e, hk, hl, he, ?_⟩
  cases hspends with
  | admitted enough =>
    rw [if_pos (show r.refusals ≤ min l.settings.maxRetries 29 from enough)]
    refine ⟨rfl, hreception, fun hstable => ?_⟩
    obtain ⟨e', he', hlive⟩ := hdelivers _ rfl hstable
    obtain rfl : e' = e := Option.some.inj (he'.symm.trans he)
    exact hlive
  | exhausted short =>
    rw [if_neg (show ¬r.refusals ≤ min l.settings.maxRetries 29 from Nat.not_le.2 short)]
    refine ⟨?_, hreception⟩
    rw [Nat.zero_add]
    rfl

def reluctant (refusals retries : Nat) : World where
  ensembles := [{ faults := { failingConnects := refusals } }]
  connectors := [⟨{ serverLists := "memory:local", maxRetries := retries }, .ensemble 0⟩]

/-- Three retries get over two refusals. Of all the retries that can be asked for 29 are granted,
too few for as many refusals, whatever those do who are connected. -/
theorem connect_within_budget_reluctant :
    (∃ v e, Task.Execution World.later (reluctant 2 3) (connect 0 fun _ => 0) v
        (.done (.ok ⟨0, 1⟩)) ∧
      v.ensembles[0]? = some e ∧ e.reception = ⟨3, 0, [none]⟩ ∧ e.phase 1 = .live) ∧
    Ends (World.Stirring Ensemble.Unapproached) (fun result v => ∃ e,
        result = .error (.retriesExhausted "memory:local" 30
          (.connectionLoss "connection to memory:local refused")) ∧
        v.ensembles[0]? = some e ∧ e.reception = ⟨30, 4294967265, []⟩)
      (reluctant 4294967295 4294967295) (connect 0 fun _ => 0) := by
  have hfronts (refusals retries : Nat) : (reluctant refusals retries).Fronts 0
      ⟨{ serverLists := "memory:local", maxRetries := retries }, .ensemble 0⟩ ⟨0, refusals, []⟩ :=
    ⟨rfl, _, rfl, rfl⟩
  constructor
  · have hquiet (w w' : World) (hw : w.later w') : w.Unapproached 0 w' := by
      obtain ⟨ms, rfl⟩ := hw
      exact ⟨rfl, fun _ he => ⟨_, he, .refl _⟩⟩
    have hends := connect_within_budget (fun _ => 0) hquiet (hfronts 2 3) (m := 3) rfl
    obtain ⟨v, result, hexec, k, e, hk, -, he, hpost⟩ := hends.exists_execution fun w due =>
      ⟨{ w with now := w.now + due }, ⟨due, rfl⟩, Nat.le_add_left ..⟩
    obtain rfl := hk 0 rfl
    obtain ⟨rfl, hreception, hlive⟩ := hpost
    refine ⟨v, e, hexec, he, hreception, hlive ?_⟩
    rintro w w' hlives ⟨ms, rfl⟩
    exact hlives
  · refine (connect_within_budget (fun _ => 0)
      (fun w w' hw => World.unapproached_of_stirring hw 0) (hfronts 4294967295 4294967295)
      (m := 29) rfl).weaken ?_
    rintro result v ⟨k, e, hk, -, he, hpost⟩
    obtain rfl := hk 0 rfl
    exact ⟨e, hpost.1, he, hpost.2⟩

end Connecting

end KeyRegistry
