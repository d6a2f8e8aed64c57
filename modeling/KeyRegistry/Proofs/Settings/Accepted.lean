import KeyRegistry.Proofs.Namespace.Place
import KeyRegistry.Proofs.Tree.Operations
import KeyRegistry.Settings

/-!
# Settings that pass the checks

What the checks leave standing, said at once, so that nobody has to walk through them again.
-/

namespace KeyRegistry

section Results

variable {ε ε' α β : Type}

theorem except_map_eq_ok {f : α → β} {x : Except ε α} {b : β} (h : x.map f = .ok b) :
    ∃ a, x = .ok a ∧ f a = b := by
  cases x with
  | error e => cases h
  | ok a => exact ⟨a, rfl, Except.ok.inj h⟩

theorem except_mapError_eq_ok {f : ε → ε'} {x : Except ε α} {a : α} (h : x.mapError f = .ok a) :
    x = .ok a := by
  cases x with
  | error e => cases h
  | ok a' => exact congrArg _ (Except.ok.inj h)

theorem guard_eq_ok_iff {p : Prop} [Decidable p] {x : Except ε α} {e : ε} {a : α} :
    (if p then .error e else x) = .ok a ↔ ¬p ∧ x = .ok a := by
  by_cases hp : p <;> simp [hp]

end Results

namespace Settings

variable {s : Settings}

structure Accepted (s : Settings) : Prop where
  servers : Text.hasInk s.serverLists.toList = true
  named : ∃ ns, s.namespaceOf = .ok ns
  sleeps : s.baseSleepMs ≤ s.maxSleepMs
  digest : ∀ d ∈ s.digest, d = "" ∨ ':' ∈ d.toList

theorem check_eq_ok_iff : s.check = .ok () ↔ Accepted s := by
  unfold check
  refine guard_eq_ok_iff.trans ?_
  rw [bind_eq_ok_iff]
  constructor
  · rintro ⟨hservers, ns, hnamed, h⟩
    obtain ⟨hsleeps, h⟩ := guard_eq_ok_iff.1 h
    refine ⟨by simpa using hservers, ⟨ns, hnamed⟩, not_lt.1 hsleeps, fun d hd => ?_⟩
    rw [show s.digest = some d from hd] at h
    obtain ⟨hdigest, -⟩ := guard_eq_ok_iff.1 h
    simpa [or_iff_not_imp_left] using hdigest
  · rintro ⟨hservers, ⟨ns, hnamed⟩, hsleeps, hdigest⟩
    refine ⟨by simpa using hservers, ns, hnamed, guard_eq_ok_iff.2 ⟨not_lt.2 hsleeps, ?_⟩⟩
    cases hd : s.digest with
    | none => rfl
    | some d =>
      refine guard_eq_ok_iff.2 ⟨?_, rfl⟩
      simpa [or_iff_not_imp_left] using hdigest d hd

/-- The name of a namespace that is accepted is that of a path. -/
theorem Accepted.exists_valid (h : Accepted s) :
    ∃ ns, s.namespaceOf = .ok ns ∧ Path.Valid ns.root := by
  obtain ⟨ns, hnamed⟩ := h.named
  have hplace : ns.place Path.root = ns.root := by
    by_cases hroot : ns.root = Path.root <;> simp [Namespace.place, hroot]
  exact ⟨ns, hnamed, hplace ▸ Namespace.valid_place_of_ofName (except_mapError_eq_ok hnamed)
    Path.valid_root⟩

end Settings

end KeyRegistry
