import KeyRegistry.Proofs.Namespace.Place
import Mathlib.Data.Set.Function

/-!
# A namespace as an embedding

Whatever name it comes from, a namespace places the keys one to one on the paths within its
root, and takes parents and containment along. A full path is seen as the key that it is the
place of, and as no key if it lies elsewhere.
-/

namespace KeyRegistry.Namespace

open KeyRegistry.Path

variable {ns : Namespace} {name key p a b : String}

/-! ## The way back -/

theorem relativize_of_root (hr : ns.root = Path.root) (full : String) :
    ns.relativize full = some full := if_pos hr

theorem relativize_of_not_isWithin (hr : ns.root ≠ Path.root) (hw : isWithin ns.root p = false) :
    ns.relativize p = none := by
  simp only [isWithin, if_neg hr, Bool.or_eq_false_iff, beq_eq_false_iff_ne] at hw
  simp [relativize, hr, hw]

theorem place_of_root (hr : ns.root = Path.root) (key : String) : ns.place key = key := if_pos hr

section Named

variable (hname : ofName name = .ok ns)

include hname

theorem isWithin_place_of_ofName (ha : Valid a) (hb : Valid b) :
    isWithin (ns.place a) (ns.place b) = isWithin a b := by
  by_cases hr : ns.root = Path.root
  · rw [place_of_root hr, place_of_root hr]
  · exact isWithin_place_iff (proper_of_ne_root hname hr) ha hb

theorem isWithin_root_place_of_ofName (hk : Valid key) :
    isWithin ns.root (ns.place key) = true := by
  by_cases hr : ns.root = Path.root
  · rw [hr, place_of_root hr]
    exact isWithin_root hk
  · exact isWithin_root_place (proper_of_ne_root hname hr) hk

theorem exists_key_of_ofName (hp : Valid p) (hw : isWithin ns.root p = true) :
    ∃ key, Valid key ∧ ns.place key = p := by
  by_cases hr : ns.root = Path.root
  · exact ⟨p, hp, place_of_root hr p⟩
  · exact exists_key_of_isWithin (proper_of_ne_root hname hr) hp hw

theorem parent?_place_of_ofName (hk : Valid key) (hr : key ≠ Path.root) :
    parent? (ns.place key) = (parent? key).map ns.place := by
  by_cases hroot : ns.root = Path.root
  · have hplace : ns.place = id := funext (place_of_root hroot)
    rw [hplace, Option.map_id]
    rfl
  · exact parent?_place (proper_of_ne_root hname hroot) hk hr

theorem relativize_place_of_ofName (hk : Valid key) : ns.relativize (ns.place key) = some key := by
  by_cases hr : ns.root = Path.root
  · rw [place_of_root hr, relativize_of_root hr]
  · exact relativize_place (proper_of_ne_root hname hr) hk

/-- The places of the keys are the paths within the root. -/
theorem bijOn_place :
    Set.BijOn ns.place {key | Valid key} {p | Valid p ∧ isWithin ns.root p = true} where
  left _ hk := ⟨valid_place_of_ofName hname hk, isWithin_root_place_of_ofName hname hk⟩
  right := ⟨fun _ ha _ hb hab => place_injective_of_ofName hname ha hb hab,
    fun _ hp => exists_key_of_ofName hname hp.1 hp.2⟩

theorem relativize_eq_some_iff (hp : Valid p) :
    ns.relativize p = some key ↔ Valid key ∧ ns.place key = p := by
  constructor
  · intro h
    by_cases hw : isWithin ns.root p = true
    · obtain ⟨k, hk, rfl⟩ := exists_key_of_ofName hname hp hw
      rw [relativize_place_of_ofName hname hk] at h
      obtain rfl := Option.some.inj h
      exact ⟨hk, rfl⟩
    · rw [Bool.not_eq_true] at hw
      by_cases hr : ns.root = Path.root
      · rw [hr, isWithin_root hp] at hw
        cases hw
      · rw [relativize_of_not_isWithin hr hw] at h
        cases h
  · rintro ⟨hk, rfl⟩
    exact relativize_place_of_ofName hname hk

theorem relativize_eq_none_iff (hp : Valid p) :
    ns.relativize p = none ↔ isWithin ns.root p = false := by
  rw [← Bool.not_eq_true, Option.eq_none_iff_forall_ne_some]
  constructor
  · intro h hw
    obtain ⟨k, hk, rfl⟩ := exists_key_of_ofName hname hp hw
    exact h k (relativize_place_of_ofName hname hk)
  · intro hw k h
    obtain ⟨hk, rfl⟩ := (relativize_eq_some_iff hname hp).1 h
    exact hw (isWithin_root_place_of_ofName hname hk)

end Named

/-- Keys resolve one to one to the valid paths within the root, and texts that are no keys do
not resolve. A valid path is seen as the key that resolves to it, and as no key exactly if it is
not within the root. Parents and containment of keys are those of what they resolve to. -/
theorem resolve_embeds (hname : ofName name = .ok ns) :
    (∀ key p, ns.resolve key = .ok p ↔ Valid key ∧ p = ns.place key) ∧
    Set.BijOn ns.place {key | Valid key} {p | Valid p ∧ isWithin ns.root p = true} ∧
    (∀ p, Valid p →
      (∀ key, ns.relativize p = some key ↔ Valid key ∧ ns.resolve key = .ok p) ∧
      (ns.relativize p = none ↔ isWithin ns.root p = false)) ∧
    (∀ a, Valid a → a ≠ Path.root → ∃ q, Valid q ∧ parent? a = some q ∧
      parent? (ns.place a) = some (ns.place q)) ∧
    ∀ a b, Valid a → Valid b → isWithin (ns.place a) (ns.place b) = isWithin a b := by
  have hresolve (key p : String) : ns.resolve key = .ok p ↔ Valid key ∧ p = ns.place key := by
    rcases resolve_cases ns key with ⟨hk, heq⟩ | ⟨hk, fault, heq⟩ <;> rw [heq]
    · simp [hk, eq_comm]
    · simp [hk]
  refine ⟨hresolve, bijOn_place hname, fun p hp => ⟨fun key => ?_, ?_⟩, fun a ha hr => ?_,
    fun a b => isWithin_place_of_ofName hname⟩
  · rw [relativize_eq_some_iff hname hp, hresolve, eq_comm (a := p), and_self_left]
  · exact relativize_eq_none_iff hname hp
  · obtain ⟨q, n, hq, -, hparent, -⟩ := exists_parent_name ha hr
    exact ⟨q, hq, hparent, by rw [parent?_place_of_ofName hname ha hr, hparent, Option.map_some]⟩

/-- A root of two segments, whose name is surrounded by separators. -/
theorem resolve_embeds_nested :
    ofName "/a/b/" = .ok ⟨"/a/b"⟩ ∧
    (⟨"/a/b"⟩ : Namespace).relativize "/a/b/c" = some "/c" ∧
    (⟨"/a/b"⟩ : Namespace).relativize "/a/bc" = none ∧
    parent? ((⟨"/a/b"⟩ : Namespace).place "/c") = some "/a/b" := by
  have hname : ofName "/a/b/" = .ok ⟨"/a/b"⟩ := by decide
  obtain ⟨-, -, hback, hparents, -⟩ := resolve_embeds hname
  obtain ⟨q, -, hq, hparent⟩ := hparents "/c" (by decide) (by decide)
  obtain rfl : q = "/" := Option.some.inj (hq.symm.trans (by decide))
  exact ⟨hname, ((hback "/a/b/c" (by decide)).1 "/c").2 ⟨by decide, by decide⟩,
    (hback "/a/bc" (by decide)).2.2 (by decide), hparent⟩

end KeyRegistry.Namespace
