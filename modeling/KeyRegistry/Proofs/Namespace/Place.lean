import KeyRegistry.Namespace
import KeyRegistry.Proofs.Path.Containment

/-!
# Keys placed in a namespace

A namespace other than the whole tree puts the names of its root before those of
the key, so parents, names and containment of keys are those of their places.
-/

namespace KeyRegistry

open KeyRegistry.Path

namespace Namespace

structure Proper (ns : Namespace) : Prop where
  valid : Valid ns.root
  ne_root : ns.root ≠ Path.root

variable {ns : Namespace} {key a b : String}

/-- A name that is not empty makes a proper namespace. -/
theorem proper_of_ofName {name : String} (h : ofName name = .ok ns) (hname : trimmed name ≠ []) :
    ns.Proper := by
  unfold ofName at h
  split at h
  · rename_i hempty
    exact absurd hempty hname
  · rename_i cs _
    dsimp only at h
    split at h
    · cases h
    · rename_i hfault
      obtain rfl := Except.ok.inj h
      refine ⟨hfault, fun hroot => ?_⟩
      have hspelt : separator :: trimmed name = [separator] := by
        simpa [Path.root, separator] using congrArg String.toList hroot
      exact hname (List.cons.inj hspelt).2

theorem proper_of_ne_root {name : String} (h : ofName name = .ok ns) (hr : ns.root ≠ Path.root) :
    ns.Proper := by
  refine proper_of_ofName h fun hempty => hr ?_
  obtain rfl : ns = ⟨Path.root⟩ := by simpa [ofName, hempty, eq_comm] using h
  rfl

theorem resolve_cases (ns : Namespace) (key : String) :
    (Valid key ∧ ns.resolve key = .ok (ns.place key)) ∨
      (¬Valid key ∧ ∃ fault, ns.resolve key = .error fault) := by
  by_cases hk : Valid key
  · exact .inl ⟨hk, resolve_of_valid ns hk⟩
  · obtain ⟨fault, hf⟩ := Option.ne_none_iff_exists'.1 hk
    exact .inr ⟨hk, fault, (resolve_eq_error_iff ns key fault).2 hf⟩

theorem place_root (h : ns.Proper) : ns.place Path.root = ns.root := by
  simp [place, h.ne_root]

theorem place_ofNames (h : ns.root ≠ Path.root) {rs ks : List String} (hrs : ∀ n ∈ rs, IsName n)
    (hks : ∀ n ∈ ks, IsName n) (hroot : ns.root = ofNames rs) :
    ns.place (ofNames ks) = ofNames (rs ++ ks) := by
  have hrne : rs ≠ [] := by
    rintro rfl
    exact h hroot
  by_cases hk : ks = []
  · rw [hk, ofNames_nil, List.append_nil, ← hroot, place, if_neg h, if_pos rfl]
  · rw [place, if_neg h, if_neg (ofNames_ne_root hks hk), hroot]
    apply String.toList_inj.1
    rw [String.toList_append, toList_ofNames hrne, toList_ofNames hk,
      toList_ofNames (by simp [hrne]), spell_append]

/-- The names of a root and of a key, behind each other at the key's place. -/
theorem Proper.exists_names (h : ns.Proper) (hk : Valid key) :
    ∃ rs ks, (∀ n ∈ rs ++ ks, IsName n) ∧ ns.root = ofNames rs ∧ key = ofNames ks ∧
      ns.place key = ofNames (rs ++ ks) := by
  obtain ⟨rs, hrs, hroot⟩ := exists_names_of_valid h.valid
  obtain ⟨ks, hks, rfl⟩ := exists_names_of_valid hk
  exact ⟨rs, ks, List.forall_mem_append.2 ⟨hrs, hks⟩, hroot, rfl,
    place_ofNames h.ne_root hrs hks hroot⟩

theorem valid_place (h : ns.Proper) (hk : Valid key) : Valid (ns.place key) := by
  obtain ⟨rs, ks, hnames, -, -, hplace⟩ := h.exists_names hk
  exact hplace ▸ valid_ofNames hnames

theorem isWithin_place_iff (h : ns.Proper) (ha : Valid a) (hb : Valid b) :
    isWithin (ns.place a) (ns.place b) = isWithin a b := by
  obtain ⟨rs, as, has, hroot, rfl, hplace⟩ := h.exists_names ha
  obtain ⟨hrs, has⟩ := List.forall_mem_append.1 has
  obtain ⟨bs, hbs, rfl⟩ := exists_names_of_valid hb
  have hplace' := place_ofNames h.ne_root hrs hbs hroot
  rw [hplace, hplace', Bool.eq_iff_iff,
    isWithin_ofNames (List.forall_mem_append.2 ⟨hrs, has⟩) (List.forall_mem_append.2 ⟨hrs, hbs⟩),
    isWithin_ofNames has hbs, List.prefix_append_right_inj]

theorem isWithin_root_place (h : ns.Proper) (hk : Valid key) :
    isWithin ns.root (ns.place key) = true := by
  rw [← place_root h, isWithin_place_iff h valid_root hk, isWithin_root hk]

theorem place_injective (h : ns.Proper) (ha : Valid a) (hb : Valid b)
    (hab : ns.place a = ns.place b) : a = b := by
  refine isWithin_antisymm ha hb ?_ ?_
  · rw [← isWithin_place_iff h ha hb, hab]
    exact isWithin_refl (valid_place h hb)
  · rw [← isWithin_place_iff h hb ha, hab]
    exact isWithin_refl (valid_place h hb)

theorem place_ne_root (h : ns.Proper) (hk : Valid key) : ns.place key ≠ Path.root := by
  intro he
  have hw := isWithin_root_place h hk
  rw [he] at hw
  exact h.ne_root (isWithin_antisymm h.valid valid_root hw (isWithin_root h.valid))

theorem place_join (h : ns.Proper) (hk : Valid key) {n : String} (hn : IsName n) :
    ns.place (join key n) = join (ns.place key) n := by
  obtain ⟨rs, ks, hnames, hroot, rfl, hplace⟩ := h.exists_names hk
  obtain ⟨hrs, hks⟩ := List.forall_mem_append.1 hnames
  have hksn : ∀ m ∈ ks ++ [n], IsName m := List.forall_mem_append.2 ⟨hks, by simpa using hn⟩
  rw [hplace, join_ofNames hnames, join_ofNames hks, place_ofNames h.ne_root hrs hksn hroot,
    List.append_assoc]

theorem parent?_place (h : ns.Proper) (hk : Valid key) (hr : key ≠ Path.root) :
    parent? (ns.place key) = (parent? key).map ns.place := by
  obtain ⟨q, n, hq, hn, hpar, -, rfl⟩ := exists_parent_name hk hr
  rw [place_join h hq hn, parent?_join (valid_place h hq) hn, hpar, Option.map_some]

theorem nodeName_place (h : ns.Proper) (hk : Valid key) (hr : key ≠ Path.root) :
    nodeName (ns.place key) = nodeName key := by
  obtain ⟨q, n, hq, hn, -, hname, rfl⟩ := exists_parent_name hk hr
  rw [place_join h hq hn, nodeName_join (valid_place h hq) hn, hname]

theorem relativize_place (h : ns.Proper) (hk : Valid key) :
    ns.relativize (ns.place key) = some key := by
  unfold relativize
  rw [if_neg h.ne_root]
  by_cases hr : key = Path.root
  · rw [hr, place_root h, if_pos rfl]
  · have hhead : key.toList.head? = some separator := by
      simpa [isWithin] using isWithin_root hk
    obtain ⟨r, hkey⟩ : ∃ r, key.toList = separator :: r :=
      ⟨key.toList.tail, (List.cons_head?_tail hhead).symm⟩
    have hne : ns.place key ≠ ns.root := fun he => hr (place_injective h hk valid_root
      (he.trans (place_root h).symm))
    have hspelt : (ns.place key).toList = ns.root.toList ++ separator :: r := by
      rw [place, if_neg h.ne_root, if_neg hr, String.toList_append, hkey]
    rw [if_neg hne, if_pos (by simp [hspelt]), hspelt, List.drop_left, ← hkey,
      String.ofList_toList]

/-- The consumer sees the place of a key as the key. -/
theorem shown_place (h : ns.Proper) (hk : Valid key) : ns.shown (ns.place key) = key := by
  rw [shown, relativize_place h hk, Option.getD_some]

/-- Every path within the root is the place of a key. -/
theorem exists_key_of_isWithin (h : ns.Proper) {p : String} (hp : Valid p)
    (hw : isWithin ns.root p = true) : ∃ key, Valid key ∧ ns.place key = p := by
  obtain ⟨rs, hrs, hroot⟩ := exists_names_of_valid h.valid
  obtain ⟨ps, hps, rfl⟩ := exists_names_of_valid hp
  rw [hroot, isWithin_ofNames hrs hps] at hw
  obtain ⟨ks, rfl⟩ := hw
  have hks := (List.forall_mem_append.1 hps).2
  exact ⟨ofNames ks, valid_ofNames hks, place_ofNames h.ne_root hrs hks hroot⟩

theorem ancestors_place (h : ns.Proper) (hk : Valid key) :
    ancestors (ns.place key) = ancestors ns.root ++ (above key).map ns.place := by
  induction hk using Valid.induction with
  | top => simp [above_root, place_root h]
  | child q n hq hn ih =>
    rw [place_join h hq hn, ancestors_join (valid_place h hq) hn, if_neg (place_ne_root h hq),
      above_join hq hn, ih]
    simp

/-! ## Namespaces of a name, proper or not -/

theorem valid_place_of_ofName {name : String} (hname : ofName name = .ok ns) (hk : Valid key) :
    Valid (ns.place key) := by
  by_cases hr : ns.root = Path.root
  · simpa [place, hr] using hk
  · exact valid_place (proper_of_ne_root hname hr) hk

theorem place_injective_of_ofName {name : String} (hname : ofName name = .ok ns) (ha : Valid a)
    (hb : Valid b) (hab : ns.place a = ns.place b) : a = b := by
  by_cases hr : ns.root = Path.root
  · simpa [place, hr] using hab
  · exact place_injective (proper_of_ne_root hname hr) ha hb hab

end Namespace

end KeyRegistry
