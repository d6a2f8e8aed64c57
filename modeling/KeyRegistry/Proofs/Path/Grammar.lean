import KeyRegistry.Proofs.Path.Names

/-!
# The grammar of paths

A text is found to have no fault exactly if it is the root or is spelled by segments, and it is
spelled in one way. Parent, node name and join take the last segment off and put it back.
-/

namespace KeyRegistry.Path

variable {s p : String} {ss ss' : List String}

/-- The rules for a segment, none of them said through the check. -/
structure IsSegment (s : String) : Prop where
  nonempty : s ≠ ""
  undivided : '/' ∉ s.toList
  /-- No character is of the general category `Cc`. -/
  printable : ∀ c ∈ s.toList, ¬(c.toNat < 0x20 ∨ (0x7f ≤ c.toNat ∧ c.toNat ≤ 0x9f))
  proper : s ≠ "." ∧ s ≠ ".."

/-- One segment or more, each behind a separator. -/
structure Spells (ss : List String) (p : String) : Prop where
  nonempty : ss ≠ []
  segments : ∀ s ∈ ss, IsSegment s
  eq : p = String.join (ss.map ("/" ++ ·))

theorem isSegment_iff_isName : IsSegment s ↔ IsName s := by
  have hempty : s = "" ↔ s.toList = [] := by rw [← String.toList_inj]; rfl
  have hdot : s = "." ↔ s.toList = ['.'] := by rw [← String.toList_inj]; rfl
  have hdots : s = ".." ↔ s.toList = ['.', '.'] := by rw [← String.toList_inj]; rfl
  have hcontrol : s.toList.any Text.isControl = false ↔
      ∀ c ∈ s.toList, ¬(c.toNat < 0x20 ∨ (0x7f ≤ c.toNat ∧ c.toNat ≤ 0x9f)) := by
    simp only [List.any_eq_false, Text.isControl_iff]
  constructor
  · rintro ⟨hnonempty, hundivided, hprintable, hproper⟩
    rw [Ne, hempty] at hnonempty
    rw [Ne, Ne, hdot, hdots, ← not_or] at hproper
    rw [← hcontrol, ← Bool.not_eq_true] at hprintable
    exact ⟨by rw [segmentFault?, if_neg hnonempty, if_neg hproper, if_neg hprintable], hundivided⟩
  · rintro ⟨hfault, hundivided⟩
    unfold segmentFault? at hfault
    split_ifs at hfault with hnonempty hproper hprintable
    rw [Bool.not_eq_true, hcontrol] at hprintable
    rw [← hempty] at hnonempty
    rw [← hdot, ← hdots, not_or] at hproper
    exact ⟨hnonempty, hundivided, hprintable, hproper⟩

theorem join_eq_ofNames (h : ss ≠ []) : String.join (ss.map ("/" ++ ·)) = ofNames ss := by
  apply String.toList_inj.1
  rw [toList_ofNames h, spell, String.toList_join, List.flatMap_map]
  congr
  funext s
  rw [String.toList_append]
  rfl

theorem spells_iff : Spells ss p ↔ ss ≠ [] ∧ (∀ n ∈ ss, IsName n) ∧ p = ofNames ss := by
  constructor
  · rintro ⟨hne, hss, rfl⟩
    exact ⟨hne, fun n hn => isSegment_iff_isName.1 (hss n hn), join_eq_ofNames hne⟩
  · rintro ⟨hne, hss, rfl⟩
    exact ⟨hne, fun s hs => isSegment_iff_isName.2 (hss s hs), (join_eq_ofNames hne).symm⟩

/-- The segments that spell a text can be read off it, and the root is spelled by none. -/
theorem Spells.unique (h : Spells ss p) (h' : Spells ss' p) : ss = ss' := by
  obtain ⟨-, hss, rfl⟩ := spells_iff.1 h
  obtain ⟨-, hss', heq⟩ := spells_iff.1 h'
  exact ofNames_injective hss hss' heq

theorem Spells.ne_root (h : Spells ss p) : p ≠ root := by
  obtain ⟨hne, hss, rfl⟩ := spells_iff.1 h
  exact ofNames_ne_root hss hne

theorem valid_iff_spells : Valid p ↔ p = root ∨ ∃ ss, Spells ss p := by
  rw [valid_iff_exists_names]
  constructor
  · rintro ⟨ns, hns, rfl⟩
    by_cases hne : ns = []
    · exact .inl (hne ▸ ofNames_nil)
    · exact .inr ⟨ns, spells_iff.2 ⟨hne, hns, rfl⟩⟩
  · rintro (rfl | ⟨ss, hspells⟩)
    · exact ⟨[], by simp, rfl⟩
    · exact ⟨ss, (spells_iff.1 hspells).2⟩

/-- A text has no fault exactly if it is the root or is spelled by segments, which are then unique;
the root is not spelled. A segment that is joined to a path makes a path with this parent and this
node name, and any path but the root is the join of its parent, which is a path, and its node
name, which is a segment. -/
theorem faultless_iff_spelled :
    (∀ p, fault? p = none ↔ p = "/" ∨ ∃ ss, Spells ss p) ∧
    (∀ p ss ss', Spells ss p → Spells ss' p → ss = ss') ∧ (∀ ss, ¬Spells ss "/") ∧
    (∀ q s, fault? q = none → IsSegment s →
      fault? (join q s) = none ∧ parent? (join q s) = some q ∧ nodeName (join q s) = s) ∧
    ∀ p, fault? p = none → p ≠ "/" →
      ∃ q, parent? p = some q ∧ fault? q = none ∧ IsSegment (nodeName p) ∧
        join q (nodeName p) = p := by
  refine ⟨fun p => valid_iff_spells, fun p ss ss' => Spells.unique,
    fun ss hss => hss.ne_root rfl, fun q s hq hs => ?_, fun p hp hr => ?_⟩
  · have hn := isSegment_iff_isName.1 hs
    exact ⟨valid_join hq hn, parent?_join hq hn, nodeName_join hq hn⟩
  · obtain ⟨q, n, hq, hn, hparent, rfl, hjoin⟩ := exists_parent_name hp hr
    exact ⟨q, hparent, hq, isSegment_iff_isName.2 hn, hjoin⟩

/-- Names with dots and blanks are segments, and a no-break space is no control character. -/
theorem faultless_iff_spelled_dotted :
    Spells ["...", "\u00a0", " "] "/.../\u00a0/ " ∧ fault? "/.../\u00a0/ " = none ∧
    (∀ ss, Spells ss "/.../\u00a0/ " → ss = ["...", "\u00a0", " "]) ∧
    (∃ q, parent? "/.../\u00a0/ " = some q ∧ join q " " = "/.../\u00a0/ ") ∧
    ¬∃ ss, Spells ss "/a/\u0085" := by
  have hsegments : ∀ s ∈ ["...", "\u00a0", " "], IsName s := by decide
  have hspells : Spells ["...", "\u00a0", " "] "/.../\u00a0/ " :=
    spells_iff.2 ⟨by decide, hsegments, by decide⟩
  obtain ⟨hiff, hunique, -, -, hparent⟩ := faultless_iff_spelled
  have hvalid := (hiff "/.../\u00a0/ ").2 (.inr ⟨_, hspells⟩)
  obtain ⟨q, hq, -, -, hjoin⟩ := hparent _ hvalid (by decide)
  refine ⟨hspells, hvalid, fun ss hss => hunique _ _ _ hss hspells, ⟨q, hq, ?_⟩, fun hss => ?_⟩
  · rwa [show nodeName "/.../\u00a0/ " = " " by decide] at hjoin
  · have hfault := (hiff "/a/\u0085").2 (.inr hss)
    rw [show fault? "/a/\u0085" = some .controlCharacter by decide] at hfault
    cases hfault

end KeyRegistry.Path
