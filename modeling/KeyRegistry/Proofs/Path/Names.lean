import KeyRegistry.Path
import Mathlib.Data.List.Basic
import Mathlib.Data.List.Induction
import Mathlib.Tactic.Common

/-!
# Paths as sequences of names

A valid path is the spelling of exactly one sequence of names. The parent drops
the last name, the node name is the last name, and joining appends one.
-/

namespace KeyRegistry.Path

def IsName (n : String) : Prop :=
  segmentFault? n.toList = none ∧ separator ∉ n.toList

instance (n : String) : Decidable (IsName n) :=
  inferInstanceAs (Decidable (_ ∧ _))

def spell (ns : List String) : List Char :=
  ns.flatMap fun n => separator :: n.toList

def ofNames (ns : List String) : String :=
  if ns = [] then root else String.ofList (spell ns)

@[simp] theorem spell_nil : spell [] = [] := rfl

@[simp] theorem spell_cons (n : String) (ns : List String) :
    spell (n :: ns) = separator :: n.toList ++ spell ns := rfl

@[simp] theorem spell_append (ms ns : List String) : spell (ms ++ ns) = spell ms ++ spell ns := by
  simp [spell]

@[simp] theorem ofNames_nil : ofNames [] = root := rfl

theorem toList_root : root.toList = [separator] := by decide

theorem toList_ofNames {ns : List String} (h : ns ≠ []) : (ofNames ns).toList = spell ns := by
  simp [ofNames, h]

theorem IsName.toList_ne_nil {n : String} (h : IsName n) : n.toList ≠ [] := by
  intro he
  simp [IsName, he, segmentFault?] at h

theorem ofNames_ne_root {ns : List String} (hn : ∀ n ∈ ns, IsName n) (h : ns ≠ []) :
    ofNames ns ≠ root := by
  obtain ⟨n, ns, rfl⟩ := List.exists_cons_of_ne_nil h
  intro he
  have ht : separator :: n.toList ++ spell ns = [separator] := by
    rw [← spell_cons, ← toList_ofNames h, he, toList_root]
  have hne := (hn n (by simp)).toList_ne_nil
  simp_all

/-! ## Pieces -/

theorem spell_pieces (r : List Char) : spell ((pieces r).map String.ofList) = separator :: r := by
  induction r with
  | nil => rfl
  | cons c r ih =>
    unfold pieces
    split_ifs with hc
    · simp [ih, hc]
    · split
      · simp_all
      · rename_i p ps hp
        simp_all

theorem separator_notMem_of_mem_pieces {r p : List Char} (h : p ∈ pieces r) : separator ∉ p := by
  induction r generalizing p with
  | nil => simp_all [pieces]
  | cons c r ih =>
    unfold pieces at h
    split_ifs at h with hc
    · rcases List.mem_cons.1 h with rfl | h
      · simp
      · exact ih h
    · split at h
      · rw [List.mem_singleton.1 h]
        simpa using Ne.symm hc
      · rename_i q qs hq
        rcases List.mem_cons.1 h with rfl | h
        · have hq' : separator ∉ q := ih (by simp [hq])
          simpa [hq'] using Ne.symm hc
        · exact ih (by simp [hq, h])

theorem pieces_of_notMem {p : List Char} (h : separator ∉ p) : pieces p = [p] := by
  induction p with
  | nil => rfl
  | cons c p ih =>
    obtain ⟨hc, hp⟩ := not_or.1 (mt List.mem_cons.2 h)
    simp [pieces, Ne.symm hc, ih hp]

theorem pieces_append_separator {p : List Char} (h : separator ∉ p) (r : List Char) :
    pieces (p ++ separator :: r) = p :: pieces r := by
  induction p with
  | nil => simp [pieces]
  | cons c p ih =>
    obtain ⟨hc, hp⟩ := not_or.1 (mt List.mem_cons.2 h)
    simp [pieces, Ne.symm hc, ih hp]

theorem pieces_spell {n : String} {ns : List String} (h : ∀ m ∈ n :: ns, IsName m) :
    pieces (n.toList ++ spell ns) = (n :: ns).map String.toList := by
  induction ns generalizing n with
  | nil => simpa using pieces_of_notMem (h n (by simp)).2
  | cons m ns ih =>
    have hm := ih (n := m) fun k hk => h k (by simp_all)
    simp only [spell_cons, List.cons_append]
    rw [pieces_append_separator (h n (by simp)).2, hm]
    rfl

/-! ## Validity -/

theorem getLast?_ne_separator {n : String} {ns : List String} (h : ∀ m ∈ n :: ns, IsName m) :
    (n.toList ++ spell ns).getLast? ≠ some separator := by
  induction ns generalizing n with
  | nil =>
    intro he
    have hmem := List.mem_of_getLast? he
    simp only [spell_nil, List.append_nil] at hmem
    exact (h n (by simp)).2 hmem
  | cons m ns ih =>
    have hm := ih (n := m) fun k hk => h k (by simp_all)
    have hne := (h m (by simp)).toList_ne_nil
    have hcons : (separator :: (m.toList ++ spell ns)).getLast? =
        (m.toList ++ spell ns).getLast? := by
      obtain ⟨c, cs, hcs⟩ := List.exists_cons_of_ne_nil hne
      rw [hcs, List.cons_append, List.getLast?_cons_cons]
    intro he
    rw [spell_cons, List.cons_append, List.getLast?_append, hcons] at he
    cases hg : (m.toList ++ spell ns).getLast? with
    | none => simp [hne] at hg
    | some c => simp_all

theorem valid_ofNames {ns : List String} (h : ∀ n ∈ ns, IsName n) : Valid (ofNames ns) := by
  cases ns with
  | nil => exact valid_root
  | cons n ns =>
    have hne := (h n (by simp)).toList_ne_nil
    have hlast := getLast?_ne_separator h
    have hp : ((pieces (n.toList ++ spell ns)).findSome? segmentFault?) = none := by
      rw [pieces_spell h, List.findSome?_eq_none_iff]
      intro s hs
      obtain ⟨m, hm, rfl⟩ := List.mem_map.1 hs
      exact (h m hm).1
    unfold Valid fault?
    rw [toList_ofNames (by simp), spell_cons, List.cons_append]
    dsimp only
    rw [if_neg (by simp), if_neg (by simp [hne]), if_neg hlast, hp]

theorem exists_names_of_valid {p : String} (h : Valid p) :
    ∃ ns, (∀ n ∈ ns, IsName n) ∧ p = ofNames ns := by
  unfold Valid fault? at h
  split at h
  · simp at h
  · rename_i c r hr
    split_ifs at h with hc hnil hlast
    · refine ⟨[], by simp, String.toList_inj.1 ?_⟩
      rw [hr, ofNames_nil, toList_root, hnil, not_not.1 hc]
    · refine ⟨(pieces r).map String.ofList, ?_, String.toList_inj.1 ?_⟩
      · intro n hn
        obtain ⟨s, hs, rfl⟩ := List.mem_map.1 hn
        have hnone := List.findSome?_eq_none_iff.1 h s hs
        exact ⟨by simpa using hnone, by simpa using separator_notMem_of_mem_pieces hs⟩
      · have hne : (pieces r).map String.ofList ≠ [] := by
          intro he
          have := spell_pieces r
          simp [he] at this
        rw [toList_ofNames hne, spell_pieces, hr, not_not.1 hc]

theorem valid_iff_exists_names {p : String} :
    Valid p ↔ ∃ ns, (∀ n ∈ ns, IsName n) ∧ p = ofNames ns :=
  ⟨exists_names_of_valid, fun ⟨_, hn, hp⟩ => hp ▸ valid_ofNames hn⟩

theorem ofNames_injective {ms ns : List String} (hm : ∀ n ∈ ms, IsName n)
    (hn : ∀ n ∈ ns, IsName n) (h : ofNames ms = ofNames ns) : ms = ns := by
  cases ms with
  | nil =>
    by_contra hne
    exact ofNames_ne_root hn (Ne.symm hne) h.symm
  | cons m ms =>
    cases ns with
    | nil => exact absurd h (ofNames_ne_root hm (by simp))
    | cons n ns =>
      have ht : m.toList ++ spell ms = n.toList ++ spell ns := by
        have := congrArg String.toList h
        simpa [toList_ofNames] using this
      have hp := congrArg pieces ht
      rw [pieces_spell hm, pieces_spell hn] at hp
      exact List.map_injective_iff.2 (fun _ _ => String.toList_inj.1) hp

/-! ## The last name -/

theorem beforeLast_of_notMem {s : List Char} (h : separator ∉ s) : beforeLast s = none := by
  induction s with
  | nil => rfl
  | cons c s ih =>
    obtain ⟨hc, hs⟩ := not_or.1 (mt List.mem_cons.2 h)
    simp [beforeLast, ih hs, Ne.symm hc]

theorem beforeLast_append_separator (a : List Char) {b : List Char} (h : separator ∉ b) :
    beforeLast (a ++ separator :: b) = some a := by
  induction a with
  | nil => simp [beforeLast, beforeLast_of_notMem h]
  | cons c a ih => simp [beforeLast, ih]

theorem afterLast_append_separator (a : List Char) {b : List Char} (h : separator ∉ b) :
    afterLast (a ++ separator :: b) = b := by
  induction a with
  | nil => simp [afterLast, h]
  | cons c a ih => simp [afterLast, ih]

theorem toList_ofNames_concat (ns : List String) (n : String) :
    (ofNames (ns ++ [n])).toList = spell ns ++ separator :: n.toList := by
  rw [toList_ofNames (by simp)]
  simp

theorem ofNames_concat_ne_root (ns : List String) {n : String} (hn : IsName n) :
    ofNames (ns ++ [n]) ≠ root := by
  intro he
  have ht := congrArg String.toList he
  have hne := hn.toList_ne_nil
  rw [toList_ofNames_concat, toList_root] at ht
  cases hs : spell ns <;> simp_all

theorem parent?_ofNames_concat (ns : List String) {n : String} (hn : IsName n) :
    parent? (ofNames (ns ++ [n])) = some (ofNames ns) := by
  unfold parent?
  rw [if_neg (ofNames_concat_ne_root ns hn), toList_ofNames_concat,
    beforeLast_append_separator _ hn.2]
  cases ns with
  | nil => rfl
  | cons m ns => simp [ofNames]

theorem nodeName_ofNames_concat (ns : List String) {n : String} (hn : IsName n) :
    nodeName (ofNames (ns ++ [n])) = n := by
  unfold nodeName
  rw [toList_ofNames_concat, afterLast_append_separator _ hn.2, String.ofList_toList]

theorem join_ofNames {ns : List String} (hns : ∀ m ∈ ns, IsName m) (n : String) :
    join (ofNames ns) n = ofNames (ns ++ [n]) := by
  apply String.toList_inj.1
  rw [toList_ofNames_concat]
  by_cases h : ns = []
  · simp [h, join, toList_root]
  · rw [join_of_ne_root (ofNames_ne_root hns h)]
    simp [toList_ofNames h, toList_root]

/-- A valid path other than the root is its parent joined with its last name. -/
theorem exists_parent_name {p : String} (h : Valid p) (hr : p ≠ root) :
    ∃ q n, Valid q ∧ IsName n ∧ parent? p = some q ∧ nodeName p = n ∧ join q n = p := by
  obtain ⟨ns, hns, rfl⟩ := exists_names_of_valid h
  rcases List.eq_nil_or_concat' ns with rfl | ⟨ms, n, rfl⟩
  · exact absurd rfl hr
  · have hms : ∀ m ∈ ms, IsName m := fun m hm => hns m (by simp [hm])
    have hn : IsName n := hns n (by simp)
    exact ⟨ofNames ms, n, valid_ofNames hms, hn, parent?_ofNames_concat ms hn,
      nodeName_ofNames_concat ms hn, join_ofNames hms n⟩

theorem valid_join {q n : String} (hq : Valid q) (hn : IsName n) : Valid (join q n) := by
  obtain ⟨ns, hns, rfl⟩ := exists_names_of_valid hq
  rw [join_ofNames hns]
  exact valid_ofNames (by simpa [or_imp, forall_and] using ⟨hns, hn⟩)

theorem parent?_join {q n : String} (hq : Valid q) (hn : IsName n) :
    parent? (join q n) = some q := by
  obtain ⟨ns, hns, rfl⟩ := exists_names_of_valid hq
  rw [join_ofNames hns, parent?_ofNames_concat ns hn]

theorem nodeName_join {q n : String} (hq : Valid q) (hn : IsName n) :
    nodeName (join q n) = n := by
  obtain ⟨ns, hns, rfl⟩ := exists_names_of_valid hq
  rw [join_ofNames hns, nodeName_ofNames_concat ns hn]

theorem join_ne_root {q n : String} (hq : Valid q) (hn : IsName n) : join q n ≠ root := by
  intro he
  have := parent?_join hq hn
  simp [he] at this

theorem parent?_eq_some_iff {p q : String} (hp : Valid p) :
    parent? p = some q ↔ Valid q ∧ IsName (nodeName p) ∧ join q (nodeName p) = p := by
  constructor
  · intro h
    by_cases hr : p = root
    · simp [hr] at h
    · obtain ⟨q', n, hq, hn, hpar, hname, hj⟩ := exists_parent_name hp hr
      obtain rfl : q' = q := by simpa [hpar] using h
      exact ⟨hq, hname ▸ hn, hname ▸ hj⟩
  · rintro ⟨hq, hn, hj⟩
    rw [← hj, parent?_join hq hn]

theorem join_injective {q q' n n' : String} (hq : Valid q) (hq' : Valid q') (hn : IsName n)
    (hn' : IsName n') (h : join q n = join q' n') : q = q' ∧ n = n' := by
  have hpar := congrArg parent? h
  have hname := congrArg nodeName h
  rw [parent?_join hq hn, parent?_join hq' hn'] at hpar
  rw [nodeName_join hq hn, nodeName_join hq' hn'] at hname
  exact ⟨Option.some.inj hpar, hname⟩

/-! ## From the root down, and up again -/

/-- Every path is the root or a child of a path. -/
theorem Valid.induction {motive : ∀ p, Valid p → Prop} (top : motive root valid_root)
    (child : ∀ q n (hq : Valid q) (hn : IsName n), motive q hq →
      motive (join q n) (valid_join hq hn)) {p : String} (hp : Valid p) : motive p hp := by
  obtain ⟨ns, hns, rfl⟩ := exists_names_of_valid hp
  induction ns using List.reverseRecOn with
  | nil => exact top
  | append_singleton ms m ih =>
    have hms : ∀ k ∈ ms, IsName k := fun k hk => hns k (by simp [hk])
    have hq := valid_ofNames hms
    have hjoin := child (ofNames ms) m hq (hns m (by simp)) (ih hms hq)
    simpa only [join_ofNames hms] using hjoin

theorem eq_append_of_beforeLast {r s : List Char} (h : beforeLast r = some s) :
    ∃ b, r = s ++ separator :: b := by
  induction r generalizing s with
  | nil => simp [beforeLast] at h
  | cons c r ih =>
    unfold beforeLast at h
    split at h
    · rename_i t ht
      obtain ⟨b, rfl⟩ := ih ht
      obtain rfl := Option.some.inj h
      exact ⟨b, rfl⟩
    · split_ifs at h with hc
      obtain rfl := Option.some.inj h
      exact ⟨r, by simp [hc]⟩

/-- A parent is shorter, also that of a text which is no path. -/
theorem length_lt_of_parent? {p q : String} (h : parent? p = some q) :
    q.toList.length < p.toList.length := by
  unfold parent? at h
  split_ifs at h with hr
  split at h
  · cases h
  · rename_i hb
    obtain ⟨b, hp⟩ := eq_append_of_beforeLast hb
    obtain rfl := Option.some.inj h
    have hne : b ≠ [] := by
      rintro rfl
      exact hr (String.toList_inj.1 (hp.trans toList_root.symm))
    simpa [hp, toList_root] using List.length_pos_of_ne_nil hne
  · rename_i s hs hb
    obtain ⟨b, hp⟩ := eq_append_of_beforeLast hb
    obtain rfl := Option.some.inj h
    simp [hp]

end KeyRegistry.Path
