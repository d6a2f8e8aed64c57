import KeyRegistry.Proofs.Replica.Working
import Mathlib.Data.Finset.Card

/-!
# How many moves a filling takes

A reading comes to its end within four moves, and the levels of a filling lie one below the
other. So the moves of a filling are bounded by the number of paths that it can come upon, and
while none of its readings has failed there is a next one.
-/

namespace KeyRegistry

open KeyRegistry.Path

namespace Path

def depth (p : String) : Nat := (above p).length

theorem depth_join {q n : String} (hq : Valid q) (hn : IsName n) :
    depth (join q n) = depth q + 1 := by
  simp [depth, above_join hq hn]

end Path

def Reading.progress : Reading → Nat
  | .untouched => 0
  | .data _ => 1
  | .dataRead .. => 2
  | .children .. => 3
  | .finished _ | .failed _ => 4

theorem Reading.progress_le (r : Reading) : r.progress ≤ 4 := by
  cases r <;> simp [progress]

namespace Replica

variable {e e' : Ensemble} {s now n d : Nat} {a : String} {r r' : Reading}
  {notices : List Notice} {level : List (String × Reading)} {paths : Finset String}
  {found : List (String × Option (List UInt8 × Stat × List String))}

theorem Proceeds.progress_lt (h : Proceeds e e' s now a r r') : r.progress < r'.progress := by
  cases h with
  | failed same underway unfailed =>
    cases r with
    | finished => simp [Reading.isFinished] at underway
    | failed => simp [Reading.failure?] at unfailed
    | _ => simp [Reading.progress]
  | _ => simp [Reading.progress]

/-! ## There is a next move -/

/-- A reading that is neither over nor held up can move. -/
theorem exists_stepReading (hover : r.isFinished = false) (hfailed : r.failure? = none)
    (hdue : r.endsWait? now ≠ none) : ∃ x, stepReading now e s a r = some x := by
  cases r with
  | untouched | dataRead =>
    simp only [stepReading]
    split
    · exact ⟨_, rfl⟩
    · exact ⟨_, rfl⟩
  | data hold | children data stat hold =>
    simp only [Reading.endsWait?, ne_eq, ite_eq_left_iff, reduceCtorEq, imp_false, not_not] at hdue
    simp only [stepReading, if_neg hdue]
    split
    all_goals exact ⟨_, rfl⟩
  | finished => simp [Reading.isFinished] at hover
  | failed => simp [Reading.failure?] at hfailed

/-- Once the held-up calls of a filling may go on, every reading that is not over can move. -/
theorem endsWait?_of_dueTimes {m : Replica} {w : Worker} {stored : Nat} (hw : m.worker = some w)
    (hfilling : w.activity = .filling stored level) (hdue : ∀ due ∈ m.dueTimes, due ≤ now)
    (hmem : (a, r) ∈ level) (hover : r.isFinished = false) (hfailed : r.failure? = none) :
    r.endsWait? now ≠ none := by
  simp only [dueTimes, hw, hfilling] at hdue
  cases r with
  | untouched | dataRead => simp [Reading.endsWait?]
  | data hold | children data stat hold =>
    have hle := hdue hold.due (List.mem_filterMap.2 ⟨_, hmem, rfl⟩)
    simp [Reading.endsWait?, Nat.not_lt.2 hle]
  | finished => simp [Reading.isFinished] at hover
  | failed => simp [Reading.failure?] at hfailed

theorem exists_stepLevel {x : Reading × Ensemble × List Notice} (hmem : (a, r) ∈ level)
    (hstep : stepReading now e s a r = some x) : ∃ y, stepLevel now e s level = some y := by
  induction level with
  | nil => simp at hmem
  | cons first level ih =>
    obtain ⟨b, q⟩ := first
    cases hq : stepReading now e s b q with
    | some y =>
      simp only [stepLevel, hq]
      exact ⟨_, rfl⟩
    | none =>
      have hrest : (a, r) ∈ level := by
        rcases List.mem_cons.1 hmem with heq | hrest
        · obtain ⟨rfl, rfl⟩ := Prod.ext_iff.1 heq
          simp [hq] at hstep
        · exact hrest
      obtain ⟨y, hy⟩ := ih hrest
      simp only [stepLevel, hq, hy]
      exact ⟨_, rfl⟩

theorem exists_unfinished (h : finishedLevel level = none) :
    ∃ a r, (a, r) ∈ level ∧ r.isFinished = false := by
  induction level with
  | nil => simp [finishedLevel] at h
  | cons first level ih =>
    obtain ⟨a, r⟩ := first
    cases hr : r.isFinished with
    | false => exact ⟨a, r, List.mem_cons_self, hr⟩
    | true =>
      cases r <;> simp only [Reading.isFinished, Bool.false_eq_true] at hr
      obtain ⟨b, q, hmem, hq⟩ := ih (by simpa [finishedLevel] using h)
      exact ⟨b, q, List.mem_cons_of_mem _ hmem, hq⟩

/-! ## The moves of all levels -/

def progress : List (String × Reading) → Nat
  | [] => 0
  | (_, r) :: level => r.progress + progress level

theorem progress_append (level level' : List (String × Reading)) :
    progress (level ++ level') = progress level + progress level' := by
  induction level with
  | nil => simp [progress]
  | cons first level ih => simp [progress, ih, Nat.add_assoc]

theorem progress_le (level : List (String × Reading)) : progress level ≤ 4 * level.length := by
  induction level with
  | nil => simp [progress]
  | cons first level ih =>
    have hfirst := first.2.progress_le
    simp only [progress, List.length_cons]
    omega

theorem progress_lt_moved {before after : List (String × Reading)}
    (h : r.progress < r'.progress) :
    progress (before ++ (a, r) :: after) < progress (before ++ (a, r') :: after) := by
  simp only [progress_append, progress]
  omega

/-- The paths of the next level are different if those of this one are. -/
theorem nodup_nextLevel (hdistinct : (found.map Prod.fst).Nodup)
    (h : ∀ q data stat names, (q, some (data, stat, names)) ∈ found →
      Valid q ∧ names.Nodup ∧ ∀ c ∈ names, IsName c) :
    ((nextLevel found).map Prod.fst).Nodup := by
  induction found with
  | nil => simp [nextLevel]
  | cons first found ih =>
    obtain ⟨q, x⟩ := first
    obtain ⟨hnew, hdistinct⟩ := List.nodup_cons.1 hdistinct
    have ih := ih hdistinct fun q data stat names hmem => h q data stat names (.tail _ hmem)
    cases x with
    | none => simpa [nextLevel] using ih
    | some x =>
      obtain ⟨data, stat, names⟩ := x
      obtain ⟨hq, hnames, hall⟩ := h q data stat names List.mem_cons_self
      have hsplit : (nextLevel ((q, some (data, stat, names)) :: found)).map Prod.fst =
          names.map (join q) ++ (nextLevel found).map Prod.fst := by
        simp [nextLevel, Function.comp_def]
      rw [hsplit]
      refine List.Nodup.append ?_ ih ?_
      · exact (List.nodup_map_iff_inj_on hnames).2 fun b hb c hc heq =>
          (join_injective hq hq (hall b hb) (hall c hc) heq).2
      · intro p hp hp'
        obtain ⟨c, hc, rfl⟩ := List.mem_map.1 hp
        obtain ⟨⟨_, r⟩, hmem, rfl⟩ := List.mem_map.1 hp'
        obtain ⟨-, q', data', stat', names', hfound, c', hc', heq⟩ := mem_nextLevel.1 hmem
        obtain ⟨hq', -, hall'⟩ := h q' data' stat' names' (.tail _ hfound)
        obtain ⟨rfl, -⟩ := join_injective hq hq' (hall c hc) (hall' c' hc') heq
        exact hnew (List.mem_map.2 ⟨_, hfound, rfl⟩)

/-- A filling that has come to a level of some depth with `n` moves, and comes upon no others than
`paths`: there have been no more than five moves for each of the paths above. -/
structure Paced (paths : Finset String) (level : List (String × Reading)) (n d : Nat) : Prop where
  known {a : String} {r : Reading} : (a, r) ∈ level → a ∈ paths ∧ depth a = d
  moves : n ≤ 5 * (paths.filter fun p => depth p < d).card + progress level

theorem Paced.grow {paths' : Finset String} (h : Paced paths level n d) (hsub : paths ⊆ paths') :
    Paced paths' level n d where
  known hmem := (h.known hmem).imp_left (hsub ·)
  moves := by
    have hmoves := h.moves
    have hcard := Finset.card_le_card (Finset.filter_subset_filter (fun p => depth p < d) hsub)
    omega

theorem Paced.card_le (h : Paced paths level n d) (hdistinct : (level.map Prod.fst).Nodup) :
    (paths.filter fun p => depth p < d).card + level.length ≤
      (paths.filter fun p => depth p < d + 1).card := by
  have hlength : level.length = (level.map Prod.fst).toFinset.card := by
    rw [List.toFinset_card_of_nodup hdistinct, List.length_map]
  have hmem {p : String} (hp : p ∈ (level.map Prod.fst).toFinset) : p ∈ paths ∧ depth p = d := by
    obtain ⟨⟨a, r⟩, hmem, rfl⟩ := List.mem_map.1 (List.mem_toFinset.1 hp)
    exact h.known hmem
  rw [hlength, ← Finset.card_union_of_disjoint]
  · refine Finset.card_le_card fun p hp => Finset.mem_filter.2 ?_
    rcases Finset.mem_union.1 hp with hp | hp
    · obtain ⟨hpaths, hlt⟩ := Finset.mem_filter.1 hp
      exact ⟨hpaths, Nat.lt_succ_of_lt hlt⟩
    · obtain ⟨hpaths, rfl⟩ := hmem hp
      exact ⟨hpaths, Nat.lt_succ_self _⟩
  · refine Finset.disjoint_left.2 fun p hp hp' => ?_
    obtain ⟨-, hlt⟩ := Finset.mem_filter.1 hp
    obtain ⟨-, rfl⟩ := hmem hp'
    exact Nat.lt_irrefl _ hlt

theorem Paced.le (h : Paced paths level n d) (hdistinct : (level.map Prod.fst).Nodup) :
    n ≤ 5 * paths.card := by
  have hmoves := h.moves
  have hprogress := progress_le level
  have hcard := h.card_le hdistinct
  have hall := Finset.card_filter_le paths fun p => depth p < d + 1
  omega

theorem Paced.moved {before after : List (String × Reading)}
    (h : Paced paths (before ++ (a, r) :: after) n d) (hprogress : r.progress < r'.progress) :
    Paced paths (before ++ (a, r') :: after) (n + 1) d where
  known hmem := by
    rcases mem_level_moved (r := r) hmem with hmem | ⟨rfl, rfl⟩
    · exact h.known hmem
    · exact h.known (List.mem_append_right _ List.mem_cons_self)
  moves := by
    have hmoves := h.moves
    have hlt : progress (before ++ (a, r) :: after) < progress (before ++ (a, r') :: after) :=
      progress_lt_moved hprogress
    omega

/-- The end of a level is one move more, which its first path pays for. -/
theorem Paced.closed (h : Paced paths level n d) (hdistinct : (level.map Prod.fst).Nodup)
    (hne : level ≠ []) {next : List (String × Reading)}
    (hknown : ∀ a r, (a, r) ∈ next → a ∈ paths ∧ depth a = d + 1) :
    Paced paths next (n + 1) (d + 1) where
  known := hknown _ _
  moves := by
    -- The readings have had four moves for each path at most, which leaves one for each.
    have hmoves := h.moves
    have hprogress := progress_le level
    have hcard := h.card_le hdistinct
    have hpos := List.length_pos_iff.2 hne
    omega

end Replica

end KeyRegistry
