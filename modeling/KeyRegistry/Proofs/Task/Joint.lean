import KeyRegistry.Proofs.Task.Exchanges

/-!
# Clients side by side

Several tasks share a world and move in any order. The log of a joint run lists the
exchanges of all of them as they come, each under the place of its task; what stands
under one place is the record of that task.
-/

namespace KeyRegistry

namespace Task

variable {α : Type} {meanwhile : World → World → Prop} {w₀ w v u : World} {ts₀ ts : List (Task α)}
  {t t' : Task α} {i j : Nat} {log log' : List (Nat × Exchange)}

/-- The exchanges of tasks that run side by side, each move of which comes after something that
`meanwhile` allows. -/
inductive Joint (meanwhile : World → World → Prop) (w₀ : World) (ts₀ : List (Task α)) :
    List (Nat × Exchange) → World → List (Task α) → Prop
  | start : Joint meanwhile w₀ ts₀ [] w₀ ts₀
  | move {log : List (Nat × Exchange)} {w v u : World} {ts : List (Task α)} {t t' : Task α}
      {i : Nat} (run : Joint meanwhile w₀ ts₀ log w ts) (between : meanwhile w v)
      (turn : ts[i]? = some t) (step : t.step v = some (u, t')) :
      Joint meanwhile w₀ ts₀ (log ++ (t.exchange? v).toList.map (Prod.mk i)) u (ts.set i t')

def own (i : Nat) (log : List (Nat × Exchange)) : List Exchange :=
  log.filterMap fun entry => if entry.1 = i then some entry.2 else none

@[simp] theorem own_nil (i : Nat) : own i [] = [] := rfl

@[simp] theorem own_append (i : Nat) (log log' : List (Nat × Exchange)) :
    own i (log ++ log') = own i log ++ own i log' := by
  simp [own]

theorem own_self (i : Nat) (xs : List Exchange) : own i (xs.map (Prod.mk i)) = xs := by
  simp [own, List.filterMap_map]

theorem own_other (h : j ≠ i) (xs : List Exchange) : own i (xs.map (Prod.mk j)) = [] := by
  simp [own, List.filterMap_map, h]

theorem mem_own_iff {x : Exchange} : x ∈ own i log ↔ (i, x) ∈ log := by
  simp [own, List.mem_filterMap]

/-- Between two exchanges of one task that follow each other are those of others alone. -/
theorem exists_between {x y : Exchange} {before after : List Exchange}
    (h : own i log = before ++ x :: y :: after) : ∃ first others last,
      log = first ++ (i, x) :: (others ++ (i, y) :: last) ∧ own i others = [] := by
  have hentry {entry : Nat × Exchange} {z : Exchange}
      (hz : (if entry.1 = i then some entry.2 else none) = some z) : entry = (i, z) := by
    split_ifs at hz with hi
    exact Prod.ext hi (Option.some.inj hz)
  obtain ⟨first, rest, rfl, -, hrest⟩ := List.filterMap_eq_append_iff.1 h
  obtain ⟨passed, e₁, rest', rfl, -, he₁, hrest'⟩ := List.filterMap_eq_cons_iff.1 hrest
  obtain ⟨others, e₂, last, rfl, hothers, he₂, -⟩ := List.filterMap_eq_cons_iff.1 hrest'
  obtain rfl := hentry he₁
  obtain rfl := hentry he₂
  exact ⟨first ++ passed, others, last, by simp, List.filterMap_eq_nil_iff.2 hothers⟩

/-- Every entry of a log stands under the place of a task. -/
theorem Joint.exists_of_mem (h : Joint meanwhile w₀ ts₀ log w ts) {entry : Nat × Exchange}
    (hmem : entry ∈ log) : ∃ t, ts[entry.1]? = some t := by
  induction h with
  | start => simp at hmem
  | @move log w v u ts t t' i run between turn step ih =>
    obtain ⟨hi, -⟩ := List.getElem?_eq_some_iff.1 turn
    have hlt : entry.1 < ts.length := by
      rcases List.mem_append.1 hmem with hmem | hmem
      · obtain ⟨k, hk⟩ := ih hmem
        exact (List.getElem?_eq_some_iff.1 hk).1
      · obtain ⟨x, -, rfl⟩ := List.mem_map.1 hmem
        exact hi
    exact ⟨_, List.getElem?_eq_getElem (by rwa [List.length_set])⟩

/-- What each move of a task keeps goes on to hold of it. -/
theorem Joint.kept {P : Task α → Prop} (h : Joint meanwhile w₀ ts₀ log w ts)
    (h₀ : ∀ t, ts₀[i]? = some t → P t) (hstep : ∀ v u t t', P t → t.step v = some (u, t') → P t')
    (ht : ts[i]? = some t) : P t := by
  induction h generalizing t with
  | start => exact h₀ t ht
  | @move log w v u ts s s' j run between turn step ih =>
    by_cases hij : j = i
    · subst hij
      rw [List.getElem?_set_self (List.getElem?_eq_some_iff.1 turn).1] at ht
      cases ht
      exact hstep v u s s' (ih turn) step
    · rw [List.getElem?_set_ne hij] at ht
      exact ih ht

/-- What the moves of all tasks keep goes on to hold, and the exchanges of each task are its record
in a world where it holds. -/
theorem Joint.record {P : World → Prop} (h : Joint meanwhile w₀ ts₀ log w ts) (hw₀ : P w₀)
    (hbetween : ∀ w v, P w → meanwhile w v → P v)
    (hmove : ∀ t₀ ∈ ts₀, ∀ (log : List Exchange) (w v u : World) (t t' : Task α),
      Record (fun _ v => P v) w₀ t₀ log w t → P v → t.step v = some (u, t') → P u) :
    P w ∧ ∀ i t, ts[i]? = some t → ∃ v t₀, ts₀[i]? = some t₀ ∧
      Record (fun _ v => P v) w₀ t₀ (own i log) v t := by
  induction h with
  | start => exact ⟨hw₀, fun i t ht => ⟨w₀, t, ht, .start⟩⟩
  | @move log w v u ts t t' i run between turn step ih =>
    obtain ⟨hw, hrecords⟩ := ih
    have hv := hbetween w v hw between
    obtain ⟨w', t₀, ht₀, hrecord⟩ := hrecords i t turn
    refine ⟨hmove t₀ (List.mem_of_getElem? ht₀) _ _ _ _ _ _ hrecord hv step, fun j s hs => ?_⟩
    by_cases hij : i = j
    · subst hij
      obtain rfl : t' = s := by
        rw [List.getElem?_set_self (List.getElem?_eq_some_iff.1 turn).1] at hs
        exact Option.some.inj hs
      rw [own_append, own_self]
      exact ⟨u, t₀, ht₀, hrecord.move hv step⟩
    · rw [List.getElem?_set_ne hij] at hs
      rw [own_append, own_other hij, List.append_nil]
      exact hrecords j s hs

/-- Tasks that hold dialogues leave the world sound. -/
theorem Joint.record_of_sound {ok : ServiceError → Prop} {ds : List (SessionId × Dialogue α)}
    (h : Joint meanwhile w₀ (ds.map fun d => say d.1 d.2) log w ts) (hw₀ : w₀.Sound ok)
    (hbetween : ∀ w v, w.Sound ok → meanwhile w v → v.Sound ok) (ht : ts[i]? = some t) :
    ∃ v d, ds[i]? = some d ∧
      Record (fun _ v => v.Sound ok) w₀ (say d.1 d.2) (own i log) v t := by
  obtain ⟨-, hrecords⟩ := h.record hw₀ hbetween fun t₀ ht₀ log w v u t t' hrecord hv hstep => by
    obtain ⟨d, -, rfl⟩ := List.mem_map.1 ht₀
    exact hrecord.speaks.1.sound hv hstep
  obtain ⟨v, t₀, ht₀, hrecord⟩ := hrecords i t ht
  rw [List.getElem?_map] at ht₀
  obtain ⟨d, hd, rfl⟩ := Option.map_eq_some_iff.1 ht₀
  exact ⟨v, d, hd, hrecord⟩

/-! ## Running by a schedule -/

/-- Lets tasks move in a given order, each as soon as it is its turn. A task that cannot move is
passed over. -/
def play : List Nat → World → List (Task α) → List (Nat × Exchange) × World × List (Task α)
  | [], w, ts => ([], w, ts)
  | i :: rest, w, ts =>
    match ts[i]?.bind fun t => (t.step w).map fun next => (t.exchange? w, next) with
    | none => play rest w ts
    | some (x?, u, t') =>
      let (log, last) := play rest u (ts.set i t')
      (x?.toList.map (Prod.mk i) ++ log, last)

theorem Joint.play (hrefl : ∀ w, meanwhile w w) (schedule : List Nat)
    (h : Joint meanwhile w₀ ts₀ log w ts) :
    Joint meanwhile w₀ ts₀ (log ++ (play schedule w ts).1) (play schedule w ts).2.1
      (play schedule w ts).2.2 := by
  induction schedule generalizing log w ts with
  | nil => simpa [Task.play] using h
  | cons i rest ih =>
    rw [Task.play]
    split
    · exact ih h
    · rename_i x? u t' heq
      obtain ⟨t, ht, hmap⟩ := Option.bind_eq_some_iff.1 heq
      obtain ⟨⟨_, _⟩, hstep, heq⟩ := Option.map_eq_some_iff.1 hmap
      obtain ⟨rfl, rfl, rfl⟩ : t.exchange? w = x? ∧ _ = u ∧ _ = t' := by simpa using heq
      rw [← List.append_assoc]
      exact ih (h.move (hrefl w) ht hstep)

theorem joint_play (hrefl : ∀ w, meanwhile w w) (schedule : List Nat) (w : World)
    (ts : List (Task α)) : Joint meanwhile w ts (play schedule w ts).1 (play schedule w ts).2.1
      (play schedule w ts).2.2 :=
  Joint.start.play hrefl schedule

end Task

end KeyRegistry
