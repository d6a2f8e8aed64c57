import KeyRegistry.Proofs.Task.Planting
import KeyRegistry.Seed

/-!
# What the entries of a seed leave in a tree

An entry gives its place a value, or leaves the one it has; places that are absent are
created, with their parents. `fill` is what becomes of one place, whatever the other
entries are, and `Sown` says it of the whole tree. Both are made for lists of entries, so
that what holds of one entry holds of many by appending.
-/

namespace KeyRegistry

open KeyRegistry.Path

namespace Tree

variable {t : Tree} {p : String} {n : Node}

def dataAt (t : Tree) (p : String) : List UInt8 := ((t.node? p).map Node.data).getD []

theorem dataAt_of_stored (h : t.node? p = some n) : t.dataAt p = n.data := by
  simp [dataAt, h]

theorem dataAt_of_absent (h : ¬t.Stored p) : t.dataAt p = [] := by
  simp [dataAt, not_stored_iff.1 h]

/-- A length is not nought unless nothing is counted: the largest word is not nought either. -/
theorem wordLength_eq_zero_iff (data : List UInt8) : wordLength data = 0 ↔ data = [] := by
  constructor
  · intro h
    by_contra hdata
    have hpos := List.length_pos_of_ne_nil hdata
    have hint : (wordLength data).toInt = (min data.length 0x7fffffff : Nat) :=
      Int32.toInt_ofNat_of_lt (by omega)
    rw [h, Int32.toInt_zero] at hint
    omega
  · rintro rfl
    rfl

theorem WellFormed.stored_of_mem_ancestors (h : t.WellFormed) (hp : t.Stored p) {x : String}
    (hx : x ∈ ancestors p) : t.Stored x := by
  obtain ⟨n, hn⟩ := hp
  have hv := valid_of_mem_above (h.valid hn) (mem_above_of_mem_ancestors hx)
  exact h.stored_of_isWithin hv ⟨n, hn⟩ ((mem_ancestors_iff hv (h.valid hn)).1 hx).1

theorem Nearest.isWithin_of_stored {t' : Tree} {top top' : String} {m m' : Node}
    {missing missing' : List String} (h : t.Nearest p top m missing)
    (h' : t'.Nearest p top' m' missing') (ht : t.WellFormed) (hstored : t.Stored top') :
    isWithin top' top = true := by
  rcases h'.top_mem with rfl | hmem
  · exact isWithin_root (ht.valid h.stored)
  · exact h.isWithin_top hmem hstored

/-- The nearest nodes of two trees are at one place if each of them is stored in both. -/
theorem Nearest.top_eq {t' : Tree} {top top' : String} {m m' : Node}
    {missing missing' : List String} (h : t.Nearest p top m missing)
    (h' : t'.Nearest p top' m' missing') (ht : t.WellFormed) (ht' : t'.WellFormed)
    (hstored : t.Stored top') (hstored' : t'.Stored top) : top = top' :=
  isWithin_antisymm (ht.valid h.stored) (ht'.valid h'.stored)
    (h'.isWithin_of_stored h ht' hstored') (h.isWithin_of_stored h' ht hstored)

end Tree

namespace Seed

/-! ## The value of one place -/

def fill (overwrite : Bool) (x : String) (data : List UInt8) (es : List (String × List UInt8)) :
    List UInt8 :=
  es.foldl (fun d e => if e.1 = x ∧ (overwrite = true ∨ d = []) then e.2 else d) data

variable {overwrite : Bool} {x p : String} {data value : List UInt8}
  {es es' : List (String × List UInt8)}

@[simp] theorem fill_nil : fill overwrite x data [] = data := rfl

theorem fill_append :
    fill overwrite x data (es ++ es') = fill overwrite x (fill overwrite x data es) es' :=
  List.foldl_append

theorem fill_singleton :
    fill overwrite x data [(p, value)] =
      if p = x ∧ (overwrite = true ∨ data = []) then value else data := rfl

/-- A place that no entry names keeps its value, and so does one that has a value if the seed is
not to overwrite. -/
theorem fill_of_kept (h : ∀ e ∈ es, e.1 = x → overwrite = false ∧ data ≠ []) :
    fill overwrite x data es = data := by
  induction es with
  | nil => rfl
  | cons e es ih =>
    obtain ⟨he, hes⟩ := List.forall_mem_cons.1 h
    have hfirst : ¬(e.1 = x ∧ (overwrite = true ∨ data = [])) := by
      rintro ⟨hx, hwrite⟩
      obtain ⟨hkeep, hdata⟩ := he hx
      rcases hwrite with hwrite | hwrite
      · rw [hkeep] at hwrite
        cases hwrite
      · exact hdata hwrite
    rw [← List.singleton_append, fill_append, fill_singleton, if_neg hfirst, ih hes]

/-- A seed that overwrites leaves the value of the last entry. -/
theorem fill_of_overwrite (x : String) (data : List UInt8) (es : List (String × List UInt8)) :
    fill true x data es = (es.reverse.lookup x).getD data := by
  induction es using List.reverseRecOn with
  | nil => rfl
  | append_singleton es e ih =>
    obtain ⟨p, value⟩ := e
    rw [fill_append, fill_singleton, ih, List.reverse_concat, List.lookup_cons]
    by_cases hp : x = p
    · simp [hp]
    · simp [Ne.symm hp, beq_false_of_ne hp]

/-- A seed that does not overwrite gives an empty place the first value that is not empty. -/
theorem fill_of_empty (x : String) (es : List (String × List UInt8)) :
    fill false x [] es =
      ((es.find? fun e => decide (e.1 = x ∧ e.2 ≠ [])).map Prod.snd).getD [] := by
  induction es with
  | nil => rfl
  | cons e es ih =>
    obtain ⟨p, value⟩ := e
    rw [← List.singleton_append, fill_append, fill_singleton, List.singleton_append]
    by_cases hvalue : p = x ∧ value ≠ []
    · rw [if_pos (by simp [hvalue.1]), List.find?_cons_of_pos (by simpa using hvalue),
        fill_of_kept fun _ _ _ => ⟨rfl, hvalue.2⟩]
      rfl
    · rw [List.find?_cons_of_neg (by simpa using hvalue), ← ih]
      congr 1
      by_cases hp : p = x
      · simpa [hp] using hvalue
      · exact if_neg fun hand => hp hand.1

/-- A place that has been filled stays as it is when it is filled again. -/
theorem fill_fill (overwrite : Bool) (x : String) (data : List UInt8)
    (es : List (String × List UInt8)) :
    fill overwrite x (fill overwrite x data es) es = fill overwrite x data es := by
  cases overwrite with
  | true =>
    simp only [fill_of_overwrite]
    cases es.reverse.lookup x <;> rfl
  | false =>
    by_cases hdata : data = []
    · by_cases hfilled : fill false x data es = []
      · rw [hfilled, ← hdata]
        exact hdata ▸ hfilled
      · exact fill_of_kept fun _ _ _ => ⟨rfl, hfilled⟩
    · rw [fill_of_kept fun _ _ _ => ⟨rfl, hdata⟩, fill_of_kept fun _ _ _ => ⟨rfl, hdata⟩]

/-! ## The whole tree -/

variable {who : Caller} {t t' t'' : Tree}

/-- What entries with the given places and values make of a tree: their places and the nodes
above are there, and every place has its value. What was stored keeps its owner and its rule of
access, and its version unless it was written; what is new is persistent and the caller's. -/
structure Sown (who : Caller) (overwrite : Bool) (es : List (String × List UInt8)) (t t' : Tree) :
    Prop where
  stored_iff (x : String) :
    t'.Stored x ↔ t.Stored x ∨ ∃ e ∈ es, x = e.1 ∨ x ∈ ancestors e.1
  dataAt_eq (x : String) : t'.dataAt x = fill overwrite x (t.dataAt x) es
  old {x : String} {n : Node} : t.node? x = some n → ∃ n', t'.node? x = some n' ∧
    n'.acl = n.acl ∧ n'.stat.owner = n.stat.owner ∧
    ((∀ e ∈ es, e.1 = x → overwrite = false ∧ n.data ≠ []) → n'.stat.version = n.stat.version)
  new {x : String} {n : Node} : ¬t.Stored x → t'.node? x = some n →
    n.acl = who.acl ∧ n.stat.owner = none

theorem Sown.nil (who : Caller) (overwrite : Bool) (t : Tree) : Sown who overwrite [] t t where
  stored_iff x := by simp
  dataAt_eq x := rfl
  old hn := ⟨_, hn, rfl, rfl, fun _ => rfl⟩
  new habsent hn := absurd ⟨_, hn⟩ habsent

/-- A node that no entry writes to has the bytes that it had. -/
theorem Sown.data_eq_of_kept (h : Sown who overwrite es t t') {n n' : Node}
    (hn : t.node? x = some n) (hn' : t'.node? x = some n')
    (hkept : ∀ e ∈ es, e.1 = x → overwrite = false ∧ n.data ≠ []) : n'.data = n.data := by
  rw [← Tree.dataAt_of_stored hn', h.dataAt_eq, Tree.dataAt_of_stored hn, fill_of_kept hkept]

theorem Sown.append (h : Sown who overwrite es t t') (h' : Sown who overwrite es' t' t'') :
    Sown who overwrite (es ++ es') t t'' where
  stored_iff x := by
    rw [h'.stored_iff, h.stored_iff, or_assoc, ← exists_or]
    simp only [List.mem_append, or_and_right]
  dataAt_eq x := by rw [h'.dataAt_eq, h.dataAt_eq, fill_append]
  old {x n} hn := by
    obtain ⟨n', hn', hacl, howner, hversion⟩ := h.old hn
    obtain ⟨n'', hn'', hacl', howner', hversion'⟩ := h'.old hn'
    refine ⟨n'', hn'', hacl'.trans hacl, howner'.trans howner, fun hkept => ?_⟩
    obtain ⟨hfirst, hsecond⟩ := List.forall_mem_append.1 hkept
    have hdata : n'.data = n.data := h.data_eq_of_kept hn hn' hfirst
    rw [hversion' (by rwa [hdata]), hversion hfirst]
  new {x n} habsent hn := by
    by_cases hx : t'.Stored x
    · obtain ⟨n', hn'⟩ := hx
      obtain ⟨hacl, howner⟩ := h.new habsent hn'
      obtain ⟨n'', hn'', hacl', howner', -⟩ := h'.old hn'
      obtain rfl := Option.some.inj (hn.symm.trans hn'')
      exact ⟨hacl'.trans hacl, howner'.trans howner⟩
    · exact h'.new hx hn

/-! ## One entry -/

theorem sown_kept {n : Node} (h : t.WellFormed) (hn : t.node? p = some n)
    (hkeep : ¬(overwrite = true ∨ n.data = [])) (value : List UInt8) :
    Sown who overwrite [(p, value)] t t where
  stored_iff x := by
    refine ⟨.inl, ?_⟩
    rintro (hx | ⟨e, he, hx⟩)
    · exact hx
    · obtain rfl := List.mem_singleton.1 he
      rcases hx with rfl | hx
      · exact ⟨n, hn⟩
      · exact h.stored_of_mem_ancestors ⟨n, hn⟩ hx
  dataAt_eq x := by
    rw [fill_singleton, if_neg]
    rintro ⟨rfl, hwrite⟩
    rw [Tree.dataAt_of_stored hn] at hwrite
    exact hkeep hwrite
  old hn := ⟨_, hn, rfl, rfl, fun _ => rfl⟩
  new habsent hn := absurd ⟨_, hn⟩ habsent

theorem sown_written {n : Node} (h : t.WellFormed) (hn : t.node? p = some n)
    (hwrite : overwrite = true ∨ n.data = []) (value : List UInt8) :
    Sown who overwrite [(p, value)] t (t.withData p n value) where
  stored_iff x := by
    rw [Tree.Stored, Tree.node?_withData hn]
    by_cases hx : x = p
    · subst hx
      simp
    · rw [if_neg hx]
      refine ⟨.inl, ?_⟩
      rintro (hstored | ⟨e, he, hx'⟩)
      · exact hstored
      · obtain rfl := List.mem_singleton.1 he
        exact h.stored_of_mem_ancestors ⟨n, hn⟩ (hx'.resolve_left hx)
  dataAt_eq x := by
    rw [fill_singleton, Tree.dataAt, Tree.node?_withData hn]
    by_cases hx : x = p
    · subst hx
      rw [if_pos rfl, if_pos ⟨rfl, by rwa [Tree.dataAt_of_stored hn]⟩]
      rfl
    · rw [if_neg hx, if_neg fun hand => hx hand.1.symm]
      rfl
  old {x m} hm := by
    rw [Tree.node?_withData hn]
    by_cases hx : x = p
    · subst hx
      obtain rfl := Option.some.inj (hn.symm.trans hm)
      refine ⟨_, if_pos rfl, rfl, rfl, fun hkept => ?_⟩
      obtain ⟨hkeep, hdata⟩ := hkept _ (List.mem_singleton_self _) rfl
      simp [hkeep, hdata] at hwrite
    · exact ⟨m, by rw [if_neg hx, hm], rfl, rfl, fun _ => rfl⟩
  new {x m} habsent hm := by
    have hx : x ≠ p := by
      rintro rfl
      exact habsent ⟨n, hn⟩
    rw [Tree.node?_withData hn, if_neg hx] at hm
    exact absurd ⟨m, hm⟩ habsent

theorem sown_created {top : String} {m : Node} {missing : List String}
    (hnear : t.Nearest p top m missing) (habsent : ¬t.Stored p)
    (hextends : Tree.Extends who value .persistent t top m missing p t') :
    Sown who overwrite [(p, value)] t t' := by
  obtain ⟨name, htop, -⟩ := hextends.nearest
  have hmade : t'.node? p = some (Node.new value who.acl t'.zxid none) := hextends.made
  have hnew {x : String} (hx : ¬t.Stored x) (hx' : t'.Stored x) (hp : x ≠ p) : x ∈ missing := by
    simpa [hx, hp] using (hextends.stored_iff x).1 hx'
  refine ⟨fun x => ?_, fun x => ?_, fun {x n} hn => ?_, fun {x n} hx hn => ?_⟩
  · obtain ⟨held, hsplit, -, -, hheld⟩ := hnear.held
    rw [hextends.stored_iff]
    simp only [List.mem_singleton, exists_eq_left, hsplit, List.mem_append]
    have hmem : x ∈ held → t.Stored x := hheld x
    tauto
  · rw [fill_singleton]
    by_cases hp : p = x
    · subst hp
      rw [Tree.dataAt_of_stored hmade, if_pos ⟨rfl, .inr (Tree.dataAt_of_absent habsent)⟩]
      rfl
    · rw [if_neg fun hand => hp hand.1]
      by_cases hx : t.Stored x
      · by_cases hxtop : x = top
        · subst hxtop
          rw [Tree.dataAt_of_stored htop, Tree.dataAt_of_stored hnear.stored]
          rfl
        · rw [Tree.dataAt, hextends.others hx hxtop]
          rfl
      · rw [Tree.dataAt_of_absent hx]
        by_cases hx' : t'.Stored x
        · obtain ⟨n, hn, hdata, -⟩ := hextends.between x (hnew hx hx' (Ne.symm hp))
          rw [Tree.dataAt_of_stored hn, hdata]
        · exact Tree.dataAt_of_absent hx'
  · by_cases hxtop : x = top
    · subst hxtop
      obtain rfl := Option.some.inj (hn.symm.trans hnear.stored)
      exact ⟨_, htop, rfl, rfl, fun _ => rfl⟩
    · exact ⟨n, by rw [hextends.others ⟨n, hn⟩ hxtop, hn], rfl, rfl, fun _ => rfl⟩
  · by_cases hp : x = p
    · subst hp
      obtain rfl := Option.some.inj (hn.symm.trans hmade)
      exact ⟨rfl, rfl⟩
    · obtain ⟨n', hn', -, howner, hacl⟩ := hextends.between x (hnew hx ⟨n, hn⟩ hp)
      obtain rfl := Option.some.inj (hn.symm.trans hn')
      exact ⟨hacl, howner⟩

/-! ## When an entry can be applied -/

/-- The place `p` can be given a value: it may be written if it is to be, or it can be created. -/
structure Ready (who : Caller) (overwrite : Bool) (t : Tree) (p : String) : Prop where
  writable {n : Node} : t.node? p = some n → overwrite = true ∨ n.data = [] →
    n.acl.permits who.identity = true
  creatable : ¬t.Stored p → Dialogue.Creatable who t p .persistent

/-- Entries that are applied never stand in the way of others. -/
theorem Sown.ready (h : Sown who overwrite es t t') (ht : t.WellFormed) (ht' : t'.WellFormed)
    (hready : Ready who overwrite t p) : Ready who overwrite t' p where
  writable {n'} hn' hwrite := by
    by_cases hp : t.Stored p
    · obtain ⟨n, hn⟩ := hp
      obtain ⟨n'', hn'', hacl, -⟩ := h.old hn
      obtain rfl := Option.some.inj (hn'.symm.trans hn'')
      rw [hacl]
      refine hready.writable hn ?_
      by_contra hkeep
      obtain ⟨hover, hdata⟩ := not_or.1 hkeep
      have hsame : n'.data = n.data :=
        h.data_eq_of_kept hn hn' fun _ _ _ => ⟨Bool.eq_false_of_not_eq_true hover, hdata⟩
      rw [hsame] at hwrite
      exact hkeep hwrite
    · rw [(h.new hp hn').1]
      exact Tree.permits_acl who
  creatable habsent' := by
    have habsent : ¬t.Stored p := fun hp => habsent' ((h.stored_iff p).2 (.inl hp))
    obtain ⟨hvalid, hroot, top, m, missing, hnear, howner, hperm, -⟩ := hready.creatable habsent
    obtain ⟨top', m', missing', hnear'⟩ := ht'.exists_nearest hvalid hroot
    refine ⟨hvalid, hroot, top', m', missing', hnear', ?_⟩
    rw [Tree.target, if_neg (by decide)]
    rw [← and_assoc]
    refine ⟨?_, habsent'⟩
    by_cases hstored : t.Stored top'
    · have heq := hnear.top_eq hnear' ht ht' hstored ((h.stored_iff top).2 (.inl ⟨m, hnear.stored⟩))
      subst heq
      obtain ⟨n, hn, hacl, howner', -⟩ := h.old hnear.stored
      obtain rfl := Option.some.inj (hn.symm.trans hnear'.stored)
      rw [hacl, howner']
      exact ⟨howner, hperm⟩
    · obtain ⟨hacl, howner'⟩ := h.new hstored hnear'.stored
      rw [hacl]
      exact ⟨howner', Tree.permits_acl who⟩

end Seed

end KeyRegistry
