import KeyRegistry.Proofs.Tree.Sequence

/-!
# Versions

The version of a node counts the changes of its data and nothing else. An operation
that expects the version somebody has read succeeds only on the data that was read
with it, unless the count has come round in between.
-/

namespace KeyRegistry

open KeyRegistry.Path

/-- How often the data of `p` was changed since a node was last made there. -/
def Event.rewrites (p : String) (evs : List Event) : Nat :=
  (evs.reverse.takeWhile (· ≠ ⟨.created, p⟩)).count ⟨.dataChanged, p⟩

theorem Event.rewrites_concat (p : String) (evs : List Event) (ev : Event) :
    rewrites p (evs ++ [ev]) =
      if ev = ⟨.created, p⟩ then 0
      else rewrites p evs + if ev = ⟨.dataChanged, p⟩ then 1 else 0 := by
  unfold rewrites
  rw [List.reverse_concat, List.takeWhile_cons]
  by_cases hc : ev = ⟨.created, p⟩
  · simp [hc]
  · simp [hc, List.count_cons]

structure Feat where
  operation : Operation
  outcome : Outcome
  deriving DecidableEq, Repr

def Operation.expected? : Operation → Option Int32
  | .check _ version | .setData _ _ version | .delete _ version => version
  | .create .. => none

namespace Feat

def events (fs : List Feat) : List Event := fs.flatMap fun f => f.operation.events f.outcome

def writes (p : String) (fs : List Feat) : Nat := (events fs).count ⟨.dataChanged, p⟩

/-- Whether a feat has written to `p` in the place of the given version. -/
def replaces (p : String) (v : Int32) (f : Feat) : Bool :=
  match f.operation with
  | .setData q _ version => q = p ∧ version = some v
  | _ => false

@[simp] theorem events_nil : events [] = [] := rfl

@[simp] theorem events_cons (f : Feat) (fs : List Feat) :
    events (f :: fs) = f.operation.events f.outcome ++ events fs := rfl

@[simp] theorem events_append (fs fs' : List Feat) :
    events (fs ++ fs') = events fs ++ events fs' := List.flatMap_append

@[simp] theorem writes_append (p : String) (fs fs' : List Feat) :
    writes p (fs ++ fs') = writes p fs + writes p fs' := by
  simp [writes]

theorem map_zipWith {ops : List Operation} {outcomes : List Outcome}
    (h : outcomes.length = ops.length) :
    (ops.zipWith Feat.mk outcomes).map Feat.operation = ops ∧
      (ops.zipWith Feat.mk outcomes).map Feat.outcome = outcomes := by
  induction ops generalizing outcomes with
  | nil => simp [List.length_eq_zero_iff.1 h]
  | cons op ops ih =>
    cases outcomes with
    | nil => cases h
    | cons outcome outcomes =>
      obtain ⟨hops, houtcomes⟩ := ih (Nat.succ.inj h)
      exact ⟨congrArg (op :: ·) hops, congrArg (outcome :: ·) houtcomes⟩

end Feat

/-- Counts below `2 ^ 31` are told apart as words. -/
theorem eq_of_add_ofNat_eq {v : Int32} {j k : Nat} (hj : j < 2 ^ 31) (hk : k < 2 ^ 31)
    (h : v + Int32.ofNat j = v + Int32.ofNat k) : j = k := by
  have hword : Int32.ofNat j = Int32.ofNat k := (Int32.add_right_inj v).1 h
  have hint := congrArg Int32.toInt hword
  rw [Int32.toInt_ofNat_of_lt hj, Int32.toInt_ofNat_of_lt hk] at hint
  exact_mod_cast hint

namespace Tree

variable {t₀ t t' : Tree} {who : Caller} {ev : Event} {evs evs' : List Event} {p : String}
  {n m : Node} {f : Feat} {fs : List Feat}

/-! ## The count of the changes -/

/-- The version of a node is counted up when its data is changed. A new node starts from naught. -/
theorem Step.version_cases (h : t.WellFormed) (hs : Step who t ev t') (hm : t'.node? p = some m) :
    (ev = ⟨.created, p⟩ ∧ ¬t.Stored p ∧ m.stat.version = 0 ∧ m.stat.czxid = t.zxid + 1) ∨
    ∃ n, t.node? p = some n ∧ m.stat.czxid = n.stat.czxid ∧
      (ev = ⟨.dataChanged, p⟩ ∧ m.stat.version = n.stat.version + 1 ∨
        ev.path ≠ p ∧ m.stat.version = n.stat.version ∧ m.data = n.data) := by
  rcases hs.node_cases h hm with ⟨hne, n, hn, hc⟩ | ⟨rfl, n, data, hn, rfl⟩ |
    ⟨rfl, hnone, -, _, _, _, _, -, -, -, -, -, rfl⟩
  · exact .inr ⟨n, hn, czxid_eq_of_core hc,
      .inr ⟨hne.symm, version_eq_of_core hc, data_eq_of_core hc⟩⟩
  · exact .inr ⟨n, hn, rfl, .inl ⟨rfl, rfl⟩⟩
  · exact .inl ⟨rfl, not_stored_iff.2 hnone, rfl, rfl⟩

def Counted (evs : List Event) (t : Tree) : Prop :=
  ∀ p n, t.node? p = some n → n.stat.version = Int32.ofNat (Event.rewrites p evs)

theorem counted_empty : Counted [] empty := by
  intro p n hn
  rw [(eq_of_node?_empty hn).2]
  rfl

theorem Step.counted (h : t.WellFormed) (hs : Step who t ev t') (hcount : Counted evs t) :
    Counted (evs ++ [ev]) t' := by
  intro p m hm
  rw [Event.rewrites_concat]
  rcases hs.version_cases h hm with ⟨rfl, -, hv, -⟩ | ⟨n, hn, -, ⟨rfl, hv⟩ | ⟨hne, hv, -⟩⟩
  · rw [if_pos rfl, hv]
    rfl
  · rw [if_neg (by simp), if_pos rfl, hv, hcount p n hn, numChildren_gain]
  · have hother (kind : EventKind) : ev ≠ ⟨kind, p⟩ := by
      rintro rfl
      exact hne rfl
    rw [if_neg (hother _), if_neg (hother _), hv, hcount p n hn, Nat.add_zero]

theorem Steps.counted (h : t.WellFormed) (hs : Steps who t evs' t') (hcount : Counted evs t) :
    Counted (evs ++ evs') t' := by
  induction hs generalizing evs with
  | nil => simpa using hcount
  | cons first _ ih =>
    rw [List.append_cons]
    exact ih (first.wellFormed h) (first.counted h hcount)

/-! ## The same node later on -/

/-- The version of the node at a path, or the one that a new node there will have. -/
def versionAt (t : Tree) (p : String) : Int32 := ((t.node? p).map fun n => n.stat.version).getD 0

/-- What has become of a path since the tree `t₀`: a node that was made after a deletion is younger
than `t₀`, and as long as there was no deletion the version is counted up. -/
structure Follows (t₀ : Tree) (p : String) (evs : List Event) (t : Tree) : Prop where
  zxid_le : t₀.zxid ≤ t.zxid
  renewed : ⟨.deleted, p⟩ ∈ evs → ∀ m, t.node? p = some m → t₀.zxid < m.stat.czxid
  kept : ⟨.deleted, p⟩ ∉ evs →
    (t.node? p = none ∧ t₀.node? p = none ∧ evs.count ⟨.dataChanged, p⟩ = 0) ∨
    ∃ m, t.node? p = some m ∧
      m.stat.version = t₀.versionAt p + Int32.ofNat (evs.count ⟨.dataChanged, p⟩) ∧
      ∀ n, t₀.node? p = some n → evs.count ⟨.dataChanged, p⟩ = 0 → m.data = n.data

theorem follows_nil (t : Tree) (p : String) : Follows t p [] t where
  zxid_le := Nat.le_refl _
  renewed h := by simp at h
  kept _ := by
    cases hn : t.node? p with
    | none => exact .inl ⟨rfl, rfl, rfl⟩
    | some n =>
      refine .inr ⟨n, rfl, ?_, fun m hm _ => by rw [Option.some.inj hm]⟩
      simp [versionAt, hn]

theorem Step.kept (h : t.WellFormed) (hs : Step who t ev t') (hf : Follows t₀ p evs t)
    (hev : ev ≠ ⟨.deleted, p⟩) (hevs : ⟨.deleted, p⟩ ∉ evs) :
    (t'.node? p = none ∧ t₀.node? p = none ∧ (evs ++ [ev]).count ⟨.dataChanged, p⟩ = 0) ∨
    ∃ m, t'.node? p = some m ∧
      m.stat.version = t₀.versionAt p + Int32.ofNat ((evs ++ [ev]).count ⟨.dataChanged, p⟩) ∧
      ∀ n, t₀.node? p = some n → (evs ++ [ev]).count ⟨.dataChanged, p⟩ = 0 → m.data = n.data := by
  rw [List.count_append, List.count_singleton]
  rcases hf.kept hevs with ⟨hnone, hnone₀, hcount⟩ | ⟨k, hk, hv, hdata⟩
  · -- the path has not been in use so far
    have hwritten : ev ≠ ⟨.dataChanged, p⟩ := by
      rintro rfl
      cases hs with
      | written data stored => simp [hnone] at stored
    rw [if_neg (by simpa using hwritten), hcount]
    cases hm : t'.node? p with
    | none => exact .inl ⟨rfl, hnone₀, rfl⟩
    | some m =>
      refine .inr ⟨m, rfl, ?_, fun n hn => by simp [hnone₀] at hn⟩
      rcases hs.version_cases h hm with ⟨-, -, hzero, -⟩ | ⟨n, hn, -⟩
      · simpa [versionAt, hnone₀] using hzero
      · simp [hnone] at hn
  · obtain ⟨m, hm⟩ := hs.stored h ⟨k, hk⟩ hev
    refine .inr ⟨m, hm, ?_⟩
    rcases hs.version_cases h hm with ⟨-, hnew, -⟩ | ⟨n, hn, -, hcase⟩
    · exact absurd ⟨k, hk⟩ hnew
    · obtain rfl := Option.some.inj (hk.symm.trans hn)
      rcases hcase with ⟨rfl, hv'⟩ | ⟨hne, hv', hdata'⟩
      · rw [if_pos (beq_self_eq_true _), hv', hv, ← numChildren_gain, Int32.add_assoc]
        exact ⟨rfl, fun _ _ hzero => by omega⟩
      · have hother : ev ≠ ⟨.dataChanged, p⟩ := by
          rintro rfl
          exact hne rfl
        rw [if_neg (by simpa using hother), Nat.add_zero, hv', hdata']
        exact ⟨hv, hdata⟩

theorem Step.follows (h : t.WellFormed) (hs : Step who t ev t') (hf : Follows t₀ p evs t) :
    Follows t₀ p (evs ++ [ev]) t' where
  zxid_le := by
    rw [hs.zxid]
    exact Nat.le_succ_of_le hf.zxid_le
  renewed hdel m hm := by
    rcases hs.version_cases h hm with ⟨-, -, -, hz⟩ | ⟨n, hn, hz, hcase⟩
    · exact hz ▸ Nat.lt_succ_of_le hf.zxid_le
    · have hother : ev ≠ ⟨.deleted, p⟩ := by
        rcases hcase with ⟨rfl, -⟩ | ⟨hne, -⟩
        · simp
        · rintro rfl
          exact hne rfl
      exact hz ▸ hf.renewed (by simpa [hother.symm] using hdel) n hn
  kept hdel := by
    rw [List.mem_append, not_or, List.mem_singleton] at hdel
    exact hs.kept h hf (Ne.symm hdel.2) hdel.1

theorem Steps.follows (h : t.WellFormed) (hs : Steps who t evs' t') (hf : Follows t₀ p evs t) :
    Follows t₀ p (evs ++ evs') t' := by
  induction hs generalizing evs with
  | nil => simpa using hf
  | cons first _ ih =>
    rw [List.append_cons]
    exact ih (first.wellFormed h) (first.follows h hf)

/-- The version that was read is met again, on the same node, with the data that was read. -/
theorem Follows.unchanged (hf : Follows t₀ p evs t) (h : t₀.WellFormed)
    (hn : t₀.node? p = some n) (hm : t.node? p = some m) (hz : m.stat.czxid = n.stat.czxid)
    (hv : m.stat.version = n.stat.version) (hlt : evs.count ⟨.dataChanged, p⟩ < 2 ^ 31) :
    evs.count ⟨.dataChanged, p⟩ = 0 ∧ m.data = n.data := by
  have hkept : ⟨.deleted, p⟩ ∉ evs := fun hdel => by
    have hyoung := hf.renewed hdel m hm
    have hold := h.czxid_le hn
    omega
  rcases hf.kept hkept with ⟨hnone, -⟩ | ⟨k, hk, hcount, hdata⟩
  · simp [hnone] at hm
  · obtain rfl := Option.some.inj (hk.symm.trans hm)
    have hbase : t₀.versionAt p = n.stat.version := by simp [versionAt, hn]
    have hzero : 0 = evs.count ⟨.dataChanged, p⟩ := by
      refine eq_of_add_ofNat_eq (v := n.stat.version) (by decide) hlt ?_
      calc n.stat.version + Int32.ofNat 0 = k.stat.version := (Int32.add_zero _).trans hv.symm
        _ = n.stat.version + Int32.ofNat (evs.count ⟨.dataChanged, p⟩) := by rw [hcount, hbase]
    exact ⟨hzero.symm, hdata n hn hzero.symm⟩

/-! ## Operations that took effect -/

/-- How a feat alters a tree: its operation succeeds for some caller, or an ephemeral node goes
with its session, which is told as a deletion that expects no version. -/
inductive Achieves : Tree → Feat → Tree → Prop
  | applied {t : Tree} {who : Caller} {op : Operation} {c : Change Outcome}
      (valid : Valid op.path) (applied : t.apply who op = .ok c) : Achieves t ⟨op, c.value⟩ c.tree
  | lost {t t' : Tree} {who : Caller} {p : String} (step : Step who t ⟨.deleted, p⟩ t') :
      Achieves t ⟨.delete p none, .deleted⟩ t'

inductive AchievesAll : Tree → List Feat → Tree → Prop
  | nil (t : Tree) : AchievesAll t [] t
  | cons {t t' t'' : Tree} {f : Feat} {fs : List Feat} (first : Achieves t f t')
      (rest : AchievesAll t' fs t'') : AchievesAll t (f :: fs) t''

theorem AchievesAll.append {t'' : Tree} {fs' : List Feat} (h : AchievesAll t fs t')
    (h' : AchievesAll t' fs' t'') : AchievesAll t (fs ++ fs') t'' := by
  induction h with
  | nil => exact h'
  | cons first _ ih => exact .cons first (ih h')

/-- Removals are told as deletions that expect no version. -/
theorem Steps.achievesAll (h : Steps who t evs t') (hlost : ∀ ev ∈ evs, ev.kind = .deleted) :
    AchievesAll t (evs.map fun ev => ⟨.delete ev.path none, .deleted⟩) t' := by
  induction h with
  | nil t => exact .nil t
  | @cons _ _ _ ev _ first _ ih =>
    obtain ⟨kind, p⟩ := ev
    obtain rfl : kind = .deleted := hlost ⟨kind, p⟩ (by simp)
    exact .cons (.lost first) (ih fun ev hev => hlost ev (by simp [hev]))

theorem Achieves.steps (h : Achieves t f t') :
    ∃ who, Steps who t (f.operation.events f.outcome) t' := by
  cases h with
  | applied valid applied =>
    obtain ⟨hev, hsteps⟩ := steps_of_apply valid applied
    exact ⟨_, hev ▸ hsteps⟩
  | lost step => exact ⟨_, .single step⟩

/-- What every elementary change keeps, told by the events, is kept by feats. -/
theorem AchievesAll.invariant {P : List Event → Tree → Prop}
    (hstep : ∀ who evs evs' t t', t.WellFormed → P evs t → Steps who t evs' t' → P (evs ++ evs') t')
    (ht : t.WellFormed) (hP : P evs t) (h : AchievesAll t fs t') :
    t'.WellFormed ∧ P (evs ++ Feat.events fs) t' := by
  induction h generalizing evs with
  | nil => simpa using ⟨ht, hP⟩
  | cons first _ ih =>
    obtain ⟨who, hsteps⟩ := first.steps
    have hrest := ih (hsteps.wellFormed ht) (hstep _ _ _ _ _ ht hP hsteps)
    simpa using hrest

/-- An operation that succeeds met the version it expects. -/
theorem expects_of_apply {op : Operation} {c : Change Outcome} (hp : Valid op.path)
    (h : t.apply who op = .ok c) {v : Int32} (hv : op.expected? = some v) :
    ∃ n, t.node? op.path = some n ∧ n.stat.version = v := by
  cases op with
  | check p version =>
    obtain ⟨_, hcheck, -⟩ := bind_eq_ok_iff.1 h
    cases hn : t.node? p with
    | none => simp [check_of_absent hn] at hcheck
    | some n =>
      rw [check_of_stored hn] at hcheck
      by_cases hexp : Expects version n
      · exact ⟨n, hn, (hexp v hv).symm⟩
      · simp [checkVersion_of_not_expects hexp] at hcheck
  | create p data mode => cases hv
  | setData p data version =>
    obtain ⟨d, hd, -⟩ := bind_eq_ok_iff.1 h
    obtain ⟨n, hn, -, hexp, -⟩ := setData_ok_cases hd
    exact ⟨n, hn, (hexp v hv).symm⟩
  | delete p version =>
    obtain ⟨d, hd, -⟩ := bind_eq_ok_iff.1 h
    obtain ⟨_, n, -, hn, hexp, -⟩ := delete_ok_cases hp hd
    exact ⟨n, hn, (hexp v hv).symm⟩

theorem Achieves.expects (h : Achieves t f t') {v : Int32} (hv : f.operation.expected? = some v) :
    ∃ n, t.node? f.operation.path = some n ∧ n.stat.version = v := by
  cases h with
  | applied valid applied => exact expects_of_apply valid applied hv
  | lost step => cases hv

/-- A transaction that succeeds is its first operations and then the others. -/
theorem ok_of_applyAll_append {index : Nat} {ops ops' : List Operation} {c : Change (List Outcome)}
    (h : t.applyAll who index (ops ++ ops') = .ok c) :
    ∃ first rest, t.applyAll who index ops = .ok first ∧
      first.tree.applyAll who (index + ops.length) ops' = .ok rest := by
  induction ops generalizing t index c with
  | nil => exact ⟨⟨t, [], []⟩, c, rfl, h⟩
  | cons op ops ih =>
    obtain ⟨head, tail, hhead, htail, -⟩ := ok_of_applyAll_cons h
    obtain ⟨first, rest, hfirst, hrest⟩ := ih htail
    refine ⟨_, rest, by rw [applyAll_cons_ok hhead, hfirst]; rfl, ?_⟩
    rwa [List.length_cons, Nat.add_comm ops.length, ← Nat.add_assoc]

theorem length_applyAll {index : Nat} {ops : List Operation} {c : Change (List Outcome)}
    (h : t.applyAll who index ops = .ok c) : c.value.length = ops.length := by
  induction ops generalizing t index c with
  | nil =>
    simp only [applyAll_nil, Except.ok.injEq] at h
    rw [← h]
    rfl
  | cons op ops ih =>
    obtain ⟨head, tail, -, htail, rfl⟩ := ok_of_applyAll_cons h
    rw [List.length_cons, List.length_cons, ih htail]

theorem achievesAll_of_applyAll {index : Nat} {ops : List Operation}
    (hp : ∀ op ∈ ops, Valid op.path) {c : Change (List Outcome)}
    (h : t.applyAll who index ops = .ok c) :
    AchievesAll t (ops.zipWith Feat.mk c.value) c.tree := by
  induction ops generalizing t index c with
  | nil =>
    simp only [applyAll_nil, Except.ok.injEq] at h
    exact h ▸ .nil t
  | cons op ops ih =>
    obtain ⟨head, tail, hhead, htail, rfl⟩ := ok_of_applyAll_cons h
    exact .cons (.applied (hp op (by simp)) hhead) (ih (fun op hop => hp op (by simp [hop])) htail)

/-! ## Writes in the place of one version -/

/-- What is known of the writes to `p` in the place of the version `v`: there was at most one, and
then the version is among those that are passed. -/
structure Contest (t₀ : Tree) (p : String) (v : Int32) (fs : List Feat) (t : Tree) : Prop where
  follows : Follows t₀ p (Feat.events fs) t
  won : fs.countP (Feat.replaces p v) = 0 ∨ fs.countP (Feat.replaces p v) = 1 ∧
    ∃ j < Feat.writes p fs, v = t₀.versionAt p + Int32.ofNat j

theorem Feat.exists_of_replaces {v : Int32} (hf : f.replaces p v = true) :
    ∃ data, f.operation = .setData p data (some v) := by
  obtain ⟨op, outcome⟩ := f
  cases op with
  | check => simp [Feat.replaces] at hf
  | create => simp [Feat.replaces] at hf
  | delete => simp [Feat.replaces] at hf
  | setData q data version =>
    obtain ⟨rfl, rfl⟩ : q = p ∧ version = some v := by simpa [Feat.replaces] using hf
    exact ⟨data, rfl⟩

theorem Achieves.writes_eq_one {data : List UInt8} {version : Option Int32} {outcome : Outcome}
    (h : Achieves t ⟨.setData p data version, outcome⟩ t') :
    Feat.writes p [⟨.setData p data version, outcome⟩] = 1 := by
  cases h with
  | applied valid applied =>
    obtain ⟨d, -, ⟨⟩⟩ := bind_eq_ok_iff.1 applied
    simp [Feat.writes, Operation.events]

/-- A second write in the place of one version would find a version that is passed. -/
theorem Contest.achieves {v : Int32} (ht : t.WellFormed) (hc : Contest t₀ p v fs t)
    (h : Achieves t f t') (hkept : ⟨.deleted, p⟩ ∉ Feat.events fs)
    (hlt : Feat.writes p fs < 2 ^ 31) : Contest t₀ p v (fs ++ [f]) t' where
  follows := by
    obtain ⟨who, hsteps⟩ := h.steps
    simpa using hsteps.follows ht hc.follows
  won := by
    rw [List.countP_append, List.countP_singleton, Feat.writes_append]
    by_cases hf : f.replaces p v = true
    · obtain ⟨data, hop⟩ := Feat.exists_of_replaces hf
      obtain ⟨op, outcome⟩ := f
      subst hop
      have hwrites := h.writes_eq_one
      obtain ⟨n, hn, hv⟩ : ∃ n, t.node? p = some n ∧ n.stat.version = v := h.expects rfl
      have hnow : v = t₀.versionAt p + Int32.ofNat (Feat.writes p fs) := by
        rcases hc.follows.kept hkept with ⟨hnone, -⟩ | ⟨m, hm, hcount, -⟩
        · simp [hnone] at hn
        · rw [← hv, Option.some.inj (hn.symm.trans hm), hcount, Feat.writes]
      rw [if_pos hf, hwrites]
      rcases hc.won with hnone | ⟨-, j, hj, hpassed⟩
      · exact .inr ⟨by rw [hnone], _, Nat.lt_succ_self _, hnow⟩
      · have heq := eq_of_add_ofNat_eq (hj.trans hlt) hlt (hpassed.symm.trans hnow)
        omega
    · rw [if_neg hf]
      refine hc.won.imp_right fun ⟨hone, j, hj, hpassed⟩ => ⟨hone, j, ?_, hpassed⟩
      exact Nat.lt_of_lt_of_le hj (Nat.le_add_right _ _)

theorem Contest.achievesAll {v : Int32} {fs' : List Feat} (ht : t.WellFormed)
    (hc : Contest t₀ p v fs t) (h : AchievesAll t fs' t')
    (hkept : ⟨.deleted, p⟩ ∉ Feat.events (fs ++ fs')) (hlt : Feat.writes p (fs ++ fs') < 2 ^ 31) :
    Contest t₀ p v (fs ++ fs') t' := by
  induction h generalizing fs with
  | nil => simpa using hc
  | cons first _ ih =>
    obtain ⟨who, hsteps⟩ := first.steps
    have hkept' : ⟨.deleted, p⟩ ∉ Feat.events fs := fun hmem => hkept (by simp [hmem])
    have hlt' : Feat.writes p fs < 2 ^ 31 :=
      Nat.lt_of_le_of_lt (by rw [Feat.writes_append]; exact Nat.le_add_right _ _) hlt
    rw [List.append_cons] at hkept hlt ⊢
    exact ih (hsteps.wellFormed ht) (hc.achieves ht first hkept' hlt') hkept hlt

end Tree

end KeyRegistry
