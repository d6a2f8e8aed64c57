import KeyRegistry.Proofs.Center.Passage
import KeyRegistry.Proofs.Task.Talking
import KeyRegistry.Proofs.World.Ageing

/-!
# Centers traced through a history

A center that is started holds a session that is known and a replica that is started, and
no two centers hold one replica. What a center has held is either held still or gone: its
session is closed and its replica is over.
-/

namespace KeyRegistry

open KeyRegistry.Path

namespace World

variable {w w' : World} {i k : Nat} {s : SessionId} {a : Active}

def Known (w : World) (s : SessionId) : Prop :=
  w.Holds s.ensemble fun e => ∃ x, e.session? s.number = some x

/-- What is left of a cycle that has ended: a closed session and a replica that is over. -/
structure Gone (w : World) (a : Active) : Prop where
  session : w.Holds a.session.ensemble
    fun e => ∃ x, e.session? a.session.number = some x ∧ x.phase = .closed
  replica : ∃ m, w.replica? a.replica = some m ∧ m.Spent

def Linked (w : World) : Prop :=
  ∀ x ∈ w.connectors, ∀ k, x.backend = .ensemble k → k < w.ensembles.length

theorem Known.ages (h : w.Known s) (hages : w.Ages w') : w'.Known s := by
  obtain ⟨e, he, x, hx⟩ := h
  obtain ⟨e', he', hold⟩ := hages.ensemble he
  obtain ⟨y, hy, -⟩ := hold _ x hx
  exact ⟨e', he', y, hy⟩

theorem Gone.ages (h : w.Gone a) (hages : w.Ages w') : w'.Gone a where
  session := by
    obtain ⟨e, he, x, hx, hclosed⟩ := h.session
    obtain ⟨e', he', hold⟩ := hages.ensemble he
    obtain ⟨y, hy, hshut⟩ := hold _ x hx
    exact ⟨e', he', y, hy, hshut hclosed⟩
  replica := by
    obtain ⟨m, hm, hspent⟩ := h.replica
    obtain ⟨m', hm', hold⟩ := hages.replica hm
    exact ⟨m', hm', hold.spent hspent⟩

theorem Ages.length_le (h : w.Ages w') : w.ensembles.length ≤ w'.ensembles.length := by
  by_contra hlt
  obtain ⟨e', he', -⟩ := h.ensemble (List.getElem?_eq_getElem (not_le.1 hlt))
  exact absurd (List.getElem?_eq_some_iff.1 he').1 (lt_irrefl _)

theorem Linked.ages (h : w.Linked) (hages : w.Ages w')
    (hconnectors : w'.connectors = w.connectors) : w'.Linked := fun x hx k hk =>
  (h x (hconnectors ▸ hx) k hk).trans_le hages.length_le

theorem Known.closeSession (h : w.Known s) :
    (w.closeSession s).Holds s.ensemble
      fun e => ∃ x, e.session? s.number = some x ∧ x.phase = .closed := by
  obtain ⟨e, he, x, hx⟩ := h.ages (w.ages_closeSession s)
  have hlast : e = ((w.ensemble s.ensemble).close s.number).2 := by
    rw [ensembles_closeSession] at he
    obtain ⟨hlt, rfl⟩ := List.getElem?_eq_some_iff.1 he
    exact List.getElem_set_self _
  have hclosed := (w.ensemble s.ensemble).phase_close s.number
  rw [← hlast] at hclosed
  exact ⟨e, he, x, hx, by simpa [Ensemble.phase, hx] using hclosed⟩

theorem known_of_connect (hk : k < w.ensembles.length) {servers : String}
    {identity : Option String} (hs : (w.connect k servers identity).1 = .ok s) :
    (w.connect k servers identity).2.Known s := by
  obtain ⟨number, hnumber, rfl⟩ := connect_eq_ok hs
  obtain ⟨rfl, hsessions⟩ := Ensemble.connect_eq_ok hnumber
  refine ⟨((w.ensemble k).connect servers identity).2, ?_, ⟨identity, .live⟩, ?_⟩
  · rw [ensembles_connect]
    exact List.getElem?_set_self hk
  · simp [Ensemble.session?, hsessions]

/-- What goes on without a move of a center, and without starting or closing a replica. -/
structure Elapses (w w' : World) : Prop where
  centers : w'.centers = w.centers
  ages : w.Ages w'
  linked : w.Linked → w'.Linked
  phase {i : Nat} {m : Replica} : w.replica? i = some m →
    ∃ m', w'.replica? i = some m' ∧ m'.phase = m.phase

theorem elapses_of_replicas (hcenters : w'.centers = w.centers) (hages : w.Ages w')
    (hconnectors : w'.connectors = w.connectors) (hreplicas : w'.replicas = w.replicas) :
    w.Elapses w' where
  centers := hcenters
  ages := hages
  linked h := h.ages hages hconnectors
  phase hm := ⟨_, by rw [replica?, hreplicas]; exact hm, rfl⟩

theorem Elapses.replicaPhase (h : w.Elapses w') {phase : ReplicaPhase} (hopen : phase ≠ .closed)
    (hi : w.replicaPhase i = phase) : w'.replicaPhase i = phase := by
  unfold World.replicaPhase at hi ⊢
  cases hm : w.replica? i with
  | none => simp [hm, hopen.symm] at hi
  | some m =>
    obtain ⟨m', hm', hphase⟩ := h.phase hm
    rw [hm, Option.map_some, Option.getD_some] at hi
    rw [hm', Option.map_some, Option.getD_some, hphase, hi]

theorem Stirs.elapses (h : Stirs Ensemble.Leads w w') : w.Elapses w' := by
  have hframe := h.frame
  have hages := h.ages fun e e' hl => hl.ages
  refine ⟨hframe.1, hages, fun hb => hb.ages hages hframe.2, fun {i m} hm => ?_⟩
  cases h with
  | aside ensembles replicas connectors centers =>
    exact ⟨m, by rw [replica?, replicas]; exact hm, rfl⟩
  | service step => exact ⟨m, hm, rfl⟩
  | worker moves w j =>
    obtain ⟨m', hm', -, hphase⟩ := (meanwhile_runWorker moves w j).replica hm
    exact ⟨m', hm', hphase⟩

theorem elapses_resolve (w : World) (connector : Nat) : w.Elapses (w.resolve connector).2 := by
  have hages := w.ages_resolve connector
  unfold resolve at hages ⊢
  split
  · exact elapses_of_replicas rfl (.refl w) rfl rfl
  · rename_i x hx
    split
    · exact elapses_of_replicas rfl (.refl w) rfl rfl
    · rename_i hundecided
      split_ifs with hmemory
      · simp only [hx, hundecided, if_pos hmemory] at hages
        refine ⟨rfl, hages, fun hlinked y hy k hk => ?_, fun hm => ⟨_, hm, rfl⟩⟩
        rw [List.length_append, List.length_singleton]
        rcases List.mem_or_eq_of_mem_set hy with hy | rfl
        · exact Nat.lt_succ_of_lt (hlinked y hy k hk)
        · obtain rfl : w.ensembles.length = k := Backend.ensemble.inj hk
          exact Nat.lt_succ_self _
      · exact elapses_of_replicas rfl (.refl w) rfl rfl

/-- An ensemble that is bound to a connector is there. -/
theorem Linked.lt_of_resolve (h : w.Linked) {connector : Nat}
    (hk : (w.resolve connector).1 = .ok k) : k < (w.resolve connector).2.ensembles.length := by
  unfold resolve at hk ⊢
  split at hk
  · cases hk
  · rename_i x hx
    split at hk
    · rename_i e he
      obtain rfl := Except.ok.inj hk
      exact h x (List.mem_of_getElem? hx) _ he
    · rename_i hundecided
      split_ifs at hk with hmemory
      obtain rfl := Except.ok.inj hk
      simp [hmemory]

theorem elapses_accept {hold : Hold} (h : w.accept s = .ok (hold, w')) : w.Elapses w' := by
  have hages := ages_accept h
  unfold accept at h
  split at h
  · obtain ⟨-, rfl⟩ := Prod.ext_iff.1 (Except.ok.inj h)
    exact elapses_of_replicas rfl hages rfl rfl
  · cases h

theorem elapses_complete (w : World) (s : SessionId) (fault : Option ServiceError) (r : Request) :
    w.Elapses (w.complete s fault r).2 :=
  elapses_of_replicas rfl (w.ages_complete s fault r) rfl rfl

theorem elapses_connect (w : World) (k : Nat) (servers : String) (identity : Option String) :
    w.Elapses (w.connect k servers identity).2 := by
  have hages := w.ages_connect k servers identity
  unfold connect at hages ⊢
  split <;> exact elapses_of_replicas rfl (by simp_all) rfl rfl

theorem elapses_closeSession (w : World) (s : SessionId) : w.Elapses (w.closeSession s) := by
  have hages := w.ages_closeSession s
  unfold closeSession at hages ⊢
  split <;> exact elapses_of_replicas rfl (by simp_all) rfl rfl

theorem elapses_addReplica (w : World) (root : String) : w.Elapses (w.addReplica root).2 where
  centers := rfl
  ages := w.ages_addReplica root
  linked h := h.ages (w.ages_addReplica root) rfl
  phase hm := ⟨_, replica?_addReplica hm root, rfl⟩

theorem elapses_finishStop (w : World) (i ms : Nat) (ended : Bool) :
    w.Elapses (w.finishStop i ms ended).2 where
  centers := (w.frame_finishStop i ms ended).2.2
  ages := w.ages_finishStop i ms ended
  linked h := h.ages (w.ages_finishStop i ms ended) (w.frame_finishStop i ms ended).2.1
  phase {j m} hm := by
    rw [replica?, replicas_finishStop]
    by_cases hj : i = j
    · subst hj
      exact ⟨_, (List.getElem?_modify_eq ..).trans (congrArg _ hm), rfl⟩
    · exact ⟨m, (List.getElem?_modify_ne _ _ hj).trans hm, rfl⟩

/-! ## Replicas and centers -/

theorem replica?_modifyReplica_self {m : Replica} (hm : w.replica? i = some m)
    (f : Replica → Replica) : (w.modifyReplica i f).replica? i = some (f m) :=
  (List.getElem?_modify_eq ..).trans (congrArg _ hm)

theorem replicaPhase_modifyReplica_of_ne {j : Nat} (h : i ≠ j) (f : Replica → Replica) :
    (w.modifyReplica i f).replicaPhase j = w.replicaPhase j := by
  simp [replicaPhase, replica?, modifyReplica, h]

theorem center?_modifyCenter (w : World) (c d : Nat) (f : Center → Center) :
    (w.modifyCenter c f).center? d = if c = d then (w.center? d).map f else w.center? d := by
  simp only [center?, modifyCenter, List.getElem?_modify]
  split_ifs <;> simp

theorem active?_modifyCenter_of_ne {c d : Nat} (h : c ≠ d) (f : Center → Center) :
    (w.modifyCenter c f).active? d = w.active? d := by
  simp [active?, center?_modifyCenter, h]

end World

namespace Center

namespace Passage

def active : Passage → Option Active
  | .rest o | .queued o _ | .turn o => o
  | _ => none

def held : Passage → Option Nat
  | .fed _ i => some i
  | .leaving a | .asked a _ | .emptied a => some a.replica
  | _ => none

def parting : Passage → Option Active
  | .leaving a | .asked a _ | .emptied a => some a
  | _ => none

def Lists : Passage → List Nat → Prop
  | .rest _, turns => turns = []
  | .queued _ ticket, turns => turns = [ticket]
  | _, turns => ∃ ticket, turns = [ticket]

def Stage (w : World) : Passage → Prop
  | .rest _ | .queued _ _ | .turn _ => True
  | .bound k => k < w.ensembles.length
  | .opened s o => w.Known s ∧ ∀ i ∈ o, w.replicaPhase i = .latent
  | .watched s i _ => w.Known s ∧ w.replicaPhase i = .latent
  | .fed s i => w.Known s ∧ w.replicaPhase i = .started
  | .leaving a => w.Known a.session ∧ w.replicaPhase a.replica = .started
  | .asked a ended => w.Known a.session ∧ ∃ m, w.replica? a.replica = some m ∧
      m.phase = .closed ∧ (ended = true → m.isStopped = true)
  | .emptied a => w.Known a.session ∧ ∃ m, w.replica? a.replica = some m ∧ m.Spent

end Passage

/-- Where a start or a stop of `c` has come to, in a world of `n` centers of which the others are at
rest. If `past` is something that `c₀` has been started with, it is so still, or is being stopped,
or is gone. -/
structure Traced (n c c₀ : Nat) (past : Option Active) (g : Passage) (w : World) : Prop where
  count : w.centers.length = n
  known : c < n
  turning {x : Center} : w.center? c = some x → g.Lists x.turns
  resting {d : Nat} {x : Center} : d ≠ c → w.center? d = some x → x.turns = []
  active : w.active? c = g.active
  linked : w.Linked
  session {d : Nat} {a : Active} : w.active? d = some a → w.Known a.session
  started {d : Nat} {a : Active} : w.active? d = some a → w.replicaPhase a.replica = .started
  apart {d d' : Nat} {a a' : Active} : w.active? d = some a → w.active? d' = some a' →
    a.replica = a'.replica → d = d'
  free {d : Nat} {a : Active} : w.active? d = some a → g.held ≠ some a.replica
  past {a : Active} : past = some a → w.active? c₀ = some a ∨ g.parting = some a ∨ w.Gone a
  stage : g.Stage w

namespace Traced

variable {n c c₀ : Nat} {past : Option Active} {g g' : Passage} {w w' : World} {o : Option Active}
  {s : SessionId}

/-- A move that leaves the centers alone and closes no replica of theirs. -/
theorem moved (h : Traced n c c₀ past g w) (hcenters : w'.centers = w.centers)
    (hages : w.Ages w') (hlinked : w'.Linked)
    (hstarted : ∀ d a, w.active? d = some a → w'.replicaPhase a.replica = .started)
    (hactive : g'.active = g.active) (hheld : ∀ i, g'.held = some i → g.held = some i ∨
      w.replicaPhase i ≠ .started)
    (hparting : ∀ a, g.parting = some a → g'.parting = some a ∨ w'.Gone a)
    (hlists : ∀ turns, g.Lists turns → g'.Lists turns) (hstage : g'.Stage w') :
    Traced n c c₀ past g' w' := by
  have hcenter? (d : Nat) : w'.center? d = w.center? d := by simp [World.center?, hcenters]
  have hactive? (d : Nat) : w'.active? d = w.active? d := by simp [World.active?, hcenter?]
  constructor
  case count => rw [hcenters, h.count]
  case known => exact h.known
  case turning => exact fun hx => hlists _ (h.turning (hcenter? c ▸ hx))
  case resting => exact fun hd hx => h.resting hd (hcenter? _ ▸ hx)
  case active => rw [hactive?, h.active, hactive]
  case linked => exact hlinked
  case session => exact fun ha => (h.session (hactive? _ ▸ ha)).ages hages
  case started => exact fun ha => hstarted _ _ (hactive? _ ▸ ha)
  case apart => exact fun ha ha' => h.apart (hactive? _ ▸ ha) (hactive? _ ▸ ha')
  case free =>
    intro d a ha hi
    rw [hactive?] at ha
    rcases hheld _ hi with hi | hi
    · exact h.free ha hi
    · exact hi (h.started ha)
  case past =>
    intro a ha
    rw [hactive?]
    rcases h.past ha with hold | hold | hold
    · exact .inl hold
    · exact .inr (hparting a hold)
    · exact .inr (.inr (hold.ages hages))
  case stage => exact hstage

theorem advance (h : Traced n c c₀ past g w) (he : w.Elapses w') (hactive : g'.active = g.active)
    (hheld : g'.held = g.held) (hparting : g'.parting = g.parting)
    (hlists : ∀ turns, g.Lists turns → g'.Lists turns) (hstage : g'.Stage w') :
    Traced n c c₀ past g' w' :=
  h.moved he.centers he.ages (he.linked h.linked)
    (fun _ _ ha => he.replicaPhase (by decide) (h.started ha)) hactive
    (fun _ hi => .inl (hheld ▸ hi)) (fun _ ha => .inl (hparting ▸ ha)) hlists hstage

theorem elapses (h : Traced n c c₀ past g w) (he : w.Elapses w') : Traced n c c₀ past g w' := by
  refine h.advance he rfl rfl rfl (fun _ => id) ?_
  have hstage := h.stage
  cases g with
  | rest _ | queued _ _ | turn _ => trivial
  | bound k => exact hstage.trans_le he.ages.length_le
  | opened s o =>
    exact ⟨hstage.1.ages he.ages, fun i hi => he.replicaPhase (by decide) (hstage.2 i hi)⟩
  | watched s i j | fed s i | leaving a =>
    exact ⟨hstage.1.ages he.ages, he.replicaPhase (by decide) hstage.2⟩
  | asked a ended =>
    obtain ⟨hknown, m, hm, hclosed, hended⟩ := hstage
    obtain ⟨m', hm', hold⟩ := he.ages.replica hm
    obtain ⟨m'', hm'', hphase⟩ := he.phase hm
    obtain rfl := Option.some.inj (hm'.symm.trans hm'')
    exact ⟨hknown.ages he.ages, m', hm', hphase.trans hclosed,
      fun h => (hold.ended hclosed (hended h)).2⟩
  | emptied a =>
    obtain ⟨hknown, m, hm, hspent⟩ := hstage
    obtain ⟨m', hm', hold⟩ := he.ages.replica hm
    exact ⟨hknown.ages he.ages, m', hm', hold.spent hspent⟩

theorem note (h : Traced n c c₀ past g w) (notice : Notice) :
    Traced n c c₀ past g (w.note notice) :=
  h.elapses (World.elapses_of_replicas rfl (World.ages_of_eq rfl rfl) rfl rfl)

/-! ### Turns -/

theorem exists_center (h : Traced n c c₀ past g w) : ∃ x, w.center? c = some x :=
  ⟨_, List.getElem?_eq_getElem (h.count ▸ h.known)⟩

/-- A move that alters nothing but the turns of the center. -/
theorem turned (h : Traced n c c₀ past g w) {f : Center → Center}
    (hf : ∀ x, (f x).active = x.active) (hactive : g'.active = g.active)
    (hheld : g'.held = g.held) (hparting : g'.parting = g.parting)
    (hlists : ∀ x, w.center? c = some x → g.Lists x.turns → g'.Lists (f x).turns)
    (hstage : g'.Stage (w.modifyCenter c f)) : Traced n c c₀ past g' (w.modifyCenter c f) := by
  have hactive? (d : Nat) : (w.modifyCenter c f).active? d = w.active? d := by
    simp only [World.active?, World.center?_modifyCenter]
    split_ifs
    · cases w.center? d <;> simp [hf]
    · rfl
  constructor
  case count => exact (List.length_modify ..).trans h.count
  case known => exact h.known
  case turning =>
    intro x hx
    rw [World.center?_modifyCenter, if_pos rfl] at hx
    obtain ⟨y, hy, rfl⟩ := Option.map_eq_some_iff.1 hx
    exact hlists y hy (h.turning hy)
  case resting =>
    intro d x hd hx
    rw [World.center?_modifyCenter, if_neg (Ne.symm hd)] at hx
    exact h.resting hd hx
  case active => rw [hactive?, h.active, hactive]
  case linked => exact h.linked
  case session => exact fun ha => h.session (hactive? _ ▸ ha)
  case started => exact fun ha => h.started (hactive? _ ▸ ha)
  case apart => exact fun ha ha' => h.apart (hactive? _ ▸ ha) (hactive? _ ▸ ha')
  case free => exact fun ha => hheld ▸ h.free (hactive? _ ▸ ha)
  case past =>
    intro a ha
    rw [hactive?, hparting]
    exact (h.past ha).imp_right (Or.imp_right fun hg => ⟨hg.session, hg.replica⟩)
  case stage => exact hstage

theorem draw (h : Traced n c c₀ past (.rest o) w) :
    Traced n c c₀ past (.queued o (w.drawTicket c).1) (w.drawTicket c).2 := by
  refine h.turned (fun _ => rfl) rfl rfl rfl (fun x hx hturns => ?_) trivial
  have hticket : (w.drawTicket c).1 = x.nextTicket := by simp [World.drawTicket, hx]
  have hempty : x.turns = [] := hturns
  show x.turns ++ [x.nextTicket] = [(w.drawTicket c).1]
  rw [hempty, hticket, List.nil_append]

theorem pass (h : Traced n c c₀ past (.turn o) w) :
    Traced n c c₀ past (.rest o) (w.passTurn c) := by
  refine h.turned (fun _ => rfl) rfl rfl rfl (fun x hx hturns => ?_) trivial
  obtain ⟨ticket, hone⟩ := hturns
  show x.turns.tail = []
  rw [hone, List.tail_cons]

/-! ### What is held -/

/-- What a start has held is given to the center, and what a stop is to end is taken from it. -/
theorem reheld (h : Traced n c c₀ past g w) (g' : Passage)
    (hgiven : ∀ a, g'.active = some a →
      w.Known a.session ∧ w.replicaPhase a.replica = .started ∧ g.held = some a.replica)
    (htaken : ∀ a, g.active = some a → g'.parting = some a)
    (hheld : ∀ i, g'.held = some i → ∃ a, g.active = some a ∧ a.replica = i)
    (hparting : g.parting = none) (hlists : ∀ turns, g.Lists turns → g'.Lists turns)
    (hstage : g'.Stage (w.setActive c g'.active)) :
    Traced n c c₀ past g' (w.setActive c g'.active) := by
  have hself : (w.setActive c g'.active).active? c = g'.active := by
    obtain ⟨x, hx⟩ := h.exists_center
    simp [World.setActive, World.active?, World.center?_modifyCenter, hx]
  have hother {d : Nat} (hd : c ≠ d) : (w.setActive c g'.active).active? d = w.active? d :=
    World.active?_modifyCenter_of_ne hd _
  have hnew {d : Nat} {a : Active} (ha : (w.setActive c g'.active).active? d = some a) :
      c = d ∧ g'.active = some a ∨ c ≠ d ∧ w.active? d = some a := by
    by_cases hd : c = d
    · subst hd
      exact .inl ⟨rfl, hself ▸ ha⟩
    · exact .inr ⟨hd, hother hd ▸ ha⟩
  constructor
  case count => exact (List.length_modify ..).trans h.count
  case known => exact h.known
  case turning =>
    intro x hx
    rw [World.setActive, World.center?_modifyCenter, if_pos rfl] at hx
    obtain ⟨y, hy, rfl⟩ := Option.map_eq_some_iff.1 hx
    exact hlists y.turns (h.turning hy)
  case resting =>
    intro d x hd hx
    rw [World.setActive, World.center?_modifyCenter, if_neg (Ne.symm hd)] at hx
    exact h.resting hd hx
  case active => exact hself
  case linked => exact h.linked
  case session =>
    intro d a ha
    rcases hnew ha with ⟨-, ha⟩ | ⟨-, ha⟩
    · exact (hgiven a ha).1
    · exact h.session ha
  case started =>
    intro d a ha
    rcases hnew ha with ⟨-, ha⟩ | ⟨-, ha⟩
    · exact (hgiven a ha).2.1
    · exact h.started ha
  case apart =>
    intro d d' a a' ha ha' heq
    rcases hnew ha with ⟨rfl, hb⟩ | ⟨hd, hb⟩ <;> rcases hnew ha' with ⟨rfl, hb'⟩ | ⟨hd', hb'⟩
    · rfl
    · exact absurd (heq ▸ (hgiven a hb).2.2) (h.free hb')
    · exact absurd (heq ▸ (hgiven a' hb').2.2) (h.free hb)
    · exact h.apart hb hb' heq
  case free =>
    intro d a ha hi
    obtain ⟨b, hb, heq⟩ := hheld _ hi
    rw [← h.active] at hb
    rcases hnew ha with ⟨rfl, ha'⟩ | ⟨hd, ha'⟩
    · exact h.free hb (heq ▸ (hgiven a ha').2.2)
    · exact hd (h.apart hb ha' heq)
  case past =>
    intro a ha
    rcases h.past ha with hold | hold | hold
    · by_cases hc : c = c₀
      · subst hc
        exact .inr (.inl (htaken a (h.active ▸ hold)))
      · exact .inl ((hother hc).trans hold)
    · rw [hparting] at hold
      cases hold
    · exact .inr (.inr ⟨hold.session, hold.replica⟩)
  case stage => exact hstage

theorem activate {i : Nat} (h : Traced n c c₀ past (.fed s i) w) (ns : Namespace) :
    Traced n c c₀ past (.turn (some ⟨s, i, ns⟩)) (w.setActive c (some ⟨s, i, ns⟩)) := by
  refine h.reheld (.turn (some ⟨s, i, ns⟩)) ?_ nofun nofun rfl (fun _ => id) trivial
  rintro a ⟨⟩
  exact ⟨h.stage.1, h.stage.2, rfl⟩

theorem idle (h : Traced n c c₀ past (.turn none) w) :
    Traced n c c₀ past (.turn none) (w.setActive c none) :=
  h.reheld (.turn none) nofun nofun nofun rfl (fun _ => id) trivial

theorem leave {a : Active} (h : Traced n c c₀ past (.turn (some a)) w) :
    Traced n c c₀ past (.leaving a) (w.setActive c none) := by
  have ha : w.active? c = some a := h.active
  refine h.reheld (.leaving a) nofun ?_ ?_ rfl (fun _ => id) ⟨h.session ha, h.started ha⟩
  · rintro b ⟨⟩
    rfl
  · rintro i ⟨⟩
    exact ⟨a, rfl, rfl⟩

/-! ### Replicas -/

theorem spawn {i j : Nat} (h : Traced n c c₀ past (.watched s i j) w) :
    (w.spawn i s j).1 = true ∧ Traced n c c₀ past (.fed s i) (w.spawn i s j).2 := by
  obtain ⟨hknown, hlatent⟩ := h.stage
  have hages := w.ages_spawn i s j
  obtain ⟨m, hm, hphase⟩ := World.exists_replica hlatent (by decide)
  simp only [World.spawn, hm, hphase, if_true] at hages ⊢
  refine ⟨trivial, h.moved rfl hages (h.linked.ages hages rfl) (fun d a ha => ?_) rfl ?_ nofun
    (fun _ => id) ⟨hknown.ages hages, ?_⟩⟩
  · have hne : i ≠ a.replica := by
      rintro rfl
      simp [h.started ha] at hlatent
    exact (World.replicaPhase_modifyReplica_of_ne hne _).trans (h.started ha)
  · rintro _ ⟨⟩
    exact .inr (by simp [hlatent])
  · exact congrArg (fun m => (m.map Replica.phase).getD .closed)
      (World.replica?_modifyReplica_self hm _)

theorem ask {a : Active} (h : Traced n c c₀ past (.leaving a) w) :
    (w.requestStop a.replica).1 = true ∧
      Traced n c c₀ past (.asked a false) (w.requestStop a.replica).2 := by
  obtain ⟨hknown, hstarted⟩ := h.stage
  have hages := w.ages_requestStop a.replica
  obtain ⟨m, hm, -⟩ := World.exists_replica hstarted (by decide)
  refine ⟨by simp [World.requestStop, hstarted], ?_⟩
  refine h.moved rfl hages (h.linked.ages hages rfl) (fun d b hb => ?_) rfl (fun _ => .inl)
    (fun _ => .inl) (fun _ => id) ⟨hknown.ages hages, m.askedToStop, ?_, rfl, nofun⟩
  · have hne : a.replica ≠ b.replica := fun heq => h.free hb (congrArg some heq)
    exact (World.replicaPhase_modifyReplica_of_ne hne _).trans (h.started hb)
  · rw [World.requestStop_eq]
    exact World.replica?_modifyReplica_self hm _

theorem finish {a : Active} {ended : Bool} (h : Traced n c c₀ past (.asked a ended) w) (ms : Nat) :
    Traced n c c₀ past (.emptied a) (w.finishStop a.replica ms ended).2 := by
  obtain ⟨hknown, m, hm, hclosed, hended⟩ := h.stage
  have hfinished : (w.finishStop a.replica ms ended).2.replica? a.replica =
      some (m.emptied ended) := by
    rw [World.replica?, World.replicas_finishStop]
    exact World.replica?_modifyReplica_self hm _
  refine h.advance (w.elapses_finishStop ..) rfl rfl rfl (fun _ => id) ⟨?_, _, hfinished, ?_⟩
  · exact hknown.ages (w.ages_finishStop ..)
  · exact Replica.spent_emptied hclosed hended

/-- With its session closed and its replica emptied, what the center was started with is gone. -/
theorem ended {a : Active} (h : Traced n c c₀ past (.emptied a) w) :
    Traced n c c₀ past (.turn none) (w.closeSession a.session) := by
  obtain ⟨hknown, m, hm, hspent⟩ := h.stage
  have he := w.elapses_closeSession a.session
  refine h.moved he.centers he.ages (he.linked h.linked)
    (fun _ _ hb => he.replicaPhase (by decide) (h.started hb)) rfl nofun ?_ (fun _ => id) trivial
  rintro b ⟨⟩
  obtain ⟨m', hm', hold⟩ := he.ages.replica hm
  exact .inr ⟨hknown.closeSession, m', hm', hold.spent hspent⟩

/-- Every start and every stop can be traced. -/
theorem upholds (n c c₀ : Nat) (past : Option Active) :
    Upholds (World.Stirring Ensemble.Leads) c (Traced n c c₀ past) where
  stable g := World.stable_stirring fun w w' hw hs => hw.elapses hs.elapses
  note notice h := h.note notice
  draw h := h.draw
  enter {o ticket w} h := by
    obtain ⟨x, hx⟩ := h.exists_center
    have hturns : x.turns = [ticket] := h.turning hx
    refine ⟨by simp [World.hasTurn, hx, hturns], ?_⟩
    exact h.advance (World.elapses_of_replicas rfl (.refl w) rfl rfl) rfl rfl rfl
      (fun _ hone => ⟨ticket, hone⟩) trivial
  active h := h.active
  pass h := h.pass
  resolve {w} connector h := by
    have he := w.elapses_resolve connector
    cases hres : (w.resolve connector).1 with
    | error error => exact h.elapses he
    | ok k => exact h.advance he rfl rfl rfl (fun _ => id) (h.linked.lt_of_resolve hres)
  connect {k w} servers identity h := by
    have he := w.elapses_connect k servers identity
    cases hres : (w.connect k servers identity).1 with
    | error error => exact h.elapses he
    | ok s =>
      exact h.advance he rfl rfl rfl (fun _ => id) ⟨World.known_of_connect h.stage hres, nofun⟩
  unbind {k w} h := h.advance (World.elapses_of_replicas rfl (.refl w) rfl rfl) rfl rfl rfl
    (fun _ => id) trivial
  accept h hadmitted := h.elapses (World.elapses_accept hadmitted)
  complete {s w} fault r h _ := h.elapses (w.elapses_complete s fault r)
  add {s w} root h := by
    have he := w.elapses_addReplica root
    refine h.advance he rfl rfl rfl (fun _ => id) ⟨h.stage.1.ages he.ages, ?_⟩
    rintro i ⟨⟩
    simp [World.replicaPhase, World.replica?, World.addReplica]
  latent h := h.stage.2 _ rfl
  watch {s i w} fault root h := by
    have he := w.elapses_complete s fault (.watch root)
    cases hres : (w.complete s fault (.watch root)).1 with
    | error error => exact h.elapses he
    | ok j =>
      have hstage := (h.elapses he).stage
      exact h.advance he rfl rfl rfl (fun _ => id) ⟨hstage.1, hstage.2 i rfl⟩
  spawn h := h.spawn
  activate ns h := h.activate ns
  close {s o w} h := h.advance (w.elapses_closeSession s) rfl rfl rfl (fun _ => id) trivial
  idle h := h.idle
  leave h := h.leave
  ask h := h.ask
  drain {a w} h hshown := by
    obtain ⟨hknown, m, hm, hclosed, -⟩ := h.stage
    refine h.advance (World.elapses_of_replicas rfl (.refl w) rfl rfl) rfl rfl rfl (fun _ => id)
      ⟨hknown, m, hm, hclosed, fun _ => ?_⟩
    simpa [World.shows, hm] using hshown
  finish ms h := h.finish ms
  ended h := h.ended

end Traced

end Center

end KeyRegistry
