import KeyRegistry.Proofs.Center.Handles
import KeyRegistry.Proofs.Center.Harmless
import KeyRegistry.Proofs.World.Accounted
import KeyRegistry.Proofs.World.Tenures

/-!
# Accounting

Centers that share one ensemble are started and stopped any number of times, while sessions
expire, connections fail and faults strike. After every call the open sessions and the
registered watches are those of the centers that are started. A start that fails and a stop
leave nothing behind.
-/

namespace KeyRegistry

open KeyRegistry.Path

/-! ## Starts and stops -/

namespace Center

open World

def Passage.holding : Passage → Option Holding
  | .rest o | .queued o _ | .turn o => o.map Active.holding
  | .bound _ => none
  | .opened s _ => some ⟨s, .bare⟩
  | .watched s _ i => some ⟨s, .watched i⟩
  | .fed s r => some ⟨s, .fed r⟩
  | .leaving a => some a.holding
  | .asked a _ | .emptied a => some ⟨a.session, .parting a.replica⟩

def books (theirs : Nat → Option Active) (c : Nat) (g : Passage) : Books :=
  Function.update (fun d => (theirs d).map Active.holding) c g.holding

/-- Where a start or a stop of `c` has come to. The others, which are at rest, stay as they are. -/
structure Accounts (n c : Nat) (theirs : Nat → Option Active) (g : Passage) (w : World) : Prop where
  traced : Traced n c c none g w
  others {d : Nat} : d ≠ c → w.active? d = theirs d
  bound {k : Nat} : g = .bound k → k = shared
  booked : Booked (books theirs c g) w

namespace Accounts

variable {n c : Nat} {theirs : Nat → Option Active} {g g' : Passage} {w w' : World}
  {o : Option Active} {s : SessionId} {a : Active}

theorem others_of_centers (h : Accounts n c theirs g w) (hcenters : w'.centers = w.centers)
    {d : Nat} (hd : d ≠ c) : w'.active? d = theirs d := by
  rw [← h.others hd]
  unfold active? center?
  rw [hcenters]

theorem others_modifyCenter (h : Accounts n c theirs g w) (f : Center → Center) {d : Nat}
    (hd : d ≠ c) : (w.modifyCenter c f).active? d = theirs d :=
  (active?_modifyCenter_of_ne hd.symm f).trans (h.others hd)

theorem home (h : Accounts n c theirs g w) {t : Tenure} (hg : g.holding = some ⟨s, t⟩) :
    s.ensemble = shared := by
  have hc : books theirs c g c = some ⟨s, t⟩ := by simp [books, hg]
  exact h.booked.ledger.home (Books.sessions_eq hc)

theorem stirs (h : Accounts n c theirs g w) (hs : Stirs Ensemble.Befalls w w') :
    Accounts n c theirs g w' where
  traced := h.traced.elapses hs.leads.elapses
  others := h.others_of_centers hs.frame.1
  bound := h.bound
  booked := h.booked.stirs hs

/-- A move of a start or a stop that leaves the centers as they are. -/
theorem moved (h : Accounts n c theirs g w) (htraced : Traced n c c none g' w')
    (hcenters : w'.centers = w.centers) (hbound : ∀ k, g' = .bound k → k = shared)
    (hbooked : Booked (books theirs c g') w') : Accounts n c theirs g' w' :=
  ⟨htraced, h.others_of_centers hcenters, hbound _, hbooked⟩

/-- A move that alters nothing but the center. -/
theorem turned (h : Accounts n c theirs g w) {f : Center → Center}
    (htraced : Traced n c c none g' (w.modifyCenter c f)) (hbound : ∀ k, g' ≠ .bound k)
    (hholding : g'.holding = g.holding) : Accounts n c theirs g' (w.modifyCenter c f) where
  traced := htraced
  others := h.others_modifyCenter f
  bound hk := absurd hk (hbound _)
  booked := by
    unfold books
    rw [hholding]
    exact h.booked.congr rfl rfl rfl

/-- Half a call over the session that a start has opened. -/
theorem served (h : Accounts n c theirs g w) (hg : g.holding = some ⟨s, .bare⟩) {e : Ensemble}
    (hbefalls : (w.ensemble s.ensemble).Befalls e) :
    Booked (books theirs c g) (w.setEnsemble s.ensemble e) := by
  rw [h.home hg] at hbefalls ⊢
  exact h.booked.befalls hbefalls

theorem resolve {connector : Nat} (h : Accounts n c theirs (.turn none) w) :
    Yields (w.resolve connector).1 (fun k => Accounts n c theirs (.bound k) (w.resolve connector).2)
      (Accounts n c theirs (.turn none) (w.resolve connector).2) := by
  have htraced := (Traced.upholds n c c none).resolve connector h.traced
  cases hx : w.connectors[connector]? with
  | none =>
    have hres : w.resolve connector = (.error .notStarted, w) := by simp [World.resolve, hx]
    rw [hres]
    exact h
  | some x =>
    have hdecided := h.booked.decided x (List.mem_of_getElem? hx)
    have hres : w.resolve connector = (.ok shared, w) := by simp [World.resolve, hx, hdecided]
    rw [hres] at htraced ⊢
    exact h.moved htraced rfl (fun k hk => (Passage.bound.inj hk).symm) h.booked

theorem connect {k : Nat} {servers : String} {identity : Option String}
    (h : Accounts n c theirs (.bound k) w) :
    Yields (w.connect k servers identity).1
      (fun s => Accounts n c theirs (.opened s none) (w.connect k servers identity).2)
      (Accounts n c theirs (.bound k) (w.connect k servers identity).2) := by
  have htraced := (Traced.upholds n c c none).connect servers identity h.traced
  have hcenters := (w.elapses_connect k servers identity).centers
  obtain rfl := h.bound rfl
  cases hres : (w.connect shared servers identity).1 with
  | error error =>
    rw [hres] at htraced
    exact h.moved htraced hcenters (fun k => h.bound) (h.booked.connect_refused hres)
  | ok s =>
    rw [hres] at htraced
    exact h.moved htraced hcenters nofun (h.booked.connect hres)

theorem watch {i : Nat} {fault : Option ServiceError} {root : String}
    (h : Accounts n c theirs (.opened s (some i)) w) :
    Yields (w.complete s fault (.watch root)).1
      (fun j => Accounts n c theirs (.watched s i j) (w.complete s fault (.watch root)).2)
      (Accounts n c theirs (.opened s (some i)) (w.complete s fault (.watch root)).2) := by
  have htraced := (Traced.upholds n c c none).watch fault root h.traced
  cases hres : (w.complete s fault (.watch root)).1 with
  | error error =>
    rw [complete_of_error hres]
    exact h
  | ok j =>
    rw [hres] at htraced
    exact h.moved htraced rfl nofun (h.booked.watch hres)

theorem ended {b : Holding} (h : Accounts n c theirs g w) (hg : g.holding = some b)
    (htraced : Traced n c c none (.turn none) (w.closeSession b.session)) :
    Accounts n c theirs (.turn none) (w.closeSession b.session) := by
  refine h.moved htraced (w.elapses_closeSession _).centers nofun ?_
  have hbooked := h.booked
  unfold books at hbooked ⊢
  rw [hg] at hbooked
  exact hbooked.closeSession

/-- Every start and every stop can be accounted for. -/
theorem upholds (n c : Nat) (theirs : Nat → Option Active) :
    Upholds (Stirring Ensemble.Befalls) c (Accounts n c theirs) := by
  have ht := Traced.upholds n c c none
  constructor
  case stable => exact fun g => stable_stirring fun w w' h hs => h.stirs hs
  case note =>
    intro g w notice h
    exact h.moved (ht.note notice h.traced) rfl (fun _ => h.bound) (h.booked.congr rfl rfl rfl)
  case draw => exact fun h => h.turned (ht.draw h.traced) nofun rfl
  case enter =>
    intro o ticket w h
    obtain ⟨hturn, htraced⟩ := ht.enter h.traced
    exact ⟨hturn, h.moved htraced rfl nofun h.booked⟩
  case active => exact fun h => ht.active h.traced
  case pass => exact fun h => h.turned (ht.pass h.traced) nofun rfl
  case resolve => exact fun connector h => h.resolve
  case connect => exact fun servers identity h => h.connect
  case unbind => exact fun h => h.moved (ht.unbind h.traced) rfl nofun h.booked
  case accept =>
    intro s o w w' hold h haccept
    have htraced := ht.accept h.traced haccept
    have hcenters := (elapses_accept haccept).centers
    refine h.moved htraced hcenters nofun ?_
    unfold World.accept at haccept
    split at haccept
    · rename_i hold' e he
      obtain ⟨-, rfl⟩ := Prod.ext_iff.1 (Except.ok.inj haccept)
      exact h.served rfl (.accept he)
    · cases haccept
  case complete =>
    intro s w fault r h hr
    exact h.moved (ht.complete fault r h.traced hr) rfl nofun
      (h.served rfl (.complete _ _ fault hr))
  case add =>
    intro s w root h
    exact h.moved (ht.add root h.traced) rfl nofun (h.booked.addReplica root)
  case latent => exact fun h => ht.latent h.traced
  case watch => exact fun fault root h => h.watch
  case spawn =>
    intro s i j w h
    obtain ⟨hspawned, htraced⟩ := ht.spawn h.traced
    refine ⟨hspawned, h.moved htraced ?_ nofun (h.booked.spawn h.traced.stage.2)⟩
    unfold World.spawn
    split
    · split_ifs <;> rfl
    · rfl
  case activate => exact fun ns h => h.turned (ht.activate ns h.traced) nofun rfl
  case close => exact fun h => h.ended rfl (ht.close h.traced)
  case idle => exact fun h => h.turned (ht.idle h.traced) nofun rfl
  case leave => exact fun h => h.turned (ht.leave h.traced) nofun rfl
  case ask =>
    intro a w h
    obtain ⟨hran, htraced⟩ := ht.ask h.traced
    exact ⟨hran, h.moved htraced rfl nofun h.booked.requestStop⟩
  case drain =>
    intro a w h hshown
    exact h.moved (ht.drain h.traced hshown) rfl nofun h.booked
  case finish =>
    intro a ended w ms h
    refine h.moved (ht.finish ms h.traced) (w.elapses_finishStop ..).centers nofun ?_
    exact h.booked.finishStop (c := c) (s := a.session) (by simp [books, Passage.holding]) ms ended
  case ended => exact fun h => h.ended rfl (ht.ended h.traced)

end Accounts

end Center

/-! ## Courses -/

namespace World

/-- What the course of a world is made of: something besides, a start or a stop from its beginning
to its end, or an errand as far as it gets. -/
inductive Undergoes : World → World → Prop
  | happens {w w' : World} (happens : Happens Ensemble.Befalls w w') : Undergoes w w'
  | errand {w w' : World} {c : Nat} {h : SessionHandle} {key : String} {op : Errand}
      {t : Task (Except RegistryError op.Result)}
      (run : Task.Execution (Stirring Ensemble.Befalls) w (op.task c h key) w' t) : Undergoes w w'

def Course : World → World → Prop := Relation.ReflTransGen Undergoes

/-- A world in which no center has been started and no session is open, and whose connectors all
lead to the shared ensemble. -/
structure Vacant (w : World) : Prop where
  resting : ∀ x ∈ w.centers, x.active = none ∧ x.turns = []
  decided : ∀ x ∈ w.connectors, x.backend = .ensemble shared
  unreplicated : w.replicas = []
  found : w.ensembles[shared]? = some (w.ensemble shared)
  reachable : (w.ensemble shared).Reachable
  closed : ∀ k, (w.ensemble shared).phase k = .closed
  spared : ∀ error ∈ (w.ensemble shared).faults.pending, error.endsSession = false

def HeldBesides (w : World) (c k : Nat) : Prop :=
  ∃ d a, d ≠ c ∧ w.active? d = some a ∧ a.session = ⟨shared, k⟩

/-- Whether the center `c`, however it was in `w`, is idle in `v` and has left nothing there: every
session, every watch and every ephemeral node is that of another center, which held it before. -/
structure Released (w : World) (c : Nat) (v : World) : Prop where
  idle : v.active? c = none
  session {k : Nat} : (v.ensemble shared).phase k ≠ .closed → w.HeldBesides c k
  watch {i k : Nat} : (v.ensemble shared).WatchOf i k → (v.ensemble shared).Registered i →
    w.HeldBesides c k
  node {p : String} {n : Node} {k : Nat} : (v.ensemble shared).tree.node? p = some n →
    n.stat.owner = some k → w.HeldBesides c k
  gone {a : Active} : w.active? c = some a → (v.ensemble shared).phase a.session.number = .closed ∧
    (∀ i, (v.ensemble shared).WatchOf i a.session.number → ¬(v.ensemble shared).Registered i) ∧
    ∀ p n, (v.ensemble shared).tree.node? p = some n → n.stat.owner ≠ some a.session.number

variable {w w' v : World} {c n : Nat} {o : Option Active}

theorem Vacant.active? (h : w.Vacant) (c : Nat) : w.active? c = none := by
  unfold World.active?
  cases hx : w.center? c with
  | none => rfl
  | some x => exact (h.resting x (List.mem_of_getElem? hx)).1

theorem Vacant.founded (h : w.Vacant) : w.Founded where
  resting := h.resting
  linked x hx k hk := by
    obtain rfl := Backend.ensemble.inj ((h.decided x hx).symm.trans hk)
    exact (List.getElem?_eq_some_iff.1 h.found).1

theorem Vacant.booked (h : w.Vacant) : Booked w.holdings w := by
  have hempty (c : Nat) : w.holdings c = none := by simp [holdings, h.active?]
  have hnone (r : Nat) : w.replica? r = none := by simp [replica?, h.unreplicated]
  have hidle (r : Nat) : w.duty? r = none := by simp [duty?, worker?, hnone]
  constructor
  case found => exact h.found
  case decided => exact h.decided
  case reachable => exact h.reachable
  case spared => exact h.spared
  case ledger =>
    constructor
    case home => exact fun hc => by simp [Books.sessions, hempty] at hc
    case single => exact fun hc => by simp [Books.sessions, hempty] at hc
    case opened => exact fun {k} => by simp [h.closed k, Books.sessions, hempty]
  case staffed =>
    constructor
    case latent => exact fun hm => by simp [hnone] at hm
    case home => exact fun hq => by simp [hidle] at hq
    case known => exact fun hq => by simp [hidle] at hq
    case watch => exact fun hq => by simp [hidle] at hq
    case sole => exact fun hq => by simp [hidle] at hq
  case registered =>
    rintro i ⟨x, hx, hphase⟩
    have hlive := h.reachable.watchful i x hx hphase
    simp [h.closed] at hlive
  case keeps => exact fun hc => by simp [hempty] at hc

structure Settled (n : Nat) (w : World) : Prop where
  rested : Center.Rested n 0 none w
  booked : Booked w.holdings w

end World

namespace Center

open World

variable {w w' v : World} {c n : Nat} {o : Option Active}

theorem accounts_of_settled (h : Settled n w) (hc : c < n) :
    Accounts n c w.active? (.rest (w.active? c)) w where
  traced := by
    have htraced := h.rested.traced hc
    exact { htraced with past := nofun }
  others _ := rfl
  bound := nofun
  booked := by
    have hsame : books w.active? c (.rest (w.active? c)) = w.holdings :=
      Function.update_eq_self c w.holdings
    rw [hsame]
    exact h.booked

theorem Accounts.holdings (h : Accounts n c w.active? (.rest o) v) :
    books w.active? c (.rest o) = v.holdings := by
  have hactive : v.active? c = o := h.traced.active
  funext d
  by_cases hd : d = c
  · subst hd
    simp [books, Passage.holding, World.holdings, hactive]
  · simp [books, World.holdings, hd, h.others hd]

theorem Accounts.settled (h : Accounts n c w.active? (.rest o) v) : Settled n v where
  rested := { h.traced with past := nofun : Traced n c 0 none (.rest o) v }.rested
  booked := h.holdings ▸ h.booked

/-- With the call over and the center idle, nothing is held that was not held by others before. -/
theorem Accounts.released (h : Accounts n c w.active? (.rest none) v) (hw : Settled n w) :
    Released w c v := by
  have hidle : v.active? c = none := h.traced.active
  have hbooked : Booked v.holdings v := h.holdings ▸ h.booked
  have hheld {k : Nat} (hopen : (v.ensemble shared).phase k ≠ .closed) : w.HeldBesides c k := by
    obtain ⟨d, hd⟩ := hbooked.ledger.opened.1 hopen
    obtain ⟨a, ha, hsession⟩ := exists_active hd
    have hne : d ≠ c := by
      rintro rfl
      simp [hidle] at ha
    exact ⟨d, a, hne, (h.others hne).symm.trans ha, hsession⟩
  have hwatch {i k : Nat} (hof : (v.ensemble shared).WatchOf i k)
      (hi : (v.ensemble shared).Registered i) : (v.ensemble shared).phase k ≠ .closed := by
    obtain ⟨x, hx, rfl⟩ := hof
    obtain ⟨y, hy, hphase⟩ := hi
    obtain rfl := Option.some.inj (hx.symm.trans hy)
    simp [hbooked.reachable.watchful i x hx hphase]
  have hnode {p : String} {n : Node} {k : Nat} (hn : (v.ensemble shared).tree.node? p = some n)
      (howner : n.stat.owner = some k) : (v.ensemble shared).phase k ≠ .closed := by
    simp [(hbooked.reachable.tended p n k hn howner).1]
  refine ⟨hidle, hheld, fun hof hi => hheld (hwatch hof hi),
    fun hn howner => hheld (hnode hn howner), fun {a} ha => ?_⟩
  have hclosed : (v.ensemble shared).phase a.session.number = .closed := by
    by_contra hopen
    obtain ⟨d, a', hd, ha', hsession⟩ := hheld hopen
    have hc := sessions_holdings ha
    have hc' := sessions_holdings ha'
    have hhome : a.session.ensemble = shared := hw.booked.ledger.home hc
    rw [hsession, ← hhome] at hc'
    exact hd (hw.booked.ledger.single hc' hc)
  exact ⟨hclosed, fun i hof hi => hwatch hof hi hclosed,
    fun p n hn howner => hnode hn howner hclosed⟩

end Center

namespace World

variable {w w' : World} {n : Nat}

theorem settled_of_vacant (h : w.Vacant) : Settled w.centers.length w :=
  ⟨Center.rested_of_founded h.founded 0, h.booked⟩

theorem Settled.stirs (h : Settled n w) (hs : Stirs Ensemble.Befalls w w') : Settled n w' where
  rested := h.rested.happens (.stirs hs.leads)
  booked := by
    have hsame : w'.holdings = w.holdings := by
      funext d
      unfold holdings active? center?
      rw [hs.frame.1]
    rw [hsame]
    exact h.booked.stirs hs

theorem Settled.stirring (h : Settled n w) (hs : Stirring Ensemble.Befalls w w') :
    Settled n w' := by
  induction hs with
  | refl => exact h
  | tail _ hnext ih => exact ih.stirs hnext

theorem Settled.undergoes (h : Settled n w) (hw : Undergoes w w') : Settled n w' := by
  cases hw with
  | happens happens =>
    cases happens with
    | stirs stirs => exact h.stirs stirs
    | @start c draws result known run =>
      have hc := known.trans_eq h.rested.count
      obtain ⟨o, -, hnext⟩ := ((Center.Accounts.upholds n c w.active?).ends_start draws
        (Center.accounts_of_settled h hc)).post_of_execution run
      exact hnext.settled
    | @stop c outcome known run =>
      have hc := known.trans_eq h.rested.count
      exact (((Center.Accounts.upholds n c w.active?).ends_stop
        (Center.accounts_of_settled h hc)).post_of_execution run).settled
  | errand run => exact h.stirring ((Center.harmless_errand _).stirring run)

theorem Settled.course (h : Settled n w) (hw : Course w w') : Settled n w' := by
  induction hw with
  | refl => exact h
  | tail _ hnext ih => exact ih.undergoes hnext

end World

namespace Center

open World

/-- Any number of centers share an ensemble. Whatever becomes of them in their course, after every
call everything is accounted for: the live sessions are those of the started centers that have not
expired, one for each, and there is one registered watch for each of these. Every start of an idle
center ends; one that fails leaves the center idle and nothing of it behind. Every stop ends and
leaves the center idle, with its session, its watch and its ephemeral nodes gone. -/
theorem lifecycle_accounted {w₀ w : World} (hvacant : w₀.Vacant) (hw : Course w₀ w) :
    w.Accounted ∧ ∀ c, c < w.centers.length →
      (w.active? c = none → ∀ draws, Task.Ends (Stirring Ensemble.Befalls)
        (fun r v => v.Accounted ∧ (∀ d, d ≠ c → v.active? d = w.active? d) ∧
          (r = .ok () → (v.active? c).isSome) ∧ (r ≠ .ok () → Released w c v))
        w (start c draws)) ∧
      Task.Ends (Stirring Ensemble.Befalls)
        (fun _ v => v.Accounted ∧ (∀ d, d ≠ c → v.active? d = w.active? d) ∧ Released w c v)
        w (stop c) := by
  have hsettled := (settled_of_vacant hvacant).course hw
  refine ⟨hsettled.booked.accounted, fun c hc => ?_⟩
  have hupholds := Accounts.upholds w₀.centers.length c w.active?
  have haccounts := accounts_of_settled hsettled (hc.trans_eq hsettled.rested.count)
  refine ⟨fun hidle draws => ?_, ?_⟩
  · refine (hupholds.ends_start draws haccounts).weaken ?_
    rintro r v ⟨o, hresult, hv⟩
    refine ⟨hv.settled.booked.accounted, fun d hd => hv.others hd, fun hr => ?_, fun hr => ?_⟩
    · rw [if_pos hr] at hresult
      rw [hv.traced.active]
      exact hresult.2
    · rw [if_neg hr, hidle] at hresult
      subst hresult
      exact hv.released hsettled
  · refine (hupholds.ends_stop haccounts).weaken fun _ v hv => ?_
    exact ⟨hv.settled.booked.accounted, fun d hd => hv.others hd, hv.released hsettled⟩

def sharedBench : World :=
  { connectors := [⟨jobs, .ensemble shared⟩], centers := [{ connector := 0 }, { connector := 0 }],
    ensembles := [{}] }

theorem vacant_sharedBench : sharedBench.Vacant where
  resting := by decide
  decided := by decide
  unreplicated := rfl
  found := rfl
  reachable := .fresh
  closed k := by cases k <;> rfl
  spared := by decide

theorem exists_started_sharedBench : ∃ w a, Task.Execution (Stirring Ensemble.Befalls) sharedBench
    (start 0 fun _ => 0) w (.done (.ok ())) ∧ w.active? 0 = some a ∧
    (w.ensemble a.session.ensemble).phase a.session.number = .live := by
  have hnamed : jobs.namespaceOf = .ok ⟨"/jobs"⟩ := rfl
  have hns : Namespace.Proper ⟨"/jobs"⟩ := proper_of_namespaceOf hnamed (by decide)
  have hscene : sharedBench.Scene 0 { connector := 0 } ⟨jobs, .ensemble shared⟩ := ⟨rfl, rfl⟩
  have hstands : Stands 0 jobs ⟨"/jobs"⟩ [] {} sharedBench :=
    .stopped hscene rfl rfl ⟨_, rfl, rfl, rfl, rfl⟩ rfl (.fresh hns jobs.identity)
  obtain ⟨w, hrun, hstarted⟩ := hstands.exists_start hns rfl hnamed rfl fun _ => 0
  cases hstarted with
  | stopped _ _ _ _ off => cases off
  | started scene _ active _ _ serves =>
    obtain ⟨e, he, hserves⟩ := serves
    exact ⟨w, _, hrun, scene.active?_eq.trans active, by simp [World.ensemble, he, hserves.live]⟩

/-- One of the two centers is started. The start of the other, should it fail, leaves nothing
behind; a stop of the one leaves the ensemble without a session and without a watch. -/
theorem lifecycle_accounted_shared : ∃ w a, Course sharedBench w ∧ w.active? 0 = some a ∧
    w.serving = [a.session.number] ∧
    Task.Ends (Stirring Ensemble.Befalls) (fun r v => r ≠ .ok () → Released w 1 v) w
      (start 1 fun _ => 0) ∧
    Task.Ends (Stirring Ensemble.Befalls)
      (fun _ v => (v.ensemble shared).activeSessions = 0 ∧ (v.ensemble shared).watchCount = 0) w
      (stop 0) := by
  obtain ⟨w, a, hrun, ha, hlive⟩ := exists_started_sharedBench
  have hcourse : Course sharedBench w := .single (.happens (.start Nat.two_pos hrun))
  have hothers {d : Nat} (hd : d ≠ 0) : w.active? d = none := by
    have hbefore := (lifecycle_accounted vacant_sharedBench .refl).2 0 Nat.two_pos
    obtain ⟨-, hkept, -⟩ := (hbefore.1 rfl _).post_of_execution hrun
    exact (hkept d hd).trans (vacant_sharedBench.active? d)
  obtain ⟨haccounted, hafter⟩ := lifecycle_accounted vacant_sharedBench hcourse
  have hcount : w.centers.length = 2 :=
    ((settled_of_vacant vacant_sharedBench).course hcourse).rested.count
  have hserving : w.serving = [a.session.number] := by
    have hnodup : w.serving.Nodup := haccounted.sessions.nodup_iff.1 List.nodup_findIdxs
    refine List.perm_singleton.1
      ((List.perm_ext_iff_of_nodup hnodup (List.nodup_singleton _)).2 fun k => ?_)
    rw [mem_serving, List.mem_singleton]
    constructor
    · rintro ⟨⟨d, a', ha', rfl⟩, -⟩
      obtain rfl : d = 0 := by
        by_contra hd
        simp [hothers hd] at ha'
      rw [Option.some.inj (ha.symm.trans ha')]
    · rintro rfl
      exact ⟨⟨0, a, ha, rfl⟩, by simp [← haccounted.home ha, hlive]⟩
  refine ⟨w, a, hcourse, ha, hserving, ?_, ?_⟩
  · refine ((hafter 1 (by omega)).1 (hothers Nat.one_ne_zero) _).weaken fun r v hv => hv.2.2.2
  · refine (hafter 0 (by omega)).2.weaken fun _ v ⟨hv, hkept, hreleased⟩ => ?_
    have hserving : v.serving = [] := by
      refine List.eq_nil_iff_forall_not_mem.2 fun k hk => ?_
      obtain ⟨⟨d, a', ha', -⟩, -⟩ := mem_serving.1 hk
      by_cases hd : d = 0
      · simp [hd, hreleased.idle] at ha'
      · simp [hkept d hd, hothers hd] at ha'
    exact ⟨by rw [hv.activeSessions, hserving]; rfl, by rw [hv.watchCount, hserving]; rfl⟩

end Center

end KeyRegistry
