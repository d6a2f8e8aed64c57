import KeyRegistry.Proofs.Center.Company

/-!
# Persists under contention

Centers of one namespace persist keys at the same time. If nobody removes anything, all of
them succeed, and a key has the value of the persist that wrote it last. Beside removals a
persist may lose the node that it relies on, and then it fails.
-/

namespace KeyRegistry

open KeyRegistry.Path

/-- The last element with a property. -/
theorem exists_last_mem {α : Type} {P : α → Prop} {l : List α} (h : ∃ a ∈ l, P a) :
    ∃ before a after, l = before ++ a :: after ∧ P a ∧ ∀ b ∈ after, ¬P b := by
  induction l with
  | nil => simp at h
  | cons b l ih =>
    by_cases hlater : ∃ a ∈ l, P a
    · obtain ⟨before, a, after, rfl, ha, hafter⟩ := ih hlater
      exact ⟨b :: before, a, after, rfl, ha, hafter⟩
    · push Not at hlater
      obtain ⟨a, hmem, ha⟩ := h
      rcases List.mem_cons.1 hmem with rfl | hmem
      · exact ⟨[], a, l, rfl, ha, hlater⟩
      · exact absurd ha (hlater a hmem)

namespace Namespace

variable {ns : Namespace} {name key : String} {t : Tree}

/-- Under a root that is there, what lies above the root has children and so is not ephemeral. -/
theorem lasting_place (hname : ofName name = .ok ns) (ht : t.WellFormed)
    (hroot : t.Stored ns.root)
    (hlasting : ∀ p n, t.node? p = some n → isWithin ns.root p = true → n.stat.owner = none)
    (hkey : Valid key) : t.Lasting (ns.place key) := by
  intro q n hn hw
  by_cases hr : ns.root = Path.root
  · exact hlasting q n hn (hr ▸ isWithin_root (ht.valid hn))
  · have hns := proper_of_ne_root hname hr
    rcases isWithin_or_isWithin hns.valid (ht.valid hn) (valid_place hns hkey)
      (isWithin_root_place hns hkey) hw with hbelow | habove
    · exact hlasting q n hn hbelow
    · by_contra howner
      obtain rfl := ht.eq_of_childless hn (ht.ephemeral_childless hn howner) hroot habove
      exact howner (hlasting _ n hn (isWithin_refl hns.valid))

end Namespace

namespace Company

variable {k : Nat} {ns : Namespace} {identity : Option String} {jobs : List Job} {w₀ w : World}
  {e₀ e : Ensemble} {log : List (Nat × Exchange)} {ts : List (Task (Except RegistryError Unit))}
  {t : Task (Except RegistryError Unit)} {i c : Nat} {x : Exchange} {p key value : String}
  {r : Except RegistryError Unit}

/-- Another client has deleted a node on the way to `full` between two exchanges of the client at
place `i` that follow each other. -/
def Undercut (jobs : List Job) (i : Nat) (full : String) (log : List (Nat × Exchange)) : Prop :=
  ∃ first x others y last, log = first ++ (i, x) :: (others ++ (i, y) :: last) ∧
    Task.own i others = [] ∧ ∃ j z job q, (j, z) ∈ others ∧ jobs[j]? = some job ∧
      job.edit = .remove ∧ ⟨.deleted, q⟩ ∈ z.events ∧ isWithin q full = true

/-- The last exchange of a log that has changed the node of a key is a persist of the key and has
written its value. -/
def LastWrite (ns : Namespace) (jobs : List Job) (log : List (Nat × Exchange))
    (key value : String) : Prop :=
  ∃ before j x after c, log = before ++ (j, x) :: after ∧ jobs[j]? = some ⟨c, key, .persist value⟩ ∧
    x.Writes (ns.place key) (Text.Utf8.encode value) ∧
    ∀ entry ∈ after, ∀ ev ∈ entry.2.events, ev.path ≠ ns.place key

theorem halts_persist (c : Nat) (key value : String) : (Center.persist c key value).Halts := by
  refine Task.halts_act fun placed => ?_
  rcases placed with error | ⟨a, full⟩
  · exact Task.halts_done _
  · exact Task.halts_talk (Key.walkless_persist full _) Task.halts_done

/-- A persist ends, whatever the others do. -/
theorem halts (h : Task.Joint World.Meanwhile w₀ (jobs.map Job.task) log w ts)
    (hjob : jobs[i]? = some ⟨c, key, .persist value⟩) (ht : ts[i]? = some t) : t.Halts := by
  refine h.kept (P := Task.Halts) (fun t ht => ?_) (fun v u t t' halts => halts.step) ht
  rw [List.getElem?_map, hjob] at ht
  obtain rfl := Option.some.inj ht
  exact halts_persist c key value

section Persist

variable (hc : Company k ns identity jobs w₀ e₀)
  (h : Task.Joint World.Meanwhile w₀ (jobs.map Job.task) log w ts)

include hc h

/-- A persist that has come to its result has written its value with its last exchange, or failed on
its way. -/
theorem lands (hjob : jobs[i]? = some ⟨c, key, .persist value⟩)
    (hlasting : e₀.tree.Lasting (ns.place key)) (ht : ts[i]? = some t) (hr : t.result? = some r) :
    Key.Lands (ns.place key) (Text.Utf8.encode value) (Task.own i log) r := by
  obtain ⟨job, a, hjob', ha, hat⟩ := (hc.working h).busy i t ht
  obtain rfl := Option.some.inj (hjob.symm.trans hjob')
  obtain ⟨name, hname⟩ := hc.named
  rcases hat with ⟨rfl, -⟩ | ⟨hspeaks, -⟩
  · cases hr
  · exact Key.lands_persist (Namespace.valid_place_of_ofName hname ha.valid)
      (fun x hx => hc.fair h hlasting (Task.mem_own_iff.1 hx)) hspeaks.transcript hr

/-- What is torn was cut by the removal of another client. -/
theorem undercut (htorn : Dialogue.Torn p (Task.own i log)) : Undercut jobs i p log := by
  obtain ⟨before, x, y, after, hown, q, hw, hstored, hgone⟩ := htorn
  obtain ⟨first, others, last, rfl, hothers⟩ := Task.exists_between hown
  obtain ⟨e, -, hx, hrest⟩ := hc.rest h rfl
  rw [List.map_append, List.map_cons] at hrest
  obtain ⟨z, hz, hdeleted⟩ := hrest.cut.1.exists_deleted hx hstored hgone
  obtain ⟨⟨j, z⟩, hj, rfl⟩ := List.mem_map.1 hz
  obtain ⟨job, hjob, -, hasks, -⟩ := hc.entry h (i := j) (x := z) (by simp [hj])
  refine ⟨first, x, others, y, last, rfl, hothers, j, z, job, q, hj, hjob, ?_, hdeleted, hw⟩
  obtain ⟨c, key, edit⟩ := job
  cases edit with
  | persist value => exact absurd rfl (Key.Asks.kind_ne_deleted hasks hdeleted)
  | remove => rfl

/-- Nodes on the way to a key stay open to the identity: what is created follows its rule. -/
theorem passable (hp : e₀.tree.Passable identity p) (hx : (i, x) ∈ log) :
    x.before.tree.Passable identity p := by
  obtain ⟨-, -, -, hbefore⟩ := hc.invariant h (P := fun t => t.Passable identity p) hp
    fun j y hy ht hbefore q m hm hq => by
      obtain ⟨job, -, -, hasks, hplain, hcaller⟩ := hc.entry h hy
      rcases hplain.kept_or_made hasks.upkeep ht hm with ⟨n, hn, hacl, -⟩ | ⟨hacl, -⟩
      · rw [hacl, hbefore q n hn hq]
      · rw [hacl, ← hcaller, Tree.permits_acl]
  exact hbefore i x hx

theorem not_barred (hp : e₀.tree.Passable identity p) : ¬Dialogue.Barred p (Task.own i log) := by
  rintro ⟨x, hx, q, n, hw, hn, hperm⟩
  have hmem := Task.mem_own_iff.1 hx
  obtain ⟨job, -, -, -, -, hcaller⟩ := hc.entry h hmem
  rw [hcaller, hc.passable h hp hmem q n hn hw] at hperm
  cases hperm

/-- A value that is written and not changed later is there in the end. -/
theorem data_after {before after : List (Nat × Exchange)} {data : List UInt8}
    (he : w.ensembles[k]? = some e) (hlog : log = before ++ (i, x) :: after)
    (hx : x.Writes p data) (hafter : ∀ entry ∈ after, ∀ ev ∈ entry.2.events, ev.path ≠ p) :
    ∃ n, e.tree.node? p = some n ∧ n.data = data := by
  obtain ⟨e', he', ht, hrest⟩ := hc.rest h hlog
  obtain rfl := Option.some.inj (he.symm.trans he')
  obtain ⟨n, hn, hdata⟩ := hx.stored
  obtain ⟨m, hm, hsame⟩ := hrest.data_kept ht hn (List.forall_mem_map.2 hafter)
  exact ⟨m, hm, hsame.trans hdata⟩

/-! ## Persists alone -/

section Alone

variable (hpersist : ∀ job ∈ jobs, job.edit ≠ .remove)

include hpersist

theorem persist_entry (hx : (i, x) ∈ log) : ∃ c key value,
    jobs[i]? = some ⟨c, key, .persist value⟩ ∧ Valid key ∧ Valid (ns.place key) ∧
      Key.Asks (ns.place key) (Text.Utf8.encode value) x.request := by
  obtain ⟨⟨c, key, edit⟩, hjob, hp, hasks, -⟩ := hc.entry h hx
  have hmem := List.mem_of_getElem? hjob
  obtain ⟨a, ha⟩ := hc.staffed _ hmem
  cases edit with
  | persist value => exact ⟨c, key, value, hjob, ha.valid, hp, hasks⟩
  | remove => exact absurd rfl (hpersist _ hmem)

theorem kind_ne_deleted (hx : (i, x) ∈ log) {ev : Event} (hev : ev ∈ x.events) :
    ev.kind ≠ .deleted := by
  obtain ⟨c, key, value, -, -, -, hasks⟩ := hc.persist_entry h hpersist hx
  exact hasks.kind_ne_deleted hev

/-- A persist among persists, with every node on its way open to it, succeeds. -/
theorem lands_ok (hjob : jobs[i]? = some ⟨c, key, .persist value⟩)
    (hlasting : e₀.tree.Lasting (ns.place key)) (hopen : e₀.tree.Passable identity (ns.place key))
    (ht : ts[i]? = some t) : ∀ r, t.result? = some r → r = .ok () ∧
      ∃ x, (i, x) ∈ log ∧ x.Writes (ns.place key) (Text.Utf8.encode value) := by
  intro r hr
  rcases hc.lands h hjob hlasting ht hr with
    ⟨rfl, init, x, hown, hx⟩ | ⟨fault, -, ⟨-, htorn⟩ | ⟨-, hbarred⟩⟩
  · exact ⟨rfl, x, Task.mem_own_iff.1 (by simp [hown]), hx⟩
  · obtain ⟨first, x, others, y, last, rfl, -, j, z, job, q, -, hj, hremove, -⟩ :=
      hc.undercut h htorn
    exact absurd hremove (hpersist job (List.mem_of_getElem? hj))
  · exact absurd hbarred (hc.not_barred h hopen)

/-- What is there after an exchange is there when a later one begins. -/
theorem stored_later {before after : List (Nat × Exchange)} {entry : Nat × Exchange}
    (hlog : log = before ++ (i, x) :: after) (hp : x.after.tree.Stored p) (hentry : entry ∈ after) :
    entry.2.before.tree.Stored p := by
  obtain ⟨e, -, ht, hrest⟩ := hc.rest h hlog
  refine (hrest.stored ht hp fun z hz hdeleted => ?_).2 _ (List.mem_map_of_mem hentry)
  obtain ⟨⟨j, z⟩, hj, rfl⟩ := List.mem_map.1 hz
  exact hc.kind_ne_deleted h hpersist (i := j) (x := z) (by simp [hlog, hj]) hdeleted rfl

/-- What changes the node of a key that is there already is a persist of that key. -/
theorem overwrites (hlasting : ∀ job ∈ jobs, e₀.tree.Lasting (ns.place job.key))
    (hx : (i, x) ∈ log) {ev : Event} (hev : ev ∈ x.events)
    (hstored : x.before.tree.Stored ev.path) :
    ∃ c key value, jobs[i]? = some ⟨c, key, .persist value⟩ ∧ Valid key ∧
      ev.path = ns.place key ∧ x.Writes (ns.place key) (Text.Utf8.encode value) := by
  obtain ⟨c, key, value, hjob, hk, hp, hasks⟩ := hc.persist_entry h hpersist hx
  have hfair := hc.fair h (hlasting _ (List.mem_of_getElem? hjob)) hx
  exact ⟨c, key, value, hjob, hk, hasks.overwrites hfair hp hev hstored⟩

/-- After a write to a key the last change of its node is the write of a persist of the key, and the
node has the value of that one. -/
theorem exists_lastWrite (he : w.ensembles[k]? = some e)
    (hlasting : ∀ job ∈ jobs, e₀.tree.Lasting (ns.place job.key))
    (hjob : jobs[i]? = some ⟨c, key, .persist value⟩) (hx : (i, x) ∈ log)
    (hwrites : x.Writes (ns.place key) (Text.Utf8.encode value)) :
    ∃ n value, e.tree.node? (ns.place key) = some n ∧ n.data = Text.Utf8.encode value ∧
      LastWrite ns jobs log key value := by
  obtain ⟨name, hname⟩ := hc.named
  obtain ⟨a, ha⟩ := hc.staffed _ (List.mem_of_getElem? hjob)
  obtain ⟨before, ⟨j, y⟩, after, hlog, ⟨ev, hev, hpath⟩, hafter⟩ := exists_last_mem
    (P := fun entry : Nat × Exchange => ∃ ev ∈ entry.2.events, ev.path = ns.place key)
    ⟨(i, x), hx, hwrites.tells⟩
  push Not at hafter
  -- the last change is a write over the node, unless it is the one that is given
  obtain ⟨d, value', hj, hlast⟩ : ∃ c value, jobs[j]? = some ⟨c, key, .persist value⟩ ∧
      y.Writes (ns.place key) (Text.Utf8.encode value) := by
    rcases List.mem_append.1 (hlog ▸ hx) with hx | hx
    · obtain ⟨early, late, rfl⟩ := List.append_of_mem hx
      obtain ⟨n, hn, -⟩ := hwrites.stored
      have hstored : y.before.tree.Stored ev.path := hpath ▸ hc.stored_later h hpersist
        (hlog.trans (List.append_assoc ..)) ⟨n, hn⟩ (List.mem_append_right late List.mem_cons_self)
      obtain ⟨d, key', value', hj, hk', hplace, hover⟩ :=
        hc.overwrites h hpersist hlasting (i := j) (by simp [hlog]) hev hstored
      obtain rfl := Namespace.place_injective_of_ofName hname hk' ha.valid (hplace.symm.trans hpath)
      exact ⟨d, value', hj, hover⟩
    · rcases List.mem_cons.1 hx with heq | hx
      · obtain ⟨rfl, rfl⟩ := Prod.ext_iff.1 heq
        exact ⟨c, value, hjob, hwrites⟩
      · obtain ⟨ev, hev, hpath⟩ := hwrites.tells
        exact absurd hpath (hafter _ hx ev hev)
  obtain ⟨n, hn, hdata⟩ := hc.data_after h he hlog hlast hafter
  exact ⟨n, value', hn, hdata, before, j, y, after, d, hlog, hj, hlast, hafter⟩

/-- A node that no key stands for keeps its value. -/
theorem data_kept (he : w.ensembles[k]? = some e)
    (hlasting : ∀ job ∈ jobs, e₀.tree.Lasting (ns.place job.key)) {n : Node}
    (hn : e₀.tree.node? p = some n) (hp : ∀ job ∈ jobs, ns.place job.key ≠ p) :
    ∃ m, e.tree.node? p = some m ∧ m.data = n.data := by
  obtain ⟨e', he', hanswers⟩ := (hc.working h).answers
  obtain rfl := Option.some.inj (he.symm.trans he')
  have ht := hc.reachable.wellFormed
  obtain ⟨-, hstored⟩ := hanswers.stored ht ⟨n, hn⟩ (List.forall_mem_map.2 fun _ hi hdeleted =>
    hc.kind_ne_deleted h hpersist hi hdeleted rfl)
  refine hanswers.data_kept ht hn (List.forall_mem_map.2 fun entry hi ev hev hpath => ?_)
  obtain ⟨c, key, value, hjob, -, hplace, -⟩ := hc.overwrites h hpersist hlasting hi hev
    (hpath ▸ hstored _ (List.mem_map_of_mem hi))
  exact hp _ (List.mem_of_getElem? hjob) (hplace.symm.trans hpath)

end Alone

end Persist

end Company

open Company

namespace Center

variable {k : Nat} {ns : Namespace} {identity : Option String} {jobs : List Job} {w₀ w : World}
  {e₀ : Ensemble} {log : List (Nat × Exchange)} {ts : List (Task (Except RegistryError Unit))}
  {t : Task (Except RegistryError Unit)} {i c : Nat} {key value : String}

def desk : Ensemble :=
  let e := ((({} : Ensemble).connect "memory" none).2.connect "memory" none).2
  let e := (e.complete 1 none (.create "/ns" [] .persistent)).2
  (e.complete 1 none (.create "/ns/k" (Text.Utf8.encode "old") .persistent)).2

def office : World where
  ensembles := [desk]
  centers := [{ connector := 0, active := some ⟨⟨0, 1⟩, 0, ⟨"/ns"⟩⟩ },
    { connector := 0, active := some ⟨⟨0, 2⟩, 1, ⟨"/ns"⟩⟩ }]

theorem desk_reachable : desk.Reachable :=
  .step (.step (.step (.step .fresh (.connect ..)) (.connect ..)) (.complete ..)) (.complete ..)

theorem company_office (hjobs : ∀ job ∈ jobs, Valid job.key ∧ job.center < 2) :
    Company 0 ⟨"/ns"⟩ none jobs office desk where
  ensemble := rfl
  reachable := desk_reachable
  unfaulted := rfl
  named := ⟨"ns", by decide⟩
  staffed job hjob := by
    obtain ⟨hvalid, hlt⟩ := hjobs job hjob
    obtain ⟨center, key, edit⟩ := job
    match center, hlt with
    | 0, _ => exact ⟨_, hvalid, rfl, rfl, rfl, rfl, rfl⟩
    | 1, _ => exact ⟨_, hvalid, rfl, rfl, rfl, rfl, rfl⟩

theorem plain_desk {p : String} {n : Node} (hn : desk.tree.node? p = some n) :
    n.stat.owner = none ∧ n.acl.permits none = true := by
  have hall : ∀ entry ∈ desk.tree.nodes,
      entry.2.stat.owner = none ∧ entry.2.acl.permits none = true := by decide +kernel
  exact hall _ ((Tree.mem_iff_lookup desk_reachable.wellFormed.paths_nodup).2 hn)

/-- Beside persists and removals of others a persist ends. It succeeds, and then its last call has
written the value; or it fails for the lack of a node, and then between two of its calls another
client has removed a node on the way; or it has met a node that is closed to it. It never fails
because a node exists. -/
theorem persist_beside_removals (hc : Company k ns identity jobs w₀ e₀)
    (h : Task.Joint World.Meanwhile w₀ (jobs.map Job.task) log w ts)
    (hjob : jobs[i]? = some ⟨c, key, .persist value⟩)
    (hlasting : e₀.tree.Lasting (ns.place key)) (ht : ts[i]? = some t) :
    t.Halts ∧ ∀ r, t.result? = some r →
      (r = .ok () ∧ ∃ init x, Task.own i log = init ++ [x] ∧
        x.Writes (ns.place key) (Text.Utf8.encode value)) ∨
      (∃ fault q, r = .error (.service fault) ∧ fault.rootCause = .noNode q ∧
        Undercut jobs i (ns.place key) log) ∨
      ∃ fault q, r = .error (.service fault) ∧ fault.rootCause = .noAuth q ∧
        Dialogue.Barred (ns.place key) (Task.own i log) := by
  refine ⟨halts h hjob ht, fun r hr => ?_⟩
  rcases hc.lands h hjob hlasting ht hr with
    hok | ⟨fault, rfl, ⟨⟨q, hcause⟩, htorn⟩ | ⟨⟨q, hcause⟩, hbarred⟩⟩
  · exact .inl hok
  · exact .inr (.inl ⟨fault, q, rfl, hcause, hc.undercut h htorn⟩)
  · exact .inr (.inr ⟨fault, q, rfl, hcause, hbarred⟩)

def atOdds : List Job := [⟨0, "/k", .persist "new"⟩, ⟨1, "/k", .remove⟩]

def tussle : List (Nat × Exchange) × World × List (Task (Except RegistryError Unit)) :=
  Task.play (List.replicate 3 0 ++ List.replicate 9 1 ++ List.replicate 3 0) office
    (atOdds.map Job.task)

theorem persist_beside_removals_undercut : ∃ log w ts,
    Task.Joint World.Meanwhile office (atOdds.map Job.task) log w ts ∧
    (ts.map Task.result?)[0]? =
      some (some (.error (.service (.transactionFailed 0 (.noNode "/ns/k"))))) ∧
    Undercut atOdds 0 "/ns/k" log := by
  have hrun : Task.Joint World.Meanwhile office (atOdds.map Job.task) tussle.1 tussle.2.1
      tussle.2.2 := Task.joint_play World.Meanwhile.refl _ _ _
  have hresult : (tussle.2.2.map Task.result?)[0]? =
      some (some (.error (.service (.transactionFailed 0 (.noNode "/ns/k"))))) := by
    decide +kernel
  obtain ⟨t, ht, hr⟩ := Option.map_eq_some_iff.1 ((List.getElem?_map ..).symm.trans hresult)
  obtain ⟨-, hends⟩ := persist_beside_removals (company_office (by decide)) hrun (i := 0) rfl
    (fun q n hn _ => (plain_desk hn).1) ht
  rcases hends _ hr with ⟨hok, -⟩ | ⟨fault, q, -, -, hundercut⟩ | ⟨fault, q, herror, hcause, -⟩
  · cases hok
  · exact ⟨_, _, _, hrun, hresult, hundercut⟩
  · cases herror
    cases hcause

/-- The persist of a key that is there fails for the lack of its node, which consumers of a lenient
surface never hear of, and the key is left without a value. -/
theorem persist_loses_to_removal : ∃ log w ts error,
    Task.Joint World.Meanwhile office (atOdds.map Job.task) log w ts ∧
    ts.map Task.result? = [some (.error error), some (.ok ())] ∧
    error = .service (.transactionFailed 0 (.noNode "/ns/k")) ∧
    error.disposition = .ignored ∧ (w.ensemble 0).tree.node? "/ns/k" = none :=
  ⟨tussle.1, tussle.2.1, tussle.2.2, _, Task.joint_play World.Meanwhile.refl _ _ _,
    by decide +kernel, rfl, rfl, by decide +kernel⟩

/-- Persists side by side, with every node on their way open to them, all end and succeed. In the
end each of their keys is there with every node above it, and has the value of the persist that
wrote it last. What was there before and is none of their keys keeps its value. -/
theorem persists_land (hc : Company k ns identity jobs w₀ e₀)
    (hpersist : ∀ job ∈ jobs, job.edit ≠ .remove) (hroot : e₀.tree.Stored ns.root)
    (hlasting : ∀ p n, e₀.tree.node? p = some n → isWithin ns.root p = true → n.stat.owner = none)
    (hopen : ∀ job ∈ jobs, e₀.tree.Passable identity (ns.place job.key))
    (h : Task.Joint World.Meanwhile w₀ (jobs.map Job.task) log w ts) :
    (∀ t ∈ ts, t.Halts ∧ ∀ r, t.result? = some r → r = .ok ()) ∧
    ∃ e, w.ensembles[k]? = some e ∧
      (∀ (i : Nat) (job : Job) (t : Task (Except RegistryError Unit)), jobs[i]? = some job →
        ts[i]? = some t → t.result?.isSome →
        (∀ p, Valid p → isWithin p (ns.place job.key) = true → e.tree.Stored p) ∧
        ∃ n value, e.tree.node? (ns.place job.key) = some n ∧ n.data = Text.Utf8.encode value ∧
          LastWrite ns jobs log job.key value) ∧
      ∀ p n, e₀.tree.node? p = some n → (∀ job ∈ jobs, ns.place job.key ≠ p) →
        ∃ m, e.tree.node? p = some m ∧ m.data = n.data := by
  obtain ⟨name, hname⟩ := hc.named
  have ht₀ := hc.reachable.wellFormed
  have hway : ∀ job ∈ jobs, e₀.tree.Lasting (ns.place job.key) := fun job hjob => by
    obtain ⟨a, ha⟩ := hc.staffed job hjob
    exact Namespace.lasting_place hname ht₀ hroot hlasting ha.valid
  obtain ⟨e, he, hanswers⟩ := (hc.working h).answers
  have hdone (i : Nat) (job : Job) (t : Task (Except RegistryError Unit))
      (hjob : jobs[i]? = some job) (ht : ts[i]? = some t) : t.Halts ∧ ∀ r, t.result? = some r →
        r = .ok () ∧ ∃ n value, e.tree.node? (ns.place job.key) = some n ∧
          n.data = Text.Utf8.encode value ∧ LastWrite ns jobs log job.key value := by
    have hmem := List.mem_of_getElem? hjob
    have hlasts := hway job hmem
    have hopens := hopen job hmem
    obtain ⟨c, key, edit⟩ := job
    cases edit with
    | persist value =>
      refine ⟨halts h hjob ht, fun r hr => ?_⟩
      obtain ⟨rfl, x, hx, hwrites⟩ := hc.lands_ok h hpersist hjob hlasts hopens ht r hr
      exact ⟨rfl, hc.exists_lastWrite h hpersist he hway hjob hx hwrites⟩
    | remove => exact absurd rfl (hpersist _ hmem)
  refine ⟨fun t ht => ?_, e, he, fun i job t hjob ht hend => ?_, fun p n hn hp =>
    hc.data_kept h hpersist he hway hn hp⟩
  · obtain ⟨i, ht⟩ := List.getElem?_of_mem ht
    obtain ⟨job, a, hjob, -⟩ := (hc.working h).busy i t ht
    exact (hdone i job t hjob ht).imp_right fun hends r hr => (hends r hr).1
  · obtain ⟨r, hr⟩ := Option.isSome_iff_exists.1 hend
    obtain ⟨-, n, value, hn, hdata, hlast⟩ := (hdone i job t hjob ht).2 r hr
    exact ⟨fun p hp hw => (hanswers.wellFormed ht₀).1.stored_of_isWithin hp ⟨n, hn⟩ hw,
      n, value, hn, hdata, hlast⟩

def atOnce : List Job :=
  [⟨0, "/a/b", .persist "x"⟩, ⟨1, "/a", .persist "y"⟩, ⟨1, "/a/b", .persist "z"⟩]

def rush : List (Nat × Exchange) × World × List (Task (Except RegistryError Unit)) :=
  Task.play (List.replicate 3 1 ++ List.replicate 9 0 ++ List.replicate 9 1 ++
    List.replicate 9 2 ++ List.replicate 9 0) office (atOnce.map Job.task)

theorem persists_land_nested : ∃ log w ts,
    Task.Joint World.Meanwhile office (atOnce.map Job.task) log w ts ∧
    ts.map Task.result? = [some (.ok ()), some (.ok ()), some (.ok ())] ∧
    ∃ e, w.ensembles[0]? = some e ∧
      (∃ n value, e.tree.node? "/ns/a/b" = some n ∧ n.data = Text.Utf8.encode value ∧
        LastWrite ⟨"/ns"⟩ atOnce log "/a/b" value) ∧
      ∃ m, e.tree.node? "/ns/k" = some m ∧ m.data = Text.Utf8.encode "old" := by
  have hrun : Task.Joint World.Meanwhile office (atOnce.map Job.task) rush.1 rush.2.1 rush.2.2 :=
    Task.joint_play World.Meanwhile.refl _ _ _
  have hresults : rush.2.2.map Task.result? = [some (.ok ()), some (.ok ()), some (.ok ())] := by
    decide +kernel
  obtain ⟨t, ht, hr⟩ := Option.map_eq_some_iff.1
    ((List.getElem?_map ..).symm.trans (congrArg (fun rs => rs[0]?) hresults))
  obtain ⟨n, hn, hdata⟩ : ∃ n, desk.tree.node? "/ns/k" = some n ∧
      n.data = Text.Utf8.encode "old" := ⟨_, rfl, by decide +kernel⟩
  obtain ⟨-, e, he, hlanded, hkept⟩ := persists_land (company_office (by decide)) (by decide)
    ⟨_, rfl⟩ (fun _ _ hn _ => (plain_desk hn).1) (fun _ _ _ _ hn _ => (plain_desk hn).2) hrun
  obtain ⟨m, hm, hsame⟩ := hkept _ n hn (by decide)
  exact ⟨_, _, _, hrun, hresults, e, he, (hlanded 0 _ t rfl ht (by rw [hr]; rfl)).2, m, hm,
    hsame.trans hdata⟩

end Center

end KeyRegistry
