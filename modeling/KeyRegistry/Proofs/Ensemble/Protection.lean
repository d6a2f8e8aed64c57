import KeyRegistry.Proofs.Ensemble.Ending
import KeyRegistry.Proofs.Tree.Protection
import KeyRegistry.Proofs.Tree.Veil

/-!
# What a creator is protected from

Sessions that are somebody else's change nothing under a node of the creator, and
what they are answered does not depend on the data of the creator's nodes: two
ensembles that differ in these bytes alone answer alike and go on to differ in them
alone.
-/

namespace KeyRegistry

open KeyRegistry.Path

/-- What a client does in its session: the halves of its calls, and closing it. -/
inductive Act
  | accept (now : Nat)
  | complete (fault : Option ServiceError) (r : Request)
  | close
  deriving DecidableEq, Repr

@[reducible] def Act.Answer : Act → Type
  | .accept _ => Except ServiceError Hold
  | .complete _ r => r.Answer
  | .close => Bool

namespace Ensemble

variable {e e' : Ensemble} {id : Nat} {o : String}

def act (e : Ensemble) (id : Nat) : (a : Act) → a.Answer × Ensemble
  | .accept now =>
    match e.accept now id with
    | .ok (hold, e) => (.ok hold, e)
    | .error error => (.error error, e)
  | .complete fault r => e.complete id fault r
  | .close => e.close id

def actAll (e : Ensemble) : List (Nat × Act) → List (Sigma Act.Answer) × Ensemble
  | [] => ([], e)
  | (id, a) :: acts =>
    let (answer, e) := e.act id a
    let (answers, e) := e.actAll acts
    (⟨a, answer⟩ :: answers, e)

/-! ## Acts as steps -/

theorem act_eq_or_step (e : Ensemble) (id : Nat) (a : Act) :
    (e.act id a).2 = e ∨ Step e (e.act id a).2 := by
  cases a with
  | accept now =>
    cases haccept : e.accept now id with
    | error error => exact .inl (by simp [act, haccept])
    | ok admitted =>
      obtain ⟨hold, e'⟩ := admitted
      exact .inr (by simpa [act, haccept] using Step.accept haccept)
  | complete fault r => exact .inr (.complete e id fault r)
  | close =>
    by_cases hclosed : e.phase id = .closed
    · exact .inl (by simp [act, close, hclosed])
    · exact .inr (step_close hclosed)

theorem Reachable.act (h : Reachable e) (id : Nat) (a : Act) : Reachable (e.act id a).2 := by
  rcases act_eq_or_step e id a with heq | hstep
  · rwa [heq]
  · exact .step h hstep

/-- Nobody becomes somebody else by an act. -/
theorem caller_act (e : Ensemble) (id k : Nat) (a : Act) :
    (e.act id a).2.caller k = e.caller k := by
  cases a with
  | accept now =>
    unfold act accept
    split_ifs <;> rfl
  | complete fault r => exact caller_congr (complete_frame e id fault r).1 k
  | close =>
    unfold act close
    split
    · rfl
    · exact caller_setPhase e id k .closed
    · exact caller_setPhase e id k .closed

/-- What an act changes in the tree is changed on behalf of its session. -/
theorem exists_steps_act (h : e.tree.WellFormed) (id : Nat) (a : Act) :
    ∃ evs, Tree.Steps (e.caller id) e.tree evs (e.act id a).2.tree := by
  cases a with
  | accept now =>
    refine ⟨[], ?_⟩
    unfold act accept
    split_ifs <;> exact .nil _
  | complete fault r => exact ⟨_, (evolves_complete e id fault r).tree⟩
  | close =>
    unfold act close
    split <;> rename_i hphase
    · exact ⟨[], .nil _⟩
    · exact ⟨[], .nil _⟩
    · exact ⟨_, (evolves_endSession h hphase (by decide) (ephemerals_perm e id)).tree⟩

/-! ## Integrity -/

theorem Reachable.signed (h : Reachable e) (id : Nat) : e.tree.Signed (e.caller id) :=
  fun p n hn howner => (h.tended p n id hn howner).2

theorem passesBy_actAll (h : Reachable e) {acts : List (Nat × Act)}
    (hid : ∀ a ∈ acts, (e.caller a.1).identity ≠ some o) :
    Tree.PassesBy o e.tree (e.actAll acts).2.tree := by
  induction acts generalizing e with
  | nil => exact .refl
  | cons first acts ih =>
    obtain ⟨id, a⟩ := first
    obtain ⟨evs, hsteps⟩ := exists_steps_act h.wellFormed id a
    have hself := hsteps.passesBy h.wellFormed (h.signed id) (hid (id, a) (by simp))
    have hothers : ∀ b ∈ acts, ((e.act id a).2.caller b.1).identity ≠ some o := fun b hb => by
      rw [caller_act]
      exact hid b (by simp [hb])
    exact hself.trans (ih (h.act id a) hothers)

/-! ## Confidentiality -/

def veil (o : String) (e : Ensemble) : Ensemble := { e with tree := e.tree.veil o }

theorem readable_veil (hid : (e.caller id).identity ≠ some o) (p : String) :
    (e.veil o).readable id p = e.readable id p := by
  by_cases hp : Valid p
  · cases hn : e.tree.node? p with
    | none =>
      rw [readable_of_absent hp hn, readable_of_absent hp (by simp [veil, hn])]
    | some n =>
      have hn' : (e.veil o).tree.node? p = some (n.veil o) := by simp [veil, hn]
      cases hperm : n.acl.permits (e.caller id).identity with
      | false =>
        rw [readable_of_not_permitted hp hn hperm,
          readable_of_not_permitted hp hn' (by rw [Node.acl_veil]; exact hperm)]
      | true =>
        rw [Node.veil_of_ne (Acl.ne_creator_of_permits hperm hid)] at hn'
        rw [readable_of_permitted hp hn hperm, readable_of_permitted hp hn' hperm]
  · obtain ⟨fault, hf⟩ := exists_fault_of_not_valid hp
    simp [readable, checkPath_of_fault hf, bind, Except.bind]

theorem settle_veil {α : Type} (o : String) (e : Ensemble) (r : Except ServiceError (Change α)) :
    (e.veil o).settle (r.map (Change.veil o)) = ((e.settle r).1, (e.settle r).2.veil o) := by
  cases r <;> rfl

theorem perform_veil (h : e.tree.WellFormed) (hid : (e.caller id).identity ≠ some o)
    (r : Request) : (e.veil o).perform id r = ((e.perform id r).1, (e.perform id r).2.veil o) := by
  have hcaller : (e.veil o).caller id = e.caller id := rfl
  cases r with
  | stat p => simp [perform, veil, Option.map_map, Function.comp_def]
  | getData p => simp [perform, readable_veil hid]
  | getChildren p => simp [perform, readable_veil hid]
  | create p data mode =>
    simp only [perform]
    rw [← settle_veil, hcaller]
    exact congrArg (e.veil o).settle (Tree.create_veil hid e.tree p data mode)
  | setData p data version =>
    simp only [perform]
    rw [← settle_veil, hcaller]
    refine congrArg (e.veil o).settle ?_
    rw [show (e.veil o).tree = e.tree.veil o from rfl, Tree.setData_veil h hid]
    cases checkPath p <;> rfl
  | delete p version =>
    simp only [perform]
    rw [← settle_veil, hcaller]
    refine congrArg (e.veil o).settle ?_
    by_cases hp : Valid p
    · rw [checkPath_of_valid hp]
      exact Tree.delete_veil hp o e.tree version _
    · obtain ⟨fault, hf⟩ := exists_fault_of_not_valid hp
      rw [checkPath_of_fault hf]
      rfl
  | commit ops =>
    simp only [perform]
    rw [← settle_veil, hcaller]
    refine congrArg (e.veil o).settle ?_
    cases hops : ops.forM fun op => checkPath op.path with
    | error error => rfl
    | ok u => exact Tree.applyAll_veil h hid (forM_checkPath_eq_ok_iff.1 hops) 0
  | watch root =>
    dsimp only [perform]
    split <;> rfl

theorem endSession_veil (o : String) (e : Ensemble) (id : Nat) (order : List String) :
    (e.veil o).endSession id order = (e.endSession id order).veil o := by
  simp only [endSession, veil, tree_endWatches, Tree.unlinkAll_veil]
  rfl

theorem act_veil (h : e.tree.WellFormed) (hid : (e.caller id).identity ≠ some o) (a : Act) :
    (e.veil o).act id a = ((e.act id a).1, (e.act id a).2.veil o) := by
  have hphase : (e.veil o).phase id = e.phase id := rfl
  cases a with
  | accept now =>
    simp only [act, accept, hphase]
    split_ifs <;> rfl
  | complete fault r =>
    simp only [act, complete, hphase]
    split
    · rfl
    · rfl
    · cases fault with
      | some error => rfl
      | none => exact perform_veil h hid r
  | close =>
    simp only [act, close, hphase]
    split
    · rfl
    · rfl
    · have hephemerals : (e.veil o).ephemerals id = e.ephemerals id :=
        congrArg (List.mergeSort · _) (Tree.ephemeralsOf_veil o e.tree id)
      rw [hephemerals]
      exact congrArg (Prod.mk true) (endSession_veil o (e.setPhase id .closed) id _)

/-- Ensembles that look alike under the veil answer alike and go on to look alike. -/
theorem actAll_eq_of_veil_eq (h : e.tree.WellFormed) (hveil : e'.veil o = e.veil o)
    {acts : List (Nat × Act)} (hid : ∀ a ∈ acts, (e.caller a.1).identity ≠ some o) :
    (e'.actAll acts).1 = (e.actAll acts).1 ∧
      (e'.actAll acts).2.veil o = (e.actAll acts).2.veil o := by
  induction acts generalizing e e' with
  | nil => exact ⟨rfl, hveil⟩
  | cons first acts ih =>
    obtain ⟨id, a⟩ := first
    have hself : (e.caller id).identity ≠ some o := hid (id, a) (by simp)
    have hself' : (e'.caller id).identity ≠ some o := by
      show ((e'.veil o).caller id).identity ≠ some o
      rwa [hveil]
    have h' : e'.tree.WellFormed := h.of_veil_eq (congrArg Ensemble.tree hveil)
    have hact : ((e'.act id a).1, (e'.act id a).2.veil o) =
        ((e.act id a).1, (e.act id a).2.veil o) := by
      rw [← act_veil h' hself' a, ← act_veil h hself a, hveil]
    obtain ⟨hanswer, hafter⟩ := Prod.mk.inj hact
    obtain ⟨evs, hsteps⟩ := exists_steps_act h id a
    have hothers : ∀ b ∈ acts, ((e.act id a).2.caller b.1).identity ≠ some o := fun b hb => by
      rw [caller_act]
      exact hid b (by simp [hb])
    obtain ⟨hanswers, hend⟩ := ih (hsteps.wellFormed h) hafter hothers
    exact ⟨by simp [actAll, hanswer, hanswers], hend⟩

/-- What lies under a node of a creator is the same creator's. Acts of other sessions change it by
elementary changes that spare it: what lies under such a node stays, and so does the node itself
while it has children, and as long as it is there it is as it was. Neither the answers nor anything
but these data depend on the data of the creator's nodes. -/
theorem creator_protected (h : Reachable e) (o : String) :
    (∀ p n q m, e.tree.node? p = some n → n.acl = .creator o → e.tree.node? q = some m →
      isWithin p q = true → m.acl = .creator o) ∧
    ∀ acts : List (Nat × Act), (∀ a ∈ acts, (e.caller a.1).identity ≠ some o) →
      Tree.PassesBy o e.tree (e.actAll acts).2.tree ∧
      (∀ p q n m, parent? p = some q → e.tree.node? q = some m → m.acl = .creator o →
        e.tree.node? p = some n → (e.actAll acts).2.tree.node? p = some n) ∧
      (∀ p n, e.tree.node? p = some n → n.acl = .creator o →
        (n.children ≠ [] → (e.actAll acts).2.tree.node? p = some n) ∧
        ∀ m, (e.actAll acts).2.tree.node? p = some m → m.stat.czxid = n.stat.czxid → m = n) ∧
      ∀ e' : Ensemble, e'.veil o = e.veil o → (e'.actAll acts).1 = (e.actAll acts).1 ∧
        (e'.actAll acts).2.veil o = (e.actAll acts).2.veil o := by
  have ht := h.wellFormed
  refine ⟨fun p n q m hn hacl hm hw => ht.creator_of_isWithin hn hacl hm hw, fun acts hid => ?_⟩
  have hpasses := passesBy_actAll h hid
  exact ⟨hpasses, fun p q n m hq hm hacl hn => hpasses.node?_of_parent ht hn hq hm hacl,
    fun p n hn hacl => ⟨fun hc => Tree.PassesBy.node?_of_children hpasses hn hacl hc,
      fun m hm hz => Tree.PassesBy.eq_of_czxid ht hpasses hn hacl hm hz⟩,
    fun e' hveil => actAll_eq_of_veil_eq ht hveil hid⟩

def guarded (byte : UInt8) : Ensemble :=
  ((((({} : Ensemble).connect "memory" (some "ada")).2.complete 1 none
    (.create "/a" [] .persistent)).2.complete 1 none
    (.create "/a/b" [byte] .persistent)).2.connect "memory" none).2

theorem guarded_reachable (byte : UInt8) : Reachable (guarded byte) :=
  .step (.step (.step (.step .fresh (.connect ..)) (.complete ..)) (.complete ..)) (.connect ..)

/-- Whoever is not `ada` does not get at the child of her node, nor learns its byte. -/
theorem creator_protected_guarded :
    ((guarded 1).actAll [(2, .complete none (.getData "/a/b")),
      (2, .complete none (.delete "/a/b" none)), (2, .close)]).2.tree.node? "/a/b" =
        (guarded 1).tree.node? "/a/b" ∧
    ((guarded 2).actAll [(2, .complete none (.getData "/a/b")),
      (2, .complete none (.delete "/a/b" none)), (2, .close)]).1 =
        ((guarded 1).actAll [(2, .complete none (.getData "/a/b")),
          (2, .complete none (.delete "/a/b" none)), (2, .close)]).1 := by
  obtain ⟨-, hacts⟩ := creator_protected (guarded_reachable 1) "ada"
  obtain ⟨-, hbelow, -, halike⟩ := hacts [(2, .complete none (.getData "/a/b")),
    (2, .complete none (.delete "/a/b" none)), (2, .close)] (by decide)
  exact ⟨hbelow "/a/b" "/a" _ _ (by decide) rfl rfl rfl, (halike (guarded 2) rfl).1⟩

end Ensemble

end KeyRegistry
