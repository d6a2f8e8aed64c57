import KeyRegistry.Proofs.Center.Errand
import KeyRegistry.Proofs.Dialogue.Confinement
import KeyRegistry.Proofs.Dialogue.Creating
import KeyRegistry.Proofs.Text.Utf8

/-!
# Centers stay within their namespaces

Each move of an errand alters nothing at the service outside the root of the namespace,
whatever others do between the moves. An errand that numbers a node must not be on the
key of the root itself: the node would come to stand beside the root.
-/

namespace KeyRegistry

open KeyRegistry.Path

namespace World

variable {v w u : World} {c k : Nat} {ns : Namespace} {top other : String} {e e' : Ensemble}

/-- A world whose ensembles have come about by steps, and where `c` is a center of the namespace
`ns`. -/
structure Lawful (c : Nat) (ns : Namespace) (w : World) : Prop where
  reachable : ∀ e ∈ w.ensembles, e.Reachable
  scope : ∀ a, w.active? c = some a → a.scope = ns

def Lawfully (c : Nat) (ns : Namespace) (w w' : World) : Prop := w.Lawful c ns → w'.Lawful c ns

def Confined (top : String) (v u : World) : Prop :=
  ∀ (k : Nat) (e : Ensemble), v.ensembles[k]? = some e →
    ∃ e' : Ensemble, u.ensembles[k]? = some e' ∧ e.tree.Confined top e'.tree

/-- At the service, no node within `other` is created, deleted or written. -/
def Leaves (other : String) (v u : World) : Prop :=
  ∀ (k : Nat) (e : Ensemble), v.ensembles[k]? = some e →
    ∃ e' : Ensemble, u.ensembles[k]? = some e' ∧ ∀ p, isWithin other p = true →
      (e'.tree.node? p).map Tree.core = (e.tree.node? p).map Tree.core

theorem Lawful.ensemble (h : w.Lawful c ns) (k : Nat) : (w.ensemble k).Reachable := by
  unfold World.ensemble
  cases he : w.ensembles[k]? with
  | none => exact .fresh
  | some e => exact h.reachable e (List.mem_of_getElem? he)

theorem Lawful.setEnsemble (h : w.Lawful c ns) (k : Nat) (he : e.Reachable) :
    (w.setEnsemble k e).Lawful c ns := by
  refine ⟨fun e' he' => ?_, h.scope⟩
  rcases List.mem_or_eq_of_mem_set he' with hmem | rfl
  · exact h.reachable e' hmem
  · exact he

theorem confined_of_ensembles (h : u.ensembles = v.ensembles) : v.Confined top u :=
  fun _ e he => ⟨e, by rw [h, he], .refl top _⟩

theorem confined_setEnsemble (h : (w.ensemble k).tree.Confined top e.tree) :
    w.Confined top (w.setEnsemble k e) := by
  intro j e' he'
  obtain ⟨hlt, -⟩ := List.getElem?_eq_some_iff.1 he'
  by_cases hk : k = j
  · subst hk
    have hens : w.ensemble k = e' := by simp [World.ensemble, he']
    exact ⟨e, List.getElem?_set_self hlt, hens ▸ h⟩
  · exact ⟨e', (List.getElem?_set_ne hk).trans he', .refl top _⟩

/-- What is confined to `top` spares every root that neither contains it nor lies within it. -/
theorem Confined.leaves (h : v.Confined top u) (hv : v.Lawful c ns) (hu : u.Lawful c ns)
    (htop : Valid top) (hother : Valid other) (hbelow : isWithin top other = false)
    (habove : isWithin other top = false) : v.Leaves other u := by
  intro k e he
  obtain ⟨e', he', hconfined⟩ := h k e he
  refine ⟨e', he', fun p hw => ?_⟩
  by_cases hp : Valid p
  · have hout : ¬isWithin top p = true := fun htp => by
      rcases isWithin_or_isWithin hother htop hp hw htp with hin | hin <;> simp_all
    rcases hconfined p hout with hsame | ⟨hmem, -⟩
    · exact hsame
    · have hpt := ((mem_ancestors_iff hp htop).1 hmem).1
      simp [isWithin_trans hother hp htop hw hpt] at habove
  · have hnone (e : Ensemble) (hreach : e.Reachable) : e.tree.node? p = none :=
      Tree.not_stored_iff.1 fun ⟨n, hn⟩ => hp (hreach.wellFormed.valid hn)
    rw [hnone e (hv.reachable e (List.mem_of_getElem? he)),
      hnone e' (hu.reachable e' (List.mem_of_getElem? he'))]

end World

/-! ## Tasks -/

namespace Task

variable {α β : Type} {I : World → Prop} {top : String}

/-- Whether each dialogue of a task stays within `top` and the task itself leaves the world as it
is, as long as others see to it that the world is as `I` says. -/
def Stays (I : World → Prop) (top : String) : Task α → Prop
  | done _ => True
  | talk _ d next => d.Stays top fun b => (next b).Stays I top
  | serving _ r _ rest next =>
      r.Stays top ∧ ∀ answer, (rest answer).Stays top fun b => (next b).Stays I top
  | act f next => ∀ w, I w → (f w).2 = w ∧ (next (f w).1).Stays I top
  | sleep _ next => next.Stays I top
  | asleep _ next => next.Stays I top
  | await _ _ next => ∀ came, (next came).Stays I top
  | waiting _ _ next => ∀ came, (next came).Stays I top

theorem Stays.bind {t : Task β} {f : β → Task α} (h : t.Stays I top)
    (hf : ∀ b, (f b).Stays I top) : (t >>= f).Stays I top := by
  show (t.bind f).Stays I top
  induction t with
  | done b => exact hf b
  | talk s d next ih => exact Dialogue.Stays.weaken h fun b hb => ih b hb
  | serving s r hold rest next ih =>
    exact ⟨h.1, fun answer => (h.2 answer).weaken fun b hb => ih b hb⟩
  | act g next ih => exact fun w hw => ⟨(h w hw).1, ih _ (h w hw).2⟩
  | sleep ms next ih => exact ih h
  | asleep due next ih => exact ih h
  | await signal ms next ih => exact fun came => ih came (h came)
  | waiting signal due next ih => exact fun came => ih came (h came)

theorem Stays.look {f : World → β} {next : β → Task α}
    (h : ∀ w, I w → (next (f w)).Stays I top) : (Task.look f >>= next).Stays I top :=
  fun w hw => ⟨rfl, h w hw⟩

section Moves

variable {c : Nat} {ns : Namespace} {w u : World} {t t' : Task α}

/-- A move of a task that stays within `top` alters nothing elsewhere. -/
theorem Stays.step (htop : Valid top) (h : t.Stays (World.Lawful c ns) top) (hw : w.Lawful c ns)
    (hstep : t.step w = some (u, t')) :
    u.Lawful c ns ∧ w.Confined top u ∧ t'.Stays (World.Lawful c ns) top := by
  cases t with
  | done a => simp at hstep
  | talk s d next =>
    have hturn := Dialogue.Stays.turn h
    simp only [Task.step] at hstep
    split at hstep <;> rename_i heq <;> rw [heq] at hturn
    · obtain ⟨rfl, rfl⟩ := Prod.ext_iff.1 (Option.some.inj hstep)
      exact ⟨hw, World.confined_of_ensembles rfl, hturn⟩
    · obtain ⟨rfl, rfl⟩ := Prod.ext_iff.1 (Option.some.inj hstep)
      exact ⟨⟨hw.reachable, hw.scope⟩, World.confined_of_ensembles rfl, hturn⟩
    · obtain ⟨hcall, hrest⟩ := hturn
      split at hstep
      · obtain ⟨rfl, rfl⟩ := Prod.ext_iff.1 (Option.some.inj hstep)
        exact ⟨hw, World.confined_of_ensembles rfl, hrest _⟩
      · rename_i hold v haccept
        obtain ⟨rfl, rfl⟩ := Prod.ext_iff.1 (Option.some.inj hstep)
        unfold World.accept at haccept
        split at haccept
        · rename_i hold' e he
          obtain ⟨-, rfl⟩ := Prod.ext_iff.1 (Except.ok.inj haccept)
          exact ⟨hw.setEnsemble _ (.step (hw.ensemble _) (.accept he)),
            World.confined_setEnsemble (Ensemble.confined_accept he), hcall, hrest⟩
        · cases haccept
  | serving s r hold rest next =>
    simp only [Task.step] at hstep
    split_ifs at hstep
    obtain ⟨rfl, rfl⟩ := Prod.ext_iff.1 (Option.some.inj hstep)
    have hreach := hw.ensemble s.ensemble
    exact ⟨hw.setEnsemble _ (.step hreach (.complete ..)), World.confined_setEnsemble
      (Ensemble.confined_complete htop hreach.wellFormed _ _ h.1), h.2 _⟩
  | act f next =>
    obtain ⟨hsame, hnext⟩ := h w hw
    simp only [Task.step, hsame, Option.some.injEq, Prod.mk.injEq] at hstep
    obtain ⟨rfl, rfl⟩ := hstep
    exact ⟨hw, World.confined_of_ensembles rfl, hnext⟩
  | sleep ms next =>
    obtain ⟨rfl, rfl⟩ := Prod.ext_iff.1 (Option.some.inj hstep)
    refine ⟨hw, World.confined_of_ensembles rfl, ?_⟩
    dsimp only
    split_ifs <;> exact h
  | asleep due next =>
    simp only [Task.step] at hstep
    split_ifs at hstep
    obtain ⟨rfl, rfl⟩ := Prod.ext_iff.1 (Option.some.inj hstep)
    exact ⟨hw, World.confined_of_ensembles rfl, h⟩
  | await signal ms next =>
    simp only [Task.step] at hstep
    split_ifs at hstep <;> obtain ⟨rfl, rfl⟩ := Prod.ext_iff.1 (Option.some.inj hstep)
    · exact ⟨hw, World.confined_of_ensembles rfl, h true⟩
    · exact ⟨hw, World.confined_of_ensembles rfl, h false⟩
    · exact ⟨hw, World.confined_of_ensembles rfl, h⟩
  | waiting signal due next =>
    simp only [Task.step] at hstep
    split_ifs at hstep
    · obtain ⟨rfl, rfl⟩ := Prod.ext_iff.1 (Option.some.inj hstep)
      exact ⟨hw, World.confined_of_ensembles rfl, h true⟩
    · cases due with
      | none => cases hstep
      | some due =>
        simp only at hstep
        split_ifs at hstep
        obtain ⟨rfl, rfl⟩ := Prod.ext_iff.1 (Option.some.inj hstep)
        exact ⟨hw, World.confined_of_ensembles rfl, h false⟩

theorem Stays.execution (htop : Valid top) (h : t.Stays (World.Lawful c ns) top)
    (hw : w.Lawful c ns) (hexec : Execution (World.Lawfully c ns) w t u t') :
    u.Lawful c ns ∧ t'.Stays (World.Lawful c ns) top := by
  induction hexec with
  | here => exact ⟨hw, h⟩
  | move between step _ ih =>
    obtain ⟨hu, -, hnext⟩ := h.step htop (between hw) step
    exact ih hnext hu

end Moves

end Task

/-! ## Errands -/

namespace Center

variable {α : Type} {w v : World} {c : Nat} {a : Active} {ns : Namespace} {h : SessionHandle}
  {key : String} {e : Ensemble}

/-- A center places a key in its namespace, if it is started. -/
theorem place_cases (hw : w.Lawful c ns) (key : String) :
    (∃ error, place w c key = .error error) ∨
      ∃ a, Valid key ∧ place w c key = .ok (a, ns.place key) := by
  cases hactive : w.active? c with
  | none => exact .inl ⟨.notStarted, by simp [place, hactive]⟩
  | some a =>
    rw [← hw.scope a hactive]
    rcases place_of_active hactive key with ⟨hk, heq⟩ | ⟨-, herror⟩
    · exact .inr ⟨a, hk, heq⟩
    · exact .inl herror

theorem stays_say {s : SessionId} {top : String} {I : World → Prop} {d : Dialogue α}
    (hd : d.Stays top fun _ => True) : (Task.say s d).Stays I top :=
  hd.weaken fun _ _ => trivial

theorem stays_onKey {top : String} {d : Active → String → Dialogue (Except RegistryError α)}
    (hd : ∀ a, Valid key → (d a (ns.place key)).Stays top fun _ => True) :
    (onKey c key d).Stays (World.Lawful c ns) top := by
  refine .look fun w hw => ?_
  rcases place_cases hw key with ⟨error, heq⟩ | ⟨a, hk, heq⟩ <;> rw [heq]
  · trivial
  · exact stays_say (hd a hk)

theorem stays_handle {top : String} {I : World → Prop} (hh : h.scope = ns)
    {d : String → Dialogue (Except RegistryError α)}
    (hd : Valid key → (d (ns.place key)).Stays top fun _ => True) :
    (h.onKey key d).Stays I top := by
  subst hh
  unfold SessionHandle.onKey
  rcases h.scope.resolve_cases key with ⟨hk, heq⟩ | ⟨-, fault, heq⟩ <;> rw [heq]
  · exact stays_say (hd hk)
  · trivial

theorem stays_persist (hns : ns.Proper) (value : String) :
    (persist c key value).Stays (World.Lawful c ns) ns.root :=
  stays_onKey fun _ hk => Key.stays_persist hns.valid (Namespace.valid_place hns hk)
    (Namespace.isWithin_root_place hns hk) _

/-- Every errand stays within the root of the namespace. The key of the root itself must not be
given for a numbered node. -/
theorem stays_errand (hns : ns.Proper) (hh : h.scope = ns) {op : Errand}
    (hop : op.Numbers → key ≠ root) :
    (op.task c h key).Stays (World.Lawful c ns) ns.root := by
  have hp (hk : Valid key) := Namespace.valid_place hns hk
  have hw (hk : Valid key) := Namespace.isWithin_root_place hns hk
  have hbelow (hk : Valid key) (hr : key ≠ root) : ns.place key ≠ ns.root := fun he =>
    hr (Namespace.place_injective hns hk valid_root (he.trans (Namespace.place_root hns).symm))
  cases op with
  | get =>
    refine .look fun w hw => ?_
    rcases place_cases hw key with ⟨error, heq⟩ | ⟨a, -, heq⟩ <;> rw [heq]
    · trivial
    · refine .look fun w _ => ?_
      split
      · trivial
      · exact stays_say (.ask trivial fun _ => by split <;> trivial)
  | getDirectly => exact stays_onKey fun _ _ => .ask trivial fun _ => by split <;> trivial
  | childNames => exact stays_onKey fun _ _ => .ask trivial fun _ => trivial
  | countChildren => exact stays_onKey fun _ _ => .ask trivial fun _ => trivial
  | isPresent => exact stays_onKey fun _ _ => .ask trivial fun _ => trivial
  | persist value => exact stays_persist hns value
  | update value => exact stays_onKey fun _ hk => Key.stays_update (hw hk) _
  | persistEphemeral value =>
    exact stays_onKey fun _ hk => Key.stays_persistEphemeral hns.valid (hp hk) (hw hk) _
  | persistEphemeralSequential =>
    exact stays_onKey fun _ hk =>
      Key.stays_createShown hns.valid (hp hk) (hw hk) _ _ fun _ => hbelow hk (hop trivial)
  | persistSequential value =>
    exact stays_onKey fun _ hk =>
      Key.stays_createShown hns.valid (hp hk) (hw hk) _ _ fun _ => hbelow hk (hop trivial)
  | remove => exact stays_onKey fun _ hk => Key.stays_remove (hw hk)
  | time =>
    refine .bind (stays_persist hns "") fun touched => ?_
    split
    · trivial
    · exact stays_onKey fun _ _ => .ask trivial fun _ => by split <;> trivial
  | create content mode =>
    exact stays_handle hh fun hk =>
      Key.stays_createShown hns.valid (hp hk) (hw hk) _ _ fun hmode => hbelow hk (hop hmode)
  | stat => exact stays_handle hh fun _ => .ask trivial fun _ => trivial
  | data => exact stays_handle hh fun _ => .ask trivial fun _ => by split <;> trivial
  | children => exact stays_handle hh fun _ => .ask trivial fun _ => trivial
  | delete => exact stays_handle hh fun hk => Key.stays_remove (hw hk)
  | deleteVersion version => exact stays_handle hh fun hk => .ask (hw hk) fun _ => trivial

/-! ## Reading a numbered node back -/

/-- The node of a numbered path is that of a key, and the consumer is shown this key. -/
theorem exists_key_of_bears (hns : ns.Proper) (hk : Valid key) (hr : key ≠ root) {who : Caller}
    {data : List UInt8} {actual : String} {t : Tree}
    (hb : Dialogue.Bears who (ns.place key) data actual t) :
    ∃ k, Valid k ∧ ns.place k = actual ∧ ns.shown actual = k := by
  obtain ⟨q, -, hq, -, hpar, -⟩ := exists_parent_name hk hr
  have hbeside : parent? actual = some (ns.place q) := by
    rw [hb.beside, Namespace.parent?_place hns hk hr, hpar, Option.map_some]
  obtain ⟨hqv, hn, hj⟩ := (parent?_eq_some_iff hb.valid).1 hbeside
  have hw : isWithin ns.root actual = true := by
    rw [← hj, isWithin_join_iff hns.valid hqv hn]
    exact .inr (Namespace.isWithin_root_place hns hq)
  obtain ⟨k, hkv, rfl⟩ := Namespace.exists_key_of_isWithin hns hb.valid hw
  exact ⟨k, hkv, rfl, Namespace.shown_place hns hkv⟩

/-- A key that was just created reads as what it was created with. -/
theorem ends_say_createShown (hns : ns.Proper) (hactive : w.active? c = some a)
    (hscope : a.scope = ns) (he : w.ensembles[a.session.ensemble]? = some e)
    (hreach : e.Reachable) (hcalm : e.Calm a.session.number) (hk : Valid key) (hr : key ≠ root)
    (hv : w.Puts a.session.ensemble e v) (data : List UInt8) (mode : Mode) :
    Task.Ends World.later (fun result u => ∀ k, result = .ok k →
        Task.Ends World.later (fun text _ => text = .ok (some (Text.Utf8.decodeLossy data))) u
          (getDirectly c k)) v
      (Task.say a.session (Key.createShown ns (ns.place key) data mode)) := by
  obtain ⟨hlt, -⟩ := List.getElem?_eq_some_iff.1 he
  obtain ⟨t', result, hdoes, -, hbears⟩ := Dialogue.exists_does_createWithParents
    hreach.wellFormed (Namespace.valid_place hns hk) (e.caller a.session.number) data mode
  refine Task.ends_talk_alone (hdoes.bind (.done rfl)) hlt hv rfl hcalm rfl
    fun u e' hu ht' hcalm' hcaller _ => .done ?_
  rintro k hmade
  obtain ⟨actual, rfl⟩ : ∃ actual, result = .ok actual := by
    cases result with
    | ok actual => exact ⟨actual, rfl⟩
    | error error => simp [Key.lift] at hmade
  obtain ⟨k', hkv, hplace, hshown⟩ := exists_key_of_bears hns hk hr (hbears actual rfl)
  obtain rfl : k' = k := by simpa [Key.lift, hshown] using hmade
  obtain ⟨n, hn, hdata, hacl⟩ := (hbears actual rfl).stored
  refine ends_onKey_alone hactive hu (fun hnot => absurd hkv hnot) fun _ u hu => ?_
  rw [hscope, hplace]
  have hread := served_getData (hbears actual rfl).valid hn
    (hacl ▸ Tree.permits_acl (e.caller a.session.number))
  rw [hdata] at hread
  exact Task.ends_talk_alone ((Dialogue.Does.ask hread).bind (.done rfl)) hlt hu ht' hcalm'
    hcaller fun _ _ _ _ _ _ _ => .done rfl

theorem decodeLossy_bytes {op : Errand} (hop : op.Numbers) :
    Text.Utf8.decodeLossy op.bytes = op.text := by
  cases op with
  | persistEphemeralSequential => rfl
  | persistSequential value => exact Text.Utf8.decodeLossy_encode value
  | create content mode => rfl
  | _ => exact hop.elim

/-- The key that an errand has numbered reads as the text just written. -/
theorem ends_errand_numbering (hns : ns.Proper) (hactive : w.active? c = some a)
    (hscope : a.scope = ns) (hh : h = ⟨a.session, ns⟩)
    (he : w.ensembles[a.session.ensemble]? = some e) (hreach : e.Reachable)
    (hcalm : e.Calm a.session.number) {op : Errand} (hop : op.Numbers) (hr : key ≠ root) :
    Task.Ends World.later (fun result v => ∀ made k, result = .ok made →
        op.numbered? made = some k →
        Task.Ends World.later (fun text _ => text = .ok (some op.text)) v (getDirectly c k)) w
      (op.task c h key) := by
  subst hscope hh
  have hsay (hk : Valid key) {v : World} (hv : w.Puts a.session.ensemble e v) (mode : Mode) :=
    ends_say_createShown hns hactive rfl he hreach hcalm hk hr hv op.bytes mode
  rw [decodeLossy_bytes hop] at hsay
  have hcenter (mode : Mode) : Task.Ends World.later (fun result v => ∀ k, result = .ok k →
        Task.Ends World.later (fun text _ => text = .ok (some op.text)) v (getDirectly c k)) w
      (onKey c key fun active full => Key.createShown active.scope full op.bytes mode) := by
    exact ends_onKey_alone hactive (World.puts_self he) (fun _ _ _ _ => nofun)
      fun hk v hv => hsay hk hv mode
  cases op with
  | persistEphemeralSequential =>
    refine (hcenter .ephemeralSequential).weaken fun result v hread made k hmade hk => ?_
    obtain rfl : made = k := Option.some.inj hk
    exact hread made hmade
  | persistSequential value =>
    refine (hcenter .persistentSequential).weaken fun result v hread made k hmade hk => ?_
    obtain rfl : made = k := Option.some.inj hk
    exact hread made hmade
  | create content mode =>
    show Task.Ends _ _ _ (SessionHandle.onKey _ key _)
    unfold SessionHandle.onKey
    rcases a.scope.resolve_cases key with ⟨hk, heq⟩ | ⟨-, fault, heq⟩ <;> rw [heq]
    · refine (hsay hk (World.puts_self he) mode).weaken fun result v hread made k hmade hk => ?_
      obtain rfl : made = k := by simpa [Errand.numbered?, show mode.sequential = true from hop]
        using hk
      exact hread made hmade
    · exact .done nofun
  | _ => exact hop.elim

/-- Whatever others do meanwhile, no move of an errand alters anything outside the root of the
center's namespace, missing nodes above the root apart, which are created empty; so it spares what
is under any unrelated root. And the key that a numbering errand yields, on a session that is left
alone, reads at the same center as what was just written. A numbering errand must not be on the
key of the root itself. -/
theorem errand_confined {name : String} {op : Errand} (hname : Namespace.ofName name = .ok ns)
    (hroot : ns.root ≠ root) (hw : w.Lawful c ns) (hhandle : sessionHandle w c = .ok h)
    (hop : op.Numbers → key ≠ root) :
    (∀ v v' u t t', Task.Execution (World.Lawfully c ns) w (op.task c h key) v t →
      World.Lawfully c ns v v' → t.step v' = some (u, t') →
      v'.Confined ns.root u ∧ ∀ other, Valid other → isWithin ns.root other = false →
        isWithin other ns.root = false → v'.Leaves other u) ∧
    ∀ a e, w.active? c = some a → w.ensembles[a.session.ensemble]? = some e →
      e.Calm a.session.number → op.Numbers →
      Task.Ends World.later (fun result v => ∀ made k, result = .ok made →
          op.numbered? made = some k →
          Task.Ends World.later (fun text _ => text = .ok (some op.text)) v (getDirectly c k)) w
        (op.task c h key) := by
  have hns := Namespace.proper_of_ne_root hname hroot
  obtain ⟨a, hactive, hh⟩ : ∃ a, w.active? c = some a ∧ h = ⟨a.session, a.scope⟩ := by
    unfold sessionHandle at hhandle
    split at hhandle
    · rename_i a hactive
      exact ⟨a, hactive, (Except.ok.inj hhandle).symm⟩
    · cases hhandle
  have hscope := hw.scope a hactive
  rw [hscope] at hh
  refine ⟨fun v v' u t t' hexec hmeanwhile hstep => ?_, fun a' e hactive' he hcalm hnumbers => ?_⟩
  · have hstays := stays_errand (c := c) hns (h := h) (by rw [hh]) hop
    obtain ⟨hv, ht⟩ := hstays.execution hns.valid hw hexec
    obtain ⟨hu, hconfined, -⟩ := ht.step hns.valid (hmeanwhile hv) hstep
    exact ⟨hconfined, fun other hother hbelow habove =>
      hconfined.leaves (hmeanwhile hv) hu hns.valid hother hbelow habove⟩
  · obtain rfl : a = a' := Option.some.inj (hactive.symm.trans hactive')
    exact ends_errand_numbering hns hactive hscope hh he
      (hw.reachable e (List.mem_of_getElem? he)) hcalm hnumbers (hop hnumbers)

def unopened : World where
  ensembles := [{}]
  connectors := [⟨.inMemory "ns", .ensemble 0⟩]
  centers := [{ connector := 0 }]

def opened : World := ((start 0 fun _ => 0).run 25 unopened).1

/-- The start has opened a session, created the root of the namespace and set a watch on it. -/
theorem reachable_opened : (opened.ensemble 0).Reachable := by
  have hconnected : (({} : Ensemble).connect "memory" none).2.Reachable :=
    .step .fresh (.connect ..)
  have hcreated := hconnected.step (.complete _ 1 none (.create "/ns" [] .persistent))
  exact hcreated.step (.complete _ 1 none (.watch "/ns"))

theorem opened_lawful : opened.Lawful 0 ⟨"/ns"⟩ where
  reachable e he := by
    obtain rfl : e = opened.ensemble 0 := List.mem_singleton.1 he
    exact reachable_opened
  scope := by
    rintro a ha
    obtain rfl := Option.some.inj ha
    rfl

/-- A job that is queued under a numbered key reads back under this key. -/
theorem errand_confined_queue :
    ((start 0 fun _ => 0).run 25 unopened).2.result? = some (.ok ()) ∧
    (((Errand.persistSequential "job").task 0 ⟨⟨0, 1⟩, ⟨"/ns"⟩⟩ "/queue/n-").run 16
        opened).2.result? = some (.ok "/queue/n-0000000000") ∧
    (∀ v v' u t t', Task.Execution (World.Lawfully 0 ⟨"/ns"⟩) opened
        ((Errand.persistSequential "job").task 0 ⟨⟨0, 1⟩, ⟨"/ns"⟩⟩ "/queue/n-") v t →
      World.Lawfully 0 ⟨"/ns"⟩ v v' → t.step v' = some (u, t') → v'.Confined "/ns" u) ∧
    Task.Ends World.later (fun result v => ∀ made k, result = .ok made →
        (Errand.persistSequential "job").numbered? made = some k →
        Task.Ends World.later (fun text _ => text = .ok (some "job")) v (getDirectly 0 k))
      opened ((Errand.persistSequential "job").task 0 ⟨⟨0, 1⟩, ⟨"/ns"⟩⟩ "/queue/n-") := by
  have hname : Namespace.ofName "ns" = .ok ⟨"/ns"⟩ := by decide
  have hop : (Errand.persistSequential "job").Numbers → "/queue/n-" ≠ root := fun _ => by decide
  have hconfined := errand_confined (h := ⟨⟨0, 1⟩, ⟨"/ns"⟩⟩) hname (by decide) opened_lawful rfl hop
  refine ⟨rfl, rfl, fun v v' u t t' hexec hmeanwhile hstep =>
    (hconfined.1 v v' u t t' hexec hmeanwhile hstep).1, ?_⟩
  exact hconfined.2 ⟨⟨0, 1⟩, 0, ⟨"/ns"⟩⟩ _ rfl rfl ⟨rfl, rfl⟩ trivial

/-- On the key of the root, the number goes behind the path of the root: the node stands beside the
root, and the key that was yielded does not lead to it. -/
theorem persistSequential_root_escapes :
    ((persistSequential 0 "/" "job").run 16 opened).2.result? = some (.ok "/ns0000000001") ∧
    ((((persistSequential 0 "/" "job").run 16 opened).1.ensemble 0).tree.node?
        "/ns0000000001").map Node.data = some (Text.Utf8.encode "job") ∧
    isWithin "/ns" "/ns0000000001" = false ∧
    ((getDirectly 0 "/ns0000000001").run 16
        ((persistSequential 0 "/" "job").run 16 opened).1).2.result? = some (.ok none) :=
  ⟨rfl, rfl, rfl, rfl⟩

end Center

end KeyRegistry
