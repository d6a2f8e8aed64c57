import KeyRegistry.Proofs.Center.Closed
import KeyRegistry.Proofs.Center.Lifecycle

/-!
# A center refines a registry

Whatever calls the user of a center makes, one after the other, each is answered as
the registry of its keys answers it.
-/

namespace KeyRegistry

open KeyRegistry.Path World

namespace Center

variable {α : Type} {w : World} {c : Nat} {settings : Settings} {ns : Namespace} {r : Registry}

/-- A call about a key, answered as `served` if the center is started. -/
theorem ends_onKey {key : String} {d : String → Dialogue (Except RegistryError α)}
    {wrap : Except RegistryError α → Reply} {served : Except RegistryError α × Registry}
    (hk : Valid key) (hfail : (wrap (.error .notStarted)).Agrees (wrap (.error .notStarted)))
    (hkept : served.2.started = r.started)
    (hd : ∀ who t, t.Represents ns who.identity (some who.session) r → ∃ t' result,
      (d (ns.place key)).Does who t t' result ∧ (wrap result).Agrees (wrap served.1) ∧
      t'.Represents ns who.identity (some who.session) served.2)
    (h : Stands c settings ns [] r w) :
    Task.Ends Meanwhile (fun reply w => reply.Agrees ((r.guarded served).map wrap id).1 ∧
      Stands c settings ns [] ((r.guarded served).map wrap id).2 w) w (do
        return wrap (← onKey c key fun _ full => d full)) := by
  refine Task.Ends.bind (Task.ends_look stable_stands h fun w h => ?_)
  unfold Registry.guarded
  cases h with
  | stopped scene turning idle offers off represents =>
    rw [place, scene.active?_eq, idle, off, if_neg Bool.false_ne_true]
    exact .done (.done ⟨hfail, .stopped scene turning idle offers off represents⟩)
  | @started x a t scene turning active scope mirrors serves on represents =>
    obtain ⟨t', result, hdoes, hagrees, hrep⟩ :=
      hd ⟨a.session.number, settings.identity⟩ t represents
    rw [place, scene.active?_eq, active, on, if_pos rfl]
    dsimp only
    rw [scope, Namespace.resolve_of_valid ns hk]
    refine Task.ends_talk_of_does ((aside_scene c x ⟨settings, .ensemble a.session.ensemble⟩).and
      (aside_mirrors a.replica ns.root .started)) hdoes ⟨scene, mirrors⟩ serves ?_
    intro w ⟨scene, mirrors⟩ serves
    exact .done (.done ⟨hagrees, .started scene turning active scope mirrors serves
      (hkept.trans on) hrep⟩)

section

variable (hns : ns.Proper) (hcheck : settings.check = .ok ())
  (hnamed : settings.namespaceOf = .ok ns) (hseed : settings.seedFile = none)

include hns hcheck hnamed hseed

theorem ends_call {call : Call} (hkey : ∀ key ∈ call.key?, Valid key)
    (h : Stands c settings ns [] r w) :
    Task.Ends Meanwhile (fun reply w => reply.Agrees (r.serve ns call).1 ∧
      Stands c settings ns [] (r.serve ns call).2 w) w (Center.call c call) := by
  cases call with
  | start draws =>
    refine Task.Ends.bind ((ends_start hns hcheck hnamed hseed draws h).weaken ?_)
    rintro _ w ⟨rfl, h⟩
    exact .done ⟨rfl, h⟩
  | stop =>
    refine Task.Ends.bind ((ends_stop h).weaken ?_)
    exact fun _ w ⟨hs, h⟩ => .done ⟨hs, h⟩
  | persist key value =>
    have hk : Valid key := hkey key rfl
    refine ends_onKey hk rfl (r.started_persist ..) (fun who t hrep => ?_) h
    obtain ⟨t', hdoes, hrep'⟩ := Key.does_persist hns hrep hk value
    exact ⟨t', _, hdoes, rfl, hrep'⟩
  | update key value =>
    have hk : Valid key := hkey key rfl
    refine ends_onKey hk rfl (r.started_update ..) (fun who t hrep => ?_) h
    obtain ⟨t', hdoes, hrep'⟩ := Key.does_update hns hrep hk value
    exact ⟨t', _, hdoes, rfl, hrep'⟩
  | persistEphemeral key value =>
    have hk : Valid key := hkey key rfl
    refine ends_onKey hk rfl (r.started_persistEphemeral ..) (fun who t hrep => ?_) h
    obtain ⟨t', hdoes, hrep'⟩ := Key.does_persistEphemeral hns hrep hk value
    exact ⟨t', _, hdoes, rfl, hrep'⟩
  | remove key =>
    have hk : Valid key := hkey key rfl
    refine ends_onKey hk rfl rfl (fun who t hrep => ?_) h
    obtain ⟨t', hdoes, hrep'⟩ := Key.does_remove hns hrep hk
    exact ⟨t', _, hdoes, rfl, hrep'⟩
  | getDirectly key =>
    have hk : Valid key := hkey key rfl
    exact ends_onKey hk rfl rfl (fun who t hrep => ⟨t, _, Key.does_read hns hrep hk, rfl, hrep⟩) h
  | isPresent key =>
    have hk : Valid key := hkey key rfl
    exact ends_onKey hk rfl rfl
      (fun who t hrep => ⟨t, _, Key.does_isPresent hns hrep hk, rfl, hrep⟩) h
  | countChildren key =>
    have hk : Valid key := hkey key rfl
    exact ends_onKey hk rfl rfl
      (fun who t hrep => ⟨t, _, Key.does_countChildren hns hrep hk, rfl, hrep⟩) h
  | childNames key =>
    have hk : Valid key := hkey key rfl
    exact ends_onKey hk rfl rfl
      (fun who t hrep => ⟨t, _, Key.does_childNames hns hrep hk, rfl, hrep⟩) h

/-- A run of calls, by induction on them. -/
theorem ends_callAll {calls : List Call} (hkeys : ∀ call ∈ calls, ∀ key ∈ call.key?, Valid key)
    (h : Stands c settings ns [] r w) :
    Task.Ends Meanwhile (fun replies w =>
      List.Forall₂ Reply.Agrees replies (r.serveAll ns calls).1 ∧
      Stands c settings ns [] (r.serveAll ns calls).2 w) w (callAll c calls) := by
  induction calls generalizing r w with
  | nil => exact .done ⟨.nil, h⟩
  | cons call calls ih =>
    obtain ⟨hkey, hkeys⟩ := List.forall_mem_cons.1 hkeys
    refine Task.Ends.bind ((ends_call hns hcheck hnamed hseed hkey h).weaken ?_)
    intro reply w ⟨hreply, h⟩
    refine Task.Ends.bind ((ih hkeys h).weaken ?_)
    exact fun replies w ⟨hreplies, h⟩ => .done ⟨.cons hreply hreplies, h⟩

end

theorem proper_of_namespaceOf (hnamed : settings.namespaceOf = .ok ns)
    (hname : Namespace.trimmed settings.namespaceName ≠ []) : ns.Proper := by
  unfold Settings.namespaceOf at hnamed
  cases hofName : Namespace.ofName settings.namespaceName with
  | error fault =>
    rw [hofName] at hnamed
    cases hnamed
  | ok ns' =>
    rw [hofName] at hnamed
    obtain rfl := Except.ok.inj hnamed
    exact Namespace.proper_of_ofName hofName hname

def Unused (c : Nat) (settings : Settings) (w : World) : Prop :=
  ∃ x backend, w.Scene c x ⟨settings, backend⟩ ∧ x.active = none ∧ x.turns = [] ∧
    w.Offers ⟨settings, backend⟩ .empty

/-- The calls on a center that was never started, over an ensemble of its own that keeps nothing
yet, are answered as those on an empty registry. -/
theorem callAll_agrees (hcheck : settings.check = .ok ())
    (hnamed : settings.namespaceOf = .ok ns) (hseed : settings.seedFile = none)
    (hname : Namespace.trimmed settings.namespaceName ≠ [])
    (hunused : Unused c settings w) {calls : List Call}
    (hkeys : ∀ call ∈ calls, ∀ key ∈ call.key?, Valid key) :
    (Registry.serveAll ns {} calls).2.Closed ∧
      Task.Ends Meanwhile
        (fun replies _ => List.Forall₂ Reply.Agrees replies (Registry.serveAll ns {} calls).1) w
        (callAll c calls) := by
  have hns := proper_of_namespaceOf hnamed hname
  obtain ⟨x, backend, scene, idle, turning, offers⟩ := hunused
  have hstands : Stands c settings ns [] {} w :=
    .stopped scene turning idle offers rfl (.fresh hns settings.identity)
  refine ⟨Registry.closed_empty.serveAll hkeys, ?_⟩
  exact (ends_callAll hns hcheck hnamed hseed hkeys hstands).weaken fun _ _ h => h.1

def jobs : Settings := .inMemory "jobs"

def bench : World := { connectors := [⟨jobs, .undecided⟩], centers := [{ connector := 0 }] }

def chores : List Call :=
  [.start fun _ => 0, .persist "/a/b" "1", .persistEphemeral "/a/c" "2", .persist "/a/c/d" "3",
    .childNames "/a", .stop, .start fun _ => 0, .childNames "/a", .getDirectly "/a/b"]

/-- Over a stop the ephemeral key goes and the others stay. -/
theorem callAll_agrees_chores :
    Task.Ends Meanwhile (fun replies _ => List.Forall₂ Reply.Agrees replies
      [.outcome (.ok ()), .outcome (.ok ()), .outcome (.ok ()),
        .outcome (.error (.service (.noChildrenForEphemerals "/jobs/a/c"))),
        .names (.ok ["b", "c"]), .shutdown .drained, .outcome (.ok ()), .names (.ok ["b"]),
        .text (.ok (some "1"))]) bench (callAll 0 chores) := by
  have hcheck : jobs.check = .ok () := rfl
  have hnamed : jobs.namespaceOf = .ok ⟨"/jobs"⟩ := rfl
  have hunused : Unused 0 jobs bench :=
    ⟨{ connector := 0 }, .undecided, ⟨rfl, rfl⟩, rfl, rfl, rfl, rfl⟩
  have hkeys : ∀ call ∈ chores, ∀ key ∈ call.key?, Valid key := by
    simp only [chores, Call.key?, List.forall_mem_cons]
    decide
  exact (callAll_agrees hcheck hnamed rfl (by decide) hunused hkeys).2

end Center

end KeyRegistry
