import KeyRegistry.Proofs.Namespace.Place
import KeyRegistry.Proofs.Seed.Sowing
import KeyRegistry.Proofs.Text.Utf8

/-!
# Applying a seed

The entries of a seed are applied one after the other, each by asking whether its place is there.
An application fails if and only if the place of some entry is not ready for it; otherwise every
entry is counted, and `Seeded` says key by key what the tree holds then. It holds the same when the
seed is applied again.
-/

namespace KeyRegistry

open KeyRegistry.Path

variable {who : Caller} {t t' : Tree} {p : String} {n : Node} {data : List UInt8}
  {version : Option Int32} {error : ServiceError}

def SeedReport.total (r : SeedReport) : Nat := r.created + r.overwritten + r.kept

namespace Seed

open Dialogue (Does)

variable {overwrite : Bool} {value : String} {report : SeedReport}

/-! ## One entry -/

theorem setData_of_stored (hn : t.node? p = some n) (hperm : n.acl.permits who.identity = true)
    (data : List UInt8) : t.setData p data none who = .ok ⟨t.withData p n data,
      [⟨.dataChanged, p⟩], Tree.writtenStat n.stat data (t.zxid + 1)⟩ :=
  Tree.setData_of_expects hn hperm (Tree.expects_none n)

section Stored

variable (h : t.WellFormed) (hn : t.node? p = some n)

include h hn

theorem dataLength_beq_zero : (n.stat.dataLength == 0) = decide (n.data = []) := by
  rw [h.dataLength_eq hn, beq_eq_decide, decide_eq_decide, Tree.wordLength_eq_zero_iff]

theorem does_stat (who : Caller) : Does who t (Dialogue.ask (.stat p)) t (.ok (some n.stat)) := by
  have hstat := Does.ask (served_stat who t (h.valid hn))
  rwa [hn] at hstat

theorem does_applyEntry_written (hwrite : overwrite = true ∨ n.data = [])
    (hperm : n.acl.permits who.identity = true) :
    Does who t (applyEntry p value overwrite report) (t.withData p n (Text.Utf8.encode value))
      (.ok { report with overwritten := report.overwritten + 1 }) := by
  have hset := setData_of_stored hn hperm (Text.Utf8.encode value)
  refine (does_stat h hn who).bind ?_
  simp only [dataLength_beq_zero h hn, Bool.or_eq_true, decide_eq_true_eq, if_pos hwrite]
  exact (Does.ask (served_setData (h.valid hn) hset)).bind (.done rfl)

theorem does_applyEntry_refused (hwrite : overwrite = true ∨ n.data = [])
    (hperm : n.acl.permits who.identity = false) :
    Does who t (applyEntry p value overwrite report) t (.error (.noAuth p)) := by
  have hset : t.setData p (Text.Utf8.encode value) none who = .error (.noAuth p) :=
    Tree.setData_of_not_permitted hn hperm
  refine (does_stat h hn who).bind ?_
  simp only [dataLength_beq_zero h hn, Bool.or_eq_true, decide_eq_true_eq, if_pos hwrite]
  exact (Does.ask (served_setData_error (h.valid hn) hset)).bind (.done rfl)

theorem does_applyEntry_kept (hkeep : ¬(overwrite = true ∨ n.data = [])) :
    Does who t (applyEntry p value overwrite report) t
      (.ok { report with kept := report.kept + 1 }) := by
  refine (does_stat h hn who).bind ?_
  simp only [dataLength_beq_zero h hn, Bool.or_eq_true, decide_eq_true_eq, if_neg hkeep]
  exact .done rfl

end Stored

section Absent

variable (hp : Valid p) (habsent : ¬t.Stored p)

include hp habsent

theorem does_stat_absent (who : Caller) : Does who t (Dialogue.ask (.stat p)) t (.ok none) := by
  have hstat := Does.ask (served_stat who t hp)
  rwa [Tree.not_stored_iff.1 habsent] at hstat

theorem does_applyEntry_created {actual : String}
    (hcreate : Does who t (Dialogue.createWithParents p (Text.Utf8.encode value) .persistent) t'
      (.ok actual)) :
    Does who t (applyEntry p value overwrite report) t'
      (.ok { report with created := report.created + 1 }) :=
  (does_stat_absent hp habsent who).bind (hcreate.bind (.done rfl))

theorem does_applyEntry_failed (hne : ∀ q, error ≠ .nodeExists q)
    (hcreate : Does who t (Dialogue.createWithParents p (Text.Utf8.encode value) .persistent) t'
      (.error error)) :
    Does who t (applyEntry p value overwrite report) t' (.error error) := by
  refine (does_stat_absent hp habsent who).bind (hcreate.bind ?_)
  cases error with
  | nodeExists q => exact absurd rfl (hne q)
  | _ => exact .done rfl

end Absent

/-- An entry whose place is ready is counted, and its place has its value; any other fails. -/
theorem does_applyEntry (h : t.WellFormed) (hp : Valid p) (who : Caller) (value : String)
    (overwrite : Bool) (report : SeedReport) :
    (Ready who overwrite t p ∧ ∃ t' report',
      Does who t (applyEntry p value overwrite report) t' (.ok report') ∧
      report'.total = report.total + 1 ∧ t'.WellFormed ∧
      Sown who overwrite [(p, Text.Utf8.encode value)] t t') ∨
    (¬Ready who overwrite t p ∧ ∃ t' error,
      Does who t (applyEntry p value overwrite report) t' (.error error)) := by
  by_cases hstored : t.Stored p
  · obtain ⟨n, hn⟩ := hstored
    have hready (hperm : overwrite = true ∨ n.data = [] → n.acl.permits who.identity = true) :
        Ready who overwrite t p := by
      refine ⟨fun {m} hm hwrite => ?_, fun habsent => absurd ⟨n, hn⟩ habsent⟩
      obtain rfl := Option.some.inj (hn.symm.trans hm)
      exact hperm hwrite
    by_cases hwrite : overwrite = true ∨ n.data = []
    · cases hperm : n.acl.permits who.identity with
      | true =>
        have hset := setData_of_stored hn hperm (Text.Utf8.encode value)
        exact .inl ⟨hready fun _ => hperm, _, _, does_applyEntry_written h hn hwrite hperm,
          by simp [SeedReport.total]; omega, (Tree.step_of_setData hset).2.wellFormed h,
          sown_written h hn hwrite _⟩
      | false =>
        refine .inr ⟨fun hr => ?_, _, _, does_applyEntry_refused h hn hwrite hperm⟩
        rw [hr.writable hn hwrite] at hperm
        cases hperm
    · exact .inl ⟨hready fun hw => absurd hw hwrite, _, _, does_applyEntry_kept h hn hwrite,
        by simp [SeedReport.total]; omega, h, sown_kept h hn hwrite _⟩
  · rcases Dialogue.does_createWithParents_absent h hp hstored who (Text.Utf8.encode value) with
      ⟨hcan, top, m, missing, t', hnear, hcreate, hwf, hextends⟩ | ⟨hnot, error, hne, hcreate⟩
    · exact .inl ⟨⟨fun hn => absurd ⟨_, hn⟩ hstored, fun _ => hcan⟩, _, _,
        does_applyEntry_created hp hstored hcreate, by simp [SeedReport.total]; omega, hwf,
        sown_created hnear hstored hextends⟩
    · exact .inr ⟨fun hr => hnot (hr.creatable hstored), _, _,
        does_applyEntry_failed hp hstored hne hcreate⟩

/-! ## All entries -/

variable {ns : Namespace} {entries : List (String × String)}

def placed (ns : Namespace) (entries : List (String × String)) : List (String × List UInt8) :=
  entries.map fun e => (ns.place e.1, Text.Utf8.encode e.2)

def AllReady (who : Caller) (ns : Namespace) (overwrite : Bool) (entries : List (String × String))
    (t : Tree) : Prop :=
  ∀ e ∈ entries, Valid e.1 ∧ Ready who overwrite t (ns.place e.1)

theorem AllReady.sown {es : List (String × List UInt8)} (h : AllReady who ns overwrite entries t)
    (hs : Sown who overwrite es t t') (ht : t.WellFormed) (ht' : t'.WellFormed) :
    AllReady who ns overwrite entries t' :=
  fun e he => (h e he).imp_right (hs.ready ht ht')

structure Applied (who : Caller) (ns : Namespace) (overwrite : Bool)
    (entries : List (String × String)) (t t' : Tree) : Prop where
  wellFormed : t'.WellFormed
  sown : Sown who overwrite (placed ns entries) t t'
  again : AllReady who ns overwrite entries t'

theorem Applied.nil (h : t.WellFormed) : Applied who ns overwrite [] t t :=
  ⟨h, .nil who overwrite t, by simp [AllReady]⟩

theorem Applied.cons {key : String} (h : t.WellFormed) (hwf : t'.WellFormed) (hkey : Valid key)
    (hready : Ready who overwrite t (ns.place key))
    (hsown : Sown who overwrite [(ns.place key, Text.Utf8.encode value)] t t') {t'' : Tree}
    (hrest : Applied who ns overwrite entries t' t'') :
    Applied who ns overwrite ((key, value) :: entries) t t'' := by
  refine ⟨hrest.wellFormed, hsown.append hrest.sown,
    List.forall_mem_cons.2 ⟨⟨hkey, ?_⟩, hrest.again⟩⟩
  exact hrest.sown.ready hwf hrest.wellFormed (hsown.ready h hwf hready)

/-- What an application comes to that counts from `report` on: either all entries have been
counted and applied, or one of them was not ready. -/
def Applies (who : Caller) (ns : Namespace) (overwrite : Bool) (entries : List (String × String))
    (report : SeedReport) (t t' : Tree) : Except RegistryError SeedReport → Prop
  | .ok report' => report'.total = report.total + entries.length ∧
      Applied who ns overwrite entries t t'
  | .error _ => ¬AllReady who ns overwrite entries t

theorem does_applyEntries (hplace : ∀ key, Valid key → Valid (ns.place key)) (h : t.WellFormed)
    (who : Caller) (overwrite : Bool) (report : SeedReport) (entries : List (String × String)) :
    ∃ t' result, Does who t (applyEntries ns overwrite report entries) t' result ∧
      Applies who ns overwrite entries report t t' result := by
  induction entries generalizing t report with
  | nil => exact ⟨t, .ok report, .done rfl, rfl, .nil h⟩
  | cons e entries ih =>
    obtain ⟨key, value⟩ := e
    rcases ns.resolve_cases key with ⟨hkey, hresolve⟩ | ⟨hkey, fault, hresolve⟩
    · rcases does_applyEntry h (hplace key hkey) who value overwrite report with
        ⟨hready, t₁, report₁, hdoes, hcount, hwf, hsown⟩ | ⟨hready, t₁, error, hdoes⟩
      · obtain ⟨t', result, hrest, happlies⟩ := ih hwf report₁
        refine ⟨t', result, by rw [applyEntries, hresolve]; exact hdoes.bind hrest, ?_⟩
        cases result with
        | ok report' =>
          obtain ⟨htotal, happlied⟩ := happlies
          exact ⟨by simp only [List.length_cons]; omega, .cons h hwf hkey hready hsown happlied⟩
        | error error =>
          exact fun hall => happlies (AllReady.sown (List.forall_mem_cons.1 hall).2 hsown h hwf)
      · refine ⟨t₁, .error (.service error), ?_, fun hall => hready (hall _ List.mem_cons_self).2⟩
        rw [applyEntries, hresolve]
        exact hdoes.bind (.done rfl)
    · refine ⟨t, .error (.ofPathFault key fault), ?_,
        fun hall => hkey (hall _ List.mem_cons_self).1⟩
      rw [applyEntries, hresolve]
      exact .done rfl

theorem does_apply (hplace : ∀ key, Valid key → Valid (ns.place key)) (h : t.WellFormed)
    (who : Caller) (seed : Seed) (overwrite : Bool) :
    ∃ t' result, Does who t (seed.apply ns overwrite) t' result ∧
      Applies who ns overwrite seed.entries {} t t' result := by
  obtain ⟨t', result, hdoes, happlies⟩ := does_applyEntries hplace h who overwrite {} seed.entries
  refine ⟨t', result, hdoes.bind ?_, happlies⟩
  cases result with
  | error error => exact .done rfl
  | ok report => exact .note rfl (.done rfl)

/-! ## Keys and values -/

def firstValue (key : String) (entries : List (String × String)) : String :=
  ((entries.find? fun e => decide (e.1 = key ∧ e.2 ≠ "")).map Prod.snd).getD ""

/-- What a seed means for a namespace. The keys have their values, the last or the first that is
not empty; nodes above them that were missing are empty, and all others are as they were. -/
structure Seeded (ns : Namespace) (overwrite : Bool) (entries : List (String × String))
    (t t' : Tree) : Prop where
  stored_iff (x : String) : t'.Stored x ↔
    t.Stored x ∨ ∃ e ∈ entries, x = ns.place e.1 ∨ x ∈ ancestors (ns.place e.1)
  last : overwrite = true → ∀ e ∈ entries, (t'.node? (ns.place e.1)).map Node.data =
    (entries.reverse.lookup e.1).map Text.Utf8.encode
  first : overwrite = false → ∀ e ∈ entries,
    (∀ n, t.node? (ns.place e.1) = some n → n.data = []) →
    (t'.node? (ns.place e.1)).map Node.data = some (Text.Utf8.encode (firstValue e.1 entries))
  full : overwrite = false → ∀ x n, t.node? x = some n → n.data ≠ [] →
    ∃ n', t'.node? x = some n' ∧ n'.data = n.data ∧ n'.stat.version = n.stat.version
  between : ∀ e ∈ entries, ∀ x ∈ ancestors (ns.place e.1), ¬t.Stored x →
    (∀ e' ∈ entries, ns.place e'.1 ≠ x) → (t'.node? x).map Node.data = some []
  others (x : String) (n : Node) : t.node? x = some n → (∀ e ∈ entries, ns.place e.1 ≠ x) →
    ∃ n', t'.node? x = some n' ∧ n'.data = n.data ∧ n'.stat.version = n.stat.version

theorem encode_eq_nil_iff {s : String} : Text.Utf8.encode s = [] ↔ s = "" := by
  constructor
  · intro h
    rw [← Text.Utf8.decodeLossy_encode s, h]
    rfl
  · rintro rfl
    rfl

theorem mem_placed_iff {e : String × List UInt8} :
    e ∈ placed ns entries ↔
      ∃ entry ∈ entries, (ns.place entry.1, Text.Utf8.encode entry.2) = e :=
  List.mem_map

theorem map_data_of_stored (h : t.Stored p) : (t.node? p).map Node.data = some (t.dataAt p) := by
  obtain ⟨n, hn⟩ := h
  rw [Tree.dataAt_of_stored hn, hn, Option.map_some]

/-- A value is found under the image of its key, if no other key has that image. -/
theorem lookup_map_pair {β γ : Type} {f : String → String} (g : β → γ) {key : String}
    {es : List (String × β)} (h : ∀ e ∈ es, f e.1 = f key → e.1 = key) :
    (es.map fun e => (f e.1, g e.2)).lookup (f key) = (es.lookup key).map g := by
  induction es with
  | nil => rfl
  | cons e es ih =>
    obtain ⟨hfirst, hrest⟩ := List.forall_mem_cons.1 h
    rw [List.map_cons, List.lookup_cons, List.lookup_cons]
    by_cases he : e.1 = key
    · simp [he]
    · simpa [beq_false_of_ne (Ne.symm he), beq_false_of_ne (Ne.symm (mt hfirst he))] using ih hrest

section Meaning

variable {name key : String} (hname : Namespace.ofName name = .ok ns) (hkey : Valid key)

include hname hkey

theorem place_eq_iff {e : String × String} (he : Valid e.1) :
    ns.place e.1 = ns.place key ↔ e.1 = key :=
  ⟨Namespace.place_injective_of_ofName hname he hkey, congrArg ns.place⟩

theorem lookup_placed (hkeys : ∀ e ∈ entries, Valid e.1) :
    (placed ns entries).lookup (ns.place key) = (entries.lookup key).map Text.Utf8.encode :=
  lookup_map_pair Text.Utf8.encode fun _ he => (place_eq_iff hname hkey (hkeys _ he)).1

theorem find?_placed (hkeys : ∀ e ∈ entries, Valid e.1) :
    ((placed ns entries).find? fun e => decide (e.1 = ns.place key ∧ e.2 ≠ [])) =
      (entries.find? fun e => decide (e.1 = key ∧ e.2 ≠ "")).map
        fun e => (ns.place e.1, Text.Utf8.encode e.2) := by
  induction entries with
  | nil => rfl
  | cons e entries ih =>
    obtain ⟨hfirst, hrest⟩ := List.forall_mem_cons.1 hkeys
    have hsame : (ns.place e.1 = ns.place key ∧ Text.Utf8.encode e.2 ≠ []) ↔
        e.1 = key ∧ e.2 ≠ "" :=
      and_congr (place_eq_iff hname hkey hfirst) encode_eq_nil_iff.not
    have hfind := ih hrest
    rw [placed] at hfind
    rw [placed, List.map_cons]
    by_cases he : e.1 = key ∧ e.2 ≠ ""
    · rw [List.find?_cons_of_pos (by simpa using hsame.2 he),
        List.find?_cons_of_pos (by simpa using he), Option.map_some]
    · rw [List.find?_cons_of_neg (by simpa using mt hsame.1 he),
        List.find?_cons_of_neg (by simpa using he), hfind]

end Meaning

theorem Applied.seeded {name : String} (hname : Namespace.ofName name = .ok ns)
    (h : Applied who ns overwrite entries t t') : Seeded ns overwrite entries t t' := by
  have hkeys : ∀ e ∈ entries, Valid e.1 := fun e he => (h.again e he).1
  have hsown := h.sown
  have hstored (x : String) : t'.Stored x ↔
      t.Stored x ∨ ∃ e ∈ entries, x = ns.place e.1 ∨ x ∈ ancestors (ns.place e.1) := by
    simpa [placed] using hsown.stored_iff x
  have hplace {e : String × String} (he : e ∈ entries) : t'.Stored (ns.place e.1) :=
    (hstored _).2 (.inr ⟨e, he, .inl rfl⟩)
  have hold {x : String} {n : Node} (hn : t.node? x = some n)
      (hkept : ∀ e ∈ placed ns entries, e.1 = x → overwrite = false ∧ n.data ≠ []) :
      ∃ n', t'.node? x = some n' ∧ n'.data = n.data ∧ n'.stat.version = n.stat.version := by
    obtain ⟨n', hn', -, -, hversion⟩ := hsown.old hn
    exact ⟨n', hn', hsown.data_eq_of_kept hn hn' hkept, hversion hkept⟩
  have hbeside {x : String} (hx : ∀ e ∈ entries, ns.place e.1 ≠ x) :
      ∀ e ∈ placed ns entries, e.1 ≠ x := by
    intro e he
    obtain ⟨entry, hentry, rfl⟩ := mem_placed_iff.1 he
    exact hx entry hentry
  refine ⟨hstored, fun hover e he => ?_, fun hover e he hempty => ?_, fun hover x n hn hdata => ?_,
    fun e he x hx habsent hne => ?_, fun x n hn hne => ?_⟩
  · rw [map_data_of_stored (hplace he), hsown.dataAt_eq, hover, fill_of_overwrite, placed,
      ← List.map_reverse, ← placed, lookup_placed hname (hkeys e he) (by simpa using hkeys)]
    cases hlookup : entries.reverse.lookup e.1 with
    | none => simpa using List.lookup_eq_none_iff.1 hlookup e (List.mem_reverse.2 he)
    | some value => rfl
  · have hnone : t.dataAt (ns.place e.1) = [] := by
      by_cases hp : t.Stored (ns.place e.1)
      · obtain ⟨n, hn⟩ := hp
        rw [Tree.dataAt_of_stored hn, hempty n hn]
      · exact Tree.dataAt_of_absent hp
    rw [map_data_of_stored (hplace he), hsown.dataAt_eq, hover, hnone, fill_of_empty,
      find?_placed hname (hkeys e he) hkeys, firstValue]
    cases entries.find? fun e' => decide (e'.1 = e.1 ∧ e'.2 ≠ "") <;> rfl
  · exact hold hn fun _ _ _ => ⟨hover, hdata⟩
  · have hstored' : t'.Stored x := (hstored x).2 (.inr ⟨e, he, .inr hx⟩)
    rw [map_data_of_stored hstored', hsown.dataAt_eq, Tree.dataAt_of_absent habsent,
      fill_of_kept fun e he heq => absurd heq (hbeside hne e he)]
  · exact hold hn fun e he heq => absurd heq (hbeside hne e he)

/-! ## Applying a seed alone -/

/-- What has been applied is there, with its values, when it is applied again. -/
theorem Applied.again_same {t'' : Tree} (h : Applied who ns overwrite entries t t')
    (h' : Applied who ns overwrite entries t' t'') (x : String) :
    (t''.node? x).map Node.data = (t'.node? x).map Node.data := by
  have hstored : t''.Stored x ↔ t'.Stored x := by
    rw [h'.sown.stored_iff, or_iff_left_iff_imp]
    exact fun hplaced => (h.sown.stored_iff x).2 (.inr hplaced)
  have hdata : t''.dataAt x = t'.dataAt x := by
    rw [h'.sown.dataAt_eq, h.sown.dataAt_eq, fill_fill]
  by_cases hx : t'.Stored x
  · rw [map_data_of_stored hx, map_data_of_stored (hstored.2 hx), hdata]
  · rw [Tree.not_stored_iff.1 hx, Tree.not_stored_iff.1 (mt hstored.1 hx)]

variable {w : World} {s : SessionId} {e : Ensemble} {name : String}

/-- While nothing else goes on and no fault is injected, an application that succeeds counts all
entries and gives every key its value; then the same application succeeds again, and it neither
changes a value nor creates a node. An application succeeds if every place is ready for it. -/
theorem apply_twice_alone (hreach : e.Reachable) (he : w.ensembles[s.ensemble]? = some e)
    (hcalm : e.Calm s.number) (hname : Namespace.ofName name = .ok ns) (seed : Seed)
    (overwrite : Bool) :
    Task.Ends World.later (fun result v => ∃ e', w.Puts s.ensemble e' v ∧
      (AllReady (e.caller s.number) ns overwrite seed.entries e.tree →
        ∃ report, result = .ok report) ∧
      ∀ report, result = .ok report →
        report.created + report.overwritten + report.kept = seed.entries.length ∧
        Seeded ns overwrite seed.entries e.tree e'.tree ∧
        Task.Ends World.later (fun again u => (∃ report', again = .ok report') ∧
          ∃ e'', w.Puts s.ensemble e'' u ∧
            ∀ x, (e''.tree.node? x).map Node.data = (e'.tree.node? x).map Node.data)
          v (Task.say s (seed.apply ns overwrite)))
      w (Task.say s (seed.apply ns overwrite)) := by
  obtain ⟨hlt, -⟩ := List.getElem?_eq_some_iff.1 he
  have hplace (key : String) : Valid key → Valid (ns.place key) :=
    Namespace.valid_place_of_ofName hname
  obtain ⟨t', result, hdoes, happlies⟩ :=
    does_apply hplace hreach.wellFormed (e.caller s.number) seed overwrite
  refine Task.ends_talk_alone hdoes hlt (World.puts_self he) rfl hcalm rfl
    fun v e' hv ht' hcalm' hcaller' _ => .done ⟨e', hv, ?_, ?_⟩
  · intro hready
    cases result with
    | ok report => exact ⟨report, rfl⟩
    | error error => exact absurd hready happlies
  · rintro report rfl
    obtain ⟨htotal, happlied⟩ := happlies
    subst ht'
    refine ⟨by simpa [SeedReport.total] using htotal, happlied.seeded hname, ?_⟩
    obtain ⟨t'', again, hdoes', happlies'⟩ :=
      does_apply hplace happlied.wellFormed (e.caller s.number) seed overwrite
    cases again with
    | error error => exact absurd happlied.again happlies'
    | ok report' =>
      refine Task.ends_talk_alone hdoes' hlt hv rfl hcalm' hcaller'
        fun u e'' hu ht'' _ _ _ => .done ⟨⟨report', rfl⟩, e'', hu, fun x => ?_⟩
      rw [ht'']
      exact happlied.again_same happlies'.2 x

/-- The place of `/c/d` is created under its missing parent, and keeps the first value. -/
theorem apply_twice_alone_nested :
    Task.Ends World.later (fun result v => ∃ e' report, result = .ok report ∧
        v.ensembles = [e'] ∧ report.created + report.overwritten + report.kept = 3 ∧
        (e'.tree.node? "/a/c/d").map Node.data = some (Text.Utf8.encode "x") ∧
        (e'.tree.node? "/a").map Node.data = some (Text.Utf8.encode "y"))
      { ensembles := [Ensemble.nested] }
      (Task.say ⟨0, 1⟩
        (apply ⟨"keys", [("/c/d", "x"), ("/", "y"), ("/c/d", "z")]⟩ ⟨"/a"⟩ false)) := by
  have hname : Namespace.ofName "a" = .ok ⟨"/a"⟩ := by decide
  have hnear : Ensemble.nested.tree.Nearest "/a/c/d" "/a" _ ["/a/c"] :=
    Task.nearest_nested ["/a"] rfl (by decide) rfl (by decide)
      ⟨by decide, by decide, trivial⟩
      ⟨by decide, by decide, by decide, by decide, trivial⟩ rfl
  have habsent : ¬Ensemble.nested.tree.Stored "/a/c/d" := Tree.not_stored_iff.2 rfl
  have hcreate : Ready ⟨1, none⟩ false Ensemble.nested.tree "/a/c/d" :=
    ⟨fun hn => absurd ⟨_, hn⟩ habsent,
      fun _ => ⟨by decide, by decide, _, _, _, hnear, rfl, rfl, habsent⟩⟩
  have hwrite : Ready ⟨1, none⟩ false Ensemble.nested.tree "/a" := by
    refine ⟨fun {n} hn _ => ?_, fun hnot => absurd ⟨_, rfl⟩ hnot⟩
    obtain rfl := Option.some.inj hn
    rfl
  refine (apply_twice_alone (w := { ensembles := [Ensemble.nested] }) (s := ⟨0, 1⟩)
    Ensemble.nested_reachable rfl ⟨rfl, rfl⟩ hname _ false).weaken ?_
  rintro result v ⟨e', hv, hready, hok⟩
  have hall : AllReady ⟨1, none⟩ ⟨"/a"⟩ false [("/c/d", "x"), ("/", "y"), ("/c/d", "z")]
      Ensemble.nested.tree := by
    simp only [AllReady, List.forall_mem_cons]
    exact ⟨⟨by decide, hcreate⟩, ⟨by decide, hwrite⟩, ⟨by decide, hcreate⟩, by simp⟩
  obtain ⟨report, rfl⟩ := hready hall
  obtain ⟨htotal, hseeded, -⟩ := hok report rfl
  refine ⟨e', report, rfl, hv.ensembles, htotal, ?_, ?_⟩
  · exact hseeded.first rfl ("/c/d", "x") (by simp) fun n hn => absurd ⟨n, hn⟩ habsent
  · refine hseeded.first rfl ("/", "y") (by simp) fun n hn => ?_
    obtain rfl := Option.some.inj hn
    rfl

end Seed

end KeyRegistry
