import KeyRegistry.Proofs.Properties.Codes
import KeyRegistry.Proofs.Seed.Applying

/-!
# The entries that a seed file holds

Keys that come again are settled in the text, before the loader places keys without a
separator in front under the root. A text that spells each of its keys in one way gives
every key once, with the value of its last line, and so does a namespace that the seed is
applied to when none of the keys is there. Two spellings of one key remain two entries.
-/

namespace KeyRegistry

open KeyRegistry.Path

namespace Properties

theorem nodup_foldl_put (pairs : List (String × String)) :
    ((pairs.foldl (fun kept e => put e.1 e.2 kept) []).map Prod.fst).Nodup := by
  induction pairs using List.reverseRecOn with
  | nil => simp
  | append_singleton pairs e ih =>
    rw [List.foldl_append, List.foldl_cons, List.foldl_nil, map_fst_put]
    split_ifs with hmem
    · exact ih
    · exact ih.append (List.nodup_singleton _) (List.disjoint_singleton.2 hmem)

theorem parse_ok_cases {text : String} {kept : List (String × String)}
    (h : parse text = .ok kept) :
    ∃ pairs, List.Forall₂ (fun l e => l.entry = .ok e) (logicalLines text.toList) pairs ∧
      kept = pairs.foldl (fun kept e => put e.1 e.2 kept) [] := by
  rw [parse] at h
  rcases foldlM_entry (logicalLines text.toList) [] with
    ⟨pairs, hpairs, hfold⟩ | ⟨-, -, -, f, -, -, -, hfold⟩ <;> rw [hfold] at h
  · cases h
    exact ⟨pairs, hpairs, rfl⟩
  · cases h

end Properties

namespace Seed

open Properties (logicalLines)

variable {source : String} {seed : Seed} {text : String} {pairs entries : List (String × String)}

/-! ## Loading -/

def allRooted (entries : List (String × String)) : List (String × String) :=
  entries.map fun e => (rooted e.1, e.2)

theorem rootedEntry_ok {e e' : String × String} (h : rootedEntry e = .ok e') :
    e' = (rooted e.1, e.2) ∧ Valid e'.1 := by
  unfold rootedEntry at h
  split at h
  · cases h
  · rename_i hfault
    cases h
    exact ⟨rfl, hfault⟩

theorem mapM_rootedEntry {es : List (String × String)} (h : entries.mapM rootedEntry = .ok es) :
    es = allRooted entries ∧ ∀ e ∈ es, Valid e.1 := by
  induction entries generalizing es with
  | nil =>
    cases h
    simp [allRooted]
  | cons e entries ih =>
    rw [List.mapM_cons] at h
    cases hfirst : rootedEntry e with
    | error error =>
      rw [hfirst] at h
      cases h
    | ok e' =>
      cases hrest : entries.mapM rootedEntry with
      | error error =>
        rw [hfirst, hrest] at h
        cases h
      | ok es' =>
        rw [hfirst, hrest] at h
        cases h
        obtain ⟨rfl, hvalid⟩ := rootedEntry_ok hfirst
        obtain ⟨rfl, hvalids⟩ := ih hrest
        exact ⟨rfl, List.forall_mem_cons.2 ⟨hvalid, hvalids⟩⟩

theorem load_ok_cases {bytes : List UInt8} (h : load source (.ok bytes) = .ok seed) :
    ∃ text parsed, Text.Utf8.decode? bytes = some text ∧ Properties.parse text = .ok parsed ∧
      seed.entries = allRooted parsed ∧ ∀ e ∈ seed.entries, Valid e.1 := by
  rw [load, ofBytes] at h
  cases htext : Text.Utf8.decode? bytes with
  | none =>
    rw [htext] at h
    cases h
  | some text =>
    rw [htext] at h
    cases hparsed : Properties.parse text with
    | error f =>
      simp only [hparsed] at h
      cases h
    | ok parsed =>
      simp only [hparsed] at h
      change (parsed.mapM rootedEntry >>= fun es => .ok ⟨source, es⟩) = .ok seed at h
      cases hrooted : parsed.mapM rootedEntry with
      | error error =>
        rw [hrooted] at h
        cases h
      | ok es =>
        rw [hrooted] at h
        cases h
        exact ⟨text, parsed, rfl, hparsed, mapM_rootedEntry hrooted⟩

theorem load_encode (source : String) {parsed es : List (String × String)}
    (hparse : Properties.parse text = .ok parsed) (hrooted : parsed.mapM rootedEntry = .ok es) :
    load source (.ok (Text.Utf8.encode text)) = .ok ⟨source, es⟩ := by
  simp only [load, ofBytes, Text.Utf8.decode?_encode, hparse]
  change (parsed.mapM rootedEntry >>= fun es => .ok (Seed.mk source es)) = .ok ⟨source, es⟩
  rw [hrooted]
  rfl

/-! ## Keys that are spelled in one way -/

/-- No key is named both with a separator in front and without. -/
def Uniform (text : String) : Prop :=
  ∀ l ∈ logicalLines text.toList, ∀ l' ∈ logicalLines text.toList, ∀ e e',
    l.entry = .ok e → l'.entry = .ok e' → rooted e.1 = rooted e'.1 → e.1 = e'.1

theorem exists_line {ls : List Properties.Logical}
    (h : List.Forall₂ (fun l e => l.entry = .ok e) ls pairs) {e : String × String}
    (he : e ∈ pairs) : ∃ l ∈ ls, l.entry = .ok e := by
  induction h with
  | nil => cases he
  | @cons l e' ls pairs hl _ ih =>
    rcases List.mem_cons.1 he with rfl | he
    · exact ⟨l, List.mem_cons_self, hl⟩
    · obtain ⟨m, hm, hentry⟩ := ih he
      exact ⟨m, List.mem_cons_of_mem l hm, hentry⟩

section Uniform

variable {parsed : List (String × String)}
  (hparsed : parsed = pairs.foldl (fun kept e => Properties.put e.1 e.2 kept) [])
  (huniform : ∀ e ∈ pairs, ∀ e' ∈ pairs, rooted e.1 = rooted e'.1 → e.1 = e'.1)

include hparsed

theorem exists_pair {e : String × String} (he : e ∈ parsed) : ∃ e' ∈ pairs, e'.1 = e.1 := by
  have hmem : e.1 ∈ parsed.map Prod.fst := List.mem_map_of_mem he
  rw [hparsed, Properties.map_fst_foldl_put, List.mem_eraseDups] at hmem
  exact List.mem_map.1 hmem

include huniform

theorem nodup_allRooted : ((allRooted parsed).map Prod.fst).Nodup := by
  have hkeys : (allRooted parsed).map Prod.fst = (parsed.map Prod.fst).map rooted := by
    simp [allRooted]
  rw [hkeys]
  refine List.Nodup.map_on ?_ (hparsed ▸ Properties.nodup_foldl_put pairs)
  intro k hk k' hk' heq
  obtain ⟨e, he, rfl⟩ := List.mem_map.1 hk
  obtain ⟨e', he', rfl⟩ := List.mem_map.1 hk'
  obtain ⟨p, hp, hpe⟩ := exists_pair hparsed he
  obtain ⟨p', hp', hpe'⟩ := exists_pair hparsed he'
  rw [← hpe, ← hpe'] at heq ⊢
  exact huniform p hp p' hp' heq

/-- Every key has the value of the last line that names it. -/
theorem lookup_allRooted (key : String) :
    (allRooted parsed).lookup key = (allRooted pairs).reverse.lookup key := by
  by_cases hkey : ∃ e ∈ pairs, rooted e.1 = key
  · obtain ⟨e, he, rfl⟩ := hkey
    have hfirst : (allRooted parsed).lookup (rooted e.1) = (parsed.lookup e.1).map id := by
      refine lookup_map_pair id fun e' he' heq => ?_
      obtain ⟨p, hp, hpe⟩ := exists_pair hparsed he'
      rw [← hpe] at heq ⊢
      exact huniform p hp e he heq
    have hlast : (allRooted pairs.reverse).lookup (rooted e.1) =
        (pairs.reverse.lookup e.1).map id :=
      lookup_map_pair id fun e' he' => huniform e' (List.mem_reverse.1 he') e he
    rw [hfirst, hparsed, Properties.lookup_foldl_put, ← hlast, allRooted, allRooted,
      List.map_reverse]
  · have hnone (es : List (String × String)) (hes : ∀ e ∈ es, ∃ e' ∈ pairs, e'.1 = e.1) :
        (allRooted es).lookup key = none := by
      rw [List.lookup_eq_none_iff]
      intro e he
      obtain ⟨e', he', rfl⟩ := List.mem_map.1 he
      obtain ⟨p, hp, hpe⟩ := hes e' he'
      simpa using fun heq : key = rooted e'.1 => hkey ⟨p, hp, by rw [hpe, heq]⟩
    have hreverse : (allRooted pairs).reverse = allRooted pairs.reverse := List.map_reverse.symm
    rw [hnone parsed fun e he => exists_pair hparsed he, hreverse,
      hnone pairs.reverse fun e he => ⟨e, List.mem_reverse.1 he, rfl⟩]

end Uniform

/-! ## Applying what has been loaded -/

section Distinct

variable (hkeys : (entries.map Prod.fst).Nodup) {e : String × String} (he : e ∈ entries)

include hkeys he

theorem eq_of_mem {e' : String × String} (he' : e' ∈ entries) (h : e'.1 = e.1) : e' = e :=
  List.inj_on_of_nodup_map hkeys he' he h

theorem lookup_of_mem : entries.lookup e.1 = some e.2 := by
  cases hlookup : entries.lookup e.1 with
  | none => simpa using List.lookup_eq_none_iff.1 hlookup e he
  | some value =>
    obtain ⟨before, after, hsplit, -⟩ := List.lookup_eq_some_iff.1 hlookup
    have hmem : (e.1, value) ∈ entries := by simp [hsplit]
    rw [← eq_of_mem hkeys he hmem rfl]

theorem firstValue_of_mem : firstValue e.1 entries = e.2 := by
  rw [firstValue]
  cases hfind : entries.find? fun e' => decide (e'.1 = e.1 ∧ e'.2 ≠ "") with
  | none =>
    have hempty : e.2 = "" := by simpa using List.find?_eq_none.1 hfind e he
    rw [hempty]
    rfl
  | some e' =>
    have hkey : e'.1 = e.1 ∧ e'.2 ≠ "" := by simpa using List.find?_some hfind
    rw [eq_of_mem hkeys he (List.mem_of_find?_eq_some hfind) hkey.1]
    rfl

/-- Keys that are distinct and that are not there get the values that they come with. -/
theorem Seeded.data_eq {ns : Namespace} {overwrite : Bool} {t t' : Tree}
    (h : Seeded ns overwrite entries t t')
    (habsent : ∀ e ∈ entries, ¬t.Stored (ns.place e.1)) :
    (t'.node? (ns.place e.1)).map Node.data = some (Text.Utf8.encode e.2) := by
  cases overwrite with
  | true =>
    have hreverse : (entries.reverse.map Prod.fst).Nodup := by
      rw [List.map_reverse]
      exact List.nodup_reverse.2 hkeys
    rw [h.last rfl e he, lookup_of_mem hreverse (List.mem_reverse.2 he), Option.map_some]
  | false =>
    rw [h.first rfl e he fun n hn => absurd ⟨n, hn⟩ (habsent e he), firstValue_of_mem hkeys he]

end Distinct

variable {w : World} {s : SessionId} {e : Ensemble} {ns : Namespace} {name : String}

/-- If no key is spelled in two ways, a file that is loaded gives each of its keys once, with the
value of the last line that names it; and so does an application that succeeds, whether it is to
overwrite or not, where none of the keys is there. It succeeds if all of them can be created. -/
theorem load_last_wins {bytes : List UInt8} (hload : load source (.ok bytes) = .ok seed)
    (htext : Text.Utf8.decode? bytes = some text) (huniform : Uniform text)
    (hreach : e.Reachable) (he : w.ensembles[s.ensemble]? = some e) (hcalm : e.Calm s.number)
    (hname : Namespace.ofName name = .ok ns)
    (habsent : ∀ entry ∈ seed.entries, ¬e.tree.Stored (ns.place entry.1)) (overwrite : Bool) :
    ∃ pairs, List.Forall₂ (fun l e => l.entry = .ok e) (logicalLines text.toList) pairs ∧
      (seed.entries.map Prod.fst).Nodup ∧
      (∀ key, seed.entries.lookup key = (allRooted pairs).reverse.lookup key) ∧
      Task.Ends World.later (fun result v => ∃ e', w.Puts s.ensemble e' v ∧
        ((∀ entry ∈ seed.entries, Dialogue.Creatable (e.caller s.number) e.tree
          (ns.place entry.1) .persistent) → ∃ report, result = .ok report) ∧
        ∀ report, result = .ok report → ∀ pair ∈ pairs,
          (e'.tree.node? (ns.place (rooted pair.1))).map Node.data =
            ((allRooted pairs).reverse.lookup (rooted pair.1)).map Text.Utf8.encode)
        w (Task.say s (seed.apply ns overwrite)) := by
  obtain ⟨text', parsed, htext', hparse, hentries, hvalid⟩ := load_ok_cases hload
  obtain rfl : text = text' := Option.some.inj (htext.symm.trans htext')
  obtain ⟨pairs, hpairs, hparsed⟩ := Properties.parse_ok_cases hparse
  have hspelt : ∀ e ∈ pairs, ∀ e' ∈ pairs, rooted e.1 = rooted e'.1 → e.1 = e'.1 := by
    intro e he e' he' heq
    obtain ⟨l, hl, hentry⟩ := exists_line hpairs he
    obtain ⟨l', hl', hentry'⟩ := exists_line hpairs he'
    exact huniform l hl l' hl' e e' hentry hentry' heq
  have hkeys : (seed.entries.map Prod.fst).Nodup :=
    hentries ▸ nodup_allRooted hparsed hspelt
  have hlookup (key : String) :
      seed.entries.lookup key = (allRooted pairs).reverse.lookup key :=
    hentries ▸ lookup_allRooted hparsed hspelt key
  refine ⟨pairs, hpairs, hkeys, hlookup, ?_⟩
  obtain ⟨hlt, -⟩ := List.getElem?_eq_some_iff.1 he
  obtain ⟨t', result, hdoes, happlies⟩ := does_apply
    (fun key => Namespace.valid_place_of_ofName hname) hreach.wellFormed (e.caller s.number)
    seed overwrite
  refine (Task.ends_say_alone he hcalm hdoes).weaken ?_
  rintro result v ⟨rfl, e', hv, rfl, -⟩
  refine ⟨e', hv, fun hcreatable => ?_, ?_⟩
  · cases result with
    | ok report => exact ⟨report, rfl⟩
    | error error =>
      refine absurd (fun entry hentry => ⟨hvalid entry hentry, ?_, ?_⟩) happlies
      · exact fun hn => absurd ⟨_, hn⟩ (habsent entry hentry)
      · exact fun _ => hcreatable entry hentry
  · rintro report rfl pair hpair
    have hmem : (rooted pair.1, pair.2) ∈ (allRooted pairs).reverse :=
      List.mem_reverse.2 (List.mem_map_of_mem hpair)
    rw [← hlookup]
    cases hvalue : seed.entries.lookup (rooted pair.1) with
    | none =>
      rw [hlookup] at hvalue
      simpa using List.lookup_eq_none_iff.1 hvalue _ hmem
    | some value =>
      obtain ⟨before, after, hsplit, -⟩ := List.lookup_eq_some_iff.1 hvalue
      have hentry : (rooted pair.1, value) ∈ seed.entries := by simp [hsplit]
      exact (happlies.2.seeded hname).data_eq hkeys hentry habsent

/-- A place of `nested` right under `/a`. -/
theorem creatable_nested {p : String} (hp : Valid p) (hr : p ≠ root)
    (hancestors : ancestors p = ["/a"]) (hparent : parent? p = some "/a")
    (habsent : ¬Ensemble.nested.tree.Stored p) :
    Dialogue.Creatable ⟨1, none⟩ Ensemble.nested.tree p .persistent := by
  refine ⟨hp, hr, "/a", _, [], ⟨rfl, ⟨["/a"], hancestors, rfl, ?_, ?_⟩, ?_, by simp⟩, rfl, rfl,
    habsent⟩
  · exact ⟨by decide, by decide, trivial⟩
  · exact fun x hx => List.mem_singleton.1 hx ▸ ⟨_, rfl⟩
  · exact ⟨hp, hparent, trivial⟩

/-- The key `/c` comes twice, spelled without its separator. -/
theorem load_last_wins_nested :
    load "keys" (.ok (Text.Utf8.encode "c=1\n/d=x\nc=2\n")) =
      .ok ⟨"keys", [("/c", "2"), ("/d", "x")]⟩ ∧
    Task.Ends World.later (fun result v => ∃ e', v.ensembles = [e'] ∧
        (∃ report, result = .ok report) ∧
        (e'.tree.node? "/a/c").map Node.data = some (Text.Utf8.encode "2"))
      { ensembles := [Ensemble.nested] }
      (Task.say ⟨0, 1⟩ (apply ⟨"keys", [("/c", "2"), ("/d", "x")]⟩ ⟨"/a"⟩ false)) := by
  have hparse : Properties.parse "c=1\n/d=x\nc=2\n" = .ok [("c", "2"), ("/d", "x")] := by decide
  have hload : load "keys" (.ok (Text.Utf8.encode "c=1\n/d=x\nc=2\n")) =
      .ok ⟨"keys", [("/c", "2"), ("/d", "x")]⟩ := load_encode "keys" hparse rfl
  have hspelt : ∀ l ∈ logicalLines "c=1\n/d=x\nc=2\n".toList,
      ∀ l' ∈ logicalLines "c=1\n/d=x\nc=2\n".toList,
      ∀ e ∈ l.entry.toOption, ∀ e' ∈ l'.entry.toOption, rooted e.1 = rooted e'.1 → e.1 = e'.1 := by
    decide
  have huniform : Uniform "c=1\n/d=x\nc=2\n" := fun l hl l' hl' e e' he he' =>
    hspelt l hl l' hl' e (by rw [he]; rfl) e' (by rw [he']; rfl)
  have hname : Namespace.ofName "a" = .ok ⟨"/a"⟩ := by decide
  refine ⟨hload, ?_⟩
  have hc : ¬Ensemble.nested.tree.Stored "/a/c" := Tree.not_stored_iff.2 rfl
  have hd : ¬Ensemble.nested.tree.Stored "/a/d" := Tree.not_stored_iff.2 rfl
  have habsent : ∀ entry ∈ [("/c", "2"), ("/d", "x")],
      ¬Ensemble.nested.tree.Stored ((⟨"/a"⟩ : Namespace).place entry.1) := by
    simp only [List.forall_mem_cons]
    exact ⟨hc, hd, by simp⟩
  have hcreatable : ∀ entry ∈ [("/c", "2"), ("/d", "x")],
      Dialogue.Creatable ⟨1, none⟩ Ensemble.nested.tree
        ((⟨"/a"⟩ : Namespace).place entry.1) .persistent := by
    simp only [List.forall_mem_cons]
    exact ⟨creatable_nested (by decide) (by decide) (by decide) (by decide) hc,
      creatable_nested (by decide) (by decide) (by decide) (by decide) hd, by simp⟩
  obtain ⟨pairs, -, -, hlookup, hends⟩ := load_last_wins
    (w := { ensembles := [Ensemble.nested] }) (s := ⟨0, 1⟩) hload
    (Text.Utf8.decode?_encode _) huniform Ensemble.nested_reachable rfl ⟨rfl, rfl⟩ hname
    habsent false
  refine hends.weaken ?_
  rintro result v ⟨e', hv, hok, hvalues⟩
  obtain ⟨report, rfl⟩ := hok hcreatable
  refine ⟨e', hv.ensembles, ⟨report, rfl⟩, ?_⟩
  obtain ⟨before, after, hsplit, -⟩ := List.lookup_eq_some_iff.1 (hlookup "/c").symm
  obtain ⟨pair, hpair, hkey⟩ : ∃ pair ∈ pairs, (rooted pair.1, pair.2) = ("/c", "2") :=
    List.mem_map.1 (List.mem_reverse.1 (by rw [← allRooted, hsplit]; simp))
  have hdata := hvalues report rfl pair hpair
  obtain ⟨hkey, -⟩ := Prod.mk.inj hkey
  rw [hkey, ← hlookup] at hdata
  exact hdata

/-- Two spellings of one key remain two entries. -/
theorem load_two_spellings : ∃ seed,
    load "keys" (.ok (Text.Utf8.encode "k=1\n/k=2\n")) = .ok seed ∧
      ¬(seed.entries.map Prod.fst).Nodup := by
  have hparse : Properties.parse "k=1\n/k=2\n" = .ok [("k", "1"), ("/k", "2")] := by decide
  exact ⟨_, load_encode "keys" hparse rfl, by decide⟩

end Seed

end KeyRegistry
