import KeyRegistry.Proofs.Settings.Accepted
import KeyRegistry.Proofs.Text.Numerals
import KeyRegistry.Settings.Load

/-!
# Texts from the environment

The text of a variable is taken for a switch or a number if it reads as one, also where the field
holds a text, and is written anew from what it was taken for. So it reaches the field as it is if
and only if it is written as switches and numbers are.
-/

namespace KeyRegistry

namespace Settings

open Text (integer? isInWord toSmall TidyInteger InNumber)

variable {s t field : String} {settings settings' : Settings}

/-! ## What a text is taken for -/

inductive TakenFor (s : String) : Json → Prop
  | switch (b : Bool) (small : toSmall s = toString b) : TakenFor s (.bool b)
  | whole {n : Int} (word : ∀ b : Bool, toSmall s ≠ toString b)
      (reads : integer? s.toList = some n) (fits : isInWord n = true) : TakenFor s (.int n)
  | other {x : Float} (word : ∀ b : Bool, toSmall s ≠ toString b)
      (large : ∀ n, integer? s.toList = some n → isInWord n = false)
      (reads : Decimal.float? s.toList = some x) : TakenFor s (.float x)
  | text (word : ∀ b : Bool, toSmall s ≠ toString b)
      (large : ∀ n, integer? s.toList = some n → isInWord n = false)
      (strange : Decimal.float? s.toList = none) : TakenFor s (.str s)

theorem takenFor_ofVariable (s : String) : TakenFor s (ofVariable s) := by
  unfold ofVariable
  by_cases htrue : toSmall s = "true"
  · rw [if_pos htrue]
    exact .switch true htrue
  by_cases hfalse : toSmall s = "false"
  · rw [if_neg htrue, if_pos hfalse]
    exact .switch false hfalse
  have hword (b : Bool) : toSmall s ≠ toString b := by
    cases b
    · exact hfalse
    · exact htrue
  have hrest {v : Json} (hlarge : ∀ n, integer? s.toList = some n → isInWord n = false)
      (hsome : ∀ x, Decimal.float? s.toList = some x → v = .float x)
      (hnone : Decimal.float? s.toList = none → v = .str s) : TakenFor s v := by
    cases hreads : Decimal.float? s.toList with
    | some x => exact hsome x hreads ▸ .other hword hlarge hreads
    | none => exact hnone hreads ▸ .text hword hlarge hreads
  rw [if_neg htrue, if_neg hfalse]
  cases hreads : integer? s.toList with
  | some n =>
    dsimp only
    split_ifs with hfits
    · exact .whole hword hreads hfits
    · refine hrest (fun m hm => ?_) (fun x hx => by rw [hx]) fun hx => by rw [hx]
      obtain rfl : n = m := Option.some.inj (hreads.symm.trans hm)
      simpa using hfits
  | none =>
    refine hrest (fun m hm => ?_) (fun x hx => by rw [hx]) fun hx => by rw [hx]
    simp [hreads] at hm

/-- Whether a text is written as what it is taken for. -/
structure Kept (s : String) : Prop where
  switch (b : Bool) : toSmall s = toString b → s = toString b
  whole (n : Int) : integer? s.toList = some n → isInWord n = true → TidyInteger s.toList
  other (x : Float) : Decimal.float? s.toList = some x →
    (∀ n, integer? s.toList = some n → isInWord n = false) → s.toList = Decimal.text x

theorem kept_toString (b : Bool) : Kept (toString b) := by
  have hinteger : integer? (toString b).toList = none := by
    cases b <;> decide
  have hfloat : Decimal.float? (toString b).toList = none := by
    cases b <;> rfl
  refine ⟨fun b' hb' => ?_, fun n hn => ?_, fun x hx => ?_⟩
  · revert hb'
    cases b <;> cases b' <;> decide
  · simp [hinteger] at hn
  · simp [hfloat] at hx

/-- The text that becomes of what a text was taken for. -/
theorem exists_toText (s : String) : ∃ t, toText (ofVariable s) = .ok t ∧ (t = s ↔ Kept s) := by
  have htaken := takenFor_ofVariable s
  generalize ofVariable s = v at htaken
  cases htaken with
  | switch b small =>
    refine ⟨toString b, rfl, ?_⟩
    constructor
    · rintro rfl
      exact kept_toString b
    · exact fun hkept => (hkept.switch b small).symm
  | @whole n word reads fits =>
    refine ⟨toString n, rfl, ?_⟩
    rw [Text.toString_eq_iff reads]
    constructor
    · intro htidy
      refine ⟨fun b hb => absurd hb (word b), fun _ _ _ => htidy, fun x _ hlarge => ?_⟩
      simp [hlarge n reads] at fits
    · exact fun hkept => hkept.whole n reads fits
  | @other x word large reads =>
    refine ⟨String.ofList (Decimal.text x), rfl, ?_⟩
    rw [← String.toList_inj, String.toList_ofList]
    constructor
    · intro htext
      refine ⟨fun b hb => absurd hb (word b), fun n hn hfits => ?_, fun y hy _ => ?_⟩
      · simp [large n hn] at hfits
      · obtain rfl : x = y := Option.some.inj (reads.symm.trans hy)
        exact htext.symm
    · exact fun hkept => (hkept.other x reads large).symm
  | text word large strange =>
    refine ⟨s, rfl, iff_of_true rfl ⟨fun b hb => absurd hb (word b), fun n hn hfits => ?_,
      fun x hx => ?_⟩⟩
    · simp [large n hn] at hfits
    · simp [strange] at hx

/-- The text is the one that was there, or it shows a switch or a number. -/
theorem eq_or_inNumber (h : toText (ofVariable s) = .ok t) :
    t = s ∨ t ≠ "" ∧ ∀ c ∈ t.toList, InNumber c := by
  have htaken := takenFor_ofVariable s
  generalize ofVariable s = v at h htaken
  cases htaken with
  | switch b small =>
    cases h
    cases b <;> exact .inr ⟨by decide, Text.inNumber_of_all (by decide)⟩
  | whole word reads fits =>
    cases h
    exact .inr ⟨Text.toString_ne_empty _, fun c hc => Text.inNumber_of_mem_toString hc⟩
  | @other x word large reads =>
    cases h
    refine .inr ⟨fun hempty => Decimal.text_ne_nil x ?_, fun c hc => ?_⟩
    · simpa using congrArg String.toList hempty
    · rw [String.toList_ofList] at hc
      exact Decimal.inNumber_of_mem_text hc
  | text word large strange =>
    cases h
    exact .inl rfl

/-- A text with a character that numbers and switches lack is not taken for one. -/
theorem kept_of_mem {c : Char} (hc : c ∈ s.toList) (hascii : c.toNat < 0x80) (h : ¬InNumber c) :
    Kept s := by
  refine ⟨fun b hb => ?_, fun n hn => ?_, fun x hx => ?_⟩
  · have hsmall := Text.toLower_mem_smallBehind hc hascii []
    rw [← String.toList_ofList (l := Text.smallBehind [] s.toList)] at hsmall
    have hletters (b : Bool) : ∀ d ∈ (toString b).toList, InNumber d :=
      Text.inNumber_of_all (by cases b <;> decide)
    exact absurd (Text.inNumber_of_toLower (hletters b _ (hb ▸ hsmall))) h
  · exact absurd (Text.inNumber_of_integer? hn hc) h
  · exact absurd (Decimal.inNumber_of_float? hx hc) h

/-! ## The layers -/

def Addresses (v : String × String) (field : String) : Prop :=
  ∃ m ∈ (ofEnvironment [v]).members, toSmall m.1 = field

instance (v : String × String) (field : String) : Decidable (Addresses v field) :=
  inferInstanceAs (Decidable (∃ m ∈ _, _))

def offered (e : Environment) (field : String) : List Given :=
  (ofEnvironment e).members.filterMap ((ofEnvironment e).offer? field)

theorem offered_append (e e' : Environment) (field : String) :
    offered (e ++ e') field = offered e field ++ offered e' field := by
  have hmembers : (ofEnvironment (e ++ e')).members =
      (ofEnvironment e).members ++ (ofEnvironment e').members := List.filterMap_append
  rw [offered, hmembers, List.filterMap_append]
  rfl

theorem members_singleton (v : String × String) : (ofEnvironment [v]).members = [] ∨
    ∃ k, (ofEnvironment [v]).members = [(k, ofVariable v.2)] := by
  simp only [ofEnvironment, List.filterMap_cons, List.filterMap_nil]
  split_ifs
  · exact .inr ⟨_, rfl⟩
  · exact .inl rfl

theorem offered_of_addresses {v : String × String} (h : Addresses v field) :
    offered [v] field = [⟨ofVariable v.2, true⟩] := by
  obtain ⟨m, hm, rfl⟩ := h
  rcases members_singleton v with hnone | ⟨k, hone⟩
  · simp [hnone] at hm
  · rw [hone, List.mem_singleton] at hm
    subst hm
    rw [offered, hone]
    simp [Source.offer?, ofEnvironment]

/-- Any other variable offers nothing to a field, or a value with parts. -/
theorem offered_of_not_addresses {e : Environment} (h : ∀ v ∈ e, ¬Addresses v field) :
    ∀ g ∈ offered e field, ∃ x, g.value = .arr [x] := by
  induction e with
  | nil => simp [offered, ofEnvironment]
  | cons v e ih =>
    obtain ⟨hv, he⟩ := List.forall_mem_cons.1 h
    intro g hg
    rw [← List.singleton_append, offered_append] at hg
    rcases List.mem_append.1 hg with hg | hg
    · rcases members_singleton v with hnone | ⟨k, hone⟩
      · simp [offered, hnone] at hg
      · have hmem : (k, ofVariable v.2) ∈ (ofEnvironment [v]).members := by
          rw [hone]
          exact List.mem_singleton_self _
        have hk : toSmall k ≠ field := fun hk => hv ⟨_, hmem, hk⟩
        rw [offered, hone] at hg
        simp only [Source.offer?, List.filterMap_cons, List.filterMap_nil, String.toList_inj] at hg
        rw [if_neg hk] at hg
        split_ifs at hg
        · exact ⟨_, by rw [List.mem_singleton.1 hg]⟩
        · simp at hg
    · exact ih he g hg

theorem supersede_of_ne {old : Option Given} {new : Given} (h : new.value ≠ .obj []) :
    supersede old new = some new := by
  unfold supersede
  split
  · rename_i hvalue
    exact absurd hvalue h
  · rfl

theorem foldl_supersede {gs : List Given} (h : ∀ g ∈ gs, ∃ x, g.value = .arr [x]) (g : Given) :
    ∃ g', gs.foldl supersede (some g) = some g' ∧ (g' = g ∨ ∃ x, g'.value = .arr [x]) := by
  induction gs generalizing g with
  | nil => exact ⟨g, rfl, .inl rfl⟩
  | cons y gs ih =>
    obtain ⟨⟨x, hx⟩, hgs⟩ := List.forall_mem_cons.1 h
    obtain ⟨g', hfold, hg'⟩ := ih hgs y
    refine ⟨g', ?_, .inr ?_⟩
    · rwa [List.foldl_cons, supersede_of_ne (by simp [hx])]
    · rcases hg' with rfl | hparts
      · exact ⟨x, hx⟩
      · exact hparts

/-- The last variable of a field supersedes whatever came before. -/
theorem given?_of_last (sources : List Source) (before : Environment) {after : Environment}
    {v : String × String} (hv : Addresses v field) (hafter : ∀ u ∈ after, ¬Addresses u field) :
    ∃ g, given? (sources ++ [ofEnvironment (before ++ v :: after)]) field = some g ∧
      (g.value = ofVariable v.2 ∨ ∃ x, g.value = .arr [x]) := by
  have hobject : ofVariable v.2 ≠ .obj [] := by
    intro hvalue
    obtain ⟨t, ht, -⟩ := exists_toText v.2
    rw [hvalue] at ht
    cases ht
  obtain ⟨g, hfold, hg⟩ := foldl_supersede (offered_of_not_addresses hafter) ⟨ofVariable v.2, true⟩
  refine ⟨g, ?_, hg.imp_left fun hg => by rw [hg]⟩
  have hoffers : offered (before ++ v :: after) field =
      offered before field ++ ⟨ofVariable v.2, true⟩ :: offered after field := by
    rw [offered_append, ← List.singleton_append, offered_append, offered_of_addresses hv]
    rfl
  rw [given?, List.flatMap_append, List.flatMap_singleton, List.foldl_append]
  show (offered _ field).foldl supersede _ = _
  rw [hoffers, List.foldl_append, List.foldl_cons, supersede_of_ne hobject, hfold]

/-! ## The fields -/

inductive TextField
  | servers
  | namespaceName
  | digest
  | seedFile
  deriving DecidableEq, Repr

namespace TextField

def name : TextField → String
  | servers => "server_lists"
  | namespaceName => "namespace"
  | digest => "digest"
  | seedFile => "local_properties_path"

def variableName : TextField → String
  | servers => "TASKER_REGISTRY_SERVER_LISTS"
  | namespaceName => "TASKER_REGISTRY_NAMESPACE"
  | digest => "TASKER_REGISTRY_DIGEST"
  | seedFile => "TASKER_REGISTRY_LOCAL_PROPERTIES_PATH"

def text? : TextField → Settings → Option String
  | servers, s => some s.serverLists
  | namespaceName, s => some s.namespaceName
  | digest, s => s.digest
  | seedFile, s => s.seedFile

end TextField

def Slot.Holds (get : Settings → Option String) (slot : Slot) : Prop :=
  ∀ s v s', slot.coerce s v = .ok s' → v ≠ .null → ∃ t, toText v = .ok t ∧ get s' = some t

def Slot.Spares (get : Settings → Option String) : Slot → Prop
  | .text put => ∀ s t, get (put s t) = get s
  | .optionalText put => ∀ s t, get (put s t) = get s
  | .count _ put => ∀ s n, get (put s n) = get s
  | .flag put => ∀ s b, get (put s b) = get s

section Fields

variable {get : Settings → Option String} {slot : Slot} {v : Json}

theorem Slot.Spares.coerce (h : slot.Spares get) (hv : slot.coerce settings v = .ok settings') :
    get settings' = get settings := by
  cases slot with
  | text put =>
    obtain ⟨t, -, rfl⟩ := except_map_eq_ok hv
    exact h settings t
  | optionalText put =>
    simp only [Slot.coerce] at hv
    split at hv
    · cases hv
      exact h settings none
    · obtain ⟨t, -, rfl⟩ := except_map_eq_ok hv
      exact h settings (some t)
  | count limit put =>
    obtain ⟨n, -, hv⟩ := bind_eq_ok_iff.1 hv
    split_ifs at hv
    cases hv
    exact h settings n
  | flag put =>
    obtain ⟨b, -, rfl⟩ := except_map_eq_ok hv
    exact h settings b

theorem holds_text {put : Settings → String → Settings} (h : ∀ s t, get (put s t) = some t) :
    (Slot.text put).Holds get := by
  intro s v s' hv _
  obtain ⟨t, ht, rfl⟩ := except_map_eq_ok hv
  exact ⟨t, ht, h s t⟩

theorem holds_optionalText {put : Settings → Option String → Settings}
    (h : ∀ s t, get (put s t) = t) : (Slot.optionalText put).Holds get := by
  intro s v s' hv hnull
  simp only [Slot.coerce] at hv
  obtain ⟨t, ht, rfl⟩ := except_map_eq_ok hv
  exact ⟨t, ht, h s (some t)⟩

/-- Each text has its field, and no field behind that touches it. -/
theorem exists_field (f : TextField) : ∃ before slot after,
    fields = before ++ ⟨f.name, slot⟩ :: after ∧ slot.Holds f.text? ∧
      ∀ g ∈ after, g.slot.Spares f.text? := by
  cases f with
  | servers =>
    refine ⟨fields.take 0, _, fields.drop 1, rfl, holds_text fun _ _ => rfl, ?_⟩
    simp [fields, Slot.Spares, TextField.text?]
  | namespaceName =>
    refine ⟨fields.take 1, _, fields.drop 2, rfl, holds_text fun _ _ => rfl, ?_⟩
    simp [fields, Slot.Spares, TextField.text?]
  | digest =>
    refine ⟨fields.take 7, _, fields.drop 8, rfl, holds_optionalText fun _ _ => rfl, ?_⟩
    simp [fields, Slot.Spares, TextField.text?]
  | seedFile =>
    refine ⟨fields.take 8, _, fields.drop 9, rfl, holds_optionalText fun _ _ => rfl, ?_⟩
    simp [fields, Slot.Spares, TextField.text?]

theorem foldlM_spared {ε : Type} {step : Settings → Field → Except ε Settings} {fs : List Field}
    (hstep : ∀ f ∈ fs, ∀ s s', step s f = .ok s' → get s' = get s)
    (h : fs.foldlM step settings = .ok settings') : get settings' = get settings := by
  induction fs generalizing settings with
  | nil => rw [Except.ok.inj h]
  | cons f fs ih =>
    obtain ⟨hf, hfs⟩ := List.forall_mem_cons.1 hstep
    rw [List.foldlM_cons] at h
    obtain ⟨s₁, hfirst, hrest⟩ := bind_eq_ok_iff.1 h
    exact (ih hfs hrest).trans (hf _ _ hfirst)

/-- The text of a field is that of the value that the sources give to it. -/
theorem text?_of_ofSources {sources : List Source} {f : TextField} {g : Given}
    (h : ofSources sources = .ok settings) (hg : given? sources f.name = some g)
    (hvalue : g.value ≠ .null) : ∃ t, toText g.value = .ok t ∧ f.text? settings = some t := by
  obtain ⟨before, slot, after, hfields, hholds, hspares⟩ := exists_field f
  rw [ofSources, hfields, List.foldlM_append] at h
  obtain ⟨s₁, -, h⟩ := bind_eq_ok_iff.1 h
  rw [List.foldlM_cons] at h
  obtain ⟨s₂, hcoerced, h⟩ := bind_eq_ok_iff.1 h
  rw [hg] at hcoerced
  obtain ⟨t, ht, htext⟩ := hholds _ _ _ (except_mapError_eq_ok hcoerced) hvalue
  refine ⟨t, ht, (foldlM_spared (fun F hF s s' hs => ?_) h).trans htext⟩
  split at hs
  · rw [Except.ok.inj hs]
  · exact (hspares F hF).coerce (except_mapError_eq_ok hs)

end Fields

/-! ## What arrives -/

theorem addresses_variableName (f : TextField) (s : String) :
    Addresses (f.variableName, s) f.name := by
  have hname : toSmall f.name = f.name := by
    cases f <;> decide
  have hsmall : (toSmall f.variableName).toList = variableMark.toList ++ f.name.toList := by
    cases f <;> decide
  refine ⟨(f.name, ofVariable s), ?_, hname⟩
  rw [ofEnvironment]
  simp only [List.filterMap_cons, List.filterMap_nil, hsmall]
  rw [if_pos (List.isPrefixOf_iff_prefix.2 (List.prefix_append ..)), ← String.length_toList,
    List.drop_left, String.ofList_toList]
  exact List.mem_singleton_self _

theorem load_eq_ok {environment : Environment} {files : Files}
    (h : load environment files = .ok settings) :
    Accepted settings ∧
      ∃ sources, ofSources (sources ++ [ofEnvironment environment]) = .ok settings := by
  obtain ⟨sources, -, h⟩ := bind_eq_ok_iff.1 h
  obtain ⟨s, hs, h⟩ := bind_eq_ok_iff.1 h
  obtain ⟨_, hcheck, h⟩ := bind_eq_ok_iff.1 h
  cases h
  exact ⟨check_eq_ok_iff.1 hcheck, sources, except_mapError_eq_ok hs⟩

section Arriving

variable {f : TextField} {environment before after : Environment} {files : Files}
  (henvironment : environment = before ++ (f.variableName, s) :: after)
  (hlast : ∀ v ∈ after, ¬Addresses v f.name) (hload : load environment files = .ok settings)

include henvironment hlast hload

theorem text?_of_load : ∃ t, toText (ofVariable s) = .ok t ∧ f.text? settings = some t := by
  obtain ⟨-, sources, hsources⟩ := load_eq_ok hload
  obtain ⟨g, hg, hvalue⟩ := given?_of_last sources before (addresses_variableName f s) hlast
  rw [← henvironment] at hg
  have hnull : g.value ≠ .null := by
    intro hnull
    rcases hvalue with hvalue | ⟨x, hvalue⟩
    · obtain ⟨t, ht, -⟩ := exists_toText s
      rw [← hvalue, hnull] at ht
      cases ht
    · rw [hvalue] at hnull
      cases hnull
  obtain ⟨t, ht, htext⟩ := text?_of_ofSources hsources hg hnull
  rcases hvalue with hvalue | ⟨x, hvalue⟩
  · exact ⟨t, hvalue ▸ ht, htext⟩
  · rw [hvalue] at ht
    cases ht

/-- A text from the environment arrives as it is if and only if it is written as what it is taken
for, whatever the files and the other variables hold, unless a later variable is of the same field.
So each text arrives that has a character which numbers lack, and each digest that passes the
checks, and a center is in the namespace that settings made with the text itself would put it in. -/
theorem variable_kept :
    (f.text? settings = some s ↔ Kept s) ∧
    ((∃ c ∈ s.toList, c.toNat < 0x80 ∧ ¬InNumber c) ∨ f = .digest → f.text? settings = some s) ∧
    (f = .namespaceName → Kept s →
      settings.namespaceOf = ({ namespaceName := s } : Settings).namespaceOf) := by
  obtain ⟨t, ht, htext⟩ := text?_of_load henvironment hlast hload
  have hkept : f.text? settings = some s ↔ Kept s := by
    obtain ⟨t', ht', hiff⟩ := exists_toText s
    obtain rfl : t = t' := Except.ok.inj (ht.symm.trans ht')
    rw [htext, Option.some.injEq, hiff]
  refine ⟨hkept, ?_, ?_⟩
  · rintro (⟨c, hc, hascii, hstrange⟩ | rfl)
    · exact hkept.2 (kept_of_mem hc hascii hstrange)
    · rw [htext]
      rcases eq_or_inNumber ht with rfl | ⟨hne, hnumber⟩
      · rfl
      · rcases (load_eq_ok hload).1.digest t htext with hempty | hcolon
        · exact absurd hempty hne
        · exact absurd (hnumber _ hcolon) (by decide)
  · rintro rfl hs
    have hname : settings.namespaceName = s := Option.some.inj (hkept.2 hs)
    rw [namespaceOf, namespaceOf, hname]

end Arriving

/-- A text with a separator arrives over a file and another spelling of the variable. -/
theorem variable_kept_beside : ∃ settings,
    load [("tasker_registry_namespace", "7"), ("TASKER_REGISTRY_NAMESPACE", "jobs/v1.0"),
        ("TASKER_REGISTRY_MAX_RETRIES", "07")]
      [("registry.json", "\x7b\"namespace\": true\x7d")] = .ok settings ∧
    settings.maxRetries = 7 ∧ settings.namespaceName = "jobs/v1.0" ∧ Kept "jobs/v1.0" ∧
    settings.namespaceOf = .ok ⟨"/jobs/v1.0"⟩ := by
  have hload : load [("tasker_registry_namespace", "7"),
      ("TASKER_REGISTRY_NAMESPACE", "jobs/v1.0"), ("TASKER_REGISTRY_MAX_RETRIES", "07")]
      [("registry.json", "\x7b\"namespace\": true\x7d")] =
      .ok { namespaceName := "jobs/v1.0", maxRetries := 7 } := rfl
  have henvironment : [("tasker_registry_namespace", "7"),
      ("TASKER_REGISTRY_NAMESPACE", "jobs/v1.0"), ("TASKER_REGISTRY_MAX_RETRIES", "07")] =
      [("tasker_registry_namespace", "7")] ++ (TextField.namespaceName.variableName, "jobs/v1.0") ::
        [("TASKER_REGISTRY_MAX_RETRIES", "07")] := rfl
  obtain ⟨hiff, hstrange, hnamespace⟩ := variable_kept henvironment (by decide) hload
  have htext := hstrange (.inl ⟨'/', by decide, by decide, by decide⟩)
  have hkept := hiff.1 htext
  exact ⟨_, hload, rfl, Option.some.inj htext, hkept, (hnamespace rfl hkept).trans rfl⟩

/-- Digits are taken for a number, which is written without the zeros in front: the center is in
another namespace than one whose settings are made with the text itself. -/
theorem variable_rewritten : ∃ settings,
    load [("TASKER_REGISTRY_NAMESPACE", "007")] [] = .ok settings ∧
    settings.namespaceName = "7" ∧ settings.namespaceOf = .ok ⟨"/7"⟩ ∧
    ({ namespaceName := "007" } : Settings).namespaceOf = .ok ⟨"/007"⟩ :=
  ⟨{ namespaceName := "7" }, rfl, rfl, rfl, rfl⟩

end Settings

end KeyRegistry
