import KeyRegistry.Proofs.Dialogue.Calls
import KeyRegistry.Proofs.Properties.Hollow
import KeyRegistry.Proofs.Seed.Loading

/-!
# Where the entries of a seed come from

Each entry is what one logical line stands for. Unless a backslash stands alone in front of hollow
lines, that line has a text of its own, and a seed gives the node of its namespace a value only if
such a line names it. A stray backslash is an entry with an empty key, which is the namespace's
own.
-/

namespace KeyRegistry

open KeyRegistry.Path

/-- A call that neither gives the node at `p` a value nor takes it away; it may create it empty. -/
def Request.Spares (p : String) : Request → Prop
  | .create q data _ => q = p → data = []
  | .setData q .. => q ≠ p
  | .delete q _ => q ≠ p
  | .commit _ => False
  | _ => True

namespace Properties

variable {text : String} {kept : List (String × String)} {e : String × String}

/-- An entry is what some line stands for, that is the last one with its key. -/
theorem exists_line_of_parse (h : parse text = .ok kept) (he : e ∈ kept) :
    ∃ l ∈ logicalLines text.toList, l.entry = .ok e := by
  obtain ⟨pairs, hpairs, hkept⟩ := parse_ok_cases h
  have hlookup : kept.lookup e.1 = some e.2 :=
    Seed.lookup_of_mem (hkept ▸ nodup_foldl_put pairs) he
  rw [hkept, lookup_foldl_put] at hlookup
  obtain ⟨before, after, hsplit, -⟩ := List.lookup_eq_some_iff.1 hlookup
  have hmem : e ∈ pairs := List.mem_reverse.1 (by rw [hsplit]; simp)
  exact Seed.exists_line hpairs hmem

theorem parse_of_no_lines (h : logicalLines text.toList = []) : parse text = .ok [] := by
  rw [parse, h]
  rfl

end Properties

namespace Seed

open Properties (logicalLines lines Layout Stray Hollow)

variable {ns : Namespace} {text source : String} {entries : List (String × String)} {seed : Seed}
  {p : String}

/-! ## What an application writes -/

theorem only_applyEntry {full : String} (h : full ≠ p) (value : String) (overwrite : Bool)
    (report : SeedReport) :
    (applyEntry full value overwrite report).Only (Request.Spares p) := by
  refine (Dialogue.only_ask trivial).bind fun answer => ?_
  split
  · trivial
  · refine (Dialogue.only_createWithParents (fun hfull => absurd hfull h) fun q _ _ => rfl).bind
      fun made => ?_
    split <;> trivial
  · split_ifs
    · refine (Dialogue.only_ask h).bind fun written => ?_
      split <;> trivial
    · trivial

theorem only_applyEntries (overwrite : Bool) (report : SeedReport)
    (h : ∀ e ∈ entries, Valid e.1 → ns.place e.1 ≠ p) :
    (applyEntries ns overwrite report entries).Only (Request.Spares p) := by
  induction entries generalizing report with
  | nil => trivial
  | cons e entries ih =>
    obtain ⟨hfirst, hrest⟩ := List.forall_mem_cons.1 h
    unfold applyEntries
    rcases Namespace.resolve_cases ns e.1 with ⟨hvalid, heq⟩ | ⟨-, fault, heq⟩ <;> rw [heq]
    · refine (only_applyEntry (hfirst hvalid) e.2 overwrite report).bind fun applied => ?_
      split
      · exact ih _ hrest
      · trivial
    · trivial

theorem only_apply (overwrite : Bool) (h : ∀ e ∈ seed.entries, Valid e.1 → ns.place e.1 ≠ p) :
    (seed.apply ns overwrite).Only (Request.Spares p) := by
  refine (only_applyEntries overwrite {} h).bind fun applied => ?_
  split <;> trivial

/-! ## What a file names -/

theorem place_root_eq (ns : Namespace) : ns.place Path.root = ns.root := by
  by_cases hr : ns.root = Path.root <;> simp [Namespace.place, hr]

/-- A file that is loaded gives the namespace's own node a value only if a line names it. -/
theorem exists_line_or_spares {bytes : List UInt8} {name : String}
    (hname : Namespace.ofName name = .ok ns) (htext : Text.Utf8.decode? bytes = some text)
    (hload : load source (.ok bytes) = .ok seed) (overwrite : Bool) :
    (∃ l ∈ logicalLines text.toList, ∃ e, l.entry = .ok e ∧ rooted e.1 = Path.root) ∨
      (seed.apply ns overwrite).Only (Request.Spares ns.root) := by
  obtain ⟨text', parsed, htext', hparse, hentries, -⟩ := load_ok_cases hload
  obtain rfl : text = text' := Option.some.inj (htext.symm.trans htext')
  rw [or_iff_not_imp_left]
  intro hnone
  refine only_apply overwrite fun entry hentry hvalid hplace => ?_
  rw [← place_root_eq] at hplace
  have hroot := Namespace.place_injective_of_ofName hname hvalid valid_root hplace
  rw [hentries] at hentry
  obtain ⟨e, he, rfl⟩ := List.mem_map.1 hentry
  obtain ⟨l, hl, heq⟩ := Properties.exists_line_of_parse hparse he
  exact hnone ⟨l, hl, e, heq, hroot⟩

/-- Where no backslash is stray, each entry comes from a logical line with a text of its own, hollow
lines give no entry, and applying what a file holds gives the namespace's node no value unless a
line with text names it, whatever is answered. -/
theorem entries_from_text (hstray : ¬ Stray (lines text.toList)) :
    Layout 1 (lines text.toList) (logicalLines text.toList) ∧
    (∀ kept, Properties.parse text = .ok kept → ∀ e ∈ kept,
      ∃ l ∈ logicalLines text.toList, l.entry = .ok e ∧ l.text ≠ []) ∧
    ((∀ raw ∈ lines text.toList, Hollow raw) → Properties.parse text = .ok []) ∧
    ∀ source bytes seed name ns overwrite, Text.Utf8.decode? bytes = some text →
      load source (.ok bytes) = .ok seed → Namespace.ofName name = .ok ns →
      (∃ l ∈ logicalLines text.toList, l.text ≠ [] ∧
        ∃ e, l.entry = .ok e ∧ rooted e.1 = Path.root) ∨
      (seed.apply ns overwrite).Only (Request.Spares ns.root) := by
  have hlayout := Properties.layout_logicalLines text.toList
  have hinked : ∀ l ∈ logicalLines text.toList, l.text ≠ [] := fun l hl htext =>
    hstray ((Properties.stray_iff text.toList).2 ⟨l, hl, htext⟩)
  refine ⟨hlayout, fun kept hkept e he => ?_, fun hhollow => ?_,
    fun source bytes seed name ns overwrite htext hload hname => ?_⟩
  · obtain ⟨l, hl, heq⟩ := Properties.exists_line_of_parse hkept he
    exact ⟨l, hl, heq, hinked l hl⟩
  · refine Properties.parse_of_no_lines (List.eq_nil_iff_forall_not_mem.2 fun l hl => ?_)
    exact hinked l hl (Properties.text_eq_nil_of_hollow hlayout hhollow l hl)
  · rcases exists_line_or_spares hname htext hload overwrite with ⟨l, hl, e, he⟩ | hspares
    · exact .inl ⟨l, hl, hinked l hl, e, he⟩
    · exact .inr hspares

/-- The backslash of the first line joins it to one with text. -/
theorem entries_from_text_joined :
    ¬ Stray (lines "\\\n  k=1\n\n".toList) ∧
    (∃ l ∈ logicalLines "\\\n  k=1\n\n".toList, l.entry = .ok ("k", "1") ∧ l.text ≠ []) ∧
    (apply ⟨"keys", [("/k", "1")]⟩ ⟨"/a"⟩ true).Only (Request.Spares "/a") := by
  have hstray : ¬ Stray (lines "\\\n  k=1\n\n".toList) := by
    rw [Properties.stray_iff]
    decide
  have hparse : Properties.parse "\\\n  k=1\n\n" = .ok [("k", "1")] := by decide
  obtain ⟨-, hlines, -, happly⟩ := entries_from_text hstray
  refine ⟨hstray, hlines _ hparse _ (by simp), ?_⟩
  have hother : ∀ l ∈ logicalLines "\\\n  k=1\n\n".toList, ∀ e ∈ l.entry.toOption,
      rooted e.1 ≠ Path.root := by decide
  refine (happly "keys" _ _ "a" ⟨"/a"⟩ true (Text.Utf8.decode?_encode _)
    (load_encode "keys" hparse rfl) (by decide)).resolve_left ?_
  rintro ⟨l, hl, -, e, he, hroot⟩
  exact hother l hl e (by rw [he]; rfl) hroot

/-- A backslash alone is an entry with an empty key, and a seed takes that for the root. -/
theorem load_stray_backslash :
    load "keys" (.ok (Text.Utf8.encode "\\")) = .ok ⟨"keys", [("/", "")]⟩ ∧
    ¬ ∀ text kept, Properties.parse text = .ok kept → ∀ e ∈ kept,
      ∃ l ∈ logicalLines text.toList, l.entry = .ok e ∧ l.text ≠ [] := by
  have hparse : Properties.parse "\\" = .ok [("", "")] := by decide
  refine ⟨load_encode "keys" hparse rfl, fun h => ?_⟩
  obtain ⟨l, hl, -, htext⟩ := h "\\" _ hparse ("", "") (by simp)
  exact htext ((show ∀ l ∈ logicalLines "\\".toList, l.text = [] by decide) l hl)

end Seed

end KeyRegistry
