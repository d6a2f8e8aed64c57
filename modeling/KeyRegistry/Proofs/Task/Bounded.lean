import KeyRegistry.Proofs.Dialogue.Calls
import KeyRegistry.Seed

/-!
# Talks that end whatever is answered

A dialogue without walks makes a bounded number of calls. So a task that holds one
goes on, whatever befalls its session and the service, and what each of its calls
preserves is preserved by the talk as a whole.
-/

namespace KeyRegistry

namespace Dialogue

variable {α β : Type} {P : Request → Prop}

structure Bounded (P : Request → Prop) (d : Dialogue α) : Prop where
  walkless : d.Walkless
  only : d.Only P

theorem bounded_done (a : α) : (done a).Bounded P := ⟨trivial, trivial⟩

theorem bounded_ask {r : Request} (h : P r) : (ask r).Bounded P := ⟨walkless_ask r, only_ask h⟩

theorem Bounded.bind {d : Dialogue β} {f : β → Dialogue α} (h : d.Bounded P)
    (hf : ∀ b, (f b).Bounded P) : (d >>= f).Bounded P :=
  ⟨h.walkless.bind fun b => (hf b).walkless, h.only.bind fun b => (hf b).only⟩

theorem bounded_tell {n : Notice} {f : Unit → Dialogue α} (hf : (f ()).Bounded P) :
    (tell n >>= f).Bounded P :=
  ⟨hf.walkless, hf.only⟩

section Creating

variable (hcreate : ∀ p data mode, P (.create p data mode))

include hcreate

theorem bounded_createWithParents (p : String) (data : List UInt8) (mode : Mode) :
    (createWithParents p data mode).Bounded P :=
  ⟨walkless_createWithParents p data mode,
    only_createWithParents (hcreate ..) fun _ _ => hcreate ..⟩

theorem bounded_ensurePath (p : String) : (ensurePath p).Bounded P := by
  unfold ensurePath
  split_ifs
  · exact bounded_done _
  · refine (bounded_createWithParents hcreate p [] .persistent).bind fun answer => ?_
    split <;> exact bounded_done _

end Creating

end Dialogue

namespace Seed

open Dialogue

variable {P : Request → Prop} (hstat : ∀ p, P (.stat p))
  (hcreate : ∀ p data mode, P (.create p data mode))
  (hset : ∀ p data version, P (.setData p data version))

include hstat hcreate hset

theorem bounded_applyEntry (full value : String) (overwrite : Bool) (report : SeedReport) :
    (applyEntry full value overwrite report).Bounded P := by
  refine (bounded_ask (hstat full)).bind fun answer => ?_
  split
  · exact bounded_done _
  · refine (bounded_createWithParents hcreate full _ .persistent).bind fun made => ?_
    split <;> exact bounded_done _
  · split_ifs
    · refine (bounded_ask (hset ..)).bind fun written => ?_
      split <;> exact bounded_done _
    · exact bounded_done _

theorem bounded_applyEntries (ns : Namespace) (overwrite : Bool) (report : SeedReport)
    (entries : List (String × String)) :
    (applyEntries ns overwrite report entries).Bounded P := by
  induction entries generalizing report with
  | nil => exact bounded_done _
  | cons entry rest ih =>
    unfold applyEntries
    split
    · exact bounded_done _
    · refine (bounded_applyEntry hstat hcreate hset _ _ overwrite report).bind fun applied => ?_
      split
      · exact ih _
      · exact bounded_done _

theorem bounded_apply (seed : Seed) (ns : Namespace) (overwrite : Bool) :
    (seed.apply ns overwrite).Bounded P := by
  refine (bounded_applyEntries hstat hcreate hset ns overwrite {} seed.entries).bind
    fun applied => ?_
  split
  · exact bounded_done _
  · exact bounded_tell (bounded_done _)

end Seed

/-! ## Tasks -/

namespace Task

variable {α β : Type} {meanwhile : World → World → Prop} {post : α → World → Prop}
  {P : World → Prop} {w : World} {s : SessionId}

/-- A call ends, be it refused at once or answered when its time has come. -/
theorem ends_talk_any {d : Dialogue β} {next : β → Task α} {r : Request}
    {rest : r.Answer → Dialogue β} (hP : Stable meanwhile P) (hw : P w)
    (haccept : ∀ w hold w', P w → w.accept s = .ok (hold, w') → P w')
    (hturn : d.turn = .call r rest)
    (hrefused : ∀ w error, P w → Ends meanwhile post w (talk s (rest (.error error)) next))
    (hserved : ∀ w fault, P w → Ends meanwhile post (w.complete s fault r).2
      (talk s (rest (w.complete s fault r).1) next)) :
    Ends meanwhile post w (talk s d next) := by
  refine .move 0 rfl (fun v _ _ => ?_) fun v w' t' hv hstep => ?_
  · simp only [step, hturn]
    cases v.accept s <;> rfl
  · have hPv := hP w v hw hv
    simp only [step, hturn] at hstep
    cases hadmitted : v.accept s with
    | error error =>
      simp only [hadmitted, Option.some.injEq, Prod.mk.injEq] at hstep
      obtain ⟨rfl, rfl⟩ := hstep
      exact hrefused v error hPv
    | ok admitted =>
      obtain ⟨hold, v'⟩ := admitted
      simp only [hadmitted, Option.some.injEq, Prod.mk.injEq] at hstep
      obtain ⟨rfl, rfl⟩ := hstep
      have hPv' := haccept v hold v' hPv hadmitted
      refine .move hold.due rfl (fun u _ hle => by simp [step, Nat.not_lt.2 hle])
        fun u w' t' hu hstep => ?_
      simp only [step] at hstep
      split_ifs at hstep
      obtain ⟨rfl, rfl⟩ := Prod.ext_iff.1 (Option.some.inj hstep)
      exact hserved u hold.fault (hP v' u hPv' hu)

/-- What the calls of a bounded dialogue preserve holds when the talk has ended. -/
theorem ends_talk_bounded {Q : Request → Prop} {d : Dialogue β} {next : β → Task α}
    (hP : Stable meanwhile P) (hnote : ∀ w n, P w → P (w.note n))
    (haccept : ∀ w hold w', P w → w.accept s = .ok (hold, w') → P w')
    (hcomplete : ∀ w fault r, P w → Q r → P (w.complete s fault r).2) (hd : d.Bounded Q)
    (hw : P w) (h : ∀ b w, P w → Ends meanwhile post w (next b)) :
    Ends meanwhile post w (talk s d next) := by
  obtain ⟨hwalkless, honly⟩ := hd
  induction d generalizing w with
  | done b => exact ends_talk_done hP hw rfl (h b)
  | note n d ih => exact ends_talk_note hP hw rfl fun w hw => ih (hnote w n hw) hwalkless honly
  | call r rest ih =>
    refine ends_talk_any hP hw haccept rfl (fun w error hw => ?_) fun w fault hw => ?_
    · exact ih _ hw (hwalkless _) (honly.2 _)
    · exact ih _ (hcomplete w fault r hw honly.1) (hwalkless _) (honly.2 _)
  | collect visited pending next => exact hwalkless.elim

theorem ends_pause {ms : Nat} {next : Unit → Task α} (hP : Stable meanwhile P) (hw : P w)
    (h : ∀ w, P w → Ends meanwhile post w (next ())) :
    Ends meanwhile post w (pause ms >>= next) := by
  show Ends meanwhile post w (sleep ms (next ()))
  refine .move 0 rfl (fun _ _ _ => rfl) fun v w' t' hv hstep => ?_
  obtain ⟨rfl, rfl⟩ := Prod.ext_iff.1 (Option.some.inj hstep)
  have hPv := hP w v hw hv
  split_ifs
  · exact h v hPv
  · refine .move (v.now + ms) rfl (fun u _ hle => by simp [step, Nat.not_lt.2 hle])
      fun u w' t' hu hstep => ?_
    simp only [step] at hstep
    split_ifs at hstep
    obtain ⟨rfl, rfl⟩ := Prod.ext_iff.1 (Option.some.inj hstep)
    exact h u (hP v u hPv hu)

/-- A wait with a limit ends with the signal, which is shown then, or without. -/
theorem ends_await_either {signal : Signal} {ms : Nat} {next : Bool → Task α}
    (hP : Stable meanwhile P) (hw : P w)
    (hcame : ∀ w, P w → w.shows signal = true → Ends meanwhile post w (next true))
    (hlate : ∀ w, P w → Ends meanwhile post w (next false)) :
    Ends meanwhile post w (awaitSignal signal (some ms) >>= next) := by
  show Ends meanwhile post w (await signal (some ms) next)
  refine .move 0 rfl (fun v _ _ => ?_) fun v w' t' hv hstep => ?_
  · simp only [step]
    split_ifs <;> rfl
  · have hPv := hP w v hw hv
    simp only [step] at hstep
    split_ifs at hstep with hshown hnow <;>
      obtain ⟨rfl, rfl⟩ := Prod.ext_iff.1 (Option.some.inj hstep)
    · exact hcame v hPv hshown
    · exact hlate v hPv
    · refine .move (v.now + ms) rfl (fun u _ hle => ?_) fun u w' t' hu hstep => ?_
      · simp only [step, Option.map_some, if_neg (Nat.not_lt.2 hle)]
        split_ifs <;> rfl
      · have hPu := hP v u hPv hu
        simp only [step, Option.map_some] at hstep
        split_ifs at hstep with hshown <;>
          obtain ⟨rfl, rfl⟩ := Prod.ext_iff.1 (Option.some.inj hstep)
        · exact hcame u hPu hshown
        · exact hlate u hPu

end Task

end KeyRegistry
