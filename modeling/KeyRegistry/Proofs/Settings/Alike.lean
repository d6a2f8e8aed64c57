import KeyRegistry.Center.Lifecycle
import KeyRegistry.Settings.Load

/-!
# Settings that differ in a secret

A digest names a user and a secret. Settings that differ in the secret alone come to the
same wherever they are used: they pass the same checks, sessions get the same identity,
and what is noted of them is the same.
-/

namespace KeyRegistry

namespace Credentials

variable {name : String} (secret : String)

def digestOf (name secret : String) : String := name ++ ":" ++ secret

theorem toList_digestOf : (digestOf name secret).toList = name.toList ++ ':' :: secret.toList := by
  simp [digestOf]

theorem user_digest (h : ':' ∉ name.toList) : (digest (digestOf name secret)).user = name := by
  have hall : ∀ c ∈ name.toList, decide (c ≠ ':') = true := by
    intro c hc
    have hne : c ≠ ':' := fun he => h (he ▸ hc)
    simpa using hne
  show String.ofList ((digestOf name secret).toList.takeWhile (· ≠ ':')) = name
  rw [toList_digestOf, List.takeWhile_append_of_pos hall]
  simp

theorem identity_digest (h : ':' ∉ name.toList) :
    (digest (digestOf name secret)).identity = "digest:" ++ name := by
  rw [identity, user_digest secret h]
  rfl

end Credentials

namespace Settings

open Credentials (digestOf)

variable {s s' : Settings} {name : String}

def keyed (s : Settings) (name secret : String) : Settings :=
  { s with digest := some (digestOf name secret) }

theorem credentials_keyed (s : Settings) (name secret : String) :
    (s.keyed name secret).credentials = some (.digest (digestOf name secret)) := by
  have hne : digestOf name secret ≠ "" := fun he => by
    have hlist := congrArg String.toList he
    simp [Credentials.toList_digestOf] at hlist
  simp [credentials, keyed, hne]

theorem identity_keyed (s : Settings) (h : ':' ∉ name.toList) (secret : String) :
    (s.keyed name secret).identity = some ("digest:" ++ name) := by
  rw [identity, credentials_keyed, Option.map_some, Credentials.identity_digest secret h]

theorem check_keyed (s : Settings) (name secret : String) :
    (s.keyed name secret).check = ({ s with digest := none } : Settings).check := by
  have hmem : ':' ∈ (digestOf name secret).toList := by simp [Credentials.toList_digestOf]
  simp only [check, keyed, namespaceOf, hmem, not_true_eq_false, and_false, if_false]

/-- Settings that are the same but for the text behind the user of their digests, if not for
nothing. -/
inductive Alike : Settings → Settings → Prop
  | same (s : Settings) : Alike s s
  | secrets (s : Settings) {name : String} (plain : ':' ∉ name.toList) (secret secret' : String) :
      Alike (s.keyed name secret) (s.keyed name secret')

namespace Alike

variable (h : Alike s s')

include h

theorem identity_eq : s.identity = s'.identity := by
  cases h with
  | same => rfl
  | secrets s hu => rw [identity_keyed s hu, identity_keyed s hu]

theorem masked_eq : s.credentials.map Credentials.masked =
    s'.credentials.map Credentials.masked := by
  cases h with
  | same => rfl
  | secrets s => rw [credentials_keyed, credentials_keyed]; rfl

theorem check_eq : s.check = s'.check := by
  cases h with
  | same => rfl
  | secrets s => rw [check_keyed, check_keyed]

theorem sanitizedText_eq : s.sanitizedText = s'.sanitizedText := by
  cases h <;> rfl

theorem loadNotices_eq : loadNotices (.ok s) = loadNotices (.ok s') := by
  rw [loadNotices, loadNotices, h.sanitizedText_eq]

theorem serverLists_eq : s.serverLists = s'.serverLists := by
  cases h <;> rfl

theorem maxRetries_eq : s.maxRetries = s'.maxRetries := by
  cases h <;> rfl

theorem backoff_eq : s.backoff = s'.backoff := by
  cases h <;> rfl

theorem seedFile_eq : s.seedFile = s'.seedFile := by
  cases h <;> rfl

theorem overwrite_eq : s.overwrite = s'.overwrite := by
  cases h <;> rfl

theorem replicaShutdownMs_eq : s.replicaShutdownMs = s'.replicaShutdownMs := by
  cases h <;> rfl

theorem namespaceOf_eq : s.namespaceOf = s'.namespaceOf := by
  cases h <;> rfl

theorem prepare_eq (file : String → Except FileFault (List UInt8)) :
    Center.prepare s file = Center.prepare s' file := by
  simp only [Center.prepare, h.check_eq, h.namespaceOf_eq, h.seedFile_eq]

end Alike

end Settings

end KeyRegistry
