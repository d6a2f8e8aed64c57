import KeyRegistry.Settings

/-!
# The fields of the settings

Each field has a name and a slot, which says what it holds and where that goes.
A strict reading takes only values of the slot's own type.
-/

namespace KeyRegistry.Settings

/-- What a field holds, and the settings with that value in its place. -/
inductive Slot
  | text (put : Settings → String → Settings)
  | optionalText (put : Settings → Option String → Settings)
  | count (limit : Nat) (put : Settings → Nat → Settings)
  | flag (put : Settings → Bool → Settings)

structure Field where
  name : String
  slot : Slot

def largestWord : Nat := Nat.pow 2 64 - 1

def largestHalfWord : Nat := Nat.pow 2 32 - 1

/-- All fields, in the order in which a list gives them. -/
def fields : List Field := [
  ⟨"server_lists", .text fun s t => { s with serverLists := t }⟩,
  ⟨"namespace", .text fun s t => { s with namespaceName := t }⟩,
  ⟨"base_sleep_time_milliseconds", .count largestWord fun s n => { s with baseSleepMs := n }⟩,
  ⟨"max_retries", .count largestHalfWord fun s n => { s with maxRetries := n }⟩,
  ⟨"max_sleep_time_milliseconds", .count largestWord fun s n => { s with maxSleepMs := n }⟩,
  ⟨"session_timeout_milliseconds", .count largestWord fun s n => { s with sessionTimeoutMs := n }⟩,
  ⟨"connection_timeout_milliseconds",
    .count largestWord fun s n => { s with connectionTimeoutMs := n }⟩,
  ⟨"digest", .optionalText fun s t => { s with digest := t }⟩,
  ⟨"local_properties_path", .optionalText fun s t => { s with seedFile := t }⟩,
  ⟨"overwrite", .flag fun s b => { s with overwrite := b }⟩,
  ⟨"cache_shutdown_timeout_milliseconds",
    .count largestWord fun s n => { s with replicaShutdownMs := n }⟩]

def Slot.take? (s : Settings) : Slot → Json → Option Settings
  | .text put, .str t => some (put s t)
  | .optionalText put, .null => some (put s none)
  | .optionalText put, .str t => some (put s (some t))
  | .count limit put, .int n => if 0 ≤ n ∧ n.toNat ≤ limit then some (put s n.toNat) else none
  | .flag put, .bool b => some (put s b)
  | _, _ => none

/-- The settings that an object gives by name, or an array by position. Unknown
names are passed over, and a field without a value has its default. -/
def ofJson? (v : Json) : Option Settings :=
  match v with
  | .obj _ => fields.foldlM (fun s f =>
      match v.field? f.name with
      | some x => f.slot.take? s x
      | none => some s) {}
  | .arr items =>
    if fields.length < items.length then none
    else (fields.zip items).foldlM (fun s (f, x) => f.slot.take? s x) {}
  | _ => none

end KeyRegistry.Settings
