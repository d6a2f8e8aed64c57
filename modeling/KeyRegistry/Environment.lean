/-!
# The environment

The variables of a process. A name that is given again has its later value.
-/

namespace KeyRegistry

abbrev Environment := List (String × String)

def Environment.get? (e : Environment) (name : String) : Option String :=
  (e.reverse.find? fun v => v.1 == name).map (·.2)

@[simp] theorem Environment.get?_nil (name : String) : Environment.get? [] name = none := rfl

end KeyRegistry
